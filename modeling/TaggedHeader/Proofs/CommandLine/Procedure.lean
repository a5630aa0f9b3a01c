import TaggedHeader.CommandLine.Command

/-!
# Parts of the program

Most parts of the program leave the tree of files alone, and what they come to depends on the tree alone:
`Procedure.Yields` says what. What they write to the streams on the way is of no consequence for this.
-/

namespace TaggedHeader.CommandLine

/-- What a run of a part of the program comes to, and the session afterwards. -/
def Procedure.runOn {α : Type} (procedure : Procedure α) (session : Session) : Except Report α × Session :=
  procedure.run.run session

namespace Procedure

variable {α β : Type} {procedure : Procedure α} {next : α → Procedure β} {tree : FileTree}
  {result : Except Report α}

/-- A part of the program goes on from where the part before it stopped, unless that failed. -/
theorem runOn_bind (procedure : Procedure α) (next : α → Procedure β) (session : Session) :
    (procedure >>= next).runOn session =
      match procedure.runOn session with
      | (.ok value, after) => (next value).runOn after
      | (.error report, after) => (.error report, after) := by
  unfold runOn
  rw [ExceptT.run_bind, StateT.run_bind]
  show (match procedure.run.run session with | (result, after) => _) = _
  rcases procedure.run.run session with ⟨_ | _, _⟩ <;> rfl

/-- Two parts of the program succeed one after the other when both succeed. -/
theorem runOn_bind_eq_ok_iff {session after : Session} {value : β} :
    (procedure >>= next).runOn session = (.ok value, after) ↔
      ∃ first between, procedure.runOn session = (.ok first, between) ∧
        (next first).runOn between = (.ok value, after) := by
  rw [runOn_bind]
  obtain ⟨report | first, between⟩ := procedure.runOn session
  · refine ⟨nofun, ?_⟩
    rintro ⟨_, _, h, _⟩
    cases h
  · refine ⟨fun h => ⟨first, between, rfl, h⟩, ?_⟩
    rintro ⟨_, _, h, hnext⟩
    cases h
    exact hnext

/-- Two parts of the program fail one after the other when the first does, or the second behind it. -/
theorem runOn_bind_eq_error_iff {session after : Session} {report : Report} :
    (procedure >>= next).runOn session = (.error report, after) ↔
      procedure.runOn session = (.error report, after) ∨
        ∃ first between, procedure.runOn session = (.ok first, between) ∧
          (next first).runOn between = (.error report, after) := by
  rw [runOn_bind]
  obtain ⟨fault | first, between⟩ := procedure.runOn session
  · constructor
    · intro h
      cases h
      exact .inl rfl
    · rintro (h | ⟨_, _, h, -⟩)
      · cases h
        rfl
      · cases h
  · refine ⟨fun h => .inr ⟨first, between, rfl, h⟩, ?_⟩
    rintro (h | ⟨_, _, h, hnext⟩)
    · cases h
    · cases h
      exact hnext

/-- What a part of the program comes to on a tree, which it leaves alone. -/
def Yields (procedure : Procedure α) (tree : FileTree) (result : Except Report α) : Prop :=
  ∀ session : Session, session.tree = tree → ∃ after, procedure.runOn session = (result, after) ∧ after.tree = tree

/-- Whether a part of the program always comes to something and leaves the tree alone. -/
def Quiet (procedure : Procedure α) : Prop :=
  ∀ session : Session, ∃ value after, procedure.runOn session = (.ok value, after) ∧ after.tree = session.tree

/-- What a part of the program comes to, told by one of its runs. -/
theorem Yields.eq_of_runOn (h : procedure.Yields tree result) {session after : Session} {outcome : Except Report α}
    (hsession : session.tree = tree) (hrun : procedure.runOn session = (outcome, after)) :
    result = outcome ∧ after.tree = tree := by
  obtain ⟨last, hlast, htree⟩ := h session hsession
  obtain ⟨rfl, rfl⟩ := Prod.mk.inj (hlast.symm.trans hrun)
  exact ⟨rfl, htree⟩

theorem Quiet.ne_error (h : procedure.Quiet) {session after : Session} {report : Report} :
    procedure.runOn session ≠ (.error report, after) := by
  intro hrun
  obtain ⟨value, last, hlast, -⟩ := h session
  cases hlast.symm.trans hrun

theorem yields_pure (value : α) : (pure value : Procedure α).Yields tree (.ok value) :=
  fun session hsession => ⟨session, rfl, hsession⟩

theorem yields_return (value : α) :
    (pure value : Procedure α).Yields tree ((Except.ok value : Except ProjectError α).mapError .plain) :=
  yields_pure value

theorem yields_ofProject (project : Except ProjectError α) :
    (ofProject project).Yields tree (project.mapError .plain) := by
  intro session hsession
  cases project with
  | ok value => exact ⟨session, rfl, hsession⟩
  | error error => exact ⟨session, rfl, hsession⟩

/-- A part that looks at the session comes to what it comes to on the tree. -/
theorem yields_get {next : Session → Procedure α}
    (h : ∀ session : Session, session.tree = tree → (next session).Yields tree result) :
    (get >>= next).Yields tree result := by
  intro session hsession
  rw [runOn_bind]
  exact h session hsession session hsession

theorem Yields.bind {second : α → Except Report β} (h : procedure.Yields tree result)
    (hnext : ∀ value, (next value).Yields tree (second value)) :
    (procedure >>= next).Yields tree (result >>= second) := by
  intro session hsession
  obtain ⟨after, hrun, hafter⟩ := h session hsession
  rw [runOn_bind, hrun]
  cases result with
  | ok value => exact hnext value after hafter
  | error report => exact ⟨after, rfl, hafter⟩

/-- Steps of work on a project come to what they do one after another. -/
theorem Yields.bind_project {first : Except ProjectError α} {second : α → Except ProjectError β}
    (h : procedure.Yields tree (first.mapError .plain))
    (hnext : ∀ value, (next value).Yields tree ((second value).mapError .plain)) :
    (procedure >>= next).Yields tree ((first >>= second).mapError .plain) := by
  have hboth := h.bind hnext
  cases first with
  | ok value => exact hboth
  | error error => exact hboth

theorem Quiet.bind_yields {result : Except Report β} (h : procedure.Quiet)
    (hnext : ∀ value, (next value).Yields tree result) : (procedure >>= next).Yields tree result := by
  intro session hsession
  obtain ⟨value, after, hrun, hafter⟩ := h session
  rw [runOn_bind, hrun]
  exact hnext value after (hafter.trans hsession)

theorem quiet_pure (value : α) : (pure value : Procedure α).Quiet := fun session => ⟨value, session, rfl, rfl⟩

theorem quiet_out (text : String) : (out text).Quiet := fun _ => ⟨(), _, rfl, rfl⟩

theorem quiet_err (text : String) : (err text).Quiet := fun _ => ⟨(), _, rfl, rfl⟩

theorem quiet_painted (style : Style) (text : String) : (painted style text).Quiet :=
  fun session => ⟨_, session, rfl, rfl⟩

theorem Quiet.bind (h : procedure.Quiet) (hnext : ∀ value, (next value).Quiet) : (procedure >>= next).Quiet := by
  intro session
  obtain ⟨value, after, hrun, hafter⟩ := h session
  obtain ⟨result, last, hlast, htree⟩ := hnext value after
  refine ⟨result, last, ?_, htree.trans hafter⟩
  rw [runOn_bind, hrun]
  exact hlast

theorem quiet_forM {items : List α} {action : α → Procedure Unit} (h : ∀ item, (action item).Quiet) :
    (items.forM action).Quiet := by
  induction items with
  | nil => exact quiet_pure ()
  | cons item items ih => exact (h item).bind fun _ => ih

/-- A change of the tree leaves the changed tree, whether it succeeds or not. -/
theorem runOn_changeTree (change : FileTree → FileTree.Outcome) (session : Session) :
    (changeTree change).runOn session =
      ((change session.tree).2.elim (.ok ()) fun error => .error (.plain (.file error)),
        { session with tree := (change session.tree).1 }) := by
  have hget : (get : Procedure Session).runOn session = (.ok session, session) := rfl
  unfold changeTree
  rw [runOn_bind, hget]
  dsimp only
  obtain ⟨tree, _ | error⟩ := change session.tree
  · rfl
  · rfl

theorem changeTree_eq_of_error {change : FileTree → FileTree.Outcome} {session after : Session} {report : Report}
    (h : (changeTree change).runOn session = (.error report, after)) :
    ∃ error, change session.tree = (after.tree, some error) ∧ report = .plain (.file error) := by
  rw [runOn_changeTree] at h
  generalize change session.tree = outcome at h ⊢
  obtain ⟨tree, _ | error⟩ := outcome
  · cases h
  · cases h
    exact ⟨error, rfl, rfl⟩

end Procedure
end TaggedHeader.CommandLine

import Mathlib.Data.List.Basic
import Mathlib.Data.List.Forall2

/-!
# Computations that may fail

When a computation in parts succeeds, so do its parts, and when it fails, the first part to fail is what fails it; and
what every step of a loop keeps, the loop keeps.
-/

namespace TaggedHeader

/-- A computation in two parts succeeds when both parts do. -/
theorem bind_eq_ok_iff {ε α β : Type} {first : Except ε α} {second : α → Except ε β} {result : β} :
    first >>= second = .ok result ↔ ∃ value, first = .ok value ∧ second value = .ok result := by
  cases first with
  | error fault => simp [bind, Except.bind]
  | ok value => simp [bind, Except.bind]

theorem eq_ok_of_toOption {ε α : Type} {result : Except ε α} {value : α} (h : result.toOption = some value) :
    result = .ok value := by
  cases result <;> cases h
  rfl

theorem mapError_eq_ok_iff {ε ε' α : Type} {result : Except ε α} {wrap : ε → ε'} {value : α} :
    result.mapError wrap = .ok value ↔ result = .ok value := by
  cases result <;> simp [Except.mapError]

theorem mapError_eq_error_iff {ε ε' α : Type} {result : Except ε α} {wrap : ε → ε'} {fault : ε'} :
    result.mapError wrap = .error fault ↔ ∃ error, result = .error error ∧ wrap error = fault := by
  cases result <;> simp [Except.mapError]

/-- A computation in two parts fails when the first part does or the second one. -/
theorem bind_eq_error_iff {ε α β : Type} {first : Except ε α} {second : α → Except ε β} {error : ε} :
    first >>= second = .error error ↔
      first = .error error ∨ ∃ value, first = .ok value ∧ second value = .error error := by
  cases first with
  | error fault => simp [bind, Except.bind]
  | ok value => simp [bind, Except.bind]

/-! ## Computing item by item -/

/-- A computation over a list succeeds when it does for each item, with the results in the order of the items. -/
theorem mapM_eq_ok_iff {ε α β : Type} {compute : α → Except ε β} {items : List α} {results : List β} :
    items.mapM compute = .ok results ↔ List.Forall₂ (fun item result => compute item = .ok result) items results := by
  induction items generalizing results with
  | nil =>
    rw [List.mapM_nil, List.forall₂_nil_left_iff]
    exact ⟨fun h => by cases h; rfl, fun h => h ▸ rfl⟩
  | cons item items ih =>
    rw [List.mapM_cons, bind_eq_ok_iff]
    constructor
    · rintro ⟨first, hfirst, h⟩
      obtain ⟨others, hothers, h⟩ := bind_eq_ok_iff.mp h
      cases h
      exact .cons hfirst (ih.mp hothers)
    · intro h
      cases h with
      | @cons _ first _ others hfirst hothers =>
        exact ⟨first, hfirst, bind_eq_ok_iff.mpr ⟨others, ih.mpr hothers, rfl⟩⟩

/-- A computation over a list fails as it does for the first item for which it does. -/
theorem mapM_eq_error_iff {ε α β : Type} {compute : α → Except ε β} {items : List α} {error : ε} :
    items.mapM compute = .error error ↔ ∃ before item after, items = before ++ item :: after ∧
      (∀ other ∈ before, ∃ result, compute other = .ok result) ∧ compute item = .error error := by
  induction items with
  | nil => simp [List.mapM_nil, pure, Except.pure]
  | cons first items ih =>
    rw [List.mapM_cons, bind_eq_error_iff]
    constructor
    · rintro (hfirst | ⟨result, hfirst, h⟩)
      · exact ⟨[], first, items, rfl, List.forall_mem_nil _, hfirst⟩
      · rcases bind_eq_error_iff.mp h with hothers | ⟨others, -, h⟩
        · obtain ⟨before, item, after, rfl, hbefore, herror⟩ := ih.mp hothers
          exact ⟨first :: before, item, after, rfl, List.forall_mem_cons.mpr ⟨⟨result, hfirst⟩, hbefore⟩, herror⟩
        · cases h
    · rintro ⟨before, item, after, hitems, hbefore, herror⟩
      cases before with
      | nil =>
        cases hitems
        exact .inl herror
      | cons other before =>
        cases hitems
        obtain ⟨⟨result, hfirst⟩, hbefore⟩ := List.forall_mem_cons.mp hbefore
        refine .inr ⟨result, hfirst, bind_eq_error_iff.mpr (.inl ?_)⟩
        exact ih.mpr ⟨before, item, after, rfl, hbefore, herror⟩

/-- What a computation makes of a list comes from the items of the list. -/
theorem exists_of_mem_mapM {ε α β : Type} {compute : α → Except ε β} {items : List α} {results : List β}
    (h : items.mapM compute = .ok results) {result : β} (hresult : result ∈ results) :
    ∃ item ∈ items, compute item = .ok result := by
  induction mapM_eq_ok_iff.mp h with
  | nil => cases hresult
  | cons hfirst hothers ih =>
    rcases List.mem_cons.mp hresult with rfl | hresult
    · exact ⟨_, List.mem_cons_self, hfirst⟩
    · obtain ⟨item, hitem, hcompute⟩ := ih (mapM_eq_ok_iff.mpr hothers) hresult
      exact ⟨item, List.mem_cons_of_mem _ hitem, hcompute⟩

/-- What was computed of a list was computed of each of its items. -/
theorem forall_of_mapM {ε α β : Type} {compute : α → Except ε β} {items : List α} {results : List β}
    (h : items.mapM compute = .ok results) : ∀ item ∈ items, ∃ result ∈ results, compute item = .ok result := by
  induction mapM_eq_ok_iff.mp h with
  | nil => simp
  | cons hfirst hothers ih =>
    refine List.forall_mem_cons.mpr ⟨⟨_, List.mem_cons_self, hfirst⟩, fun item hitem => ?_⟩
    obtain ⟨result, hresult, hcompute⟩ := ih (mapM_eq_ok_iff.mpr hothers) item hitem
    exact ⟨result, List.mem_cons_of_mem _ hresult, hcompute⟩

/-- The items of a list are found again in what was computed of them, if each result tells its item. -/
theorem map_eq_of_mapM {ε α β : Type} {compute : α → Except ε β} {items : List α} {results : List β}
    {source : β → α} (hsource : ∀ item result, compute item = .ok result → source result = item)
    (h : items.mapM compute = .ok results) : results.map source = items := by
  induction mapM_eq_ok_iff.mp h with
  | nil => rfl
  | cons hfirst hothers ih => rw [List.map_cons, hsource _ _ hfirst, ih (mapM_eq_ok_iff.mpr hothers)]

/-- What can be computed of each item of a list can be computed of the list. -/
theorem exists_mapM {ε α β : Type} {compute : α → Except ε β} {items : List α}
    (h : ∀ item ∈ items, ∃ result, compute item = .ok result) : ∃ results, items.mapM compute = .ok results := by
  induction items with
  | nil => exact ⟨[], rfl⟩
  | cons item items ih =>
    obtain ⟨⟨first, hfirst⟩, hothers⟩ := List.forall_mem_cons.mp h
    obtain ⟨others, hothers⟩ := ih hothers
    refine ⟨first :: others, ?_⟩
    rw [List.mapM_cons, hfirst, hothers]
    rfl

section Loops

variable {ε α β : Type} {step : β → α → Except ε β} {items : List α} {start stop : β}

/-- What every step keeps is kept by going through a list. -/
theorem foldlM_preserves {P : β → Prop} (hstep : ∀ state item next, P state →
      step state item = .ok next → P next) (h : items.foldlM step start = .ok stop) (hstart : P start) :
    P stop := by
  induction items generalizing start with
  | nil =>
    cases h
    exact hstart
  | cons item items ih =>
    rw [List.foldlM_cons, bind_eq_ok_iff] at h
    obtain ⟨next, hnext, hrest⟩ := h
    exact ih hrest (hstep start item next hstart hnext)

/-- Going through a list succeeds when every step does, and establishes what the steps do one by one. -/
theorem exists_foldlM (step : β → α → Except ε β) (items : List α) {P : Nat → β → Prop}
    (hstep : ∀ index (hindex : index < items.length) state, P index state →
      ∃ next, step state items[index] = .ok next ∧ P (index + 1) next)
    (hstart : P 0 start) : ∃ stop, items.foldlM step start = .ok stop ∧ P items.length stop := by
  induction items generalizing start P with
  | nil => exact ⟨start, rfl, hstart⟩
  | cons item items ih =>
    obtain ⟨next, hnext, hfirst⟩ := hstep 0 (Nat.zero_lt_succ _) start hstart
    obtain ⟨stop, hstop, hlast⟩ := ih (P := fun index => P (index + 1))
      (fun index hindex => hstep (index + 1) (Nat.succ_lt_succ hindex)) hfirst
    refine ⟨stop, ?_, hlast⟩
    rw [List.foldlM_cons, bind_eq_ok_iff]
    exact ⟨next, hnext, hstop⟩

end Loops

end TaggedHeader

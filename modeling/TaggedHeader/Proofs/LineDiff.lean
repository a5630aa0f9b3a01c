import Mathlib.Tactic.Common
import TaggedHeader.LineDiff

/-!
# What a script of lines does

The script by which one list of lines is shown to differ from another starts from the one and makes the other. The
search only decides where the lists are divided, so nothing has to be known about where it comes out. What moves the
runs afterwards changes neither what a script starts from nor what it makes: a deletion and an insertion next to each
other can change places, and an inserted run that ends like the kept lines in front of it can start one line earlier.
-/

namespace TaggedHeader

variable {α : Type}

namespace Block

variable {script script' : List (Block α)} {old new : List α}

@[simp] theorem source_nil : source ([] : List (Block α)) = [] := rfl

@[simp] theorem result_nil : result ([] : List (Block α)) = [] := rfl

@[simp] theorem source_cons (block : Block α) (script : List (Block α)) :
    source (block :: script) = (if block.action = .insert then [] else block.lines) ++ source script :=
  List.flatMap_cons

@[simp] theorem result_cons (block : Block α) (script : List (Block α)) :
    result (block :: script) = (if block.action = .delete then [] else block.lines) ++ result script :=
  List.flatMap_cons

@[simp] theorem source_append (script script' : List (Block α)) :
    source (script ++ script') = source script ++ source script' := List.flatMap_append

@[simp] theorem result_append (script script' : List (Block α)) :
    result (script ++ script') = result script ++ result script' := List.flatMap_append

/-- That a script turns one list of lines into another. -/
structure Turns (script : List (Block α)) (old new : List α) : Prop where
  source : source script = old
  result : result script = new

/-- Scripts one behind the other turn lists one behind the other. -/
theorem Turns.append {old' new' : List α} (h : Turns script old new) (h' : Turns script' old' new') :
    Turns (script ++ script') (old ++ old') (new ++ new') :=
  ⟨by rw [source_append, h.source, h'.source], by rw [result_append, h.result, h'.result]⟩

/-- Kept lines are kept. -/
theorem turns_keep (lines : List α) : Turns (LineDiff.block? .keep lines) lines lines := by
  cases lines <;> constructor <;> simp [LineDiff.block?]

/-- A deletion and an insertion exchange two lists. -/
theorem turns_exchange (deleted inserted : List α) :
    Turns [⟨.delete, deleted⟩, ⟨.insert, inserted⟩] deleted inserted := by
  constructor <;> simp

/-- Blocks without lines can be left out of an exchange. -/
theorem turns_exchange? (deleted inserted : List α) :
    Turns (LineDiff.block? .delete deleted ++ LineDiff.block? .insert inserted) deleted inserted := by
  cases deleted <;> cases inserted <;> constructor <;> simp [LineDiff.block?]

end Block

namespace LineDiff

open Block

variable [DecidableEq α]

/-- Two lists begin with the same lines as far as they are counted. -/
theorem take_sharedPrefix (left right : List α) :
    left.take (sharedPrefix left right) = right.take (sharedPrefix left right) := by
  fun_induction sharedPrefix left right with
  | case1 a left right ih => rw [List.take_succ_cons, List.take_succ_cons, ih]
  | case2 a left b right hne => rfl
  | case3 left right => rfl

/-- No more lines are shared than there are. -/
theorem sharedPrefix_le (left right : List α) :
    sharedPrefix left right ≤ left.length ∧ sharedPrefix left right ≤ right.length := by
  fun_induction sharedPrefix left right with
  | case1 a left right ih => exact ⟨Nat.succ_le_succ ih.1, Nat.succ_le_succ ih.2⟩
  | case2 a left b right hne => exact ⟨Nat.zero_le _, Nat.zero_le _⟩
  | case3 left right => exact ⟨Nat.zero_le _, Nat.zero_le _⟩

/-- Two lists end with the same lines as far as they are counted. -/
theorem drop_sharedSuffix (left right : List α) :
    left.drop (left.length - sharedSuffix left right) = right.drop (right.length - sharedSuffix left right) := by
  have hshared := congrArg List.reverse (take_sharedPrefix left.reverse right.reverse)
  rwa [List.take_reverse, List.take_reverse, List.reverse_reverse, List.reverse_reverse] at hshared

/-- No more lines are shared at the end than there are. -/
theorem sharedSuffix_le (left right : List α) :
    sharedSuffix left right ≤ left.length ∧ sharedSuffix left right ≤ right.length := by
  have hshared := sharedPrefix_le left.reverse right.reverse
  rwa [List.length_reverse, List.length_reverse] at hshared

/-- What two lists share at both ends does not overlap. -/
theorem shared_ends (old new : List α) {front tail : Nat} (hfront : front = sharedPrefix old new)
    (htail : tail = sharedSuffix (old.drop front) (new.drop front)) :
    old.take front = new.take front ∧ old.drop (old.length - tail) = new.drop (new.length - tail) ∧
      front + tail ≤ old.length ∧ front + tail ≤ new.length := by
  have hfrontLe := sharedPrefix_le old new
  have htailLe := sharedSuffix_le (old.drop front) (new.drop front)
  have hend := drop_sharedSuffix (old.drop front) (new.drop front)
  rw [← hfront] at hfrontLe
  rw [← htail] at htailLe hend
  simp only [List.length_drop, List.drop_drop] at htailLe hend
  have hplace : ∀ length : Nat, front ≤ length → tail ≤ length - front →
      front + (length - front - tail) = length - tail := fun length _ _ => by omega
  rw [hplace _ hfrontLe.1 htailLe.1, hplace _ hfrontLe.2 htailLe.2] at hend
  refine ⟨hfront ▸ take_sharedPrefix old new, hend, ?_, ?_⟩ <;> omega

omit [DecidableEq α] in
/-- A list between what it shares with another at either end. -/
theorem take_drop_append (lines : List α) {front tail : Nat} (hfit : front + tail ≤ lines.length) :
    lines.take front ++ (lines.drop front).take (lines.length - front - tail) ++
      lines.drop (lines.length - tail) = lines := by
  have hend : lines.drop (lines.length - tail) = (lines.drop front).drop (lines.length - front - tail) := by
    rw [List.drop_drop]
    congr 1
    omega
  rw [hend, List.append_assoc, List.take_append_drop, List.take_append_drop]

/-- The search finds a script that turns the one list into the other. -/
theorem turns_search (old new : List α) : Turns (search old new) old new := by
  fun_induction search old new with
  | case1 old new front tail oldRest newRest between ihfront ihback =>
    -- Wherever the lists are divided, the parts before and behind the place make the whole.
    have hbetween : Turns between oldRest newRest := by
      simp only [between]
      split
      · exact turns_exchange? oldRest newRest
      · split
        · rename_i x y _
          split
          · rename_i hdivides
            have hhalves := (ihfront x y hdivides).append (ihback x y hdivides)
            rwa [List.take_append_drop, List.take_append_drop] at hhalves
          · exact turns_exchange oldRest newRest
        · exact turns_exchange oldRest newRest
    obtain ⟨hbegin, hend, hfit, hfit'⟩ := shared_ends old new (rfl : front = _) (rfl : tail = _)
    have hscript := ((turns_keep (old.take front)).append hbetween).append
      (turns_keep (old.drop (old.length - tail)))
    refine ⟨hscript.source.trans (take_drop_append old hfit), hscript.result.trans ?_⟩
    rw [hbegin, hend]
    exact take_drop_append new hfit'

/-- The script around a run, with the run in its place. -/
def Cursor.script (action : Action) (cursor : Cursor α) : List (Block α) :=
  cursor.before.reverse ++ ⟨action, cursor.run⟩ :: cursor.after

omit [DecidableEq α] in
theorem turns_keepAfter (line : α) (blocks : List (Block α)) :
    Turns (keepAfter line blocks) (line :: source blocks) (line :: result blocks) := by
  fun_cases keepAfter line blocks <;> constructor <;> simp

omit [DecidableEq α] in
theorem turns_keepBefore (line : α) (blocks : List (Block α)) :
    Turns (keepBefore line blocks).reverse (source blocks.reverse ++ [line]) (result blocks.reverse ++ [line]) := by
  fun_cases keepBefore line blocks <;> constructor <;> simp

/-- Moving a run up does not change what the script does. -/
theorem turns_moveUp {action : Action} (haction : action ≠ .keep) (steps : Nat) (cursor : Cursor α) :
    Turns ((moveUp action steps cursor).script action) (source (cursor.script action))
      (result (cursor.script action)) := by
  fun_induction moveUp action steps cursor with
  | case1 cursor => exact ⟨rfl, rfl⟩
  | case2 steps cursor hnone => exact ⟨rfl, rfl⟩
  | case3 steps cursor lines blocks hbefore hempty ih =>
    simpa [Cursor.script, hbefore, List.getLast?_eq_none_iff.mp hempty] using ih
  | case4 steps cursor lines blocks hbefore line hline hmoves ih =>
    obtain ⟨rfl, hrun⟩ := hmoves
    obtain ⟨kept, rfl⟩ := List.getLast?_eq_some_iff.mp hline
    obtain ⟨moved, hmoved⟩ := List.getLast?_eq_some_iff.mp hrun
    have hkeep := turns_keepAfter line cursor.after
    simpa [Cursor.script, hbefore, hmoved, hkeep.source, hkeep.result] using ih
  | case5 steps cursor lines blocks hbefore line hline hstays => exact ⟨rfl, rfl⟩
  | case6 steps cursor block blocks _ hbefore hsame ih =>
    subst hsame
    cases hblock : block.action <;> simpa [Cursor.script, hbefore, hblock] using ih
  | case7 steps cursor block blocks hchanged hbefore hother ih =>
    obtain ⟨blockAction, lines⟩ := block
    have hblock : blockAction ≠ .keep := fun hkeep => hchanged lines (by rw [hkeep])
    cases action <;> cases blockAction <;> simp_all [Cursor.script]

/-- Moving a run down does not change what the script does. -/
theorem turns_moveDown {action : Action} (haction : action ≠ .keep) (steps : Nat) (cursor : Cursor α) :
    Turns ((moveDown action steps cursor).script action) (source (cursor.script action))
      (result (cursor.script action)) := by
  fun_induction moveDown action steps cursor with
  | case1 cursor => exact ⟨rfl, rfl⟩
  | case2 steps cursor hnone => exact ⟨rfl, rfl⟩
  | case3 steps cursor blocks hafter ih => simpa [Cursor.script, hafter] using ih
  | case4 steps cursor blocks line lines hmoves hafter ih =>
    obtain ⟨rfl, hrun⟩ := hmoves
    obtain ⟨moved, hmoved⟩ := List.head?_eq_some_iff.mp hrun
    have hkeep := turns_keepBefore line cursor.before
    simpa [Cursor.script, hafter, hmoved, hkeep.source, hkeep.result] using ih
  | case5 steps cursor blocks line lines hafter hstays => exact ⟨rfl, rfl⟩
  | case6 steps cursor block blocks _ hafter hsame ih =>
    subst hsame
    cases hblock : block.action <;> simpa [Cursor.script, hafter, hblock] using ih
  | case7 steps cursor block blocks hchanged hafter hother ih =>
    obtain ⟨blockAction, lines⟩ := block
    have hblock : blockAction ≠ .keep := fun hkeep => hchanged lines (by rw [hkeep])
    cases action <;> cases blockAction <;> simp_all [Cursor.script]

/-- Moving every run of an action does not change what the script does. -/
theorem turns_settle {action : Action} (haction : action ≠ .keep) (steps : Nat)
    (before after : List (Block α)) : Turns (settle action steps before after)
      (source (before.reverse ++ after)) (result (before.reverse ++ after)) := by
  fun_induction settle action steps before after with
  | case1 before after => exact ⟨rfl, rfl⟩
  | case2 steps before => constructor <;> simp
  | case3 steps before block after hblock up down ih =>
    have hup := turns_moveUp haction (moveBound before) ⟨before, block.lines, after⟩
    have hdown := turns_moveDown haction (moveBound up.after) up
    have hgiven : Cursor.script action ⟨before, block.lines, after⟩ = before.reverse ++ block :: after := by
      subst hblock
      rfl
    have hmoved : (⟨action, down.run⟩ :: down.before).reverse ++ down.after = down.script action := by
      simp [Cursor.script]
    rw [hgiven] at hup
    rw [hmoved] at ih
    exact ⟨ih.source.trans (hdown.source.trans hup.source), ih.result.trans (hdown.result.trans hup.result)⟩
  | case4 steps before block after hother ih => simpa using ih

/-- Moving the runs does not change what a script does. -/
theorem turns_compact (script : List (Block α)) : Turns (compact script) (source script) (result script) := by
  have hdelete : Action.delete ≠ .keep := by decide
  have hinsert : Action.insert ≠ .keep := by decide
  have hdeleted := turns_settle hdelete (moveBound script) [] script
  have hinserted := turns_settle hinsert (moveBound script) [] (settle .delete (moveBound script) [] script)
  exact ⟨hinserted.source.trans hdeleted.source, hinserted.result.trans hdeleted.result⟩

omit [DecidableEq α] in
/-- Deleting before inserting does not change what a script does. -/
theorem turns_arrange (deleted inserted : List α) (script : List (Block α)) :
    Turns (arrange deleted inserted script) (deleted ++ source script) (inserted ++ result script) := by
  fun_induction arrange deleted inserted script with
  | case1 deleted inserted => simpa using turns_exchange? deleted inserted
  | case2 deleted inserted lines blocks ih =>
    have hexchange := turns_exchange? deleted inserted
    have hkept : Turns [⟨.keep, lines⟩] lines lines := by constructor <;> simp
    simpa using (hexchange.append hkept).append ih
  | case3 deleted inserted lines blocks ih => simpa using ih
  | case4 deleted inserted lines blocks ih => simpa using ih

/-- The script by which a list of lines is shown to differ from another starts from the one and makes the
other. -/
theorem turns_script (old new : List α) : Turns (script old new) old new := by
  have hsearch := turns_search old new
  have hcompact := turns_compact (search old new)
  have harrange := turns_arrange [] [] (compact (search old new))
  exact ⟨harrange.source.trans (hcompact.source.trans hsearch.source),
    harrange.result.trans (hcompact.result.trans hsearch.result)⟩

end LineDiff
end TaggedHeader

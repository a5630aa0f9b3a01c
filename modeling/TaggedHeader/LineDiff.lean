/-!
# Differences between two lists of lines

A script turns one list into another: it keeps, deletes and inserts runs of lines, and `Block.source` and
`Block.result` read off a script what it starts from and what it makes.

The script is found by searching from both ends at once for the middle of a shortest one, and then in the same
way before and behind that middle. A run of inserted lines then moves as far down as it can, after it was moved up
to meet other insertions.
-/

namespace TaggedHeader

/-- What a script does to a run of lines. -/
inductive Block.Action where
  | keep
  | delete
  | insert
deriving DecidableEq, Repr

/-- A run of lines with what a script does to them. -/
structure Block (α : Type) where
  action : Block.Action
  lines : List α
deriving Repr

namespace Block

variable {α : Type}

/-- The lines that a script starts from. -/
def source (script : List (Block α)) : List α :=
  script.flatMap fun block => if block.action = .insert then [] else block.lines

/-- The lines that a script makes. -/
def result (script : List (Block α)) : List α :=
  script.flatMap fun block => if block.action = .delete then [] else block.lines

end Block

namespace LineDiff

variable {α : Type} [DecidableEq α]

/-- How many lines two lists begin with in common. -/
def sharedPrefix : List α → List α → Nat
  | a :: left, b :: right => if a = b then sharedPrefix left right + 1 else 0
  | _, _ => 0

/-- How many lines two lists end with in common. -/
def sharedSuffix (left right : List α) : Nat := sharedPrefix left.reverse right.reverse

/-- How far a search has come on each diagonal, counted in lines of the source. -/
structure Frontier where
  reached : Array Nat
  /-- The place of the diagonal that starts at the origin. -/
  center : Nat

namespace Frontier

/-- A frontier before the search, with room for so many diagonals on either side. -/
def initial (room : Nat) : Frontier := ⟨Array.replicate (2 * room + 1) 0, room⟩

/-- How far the search has come on a diagonal. -/
def get (frontier : Frontier) (diagonal : Int) : Nat :=
  frontier.reached.getD (diagonal + frontier.center).toNat 0

/-- Records how far the search has come on a diagonal. -/
def set (frontier : Frontier) (diagonal : Int) (reached : Nat) : Frontier :=
  { frontier with
    reached := frontier.reached.setIfInBounds (diagonal + frontier.center).toNat reached }

/-- Where the search enters a diagonal with its next edit: from the diagonal above by an insertion, or from the
one below by a deletion. -/
def entry (frontier : Frontier) (edits : Nat) (diagonal : Int) : Nat :=
  if diagonal = -edits ∨
      (diagonal ≠ edits ∧ frontier.get (diagonal - 1) < frontier.get (diagonal + 1)) then
    frontier.get (diagonal + 1)
  else frontier.get (diagonal - 1) + 1

end Frontier

/-- The diagonals that so many edits can lead to, the highest first. -/
def diagonals (edits : Nat) : List Int :=
  (List.range (edits + 1)).map fun (step : Nat) => (edits : Int) - 2 * step

/-- Takes one more edit on some diagonals. From each place where the search enters a diagonal it passes over the
lines that both lists have in common there, as counted by `shared`; `meets` tells where it has met the other
search. The place returned is the entry to the diagonal and how far the search came from there. -/
def extend (shared : Nat → Nat → Nat) (meets : Int → Nat → Bool) (edits : Nat) :
    List Int → Frontier → Sum (Int × Nat × Nat) Frontier
  | [], frontier => .inr frontier
  | diagonal :: rest, frontier =>
    let start := frontier.entry edits diagonal
    let across : Int := start - diagonal
    let stop := if across < 0 then start else start + shared start across.toNat
    if meets diagonal stop then .inl (diagonal, start, stop)
    else extend shared meets edits rest (frontier.set diagonal stop)

/-- Searches for the middle of a shortest script, trying `tries` further numbers of edits from `edits` on. -/
def findMiddle (old new : List α) :
    (tries : Nat) → (edits : Nat) → (forward backward : Frontier) → Option (Nat × Nat)
  | 0, _, _, _ => none
  | tries + 1, edits, forward, backward =>
    let n := old.length
    let m := new.length
    let delta : Int := (n : Int) - m
    let isOdd := delta % 2 != 0
    let onward (x y : Nat) : Nat := sharedPrefix (old.drop x) (new.drop y)
    let meetsBackward (diagonal : Int) (reached : Nat) : Bool :=
      isOdd && ((diagonal - delta).natAbs : Int) ≤ (edits : Int) - 1 &&
        n ≤ reached + backward.get (delta - diagonal)
    match extend onward meetsBackward edits (diagonals edits) forward with
    | .inl (diagonal, start, _) => some (start, (start - diagonal).toNat)
    | .inr forward =>
      let onback (x y : Nat) : Nat := sharedSuffix (old.take (n - x)) (new.take (m - y))
      let meetsForward (diagonal : Int) (reached : Nat) : Bool :=
        !isOdd && (diagonal - delta).natAbs ≤ edits && n ≤ reached + forward.get (delta - diagonal)
      match extend onback meetsForward edits (diagonals edits) backward with
      | .inl (diagonal, _, stop) => some (n - stop, m - (stop - diagonal).toNat)
      | .inr backward => findMiddle old new tries (edits + 1) forward backward

/-- The place in both lists where a shortest script is divided. -/
def middle? (old new : List α) : Option (Nat × Nat) :=
  let bound := (old.length + new.length + 1) / 2 + 1
  findMiddle old new bound 0 (.initial (bound + 1)) (.initial (bound + 1))

/-- A block unless it has no lines. -/
def block? (action : Block.Action) (lines : List α) : List (Block α) :=
  if lines.isEmpty then [] else [⟨action, lines⟩]

/-- A shortest script. Lines that both lists begin or end with are kept, and what is left between them is divided
in the middle. -/
def search (old new : List α) : List (Block α) :=
  let front := sharedPrefix old new
  let tail := sharedSuffix (old.drop front) (new.drop front)
  let oldRest := (old.drop front).take (old.length - front - tail)
  let newRest := (new.drop front).take (new.length - front - tail)
  let between :=
    if oldRest.isEmpty || newRest.isEmpty then
      block? .delete oldRest ++ block? .insert newRest
    else
      match middle? oldRest newRest with
      | some (x, y) =>
        if 0 < x + y ∧ x + y < oldRest.length + newRest.length ∧ x ≤ oldRest.length ∧
            y ≤ newRest.length then
          search (oldRest.take x) (newRest.take y) ++ search (oldRest.drop x) (newRest.drop y)
        else [⟨.delete, oldRest⟩, ⟨.insert, newRest⟩]
      | none => [⟨.delete, oldRest⟩, ⟨.insert, newRest⟩]
  block? .keep (old.take front) ++ between ++ block? .keep (old.drop (old.length - tail))
termination_by old.length + new.length
decreasing_by
  all_goals
    have oldShorter : oldRest.length ≤ old.length := by
      simp only [oldRest, List.length_take, List.length_drop]; omega
    have newShorter : newRest.length ≤ new.length := by
      simp only [newRest, List.length_take, List.length_drop]; omega
    simp only [List.length_take, List.length_drop]
    omega

/-- A run of lines with the rest of the script on either side of it, nearest first. -/
structure Cursor (α : Type) where
  before : List (Block α)
  run : List α
  after : List (Block α)

/-- Adds a kept line behind the blocks before a run. -/
def keepBefore (line : α) : List (Block α) → List (Block α)
  | ⟨.keep, lines⟩ :: blocks => ⟨.keep, lines ++ [line]⟩ :: blocks
  | blocks => ⟨.keep, [line]⟩ :: blocks

/-- Adds a kept line in front of the blocks behind a run. -/
def keepAfter (line : α) : List (Block α) → List (Block α)
  | ⟨.keep, lines⟩ :: blocks => ⟨.keep, line :: lines⟩ :: blocks
  | blocks => ⟨.keep, [line]⟩ :: blocks

/-- Moves a run up as far as it goes: past blocks of the opposite action, together with blocks of its own, and, if
it is inserted, past kept lines that it ends with itself. -/
def moveUp (action : Block.Action) : (steps : Nat) → Cursor α → Cursor α
  | 0, cursor => cursor
  | steps + 1, cursor =>
    match cursor.before with
    | [] => cursor
    | ⟨.keep, lines⟩ :: blocks =>
      match lines.getLast? with
      | none => moveUp action steps { cursor with before := blocks }
      | some line =>
        if action = .insert ∧ cursor.run.getLast? = some line then
          moveUp action steps
            { before := ⟨.keep, lines.dropLast⟩ :: blocks
              run := line :: cursor.run.dropLast
              after := keepAfter line cursor.after }
        else cursor
    | block :: blocks =>
      if block.action = action then
        moveUp action steps { cursor with before := blocks, run := block.lines ++ cursor.run }
      else moveUp action steps { cursor with before := blocks, after := block :: cursor.after }

/-- Moves a run down as far as it goes, by the same rules. -/
def moveDown (action : Block.Action) : (steps : Nat) → Cursor α → Cursor α
  | 0, cursor => cursor
  | steps + 1, cursor =>
    match cursor.after with
    | [] => cursor
    | ⟨.keep, lines⟩ :: blocks =>
      match lines with
      | [] => moveDown action steps { cursor with after := blocks }
      | line :: lines =>
        if action = .insert ∧ cursor.run.head? = some line then
          moveDown action steps
            { before := keepBefore line cursor.before
              run := cursor.run.tail ++ [line]
              after := ⟨.keep, lines⟩ :: blocks }
        else cursor
    | block :: blocks =>
      if block.action = action then
        moveDown action steps { cursor with after := blocks, run := cursor.run ++ block.lines }
      else moveDown action steps { cursor with after := blocks, before := block :: cursor.before }

/-- How many moves a script allows at most: one for each block and each line. -/
def moveBound (blocks : List (Block α)) : Nat :=
  blocks.foldr (fun block bound => block.lines.length + 2 + bound) 0

/-- Moves every run of an action, from the first to the last. -/
def settle (action : Block.Action) :
    (steps : Nat) → (before after : List (Block α)) → List (Block α)
  | 0, before, after => before.reverse ++ after
  | _ + 1, before, [] => before.reverse
  | steps + 1, before, block :: after =>
    if block.action = action then
      let up := moveUp action (moveBound before) ⟨before, block.lines, after⟩
      let down := moveDown action (moveBound up.after) up
      settle action steps (⟨action, down.run⟩ :: down.before) down.after
    else settle action steps (block :: before) after

/-- A script with its deletions and then its insertions moved. -/
def compact (script : List (Block α)) : List (Block α) :=
  let bound := moveBound script
  settle .insert bound [] (settle .delete bound [] script)

/-- A script with the deletions of each changed place before its insertions. -/
def arrange (deleted inserted : List α) : List (Block α) → List (Block α)
  | [] => block? .delete deleted ++ block? .insert inserted
  | ⟨.keep, lines⟩ :: blocks =>
    block? .delete deleted ++ block? .insert inserted ++ ⟨.keep, lines⟩ :: arrange [] [] blocks
  | ⟨.delete, lines⟩ :: blocks => arrange (deleted ++ lines) inserted blocks
  | ⟨.insert, lines⟩ :: blocks => arrange deleted (inserted ++ lines) blocks

/-- The script by which one list of lines is shown to differ from another. -/
def script (old new : List α) : List (Block α) := arrange [] [] (compact (search old new))

end LineDiff
end TaggedHeader

import TaggedHeader.Proofs.Tag.Locality
import TaggedHeader.Proofs.Text.JoinedLines

/-!
# Texts without tags

A text in which neither an opener nor the word of an inclusion stands has no tags, and a scan passes it over when
the line ends behind it. A bracket tag with such a text behind its opener is all that a scan finds on its line.
-/

namespace TaggedHeader

open Text

/-- A text in which no tag starts. -/
structure Text.Quiet (text : Text) : Prop where
  bracketOpen : ¬ Tag.bracketOpen <:+: text
  includeWord : ¬ Lexeme.includeWord <:+: text

namespace Text.Quiet

instance (text : Text) : Decidable text.Quiet :=
  decidable_of_iff (¬ Tag.bracketOpen <:+: text ∧ ¬ Lexeme.includeWord <:+: text)
    ⟨fun ⟨hopen, hword⟩ => ⟨hopen, hword⟩, fun ⟨hopen, hword⟩ => ⟨hopen, hword⟩⟩

theorem of_infix {text part : Text} (h : text.Quiet) (hpart : part <:+: text) : part.Quiet where
  bracketOpen := fun hopen => h.bracketOpen (hopen.trans hpart)
  includeWord := fun hword => h.includeWord (hword.trans hpart)

/-- The lexer recognises nothing at the start of a quiet text. -/
theorem lexeme_read {text : Text} (h : text.Quiet) : (Lexeme.read text).lexeme = none := by
  cases hlexeme : (Lexeme.read text).lexeme with
  | none => rfl
  | some lexeme =>
    have hused : (Lexeme.read text).used <:+: text :=
      ⟨[], (Lexeme.read text).rest, Lexeme.used_append_rest text⟩
    have hcovers := Lexeme.read_covers hlexeme
    cases lexeme with
    | literalOpen =>
      have hopen : (Lexeme.read text).used = Tag.bracketOpen ++ ['['] := hcovers
      rw [hopen] at hused
      exact absurd ((List.prefix_append ..).isInfix.trans hused) h.bracketOpen
    | tagOpen =>
      rw [hcovers.1] at hused
      exact absurd hused h.bracketOpen
    | inclusion name =>
      obtain ⟨gap, -, hword⟩ := hcovers
      rw [hword, List.append_assoc, List.append_assoc] at hused
      exact absurd ((List.prefix_append ..).isInfix.trans hused) h.includeWord

/-- Lines without tags make a text without tags. -/
theorem joinWith {lines : List Text} (h : ∀ line ∈ lines, Quiet line) : Quiet (joinWith '\n' lines) :=
  ⟨notInfix_joinWith (by decide) (by decide) fun line hline => (h line hline).bracketOpen,
    notInfix_joinWith (by decide) (by decide) fun line hline => (h line hline).includeWord⟩

theorem linesBehind {lines : List Text} (h : ∀ line ∈ lines, Quiet line) : Quiet (linesBehind lines) := by
  have hjoin := joinWith (List.forall_mem_cons.mpr ⟨by decide, h⟩ : ∀ line ∈ [] :: lines, Quiet line)
  rwa [joinWith_cons, List.nil_append] at hjoin

end Text.Quiet

/-- A step does the same when more lines follow. -/
theorem Lexeme.read_append_of_endsLine {text more : Text} (h : text ≠ []) (hmore : more.EndsLine) :
    read (text ++ more) = (read text).extend more := by
  rcases hmore with rfl | ⟨lines, rfl⟩
  · simp only [Step.extend, List.append_nil]
  · exact read_append_newline h lines

variable {offset resume : Nat} {text more : Text}

/-- A scan passes a quiet text over. -/
theorem scanFrom_append_of_quiet (h : text.Quiet) (hmore : more.EndsLine) :
    scanFrom offset resume (text ++ more) = scanFrom (offset + size text) resume more := by
  have hnothing : ∀ step : Lexeme.Step, step.lexeme = none → ∀ offset resume : Nat,
      (if resume ≤ offset then Tag.ofStep? offset step else none) = none := by
    intro step hstep offset resume
    rw [Tag.ofStep?, hstep]
    exact ite_self none
  fun_induction scanFrom offset resume text with
  | case1 => rfl
  | case2 offset resume c rest step tag hfound ih =>
    rw [dite_eq_ite, hnothing _ h.lexeme_read] at hfound
    cases hfound
  | case3 offset resume c rest step hnone ih =>
    have hread := Lexeme.read_append_of_endsLine (List.cons_ne_nil c rest) hmore
    have hlexeme : (Lexeme.read (c :: rest ++ more)).lexeme = none := by
      rw [hread]
      exact h.lexeme_read
    have hsplit := Lexeme.used_append_rest (c :: rest)
    have hend : offset + size (c :: rest) = offset + size step.used + size step.rest := by
      rw [← hsplit, size_append, Nat.add_assoc]
    rw [scanFrom_of_none (hnothing _ hlexeme offset resume), hread, hend]
    exact ih (h.of_infix ⟨step.used, [], by rw [List.append_nil, hsplit]⟩)

/-- A newline starts no tag. -/
theorem scanFrom_newline (more : Text) : scanFrom offset resume ('\n' :: more) = scanFrom (offset + 1) resume more := by
  have hread : Lexeme.read ('\n' :: more) = ⟨none, ['\n'], more⟩ := rfl
  rw [scanFrom_of_none (by rw [hread]; exact ite_self none), hread]
  rfl

namespace Tag

/-- A bracket tag as it is written. -/
def bracketed (content : Text) : Text := bracketOpen ++ content ++ bracketEnd ++ commentClose

/-- The bracket tag around a content at an offset. -/
def ofContent (content : Text) (offset : Nat) : Tag where
  directive := .parse (trim content)
  span := ⟨offset, offset + size (bracketed content)⟩
  origin := offset
  payload := trim content

end Tag

/-- Behind an opener that no further bracket follows, a step stops right behind the opener. -/
theorem Lexeme.read_bracketOpen {body : Text} (hhead : body.head? ≠ some '[') :
    read (Tag.bracketOpen ++ body) = ⟨some .tagOpen, Tag.bracketOpen, body⟩ := by
  cases body with
  | nil => rfl
  | cons c rest =>
    have hc : c ≠ '[' := fun heq => hhead (by rw [heq, List.head?_cons])
    simp [Tag.bracketOpen, read, readComment, hc]

section

variable {content : Text} (hhead : content.head? ≠ some '[') (hclose : Tag.splitClose (content ++ Tag.bracketEnd) = none)

include hhead hclose

/-- A scan finds a bracket tag that it comes to, and goes on behind the opener. -/
theorem scanFrom_bracketOpen (hresume : resume ≤ offset) (more : Text) :
    scanFrom offset resume (Tag.bracketed content ++ more) = .ofContent content offset ::
      scanFrom (offset + size Tag.bracketOpen) (offset + size (Tag.bracketed content))
        (content ++ Tag.bracketEnd ++ Tag.commentClose ++ more) := by
  have hbody : (content ++ Tag.bracketEnd ++ Tag.commentClose ++ more).head? ≠ some '[' := by
    cases content with
    | nil => simp [Tag.bracketEnd]
    | cons c content => exact hhead
  have hread := Lexeme.read_bracketOpen hbody
  have hwhole : Tag.bracketed content ++ more =
      Tag.bracketOpen ++ (content ++ Tag.bracketEnd ++ Tag.commentClose ++ more) := by
    simp only [Tag.bracketed, List.append_assoc]
  have htag : Tag.bracketTag? offset (content ++ Tag.bracketEnd ++ Tag.commentClose ++ more) =
      some (.ofContent content offset) := by
    rw [Tag.bracketTag?_eq]
    exact Tag.commentTag?_eq_some_iff.mpr ⟨content, more, rfl, hclose, rfl⟩
  rw [hwhole, scanFrom_of_found, hread]
  · rfl
  · rw [if_pos hresume, hread]
    exact htag

/-- A scan finds a bracket tag at the end of a line. -/
theorem scanFrom_bracketed (hquiet : (content ++ Tag.bracketEnd ++ Tag.commentClose).Quiet) (hmore : more.EndsLine)
    (hresume : resume ≤ offset) :
    scanFrom offset resume (Tag.bracketed content ++ more) = .ofContent content offset ::
      scanFrom (offset + size (Tag.bracketed content)) (offset + size (Tag.bracketed content)) more := by
  have hstop : offset + size Tag.bracketOpen + size (content ++ Tag.bracketEnd ++ Tag.commentClose) =
      offset + size (Tag.bracketed content) := by
    simp only [Tag.bracketed, size_append, Nat.add_assoc]
  rw [scanFrom_bracketOpen hhead hclose hresume, scanFrom_append_of_quiet hquiet hmore, hstop]

end

end TaggedHeader

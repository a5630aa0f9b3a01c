import TaggedHeader.Proofs.Draft.Steps
import TaggedHeader.Proofs.Tag.Rendering

/-!
# Interfaces without carriage returns

A header is converted with newlines as its only line ends, and no pass inserts a carriage return: it inserts
renderings, a blank or a newline. So an interface has newlines as its only line ends as well, and writing
its line ends as newlines once more changes nothing.
-/

namespace TaggedHeader

open Text

namespace Draft

variable {draft next : Draft} {replacement : Text}

/-- An edit brings in no character that its text does not have. -/
theorem notMem_apply {edit : Edit} {range : Span} {c : Char} (h : c ∉ draft.source.current)
    (hnew : c ∉ replacement) (happly : draft.apply range replacement = .ok (edit, next)) :
    c ∉ next.source.current := by
  obtain ⟨source, tags, hreplace, -, rfl⟩ := apply_eq_ok_iff.mp happly
  obtain ⟨before, part, after, hcurrent, -, -, -, -, -, rfl⟩ := SourceText.replace_eq_ok_iff.mp hreplace
  rw [hcurrent] at h
  simp only [List.mem_append, not_or] at h ⊢
  exact ⟨⟨h.1.1, hnew⟩, h.2⟩

/-- What takes the place of a tag has no carriage return. -/
theorem carriageReturn_notMem_replacement {tag : Tag} (h : draft.replacement? tag = .ok (some replacement)) :
    '\r' ∉ replacement := by
  unfold replacement? at h
  split at h
  · cases h
  · rename_i rendered hrendered
    have hnone : '\r' ∉ rendered := Directive.notMem_of_render? hrendered rfl
    split at h
    · obtain ⟨following, -, hresult⟩ := bind_eq_ok_iff.mp h
      cases hresult
      split
      · simpa using hnone
      · exact hnone
    · cases h
      exact hnone

/-- No step brings in a carriage return. -/
theorem carriageReturn_notMem_kept : KeptBySteps fun draft => '\r' ∉ draft.source.current where
  unwrapRegion := fun h hstep => by
    rcases unwrapRegion_eq_ok hstep with rfl | ⟨_, _, _, _, -, hopened, hclosed⟩
    · exact h
    · exact notMem_apply (notMem_apply h List.not_mem_nil hopened) List.not_mem_nil hclosed
  removeRegion := fun h hstep => by
    rcases removeRegion_eq_ok hstep with rfl | ⟨_, _, -, -, hdeleted⟩
    · exact h
    · exact notMem_apply h List.not_mem_nil hdeleted
  settleTag := fun h hstep => by
    rcases settleTag_eq_ok hstep with hsame | ⟨_, _, _, -, hreplacement, hreplaced⟩
    · exact hsame ▸ h
    · exact notMem_apply h (carriageReturn_notMem_replacement hreplacement) hreplaced
  stripPrompt := fun h hstep => by
    rcases stripPrompt_eq_ok hstep with rfl | ⟨_, _, -, hstripped⟩
    · exact h
    · exact notMem_apply h (by simp) hstripped

end Draft

/-- The interface of a header without carriage returns has none. -/
theorem carriageReturn_notMem_transform {options : TransformOptions} {text : Text} {result : Transformation}
    (htext : '\r' ∉ text) (h : transform options text = .ok result) : '\r' ∉ result.text := by
  simp only [transform, bind_eq_ok_iff] at h
  obtain ⟨⟨draft, reports⟩, hfinal, hresult⟩ := h
  obtain ⟨scan, -, hrun⟩ := finalDraft_eq_ok_iff.mp hfinal
  cases hresult
  exact Draft.carriageReturn_notMem_kept.runAll htext hrun

end TaggedHeader

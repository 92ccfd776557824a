import Reroot.Proofs.Path
import Reroot.Survey
import Mathlib.Data.List.Basic
import Mathlib.Tactic.Common

namespace Reroot

theorem not_mem_of_isWord {s : String} {c : Char} (h : isWord s = true)
    (hc : (c.isAlpha || c.isDigit || c == '_') = false) : c ∉ s.toList := by
  unfold isWord at h
  simp only [Bool.or_eq_false_iff] at hc
  obtain ⟨⟨halpha, hdigit⟩, hscore⟩ := hc
  split at h
  · cases h
  · next d ds hs =>
    simp only [Bool.and_eq_true, Bool.or_eq_true, List.all_eq_true] at h
    rw [hs]
    intro hmem
    obtain rfl | hmem := List.mem_cons.1 hmem
    · simp [halpha, hscore] at h
    · have := h.2 c hmem
      simp [halpha, hdigit, hscore] at this

theorem isName_of_isSegment {s : String} (h : isSegment s = true) : Path.IsName s := by
  have hword : isWord s = true := by
    rw [isSegment, Bool.and_eq_true] at h
    exact h.1
  refine ⟨?_, ?_, ?_, not_mem_of_isWord hword rfl⟩ <;> rintro rfl <;> simp [isWord] at hword

theorem segmentsOf_dotted {segments : List String} (hne : segments ≠ [])
    (h : ∀ s ∈ segments, '.' ∉ s.toList) : segmentsOf (dotted segments) = segments :=
  Text.split_intercalate rfl hne h

theorem dotted_segmentsOf (s : String) : dotted (segmentsOf s) = s :=
  Text.intercalate_split rfl s

theorem dotted_append {front segments : List String} (hfront : front ≠ []) (h : segments ≠ []) :
    dotted (front ++ segments) = dotted front ++ "." ++ dotted segments :=
  String.intercalate_append_of_ne_nil hfront h

theorem segmentsOf_ne_nil (s : String) : segmentsOf s ≠ [] :=
  Text.split_ne_nil '.' s

theorem segmentsOf_append (a b : String) :
    segmentsOf (a ++ "." ++ b) = segmentsOf a ++ segmentsOf b := by
  have h := @Text.split_append '.' a.toList b.toList
  rw [String.ofList_toList, String.ofList_toList] at h
  have htext : a ++ "." ++ b = String.ofList (a.toList ++ '.' :: b.toList) :=
    String.toList_inj.1 (by simp)
  rw [segmentsOf, segmentsOf, segmentsOf, htext, h]

theorem segmentsOf_of_not_mem {s : String} (h : '.' ∉ s.toList) : segmentsOf s = [s] := by
  have := segmentsOf_dotted (List.cons_ne_nil s []) (by simpa using h)
  rwa [dotted, String.intercalate_singleton] at this

theorem append_dot_prefix_iff {a b : String} :
    a.toList ++ ['.'] <+: b.toList ↔ ∃ rest, b = a ++ "." ++ rest := by
  constructor
  · rintro ⟨rest, hrest⟩
    refine ⟨String.ofList rest, String.toList_inj.1 ?_⟩
    simp [← hrest]
  · rintro ⟨rest, rfl⟩
    exact ⟨rest.toList, by simp⟩

theorem segmentsOf_prefix_iff {a b : String} :
    segmentsOf a <+: segmentsOf b ↔ b = a ∨ ∃ rest, b = a ++ "." ++ rest := by
  constructor
  · rintro ⟨rest, hrest⟩
    have hb := dotted_segmentsOf b
    rw [← hrest] at hb
    obtain rfl | hne := eq_or_ne rest []
    · rw [List.append_nil, dotted_segmentsOf] at hb
      exact .inl hb.symm
    · rw [dotted_append (segmentsOf_ne_nil a) hne, dotted_segmentsOf] at hb
      exact .inr ⟨_, hb.symm⟩
  · rintro (rfl | ⟨rest, rfl⟩)
    · exact List.prefix_refl _
    · rw [segmentsOf_append]
      exact List.prefix_append _ _

def rootOf (name : String) : String :=
  (segmentsOf name).headD ""

theorem segmentsOf_eq_cons (name : String) : ∃ rest, segmentsOf name = rootOf name :: rest := by
  cases h : segmentsOf name with
  | nil => exact absurd h (segmentsOf_ne_nil name)
  | cons s rest => exact ⟨rest, by rw [rootOf, h, List.headD_cons]⟩

theorem not_mem_rootOf (name : String) : '.' ∉ (rootOf name).toList := by
  obtain ⟨rest, h⟩ := segmentsOf_eq_cons name
  have hmem : rootOf name ∈ Text.split '.' name := by
    change rootOf name ∈ segmentsOf name
    simp [h]
  exact Text.not_mem_of_mem_split hmem

namespace QualifiedName

variable {q q' : QualifiedName} {s : String}

theorem segments_of_parse (h : parse s = .ok q) : q.segments = segmentsOf s := by
  unfold parse at h
  dsimp only at h
  split at h
  · split at h
    · cases h
    · cases h
      rfl
  · cases h

theorem text_of_parse (h : parse s = .ok q) : q.text = s := by
  rw [text, segments_of_parse h, dotted_segmentsOf]

theorem isName (q : QualifiedName) : ∀ n ∈ q.segments, Path.IsName n :=
  fun n hn => isName_of_isSegment (q.valid n hn)

theorem not_mem_segment (q : QualifiedName) : ∀ s ∈ q.segments, '.' ∉ s.toList := by
  intro s hs
  have := q.valid s hs
  rw [isSegment, Bool.and_eq_true] at this
  exact not_mem_of_isWord this.1 rfl

theorem segmentsOf_text (q : QualifiedName) : segmentsOf q.text = q.segments :=
  segmentsOf_dotted q.nonempty q.not_mem_segment

theorem eq_of_parse_text (h : parse q.text = .ok q') : q' = q := by
  have hs : q'.segments = q.segments := by rw [segments_of_parse h, q.segmentsOf_text]
  cases q
  cases q'
  simpa using hs

theorem parse_text (q : QualifiedName) : parse q.text = .ok q := by
  have hvalid : ∀ s ∈ segmentsOf q.text, isWord s = true ∧ isKeyword s = false := by
    intro s hs
    rw [segmentsOf_text] at hs
    simpa [isSegment] using q.valid s hs
  have hwords : (segmentsOf q.text).all isWord = true :=
    List.all_eq_true.2 fun s hs => (hvalid s hs).1
  obtain ⟨q', hparse⟩ : ∃ q', parse q.text = .ok q' := by
    unfold parse
    dsimp only
    rw [dif_pos hwords]
    split
    · next word hword =>
      have hkeyword := List.find?_some hword
      rw [(hvalid word (List.mem_of_find?_eq_some hword)).2] at hkeyword
      cases hkeyword
    · exact ⟨_, rfl⟩
  rw [hparse, eq_of_parse_text hparse]

theorem segments_of_child (h : q.child s = .ok q') : q'.segments = q.segments ++ segmentsOf s := by
  rw [segments_of_parse h, segmentsOf_append, segmentsOf_text]

theorem first_isPrefix (q : QualifiedName) : [q.first] <+: q.segments := by
  refine ⟨q.segments.tail, ?_⟩
  rw [List.singleton_append, first, List.cons_head_tail]

theorem rootOf_text (q : QualifiedName) : rootOf q.text = q.first := by
  obtain ⟨s, rest, hs⟩ := List.exists_cons_of_ne_nil q.nonempty
  simp only [rootOf, segmentsOf_text, first, hs, List.headD_cons, List.head_cons]

end QualifiedName

theorem rootOf_append (a b : String) : rootOf (a ++ "." ++ b) = rootOf a := by
  obtain ⟨rest, h⟩ := segmentsOf_eq_cons a
  rw [rootOf, segmentsOf_append, h, List.cons_append, List.headD_cons]

theorem rootOf_dotted_cons (s : String) (rest : List String) :
    rootOf (dotted (s :: rest)) = rootOf s := by
  cases rest with
  | nil => rw [dotted, String.intercalate_singleton]
  | cons r rest =>
    rw [← List.singleton_append, dotted_append (by simp) (by simp), rootOf_append, dotted,
      String.intercalate_singleton]

theorem rootOf_of_not_mem {s : String} (h : '.' ∉ s.toList) : rootOf s = s := by
  rw [rootOf, segmentsOf_of_not_mem h, List.headD_cons]

theorem segmentsOf_prefix_iff_rootOf {old : String} (hold : '.' ∉ old.toList) (name : String) :
    segmentsOf old <+: segmentsOf name ↔ rootOf name = old := by
  obtain ⟨rest, h⟩ := segmentsOf_eq_cons name
  rw [segmentsOf_of_not_mem hold, h, List.cons_prefix_cons, eq_comm]
  exact and_iff_left List.nil_prefix

theorem eq_rootOf_or (name : String) :
    name = rootOf name ∨ ∃ rest, name = rootOf name ++ "." ++ rest :=
  segmentsOf_prefix_iff.1 ((segmentsOf_prefix_iff_rootOf (not_mem_rootOf name) name).2 rfl)

theorem begins_iff (old name : String) :
    (decide (name = old) || (old.toList ++ ['.']).isPrefixOf name.toList) = true ↔
      segmentsOf old <+: segmentsOf name := by
  rw [Bool.or_eq_true, decide_eq_true_eq, List.isPrefixOf_iff_prefix, append_dot_prefix_iff,
    segmentsOf_prefix_iff]

theorem carry_self (old new : String) : carry (some (old, new)) old = new := by
  rw [carry, if_pos ((begins_iff old old).2 (List.prefix_refl _)), ← String.length_toList,
    List.drop_length]
  simp

theorem carry_cons (old new rest : String) :
    carry (some (old, new)) (old ++ "." ++ rest) = new ++ "." ++ rest := by
  have hdrop : (old ++ "." ++ rest).toList.drop old.length = '.' :: rest.toList := by
    simp [← String.length_toList]
  rw [carry, if_pos ((begins_iff old _).2 (segmentsOf_prefix_iff.2 (.inr ⟨rest, rfl⟩))), hdrop]
  apply String.toList_inj.1
  simp

theorem carry_of_not_begins {old new name : String} (h : ¬segmentsOf old <+: segmentsOf name) :
    carry (some (old, new)) name = name :=
  if_neg fun hbegins => h ((begins_iff old name).1 hbegins)

section Carry

variable {old new front : String} (hold : '.' ∉ old.toList)

include hold

theorem carry_of_rootOf_ne {name : String} (h : rootOf name ≠ old) :
    carry (some (old, new)) name = name :=
  carry_of_not_begins fun hbegins => h ((segmentsOf_prefix_iff_rootOf hold name).1 hbegins)

theorem rootOf_carry (name : String) :
    rootOf (carry (some (old, new)) name) =
      if rootOf name = old then rootOf new else rootOf name := by
  split
  · next hroot =>
    obtain h | ⟨rest, h⟩ := eq_rootOf_or name
    · rw [h, hroot, carry_self]
    · rw [h, hroot, carry_cons, rootOf_append]
  · next hroot => rw [carry_of_rootOf_ne hold hroot]

theorem carry_into (name : String) :
    carry (some (old, front ++ "." ++ old)) name =
      if rootOf name = old then front ++ "." ++ name else name := by
  split
  · next hroot =>
    obtain h | ⟨rest, h⟩ := eq_rootOf_or name
    · rw [h, hroot, carry_self]
    · rw [h, hroot, carry_cons]
      simp only [String.append_assoc]
  · next hroot => exact carry_of_rootOf_ne hold hroot

theorem carry_into_append (name rest : String) :
    carry (some (old, front ++ "." ++ old)) (name ++ "." ++ rest) =
      carry (some (old, front ++ "." ++ old)) name ++ "." ++ rest := by
  rw [carry_into hold, carry_into hold, rootOf_append]
  split
  · simp only [String.append_assoc]
  · rfl

end Carry

end Reroot

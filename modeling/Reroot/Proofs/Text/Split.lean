import Reroot.Text.Basic
import Mathlib.Data.List.Basic

namespace Reroot.Text

variable {sep : Char}

theorem splitAt_eq_splitOn (sep : Char) (cs : List Char) : splitAt sep cs = cs.splitOn sep := by
  induction cs with
  | nil => rfl
  | cons c cs ih =>
    rw [splitAt, List.splitOn_cons_eq_if_modifyHead, ih]
    by_cases h : c = sep
    · rw [if_pos h, if_pos (beq_iff_eq.2 h)]
    · rw [if_neg h, if_neg (by simpa using h)]
      cases hs : cs.splitOn sep with
      | nil => exact absurd hs (List.splitOn_ne_nil sep cs)
      | cons p ps => rfl

theorem not_mem_of_mem_splitAt {cs : List Char} : ∀ p ∈ splitAt sep cs, sep ∉ p := by
  induction cs with
  | nil => simp [splitAt]
  | cons c cs ih =>
    rw [splitAt]
    split
    · exact List.forall_mem_cons.2 ⟨by simp, ih⟩
    · next hc =>
      split
      · next p ps hs =>
        rw [hs] at ih
        obtain ⟨hp, hps⟩ := List.forall_mem_cons.1 ih
        refine List.forall_mem_cons.2 ⟨?_, hps⟩
        simp only [List.mem_cons, not_or]
        exact ⟨Ne.symm hc, hp⟩
      · simpa using Ne.symm hc

theorem not_mem_of_mem_split {s p : String} (h : p ∈ split sep s) : sep ∉ p.toList := by
  obtain ⟨cs, hcs, rfl⟩ := List.mem_map.1 h
  rw [String.toList_ofList]
  exact not_mem_of_mem_splitAt cs hcs

theorem exists_mem_splitAt {c : Char} {cs : List Char} (hc : c ∈ cs) (hne : c ≠ sep) :
    ∃ p ∈ splitAt sep cs, c ∈ p := by
  induction cs with
  | nil => cases hc
  | cons d cs ih =>
    rw [splitAt]
    split
    · next hd =>
      obtain rfl | hc := List.mem_cons.1 hc
      · exact absurd hd hne
      · obtain ⟨p, hp, hcp⟩ := ih hc
        exact ⟨p, by simp [hp], hcp⟩
    · split
      · next p ps hs =>
        rw [hs] at ih
        obtain rfl | hc := List.mem_cons.1 hc
        · exact ⟨c :: p, by simp, by simp⟩
        · obtain ⟨q, hq, hcq⟩ := ih hc
          obtain rfl | hq := List.mem_cons.1 hq
          · exact ⟨d :: q, by simp, by simp [hcq]⟩
          · exact ⟨q, by simp [hq], hcq⟩
      · next hs => exact absurd hs (splitAt_ne_nil sep cs)

theorem split_append (a b : List Char) :
    split sep (String.ofList (a ++ sep :: b)) =
      split sep (String.ofList a) ++ split sep (String.ofList b) := by
  simp only [split, String.toList_ofList, splitAt_eq_splitOn, List.splitOn_append_cons_self,
    List.map_append]

theorem split_intercalate {joint : String} (hjoint : joint.toList = [sep]) {pieces : List String}
    (hne : pieces ≠ []) (h : ∀ p ∈ pieces, sep ∉ p.toList) :
    split sep (String.intercalate joint pieces) = pieces := by
  have hmap : ∀ cs ∈ pieces.map String.toList, sep ∉ cs := by
    intro cs hcs
    obtain ⟨p, hp, rfl⟩ := List.mem_map.1 hcs
    exact h p hp
  rw [split, String.toList_intercalate, hjoint, splitAt_eq_splitOn,
    List.splitOn_intercalate sep hmap (by simpa using hne), List.map_map]
  simp

theorem intercalate_split {joint : String} (hjoint : joint.toList = [sep]) (s : String) :
    String.intercalate joint (split sep s) = s := by
  apply String.toList_inj.1
  rw [String.toList_intercalate, hjoint, split, List.map_map, splitAt_eq_splitOn]
  simp only [Function.comp_def, String.toList_ofList, List.map_id']
  exact List.intercalate_splitOn sep

end Reroot.Text

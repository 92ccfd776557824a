import Reroot.Proofs.Plan
import Mathlib.Data.List.Perm.Subperm

namespace Reroot

namespace Snapshot

variable {s a b : Snapshot} {name : String} {f : String → String}

def identifiers (s : Snapshot) : List String :=
  s.modules.map (·.identifier)

theorem holds_iff : s.holds name = true ↔
    ∃ i ∈ s.identifiers, i = name ∨ ∃ rest, i = name ++ "." ++ rest := by
  simp [holds, identifiers, append_dot_prefix_iff]

def repeated (s : Snapshot) : List String :=
  (sortedNames s.identifiers).filter fun i => 1 < s.identifiers.count i

theorem length_duplicates (s : Snapshot) : s.duplicates.length = s.repeated.length := by
  rw [duplicates, List.length_filterMap_eq_countP, repeated, ← List.countP_eq_length_filter]
  refine List.countP_congr fun i _ => ?_
  have hcount : (s.modules.filter fun m => m.identifier == i).length = s.identifiers.count i := by
    rw [identifiers, List.count, List.countP_map, List.countP_eq_length_filter]
    rfl
  simp only [List.length_map, hcount]
  split <;> simp_all

def Carries (a : Snapshot) (f : String → String) (b : Snapshot) : Prop :=
  b.identifiers.Perm (a.identifiers.map f)

theorem Carries.mem (h : a.Carries f b) {i : String} (hi : i ∈ a.identifiers) :
    f i ∈ b.identifiers :=
  h.mem_iff.2 (List.mem_map_of_mem hi)

section Injective

variable (h : a.Carries f b) (hinj : ∀ i ∈ a.identifiers, ∀ j ∈ a.identifiers, f i = f j → i = j)

include h hinj

theorem Carries.count {i : String} (hi : i ∈ a.identifiers) :
    b.identifiers.count (f i) = a.identifiers.count i := by
  rw [h.count_eq, List.count, List.countP_map]
  refine List.countP_congr fun j hj => ?_
  simp only [Function.comp_apply, beq_iff_eq]
  exact ⟨hinj j hj i hi, congrArg f⟩

theorem Carries.length_duplicates_le : b.duplicates.length ≤ a.duplicates.length := by
  rw [length_duplicates, length_duplicates]
  have hsubset : b.repeated ⊆ a.repeated.map f := by
    intro j hj
    obtain ⟨hj, hcount⟩ := List.mem_filter.1 hj
    obtain ⟨i, hi, rfl⟩ := List.mem_map.1 (h.mem_iff.1 ((sorted_sortedNames _).2 j |>.1 hj))
    rw [h.count hinj hi] at hcount
    exact List.mem_map_of_mem (List.mem_filter.2 ⟨(sorted_sortedNames _).2 i |>.2 hi, hcount⟩)
  have hnodup : b.repeated.Nodup :=
    ((sorted_sortedNames b.identifiers).1.imp ne_of_lt).filter _
  exact (List.subperm_of_subset hnodup hsubset).length_le.trans (List.length_map f).le

end Injective

section Into

variable {old front : String} (hold : '.' ∉ old.toList)

include hold

theorem Carries.holds (h : a.Carries (carry (some (old, front ++ "." ++ old))) b)
    (hname : a.holds name = true) :
    b.holds (carry (some (old, front ++ "." ++ old)) name) = true := by
  obtain ⟨i, hi, rfl | ⟨rest, rfl⟩⟩ := holds_iff.1 hname
  · exact holds_iff.2 ⟨_, h.mem hi, .inl rfl⟩
  · exact holds_iff.2 ⟨_, h.mem hi, .inr ⟨rest, carry_into_append hold name rest⟩⟩

theorem carry_into_inj (hfree : ∀ i ∈ a.identifiers, rootOf i = old → front ++ "." ++ i ∉ a.identifiers) :
    ∀ i ∈ a.identifiers, ∀ j ∈ a.identifiers, carry (some (old, front ++ "." ++ old)) i =
      carry (some (old, front ++ "." ++ old)) j → i = j := by
  intro i hi j hj heq
  rw [carry_into hold, carry_into hold] at heq
  split at heq
  · next hiold =>
    split at heq
    · exact String.append_right_inj _ |>.1 heq
    · exact absurd (heq ▸ hj) (hfree i hi hiold)
  · split at heq
    · next hjold => exact absurd (heq ▸ hi) (hfree j hj hjold)
    · exact heq

end Into

end Snapshot

theorem resolves_nil {s : Snapshot} {t : FileTree} {name : String} :
    s.resolves t [] name = s.holds name := by
  simp [Snapshot.resolves, SearchPath.resolves]

theorem checkConsistency_of_freshlyDangling_eq_nil {t : FileTree} {search : SearchPath}
    {renamed? : Option (String × String)} {before after : Surveyed}
    (hduplicates : after.survey.duplicates ≤ before.survey.duplicates)
    (hfresh : freshlyDangling t search renamed? before after = []) :
    checkConsistency t search renamed? before after = .ok () := by
  have hnone : sortedNames [] = [] := sortedNames_eq .nil fun _ => Iff.rfl
  rw [checkConsistency, if_neg (Nat.not_lt.2 hduplicates), hfresh, hnone]

theorem checkConsistency_of_carries {t : FileTree} {before after : Surveyed} {old new : String}
    (hold : '.' ∉ old.toList) (hwatched : old ∈ before.survey.topLevel)
    (hduplicates : after.survey.duplicates ≤ before.survey.duplicates)
    (himports : ∀ x ∈ after.survey.imports, ∃ y ∈ before.survey.imports,
      x = carry (some (old, new)) y)
    (hholds : ∀ name, before.snapshot.holds name = true →
      after.snapshot.holds (carry (some (old, new)) name) = true) :
    checkConsistency t [] (some (old, new)) before after = .ok () := by
  refine checkConsistency_of_freshlyDangling_eq_nil hduplicates
    (List.filter_eq_nil_iff.2 fun x hx => ?_)
  obtain ⟨hx, hdangling⟩ := List.mem_filter.1 hx
  obtain ⟨hx, hroot⟩ := List.mem_filter.1 hx
  obtain ⟨y, hy, rfl⟩ := himports x hx
  simp only [resolves_nil, Bool.not_eq_true'] at hdangling
  have hroot' : rootOf y ∈ before.survey.topLevel ++ after.survey.topLevel := by
    have hroot : rootOf (carry (some (old, new)) y) ∈ _ := List.contains_iff_mem.1 hroot
    rw [rootOf_carry hold] at hroot
    split at hroot
    · next hy => exact List.mem_append_left _ (hy ▸ hwatched)
    · exact hroot
  simp only [Bool.not_eq_true', Bool.not_eq_false, List.contains_iff_mem]
  refine List.mem_map_of_mem (List.mem_filter.2 ⟨List.mem_filter.2 ⟨hy, ?_⟩, ?_⟩)
  · exact List.contains_iff_mem.2 hroot'
  · rw [resolves_nil, Bool.not_eq_true', ← Bool.not_eq_true]
    intro hfound
    rw [hholds y hfound] at hdangling
    cases hdangling

end Reroot

import Reroot.Proofs.Survey

namespace Reroot

def RunsOn (old name : String) : Prop :=
  ∃ c cs, c ≠ '.' ∧ name = old ++ String.ofList (c :: cs)

theorem RunsOn.not_begins {old name : String} (h : RunsOn old name) :
    ¬segmentsOf old <+: segmentsOf name := by
  obtain ⟨c, cs, hc, rfl⟩ := h
  rw [segmentsOf_prefix_iff]
  rintro (heq | ⟨rest, heq⟩)
  · have := congrArg String.toList heq
    simp at this
  · have := congrArg String.toList heq
    simp [hc] at this

namespace QualifiedName

variable {old new : QualifiedName}

theorem isPrefixOf_segmentsOf_iff {name : String} :
    old.isPrefixOf (segmentsOf name) = true ↔ segmentsOf old.text <+: segmentsOf name := by
  rw [isPrefixOf, List.isPrefixOf_iff_prefix, segmentsOf_text]

theorem replace_self (old new : QualifiedName) : old.replace new old.segments = new.text := by
  rw [replace, length, List.drop_length, List.append_nil, text]

theorem replace_append (old new : QualifiedName) {rest : List String} (h : rest ≠ []) :
    old.replace new (old.segments ++ rest) = new.text ++ "." ++ dotted rest := by
  rw [replace, length, List.drop_left, dotted_append new.nonempty h, text]

end QualifiedName

theorem carry_eq_replace (old new : QualifiedName) (name : String) :
    carry (some (old.text, new.text)) name =
      if old.isPrefixOf (segmentsOf name) = true then old.replace new (segmentsOf name)
      else name := by
  split
  · next h =>
    obtain rfl | ⟨rest, rfl⟩ := segmentsOf_prefix_iff.1 (QualifiedName.isPrefixOf_segmentsOf_iff.1 h)
    · rw [carry_self, QualifiedName.segmentsOf_text, QualifiedName.replace_self]
    · rw [carry_cons, segmentsOf_append, QualifiedName.segmentsOf_text,
        QualifiedName.replace_append _ _ (segmentsOf_ne_nil rest), dotted_segmentsOf]
  · next h =>
    exact carry_of_not_begins fun hbegins => h (QualifiedName.isPrefixOf_segmentsOf_iff.2 hbegins)

theorem carry_carry {old new name : String} (h : segmentsOf old <+: segmentsOf name) :
    carry (some (new, old)) (carry (some (old, new)) name) = name := by
  obtain rfl | ⟨rest, rfl⟩ := segmentsOf_prefix_iff.1 h
  · rw [carry_self, carry_self]
  · rw [carry_cons, carry_cons]

theorem Snapshot.holds_iff_begins {s : Snapshot} {name : String} :
    s.holds name = true ↔ ∃ m ∈ s.modules, segmentsOf name <+: segmentsOf m.identifier := by
  simp only [holds_iff, segmentsOf_prefix_iff, identifiers, List.mem_map, exists_exists_and_eq_and]

theorem prefixes_agree :
    (∀ (old new : QualifiedName) (name : String),
      carry (some (old.text, new.text)) name =
          (if old.isPrefixOf (segmentsOf name) = true then old.replace new (segmentsOf name) else name) ∧
        (old.isPrefixOf (segmentsOf name) = true →
          carry (some (new.text, old.text)) (carry (some (old.text, new.text)) name) = name) ∧
        (RunsOn old.text name →
          old.isPrefixOf (segmentsOf name) = false ∧ carry (some (old.text, new.text)) name = name)) ∧
      ∀ (s : Snapshot) (name : String),
        (s.holds name = true ↔ ∃ m ∈ s.modules, segmentsOf name <+: segmentsOf m.identifier) ∧
        (∀ t search, s.resolves t search name = (s.holds name || search.resolves t s.layout name)) ∧
        ((∀ m ∈ s.modules, RunsOn name m.identifier) → s.holds name = false) := by
  refine ⟨fun old new name => ⟨carry_eq_replace old new name, fun h => ?_, fun h => ?_⟩,
    fun s name => ⟨s.holds_iff_begins, fun _ _ => rfl, fun h => ?_⟩⟩
  · exact carry_carry (QualifiedName.isPrefixOf_segmentsOf_iff.1 h)
  · refine ⟨?_, carry_of_not_begins h.not_begins⟩
    rw [← Bool.not_eq_true, QualifiedName.isPrefixOf_segmentsOf_iff]
    exact h.not_begins
  · rw [← Bool.not_eq_true, Snapshot.holds_iff_begins]
    rintro ⟨m, hm, hbegins⟩
    exact (h m hm).not_begins hbegins

def utils : QualifiedName := ⟨["lib", "utils"], by decide, by decide⟩

def movedUtils : QualifiedName := ⟨["app", "core", "utils"], by decide, by decide⟩

def utilsxOnly : Snapshot :=
  ⟨⟨"/"⟩, .standard, [], [⟨"lib.utilsx", ⟨"lib/utilsx.py"⟩⟩]⟩

theorem prefixes_agree_utils :
    utils.isPrefixOf (segmentsOf "lib.utils.text") = true ∧
      carry (some (utils.text, movedUtils.text)) "lib.utils.text" = "app.core.utils.text" ∧
      carry (some (movedUtils.text, utils.text)) "app.core.utils.text" = "lib.utils.text" ∧
      RunsOn utils.text "lib.utilsx" ∧ utils.isPrefixOf (segmentsOf "lib.utilsx") = false ∧
      carry (some (utils.text, movedUtils.text)) "lib.utilsx" = "lib.utilsx" ∧
      utilsxOnly.holds utils.text = false ∧ utilsxOnly.holds "lib" = true := by
  have hfront : utils.isPrefixOf (segmentsOf "lib.utils.text") = true := by decide
  have hruns : RunsOn utils.text "lib.utilsx" := ⟨'x', [], by decide, by decide⟩
  obtain ⟨hcarry, hback, -⟩ := prefixes_agree.1 utils movedUtils "lib.utils.text"
  obtain ⟨hbegins, hstays⟩ := (prefixes_agree.1 utils movedUtils "lib.utilsx").2.2 hruns
  obtain ⟨-, -, hholds⟩ := prefixes_agree.2 utilsxOnly utils.text
  have hreplace : utils.replace movedUtils (segmentsOf "lib.utils.text") = "app.core.utils.text" := by
    decide
  rw [if_pos hfront, hreplace] at hcarry
  have hback := hback hfront
  rw [hcarry] at hback
  refine ⟨hfront, hcarry, hback, hruns, hbegins, hstays, hholds ?_, ?_⟩
  · simpa [utilsxOnly] using hruns
  · exact (prefixes_agree.2 utilsxOnly "lib").1.2 ⟨_, List.mem_singleton_self _, by decide⟩

end Reroot

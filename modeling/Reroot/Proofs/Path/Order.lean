import Reroot.Proofs.Path
import Mathlib.Data.List.Lex
import Mathlib.Data.Prod.Lex
import Mathlib.Data.String.Basic

namespace Reroot.Path

def Part.key : Part → ℕ ×ₗ String
  | .name s => toLex (3, s)
  | part => toLex (part.rank, "")

theorem Part.key_injective : Function.Injective Part.key := by
  intro a b h
  have h := congrArg ofLex h
  cases a <;> cases b <;> simp_all [Part.key, Part.rank]

theorem Part.lt_iff {a b : Part} : a.lt b = true ↔ a.key < b.key := by
  cases a <;> cases b <;> simp [Part.lt, Part.key, Part.rank, Prod.Lex.toLex_lt_toLex]

theorem partsLe_iff {as bs : List Part} : partsLe as bs = true ↔ as.map Part.key ≤ bs.map Part.key := by
  induction as generalizing bs with
  | nil => simp [partsLe, ← not_lt]
  | cons a as ih =>
    cases bs with
    | nil => simp [partsLe, ← not_lt]
    | cons b bs =>
      rw [List.map_cons, List.map_cons, ← not_lt, List.cons_lt_cons_iff, partsLe]
      split
      · next hlt =>
        have hlt := Part.lt_iff.1 hlt
        simp [hlt.not_gt, hlt.ne']
      · next hle =>
        split
        · next hgt => simp [Part.lt_iff.1 hgt]
        · next hge =>
          have heq : b.key = a.key :=
            le_antisymm (not_lt.1 (mt Part.lt_iff.2 hle)) (not_lt.1 (mt Part.lt_iff.2 hge))
          rw [ih, ← not_lt]
          simp [heq]

def key (p : Path) : List (ℕ ×ₗ String) :=
  p.parts.map Part.key

theorem le_iff {p q : Path} : p.le q = true ↔ p.key ≤ q.key :=
  partsLe_iff

theorem samePlace_iff (p q : Path) : p.samePlace q = true ↔ p.key = q.key := by
  rw [samePlace, beq_iff_eq]
  exact (List.map_injective_iff.2 Part.key_injective).eq_iff.symm

theorem key_ofNames_lt {ns ps : List String} (hns : ∀ n ∈ ns, IsName n) (hps : ∀ n ∈ ps, IsName n) :
    (ofNames ns).key < (ofNames ps).key ↔ ns < ps := by
  rw [key, key, parts_ofNames hns, parts_ofNames hps, List.map_map, List.map_map]
  clear hns hps
  induction ns generalizing ps with
  | nil => cases ps <;> simp
  | cons n ns ih =>
    cases ps with
    | nil => simp
    | cons p ps =>
      rw [List.map_cons, List.map_cons, List.cons_lt_cons_iff, List.cons_lt_cons_iff, ih]
      simp [Part.key, Prod.Lex.toLex_lt_toLex]

end Reroot.Path

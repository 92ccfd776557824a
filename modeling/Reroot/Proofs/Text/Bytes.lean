import Reroot.Text.Basic
import Mathlib.Data.List.Basic
import Mathlib.Tactic.Common

namespace Reroot.Text

@[simp]
theorem byteWidth_nil : byteWidth [] = 0 := rfl

theorem byteWidth_cons (c : Char) (cs : List Char) :
    byteWidth (c :: cs) = c.utf8Size + byteWidth cs := rfl

@[simp]
theorem byteWidth_append (a b : List Char) : byteWidth (a ++ b) = byteWidth a + byteWidth b := by
  induction a with
  | nil => simp
  | cons c a ih =>
    rw [List.cons_append, byteWidth_cons, byteWidth_cons, ih]
    omega

theorem byteWidth_cons_pos (c : Char) (cs : List Char) : 0 < byteWidth (c :: cs) := by
  have := c.utf8Size_pos
  rw [byteWidth_cons]
  omega

theorem byteWidth_pos {cs : List Char} (h : cs ≠ []) : 0 < byteWidth cs := by
  cases cs with
  | nil => exact absurd rfl h
  | cons c cs => exact byteWidth_cons_pos c cs

theorem takeBytes_cons_succ (n : Nat) (c : Char) (cs : List Char) :
    takeBytes (n + 1) (c :: cs) = c :: takeBytes (n + 1 - c.utf8Size) cs := rfl

theorem dropBytes_cons_succ (n : Nat) (c : Char) (cs : List Char) :
    dropBytes (n + 1) (c :: cs) = dropBytes (n + 1 - c.utf8Size) cs := rfl

@[simp]
theorem takeBytes_zero (cs : List Char) : takeBytes 0 cs = [] := by
  cases cs <;> rfl

@[simp]
theorem dropBytes_zero (cs : List Char) : dropBytes 0 cs = cs := by
  cases cs <;> rfl

theorem takeBytes_add (a b : List Char) (n : Nat) :
    takeBytes (byteWidth a + n) (a ++ b) = a ++ takeBytes n b := by
  induction a with
  | nil => simp
  | cons c a ih =>
    obtain ⟨m, hm⟩ : ∃ m, byteWidth (c :: a) + n = m + 1 :=
      ⟨byteWidth (c :: a) + n - 1, by have := byteWidth_cons_pos c a; omega⟩
    rw [hm, List.cons_append, takeBytes_cons_succ, ← hm, byteWidth_cons, List.cons_append]
    have : c.utf8Size + byteWidth a + n - c.utf8Size = byteWidth a + n := by omega
    rw [this, ih]

theorem dropBytes_add (a b : List Char) (n : Nat) :
    dropBytes (byteWidth a + n) (a ++ b) = dropBytes n b := by
  induction a with
  | nil => simp
  | cons c a ih =>
    obtain ⟨m, hm⟩ : ∃ m, byteWidth (c :: a) + n = m + 1 :=
      ⟨byteWidth (c :: a) + n - 1, by have := byteWidth_cons_pos c a; omega⟩
    rw [hm, List.cons_append, dropBytes_cons_succ, ← hm, byteWidth_cons]
    have : c.utf8Size + byteWidth a + n - c.utf8Size = byteWidth a + n := by omega
    rw [this, ih]

@[simp]
theorem takeBytes_byteWidth (a b : List Char) : takeBytes (byteWidth a) (a ++ b) = a := by
  simpa using takeBytes_add a b 0

@[simp]
theorem dropBytes_byteWidth (a b : List Char) : dropBytes (byteWidth a) (a ++ b) = b := by
  simpa using dropBytes_add a b 0

theorem between_byteWidth (a b c : List Char) :
    between (byteWidth a) (byteWidth a + byteWidth b) (a ++ (b ++ c)) = b := by
  rw [between, dropBytes_byteWidth, Nat.add_sub_cancel_left, takeBytes_byteWidth]

theorem takeBytes_isPrefix (n : Nat) (cs : List Char) : takeBytes n cs <+: cs := by
  induction cs generalizing n with
  | nil => cases n <;> exact List.nil_prefix
  | cons c cs ih =>
    cases n with
    | zero => exact List.nil_prefix
    | succ n =>
      rw [takeBytes_cons_succ, List.cons_prefix_cons]
      exact ⟨rfl, ih _⟩

theorem dropBytes_isSuffix (n : Nat) (cs : List Char) : dropBytes n cs <:+ cs := by
  induction cs generalizing n with
  | nil => cases n <;> exact List.suffix_rfl
  | cons c cs ih =>
    cases n with
    | zero => exact List.suffix_rfl
    | succ n =>
      rw [dropBytes_cons_succ]
      exact (ih _).trans (List.suffix_cons c cs)

theorem between_isInfix (i j : Nat) (cs : List Char) : between i j cs <:+: cs :=
  (takeBytes_isPrefix _ _).isInfix.trans (dropBytes_isSuffix _ _).isInfix

def IsBoundary (text : List Char) (n : Nat) : Prop :=
  ∃ a b, text = a ++ b ∧ n = byteWidth a

theorem isBoundary_zero (text : List Char) : IsBoundary text 0 :=
  ⟨[], text, rfl, rfl⟩

theorem isBoundary_byteWidth (text : List Char) : IsBoundary text (byteWidth text) :=
  ⟨text, [], by simp, rfl⟩

theorem IsBoundary.le_byteWidth {text : List Char} {n : Nat} (h : IsBoundary text n) :
    n ≤ byteWidth text := by
  obtain ⟨a, b, rfl, rfl⟩ := h
  simp

theorem exists_eq_append_of_byteWidth_le {a b c d : List Char} (h : a ++ b = c ++ d)
    (hle : byteWidth a ≤ byteWidth c) : ∃ m, c = a ++ m ∧ b = m ++ d := by
  obtain ⟨m, hc, hb⟩ | ⟨m, ha, hd⟩ := List.append_eq_append_iff.1 h
  · exact ⟨m, hc, hb⟩
  · rw [ha, byteWidth_append] at hle
    obtain rfl : m = [] := by
      by_contra hne
      have := byteWidth_pos hne
      omega
    exact ⟨[], by simpa using ha.symm, by simpa using hd.symm⟩

theorem IsBoundary.split {text : List Char} {i j : Nat} (hi : IsBoundary text i)
    (hj : IsBoundary text j) (hij : i ≤ j) :
    ∃ a b c, text = a ++ (b ++ c) ∧ i = byteWidth a ∧ j = byteWidth a + byteWidth b := by
  obtain ⟨a, r, rfl, rfl⟩ := hi
  obtain ⟨d, c, hd, rfl⟩ := hj
  obtain ⟨b, rfl, rfl⟩ := exists_eq_append_of_byteWidth_le hd hij
  exact ⟨a, b, c, rfl, rfl, by simp⟩

theorem lt_of_between_ne_nil {text : List Char} {i j : Nat} (hne : between i j text ≠ []) :
    i < j := by
  by_contra hle
  apply hne
  have : j - i = 0 := by omega
  rw [between, this, takeBytes_zero]

theorem occursIn_of_isInfix {part text : List Char} (h : part <:+: text) :
    occursIn part text = true := by
  obtain ⟨s, r, rfl⟩ := h
  induction s with
  | nil =>
    rw [List.nil_append]
    cases part with
    | nil => cases r <;> simp [occursIn]
    | cons p part => simp [occursIn]
  | cons c s ih => simp only [List.cons_append, occursIn, ih, Bool.or_true]

end Reroot.Text

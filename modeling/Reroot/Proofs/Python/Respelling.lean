import Reroot.Proofs.Name.Grammar
import Reroot.Proofs.Python.Shape

namespace Reroot.Python

open Text (isIdentifierStart isIdentifierContinue)

inductive Before where
  | gap | word | number
  deriving DecidableEq

def Before.next (s : Before) (c : Char) : Before :=
  if c == '\\' || c == '!' then .number
  else if c == '.' then if s = .number then .number else .gap
  else if isIdentifierContinue c then
    if s = .gap then if isIdentifierStart c then .word else .number else s
  else .gap

def IsPlain (words : List String) (w : List Char) : Prop :=
  isIdentifier w = true ∧ String.ofList w ∉ words

def Clear (rest : List Char) : Prop :=
  ∀ d ∈ rest.head?, isIdentifierContinue d = false ∧ isQuoteMark d = false

/-- The second text is the first with plain words in place of plain words. A word is replaced whole:
not inside a longer word, a number, an escape or a conversion, and not as the prefix of a literal. -/
inductive Respelled (words : List String) : Before → List Char → List Char → Prop where
  | nil {s : Before} : Respelled words s [] []
  | keep {s : Before} {c : Char} {cs ds : List Char} (h : Respelled words (s.next c) cs ds) :
      Respelled words s (c :: cs) (c :: ds)
  | swap {w w' cs ds : List Char} (hw : IsPlain words w) (hw' : IsPlain words w') (hcs : Clear cs)
      (h : Respelled words .word cs ds) : Respelled words .gap (w ++ cs) (w' ++ ds)

def Aligned (words : List String) (cs ds : List Char) : Prop :=
  ∃ s, s ≠ .word ∧ Respelled words s cs ds

section Chars

variable {c d : Char} {s : Before}

theorem ne_of_continue (hc : isIdentifierContinue c = true) (hd : isIdentifierContinue d = false) :
    c ≠ d := by
  rintro rfl
  rw [hc] at hd
  cases hd

theorem continue_of_isDigit (h : c.isDigit = true) : isIdentifierContinue c = true := by
  simp [isIdentifierContinue, h]

theorem start_eq_false_of_isDigit (h : c.isDigit = true) : isIdentifierStart c = false := by
  have hlo : 48 ≤ c.toNat := (Bool.and_eq_true_iff.1 h).1 |> of_decide_eq_true
  have hhi : c.toNat ≤ 57 := (Bool.and_eq_true_iff.1 h).2 |> of_decide_eq_true
  rw [← Char.ofNat_toNat c]
  generalize c.toNat = n at hlo hhi
  interval_cases n <;> decide

theorem continue_of_isLetter (h : IsLetter c) : isIdentifierContinue c = true := by
  simp [isIdentifierContinue, isIdentifierStart, isAlpha_iff.2 h]

theorem continue_of_isHexDigit (c : Char) (h : isHexDigit c = true) :
    isIdentifierContinue c = true := by
  simp only [isHexDigit, Bool.or_eq_true, Bool.and_eq_true, decide_eq_true_eq] at h
  obtain (hdigit | ⟨hlo, hhi⟩) | ⟨hlo, hhi⟩ := h
  · exact continue_of_isDigit hdigit
  · exact continue_of_isLetter (.inl ⟨hlo, Char.le_trans hhi (by decide)⟩)
  · exact continue_of_isLetter (.inr ⟨hlo, Char.le_trans hhi (by decide)⟩)

theorem continue_of_isOctDigit (c : Char) (h : isOctDigit c = true) :
    isIdentifierContinue c = true := by
  simp only [isOctDigit, Bool.and_eq_true, decide_eq_true_eq] at h
  exact continue_of_isDigit (isDigit_iff.2 ⟨h.1, Char.le_trans h.2 (by decide)⟩)

theorem continue_of_isBinDigit (c : Char) (h : isBinDigit c = true) :
    isIdentifierContinue c = true := by
  obtain h | h := Bool.or_eq_true_iff.1 h <;> rw [beq_iff_eq.1 h] <;> decide

theorem continue_of_isLongSuffix (c : Char) (h : isLongSuffix c = true) :
    isIdentifierContinue c = true := by
  obtain h | h := Bool.or_eq_true_iff.1 h <;> rw [beq_iff_eq.1 h] <;> decide

theorem continue_of_isImaginarySuffix (c : Char) (h : isImaginarySuffix c = true) :
    isIdentifierContinue c = true := by
  obtain h | h := Bool.or_eq_true_iff.1 h <;> rw [beq_iff_eq.1 h] <;> decide

theorem start_eq_false (h : isIdentifierContinue c = false) : isIdentifierStart c = false := by
  cases hs : isIdentifierStart c with
  | false => rfl
  | true =>
    rw [isIdentifierContinue_of_start hs] at h
    cases h

theorem isQuoteMark_eq_false (h : isIdentifierContinue c = true) : isQuoteMark c = false := by
  simp only [isQuoteMark, Bool.or_eq_false_iff, beq_eq_false_iff_ne]
  exact ⟨⟨ne_of_continue h (by decide), ne_of_continue h (by decide)⟩, ne_of_continue h (by decide)⟩

theorem isIdentifierContinue_of_isQuoteMark (h : isQuoteMark c = true) :
    isIdentifierContinue c = false :=
  Bool.eq_false_iff.2 fun hc => by simp [isQuoteMark_eq_false hc] at h

theorem next_of_continue (h : isIdentifierContinue c = true) :
    s.next c = if s = .gap then if isIdentifierStart c then .word else .number else s := by
  have hslash : c ≠ '\\' := ne_of_continue h (by decide)
  have hbang : c ≠ '!' := ne_of_continue h (by decide)
  have hdot : c ≠ '.' := ne_of_continue h (by decide)
  simp [Before.next, hslash, hbang, hdot, h]

theorem next_ne_gap (h : isIdentifierContinue c = true) : s.next c ≠ .gap := by
  rw [next_of_continue h]
  split
  · split <;> decide
  · assumption

theorem next_ne_word (h : isIdentifierContinue c = false) : s.next c ≠ .word := by
  unfold Before.next
  rw [h]
  repeat' split
  all_goals first | decide | contradiction

theorem next_number (h : isIdentifierContinue c = true ∨ c = '.') :
    Before.number.next c = .number := by
  obtain h | rfl := h
  · rw [next_of_continue h]
    rfl
  · rfl

theorem next_digit (hs : s ≠ .word) (h : c.isDigit = true) : s.next c = .number := by
  rw [next_of_continue (continue_of_isDigit h), start_eq_false_of_isDigit h]
  cases s with
  | word => exact absurd rfl hs
  | gap | number => rfl

end Chars

def radixPrefix : List Char → Option Nat
  | '0' :: x :: tail =>
    if x == 'x' || x == 'X' then radixLength isHexDigit tail
    else if x == 'o' || x == 'O' then radixLength isOctDigit tail
    else if x == 'b' || x == 'B' then radixLength isBinDigit tail
    else none
  | _ => none

def fractionLength (cs : List Char) : Nat :=
  if cs.head? == some '.' then digitRun (cs.drop 1) + 1 else 0

def decimalLength (cs : List Char) : Option (Kind × Nat) :=
  let whole := digitRun cs
  let fraction := fractionLength (cs.drop whole)
  if whole == 0 && fraction ≤ 1 then none
  else
    let exponent := exponentLength (cs.drop (whole + fraction))
    let n := whole + fraction + exponent
    let after := cs.drop n
    if fraction == 0 && exponent == 0 then
      let long := suffixLength isLongSuffix after
      some (.integerLit, n + (if long == 1 then 1 else suffixLength isImaginarySuffix after))
    else some (.floatLit, n + suffixLength isImaginarySuffix after)

theorem numberLength_cases (cs : List Char) : numberLength cs =
    match radixPrefix cs with
    | some n => some (.integerLit, n)
    | none => decimalLength cs := by
  unfold numberLength
  extract_lets radix whole tail point fraction exponent m after long
  have hradix : radix = radixPrefix cs := rfl
  rw [hradix]
  cases radixPrefix cs with
  | some n => rfl
  | none =>
    have hfraction : fractionLength tail = point + fraction := by
      simp only [fractionLength, fraction, point]
      split
      · exact Nat.add_comm _ _
      · rfl
    have hpoint : (point + fraction == 0) = (point == 0) := by
      simp only [fraction, point]
      split <;> simp
    have hnone : decide (point + fraction ≤ 1) = (fraction == 0) := by
      simp only [fraction, point]
      split <;> simp [Bool.beq_eq_decide_eq]
    simp only [decimalLength, hfraction, hpoint, hnone, tail, whole, exponent, m, after, long,
      List.drop_drop, Nat.add_assoc]

namespace Respelled

variable {words : List String} {s : Before} {c : Char} {cs ds : List Char} {p : Char → Bool}

theorem refl (words : List String) (s : Before) (cs : List Char) : Respelled words s cs cs := by
  induction cs generalizing s with
  | nil => exact .nil
  | cons c cs ih => exact .keep (ih _)

theorem exists_start {w : List Char} (h : IsPlain words w) :
    ∃ c cs, w = c :: cs ∧ isIdentifierStart c = true ∧ ∀ d ∈ w, isIdentifierContinue d = true :=
  isIdentifier_iff.1 h.1

theorem eq_nil (h : Respelled words s [] ds) : ds = [] := by
  generalize hcs : ([] : List Char) = cs at h
  cases h with
  | nil => rfl
  | keep => cases hcs
  | swap hw =>
    obtain ⟨c, w, rfl, -⟩ := exists_start hw
    cases hcs

theorem uncons (h : Respelled words s (c :: cs) ds) (hs : s ≠ .gap ∨ isIdentifierStart c = false) :
    ∃ ds', ds = c :: ds' ∧ Respelled words (s.next c) cs ds' := by
  generalize hcs : c :: cs = xs at h
  cases h with
  | nil => cases hcs
  | keep h =>
    cases hcs
    exact ⟨_, rfl, h⟩
  | swap hw =>
    obtain ⟨d, w, rfl, hd, -⟩ := exists_start hw
    cases hcs
    obtain hs | hs := hs
    · exact absurd rfl hs
    · rw [hd] at hs
      cases hs

theorem any_head? (h : Respelled words s cs ds) (hp : ∀ c, p c = true → isIdentifierStart c = false) :
    ds.head?.any p = cs.head?.any p := by
  have hstart {c : Char} (hc : isIdentifierStart c = true) : p c = false :=
    Bool.eq_false_iff.2 fun hpc => by simp [hp c hpc] at hc
  cases h with
  | nil => rfl
  | keep => rfl
  | swap hw hw' =>
    obtain ⟨c, w, rfl, hc, -⟩ := exists_start hw
    obtain ⟨c', w', rfl, hc', -⟩ := exists_start hw'
    simp [hstart hc, hstart hc']

theorem head?_eq (h : Respelled words s cs ds) (hs : s ≠ .gap) : ds.head? = cs.head? := by
  cases h with
  | nil | keep => rfl
  | swap => exact absurd rfl hs

theorem ended (h : Respelled words s cs ds) (hs : s ≠ .gap) (hcs : Ended cs) : Ended ds :=
  fun d hd => hcs d (h.head?_eq hs ▸ hd)

theorem clear (h : Respelled words s cs ds) (hs : s ≠ .gap) (hcs : Clear cs) : Clear ds :=
  fun d hd => hcs d (h.head?_eq hs ▸ hd)

theorem head?_beq (h : Respelled words s cs ds) (hc : isIdentifierStart c = false) :
    (ds.head? == some c) = (cs.head? == some c) := by
  have hany (xs : List Char) : (xs.head? == some c) = xs.head?.any (· == c) := by
    cases xs <;> simp
  rw [hany, hany]
  exact h.any_head? fun d hd => by rwa [beq_iff_eq.1 hd]

theorem gap_of_ended (h : Respelled words .word cs ds) (hcs : Ended cs) :
    Respelled words .gap cs ds := by
  cases h with
  | nil => exact .nil
  | @keep _ c _ _ h =>
    have hc : isIdentifierContinue c = false := hcs c rfl
    refine .keep ?_
    simpa only [Before.next, hc, reduceCtorEq, if_false, Bool.false_eq_true] using h

theorem aligned_of_ended (h : Respelled words s cs ds) (hcs : Ended cs) : Aligned words cs ds := by
  cases s with
  | word => exact ⟨.gap, by decide, h.gap_of_ended hcs⟩
  | gap => exact ⟨.gap, by decide, h⟩
  | number => exact ⟨.number, by decide, h⟩

theorem takeWhile_eq (h : Respelled words s cs ds) (hs : s ≠ .gap)
    (hp : ∀ c, p c = true → isIdentifierContinue c = true) :
    ds.takeWhile p = cs.takeWhile p ∧
      ∃ t, t ≠ .gap ∧ Respelled words t (cs.dropWhile p) (ds.dropWhile p) := by
  induction h with
  | @nil s => exact ⟨rfl, s, hs, .nil⟩
  | @keep s c cs ds h ih =>
    rw [List.takeWhile_cons, List.takeWhile_cons, List.dropWhile_cons, List.dropWhile_cons]
    split
    · next hc =>
      obtain ⟨htake, hdrop⟩ := ih (next_ne_gap (hp c hc))
      exact ⟨congrArg (c :: ·) htake, hdrop⟩
    · exact ⟨rfl, s, hs, .keep h⟩
  | swap => exact absurd rfl hs

theorem takeWhile_mark (h : Respelled words s cs ds) (hs : s ≠ .word)
    (hp : ∀ c, p c = true → isIdentifierContinue c = false) :
    ds.takeWhile p = cs.takeWhile p ∧ Aligned words (cs.dropWhile p) (ds.dropWhile p) := by
  have stays {w xs : List Char} (hw : IsPlain words w) :
      (w ++ xs).takeWhile p = [] ∧ (w ++ xs).dropWhile p = w ++ xs := by
    obtain ⟨c, w, rfl, hc, -⟩ := exists_start hw
    have hpc : ¬p c = true := fun h => by
      have := hp c h
      rw [isIdentifierContinue_of_start hc] at this
      cases this
    exact ⟨List.takeWhile_cons_of_neg hpc, List.dropWhile_cons_of_neg hpc⟩
  induction h with
  | @nil s => exact ⟨rfl, s, hs, .nil⟩
  | @keep s c cs ds h ih =>
    rw [List.takeWhile_cons, List.takeWhile_cons, List.dropWhile_cons, List.dropWhile_cons]
    split
    · next hc =>
      obtain ⟨htake, hdrop⟩ := ih (next_ne_word (hp c hc))
      exact ⟨congrArg (c :: ·) htake, hdrop⟩
    · exact ⟨rfl, s, hs, .keep h⟩
  | swap hw hw' hcs h =>
    rw [(stays hw).1, (stays hw).2, (stays hw').1, (stays hw').2]
    exact ⟨rfl, .gap, by decide, .swap hw hw' hcs h⟩

theorem dropWhile_word (h : Respelled words s cs ds)
    (hp : ∀ c, isIdentifierContinue c = true → p c = true) :
    Aligned words (cs.dropWhile p) (ds.dropWhile p) := by
  induction h with
  | nil => exact ⟨.gap, by decide, .nil⟩
  | @keep s c cs ds h ih =>
    rw [List.dropWhile_cons, List.dropWhile_cons]
    split
    · exact ih
    · next hc =>
      refine (Respelled.keep h).aligned_of_ended (ended_cons ?_ cs)
      exact Bool.eq_false_iff.2 fun hn => hc (hp c hn)
  | swap hw hw' _ _ ih =>
    obtain ⟨c, w, -, -, hword⟩ := exists_start hw
    obtain ⟨c', w', -, -, hword'⟩ := exists_start hw'
    rwa [List.dropWhile_append_of_pos fun d hd => hp d (hword d hd),
      List.dropWhile_append_of_pos fun d hd => hp d (hword' d hd)]

theorem prefix_marks (h : Respelled words s cs ds) (xs : List Char) (hs : xs ≠ [] ∨ s ≠ .word)
    (hxs : ∀ c ∈ xs, isIdentifierContinue c = false) :
    xs.isPrefixOf ds = xs.isPrefixOf cs ∧
      (xs.isPrefixOf cs = true → Aligned words (cs.drop xs.length) (ds.drop xs.length)) := by
  induction xs generalizing s cs ds with
  | nil => exact ⟨rfl, fun _ => ⟨s, hs.resolve_left (absurd rfl), h⟩⟩
  | cons x xs ih =>
    obtain ⟨hx, hxs⟩ := List.forall_mem_cons.1 hxs
    cases h with
    | nil => exact ⟨rfl, nofun⟩
    | @keep _ c _ _ h =>
      rw [List.isPrefixOf_cons_cons, List.isPrefixOf_cons_cons]
      by_cases hxc : x = c
      · subst hxc
        simpa using ih h (.inr (next_ne_word hx)) hxs
      · simp [beq_eq_false_iff_ne.2 hxc]
    | swap hw hw' =>
      obtain ⟨c, w, rfl, hc, -⟩ := exists_start hw
      obtain ⟨c', w', rfl, hc', -⟩ := exists_start hw'
      have hne {d : Char} (hd : isIdentifierStart d = true) : (x == d) = false :=
        beq_eq_false_iff_ne.2 (ne_of_continue (isIdentifierContinue_of_start hd) hx).symm
      simp [List.isPrefixOf_cons_cons, hne hc, hne hc']

theorem prefix_word {v xs : List Char} (h : Respelled words s cs ds) (hs : s ≠ .gap)
    (hv : ∀ c ∈ v, isIdentifierContinue c = true) (hxs : ∀ c ∈ xs, isIdentifierContinue c = false)
    (hne : xs ≠ []) : (v ++ xs).isPrefixOf ds = (v ++ xs).isPrefixOf cs ∧
      ((v ++ xs).isPrefixOf cs = true →
        Aligned words (cs.drop (v ++ xs).length) (ds.drop (v ++ xs).length)) := by
  induction v generalizing s cs ds with
  | nil => exact h.prefix_marks xs (.inl hne) hxs
  | cons x v ih =>
    obtain ⟨hx, hv⟩ := List.forall_mem_cons.1 hv
    cases h with
    | nil => exact ⟨rfl, nofun⟩
    | @keep _ c _ _ h =>
      rw [List.cons_append, List.isPrefixOf_cons_cons, List.isPrefixOf_cons_cons]
      by_cases hxc : x = c
      · subst hxc
        simpa using ih h (next_ne_gap hx) hv
      · simp [beq_eq_false_iff_ne.2 hxc]
    | swap => exact absurd rfl hs

section Numbers

def isSign (c : Char) : Bool :=
  c == '+' || c == '-'

theorem digitRun_eq_zero_iff : digitRun cs = 0 ↔ cs.head?.any Char.isDigit = false := by
  fun_cases digitRun cs <;> simp_all

theorem uncons_number (h : Respelled words .number (c :: cs) ds) (hc : isIdentifierContinue c = true) :
    ∃ ds', ds = c :: ds' ∧ Respelled words .number cs ds' := by
  obtain ⟨ds', rfl, h'⟩ := h.uncons (.inl (by decide))
  rw [next_number (.inl hc)] at h'
  exact ⟨ds', rfl, h'⟩

theorem digitRun_eq_of_number (h : Respelled words .number cs ds) :
    digitRun ds = digitRun cs ∧
      Respelled words .number (cs.drop (digitRun cs)) (ds.drop (digitRun cs)) := by
  have none {cs ds : List Char} (h : Respelled words .number cs ds) (hcs : digitRun cs = 0) :
      digitRun ds = 0 := by
    rw [digitRun_eq_zero_iff] at hcs ⊢
    rw [h.head?_eq (by decide), hcs]
  fun_induction digitRun cs generalizing ds with
  | case1 => exact ⟨none h rfl, h⟩
  | case2 c hc =>
    obtain ⟨ds, rfl, h'⟩ := h.uncons_number (continue_of_isDigit hc)
    obtain rfl := h'.eq_nil
    exact ⟨by simp [digitRun, hc], .nil⟩
  | case3 c hc => exact ⟨none h (by simp [digitRun, hc]), h⟩
  | case4 c d cs hc hd ih =>
    obtain ⟨_, rfl, h₁⟩ := h.uncons_number (continue_of_isDigit hc)
    obtain ⟨ds, rfl, h₂⟩ := h₁.uncons_number (by rw [beq_iff_eq.1 hd]; decide)
    obtain ⟨heq, hdrop⟩ := ih h₂
    refine ⟨by simp [digitRun, hc, hd, heq], ?_⟩
    simpa only [Nat.add_comm 2, List.drop_succ_cons] using hdrop
  | case5 c d cs hc hd ih =>
    obtain ⟨ds, rfl, h'⟩ := h.uncons_number (continue_of_isDigit hc)
    obtain ⟨ds, rfl, -⟩ := h'.uncons (.inl (by decide))
    obtain ⟨heq, hdrop⟩ := ih h'
    refine ⟨by simp [digitRun, hc, hd, heq], ?_⟩
    simpa only [Nat.add_comm 1, List.drop_succ_cons] using hdrop
  | case6 c d cs hc => exact ⟨none h (by simp [digitRun, hc]), h⟩

theorem digitRun_eq (h : Respelled words s cs ds) (hs : s ≠ .word) :
    digitRun ds = digitRun cs ∧ (0 < digitRun cs →
      Respelled words .number (cs.drop (digitRun cs)) (ds.drop (digitRun cs))) := by
  by_cases hcs : digitRun cs = 0
  · refine ⟨?_, fun hpos => absurd hcs (Nat.ne_of_gt hpos)⟩
    rw [hcs]
    rw [digitRun_eq_zero_iff] at hcs ⊢
    rw [h.any_head? fun c => start_eq_false_of_isDigit, hcs]
  · obtain ⟨c, cs, rfl⟩ := List.exists_cons_of_ne_nil (l := cs) (by rintro rfl; exact hcs rfl)
    have hc : c.isDigit = true := by simpa [digitRun_eq_zero_iff] using hcs
    obtain ⟨ds, rfl, h'⟩ := h.uncons (.inr (start_eq_false_of_isDigit hc))
    rw [next_digit hs hc, ← next_number (.inl (continue_of_isDigit hc))] at h'
    obtain ⟨heq, hdrop⟩ := digitRun_eq_of_number (.keep h')
    exact ⟨heq, fun _ => hdrop⟩

theorem groupRun_eq (hp : ∀ c, p c = true → isIdentifierContinue c = true)
    (h : Respelled words .number cs ds) : groupRun p ds = groupRun p cs ∧
      Respelled words .number (cs.drop (groupRun p cs)) (ds.drop (groupRun p cs)) := by
  fun_induction groupRun p cs generalizing ds with
  | case1 =>
    obtain rfl := h.eq_nil
    exact ⟨rfl, h⟩
  | case2 c hc =>
    obtain ⟨ds, rfl, h'⟩ := h.uncons_number (hp c hc)
    obtain rfl := h'.eq_nil
    exact ⟨by simp [groupRun, hc], .nil⟩
  | case3 c hc =>
    obtain ⟨ds, rfl, h'⟩ := h.uncons (.inl (by decide))
    obtain rfl := h'.eq_nil
    simpa [groupRun, hc] using h
  | case4 c d cs hc ih =>
    obtain ⟨ds, rfl, h'⟩ := h.uncons_number (hp c hc)
    obtain ⟨ds, rfl, -⟩ := h'.uncons (.inl (by decide))
    obtain ⟨heq, hdrop⟩ := ih h'
    refine ⟨by simp [groupRun, hc, heq], ?_⟩
    simpa only [Nat.add_comm 1, List.drop_succ_cons] using hdrop
  | case5 c d cs hc hd ih =>
    obtain ⟨hunder, hdigit⟩ := Bool.and_eq_true_iff.1 hd
    obtain rfl := beq_iff_eq.1 hunder
    obtain ⟨_, rfl, h₁⟩ := h.uncons_number (by decide)
    obtain ⟨ds, rfl, h₂⟩ := h₁.uncons_number (hp d hdigit)
    obtain ⟨heq, hdrop⟩ := ih h₂
    refine ⟨by simp [groupRun, hc, hdigit, heq], ?_⟩
    simpa only [Nat.add_comm 2, List.drop_succ_cons] using hdrop
  | case6 c d cs hc hd =>
    suffices heq : groupRun p ds = 0 by simpa [groupRun, hc, hd, heq] using h
    obtain ⟨ds, rfl, h'⟩ := h.uncons (.inl (by decide))
    obtain _ | ⟨e, es⟩ := ds
    · simp [groupRun, hc]
    · simp only [groupRun, hc, Bool.false_eq_true, if_false, ite_eq_right_iff, Bool.and_eq_true, beq_iff_eq]
      rintro ⟨rfl, he⟩
      obtain ⟨_, heq, -⟩ := h'.uncons (.inl (by decide))
      cases heq
      simp [he] at hd

theorem suffixLength_mark (h : Respelled words s cs ds) (hs : s ≠ .word)
    (hp : ∀ c, p c = true → isIdentifierContinue c = false) :
    suffixLength p ds = suffixLength p cs ∧
      Aligned words (cs.drop (suffixLength p cs)) (ds.drop (suffixLength p cs)) := by
  unfold suffixLength
  rw [h.any_head? fun c hc => start_eq_false (hp c hc)]
  refine ⟨rfl, ?_⟩
  split
  · next hany =>
    obtain ⟨c, hcs, hc⟩ := (Option.any_eq_true p cs.head?).1 hany
    obtain ⟨cs, rfl⟩ := List.head?_eq_some_iff.1 hcs
    obtain ⟨ds, rfl, h'⟩ := h.uncons (.inr (start_eq_false (hp c hc)))
    exact ⟨_, next_ne_word (hp c hc), h'⟩
  · exact ⟨s, hs, h⟩

theorem suffixLength_eq (h : Respelled words .number cs ds)
    (hp : ∀ c, p c = true → isIdentifierContinue c = true) :
    suffixLength p ds = suffixLength p cs ∧
      Respelled words .number (cs.drop (suffixLength p cs)) (ds.drop (suffixLength p cs)) := by
  unfold suffixLength
  rw [h.head?_eq (by decide)]
  refine ⟨rfl, ?_⟩
  split
  · next hany =>
    obtain ⟨c, hcs, hc⟩ := (Option.any_eq_true p cs.head?).1 hany
    obtain ⟨cs, rfl⟩ := List.head?_eq_some_iff.1 hcs
    obtain ⟨ds, rfl, h'⟩ := h.uncons (.inl (by decide))
    rwa [next_number (.inl (hp c hc))] at h'
  · exact h

theorem exponentLength_eq (h : Respelled words .number cs ds) :
    exponentLength ds = exponentLength cs ∧
      Respelled words .number (cs.drop (exponentLength cs)) (ds.drop (exponentLength cs)) := by
  cases cs with
  | nil =>
    obtain rfl := h.eq_nil
    exact ⟨rfl, h⟩
  | cons e cs =>
    obtain ⟨ds, rfl, h'⟩ := h.uncons (.inl (by decide))
    by_cases he : (e == 'e' || e == 'E') = true
    · have hcontinue : isIdentifierContinue e = true := by
        obtain he | he := Bool.or_eq_true_iff.1 he <;> rw [beq_iff_eq.1 he] <;> decide
      have hvalue (xs : List Char) : exponentLength (e :: xs) =
          if digitRun (xs.drop (suffixLength isSign xs)) = 0 then 0
          else suffixLength isSign xs + digitRun (xs.drop (suffixLength isSign xs)) + 1 := by
        simp only [exponentLength, he, if_true, beq_iff_eq, suffixLength, Nat.add_comm 1,
          Nat.add_right_comm]
        rfl
      rw [next_number (.inl hcontinue)] at h'
      obtain ⟨hsign, t, ht, hrest⟩ := h'.suffixLength_mark (p := isSign) (by decide) fun c hc => by
        obtain hc | hc := Bool.or_eq_true_iff.1 hc <;> rw [beq_iff_eq.1 hc] <;> decide
      obtain ⟨hdigits, hdrop⟩ := hrest.digitRun_eq ht
      rw [hvalue, hvalue, hsign, hdigits]
      refine ⟨rfl, ?_⟩
      split
      · exact h
      · next hne =>
        rw [List.drop_succ_cons, List.drop_succ_cons, ← List.drop_drop, ← List.drop_drop]
        exact hdrop (Nat.pos_of_ne_zero hne)
    · simpa [exponentLength, he] using h

theorem radixLength_eq (hp : ∀ c, p c = true → isIdentifierContinue c = true)
    (h : Respelled words .number cs ds) : radixLength p ds = radixLength p cs ∧
      ∀ n, radixLength p cs = some n →
        ∃ m, n = m + 2 ∧ Respelled words .number (cs.drop m) (ds.drop m) := by
  obtain ⟨hgroup, hrest⟩ := h.groupRun_eq hp
  obtain ⟨hlong, hrest⟩ := hrest.suffixLength_eq continue_of_isLongSuffix
  unfold radixLength
  dsimp only
  rw [hgroup, hlong]
  refine ⟨rfl, fun n hn => ?_⟩
  split at hn <;> cases hn
  refine ⟨groupRun p cs + suffixLength isLongSuffix (cs.drop (groupRun p cs)), by omega, ?_⟩
  rwa [List.drop_drop, List.drop_drop] at hrest

theorem fractionLength_eq (h : Respelled words s cs ds) (hs : s ≠ .word) :
    fractionLength ds = fractionLength cs ∧ (s = .number ∨ 1 < fractionLength cs →
      Respelled words .number (cs.drop (fractionLength cs)) (ds.drop (fractionLength cs))) := by
  unfold fractionLength
  rw [h.head?_beq (by decide)]
  split
  · next hpoint =>
    obtain ⟨cs, rfl⟩ := List.head?_eq_some_iff.1 (beq_iff_eq.1 hpoint)
    obtain ⟨ds, rfl, h'⟩ := h.uncons (.inr (by decide))
    obtain ⟨heq, hdrop⟩ := h'.digitRun_eq (next_ne_word (by decide))
    simp only [List.drop_succ_cons, List.drop_zero, heq, true_and]
    rintro (rfl | hpos)
    · exact (digitRun_eq_of_number h').2
    · exact hdrop (by omega)
  · refine ⟨rfl, fun hs => ?_⟩
    obtain rfl | hlt := hs
    · exact h
    · omega

theorem decimalLength_eq (h : Respelled words s cs ds) (hs : s ≠ .word) :
    decimalLength ds = decimalLength cs ∧
      ∀ k n, decimalLength cs = some (k, n) → Respelled words .number (cs.drop n) (ds.drop n) := by
  obtain ⟨hwhole, hrest⟩ := h.digitRun_eq hs
  obtain ⟨t, ht, hnumber, hrest⟩ : ∃ t, t ≠ .word ∧ (0 < digitRun cs → t = .number) ∧
      Respelled words t (cs.drop (digitRun cs)) (ds.drop (digitRun cs)) := by
    by_cases hpos : 0 < digitRun cs
    · exact ⟨.number, by decide, fun _ => rfl, hrest hpos⟩
    · rw [Nat.eq_zero_of_not_pos hpos]
      exact ⟨s, hs, nofun, h⟩
  obtain ⟨hfraction, hrest⟩ := hrest.fractionLength_eq ht
  unfold decimalLength
  dsimp only
  rw [hwhole, hfraction]
  split
  · exact ⟨rfl, nofun⟩
  · next hne =>
    have hrest := hrest (by
      simp only [Bool.and_eq_true, beq_iff_eq, decide_eq_true_eq, not_and_or] at hne
      obtain hne | hne := hne
      · exact .inl (hnumber (Nat.pos_of_ne_zero hne))
      · exact .inr (by omega))
    rw [List.drop_drop, List.drop_drop] at hrest
    obtain ⟨hexponent, hrest⟩ := hrest.exponentLength_eq
    rw [List.drop_drop, List.drop_drop] at hrest
    obtain ⟨hlong, hlong'⟩ := hrest.suffixLength_eq continue_of_isLongSuffix
    obtain ⟨himaginary, himaginary'⟩ := hrest.suffixLength_eq continue_of_isImaginarySuffix
    rw [List.drop_drop, List.drop_drop] at hlong' himaginary'
    rw [hexponent, hlong, himaginary]
    refine ⟨rfl, fun k n hn => ?_⟩
    split at hn
    · cases hn
      split
      · next hone =>
        rwa [beq_iff_eq.1 hone] at hlong'
      · exact himaginary'
    · cases hn
      exact himaginary'

theorem radixPrefix_eq (h : Respelled words s cs ds) (hs : s ≠ .word) :
    radixPrefix ds = radixPrefix cs ∧
      ∀ n, radixPrefix cs = some n → Respelled words .number (cs.drop n) (ds.drop n) := by
  have hother {xs : List Char} (hxs : xs.head? ≠ some '0') : radixPrefix xs = none := by
    unfold radixPrefix
    split
    · exact absurd rfl hxs
    · rfl
  by_cases hzero : cs.head? = some '0'
  · obtain ⟨cs, rfl⟩ := List.head?_eq_some_iff.1 hzero
    obtain ⟨ds, rfl, h'⟩ := h.uncons (.inr (by decide))
    rw [next_digit hs (by decide)] at h'
    cases cs with
    | nil =>
      obtain rfl := h'.eq_nil
      exact ⟨rfl, nofun⟩
    | cons x tail =>
      obtain ⟨tail', rfl, htail⟩ := h'.uncons (.inl (by decide))
      have radix {p : Char → Bool} (hx : isIdentifierContinue x = true)
          (hp : ∀ c, p c = true → isIdentifierContinue c = true) :
          radixLength p tail' = radixLength p tail ∧ ∀ n, radixLength p tail = some n →
            Respelled words .number (('0' :: x :: tail).drop n) (('0' :: x :: tail').drop n) := by
        rw [next_number (.inl hx)] at htail
        obtain ⟨heq, hdrop⟩ := htail.radixLength_eq hp
        refine ⟨heq, fun n hn => ?_⟩
        obtain ⟨m, rfl, hm⟩ := hdrop n hn
        exact hm
      have letter {a b : Char} (hx : (x == a || x == b) = true)
          (ha : isIdentifierContinue a = true) (hb : isIdentifierContinue b = true) :
          isIdentifierContinue x = true := by
        obtain hx | hx := Bool.or_eq_true_iff.1 hx <;> rw [beq_iff_eq.1 hx] <;> assumption
      simp only [radixPrefix]
      split
      · next hx => exact radix (letter hx (by decide) (by decide)) continue_of_isHexDigit
      · split
        · next hx => exact radix (letter hx (by decide) (by decide)) continue_of_isOctDigit
        · split
          · next hx => exact radix (letter hx (by decide) (by decide)) continue_of_isBinDigit
          · exact ⟨rfl, nofun⟩
  · have hzero' : ds.head? ≠ some '0' := fun hd => hzero <| by
      simpa [hd] using h.head?_beq (c := '0') (by decide)
    rw [hother hzero, hother hzero']
    exact ⟨rfl, nofun⟩

theorem numberLength_eq (h : Respelled words s cs ds) (hs : s ≠ .word) :
    numberLength ds = numberLength cs ∧
      ∀ k n, numberLength cs = some (k, n) → Respelled words .number (cs.drop n) (ds.drop n) := by
  obtain ⟨hradix, hradix'⟩ := h.radixPrefix_eq hs
  obtain ⟨hdecimal, hdecimal'⟩ := h.decimalLength_eq hs
  rw [numberLength_cases, numberLength_cases, hradix, hdecimal]
  refine ⟨rfl, fun k n hn => ?_⟩
  split at hn
  · next hn' =>
    cases hn
    exact hradix' _ hn'
  · exact hdecimal' k n hn

end Numbers

end Respelled

def Lexeme.length : Lexeme → Nat
  | .word _ n | .number _ n => n
  | .mark t => t.length
  | .nothing => 0

inductive Lexeme.Respelled (words : List String) : Lexeme → Lexeme → Prop where
  | same (l : Lexeme) : Respelled words l l
  | swap {w w' : String} (n n' : Nat) (hw : IsPlain words w.toList) (hw' : IsPlain words w'.toList) :
      Respelled words (.word w n) (.word w' n')

theorem isIdentifierContinue_of_mem_marks {m : String} (h : m ∈ marks) :
    ∀ c ∈ m.toList, isIdentifierContinue c = false := by
  have hall : (marks.all fun m => m.toList.all fun c => !isIdentifierContinue c) = true := by decide
  simpa using List.all_eq_true.1 (List.all_eq_true.1 hall m h)

theorem lexeme_eq_of_isIdentifier {w cs : List Char} (hw : isIdentifier w = true) (hcs : Ended cs) :
    lexeme (w ++ cs) = .word (String.ofList w) w.length := by
  obtain ⟨c, w, rfl, hc, hword⟩ := isIdentifier_iff.1 hw
  have htake : cs.takeWhile isIdentifierContinue = [] := by
    cases cs with
    | nil => rfl
    | cons d cs => simp [hcs d rfl]
  have hrun : (c :: w ++ cs).takeWhile isIdentifierContinue = c :: w := by
    rw [List.takeWhile_append_of_pos hword, htake, List.append_nil]
  rw [List.cons_append] at hrun ⊢
  simp only [lexeme, hc, if_true, hrun]

section Lexemes

variable {words : List String} {s : Before} {cs ds : List Char}

theorem Respelled.lexeme_run {w : List Char} (h : Respelled words s cs ds) (hw : isIdentifier w = true)
    (hcs : Ended cs) (hds : Ended ds) : lexeme (w ++ ds) = lexeme (w ++ cs) ∧
      Aligned words ((w ++ cs).drop (lexeme (w ++ cs)).length)
        ((w ++ ds).drop (lexeme (w ++ cs)).length) := by
  rw [lexeme_eq_of_isIdentifier hw hcs, lexeme_eq_of_isIdentifier hw hds]
  refine ⟨rfl, ?_⟩
  rw [Lexeme.length, List.drop_left, List.drop_left]
  exact h.aligned_of_ended hcs

theorem Respelled.lexeme_word (h : Respelled words s cs ds)
    (hstart : cs.head?.any isIdentifierStart = true) :
    Lexeme.Respelled words (lexeme cs) (lexeme ds) ∧
      Aligned words (cs.drop (lexeme cs).length) (ds.drop (lexeme ds).length) := by
  cases h with
  | nil => cases hstart
  | @keep _ c cs ds h =>
    have hc : isIdentifierStart c = true := hstart
    obtain ⟨htake, t, ht, hdrop⟩ :=
      h.takeWhile_eq (next_ne_gap (isIdentifierContinue_of_start hc)) fun _ => id
    have hword : isIdentifier (c :: cs.takeWhile isIdentifierContinue) = true := by
      simp only [isIdentifier, hc, Bool.true_and, List.all_eq_true]
      exact fun d hd => List.mem_takeWhile_imp hd
    have hended := ended_dropWhile cs
    obtain ⟨heq, haligned⟩ := hdrop.lexeme_run hword hended (hdrop.ended ht hended)
    have hcs : c :: cs.takeWhile isIdentifierContinue ++ cs.dropWhile isIdentifierContinue = c :: cs := by
      rw [List.cons_append, List.takeWhile_append_dropWhile]
    have hds : c :: cs.takeWhile isIdentifierContinue ++ ds.dropWhile isIdentifierContinue = c :: ds := by
      rw [← htake, List.cons_append, List.takeWhile_append_dropWhile]
    rw [hcs, hds] at heq haligned
    rw [heq]
    exact ⟨.same _, haligned⟩
  | @swap w w' cs ds hw hw' hclear h =>
    have hcs : Ended cs := fun d hd => (hclear d hd).1
    rw [lexeme_eq_of_isIdentifier hw.1 hcs,
      lexeme_eq_of_isIdentifier hw'.1 (h.ended (by decide) hcs)]
    refine ⟨.swap _ _ (by simpa using hw) (by simpa using hw'), ?_⟩
    rw [Lexeme.length, Lexeme.length, List.drop_left, List.drop_left]
    exact h.aligned_of_ended hcs

theorem Respelled.lexeme_other (h : Respelled words s cs ds) (hs : s ≠ .word)
    (hstart : ¬cs.head?.any isIdentifierStart = true) : lexeme ds = lexeme cs ∧
      Aligned words (cs.drop (lexeme cs).length) (ds.drop (lexeme cs).length) := by
  have hbegins {m : String} (hm : m ∈ marks) :=
    h.prefix_marks m.toList (.inr hs) (isIdentifierContinue_of_mem_marks hm)
  have hfind : marks.find? (fun m => m.toList.isPrefixOf ds) =
      marks.find? (fun m => m.toList.isPrefixOf cs) := by
    rw [← List.head?_filter, ← List.head?_filter,
      List.filter_congr fun m hm => (hbegins hm).1]
  obtain ⟨hnumber, hrest⟩ := h.numberLength_eq hs
  constructor
  · cases h with
    | nil => rfl
    | @keep _ c =>
      have hc : isIdentifierStart c = false := Bool.eq_false_iff.2 hstart
      simp only [lexeme, hc, Bool.false_eq_true, if_false, hnumber, hfind]
    | swap hw =>
      obtain ⟨c, w, rfl, hc, -⟩ := Respelled.exists_start hw
      exact absurd hc hstart
  · cases hlex : lexeme cs with
    | word w n =>
      obtain ⟨rest, rfl, -, hw, -⟩ := lexeme_eq_word hlex
      obtain ⟨c, w, hcw, hc, -⟩ := isIdentifier_iff.1 hw
      rw [hcw] at hstart
      exact absurd hc hstart
    | number k n => exact ⟨.number, by decide, hrest k n (lexeme_eq_number hlex)⟩
    | mark m =>
      obtain ⟨hm, hmark⟩ := lexeme_eq_mark hlex
      exact (hbegins hm).2 hmark
    | nothing => exact ⟨s, hs, h⟩

theorem Aligned.lexeme (h : Aligned words cs ds) :
    Lexeme.Respelled words (lexeme cs) (lexeme ds) ∧
      Aligned words (cs.drop (Python.lexeme cs).length) (ds.drop (Python.lexeme ds).length) := by
  obtain ⟨s, hs, h⟩ := h
  by_cases hstart : cs.head?.any isIdentifierStart = true
  · exact h.lexeme_word hstart
  · obtain ⟨heq, haligned⟩ := h.lexeme_other hs hstart
    rw [heq]
    exact ⟨.same _, haligned⟩

end Lexemes

def IsGlue (words : List String) (t : String) : Prop :=
  ∃ v xs, t.toList = v ++ xs ∧ xs ≠ [] ∧ (∀ c ∈ xs, isIdentifierContinue c = false) ∧
    (v = [] ∨ isIdentifier v = true ∧ String.ofList v ∈ words)

theorem Aligned.glue {words : List String} {cs ds : List Char} {t : String}
    (h : Aligned words cs ds) (ht : IsGlue words t) :
    t.toList.isPrefixOf ds = t.toList.isPrefixOf cs ∧
      (t.toList.isPrefixOf cs = true → Aligned words (cs.drop t.length) (ds.drop t.length)) := by
  obtain ⟨v, xs, hsplit, hne, hxs, hv⟩ := ht
  obtain ⟨s, hs, h⟩ := h
  rw [← String.length_toList, hsplit]
  obtain rfl | ⟨hv, hword⟩ := hv
  · exact h.prefix_marks xs (.inr hs) hxs
  obtain ⟨x, v, rfl, hx, hcontinue⟩ := isIdentifier_iff.1 hv
  cases h with
  | nil => exact ⟨rfl, nofun⟩
  | @keep _ c _ _ h =>
    rw [List.cons_append, List.isPrefixOf_cons_cons, List.isPrefixOf_cons_cons]
    by_cases hxc : x = c
    · subst hxc
      have hrest := h.prefix_word (next_ne_gap (isIdentifierContinue_of_start hx))
        (List.forall_mem_cons.1 hcontinue).2 hxs hne
      simpa using hrest
    · simp [beq_eq_false_iff_ne.2 hxc]
  | swap hw hw' hcs h =>
    have hfalse {w cs : List Char} (hw : IsPlain words w) (hcs : Ended cs) :
        (x :: v ++ xs).isPrefixOf (w ++ cs) = false := by
      refine Bool.eq_false_iff.2 fun hprefix => hw.2 ?_
      obtain ⟨rest, hrest⟩ := List.isPrefixOf_iff_prefix.1 hprefix
      obtain ⟨y, ys, rfl⟩ := List.exists_cons_of_ne_nil hne
      have hlexeme := lexeme_eq_of_isIdentifier hw.1 hcs
      rw [← hrest, List.append_assoc] at hlexeme
      have hshort := lexeme_eq_of_isIdentifier hv (ended_cons (hxs y (by simp)) (ys ++ rest))
      rw [← (Lexeme.word.inj (hshort.symm.trans hlexeme)).1]
      exact hword
    have hended : Ended _ := fun d hd => (hcs d hd).1
    rw [hfalse hw hended, hfalse hw' (h.ended (by decide) hended)]
    exact ⟨rfl, nofun⟩

end Reroot.Python

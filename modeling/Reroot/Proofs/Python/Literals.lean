import Reroot.Proofs.Python.Respelling

namespace Reroot.Python

open Text (isIdentifierStart isIdentifierContinue)

inductive TextStep where
  | fail
  | stop
  | go (front : Bool) (width : Nat)

def lineLength : List Char → Nat
  | '\r' :: '\n' :: _ => 2
  | '\r' :: _ => 1
  | '\n' :: _ => 1
  | _ => 0

def Quote.ends (q : Quote) (c : Char) : Bool :=
  c == q.close || c == '\\'

def escapeStep (q : Quote) (front : Bool) (cs : List Char) : TextStep :=
  if q.raw then
    let escaped := suffixLength q.ends cs
    .go front (1 + escaped + lineLength (cs.drop escaped))
  else if q.bytes && cs.head?.any (fun d => d == 'N' || d == 'u' || d == 'U') then .go false 3
  else .go true (1 + escapeLength cs)

def textStep (q : Quote) (front : Bool) (c : Char) (cs : List Char) : TextStep :=
  if q.format && c == '\x7b' then
    if cs.head? == some '\x7b' then .go true 2 else .stop
  else if q.format && c == '\x7d' then
    if cs.head? == some '\x7d' then .go true 2 else .fail
  else if c == '\\' then escapeStep q front cs
  else if c == q.close then
    if !q.triple || cs.take 2 == [c, c] then .stop else .go false 1
  else if c == '\n' && !front && !q.triple then .fail
  else if c.toNat == 0 then .fail
  else .go false 1

theorem drop_one_add (c : Char) (cs : List Char) (k : Nat) : (c :: cs).drop (1 + k) = cs.drop k := by
  rw [Nat.add_comm, List.drop_succ_cons]

theorem textLoop_succ (q : Quote) (fuel : Nat) (front : Bool) (n : Nat) (c : Char) (cs : List Char) :
    textLoop q (fuel + 1) front n (c :: cs) =
      match textStep q front c cs with
      | .fail => none
      | .stop => some n
      | .go front width => textLoop q fuel front (n + width) ((c :: cs).drop width) := by
  rw [textLoop, textStep]
  by_cases hopen : (q.format && c == '\x7b') = true
  · rw [if_pos hopen, if_pos hopen]
    split <;> rfl
  rw [if_neg hopen, if_neg hopen]
  by_cases hclose : (q.format && c == '\x7d') = true
  · rw [if_pos hclose, if_pos hclose]
    split <;> rfl
  rw [if_neg hclose, if_neg hclose]
  by_cases hslash : (c == '\\') = true
  · rw [if_pos hslash, if_pos hslash, escapeStep]
    by_cases hraw : q.raw = true
    · rw [if_pos hraw, if_pos hraw]
      simp only [Nat.add_assoc, ← List.drop_drop]
      rfl
    rw [if_neg hraw, if_neg hraw]
    split
    · rfl
    · simp only [drop_one_add, ← Nat.add_assoc]
  rw [if_neg hslash, if_neg hslash]
  by_cases hend : (c == q.close) = true
  · rw [if_pos hend, if_pos hend]
    split <;> rfl
  rw [if_neg hend, if_neg hend]
  split
  · rfl
  split <;> rfl

theorem drop_length_takeWhile (p : Char → Bool) (cs : List Char) :
    cs.drop (cs.takeWhile p).length = cs.dropWhile p := by
  have h : (cs.takeWhile p ++ cs.dropWhile p).drop (cs.takeWhile p).length = cs.dropWhile p :=
    List.drop_left
  rwa [List.takeWhile_append_dropWhile] at h

theorem take_beq (xs cs : List Char) : (cs.take xs.length == xs) = xs.isPrefixOf cs := by
  rw [Bool.eq_iff_iff, beq_iff_eq, List.isPrefixOf_iff_prefix, List.prefix_iff_eq_take, eq_comm]

def closesName (cs : List Char) : Bool :=
  !((cs.takeWhile (· != '\x7d')).length == 0 ||
    (cs.drop (cs.takeWhile (· != '\x7d')).length).isEmpty)

theorem closesName_iff (cs : List Char) :
    closesName cs = (!(cs.head? == some '\x7d') && !(cs.dropWhile (· != '\x7d')).isEmpty) := by
  rw [closesName, drop_length_takeWhile, Bool.not_or]
  cases cs with
  | nil => rfl
  | cons c cs =>
    by_cases hc : c = '\x7d' <;> simp [hc]

theorem escapeLength_other {c : Char} {cs : List Char} (hu : c ≠ 'u') (hU : c ≠ 'U') (hx : c ≠ 'x')
    (hreturn : c = '\r' → cs.head? ≠ some '\n') (hname : c = 'N' → cs.head? ≠ some '\x7b') :
    escapeLength (c :: cs) =
      if c.isDigit then (((c :: cs).take 3).takeWhile Char.isDigit).length
      else if "\n'\"abfrntv\\".toList.contains c then 1
      else 0 := by
  unfold escapeLength
  split
  · next heq => exact absurd (List.cons.inj heq).1 hu
  · next heq => exact absurd (List.cons.inj heq).1 hU
  · next heq => exact absurd (List.cons.inj heq).1 hx
  · next heq =>
    cases heq
    exact absurd rfl (hreturn rfl)
  · next heq =>
    cases heq
    exact absurd rfl (hname rfl)
  · next heq =>
    cases heq
    rfl
  · next heq => cases heq

namespace Respelled

variable {words : List String} {s : Before} {c : Char} {cs ds : List Char} {p : Char → Bool}

theorem isEmpty_eq (h : Respelled words s cs ds) : ds.isEmpty = cs.isEmpty := by
  cases h with
  | nil | keep => rfl
  | swap hw hw' =>
    obtain ⟨c, w, rfl, -⟩ := exists_start hw
    obtain ⟨c', w', rfl, -⟩ := exists_start hw'
    rfl

theorem drop_one (h : Respelled words s cs ds) (hs : s ≠ .gap) :
    ∃ t, Respelled words t (cs.drop 1) (ds.drop 1) := by
  cases h with
  | nil => exact ⟨s, .nil⟩
  | keep h => exact ⟨_, h⟩
  | swap => exact absurd rfl hs

theorem takeWhile_take (h : Respelled words s cs ds) (hs : s ≠ .gap)
    (hp : ∀ c, p c = true → isIdentifierContinue c = true) (k : Nat) :
    (ds.take k).takeWhile p = (cs.take k).takeWhile p ∧ ∃ t, t ≠ .gap ∧
      Respelled words t (cs.drop ((cs.take k).takeWhile p).length)
        (ds.drop ((cs.take k).takeWhile p).length) := by
  induction k generalizing s cs ds with
  | zero => exact ⟨by simp, s, hs, by simpa using h⟩
  | succ k ih =>
    cases h with
    | nil => exact ⟨rfl, s, hs, by simpa using .nil⟩
    | @keep _ c cs ds h =>
      rw [List.take_succ_cons, List.take_succ_cons, List.takeWhile_cons, List.takeWhile_cons]
      split
      · next hc =>
        obtain ⟨heq, hdrop⟩ := ih h (next_ne_gap (hp c hc))
        exact ⟨congrArg (c :: ·) heq, by simpa using hdrop⟩
      · exact ⟨rfl, s, hs, .keep h⟩
    | swap => exact absurd rfl hs

theorem hexEscape (h : Respelled words s cs ds) (hs : s ≠ .gap) (k : Nat) :
    ((ds.take k).length == k && (ds.take k).all isHexDigit) =
        ((cs.take k).length == k && (cs.take k).all isHexDigit) ∧
      (((cs.take k).length == k && (cs.take k).all isHexDigit) = true →
        ∃ t, Respelled words t (cs.drop k) (ds.drop k)) := by
  have hall (xs : List Char) : ((xs.take k).length == k && (xs.take k).all isHexDigit) =
      (((xs.take k).takeWhile isHexDigit).length == k) := by
    rw [Bool.eq_iff_iff, Bool.and_eq_true, beq_iff_eq, beq_iff_eq, List.all_eq_true,
      ← List.takeWhile_eq_self_iff]
    have hprefix := List.takeWhile_prefix isHexDigit (l := xs.take k)
    constructor
    · rintro ⟨hlength, hall⟩
      rw [hall, hlength]
    · intro hlength
      have hle := hprefix.length_le
      have htake := List.length_take_le k xs
      exact ⟨by omega, hprefix.eq_of_length (by omega)⟩
  obtain ⟨heq, t, -, hdrop⟩ := h.takeWhile_take hs continue_of_isHexDigit k
  rw [hall, hall, heq]
  refine ⟨rfl, fun hk => ⟨t, ?_⟩⟩
  rwa [beq_iff_eq.1 hk] at hdrop

theorem closesName_eq (h : Respelled words s cs ds) : closesName ds = closesName cs ∧
    (closesName cs = true → ∃ t, Respelled words t
      (cs.drop ((cs.takeWhile (· != '\x7d')).length + 1))
      (ds.drop ((ds.takeWhile (· != '\x7d')).length + 1))) := by
  obtain ⟨t, ht, hrest⟩ := h.dropWhile_word (p := (· != '\x7d')) fun c hc =>
    bne_iff_ne.2 (ne_of_continue hc (by decide))
  rw [closesName_iff, closesName_iff, hrest.isEmpty_eq, h.head?_beq (by decide)]
  refine ⟨rfl, fun hclose => ?_⟩
  rw [← List.drop_drop, ← List.drop_drop, drop_length_takeWhile, drop_length_takeWhile]
  have hstops := List.head?_dropWhile_not (· != '\x7d') cs
  generalize cs.dropWhile (· != '\x7d') = xs at hrest hclose hstops
  obtain _ | ⟨x, xs⟩ := xs
  · simp at hclose
  · obtain rfl : x = '\x7d' := by simpa using hstops
    obtain ⟨ys, hys, h'⟩ := hrest.uncons (.inr (by decide))
    rw [hys]
    exact ⟨_, h'⟩

theorem escapeLength_eq (h : Respelled words .number cs ds) :
    ∃ t, Respelled words t (cs.drop (escapeLength cs)) (ds.drop (escapeLength ds)) := by
  cases cs with
  | nil =>
    obtain rfl := h.eq_nil
    exact ⟨_, h⟩
  | cons c cs =>
    obtain ⟨ds, rfl, h'⟩ := h.uncons (.inl (by decide))
    have hex {k : Nat} (hc : isIdentifierContinue c = true)
        (hvalue : ∀ xs, escapeLength (c :: xs) =
          if (xs.take k).length == k && (xs.take k).all isHexDigit then k + 1 else 0) :
        ∃ t, Respelled words t ((c :: cs).drop (escapeLength (c :: cs)))
          ((c :: ds).drop (escapeLength (c :: ds))) := by
      obtain ⟨heq, hdrop⟩ := h'.hexEscape (next_ne_gap hc) k
      rw [hvalue, hvalue, heq]
      split
      · next hk => exact hdrop hk
      · exact ⟨_, h⟩
    by_cases hu : c = 'u'
    · subst hu
      exact hex (k := 4) (by decide) fun _ => rfl
    by_cases hU : c = 'U'
    · subst hU
      exact hex (k := 8) (by decide) fun _ => rfl
    by_cases hx : c = 'x'
    · subst hx
      exact hex (k := 2) (by decide) fun _ => rfl
    by_cases hreturn : c = '\r' ∧ cs.head? = some '\n'
    · obtain ⟨rfl, hline⟩ := hreturn
      obtain ⟨cs, rfl⟩ := List.head?_eq_some_iff.1 hline
      obtain ⟨ds, rfl, hrest⟩ := h'.uncons (.inr (by decide))
      exact ⟨_, hrest⟩
    by_cases hname : c = 'N' ∧ cs.head? = some '\x7b'
    · obtain ⟨rfl, hbrace⟩ := hname
      obtain ⟨cs, rfl⟩ := List.head?_eq_some_iff.1 hbrace
      obtain ⟨ds, rfl, hrest⟩ := h'.uncons (.inr (by decide))
      obtain ⟨hcloses, hdrop⟩ := hrest.closesName_eq
      have hvalue (xs : List Char) : escapeLength ('N' :: '\x7b' :: xs) =
          if closesName xs then (xs.takeWhile (· != '\x7d')).length + 3 else 0 := by
        have hswap (a : Bool) (m : Nat) : (if a then 0 else m) = if !a then m else 0 := by
          cases a <;> rfl
        exact hswap _ _
      rw [hvalue, hvalue, hcloses]
      split
      · next hclose => exact hdrop hclose
      · exact ⟨_, h⟩
    have hhead {d : Char} (hd : isIdentifierStart d = false) (hne : cs.head? ≠ some d) :
        ds.head? ≠ some d := fun hds => hne <| by
      simpa [hds] using h'.head?_beq hd
    rw [escapeLength_other hu hU hx (fun hc hd => hreturn ⟨hc, hd⟩) (fun hc hd => hname ⟨hc, hd⟩),
      escapeLength_other hu hU hx (fun hc => hhead (by decide) fun hd => hreturn ⟨hc, hd⟩)
        (fun hc => hhead (by decide) fun hd => hname ⟨hc, hd⟩)]
    split
    · obtain ⟨heq, t, -, hdrop⟩ := h.takeWhile_take (by decide) (fun _ => continue_of_isDigit) 3
      rw [heq]
      exact ⟨t, hdrop⟩
    · split
      · exact ⟨_, h'⟩
      · exact ⟨_, h⟩

theorem lineLength_eq (h : Respelled words s cs ds) :
    lineLength ds = lineLength cs ∧
      ∃ t, Respelled words t (cs.drop (lineLength cs)) (ds.drop (lineLength cs)) := by
  have hone {xs : List Char} (hxs : xs.head? ≠ some '\n') : lineLength ('\r' :: xs) = 1 := by
    unfold lineLength
    split
    · next heq =>
      cases heq
      exact absurd rfl hxs
    · rfl
    · next heq => cases heq
    · next hother _ => exact absurd rfl (hother _)
  have hzero {c : Char} {xs : List Char} (hr : c ≠ '\r') (hn : c ≠ '\n') :
      lineLength (c :: xs) = 0 := by
    unfold lineLength
    split
    · next heq => exact absurd (List.cons.inj heq).1 hr
    · next heq => exact absurd (List.cons.inj heq).1 hr
    · next heq => exact absurd (List.cons.inj heq).1 hn
    · rfl
  cases h with
  | nil => exact ⟨rfl, s, .nil⟩
  | @keep _ c cs ds h =>
    by_cases hr : c = '\r'
    · subst hr
      by_cases hline : cs.head? = some '\n'
      · obtain ⟨cs, rfl⟩ := List.head?_eq_some_iff.1 hline
        obtain ⟨ds, rfl, h'⟩ := h.uncons (.inr (by decide))
        exact ⟨rfl, _, h'⟩
      · have hline' : ds.head? ≠ some '\n' := fun hds => hline <| by
          simpa [hds] using h.head?_beq (c := '\n') (by decide)
        rw [hone hline, hone hline']
        exact ⟨rfl, _, h⟩
    · by_cases hn : c = '\n'
      · subst hn
        exact ⟨rfl, _, h⟩
      · rw [hzero hr hn, hzero hr hn]
        exact ⟨rfl, _, .keep h⟩
  | swap hw hw' hcs h =>
    obtain ⟨c, w, rfl, hc, -⟩ := exists_start hw
    obtain ⟨c', w', rfl, hc', -⟩ := exists_start hw'
    have hword {d : Char} (hd : isIdentifierStart d = true) : d ≠ '\r' ∧ d ≠ '\n' :=
      ⟨ne_of_continue (isIdentifierContinue_of_start hd) (by decide),
        ne_of_continue (isIdentifierContinue_of_start hd) (by decide)⟩
    rw [List.cons_append, List.cons_append, hzero (hword hc).1 (hword hc).2,
      hzero (hword hc').1 (hword hc').2]
    exact ⟨rfl, _, .swap hw hw' hcs h⟩

end Respelled

inductive TextStep.Respelled (words : List String) (cs ds : List Char) : TextStep → TextStep → Prop where
  | fail : Respelled words cs ds .fail .fail
  | stop : Respelled words cs ds .stop .stop
  | go {t : Before} {width width' : Nat} (front : Bool) (hw : 0 < width) (hw' : 0 < width')
      (h : Python.Respelled words t (cs.drop width) (ds.drop width')) :
      Respelled words cs ds (.go front width) (.go front width')

theorem escapeStep_respelled {words : List String} {cs ds : List Char} {q : Quote} (front : Bool)
    (hq : isQuoteMark q.close = true) (h : Respelled words .number cs ds) :
    TextStep.Respelled words ('\\' :: cs) ('\\' :: ds) (escapeStep q front cs) (escapeStep q front ds) := by
  have hends (d : Char) (hd : q.ends d = true) : isIdentifierContinue d = false := by
    obtain hd | hd := Bool.or_eq_true_iff.1 hd <;> rw [beq_iff_eq.1 hd]
    · exact isIdentifierContinue_of_isQuoteMark hq
    · decide
  unfold escapeStep
  split
  · obtain ⟨hescaped, t, -, hrest⟩ := h.suffixLength_mark (p := q.ends) (by decide) hends
    obtain ⟨hline, t', hrest⟩ := hrest.lineLength_eq
    dsimp only
    rw [hescaped, hline]
    refine .go front (by omega) (by omega) (t := t') ?_
    rw [Nat.add_assoc, drop_one_add, drop_one_add, ← List.drop_drop, ← List.drop_drop]
    exact hrest
  · rw [h.head?_eq (by decide)]
    split
    · next hbytes =>
      obtain ⟨d, hhead, hd⟩ := (Option.any_eq_true _ _).1 (Bool.and_eq_true_iff.1 hbytes).2
      obtain ⟨cs, rfl⟩ := List.head?_eq_some_iff.1 hhead
      obtain ⟨ds, rfl, h'⟩ := h.uncons (.inl (by decide))
      have hcontinue : isIdentifierContinue d = true := by
        simp only [Bool.or_eq_true, beq_iff_eq] at hd
        obtain (rfl | rfl) | rfl := hd <;> decide
      obtain ⟨t, hrest⟩ := h'.drop_one (next_ne_gap hcontinue)
      exact .go false (by decide) (by decide) hrest
    · obtain ⟨t, hrest⟩ := h.escapeLength_eq
      refine .go true (by omega) (by omega) (t := t) ?_
      rwa [drop_one_add, drop_one_add]

theorem textStep_respelled {words : List String} {s : Before} {c : Char} {cs ds : List Char} {q : Quote}
    (front : Bool) (hq : isQuoteMark q.close = true) (h : Respelled words (s.next c) cs ds) :
    TextStep.Respelled words (c :: cs) (c :: ds) (textStep q front c cs) (textStep q front c ds) := by
  have one : TextStep.Respelled words (c :: cs) (c :: ds) (.go false 1) (.go false 1) :=
    .go false Nat.one_pos Nat.one_pos h
  have twice {d : Char} (hd : isIdentifierStart d = false) (hhead : (cs.head? == some d) = true) :
      TextStep.Respelled words (c :: cs) (c :: ds) (.go true 2) (.go true 2) := by
    obtain ⟨cs, rfl⟩ := List.head?_eq_some_iff.1 (beq_iff_eq.1 hhead)
    obtain ⟨ds, rfl, h'⟩ := h.uncons (.inr hd)
    exact .go true Nat.two_pos Nat.two_pos h'
  unfold textStep
  rw [h.head?_beq (by decide), h.head?_beq (by decide)]
  split
  · split
    · next hhead => exact twice (by decide) hhead
    · exact .stop
  split
  · split
    · next hhead => exact twice (by decide) hhead
    · exact .fail
  split
  · next hslash =>
    obtain rfl := beq_iff_eq.1 hslash
    exact escapeStep_respelled front hq h
  split
  · next hclose =>
    have hc : isIdentifierContinue c = false := by
      rw [beq_iff_eq.1 hclose]
      exact isIdentifierContinue_of_isQuoteMark hq
    have hprefix := h.prefix_marks [c, c] (.inr (next_ne_word hc)) (by simp [hc])
    rw [← take_beq, ← take_beq] at hprefix
    rw [show (ds.take 2 == [c, c]) = (cs.take 2 == [c, c]) from hprefix.1]
    split
    · exact .stop
    · exact one
  split
  · exact .fail
  split
  · exact .fail
  · exact one

section TextLoop

variable {words : List String} {q : Quote} (hq : isQuoteMark q.close = true)

include hq

theorem textStep_word {c : Char} (front : Bool) (hc : isIdentifierContinue c = true)
    (cs : List Char) : textStep q front c cs = .go false 1 := by
  have hne {d : Char} (hd : isIdentifierContinue d = false) : (c == d) = false :=
    beq_eq_false_iff_ne.2 (ne_of_continue hc hd)
  have hnull : (c.toNat == 0) = false := beq_eq_false_iff_ne.2 fun h =>
    ne_of_continue hc (d := '\x00') (by decide) (Char.toNat_inj.1 h)
  simp [textStep, hne, isIdentifierContinue_of_isQuoteMark hq, hnull,
    show isIdentifierContinue '\x7b' = false by decide,
    show isIdentifierContinue '\x7d' = false by decide,
    show isIdentifierContinue '\\' = false by decide,
    show isIdentifierContinue '\n' = false by decide]

theorem continue_of_textStep_eq_stop {c : Char} {cs : List Char} {front : Bool}
    (h : textStep q front c cs = .stop) : isIdentifierContinue c = false :=
  Bool.eq_false_iff.2 fun hc => by
    rw [textStep_word hq front hc] at h
    cases h

theorem textLoop_word {w cs : List Char} (hne : w ≠ [])
    (hw : ∀ c ∈ w, isIdentifierContinue c = true) (fuel : Nat) (front : Bool) (n : Nat) :
    textLoop q (w.length + fuel) front n (w ++ cs) = textLoop q fuel false (n + w.length) cs := by
  induction w generalizing front n with
  | nil => exact absurd rfl hne
  | cons c w ih =>
    obtain ⟨hc, hw⟩ := List.forall_mem_cons.1 hw
    rw [List.length_cons, Nat.add_right_comm, List.cons_append, textLoop_succ,
      textStep_word hq front hc]
    cases w with
    | nil => simp
    | cons d w =>
      have hrest := ih (List.cons_ne_nil d w) hw false (n + 1)
      simpa only [List.drop_succ_cons, List.drop_zero, List.length_cons, Nat.add_assoc,
        Nat.add_comm 1] using hrest

theorem textLoop_respelled {full full' cs ds : List Char} {s : Before} {fuel fuel' n n' : Nat}
    {front : Bool} (h : Respelled words s cs ds) (hcs : full.drop n = cs) (hds : full'.drop n' = ds)
    (hfuel : cs.length < fuel) (hfuel' : ds.length < fuel') :
    Option.Rel (fun a b => Aligned words (full.drop a) (full'.drop b))
      (textLoop q fuel front n cs) (textLoop q fuel' front n' ds) := by
  induction fuel using Nat.strongRecOn generalizing s fuel' n n' front cs ds with
  | ind fuel ih =>
    cases h with
    | nil =>
      obtain ⟨fuel, rfl⟩ := Nat.exists_eq_add_one_of_ne_zero (Nat.ne_of_gt hfuel)
      obtain ⟨fuel', rfl⟩ := Nat.exists_eq_add_one_of_ne_zero (Nat.ne_of_gt hfuel')
      exact .none
    | @keep _ c cs ds h =>
      obtain ⟨fuel, rfl⟩ := Nat.exists_eq_add_one_of_ne_zero (Nat.ne_zero_of_lt hfuel)
      obtain ⟨fuel', rfl⟩ := Nat.exists_eq_add_one_of_ne_zero (Nat.ne_zero_of_lt hfuel')
      rw [textLoop_succ, textLoop_succ]
      have hagree := textStep_respelled front hq h
      generalize hstep : textStep q front c cs = step at hagree
      generalize textStep q front c ds = step' at hagree
      cases hagree with
      | fail => exact .none
      | stop =>
        refine .some ?_
        rw [hcs, hds]
        exact (Respelled.keep h).aligned_of_ended
          (ended_cons (continue_of_textStep_eq_stop hq hstep) cs)
      | @go t width width' front hw hw' hrest =>
        have hlength := List.length_drop (l := c :: cs) (i := width)
        have hlength' := List.length_drop (l := c :: ds) (i := width')
        rw [List.length_cons] at hfuel hfuel' hlength hlength'
        refine ih fuel (Nat.lt_succ_self _) hrest ?_ ?_ (by omega) (by omega)
        · rw [← hcs, List.drop_drop]
        · rw [← hds, List.drop_drop]
    | @swap w w' cs ds hw hw' hclear h =>
      obtain ⟨c, v, rfl, -, hword⟩ := Respelled.exists_start hw
      obtain ⟨c', v', rfl, -, hword'⟩ := Respelled.exists_start hw'
      rw [List.length_append] at hfuel hfuel'
      obtain ⟨fuel, rfl⟩ := Nat.exists_eq_add_of_lt (Nat.lt_of_le_of_lt (Nat.le_add_right _ _) hfuel)
      obtain ⟨fuel', rfl⟩ := Nat.exists_eq_add_of_lt (Nat.lt_of_le_of_lt (Nat.le_add_right _ _) hfuel')
      rw [Nat.add_assoc] at hfuel hfuel' ⊢
      rw [Nat.add_assoc, textLoop_word hq (List.cons_ne_nil c v) hword,
        textLoop_word hq (List.cons_ne_nil c' v') hword']
      refine ih (fuel + 1) (by simp only [List.length_cons]; omega) h ?_ ?_ (by omega) (by omega)
      · rw [← List.drop_drop, hcs, List.drop_left]
      · rw [← List.drop_drop, hds, List.drop_left]

end TextLoop

theorem textLength_respelled {words : List String} {s : Before} {cs ds : List Char} {q : Quote}
    (hq : isQuoteMark q.close = true) (h : Respelled words s cs ds) :
    Option.Rel (fun a b => Aligned words (cs.drop a) (ds.drop b)) (textLength q cs) (textLength q ds) :=
  textLoop_respelled hq h rfl rfl (Nat.lt_succ_self _) (Nat.lt_succ_self _)

theorem continue_of_isQuoteFlag (c : Char) (h : isQuoteFlag c = true) :
    isIdentifierContinue c = true := by
  simp only [isQuoteFlag, Bool.or_eq_true, beq_iff_eq] at h
  obtain ((((((rfl | rfl) | rfl) | rfl) | rfl) | rfl) | rfl) | rfl := h <;> decide

def quoteAfter (flags : List Char) : List Char → Option (Quote × Nat)
  | q :: tail =>
    if isQuoteMark q then
      let triple := q != '\x60' && tail.take 2 == [q, q]
      let quote : Quote :=
        ⟨q, triple, flags.any (fun c => c == 'r' || c == 'R'),
          flags.any (fun c => c == 'f' || c == 'F'), flags.any (fun c => c == 'b' || c == 'B')⟩
      some (quote, flags.length + if triple then 3 else 1)
    else none
  | [] => none

theorem openingQuote_eq (cs : List Char) :
    openingQuote cs = quoteAfter (cs.takeWhile isQuoteFlag) (cs.dropWhile isQuoteFlag) := by
  rw [← drop_length_takeWhile]
  rfl

theorem openingQuote_word {words : List String} {w cs : List Char} (hw : IsPlain words w)
    (hcs : Clear cs) : openingQuote (w ++ cs) = none := by
  have hstop : ∀ d ∈ ((w ++ cs).dropWhile isQuoteFlag).head?, isQuoteMark d = false := by
    obtain ⟨-, -, -, -, hword⟩ := Respelled.exists_start hw
    intro d hd
    rw [List.dropWhile_append] at hd
    split at hd
    · cases cs with
      | nil => cases hd
      | cons c cs =>
        have hc := hcs c rfl
        rw [List.dropWhile_cons_of_neg fun hflag => by
          simp [continue_of_isQuoteFlag c hflag] at hc] at hd
        exact (hcs d hd).2
    · next hne =>
      rw [List.head?_append_of_ne_nil _ (by simpa using hne)] at hd
      exact isQuoteMark_eq_false
        (hword d ((List.dropWhile_sublist _).subset (List.mem_of_mem_head? hd)))
  rw [openingQuote_eq]
  generalize (w ++ cs).dropWhile isQuoteFlag = rest at hstop
  cases rest with
  | nil => rfl
  | cons q tail => simp [quoteAfter, hstop q rfl]

theorem quoteAfter_respelled {words : List String} {s : Before} {cs ds : List Char}
    (h : Respelled words s cs ds) (flags : List Char) : quoteAfter flags ds = quoteAfter flags cs ∧
      ∀ q n, quoteAfter flags cs = some (q, n) → isQuoteMark q.close = true ∧
        ∃ m, n = flags.length + m ∧ Aligned words (cs.drop m) (ds.drop m) := by
  cases h with
  | nil => exact ⟨rfl, nofun⟩
  | @keep _ c cs ds h =>
    by_cases hc : isQuoteMark c = true
    · have hmark := isIdentifierContinue_of_isQuoteMark hc
      obtain ⟨heq, hdrop⟩ := h.prefix_marks [c, c] (.inr (next_ne_word hmark)) (by simp [hmark])
      rw [← take_beq, ← take_beq] at heq
      rw [← take_beq] at hdrop
      have heq : (ds.take 2 == [c, c]) = (cs.take 2 == [c, c]) := heq
      simp only [quoteAfter, hc, if_true, heq, true_and, Option.some.injEq, Prod.mk.injEq]
      rintro q n ⟨rfl, rfl⟩
      refine ⟨hc, _, rfl, ?_⟩
      split
      · next htriple => exact hdrop (Bool.and_eq_true_iff.1 htriple).2
      · exact ⟨_, next_ne_word hmark, h⟩
    · simp [quoteAfter, hc]
  | swap hw hw' =>
    obtain ⟨c, w, rfl, hc, -⟩ := Respelled.exists_start hw
    obtain ⟨c', w', rfl, hc', -⟩ := Respelled.exists_start hw'
    simp [quoteAfter, isQuoteMark_eq_false (isIdentifierContinue_of_start hc),
      isQuoteMark_eq_false (isIdentifierContinue_of_start hc')]

theorem Aligned.openingQuote {words : List String} {cs ds : List Char} (h : Aligned words cs ds) :
    openingQuote ds = openingQuote cs ∧ ∀ q n, openingQuote cs = some (q, n) →
      isQuoteMark q.close = true ∧ Aligned words (cs.drop n) (ds.drop n) := by
  obtain ⟨s, hs, h⟩ := h
  have shared {t : Before} {cs ds : List Char}
      (htake : ds.takeWhile isQuoteFlag = cs.takeWhile isQuoteFlag)
      (hrest : Respelled words t (cs.dropWhile isQuoteFlag) (ds.dropWhile isQuoteFlag)) :
      Python.openingQuote ds = Python.openingQuote cs ∧ ∀ q n, Python.openingQuote cs = some (q, n) →
        isQuoteMark q.close = true ∧ Aligned words (cs.drop n) (ds.drop n) := by
    obtain ⟨heq, hquote⟩ := quoteAfter_respelled hrest (cs.takeWhile isQuoteFlag)
    rw [openingQuote_eq, openingQuote_eq, htake, heq]
    refine ⟨rfl, fun q n hn => ?_⟩
    obtain ⟨hclose, m, rfl, hdrop⟩ := hquote q n hn
    refine ⟨hclose, ?_⟩
    rw [← List.drop_drop, ← List.drop_drop, drop_length_takeWhile, ← htake, drop_length_takeWhile]
    exact hdrop
  cases h with
  | nil => exact ⟨rfl, nofun⟩
  | @keep _ c cs ds h =>
    by_cases hc : isQuoteFlag c = true
    · obtain ⟨htake, t, -, hrest⟩ :=
        h.takeWhile_eq (next_ne_gap (continue_of_isQuoteFlag c hc)) continue_of_isQuoteFlag
      refine shared (t := t) ?_ ?_
      · rw [List.takeWhile_cons_of_pos hc, List.takeWhile_cons_of_pos hc, htake]
      · rwa [List.dropWhile_cons_of_pos hc, List.dropWhile_cons_of_pos hc]
    · refine shared (t := s) ?_ ?_
      · rw [List.takeWhile_cons_of_neg hc, List.takeWhile_cons_of_neg hc]
      · rw [List.dropWhile_cons_of_neg hc, List.dropWhile_cons_of_neg hc]
        exact .keep h
  | swap hw hw' hcs h =>
    rw [openingQuote_word hw hcs, openingQuote_word hw' (h.clear (by decide) hcs)]
    exact ⟨rfl, nofun⟩

end Reroot.Python

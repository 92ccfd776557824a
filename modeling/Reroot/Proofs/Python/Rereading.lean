import Reroot.Proofs.Python.Fuel
import Reroot.Proofs.Python.Literals

namespace Reroot.Python

open Text (isIdentifierStart isIdentifierContinue)

theorem exists_of_rel {α β : Type} {r : α → β → Prop} {x : Option α} {y : Option β}
    (h : Option.Rel r x y) : x = none ∧ y = none ∨ ∃ a b, x = some a ∧ y = some b ∧ r a b := by
  cases h with
  | none => exact .inl ⟨rfl, rfl⟩
  | some h => exact .inr ⟨_, _, rfl, rfl, h⟩

inductive BlankEnd.Agrees : BlankEnd → BlankEnd → Prop where
  | broken : Agrees .broken .broken
  | next (b : Blank) {ch ch' : Option Char} (h : ch'.any isQuoteMark = ch.any isQuoteMark) :
      Agrees (.next b ch) (.next b ch')

section Blanks

variable {words : List String} {s : Before} {cs ds : List Char} {layout : Bool}

theorem scanBlanks_comment {w : List Char} (hw : ∀ c ∈ w, isIdentifierContinue c = true) (b : Blank)
    (cs : List Char) : scanBlanks layout b true (w ++ cs) = scanBlanks layout b true cs := by
  induction w with
  | nil => rfl
  | cons c w ih =>
    obtain ⟨hc, hw⟩ := List.forall_mem_cons.1 hw
    have hne : (c == '\n') = false := beq_eq_false_iff_ne.2 (ne_of_continue hc (by decide))
    rw [List.cons_append, scanBlanks, hne, if_neg Bool.false_ne_true, ih hw]

def layoutChars : List Char :=
  ['\n', ' ', '\t', '\r', '\x0c', '#', '\\']

theorem scanBlanks_other {c : Char} (hc : c ∉ layoutChars) (b : Blank) (cs : List Char) :
    scanBlanks layout b false (c :: cs) = .next b (some c) := by
  simp only [layoutChars, List.mem_cons, not_or] at hc
  unfold scanBlanks
  split <;> simp_all

theorem scanBlanks_word {c : Char} (hc : isIdentifierContinue c = true) (b : Blank) (cs : List Char) :
    scanBlanks layout b false (c :: cs) = .next b (some c) := by
  refine scanBlanks_other (fun hmem => ?_) b cs
  have hmarks : (layoutChars.all fun d => !isIdentifierContinue d) = true := by decide
  have hmark := List.all_eq_true.1 hmarks c hmem
  simp [hc] at hmark

theorem scanBlanks_broken {d : Char} {cs : List Char} (hline : d ≠ '\n')
    (hreturn : d = '\r' → cs ≠ [] ∧ cs.head? ≠ some '\n') (b : Blank) :
    scanBlanks layout b false ('\\' :: d :: cs) = .broken := by
  unfold scanBlanks
  split <;> simp_all
  next heq => exact heq.1.symm

inductive Continuation (words : List String) : List Char → List Char → Prop where
  | nothing : Continuation words [] []
  | line {t : Before} {cs ds : List Char} (ht : t ≠ .word) (h : Respelled words t cs ds) :
      Continuation words ('\n' :: cs) ('\n' :: ds)
  | bare : Continuation words ['\r'] ['\r']
  | pair {t : Before} {cs ds : List Char} (ht : t ≠ .word) (h : Respelled words t cs ds) :
      Continuation words ('\r' :: '\n' :: cs) ('\r' :: '\n' :: ds)
  | other {d : Char} {cs ds : List Char} (hline : d ≠ '\n')
      (hreturn : d = '\r' → cs ≠ [] ∧ cs.head? ≠ some '\n')
      (hreturn' : d = '\r' → ds ≠ [] ∧ ds.head? ≠ some '\n') : Continuation words (d :: cs) (d :: ds)

theorem continuation_of_respelled (h : Respelled words .number cs ds) : Continuation words cs ds := by
  cases cs with
  | nil =>
    obtain rfl := h.eq_nil
    exact .nothing
  | cons d cs =>
    obtain ⟨ds, rfl, h'⟩ := h.uncons (.inl (by decide))
    by_cases hline : d = '\n'
    · subst hline
      exact .line (next_ne_word (by decide)) h'
    by_cases hreturn : d = '\r'
    · subst hreturn
      cases cs with
      | nil =>
        obtain rfl := h'.eq_nil
        exact .bare
      | cons e cs =>
        by_cases hnext : e = '\n'
        · subst hnext
          obtain ⟨ds, rfl, h₂⟩ := h'.uncons (.inr (by decide))
          exact .pair (next_ne_word (by decide)) h₂
        · refine .other hline (fun _ => by simp [hnext]) fun _ => ⟨?_, fun hds => ?_⟩
          · rintro rfl
            simpa using h'.isEmpty_eq
          · simpa [hds, hnext] using h'.head?_beq (c := '\n') (by decide)
    · exact .other hline (absurd · hreturn) (absurd · hreturn)

theorem scanBlanks_respelled (layout : Bool) (h : Respelled words s cs ds) (b : Blank) (comment : Bool) :
    BlankEnd.Agrees (scanBlanks layout b comment cs) (scanBlanks layout b comment ds) := by
  induction hlength : cs.length using Nat.strongRecOn generalizing s cs ds b comment with
  | ind n ih =>
    subst hlength
    cases h with
    | nil =>
      cases comment <;> exact .next _ rfl
    | @keep _ c cs ds h =>
      have onward (b : Blank) (comment : Bool) :
          BlankEnd.Agrees (scanBlanks layout b comment cs) (scanBlanks layout b comment ds) :=
        ih cs.length (by simp) h b comment rfl
      cases comment with
      | true =>
        rw [scanBlanks, scanBlanks]
        split
        · exact onward _ _
        · exact onward _ _
      | false =>
        by_cases hc : c ∈ layoutChars
        · simp only [layoutChars, List.mem_cons, List.not_mem_nil, or_false] at hc
          obtain rfl | rfl | rfl | rfl | rfl | rfl | rfl := hc
          · exact onward _ _
          · exact onward _ _
          · exact onward _ _
          · exact onward _ _
          · exact onward _ _
          · rw [scanBlanks, scanBlanks]
            split
            · exact .next b rfl
            · split
              · exact onward _ _
              · exact .broken
          · have hnumber : s.next '\\' = .number := rfl
            rw [hnumber] at h
            have further (b : Blank) {t : Before} {cs' ds' : List Char}
                (h : Respelled words t cs' ds') (hlt : cs'.length ≤ cs.length) :
                BlankEnd.Agrees (scanBlanks layout b false cs') (scanBlanks layout b false ds') :=
              ih cs'.length (by simp; omega) h b false rfl
            cases continuation_of_respelled h with
            | nothing => exact .next _ rfl
            | bare => exact .next _ rfl
            | @line t cs ds ht h' =>
              show BlankEnd.Agrees (scanBlanks layout b false cs) (scanBlanks layout b false ds)
              exact further b h' (by grind)
            | @pair t cs ds ht h' =>
              show BlankEnd.Agrees (scanBlanks layout b false cs) (scanBlanks layout b false ds)
              exact further b h' (by grind)
            | other hline hreturn hreturn' =>
              rw [scanBlanks_broken hline hreturn, scanBlanks_broken hline hreturn']
              exact .broken
        · rw [scanBlanks_other hc, scanBlanks_other hc]
          exact .next b rfl
    | @swap w w' cs ds hw hw' hcs h =>
      obtain ⟨c, v, rfl, hc, hword⟩ := Respelled.exists_start hw
      obtain ⟨c', v', rfl, hc', hword'⟩ := Respelled.exists_start hw'
      cases comment with
      | true =>
        rw [scanBlanks_comment hword, scanBlanks_comment hword']
        exact ih cs.length (by rw [List.length_append, List.length_cons]; omega) h b true rfl
      | false =>
        rw [List.cons_append, List.cons_append, scanBlanks_word (isIdentifierContinue_of_start hc),
          scanBlanks_word (isIdentifierContinue_of_start hc')]
        refine .next b ?_
        simp [isQuoteMark_eq_false (isIdentifierContinue_of_start hc),
          isQuoteMark_eq_false (isIdentifierContinue_of_start hc')]

theorem extraLength_respelled (h : Respelled words s cs ds) :
    Option.Rel (fun a b => a.1 = b.1 ∧ Aligned words (cs.drop a.2) (ds.drop b.2))
      (Cursor.extraLength cs) (Cursor.extraLength ds) := by
  have hnone {c : Char} {xs : List Char} (hc : c ≠ '#') (hslash : c ≠ '\\') :
      Cursor.extraLength (c :: xs) = none := by
    unfold Cursor.extraLength
    split <;> simp_all
  cases h with
  | nil => exact .none
  | @keep _ c cs ds h =>
    by_cases hhash : c = '#'
    · subst hhash
      refine .some ⟨rfl, ?_⟩
      rw [List.drop_succ_cons, List.drop_succ_cons, drop_length_takeWhile, drop_length_takeWhile]
      exact h.dropWhile_word fun c hc => bne_iff_ne.2 (ne_of_continue hc (by decide))
    by_cases hslash : c = '\\'
    · subst hslash
      have hother {d : Char} {xs : List Char} (hline : d ≠ '\n')
          (hreturn : d = '\r' → xs.head? ≠ some '\n') :
          Cursor.extraLength ('\\' :: d :: xs) = none := by
        unfold Cursor.extraLength
        split <;> simp_all
      cases continuation_of_respelled h with
      | nothing => exact .some ⟨rfl, .gap, by decide, .nil⟩
      | bare => exact .none
      | line ht h' => exact .some ⟨rfl, _, ht, h'⟩
      | pair ht h' => exact .some ⟨rfl, _, ht, h'⟩
      | other hline hreturn hreturn' =>
        rw [hother hline fun hd => (hreturn hd).2, hother hline fun hd => (hreturn' hd).2]
        exact .none
    · rw [hnone hhash hslash, hnone hhash hslash]
      exact .none
  | swap hw hw' =>
    obtain ⟨c, v, rfl, hc, -⟩ := Respelled.exists_start hw
    obtain ⟨c', v', rfl, hc', -⟩ := Respelled.exists_start hw'
    have hne {c d : Char} (hc : isIdentifierStart c = true) (hd : isIdentifierContinue d = false) :
        c ≠ d := ne_of_continue (isIdentifierContinue_of_start hc) hd
    rw [List.cons_append, List.cons_append, hnone (hne hc (by decide)) (hne hc (by decide)),
      hnone (hne hc' (by decide)) (hne hc' (by decide))]
    exact .none

end Blanks

mutual

def Node.shape : Node → Node
  | .mk r k _ cs => .mk r k ⟨0, 0⟩ (shapes cs)

def shapes : List Node → List Node
  | [] => []
  | c :: cs => c.shape :: shapes cs

end

theorem shapes_eq_map (ns : List Node) : shapes ns = ns.map Node.shape := by
  induction ns with
  | nil => rw [shapes, List.map_nil]
  | cons n ns ih => rw [shapes, ih, List.map_cons]

theorem Node.kind_shape (n : Node) : n.shape.kind = n.kind := by
  obtain ⟨r, k, s, cs⟩ := n
  rw [shape, kind, kind]

theorem Node.shape_withRole (n : Node) (r : Role) : (n.withRole r).shape = n.shape.withRole r := by
  obtain ⟨r', k, s, cs⟩ := n
  simp only [withRole, shape, kind, span, children]

theorem Node.shape_spanning (k : Kind) (here : Nat) (ns : List Node) :
    (spanning k here ns).shape = .mk none k ⟨0, 0⟩ (ns.map shape) := by
  rw [spanning, shape, shapes_eq_map]

mutual

theorem asTarget?_shape : ∀ n : Node, n.shape.asTarget? = n.asTarget?.map Node.shape
  | .mk r k s cs => by
    have down (k : Kind) : (targets? (shapes cs)).map (Node.mk r k ⟨0, 0⟩) =
        ((targets? cs).map (Node.mk r k s)).map Node.shape := by
      rw [targets?_shapes cs, Option.map_map, Option.map_map]
      congr 1
    have hall : ((shapes cs).all fun c =>
        !c.isNamed || [Kind.identifier, .attribute, .subscript].contains c.kind) =
          cs.all fun c => !c.isNamed || [Kind.identifier, .attribute, .subscript].contains c.kind := by
      rw [shapes_eq_map, List.all_map]
      congr 1
      funext c
      simp only [Function.comp_apply, Node.isNamed, Node.kind_shape]
    rw [Node.shape]
    unfold Node.asTarget?
    split
    · rfl
    · rfl
    · rfl
    · rw [hall]
      split <;> rfl
    · exact down _
    · exact down _
    · exact down _
    · exact down _
    · rfl
    · rfl

theorem targets?_shapes : ∀ ns : List Node, targets? (shapes ns) = (targets? ns).map shapes
  | [] => by
    rw [shapes, targets?, Option.map_some, shapes]
  | n :: ns => by
    rw [shapes, targets?, targets?, asTarget?_shape n, targets?_shapes ns]
    cases n.asTarget? with
    | none => rfl
    | some d =>
      cases targets? ns with
      | none => rfl
      | some ds => simp only [Option.map_some, shapes]

end

namespace Cursor

structure Aligned (words : List String) (c d : Cursor) : Prop where
  rest : Python.Aligned words c.rest d.rest
  columns : d.columns = c.columns
  quotes : d.quotes = c.quotes
  inFormat : d.inFormat = c.inFormat
  pending : d.pending = c.pending
  closes : ∀ q ∈ c.quotes, isQuoteMark q.close = true

def Taken (words : List String) (a b : Node × Cursor) : Prop :=
  b.1.shape = a.1.shape ∧ Aligned words a.2 b.2

namespace Aligned

variable {words : List String} {c d : Cursor} (h : Aligned words c d)

include h

theorem advance {n m : Nat} (hrest : Python.Aligned words (c.rest.drop n) (d.rest.drop m)) :
    Aligned words (c.advance n) (d.advance m) :=
  ⟨hrest, h.columns, h.quotes, h.inFormat, h.pending, h.closes⟩

theorem extras (es es' : List Node) :
    Aligned words { c with extras := es } { d with extras := es' } :=
  ⟨h.rest, h.columns, h.quotes, h.inFormat, h.pending, h.closes⟩

theorem layout?_eq (e : Expect) : d.layout? e = c.layout? e := by
  obtain ⟨s, -, hrest⟩ := h.rest
  have hblanks := scanBlanks_respelled e.usesLayout hrest ⟨false, 0, none⟩ false
  have hcolumn : d.column = c.column := by rw [column, h.columns, column]
  unfold layout?
  rw [hcolumn, h.inFormat]
  generalize scanBlanks e.usesLayout ⟨false, 0, none⟩ false c.rest = x at hblanks
  generalize scanBlanks e.usesLayout ⟨false, 0, none⟩ false d.rest = y at hblanks
  cases hblanks with
  | broken => rfl
  | next b hchar => simp only [hchar]

theorem settleLoop {e : Expect} {fuel fuel' : Nat} (hfuel : c.rest.length < fuel)
    (hfuel' : d.rest.length < fuel') :
    Option.Rel (Aligned words) (c.settleLoop e fuel) (d.settleLoop e fuel') := by
  induction fuel generalizing fuel' c d with
  | zero => exact absurd hfuel (Nat.not_lt_zero _)
  | succ fuel ih =>
    obtain ⟨fuel', rfl⟩ := Nat.exists_eq_add_one_of_ne_zero (Nat.ne_zero_of_lt hfuel')
    have stops (l : Layout) :
        Aligned words { c with pending := some l } { d with pending := some l } :=
      ⟨h.rest, h.columns, h.quotes, h.inFormat, rfl, h.closes⟩
    unfold Cursor.settleLoop
    rw [h.layout?_eq]
    split
    · split
      · exact .some (stops _)
      · exact .none
    · exact .some (stops _)
    · obtain ⟨s, hs, hrest⟩ := h.rest
      obtain ⟨htake, hdrop⟩ := hrest.takeWhile_mark hs fun _ => isIdentifierContinue_of_isBlank
      rw [← drop_length_takeWhile, ← drop_length_takeWhile] at hdrop
      have hblank := h.advance hdrop
      have hle := advance_le (c.rest.takeWhile isBlank).length c
      have hle' := advance_le (d.rest.takeWhile isBlank).length d
      dsimp only
      generalize c.advance (c.rest.takeWhile isBlank).length = c₁ at hblank hle
      generalize d.advance (d.rest.takeWhile isBlank).length = d₁ at hblank hle'
      obtain ⟨t, -, hrest⟩ := hblank.rest
      have hextra := extraLength_respelled hrest
      generalize hx : extraLength c₁.rest = x at hextra
      generalize hy : extraLength d₁.rest = y at hextra
      cases hextra with
      | none => exact .some hblank
      | @some a b hab =>
        obtain ⟨k, n⟩ := a
        obtain ⟨k', n'⟩ := b
        obtain ⟨hn, hne, -⟩ := extraLength_pos hx
        obtain ⟨hn', hne', -⟩ := extraLength_pos hy
        have hlt := advance_lt hn hne
        have hlt' := advance_lt hn' hne'
        exact ih ((hblank.advance hab.2).extras _ _)
          (show (c₁.advance n).rest.length < fuel by omega)
          (show (d₁.advance n').rest.length < fuel' by omega)

theorem settle (e : Expect) : Option.Rel (Aligned words) (c.settle e) (d.settle e) := by
  unfold Cursor.settle
  rw [h.pending]
  split
  · exact .some h
  · exact h.settleLoop (Nat.lt_succ_self _) (Nat.lt_succ_self _)

theorem token?_rel {t : String} (ht : t ∈ words ∨ isIdentifier t.toList = false) :
    Option.Rel (Taken words) (c.token? t) (d.token? t) := by
  have hother {w : String} (hw : IsPlain words w.toList) : (w == t) = false := by
    refine beq_eq_false_iff_ne.2 ?_
    rintro rfl
    obtain ht | ht := ht
    · exact hw.2 (by rwa [String.ofList_toList])
    · rw [hw.1] at ht
      cases ht
  unfold token?
  rw [h.pending]
  split
  · exact .none
  obtain ⟨hlexeme, hdrop⟩ := h.rest.lexeme
  generalize lexeme c.rest = l at hlexeme hdrop
  generalize lexeme d.rest = m at hlexeme hdrop
  cases hlexeme with
  | same =>
    cases l with
    | word w n =>
      dsimp only
      split
      · exact .some ⟨rfl, h.advance hdrop⟩
      · exact .none
    | mark m =>
      dsimp only
      split
      · exact .some ⟨rfl, h.advance hdrop⟩
      · exact .none
    | number | nothing => exact .none
  | swap n n' hw hw' =>
    simp only [hother hw, hother hw']
    exact .none

theorem ident?_rel {reserved : List String} (hreserved : ∀ w ∈ reserved, w ∈ words) :
    Option.Rel (Taken words) (c.ident? reserved) (d.ident? reserved) := by
  have hfree {w : String} (hw : IsPlain words w.toList) : reserved.contains w = false :=
    Bool.eq_false_iff.2 fun hmem =>
      hw.2 (by rw [String.ofList_toList]; exact hreserved w (List.contains_iff_mem.1 hmem))
  unfold ident?
  rw [h.pending]
  split
  · exact .none
  obtain ⟨hlexeme, hdrop⟩ := h.rest.lexeme
  generalize lexeme c.rest = l at hlexeme hdrop
  generalize lexeme d.rest = m at hlexeme hdrop
  cases hlexeme with
  | same =>
    cases l with
    | word w n =>
      dsimp only
      split
      · exact .none
      · exact .some ⟨rfl, h.advance hdrop⟩
    | number | mark | nothing => exact .none
  | swap n n' hw hw' =>
    simp only [hfree hw, hfree hw']
    exact .some ⟨rfl, h.advance hdrop⟩

theorem number?_rel : Option.Rel (Taken words) c.number? d.number? := by
  unfold number?
  rw [h.pending]
  split
  · exact .none
  obtain ⟨hlexeme, hdrop⟩ := h.rest.lexeme
  generalize lexeme c.rest = l at hlexeme hdrop
  generalize lexeme d.rest = m at hlexeme hdrop
  cases hlexeme with
  | same =>
    cases l with
    | number k n => exact .some ⟨rfl, h.advance hdrop⟩
    | word | mark | nothing => exact .none
  | swap => exact .none

theorem glued?_rel {t : String} (ht : IsGlue words t) :
    Option.Rel (Taken words) (c.glued? t) (d.glued? t) := by
  obtain ⟨heq, hdrop⟩ := h.rest.glue ht
  unfold glued?
  rw [h.pending, heq]
  split
  · next hprefix => exact .some ⟨rfl, h.advance (hdrop (Bool.and_eq_true_iff.1 hprefix).2)⟩
  · exact .none

theorem stringOpen?_rel : Option.Rel (Taken words) c.stringOpen? d.stringOpen? := by
  obtain ⟨heq, hquote⟩ := h.rest.openingQuote
  unfold stringOpen?
  rw [h.pending, heq]
  split
  · exact .none
  cases hq : openingQuote c.rest with
  | none => exact .none
  | some p =>
    obtain ⟨q, n⟩ := p
    obtain ⟨hclose, hdrop⟩ := hquote q n hq
    refine .some ⟨rfl, hdrop, h.columns, ?_, rfl, h.pending, ?_⟩
    · simp only [h.quotes]
    · exact List.forall_mem_cons.2 ⟨hclose, h.closes⟩

theorem stringText?_rel : Option.Rel (Aligned words) c.stringText? d.stringText? := by
  obtain ⟨s, -, hrest⟩ := h.rest
  unfold stringText?
  rw [h.quotes]
  cases hq : c.quotes with
  | nil => exact .none
  | cons q qs =>
    dsimp only
    obtain ⟨hc, hd⟩ | ⟨n, m, hc, hd, hdrop⟩ :=
      exists_of_rel (textLength_respelled (h.closes q (by simp [hq])) hrest) <;> rw [hc, hd]
    · exact .none
    · exact .some (h.advance hdrop)

theorem stringClose?_rel : Option.Rel (Taken words) c.stringClose? d.stringClose? := by
  obtain ⟨s, hs, hrest⟩ := h.rest
  unfold stringClose?
  rw [h.quotes]
  cases hq : c.quotes with
  | nil => exact .none
  | cons q qs =>
    have hclose := isIdentifierContinue_of_isQuoteMark (h.closes q (by simp [hq]))
    dsimp only
    generalize (if q.triple = true then 3 else 1) = n
    obtain ⟨heq, hdrop⟩ := hrest.prefix_marks (List.replicate n q.close) (.inr hs) fun c hc => by
      rw [List.eq_of_mem_replicate hc, hclose]
    rw [heq]
    split
    · next hprefix =>
      have hrest := hdrop hprefix
      rw [List.length_replicate] at hrest
      refine .some ⟨rfl, hrest, h.columns, rfl, rfl, h.pending, fun q' hq' => ?_⟩
      exact h.closes q' (by rw [hq]; exact List.mem_cons_of_mem q hq')
    · exact .none

theorem braceOpen?_rel : Option.Rel (Taken words) c.braceOpen? d.braceOpen? := by
  obtain ⟨s, hs, hrest⟩ := h.rest
  unfold braceOpen?
  rw [h.quotes, hrest.head?_beq (by decide)]
  split
  · next hbrace =>
    obtain ⟨cs, hcs⟩ := List.head?_eq_some_iff.1 (beq_iff_eq.1 (Bool.and_eq_true_iff.1 hbrace).2)
    refine .some ⟨rfl, h.advance ?_⟩
    rw [hcs] at hrest ⊢
    obtain ⟨ds, hds, h'⟩ := hrest.uncons (.inr (by decide))
    rw [hds]
    exact ⟨_, next_ne_word (by decide), h'⟩
  · exact .none

theorem conversion?_rel : Option.Rel (Taken words) c.conversion? d.conversion? := by
  obtain ⟨s, hs, hrest⟩ := h.rest
  have hnone {a : Cursor} (ha : a.rest.head? ≠ some '!') : a.conversion? = none := by
    unfold conversion?
    split
    · next heq => simp [heq] at ha
    · rfl
  by_cases hbang : c.rest.head? = some '!'
  · obtain ⟨cs, hcs⟩ := List.head?_eq_some_iff.1 hbang
    rw [hcs] at hrest
    obtain ⟨ds, hds, h'⟩ := hrest.uncons (.inr (by decide))
    have hnumber : s.next '!' = .number := rfl
    rw [hnumber] at h'
    cases cs with
    | nil =>
      obtain rfl := h'.eq_nil
      unfold conversion?
      rw [hcs, hds]
      exact .none
    | cons e cs =>
      obtain ⟨ds, rfl, h₂⟩ := h'.uncons (.inl (by decide))
      have hvalue {a : Cursor} {xs : List Char} (ha : a.rest = '!' :: e :: xs) : a.conversion? =
          if 'a' ≤ e && e ≤ 'z' then some (a.leaf .typeConversion 2, a.advance 2) else none := by
        unfold conversion?
        rw [ha]
        rfl
      rw [hvalue hcs, hvalue hds]
      split
      · next he =>
        simp only [Bool.and_eq_true, decide_eq_true_eq] at he
        rw [next_number (.inl (continue_of_isLetter (.inl he)))] at h₂
        refine .some ⟨rfl, h.advance ?_⟩
        rw [hcs, hds]
        exact ⟨.number, by decide, h₂⟩
      · exact .none
  · have hbang' : d.rest.head? ≠ some '!' := fun hd => hbang <| by
      simpa [hd] using hrest.head?_beq (c := '!') (by decide)
    rw [hnone hbang, hnone hbang']
    exact .none

theorem formatText : Aligned words c.formatText d.formatText := by
  obtain ⟨s, -, hrest⟩ := h.rest
  refine h.advance ?_
  rw [drop_length_takeWhile, drop_length_takeWhile]
  refine hrest.dropWhile_word fun c hc => ?_
  rw [Bool.and_eq_true, bne_iff_ne, bne_iff_ne]
  exact ⟨ne_of_continue hc (by decide), ne_of_continue hc (by decide)⟩

theorem newline?_rel : Option.Rel (Aligned words) c.newline? d.newline? := by
  unfold newline?
  rw [h.pending]
  split
  · exact .some ⟨h.rest, h.columns, h.quotes, h.inFormat, rfl, h.closes⟩
  · exact .none

theorem indent?_rel : Option.Rel (Aligned words) c.indent? d.indent? := by
  unfold indent?
  rw [h.pending]
  split
  · refine .some ⟨h.rest, ?_, h.quotes, h.inFormat, rfl, h.closes⟩
    simp only [h.columns]
  · exact .none

theorem dedent?_rel : Option.Rel (Aligned words) c.dedent? d.dedent? := by
  unfold dedent?
  rw [h.pending]
  split
  · refine .some ⟨h.rest, ?_, h.quotes, h.inFormat, rfl, h.closes⟩
    simp only [h.columns]
  · exact .none

theorem emptyBlock?_rel : Option.Rel (Taken words) c.emptyBlock? d.emptyBlock? := by
  unfold emptyBlock?
  obtain ⟨hc, hd⟩ | ⟨a, b, hc, hd, hab⟩ := exists_of_rel h.newline?_rel <;> rw [hc, hd]
  · exact .none
  · exact .some ⟨rfl, hab⟩

end Aligned

end Cursor

namespace Progress

def Aligned (words : List String) (p q : Progress) : Prop :=
  q.1.map Node.shape = p.1.map Node.shape ∧ p.2.Aligned words q.2

variable {words : List String} {ns ms : List Node} (hns : ms.map Node.shape = ns.map Node.shape)

include hns

theorem add_rel {x y : Option (Node × Cursor)} (h : Option.Rel (Cursor.Taken words) x y) :
    Option.Rel (Aligned words) (add ns x) (add ms y) := by
  cases h with
  | none => exact .none
  | some h => exact .some ⟨by rw [List.map_cons, List.map_cons, h.1, hns], h.2⟩

theorem move_rel {x y : Option Cursor} (h : Option.Rel (Cursor.Aligned words) x y) :
    Option.Rel (Aligned words) (move ns x) (move ms y) := by
  cases h with
  | none => exact .none
  | some h => exact .some ⟨hns, h⟩

theorem settleAdd_rel {f : Cursor → Option (Node × Cursor)} {c d : Cursor} (h : c.Aligned words d)
    (hf : ∀ a b : Cursor, a.Aligned words b → Option.Rel (Cursor.Taken words) (f a) (f b)) :
    Option.Rel (Aligned words) ((c.settle .token).bind fun a => add ns (f a))
      ((d.settle .token).bind fun b => add ms (f b)) := by
  obtain ⟨hc, hd⟩ | ⟨a, b, hc, hd, hab⟩ := exists_of_rel (h.settle .token) <;> rw [hc, hd]
  · exact .none
  · exact add_rel hns (hf a b hab)

end Progress

def glues (words : List String) (t : String) : Bool :=
  let v := t.toList.takeWhile isIdentifierContinue
  let xs := t.toList.dropWhile isIdentifierContinue
  !xs.isEmpty && xs.all (fun c => !isIdentifierContinue c)
    && (v.isEmpty || isIdentifier v && words.contains (String.ofList v))

theorem isGlue_of_glues {words : List String} {t : String} (h : glues words t = true) :
    IsGlue words t := by
  simp only [glues, Bool.and_eq_true, Bool.or_eq_true, Bool.not_eq_true', List.isEmpty_iff,
    List.isEmpty_eq_false_iff, List.all_eq_true, List.contains_iff_mem] at h
  obtain ⟨⟨hne, hxs⟩, hv⟩ := h
  exact ⟨_, _, List.takeWhile_append_dropWhile.symm, hne, hxs, hv⟩

namespace Gram

variable {ρ : Type}

def spelled (words : List String) : Gram ρ → Bool
  | tok t => words.contains t || !isIdentifier t.toList
  | glued t => glues words t
  | ident reserved => reserved.all words.contains
  | then_ a b | or_ a b => a.spelled words && b.spelled words
  | many a | fresh a | within _ a | ahead a | unless_ a => a.spelled words
  | _ => true

variable {words : List String} {rules : ρ → Gram ρ} {g : Gram ρ} {fuel : Nat} {follow : Expect}
  {ns ms : List Node} {c d : Cursor}

theorem read_rel (hrules : ∀ r, (rules r).spelled words = true) (hg : g.spelled words = true)
    (hns : ms.map Node.shape = ns.map Node.shape) (h : c.Aligned words d) :
    Option.Rel (Progress.Aligned words) (g.read rules fuel follow ns c)
      (g.read rules fuel follow ms d) := by
  induction fuel generalizing g follow ns ms c d with
  | zero => exact .none
  | succ fuel ih =>
    cases g with
    | done => exact .some ⟨hns, h⟩
    | tok t =>
      refine Progress.settleAdd_rel hns h fun a b hab => hab.token?_rel ?_
      simpa [spelled] using hg
    | glued t => exact Progress.settleAdd_rel hns h fun a b hab => hab.glued?_rel (isGlue_of_glues hg)
    | ident reserved =>
      refine Progress.settleAdd_rel hns h fun a b hab => hab.ident?_rel ?_
      simpa [spelled] using hg
    | number => exact Progress.settleAdd_rel hns h fun a b hab => hab.number?_rel
    | stringOpen => exact Progress.settleAdd_rel hns h fun a b hab => hab.stringOpen?_rel
    | conversion => exact Progress.settleAdd_rel hns h fun a b hab => hab.conversion?_rel
    | stringClose => exact Progress.add_rel hns h.stringClose?_rel
    | braceOpen => exact Progress.add_rel hns h.braceOpen?_rel
    | emptyBlock => exact Progress.add_rel hns h.emptyBlock?_rel
    | settle e => exact Progress.move_rel hns (h.settle e)
    | boundary => exact Progress.move_rel hns (h.settle follow)
    | newline => exact Progress.move_rel hns h.newline?_rel
    | indent => exact Progress.move_rel hns h.indent?_rel
    | dedent => exact Progress.move_rel hns h.dedent?_rel
    | stringText => exact Progress.move_rel hns h.stringText?_rel
    | formatText => exact .some ⟨hns, h.formatText⟩
    | call r => exact ih (hrules r) hns h
    | within e a => exact ih (g := a) hg hns h
    | then_ a b =>
      obtain ⟨hga, hgb⟩ := Bool.and_eq_true_iff.1 hg
      simp only [read]
      obtain ⟨hc, hd⟩ | ⟨p, q, hc, hd, hpq⟩ := exists_of_rel (ih hga hns h) <;> rw [hc, hd]
      · exact .none
      · exact ih hgb hpq.1 hpq.2
    | or_ a b =>
      obtain ⟨hga, hgb⟩ := Bool.and_eq_true_iff.1 hg
      simp only [read]
      obtain ⟨hc, hd⟩ | ⟨p, q, hc, hd, hpq⟩ := exists_of_rel (ih hga hns h) <;> rw [hc, hd]
      · exact ih hgb hns h
      · exact .some hpq
    | many a =>
      simp only [read]
      obtain ⟨hc, hd⟩ | ⟨p, q, hc, hd, hpq⟩ := exists_of_rel (ih (g := a) hg hns h) <;> rw [hc, hd]
      · exact .some ⟨hns, h⟩
      · exact ih (g := many a) hg hpq.1 hpq.2
    | fresh a =>
      simp only [read]
      obtain ⟨hc, hd⟩ | ⟨p, q, hc, hd, hpq⟩ := exists_of_rel (ih (g := a) hg rfl h) <;> rw [hc, hd]
      · exact .none
      · exact .some ⟨by rw [List.map_append, List.map_append, hpq.1, hns], hpq.2⟩
    | ahead a =>
      simp only [read]
      obtain ⟨hc, hd⟩ | ⟨p, q, hc, hd, -⟩ := exists_of_rel (ih (g := a) hg hns h) <;> rw [hc, hd]
      · exact .none
      · exact .some ⟨hns, h⟩
    | unless_ a =>
      simp only [read]
      obtain ⟨hc, hd⟩ | ⟨p, q, hc, hd, -⟩ := exists_of_rel (ih (g := a) hg hns h) <;> rw [hc, hd]
      · exact .some ⟨hns, h⟩
      · exact .none
    | tag r =>
      cases ns with
      | nil =>
        obtain rfl := List.map_eq_nil_iff.1 hns
        exact .none
      | cons n ns =>
        obtain ⟨m, ms, rfl, hn, hns⟩ := List.map_eq_cons_iff.1 hns
        refine .some ⟨?_, h⟩
        rw [List.map_cons, List.map_cons, Node.shape_withRole, Node.shape_withRole, hn, hns]
    | pack k =>
      refine .some ⟨?_, h⟩
      simp only [List.map_cons, List.map_nil, Node.shape_spanning, List.map_reverse, hns]
    | packMany k =>
      have hlength : ms.length = ns.length := by simpa using congrArg List.length hns
      refine .some ⟨?_, h⟩
      dsimp only
      rw [hlength]
      split
      · simp only [List.map_cons, List.map_nil, Node.shape_spanning, List.map_reverse, hns]
      · exact hns
    | target =>
      have htargets : (targets? ms).map shapes = (targets? ns).map shapes := by
        rw [← targets?_shapes, ← targets?_shapes, shapes_eq_map, shapes_eq_map, hns]
      simp only [read]
      generalize targets? ns = x at htargets
      generalize targets? ms = y at htargets
      cases x with
      | none =>
        obtain rfl := Option.map_eq_none_iff.1 htargets
        exact .none
      | some ns' =>
        obtain ⟨ms', rfl, heq⟩ := Option.map_eq_some_iff.1 htargets
        rw [shapes_eq_map, shapes_eq_map] at heq
        exact .some ⟨heq, h⟩
    | latest kinds =>
      have hhead : (ms.head?.any fun n => kinds.contains n.kind) =
          ns.head?.any fun n => kinds.contains n.kind := by
        have hkinds (xs : List Node) : (xs.head?.any fun n => kinds.contains n.kind) =
            (xs.map Node.shape).head?.any fun n => kinds.contains n.kind := by
          cases xs <;> simp [Node.kind_shape]
        rw [hkinds ms, hns, ← hkinds ns]
      simp only [read]
      rw [hhead]
      split
      · exact .some ⟨hns, h⟩
      · exact .none
    | endOfText =>
      simp only [read]
      obtain ⟨hc, hd⟩ | ⟨a, b, hc, hd, hab⟩ := exists_of_rel (h.settle .statement) <;> rw [hc, hd]
      · exact .none
      · obtain ⟨s, -, hrest⟩ := hab.rest
        simp only [Option.bind_some, hrest.isEmpty_eq]
        split
        · exact .some ⟨hns, hab⟩
        · exact .none

end Gram

def Rule.words : List String :=
  compoundWords ++ simpleWords ++ literalWords ++
    ["_", "__future__", "and", "as", "async", "await", "case", "elif", "else", "except", "exec",
      "finally", "in", "is", "lambda", "match", "not", "or", "print", "type", "yield"]

theorem Rule.spelled_phrase : ∀ r : Rule, (phrase r).spelled words = true := by
  decide +kernel

theorem parse?_isSome_eq_of_respelled {source text : String}
    (h : Respelled Rule.words .gap source.toList text.toList) :
    (parse? text).isSome = (parse? source).isSome := by
  have haligned : (Cursor.ofText source.toList).Aligned Rule.words (.ofText text.toList) :=
    ⟨⟨.gap, by decide, h⟩, rfl, rfl, rfl, rfl, by simp [Cursor.ofText]⟩
  have hfuel {n m : Nat} (hle : n ≤ m) : readingFuel n ≤ readingFuel m := by
    unfold readingFuel
    omega
  have hread (fuel : Nat) : Option.Rel (Progress.Aligned Rule.words)
      ((Gram.call Rule.module).read Rule.phrase fuel .token [] (.ofText source.toList))
      ((Gram.call Rule.module).read Rule.phrase fuel .token [] (.ofText text.toList)) :=
    Gram.read_rel Rule.spelled_phrase rfl rfl haligned
  replace hread := hread (readingFuel (max source.toList.length text.toList.length))
  rw [read_module_of_le (hfuel (Nat.le_max_left _ _)), read_module_of_le (hfuel (Nat.le_max_right _ _))]
    at hread
  unfold parse?
  dsimp only
  obtain ⟨hc, hd⟩ | ⟨⟨ns, c⟩, ⟨ms, d⟩, hc, hd, hpq⟩ := exists_of_rel hread <;> rw [hc, hd]
  have hlength : ms.length = ns.length := by simpa using congrArg List.length hpq.1
  obtain _ | ⟨n, _ | ⟨n', ns⟩⟩ := ns <;> obtain _ | ⟨m, _ | ⟨m', ms⟩⟩ := ms <;>
    first | rfl | simp at hlength

end Reroot.Python

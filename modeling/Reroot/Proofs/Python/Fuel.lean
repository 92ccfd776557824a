import Reroot.Proofs.Python.Shape

namespace Reroot.Python

theorem radixLength_pos {p : Char → Bool} {cs : List Char} {n : Nat}
    (h : radixLength p cs = some n) : 0 < n := by
  unfold radixLength at h
  dsimp only at h
  split at h <;> cases h
  omega

theorem numberLength_pos {cs : List Char} {k : Kind} {n : Nat}
    (h : numberLength cs = some (k, n)) : 0 < n := by
  unfold numberLength at h
  extract_lets radix whole tail point fraction exponent m after at h
  have hradix {m : Nat} (hm : radix = some m) : 0 < m := by
    revert hm
    simp only [radix]
    repeat' split
    · exact radixLength_pos
    · exact radixLength_pos
    · exact radixLength_pos
    · simp
    · simp
  clear_value radix
  cases radix with
  | some m =>
    cases h
    exact hradix rfl
  | none =>
    dsimp only at h
    split at h
    · cases h
    · next hne =>
      have hm : 0 < m := by
        simp only [Bool.and_eq_true, beq_iff_eq, not_and_or] at hne
        omega
      split at h <;> cases h <;> omega

theorem lexeme_ne_nil {cs : List Char} (h : lexeme cs ≠ .nothing) : cs ≠ [] := by
  rintro rfl
  exact h rfl

theorem length_pos_of_mem_marks {m : String} (h : m ∈ marks) : 0 < m.length := by
  revert m
  decide

namespace Cursor

variable {c c' : Cursor} {n : Node}

theorem advance_lt {w : Nat} (hw : 0 < w) (hc : c.rest ≠ []) :
    (c.advance w).rest.length < c.rest.length := by
  have := List.length_pos_iff.2 hc
  rw [(moved_advance w c).rest, List.length_drop]
  omega

theorem token?_lt {t : String} (h : c.token? t = some (n, c')) :
    c'.rest.length < c.rest.length := by
  unfold token? at h
  split at h
  · cases h
  · split at h
    · next hl =>
      split at h <;> cases h
      obtain ⟨rest, hrest, rfl, hw, -⟩ := lexeme_eq_word hl
      exact advance_lt (List.length_pos_iff.2 (isWord_of_isIdentifier hw).1)
        (lexeme_ne_nil (by simp [hl]))
    · next hl =>
      split at h <;> cases h
      exact advance_lt (length_pos_of_mem_marks (lexeme_eq_mark hl).1) (lexeme_ne_nil (by simp [hl]))
    · cases h

theorem glued?_lt {t : String} (ht : t ≠ "") (h : c.glued? t = some (n, c')) :
    c'.rest.length < c.rest.length := by
  unfold glued? at h
  split at h <;> cases h
  next hc =>
  have hprefix := List.isPrefixOf_iff_prefix.1 (Bool.and_eq_true_iff.1 hc).2
  have hpos : 0 < t.length := Nat.pos_of_ne_zero (by simpa using ht)
  refine advance_lt hpos fun hnil => ?_
  rw [hnil, List.prefix_nil, String.toList_eq_nil_iff] at hprefix
  exact ht hprefix

theorem ident?_lt {rs : List String} (h : c.ident? rs = some (n, c')) :
    c'.rest.length < c.rest.length := by
  unfold ident? at h
  split at h
  · cases h
  · split at h
    · next hl =>
      split at h <;> cases h
      obtain ⟨rest, hrest, rfl, hw, -⟩ := lexeme_eq_word hl
      exact advance_lt (List.length_pos_iff.2 (isWord_of_isIdentifier hw).1)
        (lexeme_ne_nil (by simp [hl]))
    · cases h

theorem number?_lt (h : c.number? = some (n, c')) : c'.rest.length < c.rest.length := by
  unfold number? at h
  split at h
  · cases h
  · split at h
    · next hl =>
      cases h
      exact advance_lt (numberLength_pos (lexeme_eq_number hl)) (lexeme_ne_nil (by simp [hl]))
    · cases h

theorem stringOpen?_lt (h : c.stringOpen? = some (n, c')) : c'.rest.length < c.rest.length := by
  unfold stringOpen? at h
  split at h
  · cases h
  · split at h <;> cases h
    next hq =>
    unfold openingQuote at hq
    dsimp only at hq
    split at hq
    · next hdrop =>
      split at hq <;> cases hq
      refine advance_lt (by split <;> omega) fun hnil => ?_
      rw [hnil] at hdrop
      simp at hdrop
    · cases hq

theorem stringClose?_lt (h : c.stringClose? = some (n, c')) :
    c'.rest.length < c.rest.length := by
  unfold stringClose? at h
  split at h
  · next q qs hq =>
    dsimp only at h
    have hw : 0 < if q.triple = true then 3 else 1 := by split <;> omega
    generalize (if q.triple = true then 3 else 1) = w at h hw
    split at h <;> cases h
    next hprefix =>
    refine advance_lt hw fun hnil => ?_
    rw [hnil, List.isPrefixOf_iff_prefix, List.prefix_nil, List.replicate_eq_nil_iff] at hprefix
    omega
  · cases h

theorem braceOpen?_lt (h : c.braceOpen? = some (n, c')) : c'.rest.length < c.rest.length := by
  unfold braceOpen? at h
  split at h <;> cases h
  next hc =>
  refine advance_lt Nat.one_pos fun hnil => ?_
  simp [hnil] at hc

theorem conversion?_lt (h : c.conversion? = some (n, c')) : c'.rest.length < c.rest.length := by
  unfold conversion? at h
  split at h
  · next hc =>
    split at h <;> cases h
    exact advance_lt (by decide) (by simp [hc])
  · cases h

theorem moved_le {w : Nat} (h : Moved w c c') : c'.rest.length ≤ c.rest.length := by
  rw [h.rest, List.length_drop]
  omega

theorem advance_le (w : Nat) (c : Cursor) : (c.advance w).rest.length ≤ c.rest.length :=
  moved_le (moved_advance w c)

theorem settleLoop_le {e : Expect} {fuel : Nat} (h : settleLoop e fuel c = some c') :
    c'.rest.length ≤ c.rest.length := by
  induction fuel generalizing c with
  | zero =>
    cases h
    exact Nat.le_refl _
  | succ fuel ih =>
    unfold settleLoop at h
    split at h
    · split at h <;> cases h
      exact Nat.le_refl _
    · cases h
      exact Nat.le_refl _
    · have hblank := advance_le (c.rest.takeWhile isBlank).length c
      dsimp only at h
      split at h
      · next n _ => exact Nat.le_trans (ih h) (Nat.le_trans (advance_le n _) hblank)
      · cases h
        exact hblank

theorem settle_le {e : Expect} (h : c.settle e = some c') : c'.rest.length ≤ c.rest.length := by
  unfold settle at h
  split at h
  · cases h
    exact Nat.le_refl _
  · exact settleLoop_le h

end Cursor

theorem Progress.settleAdd_lt {f : Cursor → Option (Node × Cursor)} {ns ns' : List Node}
    {c c' : Cursor} (hf : ∀ a n b, f a = some (n, b) → b.rest.length < a.rest.length)
    (hr : ((c.settle .token).bind fun a => Progress.add ns (f a)) = some (ns', c')) :
    c'.rest.length < c.rest.length := by
  obtain ⟨a, ha, hr⟩ := Option.bind_eq_some_iff.1 hr
  obtain ⟨n, hn, -⟩ := Progress.add_eq hr
  exact Nat.lt_of_lt_of_le (hf a n c' hn) (Cursor.settle_le ha)

structure Fueling (ρ : Type) where
  step : Nat
  consuming : ρ → Bool
  rank : ρ → Nat

namespace Gram

variable {ρ : Type}

def takes (F : Fueling ρ) : Gram ρ → Bool
  | tok _ | ident _ | number | stringOpen | stringClose | braceOpen | conversion => true
  | glued t => t != ""
  | then_ a b => a.takes F || b.takes F
  | or_ a b => a.takes F && b.takes F
  | call r => F.consuming r
  | fresh a | within _ a => a.takes F
  | _ => false

def advances (F : Fueling ρ) : Gram ρ → Bool
  | many a => a.takes F && a.advances F
  | then_ a b | or_ a b => a.advances F && b.advances F
  | fresh a | within _ a | ahead a | unless_ a => a.advances F
  | _ => true

/-- The fuel that reading a phrase needs besides `step` for each character that is left. -/
def depth (F : Fueling ρ) : Gram ρ → Nat
  | then_ a b => 1 + max (a.depth F) (if a.takes F then b.depth F - F.step else b.depth F)
  | or_ a b => 1 + max (a.depth F) (b.depth F)
  | many a | fresh a | within _ a | ahead a | unless_ a => 1 + a.depth F
  | call r => 1 + F.rank r
  | _ => 1

end Gram

structure Fueling.Lawful {ρ : Type} (F : Fueling ρ) (rules : ρ → Gram ρ) : Prop where
  step_pos : 0 < F.step
  takes : ∀ r, F.consuming r = true → (rules r).takes F = true
  advances : ∀ r, (rules r).advances F = true
  depth_le : ∀ r, (rules r).depth F ≤ F.rank r

namespace Gram

variable {ρ : Type} {rules : ρ → Gram ρ} {F : Fueling ρ} {g : Gram ρ} {fuel fuel' : Nat}
  {follow : Expect} {ns ns' : List Node} {c c' : Cursor}

theorem read_le (hF : F.Lawful rules) (hr : g.read rules fuel follow ns c = some (ns', c')) :
    c'.rest.length ≤ c.rest.length ∧ (g.takes F = true → c'.rest.length < c.rest.length) := by
  induction fuel generalizing g follow ns ns' c c' with
  | zero => cases hr
  | succ fuel ih =>
    have took (h : c'.rest.length < c.rest.length) : c'.rest.length ≤ c.rest.length ∧
        (g.takes F = true → c'.rest.length < c.rest.length) := ⟨Nat.le_of_lt h, fun _ => h⟩
    have still (hg : g.takes F = false) (h : c'.rest.length ≤ c.rest.length) :
        c'.rest.length ≤ c.rest.length ∧ (g.takes F = true → c'.rest.length < c.rest.length) :=
      ⟨h, fun ht => by rw [hg] at ht; cases ht⟩
    have moved {w : Nat} (hg : g.takes F = false) (h : Cursor.Moved w c c') :
        c'.rest.length ≤ c.rest.length ∧ (g.takes F = true → c'.rest.length < c.rest.length) :=
      still hg (Cursor.moved_le h)
    cases g with
    | then_ a b =>
      obtain ⟨_, ms, d, ⟨⟩, ha, hb⟩ := read_then hr
      obtain ⟨hale, halt⟩ := ih ha
      obtain ⟨hble, hblt⟩ := ih hb
      refine ⟨Nat.le_trans hble hale, fun ht => ?_⟩
      obtain ht | ht := Bool.or_eq_true_iff.1 ht
      · exact Nat.lt_of_le_of_lt hble (halt ht)
      · exact Nat.lt_of_lt_of_le (hblt ht) hale
    | or_ a b =>
      obtain ⟨_, ⟨⟩, h | h⟩ := read_or hr
      · exact ⟨(ih h).1, fun ht => (ih h).2 (Bool.and_eq_true_iff.1 ht).1⟩
      · exact ⟨(ih h).1, fun ht => (ih h).2 (Bool.and_eq_true_iff.1 ht).2⟩
    | many a =>
      obtain ⟨_, ⟨⟩, ⟨rfl, rfl⟩ | ⟨ms, d, ha, hmore⟩⟩ := read_many hr
      · exact still rfl (Nat.le_refl _)
      · exact still rfl (Nat.le_trans (ih hmore).1 (ih ha).1)
    | call r =>
      have h := ih (g := rules r) hr
      exact ⟨h.1, fun ht => h.2 (hF.takes r ht)⟩
    | fresh a =>
      obtain ⟨_, ms, ⟨⟩, ha, rfl⟩ := read_fresh hr
      exact ih (g := a) ha
    | within e a => exact ih (g := a) hr
    | tok t => exact took (Progress.settleAdd_lt (fun _ _ _ => Cursor.token?_lt) hr)
    | ident rs => exact took (Progress.settleAdd_lt (fun _ _ _ => Cursor.ident?_lt) hr)
    | number => exact took (Progress.settleAdd_lt (fun _ _ _ => Cursor.number?_lt) hr)
    | stringOpen => exact took (Progress.settleAdd_lt (fun _ _ _ => Cursor.stringOpen?_lt) hr)
    | conversion => exact took (Progress.settleAdd_lt (fun _ _ _ => Cursor.conversion?_lt) hr)
    | glued t =>
      obtain ⟨a, ha, hr⟩ := Option.bind_eq_some_iff.1 hr
      obtain ⟨n, hn, -⟩ := Progress.add_eq hr
      have hle := Cursor.settle_le ha
      obtain ⟨-, w, -, hm⟩ := Cursor.takes_glued? hn
      refine ⟨Nat.le_trans (Cursor.moved_le hm) hle, fun ht => ?_⟩
      exact Nat.lt_of_lt_of_le (Cursor.glued?_lt (bne_iff_ne.1 ht) hn) hle
    | stringClose =>
      obtain ⟨n, hn, -⟩ := Progress.add_eq hr
      exact took (Cursor.stringClose?_lt hn)
    | braceOpen =>
      obtain ⟨n, hn, -⟩ := Progress.add_eq hr
      exact took (Cursor.braceOpen?_lt hn)
    | emptyBlock =>
      obtain ⟨n, hn, -⟩ := Progress.add_eq hr
      obtain ⟨-, w, -, hm⟩ := Cursor.takes_emptyBlock? hn
      exact moved rfl hm
    | settle e => exact still rfl (Cursor.settle_le (Progress.move_eq hr).1)
    | boundary => exact still rfl (Cursor.settle_le (Progress.move_eq hr).1)
    | newline => exact moved rfl (Cursor.moved_newline? (Progress.move_eq hr).1)
    | indent => exact moved rfl (Cursor.moved_indent? (Progress.move_eq hr).1)
    | dedent => exact moved rfl (Cursor.moved_dedent? (Progress.move_eq hr).1)
    | stringText =>
      obtain ⟨w, hm⟩ := Cursor.moved_stringText? (Progress.move_eq hr).1
      exact moved rfl hm
    | formatText =>
      cases hr
      exact moved rfl (Cursor.moved_advance _ _)
    | endOfText =>
      obtain ⟨a, ha, hr⟩ := Option.bind_eq_some_iff.1 hr
      split at hr <;> cases hr
      exact still rfl (Cursor.settle_le ha)
    | tag r =>
      obtain ⟨n, rest, rfl, rfl, rfl⟩ := read_tag hr
      exact still rfl (Nat.le_refl _)
    | pack k =>
      obtain ⟨rfl, rfl⟩ := read_pack hr
      exact still rfl (Nat.le_refl _)
    | target =>
      obtain ⟨ms, -, heq⟩ := Option.map_eq_some_iff.1 hr
      cases heq
      exact still rfl (Nat.le_refl _)
    | done | packMany =>
      cases hr
      exact still rfl (Nat.le_refl _)
    | latest | ahead | unless_ =>
      simp only [read] at hr
      split at hr <;> cases hr
      exact still rfl (Nat.le_refl _)

theorem depth_pos (g : Gram ρ) : 0 < g.depth F := by
  cases g <;> simp only [depth] <;> omega

theorem read_congr (hF : F.Lawful rules) (hg : g.advances F = true)
    (hf : F.step * c.rest.length + g.depth F ≤ fuel)
    (hf' : F.step * c.rest.length + g.depth F ≤ fuel') :
    g.read rules fuel follow ns c = g.read rules fuel' follow ns c := by
  induction fuel generalizing g fuel' follow ns c with
  | zero =>
    have := depth_pos (F := F) g
    omega
  | succ fuel ih =>
    obtain _ | fuel' := fuel'
    · have := depth_pos (F := F) g
      omega
    have inner {a : Gram ρ} {follow : Expect} {ns : List Node} (ha : a.advances F = true)
        (hle : a.depth F < g.depth F) :
        a.read rules fuel follow ns c = a.read rules fuel' follow ns c :=
      ih ha (by omega) (by omega)
    have fewer {n m : Nat} (h : n ≤ m) : F.step * n ≤ F.step * m := Nat.mul_le_mul_left _ h
    have fewer' {n m : Nat} (h : n < m) : F.step * n + F.step ≤ F.step * m := by
      rw [← Nat.mul_succ]
      exact Nat.mul_le_mul_left _ h
    cases g with
    | then_ a b =>
      obtain ⟨hga, hgb⟩ := Bool.and_eq_true_iff.1 hg
      simp only [depth] at hf hf' inner
      simp only [read]
      rw [inner hga (by omega)]
      split
      · next ms d ha =>
        obtain ⟨hle, hlt⟩ := read_le hF ha
        have hmul := fewer hle
        split at hf
        · next ht =>
          have := fewer' (hlt ht)
          rw [if_pos ht] at hf'
          exact ih hgb (by omega) (by omega)
        · next ht =>
          rw [if_neg ht] at hf'
          exact ih hgb (by omega) (by omega)
      · rfl
    | or_ a b =>
      obtain ⟨hga, hgb⟩ := Bool.and_eq_true_iff.1 hg
      simp only [depth] at inner
      simp only [read]
      rw [inner hga (by omega), inner hgb (by omega)]
    | many a =>
      obtain ⟨ht, hga⟩ := Bool.and_eq_true_iff.1 hg
      simp only [depth] at hf hf' inner
      simp only [read]
      rw [inner hga (by omega)]
      split
      · next ms d ha =>
        have := fewer' ((read_le hF ha).2 ht)
        have := hF.step_pos
        refine ih hg ?_ ?_ <;> simp only [depth] <;> omega
      · rfl
    | call r =>
      have := hF.depth_le r
      exact inner (hF.advances r) (by simp only [depth]; omega)
    | fresh a =>
      have hga : a.advances F = true := hg
      simp only [depth] at inner
      simp only [read]
      rw [inner hga (by omega)]
    | within e a =>
      simp only [depth] at inner
      exact inner hg (by omega)
    | ahead a =>
      have hga : a.advances F = true := hg
      simp only [depth] at inner
      simp only [read]
      rw [inner hga (by omega)]
    | unless_ a =>
      have hga : a.advances F = true := hg
      simp only [depth] at inner
      simp only [read]
      rw [inner hga (by omega)]
    | done | tok | glued | ident | number | tag | pack | packMany | target | latest | settle
    | boundary | newline | indent | dedent | emptyBlock | stringOpen | stringText | stringClose
    | braceOpen | formatText | conversion | endOfText => rfl

end Gram

def Rule.rank : Rule → Nat
  | .module => 140
  | .statement => 135
  | .simpleStatements => 130
  | .simpleStatement => 120
  | .embedded | .typeExpr | .dictItem | .rightSide => 90
  | .expressions | .typeCore => 85
  | .expressionItems | .element | .argument | .subscriptItem => 80
  | .expression => 75
  | .conditional | .iterable => 71
  | .aliased => 68
  | .disjunction => 65
  | .conjunction | .operand => 62
  | .negation => 59
  | .comparison => 55
  | .bitOr => 52
  | .bitAnd => 49
  | .bitXor => 46
  | .shift => 43
  | .sum => 40
  | .product | .casePatterns => 37
  | .unary | .targets | .casePattern => 34
  | .power => 30
  | .primary | .simplePattern | .compound | .assignTail | .parameterList => 27
  | .atom | .importTail | .parameter | .lambdaParameter => 23
  | .importList | .comprehension => 19
  | .strings | .importItem => 16
  | _ => 12

def fueling : Fueling Rule where
  step := 400
  consuming r := r != .module && r != .moreElements
  rank := Rule.rank

theorem fueling_lawful : fueling.Lawful Rule.phrase where
  step_pos := by decide
  takes := by decide +kernel
  advances := by decide +kernel
  depth_le := by decide +kernel

theorem read_module_of_le {source : String} {fuel : Nat}
    (hf : readingFuel source.toList.length ≤ fuel) :
    (Gram.call Rule.module).read Rule.phrase fuel .token [] (.ofText source.toList) =
      (Gram.call Rule.module).read Rule.phrase (readingFuel source.toList.length) .token []
        (.ofText source.toList) := by
  have henough : fueling.step * source.toList.length + (Gram.call Rule.module).depth fueling ≤
      readingFuel source.toList.length := by
    simp only [fueling, Gram.depth, Rule.rank, readingFuel]
    omega
  exact Gram.read_congr fueling_lawful rfl (Nat.le_trans henough hf) henough

end Reroot.Python

import Reroot.Proofs.Python.Placement
import Mathlib.Tactic.IntervalCases

namespace Reroot.Python

def IsWord (cs : List Char) : Prop :=
  cs ≠ [] ∧ ∀ c ∈ cs, Text.isIdentifierContinue c = true

theorem isIdentifierContinue_of_start {c : Char} (h : Text.isIdentifierStart c = true) :
    Text.isIdentifierContinue c = true := by
  simp [Text.isIdentifierContinue, h]

def isIdentifier : List Char → Bool
  | [] => false
  | c :: cs => Text.isIdentifierStart c && cs.all Text.isIdentifierContinue

def Ended (rest : List Char) : Prop :=
  ∀ d ∈ rest.head?, Text.isIdentifierContinue d = false

theorem isIdentifier_iff {w : List Char} : isIdentifier w = true ↔
    ∃ c cs, w = c :: cs ∧ Text.isIdentifierStart c = true ∧
      ∀ d ∈ w, Text.isIdentifierContinue d = true := by
  cases w with
  | nil => simp [isIdentifier]
  | cons c cs =>
    simp only [isIdentifier, Bool.and_eq_true, List.all_eq_true, List.cons.injEq, List.forall_mem_cons]
    constructor
    · rintro ⟨hc, hcs⟩
      exact ⟨c, cs, ⟨rfl, rfl⟩, hc, isIdentifierContinue_of_start hc, hcs⟩
    · rintro ⟨_, _, ⟨rfl, rfl⟩, hc, -, hcs⟩
      exact ⟨hc, hcs⟩

theorem isWord_of_isIdentifier {w : List Char} (h : isIdentifier w = true) : IsWord w := by
  obtain ⟨c, cs, rfl, -, hw⟩ := isIdentifier_iff.1 h
  exact ⟨by simp, hw⟩

theorem ended_dropWhile (cs : List Char) : Ended (cs.dropWhile Text.isIdentifierContinue) := by
  intro d hd
  have h := List.head?_dropWhile_not Text.isIdentifierContinue cs
  rw [Option.mem_def.1 hd] at h
  simpa using h

theorem ended_cons {c : Char} (hc : Text.isIdentifierContinue c = false) (cs : List Char) :
    Ended (c :: cs) := by
  intro d hd
  obtain rfl := Option.some.inj hd
  exact hc

theorem isIdentifierContinue_of_isBlank {c : Char} (h : Cursor.isBlank c = true) :
    Text.isIdentifierContinue c = false := by
  simp only [Cursor.isBlank, Bool.and_eq_true, Bool.or_eq_true, beq_iff_eq, decide_eq_true_eq] at h
  obtain (((rfl | ⟨hlo, hhi⟩) | rfl) | rfl) | rfl := h
  · decide
  · have hlo : 9 ≤ c.toNat := hlo
    have hhi : c.toNat ≤ 13 := hhi
    rw [← Char.ofNat_toNat c]
    generalize c.toNat = n at hlo hhi
    interval_cases n <;> decide
  · decide +kernel
  · decide +kernel
  · decide +kernel

theorem lexeme_eq_word {cs : List Char} {w : String} {n : Nat} (h : lexeme cs = .word w n) :
    ∃ rest, cs = w.toList ++ rest ∧ n = w.toList.length ∧ isIdentifier w.toList = true ∧ Ended rest := by
  unfold lexeme at h
  split at h
  · cases h
  · next c cs =>
    split at h
    · next hc =>
      cases h
      refine ⟨(c :: cs).dropWhile Text.isIdentifierContinue, ?_, ?_, ?_, ended_dropWhile _⟩
      · rw [String.toList_ofList, List.takeWhile_append_dropWhile]
      · rw [String.toList_ofList]
      · rw [String.toList_ofList, List.takeWhile_cons_of_pos (isIdentifierContinue_of_start hc),
          isIdentifier, hc, Bool.true_and, List.all_eq_true]
        exact fun d hd => List.mem_takeWhile_imp hd
    · split at h
      · cases h
      · split at h <;> cases h

theorem lexeme_word {cs : List Char} {w : String} {n : Nat} (h : lexeme cs = .word w n) :
    IsWord (cs.take n) := by
  obtain ⟨rest, rfl, rfl, hw, -⟩ := lexeme_eq_word h
  rw [List.take_left]
  exact isWord_of_isIdentifier hw

theorem numberLength_kind {cs : List Char} {k : Kind} {n : Nat} (h : numberLength cs = some (k, n)) :
    k = .integerLit ∨ k = .floatLit := by
  unfold numberLength at h
  extract_lets radix at h
  clear_value radix
  cases radix with
  | some m =>
    cases h
    exact .inl rfl
  | none =>
    dsimp only at h
    split at h
    · cases h
    · split at h
      · cases h
        exact .inl rfl
      · cases h
        exact .inr rfl

theorem lexeme_eq_number {cs : List Char} {k : Kind} {n : Nat} (h : lexeme cs = .number k n) :
    numberLength cs = some (k, n) := by
  unfold lexeme at h
  split at h
  · cases h
  · split at h
    · cases h
    · split at h
      · next hn =>
        cases h
        exact hn
      · split at h <;> cases h

theorem lexeme_eq_mark {cs : List Char} {m : String} (h : lexeme cs = .mark m) :
    m ∈ marks ∧ m.toList.isPrefixOf cs = true := by
  unfold lexeme at h
  split at h
  · cases h
  · split at h
    · cases h
    · split at h
      · cases h
      · split at h <;> cases h
        next hfind =>
          refine ⟨List.mem_of_find?_eq_some hfind, ?_⟩
          simpa only using List.find?_some hfind

theorem Progress.add_eq {ns ns' : List Node} {x : Option (Node × Cursor)} {c' : Cursor}
    (h : Progress.add ns x = some (ns', c')) : ∃ n, x = some (n, c') ∧ ns' = n :: ns := by
  unfold Progress.add at h
  split at h
  · cases h
    exact ⟨_, rfl, rfl⟩
  · cases h

theorem Progress.move_eq {ns ns' : List Node} {x : Option Cursor} {c' : Cursor}
    (h : Progress.move ns x = some (ns', c')) : x = some c' ∧ ns' = ns := by
  unfold Progress.move at h
  split at h <;> cases h
  exact ⟨rfl, rfl⟩

namespace Gram

variable {ρ : Type} {rules : ρ → Gram ρ} {fuel : Nat} {g : Gram ρ} {follow : Expect}
  {ns ns' : List Node} {c c' : Cursor}

def isSilent : Gram ρ → Bool
  | done | latest _ | ahead _ | unless_ _ | settle _ | boundary | newline | indent | dedent
  | stringText | formatText | endOfText => true
  | _ => false

theorem read_silent (hg : g.isSilent = true)
    (hr : g.read rules fuel follow ns c = some (ns', c')) : ns' = ns := by
  cases fuel with
  | zero => cases hr
  | succ fuel =>
    cases g with
    | done | formatText =>
      cases hr
      rfl
    | latest ks =>
      simp only [read] at hr
      split at hr <;> cases hr
      rfl
    | ahead a | unless_ a =>
      simp only [read] at hr
      split at hr <;> cases hr
      rfl
    | settle e | boundary | newline | indent | dedent | stringText => exact (Progress.move_eq hr).2
    | endOfText =>
      obtain ⟨d, -, hr⟩ := Option.bind_eq_some_iff.1 hr
      split at hr <;> cases hr
      rfl
    | tok | glued | ident | number | then_ | or_ | many | call | fresh | tag | pack | packMany
    | target | within | emptyBlock | stringOpen | stringClose | braceOpen | conversion => cases hg

def tokenKinds : Gram ρ → List Kind
  | tok t | glued t => [.mark t]
  | ident _ => [.identifier]
  | number => [.integerLit, .floatLit]
  | emptyBlock => [.block]
  | stringOpen | stringClose => [.mark "\""]
  | braceOpen => [.mark "\x7b"]
  | conversion => [.typeConversion]
  | _ => []

end Gram

namespace Cursor

variable {c c' : Cursor} {n : Node}

theorem leaf_token? {t : String} (h : c.token? t = some (n, c')) : ∃ w, n = c.leaf (.mark t) w := by
  unfold token? at h
  split at h
  · cases h
  · split at h
    · split at h <;> cases h
      exact ⟨_, rfl⟩
    · split at h <;> cases h
      exact ⟨_, rfl⟩
    · cases h

theorem leaf_glued? {t : String} (h : c.glued? t = some (n, c')) : ∃ w, n = c.leaf (.mark t) w := by
  unfold glued? at h
  split at h <;> cases h
  exact ⟨_, rfl⟩

theorem leaf_ident? {rs : List String} (h : c.ident? rs = some (n, c')) :
    ∃ w, n = c.leaf .identifier w ∧ IsWord (c.rest.take w) := by
  unfold ident? at h
  split at h
  · cases h
  · split at h
    · next hl =>
      split at h <;> cases h
      exact ⟨_, rfl, lexeme_word hl⟩
    · cases h

theorem leaf_number? (h : c.number? = some (n, c')) :
    ∃ k w, n = c.leaf k w ∧ (k = .integerLit ∨ k = .floatLit) := by
  unfold number? at h
  split at h
  · cases h
  · split at h
    · next hl =>
      cases h
      exact ⟨_, _, rfl, numberLength_kind (lexeme_eq_number hl)⟩
    · cases h

theorem leaf_stringOpen? (h : c.stringOpen? = some (n, c')) : ∃ w, n = c.leaf (.mark "\"") w := by
  unfold stringOpen? at h
  split at h
  · cases h
  · split at h <;> cases h
    exact ⟨_, rfl⟩

theorem leaf_stringClose? (h : c.stringClose? = some (n, c')) : ∃ w, n = c.leaf (.mark "\"") w := by
  unfold stringClose? at h
  split at h
  · next q qs _ =>
    dsimp only at h
    generalize (if q.triple = true then 3 else 1) = w at h
    split at h <;> cases h
    exact ⟨w, rfl⟩
  · cases h

theorem leaf_braceOpen? (h : c.braceOpen? = some (n, c')) : ∃ w, n = c.leaf (.mark "\x7b") w := by
  unfold braceOpen? at h
  split at h <;> cases h
  exact ⟨_, rfl⟩

theorem leaf_conversion? (h : c.conversion? = some (n, c')) :
    ∃ w, n = c.leaf .typeConversion w := by
  unfold conversion? at h
  split at h
  · split at h <;> cases h
    exact ⟨_, rfl⟩
  · cases h

theorem leaf_emptyBlock? (h : c.emptyBlock? = some (n, c')) : ∃ w, n = c.leaf .block w := by
  obtain ⟨d, -, hd⟩ := Option.map_eq_some_iff.1 h
  cases hd
  exact ⟨_, rfl⟩

end Cursor

namespace Gram

variable {ρ : Type} {rules : ρ → Gram ρ} {fuel : Nat} {g : Gram ρ} {follow : Expect}
  {ns ns' : List Node} {c c' : Cursor} {text : List Char}

theorem read_token (hg : g.tokenKinds ≠ []) (hc : c.Sound text)
    (hr : g.read rules fuel follow ns c = some (ns', c')) :
    ∃ a k w, a.Sound text ∧ ns' = Cursor.leaf a k w :: ns ∧ k ∈ g.tokenKinds ∧
      (k = .identifier → IsWord (a.rest.take w)) := by
  have plain {a : Cursor} {k : Kind} {w : Nat} {n : Node} (ha : a.Sound text)
      (hn : n = a.leaf k w) (hk : k ∈ g.tokenKinds) (hne : k ≠ .identifier) :
      ∃ b k w, b.Sound text ∧ n :: ns = Cursor.leaf b k w :: ns ∧ k ∈ g.tokenKinds ∧
        (k = .identifier → IsWord (b.rest.take w)) :=
    ⟨a, k, w, ha, by rw [hn], hk, fun h => absurd h hne⟩
  cases fuel with
  | zero => cases hr
  | succ fuel =>
    cases g with
    | tok t =>
      obtain ⟨a, ha, hr⟩ := Option.bind_eq_some_iff.1 hr
      obtain ⟨n, hn, rfl⟩ := Progress.add_eq hr
      obtain ⟨w, hn⟩ := Cursor.leaf_token? hn
      exact plain (hc.settle ha).1 hn (by simp [tokenKinds]) (by simp)
    | glued t =>
      obtain ⟨a, ha, hr⟩ := Option.bind_eq_some_iff.1 hr
      obtain ⟨n, hn, rfl⟩ := Progress.add_eq hr
      obtain ⟨w, hn⟩ := Cursor.leaf_glued? hn
      exact plain (hc.settle ha).1 hn (by simp [tokenKinds]) (by simp)
    | ident rs =>
      obtain ⟨a, ha, hr⟩ := Option.bind_eq_some_iff.1 hr
      obtain ⟨n, hn, rfl⟩ := Progress.add_eq hr
      obtain ⟨w, rfl, hw⟩ := Cursor.leaf_ident? hn
      exact ⟨a, .identifier, w, (hc.settle ha).1, rfl, by simp [tokenKinds], fun _ => hw⟩
    | number =>
      obtain ⟨a, ha, hr⟩ := Option.bind_eq_some_iff.1 hr
      obtain ⟨n, hn, rfl⟩ := Progress.add_eq hr
      obtain ⟨k, w, hn, hk⟩ := Cursor.leaf_number? hn
      refine plain (hc.settle ha).1 hn (by simpa [tokenKinds] using hk) ?_
      rintro rfl
      simp at hk
    | stringOpen =>
      obtain ⟨a, ha, hr⟩ := Option.bind_eq_some_iff.1 hr
      obtain ⟨n, hn, rfl⟩ := Progress.add_eq hr
      obtain ⟨w, hn⟩ := Cursor.leaf_stringOpen? hn
      exact plain (hc.settle ha).1 hn (by simp [tokenKinds]) (by simp)
    | conversion =>
      obtain ⟨a, ha, hr⟩ := Option.bind_eq_some_iff.1 hr
      obtain ⟨n, hn, rfl⟩ := Progress.add_eq hr
      obtain ⟨w, hn⟩ := Cursor.leaf_conversion? hn
      exact plain (hc.settle ha).1 hn (by simp [tokenKinds]) (by simp)
    | emptyBlock =>
      obtain ⟨n, hn, rfl⟩ := Progress.add_eq hr
      obtain ⟨w, hn⟩ := Cursor.leaf_emptyBlock? hn
      exact plain hc hn (by simp [tokenKinds]) (by simp)
    | stringClose =>
      obtain ⟨n, hn, rfl⟩ := Progress.add_eq hr
      obtain ⟨w, hn⟩ := Cursor.leaf_stringClose? hn
      exact plain hc hn (by simp [tokenKinds]) (by simp)
    | braceOpen =>
      obtain ⟨n, hn, rfl⟩ := Progress.add_eq hr
      obtain ⟨w, hn⟩ := Cursor.leaf_braceOpen? hn
      exact plain hc hn (by simp [tokenKinds]) (by simp)
    | done | then_ | or_ | many | call | fresh | tag | pack | packMany | target | latest | ahead
    | unless_ | settle | boundary | within | newline | indent | dedent | stringText | formatText
    | endOfText => exact absurd rfl hg

inductive Reading (rules : ρ → Gram ρ) (text : List Char) (fuel : Nat) (follow : Expect) :
    Gram ρ → List Node → Cursor → List Node → Cursor → Prop where
  | silent {g : Gram ρ} {ns : List Node} {c c' : Cursor} (hg : g.isSilent = true) :
      Reading rules text fuel follow g ns c ns c'
  | token {g : Gram ρ} {ns : List Node} {c a c' : Cursor} {k : Kind} {w : Nat}
      (ha : a.Sound text) (hk : k ∈ g.tokenKinds) (hw : k = .identifier → IsWord (a.rest.take w)) :
      Reading rules text fuel follow g ns c (a.leaf k w :: ns) c'
  | then_ {a b : Gram ρ} {ns ms ns' : List Node} {c d c' : Cursor}
      (ha : a.read rules fuel follow ns c = some (ms, d))
      (hb : b.read rules fuel follow ms d = some (ns', c')) :
      Reading rules text fuel follow (then_ a b) ns c ns' c'
  | left {a b : Gram ρ} {ns ns' : List Node} {c c' : Cursor}
      (ha : a.read rules fuel follow ns c = some (ns', c')) :
      Reading rules text fuel follow (or_ a b) ns c ns' c'
  | right {a b : Gram ρ} {ns ns' : List Node} {c c' : Cursor}
      (hb : b.read rules fuel follow ns c = some (ns', c')) :
      Reading rules text fuel follow (or_ a b) ns c ns' c'
  | more {a : Gram ρ} {ns ms ns' : List Node} {c d c' : Cursor}
      (ha : a.read rules fuel follow ns c = some (ms, d))
      (hmore : (many a).read rules fuel follow ms d = some (ns', c')) :
      Reading rules text fuel follow (many a) ns c ns' c'
  | enough {a : Gram ρ} {ns : List Node} {c : Cursor} :
      Reading rules text fuel follow (many a) ns c ns c
  | call {r : ρ} {ns ns' : List Node} {c c' : Cursor}
      (hr : (rules r).read rules fuel follow ns c = some (ns', c')) :
      Reading rules text fuel follow (call r) ns c ns' c'
  | fresh {a : Gram ρ} {ns ms : List Node} {c c' : Cursor}
      (ha : a.read rules fuel follow [] c = some (ms, c')) :
      Reading rules text fuel follow (fresh a) ns c (ms ++ ns) c'
  | within {e : Expect} {a : Gram ρ} {ns ns' : List Node} {c c' : Cursor}
      (ha : a.read rules fuel e ns c = some (ns', c')) :
      Reading rules text fuel follow (within e a) ns c ns' c'
  | tag {r : Role} {n : Node} {ns : List Node} {c : Cursor} :
      Reading rules text fuel follow (tag r) (n :: ns) c (n.withRole r :: ns) c
  | pack {k : Kind} {ns : List Node} {c : Cursor} :
      Reading rules text fuel follow (pack k) ns c [Node.spanning k c.pos ns.reverse] c
  | packMany {k : Kind} {ns : List Node} {c : Cursor} :
      Reading rules text fuel follow (packMany k) ns c [Node.spanning k c.pos ns.reverse] c
  | single {k : Kind} {ns : List Node} {c : Cursor} :
      Reading rules text fuel follow (packMany k) ns c ns c
  | target {ns ns' : List Node} {c : Cursor} (hns : targets? ns = some ns') :
      Reading rules text fuel follow target ns c ns' c

theorem reading_of_read (hc : c.Sound text)
    (hr : g.read rules (fuel + 1) follow ns c = some (ns', c')) :
    Reading rules text fuel follow g ns c ns' c' := by
  have leaf (hg : g.tokenKinds ≠ []) : Reading rules text fuel follow g ns c ns' c' := by
    obtain ⟨a, k, w, ha, rfl, hk, hw⟩ := read_token hg hc hr
    exact .token ha hk hw
  have still (hg : g.isSilent = true) : Reading rules text fuel follow g ns c ns' c' := by
    obtain rfl := read_silent hg hr
    exact .silent hg
  cases g with
  | then_ a b =>
    obtain ⟨_, ms, d, ⟨⟩, ha, hb⟩ := read_then hr
    exact .then_ ha hb
  | or_ a b =>
    obtain ⟨_, ⟨⟩, ha | hb⟩ := read_or hr
    · exact .left ha
    · exact .right hb
  | many a =>
    obtain ⟨_, ⟨⟩, ⟨rfl, rfl⟩ | ⟨ms, d, ha, hmore⟩⟩ := read_many hr
    · exact .enough
    · exact .more ha hmore
  | call r => exact .call hr
  | fresh a =>
    obtain ⟨_, ms, ⟨⟩, ha, rfl⟩ := read_fresh hr
    exact .fresh ha
  | within e a => exact .within hr
  | tag r =>
    obtain ⟨n, rest, rfl, rfl, rfl⟩ := read_tag hr
    exact .tag
  | pack k =>
    obtain ⟨rfl, rfl⟩ := read_pack hr
    exact .pack
  | packMany k =>
    simp only [read, Option.some.injEq, Prod.mk.injEq] at hr
    obtain ⟨rfl, rfl⟩ := hr
    split
    · exact .packMany
    · exact .single
  | target =>
    obtain ⟨ms, hms, heq⟩ := Option.map_eq_some_iff.1 hr
    cases heq
    exact .target hms
  | tok | glued | ident | number | emptyBlock | stringOpen | stringClose | braceOpen
  | conversion => exact leaf (by simp [tokenKinds])
  | done | latest | ahead | unless_ | settle | boundary | newline | indent | dedent | stringText
  | formatText | endOfText => exact still rfl

end Gram

structure Enclosure (ρ : Type) where
  outer : Kind → Bool
  inner : Kind → Bool
  rules : List ρ
  closing : List ρ := []
  roles : List Role := []

theorem asTarget?_kind {n n' : Node} (h : n.asTarget? = some n') :
    n'.kind = n.kind ∨ n'.kind ∈ targetPatterns := by
  cases n
  obtain rfl | ⟨k', cs', hk, rfl, -⟩ := asTarget?_eq h
  · exact .inl rfl
  · exact .inr (mem_targetPatterns hk)

theorem targets?_kinds {ok : Kind → Bool} (hok : ∀ k ∈ targetPatterns, ok k = true)
    {ns ns' : List Node} (h : targets? ns = some ns') (hns : ∀ n ∈ ns, ok n.kind = true) :
    ∀ n ∈ ns', ok n.kind = true := by
  intro n' hn'
  obtain ⟨n, hn, htarget⟩ := exists_of_mem_targets? h n' hn'
  obtain hk | hk := asTarget?_kind htarget
  · exact hk ▸ hns n hn
  · exact hok _ hk

namespace Gram

variable {ρ : Type}

def closes (ok : Kind → Bool) : Gram ρ → Bool
  | pack k => ok k
  | then_ _ b => closes ok b
  | or_ a b => closes ok a && closes ok b
  | within _ a => closes ok a
  | _ => false

def tops [DecidableEq ρ] (E : Enclosure ρ) : Gram ρ → Bool
  | then_ a b => closes E.inner b || (tops E a && tops E b)
  | or_ a b => tops E a && tops E b
  | many a | fresh a | within _ a => tops E a
  | call r => E.rules.contains r
  | tag _ => true
  | pack k | packMany k => E.inner k
  | target => targetPatterns.all E.inner
  | g => g.isSilent || (!g.tokenKinds.isEmpty && g.tokenKinds.all E.inner)

def regular [DecidableEq ρ] (E : Enclosure ρ) : Bool → Gram ρ → Bool
  | known, then_ a b =>
    match a, b with
    | then_ (then_ (tag .object) (tok t)) (then_ (ident _) (tag .attribute)), pack .attribute =>
      (!E.outer .attribute && E.roles.isEmpty) ||
        (known && E.inner (.mark t) && E.inner .identifier)
    | _, _ => regular E known a && regular E (known && a.tops E) b
  | known, or_ a b => regular E known a && regular E known b
  | known, many a => regular E (known && a.tops E) a
  | known, within _ a => regular E known a
  | _, fresh a => regular E true a
  | known, tag r => r != .attribute && (known || !E.roles.contains r)
  | known, call r => known || !E.closing.contains r
  | known, pack k | known, packMany k =>
    k != .identifier && k != .attribute && (known || !E.outer k)
  | _, _ => true

end Gram

namespace Gram

variable {ρ : Type} {rules : ρ → Gram ρ} {fuel : Nat} {g : Gram ρ}
  {follow : Expect} {ns ns' : List Node} {c c' : Cursor} {text : List Char}

theorem read_closes {ok : Kind → Bool} (hg : g.closes ok = true) {lo : Nat}
    (hc : Progress.Sound text lo ns c) (hr : g.read rules fuel follow ns c = some (ns', c')) :
    ∀ n ∈ ns', ok n.kind = true := by
  induction fuel generalizing g follow lo ns ns' c c' with
  | zero => cases hr
  | succ fuel ih =>
    cases reading_of_read hc.cursor hr with
    | @then_ _ b _ _ _ _ _ _ ha hb =>
      have hg : b.closes ok = true := hg
      exact ih hg (read_sound rules hc ha).1 hb
    | left ha => exact ih (Bool.and_eq_true_iff.1 hg).1 hc ha
    | right hb => exact ih (Bool.and_eq_true_iff.1 hg).2 hc hb
    | @within _ a _ _ _ _ ha =>
      have hg : a.closes ok = true := hg
      exact ih hg hc ha
    | pack =>
      intro n hn
      obtain rfl := List.mem_singleton.1 hn
      exact hg
    | silent hs => cases g <;> first | cases hg | cases hs
    | token _ hk => cases g <;> first | cases hg | cases hk
    | more | enough | call | fresh | tag | packMany | single | target => cases hg

theorem inner_of_tops [DecidableEq ρ] {E : Enclosure ρ} {k : Kind} (hg : g.tops E = true)
    (hk : k ∈ g.tokenKinds) : E.inner k = true := by
  suffices hall : g.tokenKinds.all E.inner = true from List.all_eq_true.1 hall k hk
  cases g with
  | tok | glued | ident | number | emptyBlock | stringOpen | stringClose | braceOpen
  | conversion =>
    obtain hg | hg := Bool.or_eq_true_iff.1 hg
    · cases hg
    · exact (Bool.and_eq_true_iff.1 hg).2
  | done | then_ | or_ | many | call | fresh | tag | pack | packMany | target | latest | ahead
  | unless_ | settle | boundary | within | newline | indent | dedent | stringText | formatText
  | endOfText => rfl

theorem read_tops [DecidableEq ρ] {E : Enclosure ρ} (hE : ∀ r ∈ E.rules, (rules r).tops E = true)
    (hg : g.tops E = true) {lo : Nat} (hc : Progress.Sound text lo ns c)
    (h : ∀ n ∈ ns, E.inner n.kind = true)
    (hr : g.read rules fuel follow ns c = some (ns', c')) : ∀ n ∈ ns', E.inner n.kind = true := by
  induction fuel generalizing g follow lo ns ns' c c' with
  | zero => cases hr
  | succ fuel ih =>
    cases reading_of_read hc.cursor hr with
    | then_ ha hb =>
      have hd := (read_sound rules hc ha).1
      obtain hg | hg := Bool.or_eq_true_iff.1 hg
      · exact read_closes hg hd hb
      · obtain ⟨hga, hgb⟩ := Bool.and_eq_true_iff.1 hg
        exact ih hgb hd (ih hga hc h ha) hb
    | left ha => exact ih (Bool.and_eq_true_iff.1 hg).1 hc h ha
    | right hb => exact ih (Bool.and_eq_true_iff.1 hg).2 hc h hb
    | @more a _ _ _ _ _ _ ha hmore =>
      have hga : a.tops E = true := hg
      exact ih hg (read_sound rules hc ha).1 (ih hga hc h ha) hmore
    | call hr => exact ih (hE _ (List.contains_iff_mem.1 hg)) hc h hr
    | @fresh a _ _ _ _ ha =>
      have hga : a.tops E = true := hg
      exact List.forall_mem_append.2 ⟨ih hga (Progress.sound_nil hc.cursor) (by simp) ha, h⟩
    | @within _ a _ _ _ _ ha =>
      have hga : a.tops E = true := hg
      exact ih hga hc h ha
    | tag =>
      obtain ⟨hn, hns⟩ := List.forall_mem_cons.1 h
      exact List.forall_mem_cons.2 ⟨hn, hns⟩
    | pack | packMany =>
      intro n hn
      obtain rfl := List.mem_singleton.1 hn
      exact hg
    | target hns => exact targets?_kinds (List.all_eq_true.1 hg) hns h
    | token ha hk hw => exact List.forall_mem_cons.2 ⟨inner_of_tops hg hk, h⟩
    | silent | enough | single => exact h

end Gram

def Enclosure.KeepsTargets {ρ : Type} (E : Enclosure ρ) : Prop :=
  (E.roles ≠ [] → ∀ p ∈ targetPatterns, E.inner p = true) ∧
    ∀ k ∈ [(Kind.listSplat, Kind.listSplatPattern), (.tuple, .tuplePattern),
      (.parenthesizedExpression, .tuplePattern), (.listDisplay, .listPattern),
      (.expressionList, .patternList)], E.outer k.2 = true → E.outer k.1 = true ∧
        ∀ p ∈ targetPatterns, E.inner p = true

instance {ρ : Type} (E : Enclosure ρ) : Decidable E.KeepsTargets :=
  inferInstanceAs (Decidable (_ ∧ _))

structure Enclosure.Lawful {ρ : Type} [DecidableEq ρ] (E : Enclosure ρ) (rules : ρ → Gram ρ) :
    Prop where
  tops : ∀ r ∈ E.rules, (rules r).tops E = true
  regular : ∀ r, (rules r).regular E (E.closing.contains r) = true
  targets : E.KeepsTargets
  extras : E.inner .comment = true ∧ E.inner .lineContinuation = true

def Node.Suits {ρ : Type} (E : Enclosure ρ) (n : Node) : Prop :=
  ∀ r ∈ E.roles, n.role = some r → E.inner n.kind = true

structure Node.Shaped {ρ : Type} (E : Enclosure ρ) (text : List Char) (n : Node) : Prop where
  word : n.kind = .identifier → n.children = [] ∧ IsWord (Text.between n.start n.stop text)
  field : n.kind = .attribute → ∀ a ∈ n.children, a.role = some .attribute →
    a.kind = .identifier ∧ ∀ c ∈ n.children, c.role ≠ none → c.stop ≤ a.stop
  inner : E.outer n.kind = true → ∀ c ∈ n.children, E.inner c.kind = true
  suits : ∀ c ∈ n.children, c.Suits E

structure Node.Ready {ρ : Type} (E : Enclosure ρ) (text : List Char) (n : Node) : Prop where
  shaped : n.All (Shaped E text)
  role : n.role ≠ some .attribute
  suits : n.Suits E

section Shaped

variable {ρ : Type} {E : Enclosure ρ} {text : List Char}

theorem Node.all_shaped_withRole {n : Node} {r : Role} (h : n.All (Shaped E text)) :
    (n.withRole r).All (Shaped E text) :=
  (all_iff _).2 ⟨⟨h.self.word, h.self.field, h.self.inner, h.self.suits⟩, fun _ hc => h.child hc⟩

theorem Node.suits_withRole {n : Node} {r : Role} (h : r ∈ E.roles → E.inner n.kind = true) :
    (n.withRole r).Suits E := by
  rintro r' hr' heq
  cases heq
  exact h hr'

theorem Node.suits_of_role_eq_none {n : Node} (h : n.role = none) : n.Suits E := by
  intro r _ hr
  rw [h] at hr
  cases hr

theorem Node.Ready.withRole {n : Node} {r : Role} (h : n.Ready E text) (hr : r ≠ .attribute)
    (hin : r ∈ E.roles → E.inner n.kind = true) : (n.withRole r).Ready E text :=
  ⟨all_shaped_withRole h.shaped, by simpa [Node.withRole, Node.role] using hr, suits_withRole hin⟩

theorem Node.ready_spanning {k : Kind} {here : Nat} {ns : List Node} (hk : k ≠ .identifier)
    (hka : k ≠ .attribute) (hin : E.outer k = true → ∀ n ∈ ns, E.inner n.kind = true)
    (h : ∀ n ∈ ns, n.Ready E text) : (spanning k here ns.reverse).Ready E text := by
  refine ⟨all_mk_iff.2 ⟨⟨fun h => absurd h hk, fun h => absurd h hka, fun ho m hm => ?_,
    fun m hm => ?_⟩, ?_⟩, by simp [spanning, Node.role], suits_of_role_eq_none rfl⟩
  · exact hin ho m (List.mem_reverse.1 hm)
  · exact (h m (List.mem_reverse.1 hm)).suits
  · exact fun m hm => (h m (List.mem_reverse.1 hm)).shaped

theorem Node.ready_leaf {c : Cursor} {k : Kind} {w : Nat} (hc : c.Sound text)
    (hw : k = .identifier → IsWord (c.rest.take w)) : (c.leaf k w).Ready E text := by
  refine ⟨all_mk_iff.2 ⟨⟨fun hk => ⟨rfl, ?_⟩, fun _ => by simp [children],
    fun _ => by simp [children], by simp [children]⟩, by simp⟩, by simp [Cursor.leaf, Node.role],
    suits_of_role_eq_none rfl⟩
  obtain ⟨passed, ht, hp⟩ := hc.position
  have hb := Text.between_byteWidth passed (c.rest.take w) (c.rest.drop w)
  rw [List.take_append_drop, ← ht, ← hp] at hb
  exact hb.symm ▸ hw hk

theorem Node.ready_attribute {lo here : Nat} {ns : List Node} {c : Cursor} {i m o : Node}
    (hE : E.outer .attribute = true ∨ E.roles ≠ [] →
      ∀ n ∈ i :: m :: o :: ns, E.inner n.kind = true)
    (hs : Progress.Sound text lo (i.withRole .attribute :: m :: o.withRole .object :: ns) c)
    (hi : i.Ready E text) (hik : i.kind = .identifier) (hm : m.Ready E text)
    (ho : o.Ready E text) (h : ∀ n ∈ ns, n.Ready E text) :
    (spanning .attribute here
      (i.withRole .attribute :: m :: o.withRole .object :: ns).reverse).Ready E text := by
  have hall : ∀ n ∈ i.withRole .attribute :: m :: o.withRole .object :: ns,
      n.All (Shaped E text) := by
    refine List.forall_mem_cons.2 ⟨all_shaped_withRole hi.shaped, List.forall_mem_cons.2
      ⟨hm.shaped, List.forall_mem_cons.2 ⟨all_shaped_withRole ho.shaped, fun n hn => ?_⟩⟩⟩
    exact (h n hn).shaped
  have hin (h : E.outer .attribute = true ∨ E.roles ≠ []) :
      ∀ d ∈ (i.withRole .attribute :: m :: o.withRole .object :: ns).reverse,
        E.inner d.kind = true := by
    have hinner := hE h
    simp only [List.mem_cons, forall_eq_or_imp] at hinner
    obtain ⟨hi, hm, ho, hns⟩ := hinner
    intro d hd
    obtain rfl | hd := List.mem_cons.1 (List.mem_reverse.1 hd)
    · exact hi
    · obtain rfl | hd := List.mem_cons.1 hd
      · exact hm
      · obtain rfl | hd := List.mem_cons.1 hd
        · exact ho
        · exact hns d hd
  refine ⟨all_mk_iff.2 ⟨⟨fun h => ?_, fun _ a ha hrole => ?_, fun h => hin (.inl h),
    fun d hd r hr _ => hin (.inr (List.ne_nil_of_mem hr)) d hd⟩, ?_⟩,
    by simp [spanning, Node.role], suits_of_role_eq_none rfl⟩
  · cases h
  · have hfirst : a = i.withRole .attribute := by
      obtain rfl | ha := List.mem_cons.1 (List.mem_reverse.1 ha)
      · rfl
      · obtain rfl | ha := List.mem_cons.1 ha
        · exact absurd hrole hm.role
        · obtain rfl | ha := List.mem_cons.1 ha
          · cases hrole
          · exact absurd hrole (h a ha).role
    rw [hfirst]
    refine ⟨hik, fun d hd _ => ?_⟩
    obtain rfl | hd := List.mem_cons.1 (List.mem_reverse.1 hd)
    · exact Nat.le_refl _
    · have hlt := (List.pairwise_cons.1 hs.ordered).1 d hd
      exact Nat.le_trans hlt (hs.placed _ (by simp)).self.start_le_stop
  · exact fun n hn => hall n (List.mem_reverse.1 hn)

theorem asTarget?_role {n n' : Node} (h : n.asTarget? = some n') : n'.role = n.role := by
  cases n
  obtain rfl | ⟨k', cs', -, rfl, -⟩ := asTarget?_eq h <;> rfl

theorem asTarget?_suits (hE : E.KeepsTargets) {n n' : Node} (h : n.asTarget? = some n')
    (hn : n.Suits E) : n'.Suits E := by
  intro r hr heq
  rw [asTarget?_role h] at heq
  obtain hk | hk := asTarget?_kind h
  · rw [hk]
    exact hn r hr heq
  · exact hE.1 (List.ne_nil_of_mem hr) _ hk

mutual

theorem asTarget?_shaped (hE : E.KeepsTargets) :
    ∀ (n n' : Node), n.asTarget? = some n' → n.All (Node.Shaped E text) →
      n'.All (Node.Shaped E text)
  | .mk r k s cs, n', h, ha => by
    obtain rfl | ⟨k', cs', hk, rfl, hcs⟩ := asTarget?_eq h
    · exact ha
    have hpattern := mem_targetPatterns hk
    have keeps (ho : E.outer k' = true) : E.outer k = true ∧ ∀ p ∈ targetPatterns, E.inner p = true :=
      hE.2 (k, k') hk ho
    have hsuits : ∀ c ∈ cs', c.Suits E := by
      obtain rfl | hcs := hcs
      · exact ha.self.suits
      · intro c' hc'
        obtain ⟨c, hc, htarget⟩ := exists_of_mem_targets? hcs c' hc'
        exact asTarget?_suits hE htarget (ha.self.suits c hc)
    have hinner (ho : E.outer k' = true) : ∀ c ∈ cs', E.inner c.kind = true := by
      obtain rfl | hcs := hcs
      · exact ha.self.inner (keeps ho).1
      · exact targets?_kinds (keeps ho).2 hcs (ha.self.inner (keeps ho).1)
    refine Node.all_mk_iff.2 ⟨⟨?_, ?_, hinner, hsuits⟩, ?_⟩
    · rintro rfl
      simp [targetPatterns] at hpattern
    · rintro rfl
      simp [targetPatterns] at hpattern
    · obtain rfl | hcs := hcs
      · exact fun c hc => ha.child hc
      · exact targets?_shaped hE cs cs' hcs fun c hc => ha.child hc

theorem targets?_shaped (hE : E.KeepsTargets) :
    ∀ (ns ns' : List Node), targets? ns = some ns' → (∀ n ∈ ns, n.All (Node.Shaped E text)) →
      ∀ n ∈ ns', n.All (Node.Shaped E text)
  | [], ns', h, _ => by
    cases h
    simp
  | n :: ns, ns', h, ha => by
    obtain ⟨d, ds, hd, hds, rfl⟩ := targets?_cons h
    obtain ⟨hn, hns⟩ := List.forall_mem_cons.1 ha
    exact List.forall_mem_cons.2 ⟨asTarget?_shaped hE n d hd hn, targets?_shaped hE ns ds hds hns⟩

end

theorem targets?_ready (hE : E.KeepsTargets) {ns ns' : List Node}
    (h : targets? ns = some ns') (ha : ∀ n ∈ ns, n.Ready E text) : ∀ n ∈ ns', n.Ready E text := by
  intro n' hn'
  obtain ⟨n, hn, htarget⟩ := exists_of_mem_targets? h n' hn'
  exact ⟨asTarget?_shaped hE n n' htarget (ha n hn).shaped,
    asTarget?_role htarget ▸ (ha n hn).role, asTarget?_suits hE htarget (ha n hn).suits⟩

end Shaped

section ReadShaped

variable {ρ : Type} [DecidableEq ρ] {rules : ρ → Gram ρ} {E : Enclosure ρ} {text : List Char}
  {fuel : Nat} {follow : Expect} {lo : Nat} {ns ns' : List Node} {c c' : Cursor}

omit [DecidableEq ρ] in
theorem Gram.exists_of_read_attribute {t : String} {rs : List String}
    (hc : Progress.Sound text lo ns c)
    (hr : (then_ (then_ (then_ (tag .object) (tok t)) (then_ (ident rs) (tag .attribute)))
      (pack .attribute)).read rules fuel follow ns c = some (ns', c')) :
    ∃ (o : Node) (rest : List Node) (a b : Cursor) (v w : Nat), a.Sound text ∧ b.Sound text ∧
      IsWord (b.rest.take w) ∧ ns = o :: rest ∧
      Progress.Sound text lo
        ((b.leaf .identifier w).withRole .attribute :: a.leaf (.mark t) v ::
          o.withRole .object :: rest) c' ∧
      ns' = [Node.spanning .attribute c'.pos
        ((b.leaf .identifier w).withRole .attribute :: a.leaf (.mark t) v ::
          o.withRole .object :: rest).reverse] := by
  obtain ⟨_, ms, d, -, hr, hpack⟩ := read_then hr
  obtain ⟨_, ms₁, d₁, -, hr, hfield⟩ := read_then hr
  obtain ⟨_, ms₂, d₂, -, hobject, htok⟩ := read_then hr
  obtain ⟨_, ms₃, d₃, -, hident, htag⟩ := read_then hfield
  obtain ⟨o, rest, rfl, rfl, rfl⟩ := read_tag hobject
  have hc₁ := (read_sound rules (hc.tag .object) htok).1
  have hc₂ := (read_sound rules hc₁ hident).1
  obtain ⟨a, _, v, hsa, rfl, hk, -⟩ := read_token (by simp [tokenKinds]) hc.cursor htok
  obtain rfl := List.mem_singleton.1 hk
  obtain ⟨b, _, w, hsb, rfl, hk, hw⟩ := read_token (by simp [tokenKinds]) hc₁.cursor hident
  obtain rfl := List.mem_singleton.1 hk
  obtain ⟨_, _, heq, rfl, rfl⟩ := read_tag htag
  cases heq
  obtain ⟨rfl, rfl⟩ := read_pack hpack
  exact ⟨o, rest, a, b, v, w, hsa, hsb, hw rfl, rfl, hc₂.tag .attribute, rfl⟩

omit [DecidableEq ρ] in
theorem Gram.read_attribute {t : String} {rs : List String}
    (hE : E.outer .attribute = true ∨ E.roles ≠ [] → (∀ n ∈ ns, E.inner n.kind = true) ∧
      E.inner (.mark t) = true ∧ E.inner .identifier = true)
    (hc : Progress.Sound text lo ns c) (h : ∀ n ∈ ns, n.Ready E text)
    (hr : (then_ (then_ (then_ (tag .object) (tok t)) (then_ (ident rs) (tag .attribute)))
      (pack .attribute)).read rules fuel follow ns c = some (ns', c')) :
    ∀ n ∈ ns', n.Ready E text := by
  obtain ⟨o, rest, a, b, v, w, ha, hb, hw, rfl, hs, rfl⟩ := exists_of_read_attribute hc hr
  obtain ⟨ho, hrest⟩ := List.forall_mem_cons.1 h
  intro n hn
  obtain rfl := List.mem_singleton.1 hn
  refine Node.ready_attribute (fun houter => ?_) hs (Node.ready_leaf hb fun _ => hw) rfl
    (Node.ready_leaf ha (by rintro ⟨⟩)) ho hrest
  obtain ⟨hin, hdot, hname⟩ := hE houter
  exact List.forall_mem_cons.2 ⟨hname, List.forall_mem_cons.2 ⟨hdot, hin⟩⟩

theorem Gram.read_ready {g : Gram ρ} {known : Bool} (hE : E.Lawful rules)
    (hg : g.regular E known = true) (hc : Progress.Sound text lo ns c)
    (hk : known = true → ∀ n ∈ ns, E.inner n.kind = true) (h : ∀ n ∈ ns, n.Ready E text)
    (hr : g.read rules fuel follow ns c = some (ns', c')) : ∀ n ∈ ns', n.Ready E text := by
  have packed {ns : List Node} {c : Cursor} {k : Kind} {known : Bool}
      (hk : known = true → ∀ n ∈ ns, E.inner n.kind = true) (h : ∀ n ∈ ns, n.Ready E text)
      (hg : (k != .identifier && k != .attribute && (known || !E.outer k)) = true) :
      ∀ n ∈ [Node.spanning k c.pos ns.reverse], n.Ready E text := by
    intro n hn
    obtain rfl := List.mem_singleton.1 hn
    obtain ⟨hne, hor⟩ := Bool.and_eq_true_iff.1 hg
    obtain ⟨hword, hattribute⟩ := Bool.and_eq_true_iff.1 hne
    refine Node.ready_spanning (bne_iff_ne.1 hword) (bne_iff_ne.1 hattribute) (fun ho => ?_) h
    rw [ho, Bool.not_true, Bool.or_false] at hor
    exact hk hor
  have onward {a : Gram ρ} {known : Bool} {fuel : Nat} {follow : Expect} {lo : Nat}
      {ns ms : List Node} {c d : Cursor} (hc : Progress.Sound text lo ns c)
      (hk : known = true → ∀ n ∈ ns, E.inner n.kind = true)
      (ha : a.read rules fuel follow ns c = some (ms, d)) :
      (known && a.tops E) = true → ∀ n ∈ ms, E.inner n.kind = true := by
    intro hka
    obtain ⟨hkn, hta⟩ := Bool.and_eq_true_iff.1 hka
    exact read_tops hE.tops hta hc (hk hkn) ha
  induction fuel generalizing g known follow lo ns ns' c c' with
  | zero => cases hr
  | succ fuel ih =>
    cases reading_of_read hc.cursor hr with
    | then_ ha hb =>
      unfold regular at hg
      split at hg
      · refine read_attribute (fun houter => ?_) hc h hr
        obtain hg | hg := Bool.or_eq_true_iff.1 hg
        · simp only [Bool.and_eq_true, Bool.not_eq_true', List.isEmpty_iff] at hg
          simp [hg] at houter
        · rw [Bool.and_eq_true, Bool.and_eq_true] at hg
          exact ⟨hk hg.1.1, hg.1.2, hg.2⟩
      · obtain ⟨hga, hgb⟩ := Bool.and_eq_true_iff.1 hg
        exact ih hgb (read_sound rules hc ha).1 (onward hc hk ha) (ih hga hc hk h ha) hb
    | left ha => exact ih (Bool.and_eq_true_iff.1 hg).1 hc hk h ha
    | right hb => exact ih (Bool.and_eq_true_iff.1 hg).2 hc hk h hb
    | @more a _ _ _ _ _ _ ha hmore =>
      have hga : a.regular E (known && a.tops E) = true := hg
      have hgm : (many a).regular E (known && a.tops E) = true := by
        simpa only [regular, Bool.and_assoc, Bool.and_self] using hga
      have hk' : (known && a.tops E) = true → ∀ n ∈ ns, E.inner n.kind = true :=
        fun hka => hk (Bool.and_eq_true_iff.1 hka).1
      exact ih hgm (read_sound rules hc ha).1 (onward hc hk ha) (ih hga hc hk' h ha) hmore
    | @call r _ _ _ _ hr =>
      refine ih (hE.regular r) hc (fun hclosing => hk ?_) h hr
      have hg : (known || !E.closing.contains r) = true := hg
      rwa [hclosing, Bool.not_true, Bool.or_false] at hg
    | @fresh a _ _ _ _ ha =>
      have hga : a.regular E true = true := hg
      exact List.forall_mem_append.2
        ⟨ih hga (Progress.sound_nil hc.cursor) (by simp) (by simp) ha, h⟩
    | @within _ a _ _ _ _ ha =>
      have hga : a.regular E known = true := hg
      exact ih hga hc hk h ha
    | tag =>
      obtain ⟨hn, hns⟩ := List.forall_mem_cons.1 h
      obtain ⟨hr, hknown⟩ := Bool.and_eq_true_iff.1 hg
      refine List.forall_mem_cons.2 ⟨hn.withRole (bne_iff_ne.1 hr) fun hmem => ?_, hns⟩
      rw [List.contains_iff_mem.2 hmem, Bool.not_true, Bool.or_false] at hknown
      exact hk hknown _ (by simp)
    | pack | packMany => exact packed hk h hg
    | target hns => exact targets?_ready hE.targets hns h
    | token ha _ hw => exact List.forall_mem_cons.2 ⟨Node.ready_leaf ha hw, h⟩
    | silent | enough | single => exact h

end ReadShaped

section Weave

variable {ρ : Type} {E : Enclosure ρ} {text : List Char}

theorem Node.kind_weave (n : Node) (es : List Node) :
    (n.weave es).kind = n.kind ∧ (n.weave es).role = n.role := by
  obtain ⟨r, k, s, cs⟩ := n
  unfold Node.weave
  exact ⟨rfl, rfl⟩

theorem Node.IsExtra.shaped {e : Node} (h : e.IsExtra text) : e.Shaped E text := by
  refine ⟨fun hk => ?_, fun _ a ha => ?_, fun _ c hc => ?_, fun c hc => ?_⟩
  · obtain h | h := h.kind <;> simp [hk] at h
  · simp [h.children] at ha
  · simp [h.children] at hc
  · simp [h.children] at hc

theorem mem_weaveAll {cs es : List Node} {m : Node} (hm : m ∈ weaveAll cs es) :
    m ∈ es ∨ ∃ c ∈ cs, m.kind = c.kind ∧ m.role = c.role ∧ m.span = c.span := by
  induction cs generalizing es with
  | nil =>
    unfold weaveAll at hm
    exact .inl hm
  | cons c cs ih =>
    unfold weaveAll at hm
    obtain hm | hm := List.mem_append.1 hm
    · exact .inl ((List.takeWhile_sublist _).subset hm)
    · obtain rfl | hm := List.mem_cons.1 hm
      · exact .inr ⟨c, by simp, (c.kind_weave _).1, (c.kind_weave _).2, c.span_weave _⟩
      · obtain hm | ⟨d, hd, hk⟩ := ih hm
        · exact .inl ((List.dropWhile_sublist _).subset hm)
        · exact .inr ⟨d, by simp [hd], hk⟩

theorem Node.Shaped.weave {r : Option Role} {k : Kind} {s s' : Span} {cs es : List Node}
    (hE : E.inner .comment = true ∧ E.inner .lineContinuation = true)
    (h : (Node.mk r k s cs).Shaped E text) (hes : ∀ e ∈ es, e.IsExtra text)
    (hleaf : k = .identifier → s' = s ∧ es = []) :
    (Node.mk r k s' (weaveAll cs es)).Shaped E text := by
  have old {m : Node} (hm : m ∈ weaveAll cs es) (hrole : m.role ≠ none) :
      ∃ c ∈ cs, m.kind = c.kind ∧ m.role = c.role ∧ m.span = c.span := by
    obtain he | hc := mem_weaveAll hm
    · exact absurd (hes m he).role hrole
    · exact hc
  refine ⟨fun hk => ?_, fun hk a ha hr => ?_, fun ho m hm => ?_, fun m hm r' hr' hrole => ?_⟩
  · obtain ⟨rfl, rfl⟩ := hleaf hk
    obtain ⟨rfl, hw⟩ := h.word hk
    unfold weaveAll
    exact ⟨rfl, hw⟩
  · obtain ⟨a', ha', hkind, hrole, hspan⟩ := old ha (by simp [hr])
    obtain ⟨hword, hlast⟩ := h.field hk a' ha' (hrole ▸ hr)
    refine ⟨hkind.trans hword, fun c hc hcr => ?_⟩
    obtain ⟨c', hc', -, hrole', hspan'⟩ := old hc hcr
    have := hlast c' hc' (hrole' ▸ hcr)
    rwa [Node.stop, Node.stop, hspan, hspan']
  · obtain he | ⟨c, hc, hkind, -⟩ := mem_weaveAll hm
    · obtain hk | hk := (hes m he).kind <;> rw [hk]
      · exact hE.1
      · exact hE.2
    · rw [hkind]
      exact h.inner ho c hc
  · obtain ⟨c, hc, hkind, hrole', -⟩ := old hm (by simp [hrole])
    rw [hkind]
    exact h.suits c hc r' hr' (hrole' ▸ hrole)

mutual

theorem Node.weave_shaped (hE : E.inner .comment = true ∧ E.inner .lineContinuation = true) :
    ∀ {n : Node} {es : List Node}, n.Placed text → n.All (Node.Shaped E text) →
      Extras text n.start n.stop es → (∀ e ∈ es, n.ClearOf e) →
      (n.weave es).All (Node.Shaped E text)
  | .mk r k s cs, es, hn, ha, hes, hclear => by
    unfold Node.weave
    refine Node.all_mk_iff.2 ⟨ha.self.weave hE hes.isExtra fun hk => ⟨rfl, ?_⟩,
      weaveAll_shaped hE (fun c hc => hn.child hc) (fun c hc => ha.child hc) hn.self.ordered hes
        fun e he c hc => (hclear e he).child hc⟩
    refine List.eq_nil_iff_forall_not_mem.2 fun e he => ?_
    have hb := hes.bounds e he
    have hlt := (hes.isExtra e he).start_lt_stop
    obtain h | h | ⟨-, -, h⟩ := (hclear e he).self
    · omega
    · omega
    · exact h (ha.self.word hk).1

theorem weaveAll_shaped (hE : E.inner .comment = true ∧ E.inner .lineContinuation = true)
    {lo hi : Nat} :
    ∀ {cs es : List Node}, (∀ c ∈ cs, c.Placed text) → (∀ c ∈ cs, c.All (Node.Shaped E text)) →
      cs.Pairwise (fun a b => a.stop ≤ b.start) → Extras text lo hi es →
      (∀ e ∈ es, ∀ c ∈ cs, c.ClearOf e) → ∀ m ∈ weaveAll cs es, m.All (Node.Shaped E text)
  | [], es, _, _, _, hes, _ => by
    unfold weaveAll
    intro m hm
    have hx := hes.isExtra m hm
    exact (Node.all_iff m).2 ⟨hx.shaped, by simp [hx.children]⟩
  | c :: cs, es, hp, ha, ho, hes, hclear => by
    obtain ⟨hc, hcs⟩ := List.forall_mem_cons.1 hp
    obtain ⟨hac, hacs⟩ := List.forall_mem_cons.1 ha
    obtain ⟨-, ho⟩ := List.pairwise_cons.1 ho
    obtain ⟨hfront, hinner, hback⟩ :=
      hes.around hc.self.start_le_stop fun e he => (hclear e he c (by simp)).self
    unfold weaveAll
    refine List.forall_mem_append.2 ⟨fun m hm => ?_, List.forall_mem_cons.2 ⟨?_, ?_⟩⟩
    · have hx := hfront.isExtra m hm
      exact (Node.all_iff m).2 ⟨hx.shaped, by simp [hx.children]⟩
    · exact Node.weave_shaped hE hc hac hinner fun e he =>
        hclear e (mem_of_mem_inner he) c (by simp)
    · exact weaveAll_shaped hE hcs hacs ho hback fun e he d hd =>
        hclear e ((List.dropWhile_sublist _).subset he) d (by simp [hd])

end

end Weave

theorem kind_of_read_module {source : String} {fuel : Nat} {n : Node} {c : Cursor}
    (hr : (Gram.call Rule.module).read Rule.phrase fuel .token [] (.ofText source.toList) =
      some ([n], c)) : n.kind = .module := by
  have hk := Gram.read_tops (E := ⟨fun _ => false, (· == .module), [.module], [], []⟩)
    (by decide) (by decide) (Progress.sound_nil (Cursor.sound_ofText source.toList)) (by simp) hr n
    (by simp)
  exact beq_iff_eq.1 hk

theorem parse?_kind {source : String} {root : Node} (h : parse? source = some root) :
    root.kind = .module := by
  obtain ⟨n, c, hr, rfl, -⟩ := parse?_woven h
  exact (kind_of_read_module hr : n.kind = .module)

theorem parse?_shaped {E : Enclosure Rule} (hE : E.Lawful Rule.phrase) {source : String}
    {root : Node} (h : parse? source = some root) : root.All (Node.Shaped E source.toList) := by
  obtain ⟨n, c, hr, rfl, hrow, hextras, hclear⟩ := parse?_woven h
  have hregular : Gram.regular E true (.call Rule.module) = true := rfl
  have hn := (Gram.read_ready hE hregular
    (Progress.sound_nil (Cursor.sound_ofText source.toList)) (by simp) (by simp) hr n
    (by simp)).shaped
  have hk := kind_of_read_module hr
  refine Node.all_mk_iff.2 ⟨?_, weaveAll_shaped hE.extras hrow.placed (fun m hm => hn.child hm)
    hrow.ordered hextras hclear⟩
  obtain ⟨r, k, s, cs⟩ := n
  refine hn.self.weave hE.extras hextras.isExtra fun hk' => ?_
  rw [show k = .module from hk] at hk'
  cases hk'

instance (p : Rule → Prop) [DecidablePred p] : Decidable (∀ r, p r) :=
  decidable_of_iff (∀ i < 81, p (.ofNat i))
    ⟨fun h r => Rule.ofNat_ctorIdx r ▸ h r.ctorIdx (by cases r <;> decide), fun h _ _ => h _⟩

def Kind.isImport (k : Kind) : Bool :=
  k == .importStatement || k == .importFromStatement

def Kind.isImportPart : Kind → Bool
  | .dottedName | .aliasedImport | .relativeImport | .importPrefix | .wildcardImport | .identifier
  | .comment | .lineContinuation | .mark _ => true
  | _ => false

def importEnclosure : Enclosure Rule where
  outer k := k.isImport || k.isImportPart
  inner := Kind.isImportPart
  rules := [.importList, .importItem, .importTail, .dottedName]

theorem importEnclosure_lawful : importEnclosure.Lawful Rule.phrase where
  tops := by decide +kernel
  regular := by decide +kernel
  targets := by decide
  extras := by decide

def classEnclosure : Enclosure Rule where
  outer k := k == .classDefinition
  inner k := k != .attribute
  rules := [.typeParameter, .arguments, .suite]

theorem classEnclosure_lawful : classEnclosure.Lawful Rule.phrase where
  tops := by decide +kernel
  regular := by decide +kernel
  targets := by decide
  extras := by decide

def Kind.isStatement : Kind → Bool
  | .module | .block | .importStatement | .futureImportStatement | .importFromStatement
  | .printStatement | .assertStatement | .expressionStatement | .returnStatement | .deleteStatement
  | .raiseStatement | .passStatement | .breakStatement | .continueStatement | .globalStatement
  | .nonlocalStatement | .execStatement | .typeAliasStatement | .ifStatement | .elifClause
  | .elseClause | .matchStatement | .caseClause | .forStatement | .whileStatement | .tryStatement
  | .exceptClause | .exceptGroupClause | .finallyClause | .withStatement | .functionDefinition
  | .classDefinition | .decoratedDefinition => true
  | _ => false

def expressionEnclosure : Enclosure Rule where
  outer k := !k.isStatement
  inner k := !k.isStatement
  rules := [.importList, .importItem, .importTail, .dottedName, .expressionItems, .expressions,
    .assignTail, .rightSide, .yieldExpr, .expression, .lambdaExpr, .conditional, .aliased,
    .disjunction, .conjunction, .negation, .operand, .named, .comparison, .bitOr, .bitAnd, .bitXor,
    .shift, .sum, .product, .unary, .power, .primary, .atom, .strings, .string, .interpolation,
    .embedded, .formatSpec, .paren, .bracket, .brace, .element, .moreElements, .dictItem,
    .arguments, .argument, .subscriptItem, .comprehension, .forIn, .iterable, .iterableLambda,
    .targets, .parameterList, .parameter, .lambdaParameter, .typeCore, .typeExpr, .typeParameter,
    .decorator, .casePatterns, .casePattern, .simplePattern]
  closing := [.assignTail]
  roles := [.name, .left]

theorem expressionEnclosure_lawful : expressionEnclosure.Lawful Rule.phrase where
  tops := by decide +kernel
  regular := by decide +kernel
  targets := by decide
  extras := by decide

def blockEnclosure : Enclosure Rule where
  outer k := k != .module && k != .block
  inner k := !k.isImport
  rules := expressionEnclosure.rules ++ [.suite, .elifClause, .elseClause, .exceptClause,
    .exceptGroup, .finallyClause, .functionDefinition, .classDefinition, .matchStatement,
    .caseClause]
  closing := [.assignTail]

theorem blockEnclosure_lawful : blockEnclosure.Lawful Rule.phrase where
  tops := by decide +kernel
  regular := by decide +kernel
  targets := by decide
  extras := by decide

theorem Node.All.isStatement_eq_false {text : List Char} {n m : Node}
    (h : n.All (Shaped expressionEnclosure text)) (hn : n.kind.isStatement = false)
    (hm : m.Within n) : m.kind.isStatement = false := by
  induction hm with
  | self => exact hn
  | child hc _ ih =>
    have hin := h.self.inner (by simp [expressionEnclosure, hn]) _ hc
    exact ih (h.child hc) (by simpa [expressionEnclosure] using hin)

theorem Node.All.isImportPart {text : List Char} {n m : Node}
    (h : n.All (Shaped importEnclosure text)) (hn : importEnclosure.outer n.kind = true)
    (hm : m.Within n) : m = n ∨ m.kind.isImportPart = true := by
  induction hm with
  | self => exact .inl rfl
  | @child n c hc hm ih =>
    have hin : c.kind.isImportPart = true := h.self.inner hn c hc
    obtain rfl | hk := ih (h.child hc) (by simp [importEnclosure, hin])
    · exact .inr hin
    · exact .inr hk

end Reroot.Python

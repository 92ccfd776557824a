import Reroot.Proofs.Python.Imports

namespace Reroot.Python

def isFiller (c : Char) : Bool :=
  Cursor.isBlank c && c != '\n'

def IsGap (cs : List Char) : Prop :=
  '#' ∉ cs → '\n' ∉ cs → cs.all isFiller = true

theorem IsGap.append {a b : List Char} (ha : IsGap a) (hb : IsGap b) : IsGap (a ++ b) := by
  intro hhash hline
  simp only [List.mem_append, not_or] at hhash hline
  rw [List.all_append, ha hhash.1 hline.1, hb hhash.2 hline.2]
  rfl

theorem not_ended_append {w : List Char} (h : isIdentifier w = true) (rest : List Char) :
    ¬ Ended (w ++ rest) := by
  obtain ⟨c, cs, rfl, hc, -⟩ := isIdentifier_iff.1 h
  intro hended
  have := hended c rfl
  rw [isIdentifierContinue_of_start hc] at this
  cases this

def Node.chars (n : Node) (text : List Char) : List Char :=
  Text.between n.start n.stop text

namespace Cursor

variable {c c' c'' : Cursor} {n : Node}

structure Passes (c c' : Cursor) (cs : List Char) : Prop where
  rest : c.rest = cs ++ c'.rest
  pos : c'.pos = c.pos + Text.byteWidth cs

theorem Passes.trans {a b : List Char} (h : c.Passes c' a) (h' : c'.Passes c'' b) :
    c.Passes c'' (a ++ b) :=
  ⟨by rw [h.rest, h'.rest, List.append_assoc], by rw [h'.pos, h.pos, Text.byteWidth_append, Nat.add_assoc]⟩

theorem passes_advance {cs rest : List Char} (h : c.rest = cs ++ rest) :
    c.Passes (c.advance cs.length) cs := by
  constructor
  · rw [advance, h, List.drop_left]
  · rw [advance, h, List.take_left]

def Reads (c : Cursor) (k : Kind) (w : List Char) (n : Node) (c' : Cursor) : Prop :=
  n = c.leaf k w.length ∧ c.Passes c' w

theorem reads_ident? {rs : List String} (h : c.ident? rs = some (n, c')) :
    ∃ w, c.Reads .identifier w n c' ∧ isIdentifier w = true ∧ Ended c'.rest := by
  unfold ident? at h
  split at h
  · cases h
  · split at h
    · next w _ hl =>
      split at h <;> cases h
      obtain ⟨rest, hrest, rfl, hw, hended⟩ := lexeme_eq_word hl
      have hp := passes_advance hrest
      refine ⟨w.toList, ⟨rfl, hp⟩, hw, ?_⟩
      rwa [List.append_cancel_left (hp.rest.symm.trans hrest)]
    · cases h

theorem reads_token? {t : String} (h : c.token? t = some (n, c')) :
    c.Reads (.mark t) t.toList n c' ∧ (t ∉ marks → Ended c'.rest) := by
  unfold token? at h
  split at h
  · cases h
  · split at h
    · next w _ hl =>
      split at h
      · next ht =>
        cases h
        obtain rfl := beq_iff_eq.1 ht
        obtain ⟨rest, hrest, rfl, -, hended⟩ := lexeme_eq_word hl
        have hp := passes_advance hrest
        exact ⟨⟨rfl, hp⟩, fun _ => by rwa [List.append_cancel_left (hp.rest.symm.trans hrest)]⟩
      · cases h
    · next m hl =>
      split at h
      · next ht =>
        cases h
        obtain rfl := beq_iff_eq.1 ht
        obtain ⟨hm, hmark⟩ := lexeme_eq_mark hl
        obtain ⟨rest, hrest⟩ := List.isPrefixOf_iff_prefix.1 hmark
        rw [← String.length_toList]
        exact ⟨⟨rfl, passes_advance hrest.symm⟩, fun h => absurd hm h⟩
      · cases h
    · cases h

theorem isGap_of_extraLength {k : Kind} {w : Nat} {cs : List Char}
    (h : extraLength cs = some (k, w)) : IsGap (cs.take w) ∨ cs.drop w = [] := by
  unfold extraLength at h
  split at h
  · cases h
    exact .inl fun hhash => absurd (by simp) hhash
  · cases h
    exact .inl fun _ hline => absurd (by simp) hline
  · cases h
    exact .inl fun _ hline => absurd (by simp) hline
  · cases h
    exact .inr rfl
  · cases h

theorem isGap_takeWhile (cs : List Char) : IsGap (cs.takeWhile isBlank) := by
  intro _ hline
  rw [List.all_eq_true]
  intro d hd
  rw [isFiller, List.mem_takeWhile_imp hd, Bool.true_and, bne_iff_ne]
  rintro rfl
  exact hline hd

theorem exists_gap_of_settleLoop {e : Expect} {fuel : Nat} (h : settleLoop e fuel c = some c') :
    ∃ g, c.Passes c' g ∧ (c'.rest ≠ [] → IsGap g) := by
  have stay (l : Option Layout) : c.Passes { c with pending := l } [] := ⟨rfl, rfl⟩
  induction fuel generalizing c with
  | zero =>
    cases h
    exact ⟨[], ⟨rfl, rfl⟩, fun _ _ _ => rfl⟩
  | succ fuel ih =>
    unfold settleLoop at h
    split at h
    · split at h
      · cases h
        exact ⟨[], stay _, fun _ _ _ => rfl⟩
      · cases h
    · cases h
      exact ⟨[], stay _, fun _ _ _ => rfl⟩
    · have hblank := passes_advance (List.takeWhile_append_dropWhile (p := isBlank) (l := c.rest)).symm
      dsimp only at h
      split at h
      · next k w hx =>
        obtain ⟨g, hg, hgap⟩ := ih h fun l => ⟨rfl, rfl⟩
        set b := c.advance (c.rest.takeWhile isBlank).length with hb
        have hextra : b.Passes { b.advance w with extras := b.leaf k w :: b.extras } (b.rest.take w) :=
          ⟨(List.take_append_drop _ _).symm, rfl⟩
        refine ⟨_, (hblank.trans hextra).trans hg,
          fun hne => ((isGap_takeWhile _).append ?_).append (hgap hne)⟩
        refine (isGap_of_extraLength hx).resolve_right fun hnil => hne ?_
        have hrest : b.rest.drop w = g ++ c'.rest := hg.rest
        rw [hnil] at hrest
        exact (List.append_eq_nil_iff.1 hrest.symm).2
      · cases h
        exact ⟨_, hblank, fun _ => isGap_takeWhile _⟩

theorem exists_gap_of_settle {e : Expect} (h : c.settle e = some c') :
    ∃ g, c.Passes c' g ∧ (c'.rest ≠ [] → IsGap g) := by
  unfold settle at h
  split at h
  · cases h
    exact ⟨[], ⟨rfl, rfl⟩, fun _ _ _ => rfl⟩
  · exact exists_gap_of_settleLoop h

def At (text : List Char) (c : Cursor) : Prop :=
  ∃ passed, text = passed ++ c.rest ∧ c.pos = Text.byteWidth passed

theorem At.passes {text cs : List Char} (h : c.At text) (hp : c.Passes c' cs) : c'.At text := by
  obtain ⟨passed, htext, hpos⟩ := h
  refine ⟨passed ++ cs, ?_, ?_⟩
  · rw [htext, hp.rest, List.append_assoc]
  · rw [hp.pos, hpos, Text.byteWidth_append]

theorem At.between {text w rest : List Char} (h : c.At text) (hw : c.rest = w ++ rest) :
    Text.between c.pos (c.pos + Text.byteWidth w) text = w := by
  obtain ⟨passed, rfl, hpos⟩ := h
  rw [hpos, hw, Text.between_byteWidth]

theorem Reads.stop {k : Kind} {w : List Char} (h : c.Reads k w n c') : n.stop = c'.pos := by
  obtain ⟨rfl, hp⟩ := h
  rw [hp.pos, leaf, hp.rest, List.take_left]
  rfl

theorem Reads.chars {k : Kind} {text w : List Char} (h : c.Reads k w n c') (hc : c.At text) :
    n.chars text = w := by
  have hstop : n.stop = c.pos + Text.byteWidth w := by rw [h.stop, h.2.pos]
  obtain ⟨rfl, hp⟩ := h
  rw [Node.chars, hstop]
  exact hc.between hp.rest

end Cursor

namespace Gram

variable {ρ : Type} {rules : ρ → Gram ρ} {fuel : Nat} {follow : Expect} {ns ns' : List Node}
  {c c' : Cursor} {a b : Gram ρ}

theorem exists_of_read_tok {t : String} (ht : t.toList ≠ [])
    (hr : (tok t : Gram ρ).read rules fuel follow ns c = some (ns', c')) :
    ∃ g d n, c.Passes d g ∧ IsGap g ∧ d.Reads (.mark t) t.toList n c' ∧ ns' = n :: ns ∧
      (t ∉ marks → Ended c'.rest) := by
  cases fuel with
  | zero => cases hr
  | succ fuel =>
    obtain ⟨d, hd, hr⟩ := Option.bind_eq_some_iff.1 hr
    obtain ⟨n, hn, rfl⟩ := Progress.add_eq hr
    obtain ⟨g, hg, hgap⟩ := Cursor.exists_gap_of_settle hd
    obtain ⟨hreads, hended⟩ := Cursor.reads_token? hn
    exact ⟨g, d, n, hg, hgap (by simp [hreads.2.rest, ht]), hreads, rfl, hended⟩

theorem exists_of_read_ident {rs : List String}
    (hr : (ident rs : Gram ρ).read rules fuel follow ns c = some (ns', c')) :
    ∃ g d w n, c.Passes d g ∧ IsGap g ∧ d.Reads .identifier w n c' ∧ ns' = n :: ns ∧
      isIdentifier w = true ∧ Ended c'.rest := by
  cases fuel with
  | zero => cases hr
  | succ fuel =>
    obtain ⟨d, hd, hr⟩ := Option.bind_eq_some_iff.1 hr
    obtain ⟨n, hn, rfl⟩ := Progress.add_eq hr
    obtain ⟨g, hg, hgap⟩ := Cursor.exists_gap_of_settle hd
    obtain ⟨w, hreads, hw, hended⟩ := Cursor.reads_ident? hn
    refine ⟨g, d, w, n, hg, hgap ?_, hreads, rfl, hw, hended⟩
    simp [hreads.2.rest, (isWord_of_isIdentifier hw).1]

theorem exists_of_read_boundary
    (hr : (boundary : Gram ρ).read rules fuel follow ns c = some (ns', c')) :
    ∃ g, c.Passes c' g ∧ (c'.rest ≠ [] → IsGap g) ∧ ns' = ns := by
  cases fuel with
  | zero => cases hr
  | succ fuel =>
    obtain ⟨hd, rfl⟩ := Progress.move_eq hr
    obtain ⟨g, hg, hgap⟩ := Cursor.exists_gap_of_settle hd
    exact ⟨g, hg, hgap, rfl⟩

end Gram

inductive WritesDotted : List Char → List String → Prop
  | word {w : List Char} (hw : isIdentifier w = true) : WritesDotted w [String.ofList w]
  | dot {cs g h w : List Char} {ws : List String} (front : WritesDotted cs ws) (hg : IsGap g) (hh : IsGap h)
      (hw : isIdentifier w = true) : WritesDotted (cs ++ g ++ '.' :: (h ++ w)) (ws ++ [String.ofList w])

theorem WritesDotted.nonempty {cs : List Char} {ws : List String} (h : WritesDotted cs ws) : ws ≠ [] := by
  cases h <;> simp

theorem WritesDotted.names {cs : List Char} {ws : List String} (h : WritesDotted cs ws) :
    ∀ w ∈ ws, isIdentifier w.toList = true := by
  induction h with
  | word hw => simpa using hw
  | dot front hg hh hw ih =>
    refine List.forall_mem_append.2 ⟨ih, ?_⟩
    simpa using hw

def Node.IsToken (n : Node) : Prop :=
  n.children = [] ∧ (n.kind = .identifier ∨ n.kind.isMark = true)

structure Spelling (text : List Char) (start : Cursor) (cs : List Char) (ns : List Node) (c : Cursor) :
    Prop where
  passes : ∃ g, start.Passes c (cs ++ g) ∧ (c.rest ≠ [] → IsGap g) ∧ (g = [] → Ended c.rest)
  tokens : ∀ n ∈ ns, n.IsToken
  first : ns.getLast?.map Node.start = some start.pos
  last : ns.head?.map Node.stop = some (start.pos + Text.byteWidth cs)
  writes : WritesDotted cs ((ns.reverse.filter (·.kind == .identifier)).map (·.text text))

section Reading

variable {rules : Rule → Gram Rule} {fuel : Nat} {follow : Expect} {ns ns' : List Node}
  {start c c' d : Cursor} {text cs : List Char}

open Gram

theorem Cursor.Reads.isToken {k : Kind} {w : List Char} {n : Node} (h : c.Reads k w n c')
    (hk : k = .identifier ∨ k.isMark = true) : n.IsToken := by
  obtain ⟨rfl, -⟩ := h
  exact ⟨rfl, hk⟩

theorem Spelling.of_word {n : Node} {w : List Char} (hstart : start.At text)
    (h : start.Reads .identifier w n d) (hw : isIdentifier w = true) (hended : Ended d.rest)
    (hr : (boundary : Gram Rule).read rules fuel follow [n] d = some (ns', c')) :
    Spelling text start w ns' c' := by
  obtain ⟨g, hg, hgap, rfl⟩ := exists_of_read_boundary hr
  have hstop : n.stop = start.pos + Text.byteWidth w := by rw [h.stop, h.2.pos]
  refine ⟨⟨g, h.2.trans hg, hgap, ?_⟩, by simp [h.isToken (.inl rfl)], ?_, by simp [hstop], ?_⟩
  · rintro rfl
    have hrest : d.rest = c'.rest := hg.rest
    rwa [← hrest]
  · obtain ⟨rfl, -⟩ := h
    rfl
  · have hkind : n.kind = .identifier := by
      obtain ⟨rfl, -⟩ := h
      rfl
    have htext : n.text text = String.ofList w := congrArg String.ofList (h.chars hstart)
    simpa [hkind, htext] using WritesDotted.word hw

theorem Spelling.step (hstart : start.At text) (h : Spelling text start cs ns c)
    (hr : (tok "." ++ ident [] ++ boundary : Gram Rule).read rules fuel follow ns c = some (ns', c')) :
    ∃ cs', Spelling text start cs' ns' c' := by
  obtain ⟨_, _, _, -, hr, hboundary⟩ := read_then hr
  obtain ⟨_, _, _, -, htok, hident⟩ := read_then hr
  obtain ⟨g₁, d₁, m, hg₁, hgap₁, hm, rfl, -⟩ := exists_of_read_tok (by decide) htok
  obtain ⟨g₂, d₂, w, i, hg₂, hgap₂, hi, rfl, hw, hended⟩ := exists_of_read_ident hident
  obtain ⟨g₃, hg₃, hgap₃, rfl⟩ := exists_of_read_boundary hboundary
  obtain ⟨⟨g₀, hg₀, hgap₀, -⟩, htokens, hfirst, hlast, hwrites⟩ := h
  have hne : c.rest ≠ [] := by simp [hg₁.rest, hm.2.rest]
  have hpassed := ((((hg₀.trans hg₁).trans hm.2).trans hg₂).trans hi.2)
  have hcore : cs ++ g₀ ++ g₁ ++ ".".toList ++ g₂ ++ w = cs ++ (g₀ ++ g₁) ++ '.' :: (g₂ ++ w) := by
    simp
  rw [hcore] at hpassed
  refine ⟨_, ⟨g₃, hpassed.trans hg₃, hgap₃, ?_⟩, ?_, ?_, ?_, ?_⟩
  · rintro rfl
    have hrest : _ = c'.rest := hg₃.rest
    rwa [← hrest]
  · simp only [List.forall_mem_cons]
    exact ⟨hi.isToken (.inl rfl), hm.isToken (.inr rfl), htokens⟩
  · obtain ⟨n, ns, rfl⟩ := List.exists_cons_of_ne_nil (show ns ≠ [] by rintro rfl; simp at hfirst)
    simpa using hfirst
  · rw [List.head?_cons, Option.map_some, hi.stop, hpassed.pos]
  · have hat := (((hstart.passes hg₀).passes hg₁).passes hm.2).passes hg₂
    have hik : i.kind = .identifier := by rw [hi.1]; rfl
    have hmk : m.kind = .mark "." := by rw [hm.1]; rfl
    have htext : i.text text = String.ofList w := congrArg String.ofList (hi.chars hat)
    have := hwrites.dot ((hgap₀ hne).append hgap₁) hgap₂ hw
    simpa [hik, hmk, htext] using this

theorem Spelling.many (hstart : start.At text) (h : Spelling text start cs ns c)
    (hr : (Gram.many (tok "." ++ ident [] ++ boundary)).read rules fuel follow ns c = some (ns', c')) :
    ∃ cs', Spelling text start cs' ns' c' := by
  induction fuel generalizing cs ns c with
  | zero => cases hr
  | succ fuel ih =>
    obtain ⟨_, ⟨⟩, ⟨rfl, rfl⟩ | ⟨ms, d, hra, hmore⟩⟩ := read_many hr
    · exact ⟨cs, h⟩
    · obtain ⟨cs', h'⟩ := h.step hstart hra
      exact ih h' hmore

theorem exists_of_read_dottedName (hc : c.At text)
    (hr : (Rule.phrase .dottedName).read Rule.phrase fuel follow ns c = some (ns', c')) :
    ∃ g start cs ms, c.Passes start g ∧ Spelling text start cs ms c' ∧
      ns' = Node.spanning .dottedName c'.pos ms.reverse :: ns := by
  obtain ⟨_, _, -, hbody, rfl⟩ := read_fresh hr
  obtain ⟨_, ms, _, -, hbody, hpack⟩ := read_then hbody
  obtain ⟨_, _, _, -, hr, hmany⟩ := read_then hbody
  obtain ⟨_, _, _, -, hident, hboundary⟩ := read_then hr
  obtain ⟨g, start, w, n, hg, -, hn, rfl, hw, hended⟩ := exists_of_read_ident hident
  have hstart := hc.passes hg
  obtain ⟨cs, h⟩ := (Spelling.of_word hstart hn hw hended hboundary).many hstart hmany
  obtain ⟨rfl, rfl⟩ := read_pack hpack
  exact ⟨g, start, cs, ms, hg, h, rfl⟩

theorem Spelling.span_spanning (h : Spelling text start cs ns c) (k : Kind) (here : Nat) :
    (Node.spanning k here ns.reverse).span = ⟨start.pos, start.pos + Text.byteWidth cs⟩ := by
  simp [Node.spanning, Node.span, h.first, h.last]

theorem Spelling.segments_spanning (h : Spelling text start cs ns c) (here : Nat) :
    WritesDotted cs ((Node.spanning .dottedName here ns.reverse).segments text) := by
  have hnamed : (Node.spanning .dottedName here ns.reverse).namedChildren.filter (·.kind == .identifier) =
      ns.reverse.filter (·.kind == .identifier) := by
    rw [Node.namedChildren, List.filter_filter]
    refine List.filter_congr fun n _ => ?_
    cases hk : n.kind == Kind.identifier
    · rfl
    · simp [Node.isNamed, beq_iff_eq.1 hk]
  rw [Node.segments, if_neg (by simp [Node.spanning, Node.kind]), hnamed]
  exact h.writes

end Reading

def WritesAlias (cs name word : List Char) : Prop :=
  ∃ g h, cs = name ++ g ++ 'a' :: 's' :: (h ++ word) ∧ g ≠ [] ∧ h ≠ [] ∧ IsGap g ∧ IsGap h ∧
    isIdentifier word = true

structure Node.Written (text : List Char) (n : Node) : Prop where
  dotted : n.kind = .dottedName → WritesDotted (n.chars text) (n.segments text)
  aliased : n.kind = .aliasedImport → ∃ name word, n.part? .name = some name ∧
    n.part? .asName = some word ∧ name.kind = .dottedName ∧
    WritesAlias (n.chars text) (name.chars text) (word.chars text)
  items : n.kind = .importFromStatement →
    ∀ c ∈ n.parts .name, c.kind = .dottedName ∨ c.kind = .aliasedImport

section Items

variable {rules : Rule → Gram Rule} {fuel : Nat} {follow : Expect} {ns ns' : List Node}
  {start c c' d : Cursor} {text cs : List Char} {n : Node}

open Gram

theorem Node.written_of_kind (hk : n.kind ≠ .dottedName) (hk' : n.kind ≠ .aliasedImport)
    (hk'' : n.kind ≠ .importFromStatement) : n.Written text :=
  ⟨fun h => absurd h hk, fun h => absurd h hk', fun h => absurd h hk''⟩

theorem Node.IsToken.all_written (h : n.IsToken) : n.All (Written text) := by
  refine (all_iff n).2 ⟨?_, by simp [h.1]⟩
  obtain hk | hk := h.2
  · apply written_of_kind <;> simp [hk]
  · apply written_of_kind <;> rintro hk' <;> simp [hk', Kind.isMark] at hk

theorem Node.Written.withRole {r : Role} (h : n.Written text) : (n.withRole r).Written text :=
  ⟨h.dotted, h.aliased, h.items⟩

theorem Node.All.written_withRole {r : Role} (h : n.All (Written text)) :
    (n.withRole r).All (Written text) :=
  (all_iff _).2 ⟨h.self.withRole, fun _ hc => h.child hc⟩

theorem Spelling.chars_spanning (hstart : start.At text) (h : Spelling text start cs ns c) (k : Kind)
    (here : Nat) : (Node.spanning k here ns.reverse).chars text = cs := by
  have hspan := h.span_spanning k here
  obtain ⟨g, hg, -⟩ := h.passes
  have hrest : start.rest = cs ++ (g ++ c.rest) := by rw [hg.rest, List.append_assoc]
  rw [Node.chars, Node.start, Node.stop, hspan, hstart.between hrest]

theorem Spelling.all_written (hstart : start.At text) (h : Spelling text start cs ns c) (here : Nat) :
    (Node.spanning .dottedName here ns.reverse).All (Node.Written text) := by
  refine Node.all_mk_iff.2 ⟨⟨fun _ => ?_, fun hk => ?_, fun hk => ?_⟩, fun m hm => ?_⟩
  · exact (h.chars_spanning hstart .dottedName here).symm ▸ h.segments_spanning here
  · cases hk
  · cases hk
  · exact (h.tokens m (List.mem_reverse.1 hm)).all_written

def aliasTail : Gram Rule :=
  tag .name ++ tok "as" ++ ident [] ++ tag .asName ++ boundary ++ pack .aliasedImport

theorem Spelling.writesAlias (h : Spelling text start cs ns c) {g₁ g₂ w : List Char} {d₁ d₂ d₃ : Cursor}
    {m i : Node} (hg₁ : c.Passes d₁ g₁) (hgap₁ : IsGap g₁)
    (hm : d₁.Reads (.mark "as") "as".toList m d₂) (hended : Ended d₂.rest) (hg₂ : d₂.Passes d₃ g₂) (hgap₂ : IsGap g₂)
    (hi : d₃.Reads .identifier w i c') (hw : isIdentifier w = true) :
    ∃ whole, start.Passes c' whole ∧ WritesAlias whole cs w := by
  obtain ⟨g₀, hg₀, hgap₀, hended₀⟩ := h.passes
  have hpassed := (((hg₀.trans hg₁).trans hm.2).trans hg₂).trans hi.2
  have hne : g₀ ++ g₁ ≠ [] := by
    intro hnil
    obtain ⟨rfl, rfl⟩ := List.append_eq_nil_iff.1 hnil
    have hended := hended₀ rfl
    rw [hg₁.rest, hm.2.rest] at hended
    exact not_ended_append (w := "as".toList) (by decide) _ hended
  have hne' : g₂ ≠ [] := by
    rintro rfl
    rw [hg₂.rest, hi.2.rest] at hended
    exact not_ended_append hw _ hended
  exact ⟨_, hpassed, g₀ ++ g₁, g₂, by simp, hne, hne',
    (hgap₀ (by simp [hg₁.rest, hm.2.rest])).append hgap₁, hgap₂, hw⟩

theorem exists_of_read_aliasTail (hstart : start.At text) (h : Spelling text start cs ns c)
    {here : Nat} (hr : aliasTail.read Rule.phrase fuel follow
      [Node.spanning .dottedName here ns.reverse] c = some (ns', c')) :
    ∃ n, ns' = [n] ∧ n.kind = .aliasedImport ∧ n.All (Node.Written text) := by
  obtain ⟨_, _, _, -, hr, hpack⟩ := read_then hr
  obtain ⟨_, _, _, -, hr, hboundary⟩ := read_then hr
  obtain ⟨_, _, _, -, hr, hword⟩ := read_then hr
  obtain ⟨_, _, _, -, hr, hident⟩ := read_then hr
  obtain ⟨_, _, _, -, hname, htok⟩ := read_then hr
  obtain ⟨_, _, heq, rfl, rfl⟩ := read_tag hname
  cases heq
  obtain ⟨g₁, d₁, m, hg₁, hgap₁, hm, rfl, hended⟩ := exists_of_read_tok (by decide) htok
  obtain ⟨g₂, d₂, w, i, hg₂, hgap₂, hi, rfl, hw, -⟩ := exists_of_read_ident hident
  obtain ⟨_, _, heq, rfl, rfl⟩ := read_tag hword
  cases heq
  obtain ⟨-, -, -, rfl⟩ := exists_of_read_boundary hboundary
  obtain ⟨rfl, rfl⟩ := read_pack hpack
  obtain ⟨whole, hpassed, hwrites⟩ := h.writesAlias hg₁ hgap₁ hm (hended (by decide)) hg₂ hgap₂ hi hw
  obtain ⟨g₀, hg₀, -⟩ := h.passes
  have hchars := hi.chars ((((hstart.passes hg₀).passes hg₁).passes hm.2).passes hg₂)
  have hspan := h.span_spanning .dottedName here
  have hcs := h.chars_spanning hstart .dottedName here
  have hwritten := h.all_written hstart here
  generalize hd : Node.spanning .dottedName here ns.reverse = d at *
  have hrole : m.role = none := by rw [hm.1]; rfl
  have hrole' : (d.withRole .name).role = some .name := rfl
  refine ⟨_, rfl, rfl, Node.all_mk_iff.2 ⟨⟨fun hk => ?_, fun _ => ⟨d.withRole .name, i.withRole .asName,
    rfl, ?_, ?_, ?_⟩, fun hk => ?_⟩, ?_⟩⟩
  · cases hk
  · simp [Node.part?, Node.children, hrole, hrole']
    rfl
  · rw [← hd]
    rfl
  · change WritesAlias (Text.between d.start i.stop text) (d.chars text) (i.chars text)
    rw [hcs, hchars, Node.start, hspan, hi.stop, hpassed.pos, hstart.between hpassed.rest]
    exact hwrites
  · cases hk
  · have htokens : (i.withRole .asName).All (Node.Written text) :=
      (hi.isToken (.inl rfl)).all_written.written_withRole
    simpa using ⟨hwritten.written_withRole, (hm.isToken (.inr rfl)).all_written, htokens⟩

theorem exists_of_read_importItem (hc : c.At text)
    (hr : (Rule.phrase .importItem).read Rule.phrase fuel follow ns c = some (ns', c')) :
    ∃ n, ns' = n :: ns ∧ (n.kind = .dottedName ∨ n.kind = .aliasedImport) ∧ n.All (Node.Written text) := by
  obtain ⟨_, _, -, hbody, rfl⟩ := read_fresh hr
  obtain ⟨_, _, _, -, hbody, htag⟩ := read_then hbody
  obtain ⟨_, _, c₁, -, hname, hr⟩ := read_then hbody
  obtain ⟨_, -, hname⟩ := read_call hname
  obtain ⟨g, start, cs, ms, hg, hspelling, rfl⟩ := exists_of_read_dottedName hc hname
  have hstart := hc.passes hg
  obtain ⟨_, _, rfl, rfl, rfl⟩ := read_tag htag
  obtain ⟨_, -, hr | hr⟩ := read_or hr
  · obtain ⟨n, heq, hk, hwritten⟩ := exists_of_read_aliasTail hstart hspelling hr
    cases heq
    exact ⟨_, rfl, .inr hk, hwritten.written_withRole⟩
  · cases read_silent rfl hr
    exact ⟨_, rfl, .inl rfl, (hspelling.all_written hstart c₁.pos).written_withRole⟩

end Items

def Node.IsItem (n : Node) : Prop :=
  n.role = some .name → n.kind = .dottedName ∨ n.kind = .aliasedImport

namespace Gram

def itemised : Gram Rule → Bool
  | then_ a b | or_ a b => itemised a && itemised b
  | many a | fresh a | within _ a => itemised a
  | call r => [Rule.importList, .importItem, .importTail, .dottedName].contains r
  | tag r => r != .name
  | target => false
  | _ => true

def writes : Bool → Gram Rule → Bool
  | known, then_ a b => writes known a && writes (known && a.itemised) b
  | known, or_ a b => writes known a && writes known b
  | known, many a => writes (known && a.itemised) a
  | known, within _ a => writes known a
  | _, fresh a => writes true a
  | known, pack k | known, packMany k =>
    k != .dottedName && k != .aliasedImport && (known || k != .importFromStatement)
  | _, _ => true

variable {g : Gram Rule} {fuel : Nat} {follow : Expect} {lo : Nat} {ns ns' : List Node}
  {c c' : Cursor} {text : List Char}

theorem itemised_phrase (r : Rule) (h : (call r).itemised = true) : r = .dottedName ∨
    r = .importItem ∨ (Rule.phrase r).itemised = true := by
  revert r
  decide +kernel

theorem read_itemised (hg : g.itemised = true) (hc : Progress.Sound text lo ns c)
    (h : ∀ n ∈ ns, n.IsItem) (hr : g.read Rule.phrase fuel follow ns c = some (ns', c')) :
    ∀ n ∈ ns', n.IsItem := by
  have unplaced {n : Node} (hn : n.role = none) : n.IsItem := fun hr => by rw [hn] at hr; cases hr
  induction fuel generalizing g follow lo ns ns' c c' with
  | zero => cases hr
  | succ fuel ih =>
    cases reading_of_read hc.cursor hr with
    | then_ ha hb =>
      obtain ⟨hga, hgb⟩ := Bool.and_eq_true_iff.1 hg
      exact ih hgb (read_sound _ hc ha).1 (ih hga hc h ha) hb
    | left ha => exact ih (Bool.and_eq_true_iff.1 hg).1 hc h ha
    | right hb => exact ih (Bool.and_eq_true_iff.1 hg).2 hc h hb
    | @more a _ _ _ _ _ _ ha hmore =>
      have hga : a.itemised = true := hg
      exact ih hg (read_sound _ hc ha).1 (ih hga hc h ha) hmore
    | @call r _ _ _ _ hphrase =>
      obtain rfl | rfl | hrule := itemised_phrase r hg
      · obtain ⟨_, _, _, _, -, -, rfl⟩ := exists_of_read_dottedName hc.cursor.position hr
        exact List.forall_mem_cons.2 ⟨unplaced rfl, h⟩
      · obtain ⟨n, rfl, hk, -⟩ := exists_of_read_importItem hc.cursor.position hr
        exact List.forall_mem_cons.2 ⟨fun _ => hk, h⟩
      · exact ih hrule hc h hphrase
    | @fresh a _ _ _ _ ha =>
      have hga : a.itemised = true := hg
      exact List.forall_mem_append.2 ⟨ih hga (Progress.sound_nil hc.cursor) (by simp) ha, h⟩
    | @within _ a _ _ _ _ ha =>
      have hga : a.itemised = true := hg
      exact ih hga hc h ha
    | tag =>
      refine List.forall_mem_cons.2 ⟨fun hrole => ?_, (List.forall_mem_cons.1 h).2⟩
      exact absurd (Option.some.inj hrole) (bne_iff_ne.1 hg)
    | pack | packMany => simpa using unplaced rfl
    | target => cases hg
    | token => exact List.forall_mem_cons.2 ⟨unplaced rfl, h⟩
    | silent | enough | single => exact h

theorem writes_phrase (r : Rule) : r = .dottedName ∨ r = .importItem ∨
    (Rule.phrase r).writes false = true := by
  revert r
  decide +kernel

theorem written_targetStable (text : List Char) : TargetStable (Node.Written text) := by
  intro n n' hk _ _ _
  apply Node.written_of_kind <;> rintro hk' <;> simp [hk', targetPatterns] at hk

theorem written_leaf {a : Cursor} {k : Kind} {w : Nat} (hk : k ∈ g.tokenKinds) :
    (a.leaf k w).All (Node.Written text) := by
  refine Node.all_mk_iff.2 ⟨Node.written_of_kind ?_ ?_ ?_, by simp⟩
  all_goals
    change k ≠ _
    rintro rfl
    cases g <;> simp [tokenKinds] at hk

theorem written_spanning {known : Bool} {k : Kind} (hg : (pack k).writes known = true)
    (hk : known = true → ∀ n ∈ ns, n.IsItem) (h : ∀ n ∈ ns, n.All (Node.Written text)) (here : Nat) :
    (Node.spanning k here ns.reverse).All (Node.Written text) := by
  simp only [writes, Bool.and_eq_true, Bool.or_eq_true, bne_iff_ne] at hg
  obtain ⟨⟨hname, halias⟩, hfrom⟩ := hg
  refine Node.all_mk_iff.2 ⟨⟨fun h => absurd h hname, fun h => absurd h halias, fun hkind m hm => ?_⟩,
    fun m hm => h m (List.mem_reverse.1 hm)⟩
  obtain ⟨hm, hrole⟩ := List.mem_filter.1 hm
  exact hk (hfrom.resolve_right fun hne => hne hkind) m (List.mem_reverse.1 hm) (beq_iff_eq.1 hrole)

theorem read_writes {known : Bool} (hg : g.writes known = true) (hc : Progress.Sound text lo ns c)
    (hk : known = true → ∀ n ∈ ns, n.IsItem) (h : ∀ n ∈ ns, n.All (Node.Written text))
    (hr : g.read Rule.phrase fuel follow ns c = some (ns', c')) :
    ∀ n ∈ ns', n.All (Node.Written text) := by
  have onward {a : Gram Rule} {known : Bool} {fuel : Nat} {follow : Expect} {lo : Nat}
      {ns ms : List Node} {c d : Cursor} (hc : Progress.Sound text lo ns c)
      (hk : known = true → ∀ n ∈ ns, n.IsItem)
      (ha : a.read Rule.phrase fuel follow ns c = some (ms, d)) :
      (known && a.itemised) = true → ∀ n ∈ ms, n.IsItem := by
    intro hka
    obtain ⟨hkn, hia⟩ := Bool.and_eq_true_iff.1 hka
    exact read_itemised hia hc (hk hkn) ha
  induction fuel generalizing g known follow lo ns ns' c c' with
  | zero => cases hr
  | succ fuel ih =>
    cases reading_of_read hc.cursor hr with
    | then_ ha hb =>
      obtain ⟨hga, hgb⟩ := Bool.and_eq_true_iff.1 hg
      exact ih hgb (read_sound _ hc ha).1 (onward hc hk ha) (ih hga hc hk h ha) hb
    | left ha => exact ih (Bool.and_eq_true_iff.1 hg).1 hc hk h ha
    | right hb => exact ih (Bool.and_eq_true_iff.1 hg).2 hc hk h hb
    | @more a _ _ _ _ _ _ ha hmore =>
      have hga : a.writes (known && a.itemised) = true := hg
      have hgm : (many a).writes (known && a.itemised) = true := by
        simpa only [writes, Bool.and_assoc, Bool.and_self] using hga
      have hk' : (known && a.itemised) = true → ∀ n ∈ ns, n.IsItem :=
        fun hka => hk (Bool.and_eq_true_iff.1 hka).1
      exact ih hgm (read_sound _ hc ha).1 (onward hc hk ha) (ih hga hc hk' h ha) hmore
    | @call r _ _ _ _ hphrase =>
      obtain rfl | rfl | hrule := writes_phrase r
      · have hat := hc.cursor.position
        obtain ⟨g, start, cs, ms, hg, hspelling, rfl⟩ := exists_of_read_dottedName hat hr
        exact List.forall_mem_cons.2 ⟨hspelling.all_written (Cursor.At.passes hat hg) _, h⟩
      · obtain ⟨n, rfl, -, hn⟩ := exists_of_read_importItem hc.cursor.position hr
        exact List.forall_mem_cons.2 ⟨hn, h⟩
      · exact ih hrule hc (by simp) h hphrase
    | @fresh a _ _ _ _ ha =>
      have hga : a.writes true = true := hg
      exact List.forall_mem_append.2
        ⟨ih hga (Progress.sound_nil hc.cursor) (by simp) (by simp) ha, h⟩
    | @within _ a _ _ _ _ ha =>
      have hga : a.writes known = true := hg
      exact ih hga hc hk h ha
    | tag =>
      obtain ⟨hn, hrest⟩ := List.forall_mem_cons.1 h
      exact List.forall_mem_cons.2 ⟨hn.written_withRole, hrest⟩
    | pack | packMany => simpa using written_spanning hg hk h _
    | target hns => exact (targets?_all (written_targetStable text) _ _ hns h).2
    | token _ htoken => exact List.forall_mem_cons.2 ⟨written_leaf htoken, h⟩
    | silent | enough | single => exact h

end Gram

def Node.outline (n : Node) : Option Role × Kind × Span :=
  (n.role, n.kind, n.span)

section Weave

variable {text : List Char} {n n' : Node} {cs es : List Node}

theorem Node.outline_weave (n : Node) (es : List Node) : (n.weave es).outline = n.outline := by
  rw [outline, (n.kind_weave es).1, (n.kind_weave es).2, n.span_weave es, outline]

theorem filter_weaveAll (cs : List Node) {p : Node → Bool}
    (hp : ∀ a b : Node, a.outline = b.outline → p a = p b) (hes : ∀ e ∈ es, p e = false) :
    ((weaveAll cs es).filter p).map Node.outline = (cs.filter p).map Node.outline := by
  have spared {es : List Node} (hes : ∀ e ∈ es, p e = false) : es.filter p = [] :=
    List.filter_eq_nil_iff.2 fun e he => by simp [hes e he]
  induction cs generalizing es with
  | nil =>
    unfold weaveAll
    rw [spared hes]
    rfl
  | cons c cs ih =>
    unfold weaveAll
    have hfront := spared fun e he => hes e ((List.takeWhile_sublist (fun e => e.start < c.start)).subset he)
    have hrest := ih fun e he => hes e ((List.dropWhile_sublist (fun e => e.start < c.stop)).subset he)
    rw [List.filter_append, hfront, List.nil_append, List.filter_cons, List.filter_cons,
      hp _ _ (c.outline_weave _)]
    split
    · rw [List.map_cons, List.map_cons, c.outline_weave, hrest]
    · exact hrest

theorem find?_weaveAll {p : Node → Bool} (hp : ∀ a b : Node, a.outline = b.outline → p a = p b)
    (hes : ∀ e ∈ es, p e = false) (h : cs.find? p = some n) :
    ∃ n', (weaveAll cs es).find? p = some n' ∧ n'.outline = n.outline := by
  have hheads := congrArg List.head? (filter_weaveAll cs hp hes)
  rw [List.head?_map, List.head?_map, List.head?_filter, List.head?_filter, h] at hheads
  exact Option.map_eq_some_iff.1 hheads

theorem Node.segments_weave (r : Option Role) (k : Kind) (s : Span) (hes : ∀ e ∈ es, e.IsExtra text) :
    (mk r k s (weaveAll cs es)).segments text = (mk r k s cs).segments text := by
  have hwords : ((weaveAll cs es).filter fun c => c.kind == .identifier && c.isNamed).map outline =
      (cs.filter fun c => c.kind == .identifier && c.isNamed).map outline := by
    refine filter_weaveAll cs (fun a b h => ?_) fun e he => ?_
    · rw [isNamed, isNamed, show a.kind = b.kind from congrArg (·.2.1) h]
    · obtain hk | hk := (hes e he).kind <;> simp [hk]
  have htexts (l : List Node) : l.map (·.text text) =
      (l.map outline).map fun o => String.ofList (Text.between o.2.2.start o.2.2.stop text) := by
    rw [List.map_map]
    rfl
  have hsame : (mk r k s (weaveAll cs es)).text text = (mk r k s cs).text text := rfl
  rw [segments, segments, namedChildren, namedChildren, List.filter_filter, List.filter_filter, htexts,
    htexts, hsame]
  exact congrArg _ (congrArg _ hwords)

theorem Node.Written.weave {r : Option Role} {k : Kind} {s : Span} (h : (Node.mk r k s cs).Written text)
    (hes : ∀ e ∈ es, e.IsExtra text) : (Node.mk r k s (weaveAll cs es)).Written text := by
  have hrole {r' : Role} {a b : Node} (h : a.outline = b.outline) :
      (a.role == some r') = (b.role == some r') := by
    rw [show a.role = b.role from congrArg Prod.fst h]
  have hextra {r' : Role} : ∀ e ∈ es, (e.role == some r') = false := fun e he => by
    rw [(hes e he).role]
    rfl
  refine ⟨fun hk => ?_, fun hk => ?_, fun hk c hc => ?_⟩
  · rw [segments_weave r k s hes]
    exact h.dotted hk
  · obtain ⟨name, word, hname, hword, hkind, hwrites⟩ := h.aliased hk
    obtain ⟨name', hname', houtline⟩ := find?_weaveAll (fun _ _ => hrole) hextra hname
    obtain ⟨word', hword', houtline'⟩ := find?_weaveAll (fun _ _ => hrole) hextra hword
    have hspan : name'.span = name.span := congrArg (·.2.2) houtline
    have hspan' : word'.span = word.span := congrArg (·.2.2) houtline'
    refine ⟨name', word', hname', hword', (congrArg (·.2.1) houtline).trans hkind, ?_⟩
    rw [chars, chars, chars, start, stop, start, stop, start, stop, hspan, hspan']
    exact hwrites
  · have hparts := filter_weaveAll cs (p := fun c => c.role == some .name) (fun _ _ => hrole) hextra
    have hmem : c.outline ∈ (cs.filter fun c => c.role == some .name).map outline :=
      hparts ▸ List.mem_map_of_mem hc
    obtain ⟨c', hc', houtline⟩ := List.mem_map.1 hmem
    rw [show c.kind = c'.kind from congrArg (·.2.1) houtline.symm]
    exact h.items hk c' hc'

theorem Node.IsExtra.all {P : Node → Prop} (h : n.IsExtra text) (hn : P n) : n.All P :=
  (Node.all_iff n).2 ⟨hn, by simp [h.children]⟩

theorem Node.IsExtra.written (h : n.IsExtra text) : n.Written text := by
  obtain hk | hk := h.kind <;> apply Node.written_of_kind <;> simp [hk]

mutual

theorem Node.All.weave {P : Node → Prop} (hextra : ∀ e : Node, e.IsExtra text → P e)
    (hP : ∀ r k s cs es, P (.mk r k s cs) → (∀ e ∈ es, e.IsExtra text) →
      P (.mk r k s (weaveAll cs es))) :
    ∀ {n : Node} {es : List Node}, n.All P → (∀ e ∈ es, e.IsExtra text) → (n.weave es).All P
  | .mk r k s cs, es, h, hes => by
    unfold Node.weave
    exact Node.all_mk_iff.2 ⟨hP r k s cs es h.self hes,
      all_weaveAll hextra hP (fun c hc => h.child hc) hes⟩

theorem all_weaveAll {P : Node → Prop} (hextra : ∀ e : Node, e.IsExtra text → P e)
    (hP : ∀ r k s cs es, P (.mk r k s cs) → (∀ e ∈ es, e.IsExtra text) →
      P (.mk r k s (weaveAll cs es))) :
    ∀ {cs es : List Node}, (∀ c ∈ cs, c.All P) → (∀ e ∈ es, e.IsExtra text) →
      ∀ m ∈ weaveAll cs es, m.All P
  | [], es, _, hes => by
    unfold weaveAll
    exact fun m hm => (hes m hm).all (hextra m (hes m hm))
  | c :: cs, es, h, hes => by
    obtain ⟨hc, hcs⟩ := List.forall_mem_cons.1 h
    unfold weaveAll
    refine List.forall_mem_append.2 ⟨fun m hm => ?_, List.forall_mem_cons.2 ⟨?_, ?_⟩⟩
    · have hm := hes m ((List.takeWhile_sublist _).subset hm)
      exact hm.all (hextra m hm)
    · exact Node.All.weave hextra hP hc fun e he => hes e (mem_of_mem_inner he)
    · exact all_weaveAll hextra hP hcs fun e he => hes e ((List.dropWhile_sublist _).subset he)

end

theorem parse?_all {P : Node → Prop} {source : String} {root : Node}
    (hmodule : ∀ n : Node, n.kind = .module → P n)
    (hextra : ∀ e : Node, e.IsExtra source.toList → P e)
    (hP : ∀ r k s cs es, P (.mk r k s cs) → (∀ e ∈ es, e.IsExtra source.toList) →
      P (.mk r k s (weaveAll cs es)))
    (hread : ∀ fuel n c, (Gram.call Rule.module).read Rule.phrase fuel .token []
      (.ofText source.toList) = some ([n], c) → n.All P)
    (h : parse? source = some root) : root.All P := by
  obtain ⟨n, c, hr, rfl, -, hextras, -⟩ := parse?_woven h
  have hk : n.kind = .module := kind_of_read_module hr
  exact Node.all_mk_iff.2 ⟨hmodule _ hk,
    all_weaveAll hextra hP (fun m hm => (hread _ n c hr).child hm) hextras.isExtra⟩

end Weave

theorem parse?_written {source : String} {root : Node} (h : parse? source = some root) :
    root.All (Node.Written source.toList) := by
  refine parse?_all (fun n hk => ?_) (fun e he => he.written) (fun r k s cs es hn hes => hn.weave hes)
    (fun fuel n c hr => ?_) h
  · apply Node.written_of_kind <;> simp [hk]
  · have hwrites : (Gram.call Rule.module).writes true = true := rfl
    exact Gram.read_writes hwrites (Progress.sound_nil (Cursor.sound_ofText source.toList)) (by simp)
      (by simp) hr n (by simp)

end Reroot.Python

import Reroot.Proofs.Python.Visits

namespace Reroot.Python

structure Block where
  kind : ScopeKind
  site : Site

namespace Block

def top (root : Node) : Block :=
  ⟨.module, Site.root root⟩

def container (b : Block) : Site :=
  if b.kind = .classBody then b.site.parent?.getD b.site else b.site

end Block

structure Site.HasChild (s : Site) (i : Nat) (n : Node) : Prop where
  child : s.node.children[i]? = some n
  named : n.isNamed = true

inductive Site.Continues (s : Site) (n : Node) : Prop
  | ordinary (hk : s.kind.isOrdinary = true)
  | object (hk : s.kind = .attribute) (hr : n.role = some .object)
  | argument (hk : s.kind = .keywordArgument) (hr : n.role = some .value)
  | result (hk : s.kind = .functionDefinition) (hr : n.role = some .returnType)
  | bases (hk : s.kind = .classDefinition) (hr : n.role = some .superclasses)

inductive Site.IsOutside (q : Site) (n : Node) : Prop
  | value (hk : q.kind = .defaultParameter ∨ q.kind = .typedDefaultParameter)
      (hr : n.role = some .typeOf ∨ n.role = some .value)
  | typing (hk : q.kind = .typedParameter) (hn : n.kind = .typeExpr)

inductive StandsIn (root : Node) : Site → Block → Prop
  | top {i : Nat} {n : Node} (hn : (Site.root root).HasChild i n) :
      StandsIn root ((Site.root root).child i n) (Block.top root)
  | same {s : Site} {b : Block} {i : Nat} {n : Node} (h : StandsIn root s b) (hn : s.HasChild i n)
      (hsame : s.Continues n) : StandsIn root (s.child i n) b
  | body {s : Site} {b : Block} {i : Nat} {n : Node} (h : StandsIn root s b) (hn : s.HasChild i n)
      (hk : s.kind.isFunction = true) (hr : n.role = some .body) :
      StandsIn root (s.child i n) ⟨.function, s⟩
  | member {s : Site} {b : Block} {i j : Nat} {n m : Node} (h : StandsIn root s b)
      (hn : s.HasChild i n) (hk : s.kind = .classDefinition) (hr : n.role = some .body)
      (hm : (s.child i n).HasChild j m) :
      StandsIn root ((s.child i n).child j m) ⟨.classBody, s.child i n⟩
  | element {s : Site} {b : Block} {i : Nat} {n : Node} (h : StandsIn root s b)
      (hn : s.HasChild i n) (hk : s.kind.isComprehension = true) :
      StandsIn root (s.child i n) ⟨.comprehension, s⟩
  | outside {s : Site} {b : Block} {i j k : Nat} {l q n : Node} (h : StandsIn root s b)
      (hl : s.HasChild i l) (hk : s.kind.isFunction = true) (hr : l.role = some .parameters)
      (hq : (s.child i l).HasChild j q) (hn : ((s.child i l).child j q).HasChild k n)
      (hout : ((s.child i l).child j q).IsOutside n) :
      StandsIn root (((s.child i l).child j q).child k n) b

inductive Site.HasWord : Site → Site → Prop
  | word {s : Site} (hk : s.kind = .identifier) : HasWord s s
  | deeper {s w : Site} {i : Nat} {n : Node} (hn : s.HasChild i n) (h : HasWord (s.child i n) w) :
      HasWord s w

inductive Site.IsNamePart (q : Site) (n : Node) : Prop
  | name (hk : q.kind = .defaultParameter ∨ q.kind = .typedDefaultParameter)
      (hr : n.role = some .name)
  | typed (hk : q.kind = .typedParameter) (hn : n.kind ≠ .typeExpr)
  | splat (hk : q.kind ∈ [Kind.listSplatPattern, .dictionarySplatPattern, .tuplePattern])

inductive Site.IsParameter (f : Site) : Site → Prop
  | plain {i j : Nat} {l q : Node} (hl : f.HasChild i l) (hr : l.role = some .parameters)
      (hq : (f.child i l).HasChild j q) (hk : q.kind = .identifier) :
      IsParameter f ((f.child i l).child j q)
  | part {i j k : Nat} {l q n : Node} {w : Site} (hl : f.HasChild i l)
      (hr : l.role = some .parameters) (hq : (f.child i l).HasChild j q)
      (hn : ((f.child i l).child j q).HasChild k n)
      (hpart : ((f.child i l).child j q).IsNamePart n)
      (hw : (((f.child i l).child j q).child k n).HasWord w) : IsParameter f w

inductive Numbered (root : Node) (source : List Char) : Nat → Block → Prop
  | top : Numbered root source ScopeTable.moduleScope (Block.top root)
  | function {s : Site} {outer k : Nat} (h : Visited root source s (.code outer) k)
      (hk : s.kind.isFunction = true) : Numbered root source k ⟨.function, s⟩
  | comprehension {s : Site} {outer k : Nat} (h : Visited root source s (.code outer) k)
      (hk : s.kind.isComprehension = true) : Numbered root source k ⟨.comprehension, s⟩
  | classBody {s : Site} {outer k : Nat} (h : Visited root source s (.classBody outer) k) :
      Numbered root source k ⟨.classBody, s⟩

section Response

variable {root : Node} {source : List Char} {s : Site} {n : Node} {v w : Visit} {size : Nat}

theorem Site.Continues.onward {scope : Nat} (h : s.Continues n) :
    Visit.Onward size s n (.code scope) (.code scope) := by
  cases h with
  | ordinary hk => exact .ordinary hk
  | object hk hr => exact .object hk hr
  | argument hk hr => exact .argument hk hr
  | result hk hr => exact .result hk hr
  | bases hk hr => exact .bases hk hr

theorem Site.IsOutside.onward {inner outer : Nat} (h : s.IsOutside n) :
    Visit.Onward size s n (.parameter inner outer) (.code outer) := by
  cases h with
  | value hk hr => exact .value hk hr
  | typing hk hn => exact .typing hk hn

theorem Site.IsNamePart.onward {inner outer : Nat} (h : s.IsNamePart n) :
    Visit.Onward size s n (.parameter inner outer) (.pattern inner) := by
  cases h with
  | name hk hr => exact .name hk hr
  | typed hk hn => exact .typed hk hn
  | splat hk => exact .splat hk

theorem Visited.onward {i : Nat} (h : Visited root source s v size) (hn : s.HasChild i n)
    (hstep : Visit.Onward size s n v w) (hw : w ≠ .skip) :
    ∃ size', Visited root source (s.child i n) w size' := by
  have hnext : (v.respond source size s).2 n = w := respond_of_onward hstep
  refine ⟨_, hnext ▸ h.child hn.child hn.named ?_⟩
  rwa [hnext]

end Response

section Agreement

variable {root : Node} {source : List Char}

structure ListsParameters (root : Node) (source : List Char) (f : Site) (i : Nat) (l : Node)
    (inner outer : Nat) : Prop where
  child : f.HasChild i l
  kind : f.kind.isFunction = true
  role : l.role = some .parameters
  inner : Numbered root source inner ⟨.function, f⟩
  outer : ∃ b, StandsIn root f b ∧ Numbered root source outer b

def Visit.Agrees (root : Node) (source : List Char) (s : Site) : Visit → Prop
  | skip => False
  | code k => ∃ b, StandsIn root s b ∧ Numbered root source k b
  | classBody outer => ∃ p i n, s = p.child i n ∧ p.HasChild i n ∧ p.kind = .classDefinition ∧
      n.role = some .body ∧ ∃ b, StandsIn root p b ∧ Numbered root source outer b
  | parameters inner outer => ∃ f i l, s = f.child i l ∧
      ListsParameters root source f i l inner outer
  | parameter inner outer => ∃ f i l j q, s = (f.child i l).child j q ∧
      ListsParameters root source f i l inner outer ∧ (f.child i l).HasChild j q
  | pattern k => ∃ f b, StandsIn root f b ∧ f.kind.isFunction = true ∧
      Numbered root source k ⟨.function, f⟩ ∧ ∀ w, s.HasWord w → f.IsParameter w

theorem Visited.agrees {s : Site} {v : Visit} {size : Nat} (h : Visited root source s v size) :
    v.Agrees root source s := by
  induction h with
  | top hn hnamed => exact ⟨_, .top ⟨hn, hnamed⟩, .top⟩
  | @child s v size i n h hn hnamed hnext ih =>
    have hchild : s.HasChild i n := ⟨hn, hnamed⟩
    have hstep := respond_onward hnext
    generalize (v.respond source size s).2 n = w at hstep
    cases hstep with
    | parameters hk hr =>
      obtain ⟨b, hs, hb⟩ := ih
      exact ⟨s, i, n, rfl, hchild, hk, hr, .function h hk, b, hs, hb⟩
    | body hk hr =>
      obtain ⟨b, hs, -⟩ := ih
      exact ⟨_, .body hs hchild hk hr, .function h hk⟩
    | result hk hr =>
      obtain ⟨b, hs, hb⟩ := ih
      exact ⟨b, .same hs hchild (.result hk hr), hb⟩
    | bases hk hr =>
      obtain ⟨b, hs, hb⟩ := ih
      exact ⟨b, .same hs hchild (.bases hk hr), hb⟩
    | classBody hk hr =>
      obtain ⟨b, hs, hb⟩ := ih
      exact ⟨s, i, n, rfl, hchild, hk, hr, b, hs, hb⟩
    | comprehension hk =>
      obtain ⟨b, hs, -⟩ := ih
      exact ⟨_, .element hs hchild hk, .comprehension h hk⟩
    | object hk hr =>
      obtain ⟨b, hs, hb⟩ := ih
      exact ⟨b, .same hs hchild (.object hk hr), hb⟩
    | argument hk hr =>
      obtain ⟨b, hs, hb⟩ := ih
      exact ⟨b, .same hs hchild (.argument hk hr), hb⟩
    | ordinary hk =>
      obtain ⟨b, hs, hb⟩ := ih
      exact ⟨b, .same hs hchild (.ordinary hk), hb⟩
    | member =>
      obtain ⟨p, j, m, rfl, hm, hk, hr, b, hp, -⟩ := ih
      exact ⟨_, .member hp hm hk hr hchild, .classBody h⟩
    | parameter =>
      obtain ⟨f, j, l, rfl, hl⟩ := ih
      exact ⟨f, j, l, i, n, rfl, hl, hchild⟩
    | name hk hr =>
      obtain ⟨f, j, l, k, q, rfl, hl, hq⟩ := ih
      obtain ⟨b, hf, -⟩ := hl.outer
      exact ⟨f, b, hf, hl.kind, hl.inner, fun w hw =>
        .part hl.child hl.role hq hchild (.name hk hr) hw⟩
    | typed hk htype =>
      obtain ⟨f, j, l, k, q, rfl, hl, hq⟩ := ih
      obtain ⟨b, hf, -⟩ := hl.outer
      exact ⟨f, b, hf, hl.kind, hl.inner, fun w hw =>
        .part hl.child hl.role hq hchild (.typed hk htype) hw⟩
    | splat hk =>
      obtain ⟨f, j, l, k, q, rfl, hl, hq⟩ := ih
      obtain ⟨b, hf, -⟩ := hl.outer
      exact ⟨f, b, hf, hl.kind, hl.inner, fun w hw =>
        .part hl.child hl.role hq hchild (.splat hk) hw⟩
    | value hk hr =>
      obtain ⟨f, j, l, k, q, rfl, hl, hq⟩ := ih
      obtain ⟨b, hf, hb⟩ := hl.outer
      exact ⟨b, .outside hf hl.child hl.kind hl.role hq hchild (.value hk hr), hb⟩
    | typing hk htype =>
      obtain ⟨f, j, l, k, q, rfl, hl, hq⟩ := ih
      obtain ⟨b, hf, hb⟩ := hl.outer
      exact ⟨b, .outside hf hl.child hl.kind hl.role hq hchild (.typing hk htype), hb⟩
    | pattern =>
      obtain ⟨f, b, hf, hk, hnum, hwords⟩ := ih
      exact ⟨f, b, hf, hk, hnum, fun w hw => hwords w (.deeper hchild hw)⟩

theorem StandsIn.visited {s : Site} {b : Block} (h : StandsIn root s b) (source : List Char) :
    ∃ k size, Visited root source s (.code k) size ∧ Numbered root source k b := by
  induction h with
  | top hn => exact ⟨_, _, .top hn.child hn.named, .top⟩
  | same _ hn hsame ih =>
    obtain ⟨k, size, hs, hb⟩ := ih
    obtain ⟨size', hn⟩ := hs.onward hn hsame.onward (by simp)
    exact ⟨k, size', hn, hb⟩
  | body _ hn hk hr ih =>
    obtain ⟨k, size, hs, -⟩ := ih
    obtain ⟨size', hn⟩ := hs.onward hn (.body hk hr) (by simp)
    exact ⟨size, size', hn, .function hs hk⟩
  | member _ hn hk hr hm ih =>
    obtain ⟨k, size, hs, -⟩ := ih
    obtain ⟨size', hn⟩ := hs.onward hn (.classBody hk hr) (by simp)
    obtain ⟨size'', hm⟩ := hn.onward hm .member (by simp)
    exact ⟨size', size'', hm, .classBody hn⟩
  | element _ hn hk ih =>
    obtain ⟨k, size, hs, -⟩ := ih
    obtain ⟨size', hn⟩ := hs.onward hn (.comprehension hk) (by simp)
    exact ⟨size, size', hn, .comprehension hs hk⟩
  | outside _ hl hk hr hq hn hout ih =>
    obtain ⟨k, size, hs, hb⟩ := ih
    obtain ⟨size₁, hl⟩ := hs.onward hl (.parameters hk hr) (by simp)
    obtain ⟨size₂, hq⟩ := hl.onward hq .parameter (by simp)
    obtain ⟨size₃, hn⟩ := hq.onward hn hout.onward (by simp)
    exact ⟨k, size₃, hn, hb⟩

theorem Visited.hasWord {s w : Site} {k size : Nat}
    (hword : ∀ n : Node, n.Within root → n.kind = .identifier → n.children = [])
    (h : Visited root source s (.pattern k) size) (hw : s.HasWord w) :
    w.kind = .identifier ∧ ∃ size', Visited root source w (.pattern k) size' := by
  induction hw generalizing size with
  | word hk => exact ⟨hk, size, h⟩
  | @deeper s w i n hn _ ih =>
    have hk : s.kind ≠ .identifier := by
      intro hk
      have hchild := hn.child
      rw [hword s.node h.inTree.within hk] at hchild
      cases hchild
    obtain ⟨size', hn⟩ := h.onward hn (.pattern hk) (by simp)
    exact ih hn

theorem Site.IsParameter.visited {f w : Site} {outer k : Nat}
    (hword : ∀ n : Node, n.Within root → n.kind = .identifier → n.children = [])
    (h : Visited root source f (.code outer) k) (hk : f.kind.isFunction = true)
    (hw : f.IsParameter w) : w.kind = .identifier ∧ ∃ v size, Visited root source w v size ∧
      (v = .parameter k outer ∨ v = .pattern k) := by
  cases hw with
  | plain hl hr hq hkind =>
    obtain ⟨size₁, hl⟩ := h.onward hl (.parameters hk hr) (by simp)
    obtain ⟨size₂, hq⟩ := hl.onward hq .parameter (by simp)
    exact ⟨hkind, _, size₂, hq, .inl rfl⟩
  | part hl hr hq hn hpart hw =>
    obtain ⟨size₁, hl⟩ := h.onward hl (.parameters hk hr) (by simp)
    obtain ⟨size₂, hq⟩ := hl.onward hq .parameter (by simp)
    obtain ⟨size₃, hn⟩ := hq.onward hn hpart.onward (by simp)
    obtain ⟨hkind, size₄, hw⟩ := hn.hasWord hword hw
    exact ⟨hkind, _, size₄, hw, .inr rfl⟩

end Agreement

section Numbers

variable {root : Node} {source : List Char} {s : Site} {v : Visit} {b b' : Block} {k k' size : Nat}

theorem length_filterMap_opening? (es : List Effect) :
    (es.filterMap Effect.opening?).length = opensIn es := by
  induction es with
  | nil => rfl
  | cons e es ih =>
    rw [opensIn_cons, ← ih]
    cases e with
    | opened => exact Nat.add_comm _ 1
    | bound | used | declaredGlobal | declaredNonlocal => exact (Nat.zero_add _).symm

theorem Visited.opening {o : Opening} (h : Visited root source s v size)
    (ho : ((v.respond source size s).1.filterMap Effect.opening?).head? = some o) :
    (ScopeTable.openings root source)[size]? = some o := by
  obtain ⟨es, fs, hlog, hsize⟩ := h.split
  have hlength := length_filterMap_opening? es
  have hindex : size = (es.filterMap Effect.opening?).length + 1 := by omega
  rw [ScopeTable.openings, hlog, tour_eq, List.append_assoc, List.filterMap_append,
    List.filterMap_append]
  generalize (v.respond source size s).1 = rs at ho ⊢
  rw [hindex, List.getElem?_cons_succ, List.getElem?_append_right (Nat.le_refl _), Nat.sub_self,
    ← List.head?_eq_getElem?, List.head?_append, ho]
  rfl

theorem filterMap_opening?_ofPart {scope : Nat} {r : Role} :
    (Effect.ofPart source scope r s).filterMap Effect.opening? = [] := by
  refine List.filterMap_eq_nil_iff.2 fun e he => ?_
  obtain ⟨p, -, rfl⟩ := List.mem_map.1 he
  rfl

theorem Numbered.opening (h : Numbered root source k b) :
    (k = ScopeTable.moduleScope ∧ b = Block.top root) ∨ ∃ p b',
      (ScopeTable.openings root source)[k]? = some ⟨b.kind, some p, b.container⟩ ∧
        b.kind ≠ .module ∧ StandsIn root b.container b' ∧ Numbered root source p b' := by
  cases h with
  | top => exact .inl ⟨rfl, rfl⟩
  | @function s outer _ h hk =>
    obtain ⟨b', hs, hb'⟩ := h.agrees
    refine .inr ⟨outer, b', h.opening ?_, by simp, hs, hb'⟩
    obtain hk | hk := Kind.isFunction_iff.1 hk <;>
      simp only [Visit.respond, Visit.respondCode, hk, List.filterMap_append,
        filterMap_opening?_ofPart, List.nil_append] <;> rfl
  | @comprehension s outer _ h hk =>
    obtain ⟨b', hs, hb'⟩ := h.agrees
    refine .inr ⟨outer, b', h.opening ?_, by simp, hs, hb'⟩
    obtain hk | hk | hk | hk := Kind.isComprehension_iff.1 hk <;>
      simp only [Visit.respond, Visit.respondCode, hk] <;> rfl
  | @classBody s outer _ h =>
    have hopening := h.opening rfl
    obtain ⟨p, i, n, rfl, -, -, -, b', hp, hb'⟩ := h.agrees
    exact .inr ⟨outer, b', hopening, by simp, hp, hb'⟩

theorem before_mono {next : Node → Visit} {i j : Nat} (hij : i ≤ j) :
    Visit.before source s next size i ≤ Visit.before source s next size j := by
  obtain ⟨d, rfl⟩ := Nat.exists_eq_add_of_le hij
  unfold Visit.before
  rw [List.take_add, tourAll_append, opensIn_append]
  omega

theorem Visited.of_child {p : Site} {i : Nat} {n : Node}
    (h : Visited root source (p.child i n) v k) (hp : p ≠ Site.root root) : ∃ w size,
      Visited root source p w size ∧ p.HasChild i n ∧ v ≠ .skip ∧
        (w.respond source size p).2 n = v ∧
        k = Visit.before source p (w.respond source size p).2
          (size + opensIn (w.respond source size p).1) i := by
  generalize hc : p.child i n = c at h
  cases h with
  | top =>
    obtain ⟨rfl, -, -⟩ := Site.child_inj hc
    exact absurd rfl hp
  | child h hn hnamed hnext =>
    obtain ⟨rfl, rfl, rfl⟩ := Site.child_inj hc
    exact ⟨_, _, h, ⟨hn, hnamed⟩, hnext, rfl, rfl⟩

theorem Visited.size_lt {p : Site} {i j outer : Nat} {n m : Node}
    (hi : Visited root source (p.child i n) (.classBody outer) k)
    (hj : Visited root source (p.child j m) v k') (hij : i < j) : k < k' := by
  have hp : p ≠ Site.root root := by
    obtain ⟨q, l, d, hc, -, -, -, b, hq, -⟩ := hi.agrees
    obtain ⟨rfl, -, -⟩ := Site.child_inj hc
    obtain ⟨_, _, hq, -⟩ := hq.visited source
    exact hq.ne_root
  obtain ⟨w, size, h, hn, hskip, hbody, rfl⟩ := hi.of_child hp
  obtain ⟨w', size', h', -, -, -, rfl⟩ := hj.of_child hp
  obtain ⟨rfl, rfl⟩ := h.unique h'
  have hmono : Visit.before source p (w.respond source size p).2
      (size + opensIn (w.respond source size p).1) (i + 1) ≤
      Visit.before source p (w.respond source size p).2
        (size + opensIn (w.respond source size p).1) j := before_mono hij
  rw [before_succ hn.child, if_pos (by simp [hn.named, hbody]), hbody] at hmono
  have hopens (fuel : Nat) : 0 < opensIn (Visit.tour source n (.classBody outer)
      (i :: p.address) (p.node :: p.above) fuel) := by
    rw [show Visit.tour source n (.classBody outer) (i :: p.address) (p.node :: p.above) fuel = _
      from tour_eq (.classBody outer) (p.child i n) fuel]
    rw [opensIn_append]
    exact Nat.add_pos_left Nat.one_pos _
  have := hopens (Visit.before source p (w.respond source size p).2
    (size + opensIn (w.respond source size p).1) i)
  omega

theorem Numbered.opened (h : Numbered root source k b) : ∃ parent,
    (ScopeTable.openings root source)[k]? = some ⟨b.kind, parent, b.container⟩ := by
  obtain ⟨rfl, rfl⟩ | ⟨p, b', hopening, -⟩ := h.opening
  · exact ⟨none, rfl⟩
  · exact ⟨some p, hopening⟩

theorem Numbered.block_unique (h : Numbered root source k b) (h' : Numbered root source k b') :
    b = b' := by
  obtain ⟨parent, ho⟩ := h.opened
  obtain ⟨parent', ho'⟩ := h'.opened
  obtain ⟨hkind, -, hcontainer⟩ := Opening.mk.inj (Option.some.inj (ho.symm.trans ho'))
  obtain ⟨kind, site⟩ := b
  obtain ⟨kind', site'⟩ := b'
  obtain rfl : kind = kind' := hkind
  by_cases hk : kind = .classBody
  · subst hk
    cases h with
    | classBody h =>
      cases h' with
      | classBody h' =>
        obtain ⟨p, i, n, rfl, hn, -⟩ := h.agrees
        obtain ⟨p', j, m, rfl, hm, -⟩ := h'.agrees
        obtain rfl : p = p' := hcontainer
        have hij : i = j := by
          obtain hij | hij | hij := Nat.lt_trichotomy i j
          · exact absurd (h.size_lt h' hij) (Nat.lt_irrefl k)
          · exact hij
          · exact absurd (h'.size_lt h hij) (Nat.lt_irrefl k)
        subst hij
        obtain rfl : n = m := Option.some.inj (hn.child.symm.trans hm.child)
        rfl
  · simp only [Block.container, hk, if_false] at hcontainer
    rw [hcontainer]

theorem Numbered.unique (h : Numbered root source k b) (h' : Numbered root source k' b) :
    k = k' := by
  cases h with
  | top =>
    generalize hb : Block.top root = b at h'
    cases h' with
    | top => rfl
    | function | comprehension | classBody => cases hb
  | function h =>
    cases h' with
    | function h' => exact (h.unique h').2
  | comprehension h =>
    cases h' with
    | comprehension h' => exact (h.unique h').2
  | classBody h =>
    cases h' with
    | classBody h' => exact (h.unique h').2

theorem StandsIn.unique (h : StandsIn root s b) (h' : StandsIn root s b') : b = b' := by
  obtain ⟨k, size, hs, hb⟩ := h.visited []
  obtain ⟨k', size', hs', hb'⟩ := h'.visited []
  obtain ⟨hk, -⟩ := hs.unique hs'
  cases hk
  exact hb.block_unique hb'

end Numbers

end Reroot.Python

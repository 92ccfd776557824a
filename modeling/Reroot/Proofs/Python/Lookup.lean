import Reroot.Proofs.Python.Blocks
import Reroot.Proofs.Python.Declared

namespace Reroot.Python

def Site.InOutermost (s c : Site) : Prop :=
  ∃ i clause j n, c.node.children.findIdx? (fun m => m.kind == .forInClause) = some i ∧
    c.node.children[i]? = some clause ∧ clause.children[j]? = some n ∧ n.role ≠ some .left ∧
    ((c.child i clause).child j n).Holds s

inductive RunsIn (root : Node) : Site → Block → Prop
  | inside {s : Site} {b : Block} (h : StandsIn root s b)
      (hin : b.kind = .comprehension → ¬s.InOutermost b.site) : RunsIn root s b
  | around {s c : Site} {b : Block} (h : StandsIn root s ⟨.comprehension, c⟩)
      (hout : s.InOutermost c) (hc : RunsIn root c b) : RunsIn root s b

inductive Hosts (root : Node) : Site → Block → Prop
  | here {s : Site} {b : Block} (h : StandsIn root s b) (hk : b.kind ≠ .comprehension) :
      Hosts root s b
  | around {s c : Site} {b : Block} (h : StandsIn root s ⟨.comprehension, c⟩) (hc : Hosts root c b) :
      Hosts root s b

def Site.isWalrus (s : Site) : Bool :=
  s.kind == .identifier && s.isPart .name && s.parent?.any fun p => p.kind == .namedExpression

def Kind.isUnpacked (k : Kind) : Bool :=
  [Kind.patternList, .tuplePattern, .listPattern, .listSplatPattern, .tuple, .listDisplay, .listSplat,
    .parenthesizedExpression, .expressionList].contains k

inductive Site.IsTarget : Site → Prop
  | assigned {s p : Site} (hp : s.parent? = some p) (hk : p.kind = .assignment ∨
      p.kind = .augmentedAssignment ∨ p.kind = .forStatement ∨ p.kind = .forInClause)
      (hs : s.isPart .left = true) : IsTarget s
  | walrus {s p : Site} (hp : s.parent? = some p) (hk : p.kind = .namedExpression)
      (hs : s.isPart .name = true) : IsTarget s
  | renamed {s p : Site} (hp : s.parent? = some p) (hk : p.kind = .asPatternTarget) : IsTarget s
  | deleted {s p : Site} (hp : s.parent? = some p) (hk : p.kind = .deleteStatement) : IsTarget s
  | caught {s p : Site} {n : Node} (hp : s.parent? = some p) (hk : p.kind = .exceptClause)
      (hn : s.previous? = some n) (hmark : n.kind = .mark "as" ∨ n.kind = .mark ",") : IsTarget s
  | element {s p : Site} (hp : s.parent? = some p) (hk : p.kind.isUnpacked = true)
      (h : IsTarget p) : IsTarget s

inductive Site.IsCaptured (s : Site) : Prop
  | bare {d p : Site} (hd : s.parent? = some d) (hk : d.kind = .dottedName)
      (hone : d.namedChildren.length = 1) (hp : d.parent? = some p)
      (hpattern : p.kind = .casePattern ∨ p.kind = .unionPattern ∨ p.kind = .keywordPattern)
  | star {p : Site} (hp : s.parent? = some p) (hk : p.kind = .splatPattern)
  | renamed {p q : Site} (hp : s.parent? = some p) (hk : p.kind = .asPattern)
      (hq : p.parent? = some q) (hpattern : q.kind = .casePattern)

def Site.importedName? (source : List Char) (statement : Kind) (item : Site) : Option String :=
  if item.kind = .aliasedImport then (item.part? .asName).map (·.node.text source)
  else if statement ≠ .importStatement then some (item.node.text source)
  else if item.kind = .dottedName then (item.node.segments source).head?
  else none

inductive Site.Introduces (source : List Char) (s : Site) (x : String) : Prop
  | assigned (hk : s.kind = .identifier) (htarget : s.IsTarget) (htext : s.node.text source = x)
  | captured (hk : s.kind = .identifier) (hs : s.IsCaptured) (htext : s.node.text source = x)
  | defined {p : Site} (hk : s.kind = .functionDefinition ∨ s.kind = .classDefinition)
      (hp : s.part? .name = some p) (htext : p.node.text source = x)
  | imported {item : Site} (hk : s.kind = .importStatement ∨ s.kind = .importFromStatement ∨
      s.kind = .futureImportStatement) (hitem : item ∈ s.parts .name)
      (hname : item.importedName? source s.kind = some x)

inductive Binds (root : Node) (source : List Char) (b : Block) (x : String) : Prop
  | own {s : Site} (h : StandsIn root s b) (hwalrus : s.isWalrus = false)
      (hs : s.Introduces source x)
  | walrus {s : Site} (h : Hosts root s b) (hwalrus : s.isWalrus = true)
      (hs : s.Introduces source x)
  | parameter {f w : Site} {b' : Block} (hb : b = ⟨.function, f⟩) (hf : StandsIn root f b')
      (hk : f.kind.isFunction = true) (hw : f.IsParameter w) (htext : w.node.text source = x)

def Declares (root : Node) (source : List Char) (statement : Kind) (b : Block) (x : String) : Prop :=
  ∃ s item, StandsIn root s b ∧ s.kind = statement ∧ item ∈ s.namedChildren ∧
    item.kind = .identifier ∧ item.node.text source = x

def Block.Seen (inner : Bool) (b : Block) : Prop :=
  b.kind = .classBody → inner = true

inductive LooksUp (root : Node) (source : List Char) (x : String) : Bool → Block → Block → Prop
  | top {inner : Bool} : LooksUp root source x inner (Block.top root) (Block.top root)
  | hidden {inner : Bool} {b b' o : Block} (hseen : ¬b.Seen inner)
      (hb : RunsIn root b.container b') (h : LooksUp root source x false b' o) :
      LooksUp root source x inner b o
  | global {inner : Bool} {b : Block} (hk : b.kind ≠ .module) (hseen : b.Seen inner)
      (hglobal : Declares root source .globalStatement b x) :
      LooksUp root source x inner b (Block.top root)
  | own {inner : Bool} {b : Block} (hk : b.kind ≠ .module) (hseen : b.Seen inner)
      (hglobal : ¬Declares root source .globalStatement b x)
      (hnonlocal : ¬Declares root source .nonlocalStatement b x) (hbinds : Binds root source b x) :
      LooksUp root source x inner b b
  | outward {inner : Bool} {b b' o : Block} (hk : b.kind ≠ .module) (hseen : b.Seen inner)
      (hglobal : ¬Declares root source .globalStatement b x)
      (hfree : Declares root source .nonlocalStatement b x ∨ ¬Binds root source b x)
      (hb : RunsIn root b.container b') (h : LooksUp root source x false b' o) :
      LooksUp root source x inner b o

def Site.IsTyping (s : Site) : Prop :=
  ∃ a ∈ s.ancestors, a.kind = .typeAliasStatement ∨ a.kind = .typeParameter ∧
    a.parent?.any (fun p => p.kind == .functionDefinition || p.kind == .classDefinition) = true

def SetApart (root : Node) (source : List Char) (σ : Site) (x : String) : Prop :=
  (∃ s : Site, s.InTree root ∧ s.kind = .identifier ∧ s.IsTyping ∧ s.node.text source = x) ∨
    ("__".toList <+: x.toList ∧ ¬"__".toList <:+ x.toList ∧
      ∃ a ∈ σ.ancestors, a.kind = .classDefinition)

inductive Use.BelongsTo (root : Node) (source : List Char) (u : Use) : Block → Prop
  | declared (hk : u.kind = .globalDecl) : BelongsTo root source u (Block.top root)
  | reached {b o : Block} (hk : u.kind ≠ .globalDecl) (hapart : ¬SetApart root source u.site u.name)
      (hb : RunsIn root u.site b) (h : LooksUp root source u.name true b o) :
      BelongsTo root source u o

def Site.IsUnseen (s : Site) : Prop :=
  s.kind = .identifier ∧ s.IsCaptured

structure Regular (root : Node) (source : List Char) (σ : Site) (x : String) : Prop where
  outermost : ∀ c, σ.InOutermost c → ¬Binds root source ⟨.comprehension, c⟩ x
  classBody : ∀ b, RunsIn root σ b → b.kind = .classBody → ¬StandsIn root σ b →
    ¬Binds root source b x
  walrus : ∀ s c, StandsIn root s ⟨.comprehension, c⟩ → s.isWalrus = true →
    s.node.text source = x →
      ¬c.Holds σ ∧ ∀ b, Hosts root s b → b.kind ≠ .module → ¬b.site.Holds σ
  captured : ∀ s b, StandsIn root s b → s.IsUnseen → s.node.text source = x → b.kind ≠ .module →
    ¬b.site.Holds σ
  declared : ∀ b, b.kind = .classBody → b.site.Holds σ →
    ¬Declares root source .nonlocalStatement b x ∧
      (Declares root source .globalStatement b x → StandsIn root σ b)
  inBlock : ¬SetApart root source σ x

theorem Site.isStoreIn_iff {s : Site} {above : List Site} (h : s.ancestors = above) :
    s.isStoreIn above = true ↔ s.IsTarget := by
  induction above generalizing s with
  | nil =>
    have hnone {p : Site} : s.parent? ≠ some p := by simp [Site.parent?, h]
    constructor
    · simp [Site.isStoreIn]
    · rintro (hp | hp | hp | hp | hp | hp) <;> exact absurd hp hnone
  | cons p above ih =>
    obtain ⟨hparent, habove⟩ := Site.ancestors_eq_cons h
    have same {q : Site} (hq : s.parent? = some q) : q = p :=
      Option.some.inj (hq.symm.trans hparent)
    constructor
    · intro hstore
      unfold Site.isStoreIn at hstore
      split at hstore
      case h_1 hk | h_2 hk | h_3 hk | h_4 hk | h_5 hk | h_6 hk | h_7 hk | h_8 hk | h_9 hk =>
        exact .element hparent (by rw [hk]; rfl) ((ih habove).1 hstore)
      case h_10 hk | h_11 hk | h_12 hk | h_13 hk => exact .assigned hparent (by simp [hk]) hstore
      case h_14 hk => exact .walrus hparent hk hstore
      case h_15 hk => exact .renamed hparent hk
      case h_16 hk => exact .deleted hparent hk
      case h_17 hk =>
        obtain ⟨n, hn, hmark⟩ := Option.any_eq_true _ _ |>.1 hstore
        exact .caught hparent hk hn (by simpa using hmark)
      case h_18 => cases hstore
    · intro htarget
      cases htarget with
      | assigned hp hk hs =>
        obtain rfl := same hp
        obtain hk | hk | hk | hk := hk <;> simpa [Site.isStoreIn, hk] using hs
      | walrus hp hk hs =>
        obtain rfl := same hp
        simpa [Site.isStoreIn, hk] using hs
      | renamed hp hk | deleted hp hk =>
        obtain rfl := same hp
        simp [Site.isStoreIn, hk]
      | caught hp hk hn hmark =>
        obtain rfl := same hp
        simpa [Site.isStoreIn, hk, hn] using hmark
      | element hp hk hinner =>
        obtain rfl := same hp
        have hstore := (ih habove).2 hinner
        unfold Site.isStoreIn
        split <;> first | exact hstore | simp_all [Kind.isUnpacked]

theorem Site.isStore_iff {s : Site} : s.isStore = true ↔ s.IsTarget :=
  isStoreIn_iff rfl

theorem Site.IsCaptured.isStore {s : Site} (h : s.IsCaptured) : s.isStore = false := by
  obtain ⟨p, hp, hk⟩ : ∃ p, s.parent? = some p ∧
      (p.kind = .dottedName ∨ p.kind = .splatPattern ∨ p.kind = .asPattern) := by
    cases h with
    | bare hd hk => exact ⟨_, hd, .inl hk⟩
    | star hp hk => exact ⟨_, hp, .inr (.inl hk)⟩
    | renamed hp hk => exact ⟨_, hp, .inr (.inr hk)⟩
  unfold Site.isStore
  cases habove : s.ancestors with
  | nil => rfl
  | cons q above =>
    obtain rfl := Option.some.inj (hp.symm.trans (Site.ancestors_eq_cons habove).1)
    obtain hk | hk | hk := hk <;> simp [Site.isStoreIn, hk]

def BoundIn (es : List Effect) (k : Nat) (x : String) : Prop :=
  ∃ imported σ, .bound k x imported σ ∈ es

section Response

variable {source : List Char} {s : Site} {x : String} {k scope size : Nat}

theorem boundIn_respond_code : BoundIn ((Visit.code scope).respond source size s).1 k x ↔
    scope = k ∧ s.Introduces source x ∧ ¬s.IsUnseen := by
  have seen (hk : s.kind ≠ .identifier) : ¬s.IsUnseen := fun h => hk h.1
  constructor
  · rintro ⟨_, _, h⟩
    cases does_of_mem_respond h with
    | name hk hp =>
      exact ⟨rfl, .defined hk hp rfl, seen (by obtain hk | hk := hk <;> simp [hk])⟩
    | whole hk hitem hi hpath =>
      exact ⟨rfl, .imported (.inl hk) hitem (by simp [Site.importedName?, hk, hi, hpath]),
        seen (by simp [hk])⟩
    | aliased hk hitem hi hp =>
      exact ⟨rfl, .imported hk hitem (by simp [Site.importedName?, hi, hp]),
        seen (by obtain hk | hk | hk := hk <;> simp [hk])⟩
    | member hk hitem hi =>
      refine ⟨rfl, .imported (.inr hk) hitem ?_, seen ?_⟩ <;> obtain hk | hk := hk
      · simp [Site.importedName?, hk, hi]
      · simp [Site.importedName?, hk, hi]
      · simp [hk]
      · simp [hk]
    | assigns hk hs =>
      refine ⟨rfl, .assigned hk (Site.isStore_iff.1 hs) rfl, fun hunseen => ?_⟩
      rw [hunseen.2.isStore] at hs
      cases hs
  · rintro ⟨rfl, h, hseen⟩
    cases h with
    | assigned hk htarget htext =>
      exact ⟨_, _, htext ▸ (Visit.Does.assigns hk (Site.isStore_iff.2 htarget)).mem_respond⟩
    | captured hk hs => exact absurd ⟨hk, hs⟩ hseen
    | defined hk hp htext => exact ⟨_, _, htext ▸ (Visit.Does.name hk hp).mem_respond⟩
    | imported hk hitem hname =>
      unfold Site.importedName? at hname
      split at hname
      · next hi =>
        obtain ⟨p, hp, htext⟩ := Option.map_eq_some_iff.1 hname
        exact ⟨_, _, htext ▸ (Visit.Does.aliased hk hitem hi hp).mem_respond⟩
      split at hname
      · next hi hne =>
        cases hname
        exact ⟨_, _, (Visit.Does.member (hk.resolve_left hne) hitem hi).mem_respond⟩
      split at hname
      · next hwhole hi =>
        obtain ⟨rest, hpath⟩ := List.head?_eq_some_iff.1 hname
        exact ⟨_, _, (Visit.Does.whole (not_not.1 hwhole) hitem hi hpath).mem_respond⟩
      · cases hname

theorem boundIn_respond_parameter {inner outer : Nat} :
    BoundIn ((Visit.parameter inner outer).respond source size s).1 k x ↔
      inner = k ∧ s.kind = .identifier ∧ s.node.text source = x := by
  constructor
  · rintro ⟨_, _, h⟩
    cases does_of_mem_respond h with
    | parameter hk => exact ⟨rfl, hk, rfl⟩
  · rintro ⟨rfl, hk, rfl⟩
    exact ⟨_, _, (Visit.Does.parameter hk).mem_respond⟩

theorem boundIn_respond_pattern :
    BoundIn ((Visit.pattern scope).respond source size s).1 k x ↔
      scope = k ∧ s.kind = .identifier ∧ s.node.text source = x := by
  constructor
  · rintro ⟨_, _, h⟩
    cases does_of_mem_respond h with
    | pattern hk => exact ⟨rfl, hk, rfl⟩
  · rintro ⟨rfl, hk, rfl⟩
    exact ⟨_, _, (Visit.Does.pattern hk).mem_respond⟩

theorem exists_of_not_isPlain {v : Visit} {e : Effect} (he : e ∈ (v.respond source size s).1)
    (hplain : ¬e.IsPlain source) : ∃ k, v = .code k ∧
      ((∃ item ∈ s.namedChildren, item.kind = .identifier ∧
        (s.kind = .globalStatement ∧ (e = .declaredGlobal k item ∨ e = .used k .globalDecl item) ∨
          s.kind = .nonlocalStatement ∧ e = .declaredNonlocal k item)) ∨
        ∃ kind, kind ≠ .globalDecl ∧ e = .used k kind s) := by
  cases does_of_mem_respond he with
  | declaresGlobal hk hitem hi => exact ⟨_, rfl, .inl ⟨_, hitem, hi, .inl ⟨hk, .inl rfl⟩⟩⟩
  | usesGlobal hk hitem hi => exact ⟨_, rfl, .inl ⟨_, hitem, hi, .inl ⟨hk, .inr rfl⟩⟩⟩
  | declaresNonlocal hk hitem hi => exact ⟨_, rfl, .inl ⟨_, hitem, hi, .inr ⟨hk, rfl⟩⟩⟩
  | stores | loads => exact ⟨_, rfl, .inr ⟨_, by simp, rfl⟩⟩
  | function | comprehension | classBody => exact absurd trivial hplain
  | whole => exact absurd (by simp [Effect.IsPlain]) hplain
  | name | aliased | member | assigns | parameter | pattern => exact absurd isPlain_ofText hplain

end Response

theorem Site.kind_of_isWalrus {s : Site} (h : s.isWalrus = true) : s.kind = .identifier := by
  simp only [Site.isWalrus, Bool.and_eq_true, beq_iff_eq] at h
  exact h.1.1

theorem Site.Introduces.text_eq {source : List Char} {s : Site} {x : String}
    (h : s.Introduces source x) (hk : s.kind = .identifier) : s.node.text source = x := by
  cases h with
  | assigned _ _ htext | captured _ _ htext => exact htext
  | defined hk' => simp [hk] at hk'
  | imported hk' => simp [hk] at hk'

namespace ScopeTable

variable {root : Node} {source : List Char} {k : Nat} {scope : Scope} {b : Block} {x : String}

theorem mem_globals_iff (h : (build root source).scopes[k]? = some scope) :
    x ∈ scope.globals ↔
      ∃ σ : Site, .declaredGlobal k σ ∈ log root source ∧ σ.node.text source = x := by
  rw [scopes_build] at h
  obtain ⟨o, -, rfl⟩ := Option.map_eq_some_iff.1 h
  change x ∈ (log root source).filterMap (Effect.global? source k) ↔ _
  rw [List.mem_filterMap]
  constructor
  · rintro ⟨e, he, htext⟩
    cases e with
    | declaredGlobal i σ =>
      rw [Effect.global?, Option.ite_none_right_eq_some] at htext
      obtain ⟨rfl, htext⟩ := htext
      exact ⟨σ, he, Option.some.inj htext⟩
    | opened | bound | used | declaredNonlocal => cases htext
  · rintro ⟨σ, he, rfl⟩
    exact ⟨_, he, if_pos rfl⟩

theorem mem_nonlocals_iff (h : (build root source).scopes[k]? = some scope) :
    x ∈ scope.nonlocals ↔
      ∃ σ : Site, .declaredNonlocal k σ ∈ log root source ∧ σ.node.text source = x := by
  rw [scopes_build] at h
  obtain ⟨o, -, rfl⟩ := Option.map_eq_some_iff.1 h
  change x ∈ (log root source).filterMap (Effect.nonlocal? source k) ↔ _
  rw [List.mem_filterMap]
  constructor
  · rintro ⟨e, he, htext⟩
    cases e with
    | declaredNonlocal i σ =>
      rw [Effect.nonlocal?, Option.ite_none_right_eq_some] at htext
      obtain ⟨rfl, htext⟩ := htext
      exact ⟨σ, he, Option.some.inj htext⟩
    | opened | bound | used | declaredGlobal => cases htext
  · rintro ⟨σ, he, rfl⟩
    exact ⟨_, he, if_pos rfl⟩

theorem exists_of_declared {e : Effect} {σ : Site} (hb : Numbered root source k b)
    (he : e ∈ log root source)
    (hd : e = .declaredGlobal k σ ∨ e = .declaredNonlocal k σ) : ∃ s, StandsIn root s b ∧
      σ ∈ s.namedChildren ∧ σ.kind = .identifier ∧
      (s.kind = .globalStatement ∧ e = .declaredGlobal k σ ∨
        s.kind = .nonlocalStatement ∧ e = .declaredNonlocal k σ) := by
  obtain ⟨s, v, size, hs, hmem⟩ := exists_visited_of_mem_log he
  have hplain : ¬e.IsPlain source := by
    obtain rfl | rfl := hd <;> exact id
  obtain ⟨k', rfl, ⟨item, hitem, hword, hcases⟩ | ⟨kind, -, rfl⟩⟩ := exists_of_not_isPlain hmem hplain
  · obtain ⟨b', hstands, hb'⟩ := hs.agrees
    obtain ⟨hk, rfl | rfl⟩ | ⟨hk, rfl⟩ := hcases <;> obtain hd | hd := hd <;> cases hd <;>
      obtain rfl := hb.block_unique hb'
    · exact ⟨s, hstands, hitem, hword, .inl ⟨hk, rfl⟩⟩
    · exact ⟨s, hstands, hitem, hword, .inr ⟨hk, rfl⟩⟩
  · obtain hd | hd := hd <;> cases hd

theorem mem_globals_iff_declares (hb : Numbered root source k b)
    (h : (build root source).scopes[k]? = some scope) :
    x ∈ scope.globals ↔ Declares root source .globalStatement b x := by
  rw [mem_globals_iff h]
  constructor
  · rintro ⟨σ, he, htext⟩
    obtain ⟨s, hs, hitem, hword, ⟨hk, -⟩ | ⟨-, hne⟩⟩ := exists_of_declared hb he (.inl rfl)
    · exact ⟨s, σ, hs, hk, hitem, hword, htext⟩
    · cases hne
  · rintro ⟨s, item, hs, hk, hitem, hword, htext⟩
    obtain ⟨k', size, hvisited, hb'⟩ := hs.visited source
    obtain rfl := hb.unique hb'
    exact ⟨item, hvisited.mem_log _ (Visit.Does.declaresGlobal hk hitem hword).mem_respond, htext⟩

theorem mem_nonlocals_iff_declares (hb : Numbered root source k b)
    (h : (build root source).scopes[k]? = some scope) :
    x ∈ scope.nonlocals ↔ Declares root source .nonlocalStatement b x := by
  rw [mem_nonlocals_iff h]
  constructor
  · rintro ⟨σ, he, htext⟩
    obtain ⟨s, hs, hitem, hword, ⟨-, hne⟩ | ⟨hk, -⟩⟩ := exists_of_declared hb he (.inr rfl)
    · cases hne
    · exact ⟨s, σ, hs, hk, hitem, hword, htext⟩
  · rintro ⟨s, item, hs, hk, hitem, hword, htext⟩
    obtain ⟨k', size, hvisited, hb'⟩ := hs.visited source
    obtain rfl := hb.unique hb'
    exact ⟨item, hvisited.mem_log _ (Visit.Does.declaresNonlocal hk hitem hword).mem_respond, htext⟩

theorem binds_iff (h : (build root source).scopes[k]? = some scope) :
    scope.binds x = true ↔ BoundIn (log root source) k x := by
  rw [Scope.binds, (scope_build h).1, List.any_map, List.any_eq_true]
  constructor
  · rintro ⟨⟨name, imported, σ⟩, he, hname⟩
    obtain rfl : name = x := beq_iff_eq.1 hname
    exact ⟨imported, σ, mem_entriesIn.1 he⟩
  · rintro ⟨imported, σ, he⟩
    exact ⟨_, mem_entriesIn.2 he, beq_iff_eq.2 rfl⟩

theorem binds_iff_binds (hword : ∀ n : Node, n.Within root → n.kind = .identifier → n.children = [])
    {σ : Site} (hregular : Regular root source σ x) (hb : Numbered root source k b)
    (hholds : b.site.Holds σ) (hmodule : b.kind ≠ .module)
    (h : (build root source).scopes[k]? = some scope) :
    scope.binds x = true ↔ Binds root source b x := by
  have hlog {s : Site} {v : Visit} {size : Nat} (hs : Visited root source s v size)
      (hbound : BoundIn (v.respond source size s).1 k x) : BoundIn (log root source) k x := by
    obtain ⟨imported, σ, he⟩ := hbound
    exact ⟨imported, σ, hs.mem_log _ he⟩
  rw [binds_iff h]
  constructor
  · rintro ⟨imported, τ, he⟩
    obtain ⟨s, v, size, hs, hmem⟩ := exists_visited_of_mem_log he
    have hbound : BoundIn (v.respond source size s).1 k x := ⟨imported, τ, hmem⟩
    cases v with
    | skip | parameters => cases hmem
    | classBody => cases List.mem_singleton.1 hmem
    | code scope' =>
      obtain ⟨rfl, hintro, -⟩ := boundIn_respond_code.1 hbound
      obtain ⟨b', hstands, hb'⟩ := hs.agrees
      obtain rfl := hb.block_unique hb'
      cases hw : s.isWalrus with
      | false => exact .own hstands hw hintro
      | true =>
        refine .walrus (.here hstands fun hk => ?_) hw hintro
        obtain ⟨kind, c⟩ := b
        cases hk
        exact (hregular.walrus s c hstands hw (hintro.text_eq (Site.kind_of_isWalrus hw))).1 hholds
    | parameter inner outer =>
      obtain ⟨rfl, hk, htext⟩ := boundIn_respond_parameter.1 hbound
      obtain ⟨f, i, l, j, q, rfl, hl, hq⟩ := hs.agrees
      obtain ⟨b', hf, -⟩ := hl.outer
      exact .parameter (hb.block_unique hl.inner) hf hl.kind (.plain hl.child hl.role hq hk) htext
    | pattern scope' =>
      obtain ⟨rfl, hk, htext⟩ := boundIn_respond_pattern.1 hbound
      obtain ⟨f, b', hf, hfun, hinner, hwords⟩ := hs.agrees
      exact .parameter (hb.block_unique hinner) hf hfun (hwords s (.word hk)) htext
  · intro hbinds
    have code {s : Site} (hs : StandsIn root s b) (hintro : s.Introduces source x) :
        BoundIn (log root source) k x := by
      obtain ⟨k', size, hvisited, hb'⟩ := hs.visited source
      obtain rfl := hb.unique hb'
      refine hlog hvisited (boundIn_respond_code.2 ⟨rfl, hintro, fun hunseen => ?_⟩)
      exact hregular.captured s b hs hunseen (hintro.text_eq hunseen.1) hmodule hholds
    cases hbinds with
    | own hs _ hintro => exact code hs hintro
    | walrus hs hw hintro =>
      cases hs with
      | here hs => exact code hs hintro
      | around hs hc =>
        exact absurd hholds
          ((hregular.walrus _ _ hs hw (hintro.text_eq (Site.kind_of_isWalrus hw))).2 _ (.around hs hc) hmodule)
    | parameter hfunction hf hk hw htext =>
      obtain ⟨outer, size, hvisited, -⟩ := hf.visited source
      subst hfunction
      obtain rfl := hb.unique (.function hvisited hk)
      obtain ⟨hkind, v, size', hw, rfl | rfl⟩ := hw.visited hword hvisited hk
      · exact hlog hw (boundIn_respond_parameter.2 ⟨rfl, hkind, htext⟩)
      · exact hlog hw (boundIn_respond_pattern.2 ⟨rfl, hkind, htext⟩)

end ScopeTable

section Unique

variable {root : Node} {source : List Char} {s : Site} {b b' o o' : Block} {x : String} {k : Nat}

theorem RunsIn.unique (h : RunsIn root s b) (h' : RunsIn root s b') : b = b' := by
  induction h with
  | inside h hin =>
    cases h' with
    | inside h' => exact h.unique h'
    | around h' hout =>
      obtain rfl := h.unique h'
      exact absurd hout (hin rfl)
  | around h hout _ ih =>
    cases h' with
    | inside h' hin =>
      obtain rfl := h.unique h'
      exact absurd hout (hin rfl)
    | around h' _ hc =>
      cases h.unique h'
      exact ih hc

theorem LooksUp.unique {inner : Bool} (h : LooksUp root source x inner b o)
    (h' : LooksUp root source x inner b o') : o = o' := by
  induction h with
  | top =>
    generalize hb : Block.top root = b at h'
    cases h' with
    | top => rfl
    | hidden hseen => exact absurd (fun hk => by rw [← hb] at hk; cases hk) hseen
    | global hk | own hk | outward hk => exact absurd (by rw [← hb]; rfl) hk
  | hidden hseen hb _ ih =>
    cases h' with
    | top => exact absurd (fun hk => by cases hk) hseen
    | hidden _ hb' h' =>
      obtain rfl := hb.unique hb'
      exact ih h'
    | global _ hseen' | own _ hseen' | outward _ hseen' => exact absurd hseen' hseen
  | global hk hseen hglobal =>
    cases h' with
    | top => rfl
    | hidden hseen' => exact absurd hseen hseen'
    | global => rfl
    | own _ _ hglobal' | outward _ _ hglobal' => exact absurd hglobal hglobal'
  | own hk hseen hglobal hnonlocal hbinds =>
    cases h' with
    | top => rfl
    | hidden hseen' => exact absurd hseen hseen'
    | global _ _ hglobal' => exact absurd hglobal' hglobal
    | own => rfl
    | outward _ _ _ hfree => exact (hfree.elim hnonlocal fun hfree => hfree hbinds).elim
  | outward hk hseen hglobal hfree hb _ ih =>
    cases h' with
    | top => exact absurd rfl hk
    | hidden hseen' => exact absurd hseen hseen'
    | global _ _ hglobal' => exact absurd hglobal' hglobal
    | own _ _ _ hnonlocal hbinds => exact (hfree.elim hnonlocal fun hfree => hfree hbinds).elim
    | outward _ _ _ _ hb' h' =>
      obtain rfl := hb.unique hb'
      exact ih h'

theorem StandsIn.holds (h : StandsIn root s b) : b.site.Holds s := by
  induction h with
  | top => exact Site.holds_child _ _ _
  | same _ _ _ ih => exact ih.trans (Site.holds_child _ _ _)
  | body | element => exact Site.holds_child _ _ _
  | member => exact Site.holds_child _ _ _
  | outside _ _ _ _ _ _ _ ih =>
    exact ((ih.trans (Site.holds_child _ _ _)).trans (Site.holds_child _ _ _)).trans
      (Site.holds_child _ _ _)

theorem Numbered.container_holds (h : Numbered root source k b) : b.container.Holds b.site := by
  cases h with
  | top | function | comprehension => exact List.suffix_rfl
  | classBody h =>
    obtain ⟨p, i, n, rfl, -⟩ := h.agrees
    exact p.holds_child i n

theorem not_declares_comprehension {c : Site} {statement : Kind}
    (hshape : root.All (Node.Shaped expressionEnclosure source))
    (hc : Numbered root source k ⟨.comprehension, c⟩) (hk : statement.isStatement = true) :
    ¬Declares root source statement ⟨.comprehension, c⟩ x := by
  rintro ⟨s, item, hs, rfl, -⟩
  cases hc with
  | comprehension h hcomprehension =>
    obtain ⟨_, _, hs', -⟩ := hs.visited source
    have hstatement : c.kind.isStatement = false := by
      obtain hk | hk | hk | hk := Kind.isComprehension_iff.1 hcomprehension <;> rw [hk] <;> rfl
    have hwithin : s.node.Within c.node := by
      obtain rfl | hmem := (h.inTree.holds_iff hs'.inTree).1 hs.holds
      · exact .self
      · exact Site.within_of_mem_ancestors hs'.inTree c hmem
    have hfalse := Node.All.isStatement_eq_false
      (fun m hm => hshape m (hm.trans h.inTree.within)) hstatement hwithin
    rw [show s.node.kind.isStatement = true from hk] at hfalse
    cases hfalse

end Unique

section Verdict

variable {scope : Scope} {inner : Bool} {x : String}

theorem Scope.verdict_of_globals (h : x ∈ scope.globals) : scope.verdict inner x = .module :=
  ScopeTable.verdict_eq_module_iff.2 (.inr h)

theorem Scope.verdict_own (hk : scope.kind ≠ .module) (hglobal : x ∉ scope.globals)
    (hnonlocal : x ∉ scope.nonlocals) (hbinds : scope.binds x = true)
    (hseen : scope.kind = .classBody → inner = true) : scope.verdict inner x = .own :=
  ScopeTable.verdict_eq_own_iff.2
    ⟨hglobal, ScopeTable.canOwn_iff.2 ⟨hk, hseen, fun _ => hnonlocal⟩, hbinds⟩

theorem Scope.verdict_outward (hk : scope.kind ≠ .module) (hglobal : x ∉ scope.globals)
    (h : ScopeTable.CanOwn scope inner x → ¬scope.binds x = true) :
    scope.verdict inner x = .outward := by
  refine ScopeTable.verdict_eq_outward_iff.2 ⟨fun hmodule => ?_, fun hown => ?_⟩
  · exact (ScopeTable.verdict_eq_module_iff.1 hmodule).elim hk hglobal
  · obtain ⟨-, hcan, hbinds⟩ := ScopeTable.verdict_eq_own_iff.1 hown
    exact h hcan hbinds

theorem Scope.verdict_nonlocal (hk : scope.kind ≠ .module) (hclass : scope.kind ≠ .classBody)
    (hglobal : x ∉ scope.globals) (hnonlocal : x ∈ scope.nonlocals) :
    scope.verdict inner x = .outward :=
  verdict_outward hk hglobal fun hcan =>
    absurd hnonlocal ((ScopeTable.canOwn_iff.1 hcan).2.2 hclass)

theorem Scope.verdict_hidden (hclass : scope.kind = .classBody) (hglobal : x ∉ scope.globals) :
    scope.verdict false x = .outward :=
  verdict_outward (by simp [hclass]) hglobal fun hcan =>
    absurd ((ScopeTable.canOwn_iff.1 hcan).2.1 hclass) Bool.false_ne_true

end Verdict

theorem Site.InOutermost.trans {s t c : Site} (h : s.InOutermost c) (hs : s.Holds t) :
    t.InOutermost c := by
  obtain ⟨i, clause, j, n, hi, hclause, hn, hr, hholds⟩ := h
  exact ⟨i, clause, j, n, hi, hclause, hn, hr, hholds.trans hs⟩

namespace ScopeTable

variable {root : Node} {source : List Char} {σ s : Site} {b : Block} {x : String} {k : Nat}
  {inner : Bool}

theorem exists_scope_parent (hb : Numbered root source k b) :
    (k = moduleScope ∧ b = Block.top root) ∨ ∃ scope p b',
      (build root source).scopes[k]? = some scope ∧ scope.kind = b.kind ∧ b.kind ≠ .module ∧
        scope.parent = some p ∧ StandsIn root b.container b' ∧ Numbered root source p b' := by
  obtain h | ⟨p, b', ho, hk, hstands, hp⟩ := hb.opening
  · exact .inl h
  · exact .inr ⟨_, p, b', (scopes_build root source k).trans (by rw [ho]; rfl), rfl, hk, rfl,
      hstands, hp⟩

theorem owner_of_outward {scope : Scope} {p : Nat}
    (h : (build root source).scopes[k]? = some scope) (hp : scope.parent = some p)
    (hv : scope.verdict inner x = .outward) :
    (build root source).owner x inner k = (build root source).owner x false p ∧ p < k := by
  have ht := ordered_build root source
  rw [owner_eq ht h, hv, hp]
  exact ⟨rfl, ht.parent_lt k scope h p hp⟩

theorem children_eq_nil (hshape : root.All (Node.Shaped expressionEnclosure source)) (n : Node)
    (hn : n.Within root) (hk : n.kind = .identifier) : n.children = [] :=
  ((hshape n hn).word hk).1

theorem exists_runsIn (hshape : root.All (Node.Shaped expressionEnclosure source))
    (hregular : Regular root source σ x) (hs : StandsIn root s b) (hb : Numbered root source k b)
    (hσ : s.Holds σ) : ∃ b' k', RunsIn root s b' ∧ Numbered root source k' b' ∧ b'.site.Holds s ∧
      (b' = b ∧ k' = k ∨ k' < k ∧ ∀ inner, (build root source).owner x inner k =
        (build root source).owner x false k') := by
  induction k using Nat.strong_induction_on generalizing s b with
  | _ k ih =>
    by_cases hin : b.kind = .comprehension ∧ s.InOutermost b.site
    · obtain ⟨kind, c⟩ := b
      obtain ⟨rfl, hin⟩ : kind = .comprehension ∧ s.InOutermost c := hin
      obtain ⟨-, htop⟩ | ⟨scope, p, b₁, hscope, hkind, hk, hp, hc, hb₁⟩ := exists_scope_parent hb
      · cases htop
      have hpass (inner : Bool) : (build root source).owner x inner k =
          (build root source).owner x false p ∧ p < k := by
        refine owner_of_outward hscope hp ?_
        refine Scope.verdict_outward (by rw [hkind]; exact hk) ?_ fun _ => ?_
        · rw [mem_globals_iff_declares hb hscope]
          exact not_declares_comprehension hshape hb rfl
        · rw [binds_iff_binds (children_eq_nil hshape) hregular hb (hs.holds.trans hσ) hk hscope]
          exact hregular.outermost c (hin.trans hσ)
      obtain ⟨b', k', hruns, hb', hholds, hcases⟩ :=
        ih p (hpass true).2 (s := c) hc hb₁ (hs.holds.trans hσ)
      refine ⟨b', k', .around hs hin hruns, hb', hholds.trans hs.holds, .inr ?_⟩
      have hlt := (hpass true).2
      obtain ⟨-, rfl⟩ | ⟨hlt', howner⟩ := hcases
      · exact ⟨hlt, fun inner => (hpass inner).1⟩
      · exact ⟨by omega, fun inner => (hpass inner).1.trans (howner false)⟩
    · exact ⟨b, k, .inside hs fun hk h => hin ⟨hk, h⟩, hb, hs.holds, .inl ⟨rfl, rfl⟩⟩

theorem exists_looksUp (hshape : root.All (Node.Shaped expressionEnclosure source))
    (hregular : Regular root source σ x) {b₀ : Block} {k₀ : Nat} (hσ : StandsIn root σ b₀)
    (h₀ : Numbered root source k₀ b₀) (hb : Numbered root source k b) (hholds : b.site.Holds σ)
    (hle : k ≤ k₀) (hinner : inner = false → k ≠ k₀) : ∃ o, LooksUp root source x inner b o ∧
      Numbered root source ((build root source).owner x inner k) o := by
  induction k using Nat.strong_induction_on generalizing b inner with
  | _ k ih =>
    obtain ⟨rfl, rfl⟩ | ⟨scope, p, b₁, hscope, hkind, hk, hp, hc, hb₁⟩ := exists_scope_parent hb
    · have hle := owner_le (ordered_build root source) x inner moduleScope
      rw [Nat.le_zero.1 hle]
      exact ⟨_, .top, .top⟩
    have hk' : scope.kind ≠ .module := by rwa [hkind]
    have outward (hv : scope.verdict inner x = .outward) : ∃ b' o, RunsIn root b.container b' ∧
        LooksUp root source x false b' o ∧
        Numbered root source ((build root source).owner x inner k) o := by
      obtain ⟨howner, hlt⟩ := owner_of_outward hscope hp hv
      have hσ' := hb.container_holds.trans hholds
      obtain ⟨b', k', hruns, hb', hholds', hcases⟩ := exists_runsIn hshape hregular hc hb₁ hσ'
      have hsame : k' ≤ p ∧ (build root source).owner x false p =
          (build root source).owner x false k' := by
        obtain ⟨-, rfl⟩ | ⟨hlt', howner'⟩ := hcases
        · exact ⟨Nat.le_refl _, rfl⟩
        · exact ⟨Nat.le_of_lt hlt', howner' false⟩
      obtain ⟨o, ho, hnum⟩ := ih k' (by omega) hb' (hholds'.trans hσ') (by omega) fun _ => by omega
      exact ⟨b', o, hruns, ho, by rw [howner, hsame.2]; exact hnum⟩
    have hmem := mem_globals_iff_declares (x := x) hb hscope
    by_cases hseen : b.Seen inner
    · by_cases hglobal : Declares root source .globalStatement b x
      · refine ⟨_, .global hk hseen hglobal, ?_⟩
        rw [owner_eq (ordered_build root source) hscope,
          Scope.verdict_of_globals (hmem.2 hglobal)]
        exact .top
      by_cases hnonlocal : Declares root source .nonlocalStatement b x
      · have hclass : scope.kind ≠ .classBody := by
          rw [hkind]
          exact fun hclass => (hregular.declared b hclass hholds).1 hnonlocal
        obtain ⟨b', o, hruns, ho, hnum⟩ := outward (Scope.verdict_nonlocal hk' hclass
          (mt hmem.1 hglobal) ((mem_nonlocals_iff_declares hb hscope).2 hnonlocal))
        exact ⟨o, .outward hk hseen hglobal (.inl hnonlocal) hruns ho, hnum⟩
      have hbinds_iff := binds_iff_binds (children_eq_nil hshape) hregular hb hholds hk hscope
      by_cases hbinds : Binds root source b x
      · refine ⟨b, .own hk hseen hglobal hnonlocal hbinds, ?_⟩
        rw [owner_eq (ordered_build root source) hscope, Scope.verdict_own hk' (mt hmem.1 hglobal)
          (mt (mem_nonlocals_iff_declares hb hscope).1 hnonlocal) (hbinds_iff.2 hbinds)
          (by rwa [hkind])]
        exact hb
      · obtain ⟨b', o, hruns, ho, hnum⟩ :=
          outward (Scope.verdict_outward hk' (mt hmem.1 hglobal) fun _ => mt hbinds_iff.1 hbinds)
        exact ⟨o, .outward hk hseen hglobal (.inr hbinds) hruns ho, hnum⟩
    · obtain ⟨hclass, hfalse⟩ := Classical.not_imp.1 hseen
      obtain rfl : inner = false := Bool.not_eq_true _ ▸ hfalse
      -- A declaration counts in the class body itself only, and this is another block.
      have hglobal : ¬Declares root source .globalStatement b x := by
        intro hglobal
        obtain rfl := hσ.unique ((hregular.declared b hclass hholds).2 hglobal)
        exact hinner rfl (hb.unique h₀)
      obtain ⟨b', o, hruns, ho, hnum⟩ :=
        outward (Scope.verdict_hidden (hkind.trans hclass) (mt hmem.1 hglobal))
      exact ⟨o, .hidden hseen hruns ho, hnum⟩

end ScopeTable

section Use

variable {root : Node} {u : Use}

theorem exists_visited_of_use {source : String}
    (hu : u ∈ (ScopeTable.build root source.toList).uses) :
    ∃ s size, Visited root source.toList s (.code u.scope) size ∧ s.Holds u.site ∧
      (s = u.site ∧ u.kind ≠ .globalDecl ∨
        s.kind = .globalStatement ∧ u.kind = .globalDecl ∧ u.site.parent? = some s) := by
  obtain ⟨hlog, -⟩ := ScopeTable.mem_uses hu
  obtain ⟨s, v, size, hs, he⟩ := exists_visited_of_mem_log hlog
  obtain ⟨k, rfl, ⟨item, hitem, -, ⟨hk, heq | heq⟩ | ⟨-, heq⟩⟩ | ⟨kind, hkind, heq⟩⟩ :=
    exists_of_not_isPlain he id
  · cases heq
  · obtain ⟨hscope, hkind, rfl⟩ := Effect.used.inj heq
    obtain ⟨i, n, -, hn⟩ := Site.exists_of_mem_namedChildren hitem
    rw [hscope, hn]
    exact ⟨s, size, hs, s.holds_child i n, .inr ⟨hk, hkind, rfl⟩⟩
  · cases heq
  · obtain ⟨hscope, rfl, rfl⟩ := Effect.used.inj heq
    rw [hscope]
    exact ⟨u.site, size, hs, List.suffix_rfl, .inl ⟨rfl, hkind⟩⟩

theorem LooksUp.of_outer {source : List Char} {x : String} {b o : Block}
    (h : LooksUp root source x false b o) (hfree : b.kind = .classBody →
      ¬Declares root source .globalStatement b x ∧ ¬Binds root source b x) :
    LooksUp root source x true b o := by
  cases h with
  | top => exact .top
  | hidden hseen hb h =>
    have hclass := (Classical.not_imp.1 hseen).1
    obtain ⟨hglobal, hbinds⟩ := hfree hclass
    exact .outward (by simp [hclass]) (fun _ => rfl) hglobal (.inr hbinds) hb h
  | global hk _ hglobal => exact .global hk (fun _ => rfl) hglobal
  | own hk _ hglobal hnonlocal hbinds => exact .own hk (fun _ => rfl) hglobal hnonlocal hbinds
  | outward hk _ hglobal hfree hb h => exact .outward hk (fun _ => rfl) hglobal hfree hb h

theorem exists_looksUp_of_use {source : String} (hparse : parse? source = some root)
    (hu : u ∈ (ScopeTable.build root source.toList).uses) (hkind : u.kind ≠ .globalDecl)
    (hregular : Regular root source.toList u.site u.name) : ∃ b o,
      Numbered root source.toList
        ((ScopeTable.build root source.toList).resolve u.scope u.name) o ∧
      RunsIn root u.site b ∧ LooksUp root source.toList u.name true b o := by
  have hshape := parse?_shaped expressionEnclosure_lawful hparse
  obtain ⟨s, size, hs, -, ⟨rfl, -⟩ | ⟨-, hglobal, -⟩⟩ := exists_visited_of_use hu
  swap
  · exact absurd hglobal hkind
  obtain ⟨b, hstands, hb⟩ := hs.agrees
  obtain ⟨b', k', hruns, hb', hholds, hcases⟩ :=
    ScopeTable.exists_runsIn hshape hregular hstands hb List.suffix_rfl
  refine ⟨b', ?_⟩
  obtain ⟨rfl, rfl⟩ | ⟨hlt, howner⟩ := hcases
  · obtain ⟨o, ho, hnum⟩ := ScopeTable.exists_looksUp hshape hregular hstands hb hb hholds
      (Nat.le_refl _) (show true = false → _ by simp)
    exact ⟨o, hnum, hruns, ho⟩
  · obtain ⟨o, ho, hnum⟩ := ScopeTable.exists_looksUp hshape hregular hstands hb hb' hholds
      (Nat.le_of_lt hlt) fun _ : false = false => Nat.ne_of_lt hlt
    rw [← howner true] at hnum
    refine ⟨o, hnum, hruns, ho.of_outer fun hclass => ?_⟩
    -- The node stands in a comprehension, and only is evaluated in the class body.
    have hne : ¬StandsIn root u.site b' := by
      intro h
      obtain rfl := hstands.unique h
      exact absurd (hb.unique hb') (Nat.ne_of_gt hlt)
    exact ⟨fun hglobal => hne ((hregular.declared b' hclass hholds).2 hglobal),
      hregular.classBody b' hruns hclass hne⟩

end Use

end Reroot.Python

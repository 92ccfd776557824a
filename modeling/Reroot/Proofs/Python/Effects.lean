import Reroot.Python.Scope
import Reroot.Proofs.Python.Sites

namespace Reroot.Python

inductive Effect where
  | opened (kind : ScopeKind) (parent : Nat) (container : Site)
  | bound (scope : Nat) (name : String) (imported : Option (List String)) (site : Site)
  | used (scope : Nat) (kind : UseKind) (site : Site)
  | declaredGlobal (scope : Nat) (site : Site)
  | declaredNonlocal (scope : Nat) (site : Site)

namespace Effect

def apply (source : List Char) (t : ScopeTable) : Effect → ScopeTable
  | opened kind parent container => t.pushScope kind parent container
  | bound scope name imported site => t.bind source scope name imported site
  | used scope kind site => t.record source scope kind site
  | declaredGlobal scope site =>
    t.modifyScope scope fun s => { s with globals := s.globals ++ [site.node.text source] }
  | declaredNonlocal scope site =>
    t.modifyScope scope fun s => { s with nonlocals := s.nonlocals ++ [site.node.text source] }

def opens : Effect → Nat
  | opened .. => 1
  | _ => 0

def ofText (source : List Char) (scope : Nat) (site : Site) : Effect :=
  bound scope (site.node.text source) none site

def ofPart (source : List Char) (scope : Nat) (r : Role) (site : Site) : List Effect :=
  (site.part? r).toList.map (ofText source scope)

def ofImport (source : List Char) (scope : Nat) (item : Site) : List Effect :=
  match item.kind with
  | .dottedName =>
    match item.node.segments source with
    | first :: rest => [bound scope first (some (first :: rest)) item]
    | [] => []
  | .aliasedImport => ofPart source scope .asName item
  | _ => []

def ofFromImport (source : List Char) (scope : Nat) (item : Site) : List Effect :=
  match item.kind with
  | .aliasedImport => ofPart source scope .asName item
  | _ => [ofText source scope item]

end Effect

open Effect in
def Visit.respondCode (source : List Char) (scope size : Nat) (site : Site) :
    List Effect × (Node → Visit) :=
  match site.kind with
  | .functionDefinition =>
    (ofPart source scope .name site ++ [opened .function scope site], fun c =>
      match c.role with
      | some .parameters => .parameters size scope
      | some .returnType => .code scope
      | some .body => .code size
      | _ => .skip)
  | .lambdaExpr =>
    ([opened .function scope site], fun c =>
      match c.role with
      | some .parameters => .parameters size scope
      | some .body => .code size
      | _ => .skip)
  | .classDefinition =>
    (ofPart source scope .name site, fun c =>
      match c.role with
      | some .superclasses => .code scope
      | some .body => .classBody scope
      | _ => .skip)
  | .listComprehension | .setComprehension | .dictionaryComprehension | .generatorExpression =>
    ([opened .comprehension scope site], fun _ => .code size)
  | .importStatement => ((site.parts .name).flatMap (ofImport source scope), fun _ => .skip)
  | .importFromStatement | .futureImportStatement =>
    ((site.parts .name).flatMap (ofFromImport source scope), fun _ => .skip)
  | .globalStatement =>
    ((site.namedChildren.filter (·.kind == .identifier)).flatMap fun item =>
      [declaredGlobal scope item, used scope .globalDecl item], fun _ => .skip)
  | .nonlocalStatement =>
    ((site.namedChildren.filter (·.kind == .identifier)).map (declaredNonlocal scope),
      fun _ => .skip)
  | .attribute => ([], fun c => if c.role == some .object then .code scope else .skip)
  | .keywordArgument => ([], fun c => if c.role == some .value then .code scope else .skip)
  | .identifier =>
    if site.isStore then ([ofText source scope site, used scope .store site], fun _ => .skip)
    else ([used scope .load site], fun _ => .skip)
  | _ => ([], fun _ => .code scope)

def Visit.respond (source : List Char) (v : Visit) (size : Nat) (site : Site) :
    List Effect × (Node → Visit) :=
  match v with
  | .skip => ([], fun _ => .skip)
  | .code scope => respondCode source scope size site
  | .classBody outer =>
    ([.opened .classBody outer (site.parent?.getD site)], fun _ => .code size)
  | .parameters inner outer => ([], fun _ => .parameter inner outer)
  | .parameter inner outer =>
    match site.kind with
    | .identifier => ([.ofText source inner site], fun _ => .skip)
    | .defaultParameter | .typedDefaultParameter =>
      ([], fun c =>
        match c.role with
        | some .name => .pattern inner
        | some .typeOf => .code outer
        | some .value => .code outer
        | _ => .skip)
    | .typedParameter =>
      ([], fun c => if c.kind == .typeExpr then .code outer else .pattern inner)
    | .listSplatPattern | .dictionarySplatPattern | .tuplePattern => ([], fun _ => .pattern inner)
    | _ => ([], fun _ => .skip)
  | .pattern scope =>
    match site.kind with
    | .identifier => ([.ofText source scope site], fun _ => .skip)
    | _ => ([], fun _ => .pattern scope)

section Parts

variable {s σ : Site}

theorem Site.part?_eq_some {r : Role} {c : Site} (h : s.part? r = some c) :
    ∃ i n, s.node.children[i]? = some n ∧ n.role = some r ∧ c = s.child i n := by
  unfold Site.part? at h
  split at h
  · next n i hfind =>
    cases h
    have hrole := List.find?_some hfind
    exact ⟨i, n, List.mem_zipIdx_iff_getElem?.1 (List.mem_of_find?_eq_some hfind),
      beq_iff_eq.1 hrole, rfl⟩
  · cases h

theorem Site.exists_of_mem_parts {r : Role} (h : σ ∈ s.parts r) :
    ∃ i n, s.node.children[i]? = some n ∧ n.role = some r ∧ σ = s.child i n := by
  obtain ⟨⟨n, i⟩, hp, rfl⟩ := List.mem_map.1 h
  obtain ⟨hmem, hrole⟩ := List.mem_filter.1 hp
  exact ⟨i, n, List.mem_zipIdx_iff_getElem?.1 hmem, beq_iff_eq.1 hrole, rfl⟩

theorem Site.exists_of_mem_namedChildren (h : σ ∈ s.namedChildren) :
    ∃ i n, s.node.children[i]? = some n ∧ σ = s.child i n := by
  obtain ⟨⟨n, i⟩, hp, rfl⟩ := List.mem_map.1 h
  exact ⟨i, n, List.mem_zipIdx_iff_getElem?.1 (List.mem_filter.1 hp).1, rfl⟩

end Parts

def Kind.isComprehension (k : Kind) : Bool :=
  [Kind.listComprehension, .setComprehension, .dictionaryComprehension,
    .generatorExpression].contains k

def Kind.isFunction (k : Kind) : Bool :=
  [Kind.functionDefinition, .lambdaExpr].contains k

def Kind.isOrdinary (k : Kind) : Bool :=
  !k.isFunction && !k.isComprehension && !([Kind.classDefinition, .importStatement,
    .importFromStatement, .futureImportStatement, .globalStatement, .nonlocalStatement, .attribute,
    .keywordArgument, .identifier].contains k)

theorem Kind.isFunction_iff {k : Kind} :
    k.isFunction = true ↔ k = .functionDefinition ∨ k = .lambdaExpr := by
  simp [Kind.isFunction]

theorem Kind.isComprehension_iff {k : Kind} : k.isComprehension = true ↔ k = .listComprehension ∨
    k = .setComprehension ∨ k = .dictionaryComprehension ∨ k = .generatorExpression := by
  simp [Kind.isComprehension]

inductive Visit.Does (source : List Char) (size : Nat) (s : Site) : Visit → Effect → Prop
  | name {scope : Nat} {p : Site} (hk : s.kind = .functionDefinition ∨ s.kind = .classDefinition)
      (hp : s.part? .name = some p) :
      Does source size s (.code scope) (.bound scope (p.node.text source) none p)
  | function {scope : Nat} (hk : s.kind.isFunction = true) :
      Does source size s (.code scope) (.opened .function scope s)
  | comprehension {scope : Nat} (hk : s.kind.isComprehension = true) :
      Does source size s (.code scope) (.opened .comprehension scope s)
  | whole {scope : Nat} {item : Site} {first : String} {rest : List String}
      (hk : s.kind = .importStatement) (hitem : item ∈ s.parts .name)
      (hi : item.kind = .dottedName) (hpath : item.node.segments source = first :: rest) :
      Does source size s (.code scope) (.bound scope first (some (first :: rest)) item)
  | aliased {scope : Nat} {item p : Site}
      (hk : s.kind = .importStatement ∨ s.kind = .importFromStatement ∨
        s.kind = .futureImportStatement)
      (hitem : item ∈ s.parts .name) (hi : item.kind = .aliasedImport)
      (hp : item.part? .asName = some p) :
      Does source size s (.code scope) (.bound scope (p.node.text source) none p)
  | member {scope : Nat} {item : Site}
      (hk : s.kind = .importFromStatement ∨ s.kind = .futureImportStatement)
      (hitem : item ∈ s.parts .name) (hi : item.kind ≠ .aliasedImport) :
      Does source size s (.code scope) (.bound scope (item.node.text source) none item)
  | declaresGlobal {scope : Nat} {item : Site} (hk : s.kind = .globalStatement)
      (hitem : item ∈ s.namedChildren) (hi : item.kind = .identifier) :
      Does source size s (.code scope) (.declaredGlobal scope item)
  | usesGlobal {scope : Nat} {item : Site} (hk : s.kind = .globalStatement)
      (hitem : item ∈ s.namedChildren) (hi : item.kind = .identifier) :
      Does source size s (.code scope) (.used scope .globalDecl item)
  | declaresNonlocal {scope : Nat} {item : Site} (hk : s.kind = .nonlocalStatement)
      (hitem : item ∈ s.namedChildren) (hi : item.kind = .identifier) :
      Does source size s (.code scope) (.declaredNonlocal scope item)
  | assigns {scope : Nat} (hk : s.kind = .identifier) (hs : s.isStore = true) :
      Does source size s (.code scope) (.bound scope (s.node.text source) none s)
  | stores {scope : Nat} (hk : s.kind = .identifier) (hs : s.isStore = true) :
      Does source size s (.code scope) (.used scope .store s)
  | loads {scope : Nat} (hk : s.kind = .identifier) (hs : s.isStore = false) :
      Does source size s (.code scope) (.used scope .load s)
  | classBody {outer : Nat} :
      Does source size s (.classBody outer) (.opened .classBody outer (s.parent?.getD s))
  | parameter {inner outer : Nat} (hk : s.kind = .identifier) :
      Does source size s (.parameter inner outer) (.bound inner (s.node.text source) none s)
  | pattern {scope : Nat} (hk : s.kind = .identifier) :
      Does source size s (.pattern scope) (.bound scope (s.node.text source) none s)

section Does

variable {source : List Char} {s : Site} {v : Visit} {e : Effect} {scope size : Nat}

theorem does_of_mem_respondCode (he : e ∈ (Visit.respondCode source scope size s).1) :
    (Visit.code scope).Does source size s e := by
  have named (hk : s.kind = .functionDefinition ∨ s.kind = .classDefinition)
      (he : e ∈ Effect.ofPart source scope .name s) : (Visit.code scope).Does source size s e := by
    obtain ⟨p, hp, rfl⟩ := List.mem_map.1 he
    exact .name hk (Option.mem_toList.1 hp)
  have comprehended (hk : s.kind.isComprehension = true)
      (he : e ∈ [Effect.opened .comprehension scope s]) :
      (Visit.code scope).Does source size s e := by
    obtain rfl := List.mem_singleton.1 he
    exact .comprehension hk
  have imported (hk : s.kind = .importFromStatement ∨ s.kind = .futureImportStatement)
      (he : e ∈ (s.parts .name).flatMap (Effect.ofFromImport source scope)) :
      (Visit.code scope).Does source size s e := by
    obtain ⟨item, hitem, he⟩ := List.mem_flatMap.1 he
    unfold Effect.ofFromImport at he
    split at he
    · next hi =>
      obtain ⟨p, hp, rfl⟩ := List.mem_map.1 he
      exact .aliased (.inr hk) hitem hi (Option.mem_toList.1 hp)
    · next hi =>
      obtain rfl := List.mem_singleton.1 he
      exact .member hk hitem hi
  unfold Visit.respondCode at he
  split at he
  · next hk =>
    obtain he | he := List.mem_append.1 he
    · exact named (.inl hk) he
    · obtain rfl := List.mem_singleton.1 he
      exact .function (by rw [hk]; rfl)
  · next hk =>
    obtain rfl := List.mem_singleton.1 he
    exact .function (by rw [hk]; rfl)
  · next hk => exact named (.inr hk) he
  · next hk => exact comprehended (by rw [hk]; rfl) he
  · next hk => exact comprehended (by rw [hk]; rfl) he
  · next hk => exact comprehended (by rw [hk]; rfl) he
  · next hk => exact comprehended (by rw [hk]; rfl) he
  · next hk =>
    obtain ⟨item, hitem, he⟩ := List.mem_flatMap.1 he
    unfold Effect.ofImport at he
    split at he
    · next hi =>
      split at he
      · next hpath =>
        obtain rfl := List.mem_singleton.1 he
        exact .whole hk hitem hi hpath
      · cases he
    · next hi =>
      obtain ⟨p, hp, rfl⟩ := List.mem_map.1 he
      exact .aliased (.inl hk) hitem hi (Option.mem_toList.1 hp)
    · cases he
  · next hk => exact imported (.inl hk) he
  · next hk => exact imported (.inr hk) he
  · next hk =>
    obtain ⟨item, hitem, he⟩ := List.mem_flatMap.1 he
    obtain ⟨hmem, hword⟩ := List.mem_filter.1 hitem
    obtain rfl | he := List.mem_cons.1 he
    · exact .declaresGlobal hk hmem (beq_iff_eq.1 hword)
    · obtain rfl := List.mem_singleton.1 he
      exact .usesGlobal hk hmem (beq_iff_eq.1 hword)
  · next hk =>
    obtain ⟨item, hitem, rfl⟩ := List.mem_map.1 he
    obtain ⟨hmem, hword⟩ := List.mem_filter.1 hitem
    exact .declaresNonlocal hk hmem (beq_iff_eq.1 hword)
  · cases he
  · cases he
  · next hk =>
    split at he
    · next hs =>
      obtain rfl | he := List.mem_cons.1 he
      · exact .assigns hk hs
      · obtain rfl := List.mem_singleton.1 he
        exact .stores hk hs
    · next hs =>
      obtain rfl := List.mem_singleton.1 he
      exact .loads hk (Bool.eq_false_iff.2 hs)
  · cases he

theorem does_of_mem_respond (he : e ∈ (v.respond source size s).1) : v.Does source size s e := by
  cases v with
  | skip | parameters => cases he
  | code scope => exact does_of_mem_respondCode he
  | classBody outer =>
    obtain rfl := List.mem_singleton.1 he
    exact .classBody
  | parameter inner outer =>
    unfold Visit.respond at he
    dsimp only at he
    split at he
    · next hk =>
      obtain rfl := List.mem_singleton.1 he
      exact .parameter hk
    all_goals cases he
  | pattern scope =>
    unfold Visit.respond at he
    dsimp only at he
    split at he
    · next hk =>
      obtain rfl := List.mem_singleton.1 he
      exact .pattern hk
    · cases he

theorem Visit.Does.mem_respond (h : v.Does source size s e) : e ∈ (v.respond source size s).1 := by
  have word {item : Site} (hitem : item ∈ s.namedChildren) (hi : item.kind = .identifier) :
      item ∈ s.namedChildren.filter (·.kind == .identifier) :=
    List.mem_filter.2 ⟨hitem, beq_iff_eq.2 hi⟩
  cases h with
  | name hk hp =>
    obtain hk | hk := hk <;>
      simp [respond, respondCode, hk, Effect.ofPart, hp, Effect.ofText]
  | function hk =>
    obtain hk | hk := Kind.isFunction_iff.1 hk <;> simp [respond, respondCode, hk]
  | comprehension hk =>
    obtain hk | hk | hk | hk := Kind.isComprehension_iff.1 hk <;> simp [respond, respondCode, hk]
  | whole hk hitem hi hpath =>
    rw [respond, respondCode, hk]
    exact List.mem_flatMap.2 ⟨_, hitem, by simp [Effect.ofImport, hi, hpath]⟩
  | aliased hk hitem hi hp =>
    obtain hk | hk | hk := hk <;> rw [respond, respondCode, hk] <;>
      refine List.mem_flatMap.2 ⟨_, hitem, ?_⟩ <;>
      simp [Effect.ofImport, Effect.ofFromImport, hi, Effect.ofPart, hp, Effect.ofText]
  | member hk hitem hi =>
    obtain hk | hk := hk <;> rw [respond, respondCode, hk] <;>
      refine List.mem_flatMap.2 ⟨_, hitem, ?_⟩ <;> simp [Effect.ofFromImport, Effect.ofText]
  | declaresGlobal hk hitem hi =>
    rw [respond, respondCode, hk]
    exact List.mem_flatMap.2 ⟨_, word hitem hi, List.mem_cons_self⟩
  | usesGlobal hk hitem hi =>
    rw [respond, respondCode, hk]
    exact List.mem_flatMap.2 ⟨_, word hitem hi, List.mem_cons_of_mem _ List.mem_cons_self⟩
  | declaresNonlocal hk hitem hi =>
    rw [respond, respondCode, hk]
    exact List.mem_map.2 ⟨_, word hitem hi, rfl⟩
  | assigns hk hs | stores hk hs | loads hk hs =>
    simp [respond, respondCode, hk, hs, Effect.ofText]
  | classBody => exact List.mem_cons_self
  | parameter hk | pattern hk => simp [respond, hk, Effect.ofText]

end Does

inductive Visit.Onward (size : Nat) (s : Site) (n : Node) : Visit → Visit → Prop
  | parameters {scope : Nat} (hk : s.kind.isFunction = true) (hr : n.role = some .parameters) :
      Onward size s n (.code scope) (.parameters size scope)
  | body {scope : Nat} (hk : s.kind.isFunction = true) (hr : n.role = some .body) :
      Onward size s n (.code scope) (.code size)
  | result {scope : Nat} (hk : s.kind = .functionDefinition) (hr : n.role = some .returnType) :
      Onward size s n (.code scope) (.code scope)
  | bases {scope : Nat} (hk : s.kind = .classDefinition) (hr : n.role = some .superclasses) :
      Onward size s n (.code scope) (.code scope)
  | classBody {scope : Nat} (hk : s.kind = .classDefinition) (hr : n.role = some .body) :
      Onward size s n (.code scope) (.classBody scope)
  | comprehension {scope : Nat} (hk : s.kind.isComprehension = true) :
      Onward size s n (.code scope) (.code size)
  | object {scope : Nat} (hk : s.kind = .attribute) (hr : n.role = some .object) :
      Onward size s n (.code scope) (.code scope)
  | argument {scope : Nat} (hk : s.kind = .keywordArgument) (hr : n.role = some .value) :
      Onward size s n (.code scope) (.code scope)
  | ordinary {scope : Nat} (hk : s.kind.isOrdinary = true) :
      Onward size s n (.code scope) (.code scope)
  | member {outer : Nat} : Onward size s n (.classBody outer) (.code size)
  | parameter {inner outer : Nat} :
      Onward size s n (.parameters inner outer) (.parameter inner outer)
  | name {inner outer : Nat}
      (hk : s.kind = .defaultParameter ∨ s.kind = .typedDefaultParameter)
      (hr : n.role = some .name) : Onward size s n (.parameter inner outer) (.pattern inner)
  | value {inner outer : Nat}
      (hk : s.kind = .defaultParameter ∨ s.kind = .typedDefaultParameter)
      (hr : n.role = some .typeOf ∨ n.role = some .value) :
      Onward size s n (.parameter inner outer) (.code outer)
  | typed {inner outer : Nat} (hk : s.kind = .typedParameter) (hn : n.kind ≠ .typeExpr) :
      Onward size s n (.parameter inner outer) (.pattern inner)
  | typing {inner outer : Nat} (hk : s.kind = .typedParameter) (hn : n.kind = .typeExpr) :
      Onward size s n (.parameter inner outer) (.code outer)
  | splat {inner outer : Nat} (hk : s.kind ∈ [Kind.listSplatPattern, .dictionarySplatPattern,
      .tuplePattern]) : Onward size s n (.parameter inner outer) (.pattern inner)
  | pattern {scope : Nat} (hk : s.kind ≠ .identifier) :
      Onward size s n (.pattern scope) (.pattern scope)

section Onward

variable {source : List Char} {s : Site} {n : Node} {v w : Visit} {scope size : Nat}

theorem respondCode_onward (h : (Visit.respondCode source scope size s).2 n ≠ .skip) :
    Visit.Onward size s n (.code scope) ((Visit.respondCode source scope size s).2 n) := by
  unfold Visit.respondCode at h ⊢
  split at h
  · next hk =>
    have hfun : s.kind.isFunction = true := by rw [hk]; rfl
    dsimp only at h ⊢
    split at h
    · next hr => exact .parameters hfun hr
    · next hr => exact .result hk hr
    · next hr => exact .body hfun hr
    · exact absurd rfl h
  · next hk =>
    have hfun : s.kind.isFunction = true := by rw [hk]; rfl
    dsimp only at h ⊢
    split at h
    · next hr => exact .parameters hfun hr
    · next hr => exact .body hfun hr
    · exact absurd rfl h
  · next hk =>
    dsimp only at h ⊢
    split at h
    · next hr => exact .bases hk hr
    · next hr => exact .classBody hk hr
    · exact absurd rfl h
  · next hk => exact .comprehension (by rw [hk]; rfl)
  · next hk => exact .comprehension (by rw [hk]; rfl)
  · next hk => exact .comprehension (by rw [hk]; rfl)
  · next hk => exact .comprehension (by rw [hk]; rfl)
  · exact absurd rfl h
  · exact absurd rfl h
  · exact absurd rfl h
  · exact absurd rfl h
  · exact absurd rfl h
  · next hk =>
    dsimp only at h ⊢
    split at h
    · next hr =>
      rw [if_pos hr]
      exact .object hk (beq_iff_eq.1 hr)
    · exact absurd rfl h
  · next hk =>
    dsimp only at h ⊢
    split at h
    · next hr =>
      rw [if_pos hr]
      exact .argument hk (beq_iff_eq.1 hr)
    · exact absurd rfl h
  · split at h <;> exact absurd rfl h
  · refine .ordinary ?_
    simp_all [Kind.isOrdinary, Kind.isFunction, Kind.isComprehension]

theorem respond_onward (h : (v.respond source size s).2 n ≠ .skip) :
    Visit.Onward size s n v ((v.respond source size s).2 n) := by
  cases v with
  | skip => exact absurd rfl h
  | code scope => exact respondCode_onward h
  | classBody outer => exact .member
  | parameters inner outer => exact .parameter
  | parameter inner outer =>
    unfold Visit.respond at h ⊢
    dsimp only at h ⊢
    split at h
    · exact absurd rfl h
    · next hk =>
      dsimp only at h ⊢
      split at h
      · next hr => exact .name (.inl hk) hr
      · next hr => exact .value (.inl hk) (.inl hr)
      · next hr => exact .value (.inl hk) (.inr hr)
      · exact absurd rfl h
    · next hk =>
      dsimp only at h ⊢
      split at h
      · next hr => exact .name (.inr hk) hr
      · next hr => exact .value (.inr hk) (.inl hr)
      · next hr => exact .value (.inr hk) (.inr hr)
      · exact absurd rfl h
    · next hk =>
      dsimp only
      split
      · next htype => exact .typing hk (beq_iff_eq.1 htype)
      · next htype => exact .typed hk fun heq => htype (beq_iff_eq.2 heq)
    · next hk => exact .splat (by simp [hk])
    · next hk => exact .splat (by simp [hk])
    · next hk => exact .splat (by simp [hk])
    · exact absurd rfl h
  | pattern scope =>
    unfold Visit.respond at h ⊢
    dsimp only at h ⊢
    split at h
    · exact absurd rfl h
    · next hk => exact .pattern hk

theorem respondCode_ordinary {scope : Nat} (hk : s.kind.isOrdinary = true) :
    Visit.respondCode source scope size s = ([], fun _ => .code scope) := by
  unfold Visit.respondCode
  split <;> first | rfl | (next heq => rw [heq] at hk; cases hk)

theorem respond_of_onward (h : Visit.Onward size s n v w) : (v.respond source size s).2 n = w := by
  cases h with
  | parameters hk hr | body hk hr =>
    obtain hk | hk := Kind.isFunction_iff.1 hk <;> simp [Visit.respond, Visit.respondCode, hk, hr]
  | result hk hr | bases hk hr | classBody hk hr | object hk hr | argument hk hr =>
    simp [Visit.respond, Visit.respondCode, hk, hr]
  | comprehension hk =>
    obtain hk | hk | hk | hk := Kind.isComprehension_iff.1 hk <;>
      simp [Visit.respond, Visit.respondCode, hk]
  | ordinary hk => rw [Visit.respond, respondCode_ordinary hk]
  | member | parameter => rfl
  | name hk hr => obtain hk | hk := hk <;> simp [Visit.respond, hk, hr]
  | value hk hr => obtain hk | hk := hk <;> obtain hr | hr := hr <;> simp [Visit.respond, hk, hr]
  | typed hk hn | typing hk hn => simp [Visit.respond, hk, hn]
  | splat hk =>
    simp only [List.mem_cons, List.not_mem_nil, or_false] at hk
    obtain hk | hk | hk := hk <;> simp [Visit.respond, hk]
  | pattern hk =>
    unfold Visit.respond
    dsimp only
    split
    · next heq => exact absurd heq hk
    · rfl

end Onward

end Reroot.Python

import Reroot.Proofs.Python.Effects

namespace Reroot.Python

def opensIn (es : List Effect) : Nat :=
  es.foldr (fun e n => e.opens + n) 0

namespace Visit

mutual

def tour (source : List Char) : Node → Visit → Address → List Node → Nat → List Effect
  | .mk r k s cs, v, address, above, size =>
    let node := Node.mk r k s cs
    let response := v.respond source size ⟨node, address, above⟩
    response.1
      ++ tourAll source cs 0 response.2 address (node :: above) (size + opensIn response.1)

def tourAll (source : List Char) :
    List Node → Nat → (Node → Visit) → Address → List Node → Nat → List Effect
  | [], _, _, _, _, _ => []
  | c :: cs, i, next, address, above, size =>
    let es := if c.isNamed && next c != .skip then tour source c (next c) (i :: address) above size
      else []
    es ++ tourAll source cs (i + 1) next address above (size + opensIn es)

end

end Visit

@[simp]
theorem opensIn_nil : opensIn [] = 0 := rfl

@[simp]
theorem opensIn_cons (e : Effect) (es : List Effect) : opensIn (e :: es) = e.opens + opensIn es :=
  rfl

@[simp]
theorem opensIn_append (es fs : List Effect) : opensIn (es ++ fs) = opensIn es + opensIn fs := by
  induction es with
  | nil => exact (Nat.zero_add _).symm
  | cons e es ih => rw [List.cons_append, opensIn_cons, opensIn_cons, ih, Nat.add_assoc]

section

variable (source : List Char) (t : ScopeTable)

theorem length_scopes_modifyScope (i : Nat) (f : Scope → Scope) :
    (t.modifyScope i f).scopes.length = t.scopes.length := by
  simp [ScopeTable.modifyScope]

theorem length_scopes_apply (e : Effect) :
    (e.apply source t).scopes.length = t.scopes.length + e.opens := by
  cases e with
  | opened kind parent container => simp [Effect.apply, ScopeTable.pushScope, Effect.opens]
  | bound scope name imported site => exact length_scopes_modifyScope t _ _
  | used scope kind site => rfl
  | declaredGlobal scope site => exact length_scopes_modifyScope t _ _
  | declaredNonlocal scope site => exact length_scopes_modifyScope t _ _

theorem length_scopes_foldl (es : List Effect) :
    (es.foldl (Effect.apply source) t).scopes.length = t.scopes.length + opensIn es := by
  induction es generalizing t with
  | nil => rfl
  | cons e es ih =>
    rw [List.foldl_cons, ih, length_scopes_apply, opensIn_cons]
    omega

theorem bindPart_eq (scope : Nat) (r : Role) (site : Site) :
    t.bindPart source scope r site =
      (Effect.ofPart source scope r site).foldl (Effect.apply source) t := by
  unfold ScopeTable.bindPart Effect.ofPart
  cases site.part? r <;> rfl

theorem bindImport_eq (scope : Nat) (item : Site) :
    ScopeTable.bindImport source scope t item =
      (Effect.ofImport source scope item).foldl (Effect.apply source) t := by
  unfold ScopeTable.bindImport Effect.ofImport
  cases item.kind with
  | dottedName => cases item.node.segments source <;> rfl
  | aliasedImport => exact bindPart_eq source t scope .asName item
  | _ => rfl

theorem bindFromImport_eq (scope : Nat) (item : Site) :
    ScopeTable.bindFromImport source scope t item =
      (Effect.ofFromImport source scope item).foldl (Effect.apply source) t := by
  unfold ScopeTable.bindFromImport Effect.ofFromImport
  cases item.kind with
  | aliasedImport => exact bindPart_eq source t scope .asName item
  | _ => rfl

theorem length_scopes_bindPart (scope : Nat) (r : Role) (site : Site) :
    (t.bindPart source scope r site).scopes.length = t.scopes.length := by
  unfold ScopeTable.bindPart
  split
  · exact length_scopes_modifyScope t _ _
  · rfl

end

theorem enterCode_eq (source : List Char) (scope : Nat) (t : ScopeTable) (site : Site) :
    Visit.enterCode source scope t site =
      ((Visit.respondCode source scope t.scopes.length site).1.foldl (Effect.apply source) t,
        (Visit.respondCode source scope t.scopes.length site).2) := by
  unfold Visit.enterCode Visit.respondCode
  cases site.kind with
  | functionDefinition =>
    simp only [length_scopes_bindPart, List.foldl_append, ← bindPart_eq]
    rfl
  | classDefinition => exact Prod.ext (bindPart_eq source t scope .name site) rfl
  | importStatement => simp only [List.foldl_flatMap, ← bindImport_eq]
  | importFromStatement | futureImportStatement =>
    simp only [List.foldl_flatMap, ← bindFromImport_eq]
  | globalStatement =>
    simp only [List.foldl_flatMap]
    rfl
  | nonlocalStatement =>
    simp only [List.foldl_map]
    rfl
  | identifier =>
    dsimp only
    split <;> rfl
  | _ => rfl

theorem enter_eq (source : List Char) (v : Visit) (t : ScopeTable) (site : Site) :
    v.enter source t site =
      ((v.respond source t.scopes.length site).1.foldl (Effect.apply source) t,
        (v.respond source t.scopes.length site).2) := by
  cases v with
  | skip => rfl
  | code scope => exact enterCode_eq source scope t site
  | classBody outer => rfl
  | parameters inner outer => rfl
  | parameter inner outer =>
    unfold Visit.enter Visit.respond
    dsimp only
    cases site.kind <;> rfl
  | pattern scope =>
    unfold Visit.enter Visit.respond
    dsimp only
    cases site.kind <;> rfl

mutual

theorem walk_eq (source : List Char) :
    ∀ (n : Node) (v : Visit) (address : Address) (above : List Node) (t : ScopeTable),
      Visit.walk source n v address above t =
        (Visit.tour source n v address above t.scopes.length).foldl (Effect.apply source) t
  | .mk r k s cs, v, address, above, t => by
    unfold Visit.walk Visit.tour
    dsimp only
    rw [enter_eq, walkAll_eq source cs, List.foldl_append, length_scopes_foldl]

theorem walkAll_eq (source : List Char) :
    ∀ (cs : List Node) (i : Nat) (next : Node → Visit) (address : Address) (above : List Node)
      (t : ScopeTable), Visit.walkAll source cs i next address above t =
        (Visit.tourAll source cs i next address above t.scopes.length).foldl (Effect.apply source) t
  | [], _, _, _, _, _ => by
    unfold Visit.walkAll Visit.tourAll
    rfl
  | c :: cs, i, next, address, above, t => by
    unfold Visit.walkAll Visit.tourAll
    dsimp only
    split
    · rw [walk_eq source c, walkAll_eq source cs, List.foldl_append, length_scopes_foldl]
    · rw [walkAll_eq source cs, List.nil_append, opensIn_nil]
      rfl

end

namespace ScopeTable

def start (root : Node) : ScopeTable :=
  ⟨[⟨.module, none, (Site.root root).landmark, [], [], []⟩], []⟩

def log (root : Node) (source : List Char) : List Effect :=
  Visit.tourAll source root.children 0 (fun _ => .code moduleScope) [] [root] 1

theorem build_eq (root : Node) (source : List Char) :
    build root source = (log root source).foldl (Effect.apply source) (start root) :=
  walkAll_eq source root.children 0 _ [] [root] (start root)

end ScopeTable

section Forall

variable {root : Node} {source : List Char} {I : Visit → Site → Prop} {Q : Effect → Prop}

mutual

theorem tour_forall
    (heffects : ∀ v size s, s.InTree root → I v s → ∀ e ∈ (v.respond source size s).1, Q e)
    (hnext : ∀ v size s i c, s.InTree root → I v s → s.node.children[i]? = some c →
      (v.respond source size s).2 c ≠ .skip → I ((v.respond source size s).2 c) (s.child i c)) :
    ∀ (n : Node) (v : Visit) (address : Address) (above : List Node) (size : Nat),
      (Site.mk n address above).InTree root → I v ⟨n, address, above⟩ →
        ∀ e ∈ Visit.tour source n v address above size, Q e
  | .mk r k s cs, v, address, above, size, hin, hI => by
    unfold Visit.tour
    refine List.forall_mem_append.2 ⟨heffects v size _ hin hI, ?_⟩
    refine tourAll_forall heffects hnext cs 0 _ ⟨.mk r k s cs, address, above⟩ _ hin ?_ ?_
    · intro j c hc
      rwa [Nat.zero_add]
    · intro j c hc hskip
      exact hnext v size _ j c hin hI hc hskip

theorem tourAll_forall
    (heffects : ∀ v size s, s.InTree root → I v s → ∀ e ∈ (v.respond source size s).1, Q e)
    (hnext : ∀ v size s i c, s.InTree root → I v s → s.node.children[i]? = some c →
      (v.respond source size s).2 c ≠ .skip → I ((v.respond source size s).2 c) (s.child i c)) :
    ∀ (cs : List Node) (i : Nat) (next : Node → Visit) (s : Site) (size : Nat), s.InTree root →
      (∀ j c, cs[j]? = some c → s.node.children[i + j]? = some c) →
      (∀ j c, s.node.children[j]? = some c → next c ≠ .skip → I (next c) (s.child j c)) →
        ∀ e ∈ Visit.tourAll source cs i next s.address (s.node :: s.above) size, Q e
  | [], _, _, _, _, _, _, _ => by
    unfold Visit.tourAll
    simp
  | c :: cs, i, next, s, size, hin, hcs, hI => by
    unfold Visit.tourAll
    have hc : s.node.children[i]? = some c := hcs 0 c rfl
    refine List.forall_mem_append.2 ⟨?_, ?_⟩
    · split
      · next hvisit =>
        have hskip : next c ≠ .skip := bne_iff_ne.1 (Bool.and_eq_true_iff.1 hvisit).2
        exact tour_forall heffects hnext c (next c) (i :: s.address) (s.node :: s.above) size
          (hin.child hc) (hI i c hc hskip)
      · simp
    · refine tourAll_forall heffects hnext cs (i + 1) next s _ hin (fun j d hd => ?_) hI
      have := hcs (j + 1) d hd
      rwa [Nat.add_assoc, Nat.add_comm 1 j]

end

theorem ScopeTable.log_forall
    (heffects : ∀ v size s, s.InTree root → I v s → ∀ e ∈ (v.respond source size s).1, Q e)
    (hnext : ∀ v size s i c, s.InTree root → I v s → s.node.children[i]? = some c →
      (v.respond source size s).2 c ≠ .skip → I ((v.respond source size s).2 c) (s.child i c))
    (hstart : ∀ i c, root.children[i]? = some c → I (.code 0) ((Site.root root).child i c)) :
    ∀ e ∈ log root source, Q e := by
  refine tourAll_forall heffects hnext root.children 0 _ (Site.root root) 1 .root ?_ ?_
  · intro j c hc
    rwa [Nat.zero_add]
  · intro j c hc _
    exact hstart j c hc

end Forall

def Effect.use? (source : List Char) : Effect → Option Use
  | used scope kind site => some ⟨site.node.text source, scope, kind, site⟩
  | _ => none

theorem uses_foldl (source : List Char) (es : List Effect) (t : ScopeTable) :
    (es.foldl (Effect.apply source) t).uses = t.uses ++ es.filterMap (Effect.use? source) := by
  induction es generalizing t with
  | nil => simp
  | cons e es ih =>
    rw [List.foldl_cons, ih]
    cases e with
    | used scope kind site =>
      simp [Effect.apply, Effect.use?, ScopeTable.record]
    | opened | bound | declaredGlobal | declaredNonlocal => rfl

theorem ScopeTable.uses_build (root : Node) (source : List Char) :
    (build root source).uses = (log root source).filterMap (Effect.use? source) := by
  rw [build_eq, uses_foldl]
  rfl

def Site.binding (source : List Char) (container : Address) (imported : Option (List String))
    (site : Site) : Binding :=
  let around := site.ancestorsBelow container
  ⟨imported, site.node.line source,
    match around.find? fun a => a.kind.isSimpleStatement with
    | some statement => statement.node.stop
    | none => site.node.stop,
    (around.find? fun a => a.isGuard container).map Site.landmark⟩

structure Entry where
  name : String
  imported : Option (List String)
  site : Site
  deriving DecidableEq

namespace Effect

def entry? (scope : Nat) : Effect → Option Entry
  | bound s name imported site => if s = scope then some ⟨name, imported, site⟩ else none
  | _ => none

def Fits (size : Nat) : Effect → Prop
  | opened _ parent _ => parent < size
  | bound scope _ _ _ => scope < size
  | used scope _ _ => scope < size
  | declaredGlobal scope _ | declaredNonlocal scope _ => scope < size

end Effect

def WellScoped : Nat → List Effect → Prop
  | _, [] => True
  | size, e :: es => e.Fits size ∧ WellScoped (size + e.opens) es

theorem wellScoped_append {size : Nat} {es fs : List Effect} (hes : WellScoped size es)
    (hfs : WellScoped (size + opensIn es) fs) : WellScoped size (es ++ fs) := by
  induction es generalizing size with
  | nil => simpa using hfs
  | cons e es ih =>
    refine ⟨hes.1, ih hes.2 ?_⟩
    rwa [opensIn_cons, ← Nat.add_assoc] at hfs

theorem wellScoped_of_forall {size : Nat} {es : List Effect} (h : ∀ e ∈ es, e.Fits size) :
    WellScoped size es := by
  induction es generalizing size with
  | nil => exact trivial
  | cons e es ih =>
    obtain ⟨he, hes⟩ := List.forall_mem_cons.1 h
    refine ⟨he, ih fun f hf => ?_⟩
    have := hes f hf
    cases f <;> exact Nat.lt_add_right _ this

namespace Visit

def Fits (size : Nat) : Visit → Prop
  | skip => True
  | code scope | pattern scope => scope < size
  | classBody outer => outer < size
  | parameters inner outer | parameter inner outer => inner < size ∧ outer < size

theorem Fits.mono {m n : Nat} {v : Visit} (h : v.Fits m) (hmn : m ≤ n) : v.Fits n := by
  cases v with
  | skip => exact trivial
  | code | pattern | classBody => exact Nat.lt_of_lt_of_le h hmn
  | parameters | parameter =>
    exact ⟨Nat.lt_of_lt_of_le h.1 hmn, Nat.lt_of_lt_of_le h.2 hmn⟩

end Visit

section Respond

variable {source : List Char} {size : Nat} {site : Site}

theorem opens_le_opensIn {e : Effect} {es : List Effect} (he : e ∈ es) : e.opens ≤ opensIn es := by
  obtain ⟨l, r, rfl⟩ := List.append_of_mem he
  rw [opensIn_append, opensIn_cons]
  omega

theorem respond_fits {v : Visit} (h : v.Fits size) :
    (∀ e ∈ (v.respond source size site).1, e.Fits size) ∧
      ∀ c, ((v.respond source size site).2 c).Fits
        (size + opensIn (v.respond source size site).1) := by
  refine ⟨fun e he => ?_, fun c => ?_⟩
  · cases does_of_mem_respond he with
    | parameter => exact h.1
    | name | function | comprehension | whole | aliased | member | declaresGlobal | usesGlobal
    | declaresNonlocal | assigns | stores | loads | classBody | pattern => exact h
  have opened {e : Effect} (he : v.Does source size site e) (hopens : e.opens = 1) :
      size < size + opensIn (v.respond source size site).1 := by
    have := opens_le_opensIn he.mem_respond
    omega
  have hle : size ≤ size + opensIn (v.respond source size site).1 := Nat.le_add_right _ _
  have honward := @respond_onward source site c v size
  generalize (v.respond source size site).2 c = w at honward ⊢
  by_cases hskip : w = .skip
  · rw [hskip]
    exact trivial
  cases honward hskip with
  | parameters hk => exact ⟨opened (.function hk) rfl, Nat.lt_of_lt_of_le h hle⟩
  | body hk => exact opened (.function hk) rfl
  | comprehension hk => exact opened (.comprehension hk) rfl
  | member => exact opened .classBody rfl
  | parameter => exact Visit.Fits.mono (v := .parameters _ _) h hle
  | name | typed | splat => exact Nat.lt_of_lt_of_le h.1 hle
  | value | typing => exact Nat.lt_of_lt_of_le h.2 hle
  | result | bases | classBody | object | argument | ordinary | pattern =>
    exact Nat.lt_of_lt_of_le h hle

end Respond

mutual

theorem tour_wellScoped (source : List Char) :
    ∀ (n : Node) (v : Visit) (address : Address) (above : List Node) (size : Nat), v.Fits size →
      WellScoped size (Visit.tour source n v address above size)
  | .mk r k s cs, v, address, above, size, h => by
    unfold Visit.tour
    obtain ⟨heffects, hnext⟩ := respond_fits h
    exact wellScoped_append (wellScoped_of_forall heffects)
      (tourAll_wellScoped source cs 0 _ address _ _ hnext)

theorem tourAll_wellScoped (source : List Char) :
    ∀ (cs : List Node) (i : Nat) (next : Node → Visit) (address : Address) (above : List Node)
      (size : Nat), (∀ c, (next c).Fits size) →
        WellScoped size (Visit.tourAll source cs i next address above size)
  | [], _, _, _, _, _, _ => by
    unfold Visit.tourAll
    exact trivial
  | c :: cs, i, next, address, above, size, h => by
    unfold Visit.tourAll
    refine wellScoped_append ?_ (tourAll_wellScoped source cs (i + 1) next address above _
      fun c => (h c).mono (Nat.le_add_right _ _))
    split
    · exact tour_wellScoped source c (next c) (i :: address) above size (h c)
    · exact trivial

end

section Bindings

variable {source : List Char} {t : ScopeTable} {i : Nat}

def Entry.kept (source : List Char) (container : Address) (e : Entry) : String × Binding :=
  (e.name, e.site.binding source container e.imported)

theorem getElem?_modifyScope (j : Nat) (f : Scope → Scope) :
    (t.modifyScope j f).scopes[i]? = if j = i then t.scopes[i]?.map f else t.scopes[i]? := by
  rw [ScopeTable.modifyScope, List.getElem?_modify]
  split <;> cases t.scopes[i]? <;> rfl

theorem scope_apply {e : Effect} {s : Scope} (h : t.scopes[i]? = some s) :
    ∃ s', (e.apply source t).scopes[i]? = some s' ∧ s'.container = s.container ∧
      s'.bindings = s.bindings ++ (e.entry? i).toList.map (Entry.kept source s.container.address) := by
  have hmodify (j : Nat) (f : Scope → Scope) (hc : (f s).container = s.container)
      (hb : (f s).bindings = s.bindings) :
      ∃ s', (t.modifyScope j f).scopes[i]? = some s' ∧ s'.container = s.container ∧
        s'.bindings = s.bindings := by
    rw [getElem?_modifyScope]
    split
    · exact ⟨f s, by rw [h]; rfl, hc, hb⟩
    · exact ⟨s, h, rfl, rfl⟩
  cases e with
  | opened kind parent container =>
    refine ⟨s, ?_, rfl, by simp [Effect.entry?]⟩
    have hlt : i < t.scopes.length := (List.getElem?_eq_some_iff.1 h).1
    rw [Effect.apply, ScopeTable.pushScope, List.getElem?_append_left hlt, h]
  | bound scope name imported site =>
    unfold Effect.apply ScopeTable.bind
    rw [getElem?_modifyScope, h]
    by_cases hi : scope = i
    · rw [if_pos hi]
      refine ⟨_, rfl, rfl, ?_⟩
      rw [Effect.entry?, if_pos hi]
      rfl
    · rw [if_neg hi]
      exact ⟨s, rfl, rfl, by simp [Effect.entry?, hi]⟩
  | used scope kind site => exact ⟨s, h, rfl, by simp [Effect.entry?]⟩
  | declaredGlobal scope site =>
    obtain ⟨s', hs', hc, hb⟩ := hmodify scope
      (fun s => { s with globals := s.globals ++ [site.node.text source] }) rfl rfl
    exact ⟨s', hs', hc, by simp [Effect.entry?, hb]⟩
  | declaredNonlocal scope site =>
    obtain ⟨s', hs', hc, hb⟩ := hmodify scope
      (fun s => { s with nonlocals := s.nonlocals ++ [site.node.text source] }) rfl rfl
    exact ⟨s', hs', hc, by simp [Effect.entry?, hb]⟩

theorem scope_foldl {es : List Effect} {s : Scope} (h : t.scopes[i]? = some s) :
    ∃ s', (es.foldl (Effect.apply source) t).scopes[i]? = some s' ∧ s'.container = s.container ∧
      s'.bindings = s.bindings ++
        (es.filterMap (Effect.entry? i)).map (Entry.kept source s.container.address) := by
  induction es generalizing t s with
  | nil => exact ⟨s, h, rfl, by simp⟩
  | cons e es ih =>
    obtain ⟨s₁, h₁, hc₁, hb₁⟩ := scope_apply h
    obtain ⟨s₂, h₂, hc₂, hb₂⟩ := ih h₁
    refine ⟨s₂, h₂, hc₂.trans hc₁, ?_⟩
    rw [hb₂, hb₁, hc₁, List.filterMap_cons]
    cases e.entry? i <;> simp

theorem fresh_foldl {es : List Effect} {s : Scope} (hw : WellScoped t.scopes.length es)
    (hnone : t.scopes[i]? = none)
    (h : (es.foldl (Effect.apply source) t).scopes[i]? = some s) :
    s.bindings =
      (es.filterMap (Effect.entry? i)).map (Entry.kept source s.container.address) := by
  induction es generalizing t with
  | nil =>
    rw [List.foldl_nil, hnone] at h
    cases h
  | cons e es ih =>
    obtain ⟨hfits, hw⟩ := hw
    have hlen : t.scopes.length ≤ i := List.getElem?_eq_none_iff.1 hnone
    have hentry : e.entry? i = none := by
      cases e with
      | bound scope name imported site =>
        have hlt : scope < t.scopes.length := hfits
        exact if_neg (by omega)
      | opened | used | declaredGlobal | declaredNonlocal => rfl
    rw [List.foldl_cons] at h
    rw [List.filterMap_cons, hentry]
    cases happly : (e.apply source t).scopes[i]? with
    | none => exact ih (by rwa [length_scopes_apply]) happly h
    | some s₁ =>
      have hempty : s₁.bindings = [] := by
        cases e with
        | opened kind parent container =>
          rw [Effect.apply, ScopeTable.pushScope, List.getElem?_append_right hlen] at happly
          obtain ⟨_, rfl⟩ := List.getElem?_eq_some_iff.1 happly
          rw [List.getElem_singleton]
        | bound | declaredGlobal | declaredNonlocal =>
          rw [List.getElem?_eq_none_iff.2] at happly
          · cases happly
          · rw [length_scopes_apply]
            exact hlen
        | used =>
          rw [show (Effect.apply source t (.used _ _ _)).scopes = t.scopes from rfl, hnone] at happly
          cases happly
      obtain ⟨s₂, h₂, hc, hb⟩ := scope_foldl happly
      rw [h] at h₂
      cases h₂
      rw [hb, hempty, hc, List.nil_append]

end Bindings

theorem ScopeTable.bindings_build {root : Node} {source : List Char} {i : Nat} {s : Scope}
    (h : (build root source).scopes[i]? = some s) :
    s.bindings = ((log root source).filterMap (Effect.entry? i)).map
      (Entry.kept source s.container.address) := by
  rw [build_eq] at h
  cases i with
  | zero =>
    obtain ⟨s', hs', hc, hb⟩ := scope_foldl
      (t := start root) (i := 0) rfl
    rw [h] at hs'
    cases hs'
    rw [hb, hc]
    rfl
  | succ i =>
    refine fresh_foldl (t := start root) ?_ rfl h
    exact tourAll_wellScoped source root.children 0 _ [] [root] 1 fun _ => Nat.zero_lt_one

end Reroot.Python

import Reroot.Proofs.Python.Tour

namespace Reroot.Python

structure Opening where
  kind : ScopeKind
  parent : Option Nat
  container : Site

def Opening.scope (o : Opening) : Scope :=
  ⟨o.kind, o.parent, o.container.landmark, [], [], []⟩

namespace Effect

def opening? : Effect → Option Opening
  | opened kind parent container => some ⟨kind, some parent, container⟩
  | _ => none

def global? (source : List Char) (scope : Nat) : Effect → Option String
  | declaredGlobal s site => if s = scope then some (site.node.text source) else none
  | _ => none

def nonlocal? (source : List Char) (scope : Nat) : Effect → Option String
  | declaredNonlocal s site => if s = scope then some (site.node.text source) else none
  | _ => none

end Effect

def Scope.extend (source : List Char) (es : List Effect) (i : Nat) (s : Scope) : Scope :=
  { s with
    bindings := s.bindings ++
      (es.filterMap (Effect.entry? i)).map (Entry.kept source s.container.address)
    globals := s.globals ++ es.filterMap (Effect.global? source i)
    nonlocals := s.nonlocals ++ es.filterMap (Effect.nonlocal? source i) }

section Extend

variable {source : List Char} {t : ScopeTable} {i : Nat} {s : Scope} {e : Effect} {es : List Effect}

theorem Scope.extend_nil (s : Scope) : s.extend source [] i = s := by
  simp [Scope.extend]

theorem Scope.extend_singleton (s : Scope) (e : Effect) : s.extend source [e] i =
    { s with
      bindings := s.bindings ++ (e.entry? i).toList.map (Entry.kept source s.container.address)
      globals := s.globals ++ (e.global? source i).toList
      nonlocals := s.nonlocals ++ (e.nonlocal? source i).toList } := by
  simp only [Scope.extend, List.filterMap_cons, List.filterMap_nil]
  cases e.entry? i <;> cases e.global? source i <;> cases e.nonlocal? source i <;> rfl

theorem Scope.extend_cons (s : Scope) (e : Effect) (es : List Effect) :
    s.extend source (e :: es) i = (s.extend source [e] i).extend source es i := by
  rw [extend_singleton]
  simp only [Scope.extend, List.filterMap_cons]
  cases e.entry? i <;> cases e.global? source i <;> cases e.nonlocal? source i <;> simp

theorem Scope.extend_cons_of_none (s : Scope) (hentry : e.entry? i = none)
    (hglobal : e.global? source i = none) (hnonlocal : e.nonlocal? source i = none) :
    s.extend source (e :: es) i = s.extend source es i := by
  simp [Scope.extend, hentry, hglobal, hnonlocal]

theorem getElem?_apply (h : t.scopes[i]? = some s) :
    (e.apply source t).scopes[i]? = some (s.extend source [e] i) := by
  rw [Scope.extend_singleton]
  cases e with
  | opened kind parent container =>
    have hlt : i < t.scopes.length := (List.getElem?_eq_some_iff.1 h).1
    rw [Effect.apply, ScopeTable.pushScope, List.getElem?_append_left hlt, h]
    simp [Effect.entry?, Effect.global?, Effect.nonlocal?]
  | used scope kind site =>
    change t.scopes[i]? = _
    rw [h]
    simp [Effect.entry?, Effect.global?, Effect.nonlocal?]
  | bound scope name imported site =>
    unfold Effect.apply ScopeTable.bind
    rw [getElem?_modifyScope, h]
    by_cases hi : scope = i
    · simp only [Effect.entry?, Effect.global?, Effect.nonlocal?, hi, if_true, Option.map_some,
        Option.toList_some, Option.toList_none, List.map_cons, List.map_nil, List.append_nil]
      rfl
    · simp [Effect.entry?, Effect.global?, Effect.nonlocal?, hi]
  | declaredGlobal scope site =>
    unfold Effect.apply
    rw [getElem?_modifyScope, h]
    by_cases hi : scope = i <;> simp [Effect.entry?, Effect.global?, Effect.nonlocal?, hi]
  | declaredNonlocal scope site =>
    unfold Effect.apply
    rw [getElem?_modifyScope, h]
    by_cases hi : scope = i <;> simp [Effect.entry?, Effect.global?, Effect.nonlocal?, hi]

theorem getElem?_foldl (h : t.scopes[i]? = some s) :
    (es.foldl (Effect.apply source) t).scopes[i]? = some (s.extend source es i) := by
  induction es generalizing t s with
  | nil => rw [List.foldl_nil, h, Scope.extend_nil]
  | cons e es ih => rw [List.foldl_cons, ih (getElem?_apply h), ← Scope.extend_cons]

theorem Effect.Fits.none_of_le {size : Nat} (h : e.Fits size) (source : List Char) (hi : size ≤ i) :
    e.entry? i = none ∧ e.global? source i = none ∧ e.nonlocal? source i = none := by
  cases e with
  | opened | used => exact ⟨rfl, rfl, rfl⟩
  | bound scope name imported site =>
    have hlt : scope < size := h
    exact ⟨if_neg (by omega), rfl, rfl⟩
  | declaredGlobal scope site =>
    have hlt : scope < size := h
    exact ⟨rfl, if_neg (by omega), rfl⟩
  | declaredNonlocal scope site =>
    have hlt : scope < size := h
    exact ⟨rfl, rfl, if_neg (by omega)⟩

theorem getElem?_foldl_of_le (hw : WellScoped t.scopes.length es) (hi : t.scopes.length ≤ i) :
    (es.foldl (Effect.apply source) t).scopes[i]? =
      (es.filterMap Effect.opening?)[i - t.scopes.length]?.map (·.scope.extend source es i) := by
  induction es generalizing t with
  | nil => simpa using hi
  | cons e es ih =>
    obtain ⟨hfits, hw⟩ := hw
    obtain ⟨hentry, hglobal, hnonlocal⟩ := hfits.none_of_le source hi
    have hlength := length_scopes_apply source t e
    simp only [Scope.extend_cons_of_none _ hentry hglobal hnonlocal]
    rw [List.foldl_cons, List.filterMap_cons]
    cases hopening : e.opening? with
    | none =>
      have hopens : e.opens = 0 := by
        cases e with
        | opened => cases hopening
        | bound | used | declaredGlobal | declaredNonlocal => rfl
      rw [hopens, Nat.add_zero] at hlength hw
      rw [ih (by rwa [hlength]) (by rwa [hlength]), hlength]
    | some o =>
      obtain ⟨kind, parent, container, rfl⟩ : ∃ kind parent container,
          e = .opened kind parent container := by
        cases e with
        | opened kind parent container => exact ⟨kind, parent, container, rfl⟩
        | bound | used | declaredGlobal | declaredNonlocal => cases hopening
      cases hopening
      obtain rfl | hlt := Nat.eq_or_lt_of_le hi
      · rw [Nat.sub_self, getElem?_foldl (by simp [Effect.apply, ScopeTable.pushScope]; rfl)]
        rfl
      · have hlength : (Effect.apply source t (.opened kind parent container)).scopes.length =
            t.scopes.length + 1 := hlength
        obtain ⟨k, rfl⟩ := Nat.exists_eq_add_of_lt hlt
        have hsub : t.scopes.length + k + 1 - t.scopes.length = k + 1 := by omega
        have hsub' : t.scopes.length + k + 1 - (t.scopes.length + 1) = k := by omega
        rw [ih (by rwa [hlength]) (by omega), hlength, hsub, hsub']
        rfl

theorem parent_lt_of_wellScoped {size k : Nat} {o : Opening} (hw : WellScoped size es)
    (ho : (es.filterMap Effect.opening?)[k]? = some o) : ∀ p ∈ o.parent, p < size + k := by
  induction es generalizing size k with
  | nil => simp at ho
  | cons e es ih =>
    obtain ⟨hfits, hw⟩ := hw
    cases e with
    | opened kind parent container =>
      rw [List.filterMap_cons] at ho
      cases k with
      | zero =>
        cases ho
        rintro p hp
        cases hp
        exact hfits
      | succ k =>
        intro p hp
        have := ih hw ho p hp
        simp only [Effect.opens] at this
        omega
    | bound | used | declaredGlobal | declaredNonlocal => exact ih hw ho

end Extend

namespace ScopeTable

variable {root : Node} {source : List Char} {i : Nat} {s : Scope}

def openings (root : Node) (source : List Char) : List Opening :=
  ⟨.module, none, Site.root root⟩ :: (log root source).filterMap Effect.opening?

theorem wellScoped_log (root : Node) (source : List Char) : WellScoped 1 (log root source) :=
  tourAll_wellScoped source root.children 0 _ [] [root] 1 fun _ => Nat.zero_lt_one

theorem scopes_build (root : Node) (source : List Char) (i : Nat) :
    (build root source).scopes[i]? =
      (openings root source)[i]?.map (·.scope.extend source (log root source) i) := by
  rw [build_eq]
  cases i with
  | zero => exact getElem?_foldl rfl
  | succ i =>
    exact getElem?_foldl_of_le (t := start root) (wellScoped_log root source) (Nat.succ_pos i)

theorem parent_lt_of_openings {o : Opening} (h : (openings root source)[i]? = some o) :
    ∀ p ∈ o.parent, p < i := by
  cases i with
  | zero =>
    cases h
    simp
  | succ i =>
    intro p hp
    have := parent_lt_of_wellScoped (wellScoped_log root source) h p hp
    omega

end ScopeTable

def Effect.IsPlain (source : List Char) : Effect → Prop
  | opened .. => True
  | bound _ name imported site =>
    (∀ path ∈ imported, path.head? = some name) ∧ (imported = none → name = site.node.text source)
  | _ => False

inductive Response (source : List Char) : List Effect → Prop
  | plain {es : List Effect} (h : ∀ e ∈ es, e.IsPlain source) : Response source es
  | globals (scope : Nat) (items : List Site) (h : ∀ item ∈ items, item.kind = .identifier) :
      Response source (items.flatMap fun item =>
        [.declaredGlobal scope item, .used scope .globalDecl item])
  | nonlocals (scope : Nat) (items : List Site) (h : ∀ item ∈ items, item.kind = .identifier) :
      Response source (items.map (.declaredNonlocal scope))
  | store (scope : Nat) (site : Site) :
      Response source [.ofText source scope site, .used scope .store site]
  | load (scope : Nat) (site : Site) : Response source [.used scope .load site]

section Response

variable {source : List Char} {scope size : Nat} {site : Site}

theorem isPlain_ofText : (Effect.ofText source scope site).IsPlain source :=
  ⟨nofun, fun _ => rfl⟩

theorem isPlain_ofPart {r : Role} : ∀ e ∈ Effect.ofPart source scope r site, e.IsPlain source := by
  intro e he
  obtain ⟨p, -, rfl⟩ := List.mem_map.1 he
  exact isPlain_ofText

theorem isPlain_ofImport : ∀ e ∈ Effect.ofImport source scope site, e.IsPlain source := by
  unfold Effect.ofImport
  split
  · split <;> simp [Effect.IsPlain]
  · exact isPlain_ofPart
  · simp

theorem isPlain_ofFromImport : ∀ e ∈ Effect.ofFromImport source scope site, e.IsPlain source := by
  unfold Effect.ofFromImport
  split
  · exact isPlain_ofPart
  · simp [isPlain_ofText]

theorem isPlain_flatMap {items : List Site} {f : Site → List Effect}
    (hf : ∀ item, ∀ e ∈ f item, e.IsPlain source) : ∀ e ∈ items.flatMap f, e.IsPlain source := by
  intro e he
  obtain ⟨item, -, he⟩ := List.mem_flatMap.1 he
  exact hf item e he

theorem respondCode_response :
    Response source (Visit.respondCode source scope size site).1 := by
  unfold Visit.respondCode
  split
  case h_8 => exact .plain (isPlain_flatMap fun _ => isPlain_ofImport)
  case h_9 => exact .plain (isPlain_flatMap fun _ => isPlain_ofFromImport)
  case h_10 => exact .plain (isPlain_flatMap fun _ => isPlain_ofFromImport)
  case h_11 =>
    exact .globals scope _ fun item hitem => beq_iff_eq.1 (List.mem_filter.1 hitem).2
  case h_12 =>
    exact .nonlocals scope _ fun item hitem => beq_iff_eq.1 (List.mem_filter.1 hitem).2
  case h_15 =>
    split
    · exact .store scope site
    · exact .load scope site
  case h_1 =>
    exact .plain (List.forall_mem_append.2 ⟨isPlain_ofPart, by simp [Effect.IsPlain]⟩)
  case h_3 => exact .plain isPlain_ofPart
  all_goals exact .plain (by simp [Effect.IsPlain])

theorem respond_response (v : Visit) : Response source (v.respond source size site).1 := by
  cases v with
  | code scope => exact respondCode_response
  | skip | classBody | parameters => exact .plain (by simp [Visit.respond, Effect.IsPlain])
  | parameter inner outer =>
    unfold Visit.respond
    dsimp only
    split <;> exact .plain (by simp [isPlain_ofText])
  | pattern scope =>
    unfold Visit.respond
    dsimp only
    split <;> exact .plain (by simp [isPlain_ofText])

end Response

section Append

variable {source : List Char} {H : List Effect → Prop}

mutual

theorem tour_of_append (hnil : H []) (happend : ∀ es fs, H es → H fs → H (es ++ fs))
    (hrespond : ∀ es, Response source es → H es) :
    ∀ (n : Node) (v : Visit) (address : Address) (above : List Node) (size : Nat),
      H (Visit.tour source n v address above size)
  | .mk r k s cs, v, address, above, size => by
    unfold Visit.tour
    exact happend _ _ (hrespond _ (respond_response v))
      (tourAll_of_append hnil happend hrespond cs 0 _ address _ _)

theorem tourAll_of_append (hnil : H []) (happend : ∀ es fs, H es → H fs → H (es ++ fs))
    (hrespond : ∀ es, Response source es → H es) :
    ∀ (cs : List Node) (i : Nat) (next : Node → Visit) (address : Address) (above : List Node)
      (size : Nat), H (Visit.tourAll source cs i next address above size)
  | [], _, _, _, _, _ => by
    unfold Visit.tourAll
    exact hnil
  | c :: cs, i, next, address, above, size => by
    unfold Visit.tourAll
    refine happend _ _ ?_ (tourAll_of_append hnil happend hrespond cs (i + 1) next address above _)
    split
    · exact tour_of_append hnil happend hrespond c (next c) (i :: address) above size
    · exact hnil

end

theorem ScopeTable.log_of_append (hnil : H []) (happend : ∀ es fs, H es → H fs → H (es ++ fs))
    (hrespond : ∀ es, Response source es → H es) (root : Node) : H (log root source) :=
  tourAll_of_append hnil happend hrespond root.children 0 _ [] [root] 1

end Append

def Use.declared? (scope : Nat) (u : Use) : Option String :=
  if u.scope = scope ∧ u.kind = .globalDecl then some u.name else none

namespace ScopeTable

variable {root : Node} {source : List Char} {i : Nat} {s : Scope}

def entriesIn (root : Node) (source : List Char) (i : Nat) : List Entry :=
  (log root source).filterMap (Effect.entry? i)

theorem globals_log (root : Node) (source : List Char) (i : Nat) :
    (log root source).filterMap (Effect.global? source i) =
      (build root source).uses.filterMap (Use.declared? i) := by
  rw [uses_build]
  refine log_of_append (H := fun es => es.filterMap (Effect.global? source i) =
    (es.filterMap (Effect.use? source)).filterMap (Use.declared? i)) rfl ?_ ?_ root
  · intro es fs hes hfs
    rw [List.filterMap_append, List.filterMap_append, List.filterMap_append, hes, hfs]
  · intro es h
    cases h with
    | plain h =>
      have hglobal : es.filterMap (Effect.global? source i) = [] := by
        refine List.filterMap_eq_nil_iff.2 fun e he => ?_
        have := h e he
        cases e <;> first | rfl | cases this
      have huse : es.filterMap (Effect.use? source) = [] := by
        refine List.filterMap_eq_nil_iff.2 fun e he => ?_
        have := h e he
        cases e <;> first | rfl | cases this
      rw [hglobal, huse]
      rfl
    | globals scope items h =>
      clear h
      induction items with
      | nil => rfl
      | cons item items ih =>
        rw [List.flatMap_cons, List.filterMap_append, List.filterMap_append, List.filterMap_append, ih]
        congr 1
        by_cases hi : scope = i <;>
          simp [List.filterMap_cons, Effect.global?, Effect.use?, Use.declared?, hi]
    | nonlocals scope items h =>
      clear h
      induction items with
      | nil => rfl
      | cons item items ih => exact ih
    | store scope site | load scope site =>
      simp [List.filterMap_cons, Effect.ofText, Effect.global?, Effect.use?, Use.declared?]

theorem mem_entriesIn_of_store {u : Use} (hu : u ∈ (build root source).uses)
    (hkind : u.kind = .store) : ⟨u.name, none, u.site⟩ ∈ entriesIn root source u.scope := by
  have hlog : ∀ scope site, .used scope .store site ∈ log root source →
      Effect.ofText source scope site ∈ log root source := by
    refine log_of_append (H := fun es => ∀ scope site, .used scope .store site ∈ es →
      Effect.ofText source scope site ∈ es) (by simp) ?_ ?_ root
    · intro es fs hes hfs scope site h
      obtain h | h := List.mem_append.1 h
      · exact List.mem_append_left _ (hes scope site h)
      · exact List.mem_append_right _ (hfs scope site h)
    · intro es h scope site hmem
      cases h with
      | plain h => exact (h _ hmem).elim
      | globals | nonlocals | load => simp at hmem
      | store =>
        obtain ⟨rfl, rfl⟩ : scope = _ ∧ site = _ := by simpa [Effect.ofText] using hmem
        exact List.mem_cons_self
  rw [uses_build] at hu
  obtain ⟨e, he, hue⟩ := List.mem_filterMap.1 hu
  cases e with
  | used scope kind site =>
    cases hue
    cases hkind
    exact List.mem_filterMap.2 ⟨_, hlog scope site he, by simp [Effect.ofText, Effect.entry?]⟩
  | opened | bound | declaredGlobal | declaredNonlocal => cases hue

theorem isPlain_of_mem_log {name : String} {imported : Option (List String)} {site : Site}
    (h : .bound i name imported site ∈ log root source) :
    (Effect.bound i name imported site).IsPlain source := by
  revert h
  refine log_of_append (H := fun es => .bound i name imported site ∈ es →
    (Effect.bound i name imported site).IsPlain source) (by simp) ?_ ?_ root
  · intro es fs hes hfs h
    exact (List.mem_append.1 h).elim hes hfs
  · intro es h hmem
    cases h with
    | plain h => exact h _ hmem
    | globals | nonlocals | load => simp at hmem
    | store =>
      obtain h | h := List.mem_cons.1 hmem
      · cases h
        exact isPlain_ofText
      · simp at h

theorem mem_entriesIn {name : String} {imported : Option (List String)} {site : Site} :
    ⟨name, imported, site⟩ ∈ entriesIn root source i ↔
      .bound i name imported site ∈ log root source := by
  constructor
  · intro h
    obtain ⟨e, he, hentry⟩ := List.mem_filterMap.1 h
    cases e with
    | bound scope name' imported' site' =>
      rw [Effect.entry?] at hentry
      split at hentry
      · next hscope =>
        cases hentry
        exact hscope ▸ he
      · cases hentry
    | opened | used | declaredGlobal | declaredNonlocal => cases hentry
  · exact fun h => List.mem_filterMap.2 ⟨_, h, if_pos rfl⟩

theorem head?_of_mem_entriesIn {e : Entry} (he : e ∈ entriesIn root source i) :
    ∀ path ∈ e.imported, path.head? = some e.name :=
  (isPlain_of_mem_log (mem_entriesIn.1 he)).1

theorem scope_build (h : (build root source).scopes[i]? = some s) :
    s.bindings = (entriesIn root source i).map (Entry.kept source s.container.address) ∧
      s.globals = (build root source).uses.filterMap (Use.declared? i) := by
  rw [scopes_build] at h
  obtain ⟨o, -, rfl⟩ := Option.map_eq_some_iff.1 h
  exact ⟨rfl, globals_log root source i⟩

theorem exists_of_mem_nonlocals (h : (build root source).scopes[i]? = some s) {name : String}
    (hname : name ∈ s.nonlocals) : ∃ site : Site, site.kind = .identifier ∧
      site.node.text source = name ∧ .declaredNonlocal i site ∈ log root source := by
  rw [scopes_build] at h
  obtain ⟨o, -, rfl⟩ := Option.map_eq_some_iff.1 h
  obtain ⟨e, he, hname⟩ := List.mem_filterMap.1 (show name ∈ List.filterMap _ _ from hname)
  cases e with
  | declaredNonlocal scope site =>
    rw [Effect.nonlocal?, Option.ite_none_right_eq_some] at hname
    obtain ⟨rfl, htext⟩ := hname
    refine ⟨site, ?_, Option.some.inj htext, he⟩
    revert he
    refine log_of_append (H := fun es => .declaredNonlocal scope site ∈ es →
      site.kind = .identifier) (by simp) ?_ ?_ root
    · intro es fs hes hfs h
      exact (List.mem_append.1 h).elim hes hfs
    · intro es h hmem
      cases h with
      | plain h => exact (h _ hmem).elim
      | globals | store | load => simp [Effect.ofText] at hmem
      | nonlocals scope' items hitems =>
        obtain ⟨item, hitem, heq⟩ := List.mem_map.1 hmem
        cases heq
        exact hitems site hitem
  | opened | bound | used | declaredGlobal => cases hname

theorem mem_bindingsOf (h : (build root source).scopes[i]? = some s) {name : String} {b : Binding} :
    b ∈ s.bindingsOf name ↔ ∃ e ∈ entriesIn root source i, e.name = name ∧
      e.site.binding source s.container.address e.imported = b := by
  simp only [Scope.bindingsOf, List.mem_filterMap, (scope_build h).1, List.mem_map, Entry.kept]
  constructor
  · rintro ⟨_, ⟨e, he, rfl⟩, hb⟩
    split at hb
    · next hname =>
      cases hb
      exact ⟨e, he, beq_iff_eq.1 hname, rfl⟩
    · cases hb
  · rintro ⟨e, he, rfl, rfl⟩
    exact ⟨_, ⟨e, he, rfl⟩, by simp⟩

end ScopeTable

inductive Verdict where
  | module | own | outward
  deriving DecidableEq

def Scope.verdict (s : Scope) (innermost : Bool) (name : String) : Verdict :=
  match s.kind with
  | .module => .module
  | .classBody =>
    if s.globals.contains name then .module
    else if innermost && s.binds name then .own
    else .outward
  | .function | .comprehension =>
    if s.globals.contains name then .module
    else if !s.nonlocals.contains name && s.binds name then .own
    else .outward

namespace ScopeTable

structure Ordered (t : ScopeTable) : Prop where
  parent_lt : ∀ (i : Nat) (s : Scope), t.scopes[i]? = some s → ∀ p ∈ s.parent, p < i
  module : ∀ (i : Nat) (s : Scope), t.scopes[i]? = some s → s.parent = none → s.kind = .module

def owner (t : ScopeTable) (name : String) (innermost : Bool) (i : Nat) : Nat :=
  t.resolveLoop name (i + 1) innermost i

theorem ordered_build (root : Node) (source : List Char) : (build root source).Ordered := by
  refine ⟨fun i s h => ?_, fun i s h hp => ?_⟩
  · rw [scopes_build] at h
    obtain ⟨o, ho, rfl⟩ := Option.map_eq_some_iff.1 h
    exact parent_lt_of_openings ho
  · rw [scopes_build] at h
    obtain ⟨o, ho, rfl⟩ := Option.map_eq_some_iff.1 h
    obtain rfl | hmem := List.mem_cons.1 (List.mem_of_getElem? ho)
    · rfl
    · obtain ⟨e, -, he⟩ := List.mem_filterMap.1 hmem
      cases e with
      | opened kind parent container =>
        cases he
        cases hp
      | bound | used | declaredGlobal | declaredNonlocal => cases he

variable {t t' : ScopeTable} {name : String} {b : Bool} {i : Nat} {s : Scope}

theorem resolveLoop_succ (h : t.scopes[i]? = some s) (fuel : Nat) :
    t.resolveLoop name (fuel + 1) b i =
      match s.verdict b name with
      | .module => moduleScope
      | .own => i
      | .outward => s.parent.elim moduleScope (t.resolveLoop name fuel false) := by
  rw [resolveLoop, h]
  dsimp only
  unfold Scope.verdict
  cases s.kind with
  | module => rfl
  | classBody =>
    cases s.globals.contains name
    · cases b && s.binds name
      · cases s.parent <;> rfl
      · rfl
    · rfl
  | function | comprehension =>
    cases s.globals.contains name
    · cases !s.nonlocals.contains name && s.binds name
      · cases s.parent <;> rfl
      · rfl
    · rfl

theorem resolveLoop_eq_owner (ht : t.Ordered) {fuel : Nat} (hi : i < fuel) :
    t.resolveLoop name fuel b i = t.owner name b i := by
  induction i using Nat.strong_induction_on generalizing fuel b with
  | _ i ih =>
    obtain ⟨fuel, rfl⟩ := Nat.exists_eq_add_of_lt hi
    cases hs : t.scopes[i]? with
    | none => simp [owner, resolveLoop, hs]
    | some s =>
      rw [owner, resolveLoop_succ hs, resolveLoop_succ hs]
      cases hp : s.parent with
      | none => rfl
      | some p =>
        have hlt := ht.parent_lt i s hs p hp
        simp only [Option.elim]
        rw [ih p hlt (by omega), ih p hlt hlt]

theorem owner_eq (ht : t.Ordered) (h : t.scopes[i]? = some s) :
    t.owner name b i =
      match s.verdict b name with
      | .module => moduleScope
      | .own => i
      | .outward => s.parent.elim moduleScope (t.owner name false) := by
  rw [owner, resolveLoop_succ h]
  cases hp : s.parent with
  | none => rfl
  | some p =>
    simp only [Option.elim]
    rw [resolveLoop_eq_owner ht (ht.parent_lt i s h p hp)]

theorem owner_le (ht : t.Ordered) (name : String) (b : Bool) (i : Nat) : t.owner name b i ≤ i := by
  induction i using Nat.strong_induction_on generalizing b with
  | _ i ih =>
    cases hs : t.scopes[i]? with
    | none => simp [owner, resolveLoop, hs, moduleScope]
    | some s =>
      rw [owner_eq ht hs]
      split
      · exact Nat.zero_le i
      · exact Nat.le_refl i
      · cases hp : s.parent with
        | none => exact Nat.zero_le i
        | some p =>
          have hlt := ht.parent_lt i s hs p hp
          exact (ih p hlt false).trans (Nat.le_of_lt hlt)

theorem resolve_lt_of_declared {root : Node} {source : List Char}
    (h : (build root source).scopes[i]? = some s) (hkind : s.kind = .function)
    (hname : name ∈ s.globals ∨ name ∈ s.nonlocals) :
    (build root source).resolve i name < i ∧
      (name ∈ s.globals → (build root source).resolve i name = moduleScope) := by
  have ht := ordered_build root source
  have hpos : 0 < i := by
    refine Nat.pos_of_ne_zero ?_
    rintro rfl
    rw [scopes_build] at h
    cases h
    cases hkind
  have howner : (build root source).resolve i name = _ := owner_eq (b := true) ht h
  by_cases hglobal : name ∈ s.globals
  · have hverdict : s.verdict true name = .module := by simp [Scope.verdict, hkind, hglobal]
    rw [howner, hverdict]
    exact ⟨hpos, fun _ => rfl⟩
  · have hnonlocal := hname.resolve_left hglobal
    have hverdict : s.verdict true name = .outward := by
      simp [Scope.verdict, hkind, hglobal, hnonlocal]
    rw [howner, hverdict]
    refine ⟨?_, fun h => absurd h hglobal⟩
    cases hp : s.parent with
    | none => exact hpos
    | some p => exact Nat.lt_of_le_of_lt (owner_le ht name false p) (ht.parent_lt i s h p hp)

inductive Reaches (t : ScopeTable) (name : String) : Bool → Nat → Bool → Nat → Prop
  | here (b : Bool) (i : Nat) : Reaches t name b i b i
  | outward {b c : Bool} {i j p : Nat} {s : Scope} (hs : t.scopes[i]? = some s)
      (hv : s.verdict b name = .outward) (hp : s.parent = some p) (h : Reaches t name false p c j) :
      Reaches t name b i c j

theorem Ordered.exists_parent (ht : t.Ordered) (hs : t.scopes[i]? = some s)
    (hv : s.verdict b name ≠ .module) : ∃ p, s.parent = some p ∧ p < i := by
  cases hp : s.parent with
  | none =>
    refine absurd ?_ hv
    rw [Scope.verdict, ht.module i s hs hp]
  | some p => exact ⟨p, rfl, ht.parent_lt i s hs p hp⟩

structure Knows (t t' : ScopeTable) (name : String) : Prop where
  missing : ∀ i : Nat, t.scopes[i]? = none → t'.scopes[i]? = none
  scope : ∀ (i : Nat) (s : Scope), t.scopes[i]? = some s → ∃ s', t'.scopes[i]? = some s' ∧
    s'.parent = s.parent ∧ ∀ b, s'.verdict b name = s.verdict b name ∨
      s.verdict b name = .outward ∧ s'.verdict b name = .own ∨
      s.verdict b name ≠ .module ∧ s'.verdict b name = .module

structure Diverts (t t' : ScopeTable) (name : String) (b : Bool) (i : Nat) (s s' : Scope) :
    Prop where
  before : t.scopes[i]? = some s
  after : t'.scopes[i]? = some s'
  verdict : s.verdict b name = .outward ∧ s'.verdict b name = .own ∨
    s.verdict b name ≠ .module ∧ s'.verdict b name = .module ∧ t.owner name b i ≠ moduleScope

theorem reaches_of_verdict_ne {c : Bool} {j : Nat} (hs : t.scopes[i]? = some s)
    (hv : s.verdict b name ≠ .outward) (h : t.Reaches name b i c j) : c = b ∧ j = i := by
  cases h with
  | here => exact ⟨rfl, rfl⟩
  | outward hs' hv' =>
    rw [hs] at hs'
    cases hs'
    exact absurd hv' hv

theorem owner_ne_iff (ht : t.Ordered) (ht' : t'.Ordered) (h : t.Knows t' name) :
    t'.owner name b i ≠ t.owner name b i ↔
      ∃ c j s s', t'.Reaches name b i c j ∧ t.Diverts t' name c j s s' := by
  induction i using Nat.strong_induction_on generalizing b with
  | _ i ih =>
    cases hs : t.scopes[i]? with
    | none =>
      have hs' := h.missing i hs
      refine iff_of_false (by simp [owner, resolveLoop, hs, hs']) ?_
      rintro ⟨c, j, s, s', hreach, hdiverts⟩
      cases hreach with
      | here =>
        have hbefore := hdiverts.before
        simp [hs] at hbefore
      | outward hi => simp [hs'] at hi
    | some s =>
      obtain ⟨s', hs', hparent, hverdict⟩ := h.scope i s hs
      -- Nothing but the scope itself is reached from a scope that a lookup ends in.
      have hstop (hv : s'.verdict b name ≠ .outward) :
          (∃ c j s s', t'.Reaches name b i c j ∧ t.Diverts t' name c j s s') ↔
            t.Diverts t' name b i s s' := by
        constructor
        · rintro ⟨c, j, s₁, s₁', hreach, hdiverts⟩
          obtain ⟨rfl, rfl⟩ := reaches_of_verdict_ne hs' hv hreach
          obtain rfl : s = s₁ := Option.some.inj (hs.symm.trans hdiverts.before)
          obtain rfl : s' = s₁' := Option.some.inj (hs'.symm.trans hdiverts.after)
          exact hdiverts
        · exact fun hdiverts => ⟨b, i, s, s', .here b i, hdiverts⟩
      rw [owner_eq ht hs, owner_eq ht' hs', hparent]
      obtain heq | ⟨hout, hown⟩ | ⟨hne, hmodule⟩ := hverdict b
      · rw [heq]
        cases hv : s.verdict b name with
        | module =>
          rw [hstop (by simp [heq, hv])]
          exact iff_of_false (by simp) fun hdiverts => by simpa [heq, hv] using hdiverts.verdict
        | own =>
          rw [hstop (by simp [heq, hv])]
          exact iff_of_false (by simp) fun hdiverts => by simpa [heq, hv] using hdiverts.verdict
        | outward =>
          obtain ⟨p, hp, hlt⟩ := ht.exists_parent hs (show s.verdict b name ≠ .module by simp [hv])
          simp only [hp, Option.elim]
          rw [ih p hlt]
          constructor
          · rintro ⟨c, j, s₁, s₁', hreach, hdiverts⟩
            exact ⟨c, j, s₁, s₁', .outward hs' (heq.trans hv) (hparent.trans hp) hreach, hdiverts⟩
          · rintro ⟨c, j, s₁, s₁', hreach, hdiverts⟩
            cases hreach with
            | here =>
              obtain rfl : s = s₁ := Option.some.inj (hs.symm.trans hdiverts.before)
              obtain rfl : s' = s₁' := Option.some.inj (hs'.symm.trans hdiverts.after)
              simpa [heq, hv] using hdiverts.verdict
            | outward hi _ hp' hreach =>
              obtain rfl := Option.some.inj (hs'.symm.trans hi)
              obtain rfl := Option.some.inj ((hparent.trans hp).symm.trans hp')
              exact ⟨c, j, s₁, s₁', hreach, hdiverts⟩
      · obtain ⟨p, hp, hlt⟩ := ht.exists_parent hs (show s.verdict b name ≠ .module by simp [hout])
        rw [hstop (by simp [hown]), hout, hown, hp]
        have hle := owner_le ht name false p
        refine iff_of_true ?_ ⟨hs, hs', .inl ⟨hout, hown⟩⟩
        simp only [Option.elim]
        omega
      · rw [hstop (by simp [hmodule]), hmodule, ← owner_eq ht hs]
        constructor
        · exact fun howner => ⟨hs, hs', .inr ⟨hne, hmodule, howner.symm⟩⟩
        · intro hdiverts
          obtain ⟨-, hown⟩ | ⟨-, -, howner⟩ := hdiverts.verdict
          · rw [hmodule] at hown
            cases hown
          · exact howner.symm

end ScopeTable

end Reroot.Python

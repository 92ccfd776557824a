import Reroot.Proofs.Python.Capture
import Reroot.Proofs.Python.Exactness
import Reroot.Proofs.Python.Visits

namespace Reroot.Python

def Effect.mention? (source : List Char) (scope : Nat) : Effect → Option (String × Site)
  | opened .. => none
  | bound s name _ site => if s = scope then some (name, site) else none
  | used s _ site | declaredGlobal s site | declaredNonlocal s site =>
    if s = scope then some (site.node.text source, site) else none

namespace ScopeTable

def Mentions (root : Node) (source : List Char) (i : Nat) (name : String) (site : Site) : Prop :=
  ∃ e ∈ log root source, e.mention? source i = some (name, site)

def UsedAt (root : Node) (source : List Char) (i : Nat) (site : Site) : Prop :=
  ∃ u ∈ (build root source).uses, u.scope = i ∧ u.site = site

def ImportedAt (root : Node) (source : List Char) (i : Nat) (name : String) (site : Site) : Prop :=
  ∃ path, ⟨name, some path, site⟩ ∈ entriesIn root source i

def Imports (root : Node) (source : List Char) (i : Nat) (name : String) : Prop :=
  ∃ site, ImportedAt root source i name site

end ScopeTable

def IsRenamed (edits : List Edit) (site : Site) : Prop :=
  ∃ e ∈ edits, e.span = site.node.span

section Imports

variable {root : Node} {source : List Char} {s q σ : Site} {v : Visit} {size : Nat} {e : Effect}

theorem exists_of_mem_respond {scope : Nat} {name : String} {path : List String}
    (h : .bound scope name (some path) σ ∈ (v.respond source size s).1) :
    s.kind = .importStatement ∧ ∃ i n, s.node.children[i]? = some n ∧ n.role = some .name ∧
      n.kind = .dottedName ∧ σ = s.child i n ∧ path = n.segments source := by
  cases does_of_mem_respond h with
  | whole hk hitem hi hpath =>
    obtain ⟨i, n, hn, hr, rfl⟩ := Site.exists_of_mem_parts hitem
    exact ⟨hk, i, n, hn, hr, hi, rfl, hpath.symm⟩

theorem exists_item_of_mem_respond (himport : q.kind.isImport = true)
    (he : e ∈ (v.respond source size q).1) (hσ : e.site? = some σ) :
    ∃ scope name imported i n, e = .bound scope name imported σ ∧ q.node.children[i]? = some n ∧
      n.role = some .name ∧
        (n.kind = .aliasedImport ∧ (q.child i n).part? .asName = some σ ∨ n.kind ≠ .aliasedImport ∧
          σ = q.child i n ∧ (q.kind = .importStatement → imported ≠ none)) := by
  have other {k : Kind} (hk : q.kind = k) (hne : k.isImport = false) : False := by
    rw [hk, hne] at himport
    cases himport
  cases does_of_mem_respond he with
  | whole hk hitem hi =>
    cases hσ
    obtain ⟨i, n, hn, hr, rfl⟩ := Site.exists_of_mem_parts hitem
    have hne : n.kind ≠ .aliasedImport := fun h => by rw [Site.kind, Site.child, h] at hi; cases hi
    exact ⟨_, _, _, i, n, rfl, hn, hr, .inr ⟨hne, rfl, fun _ => by simp⟩⟩
  | aliased hk hitem hi hp =>
    cases hσ
    obtain ⟨i, n, hn, hr, rfl⟩ := Site.exists_of_mem_parts hitem
    exact ⟨_, _, _, i, n, rfl, hn, hr, .inl ⟨hi, hp⟩⟩
  | member hk hitem hi =>
    cases hσ
    obtain ⟨i, n, hn, hr, rfl⟩ := Site.exists_of_mem_parts hitem
    refine ⟨_, _, _, i, n, rfl, hn, hr, .inr ⟨hi, rfl, fun hk' => ?_⟩⟩
    simp [hk'] at hk
  | function | comprehension | classBody => cases hσ
  | name hk => obtain hk | hk := hk <;> exact (other hk rfl).elim
  | declaresGlobal hk | usesGlobal hk | declaresNonlocal hk | assigns hk | stores hk | loads hk
  | parameter hk | pattern hk => exact (other hk rfl).elim

theorem Node.exists_of_mem_parts {n c : Node} {r : Role} (h : c ∈ n.parts r) :
    ∃ i : Nat, n.children[i]? = some c ∧ c.role = some r := by
  obtain ⟨hmem, hr⟩ := List.mem_filter.1 h
  obtain ⟨i, hi⟩ := List.getElem?_of_mem hmem
  exact ⟨i, hi, beq_iff_eq.1 hr⟩

theorem Node.exists_of_part? {n c : Node} {r : Role} (h : n.part? r = some c) :
    ∃ i : Nat, n.children[i]? = some c ∧ c.role = some r := by
  obtain ⟨i, hi⟩ := List.getElem?_of_mem (List.mem_of_find?_eq_some h)
  have hr := List.find?_some h
  exact ⟨i, hi, beq_iff_eq.1 hr⟩

theorem Site.Holds.child_eq {i j : Nat} {m n : Node} {τ : Site} (hi : (s.child i m).Holds σ)
    (hj : (s.child j n).Holds τ) (h : σ.Holds τ ∨ τ.Holds σ) : i = j := by
  obtain h | h := h
  · exact Site.eq_of_holds_child (hi.trans h) hj
  · exact Site.eq_of_holds_child hi (hj.trans h)

end Imports

section Places

variable {source : String} {root : Node} {q σ : Site} {e : Effect}

theorem eq_bound_of_namesModule (hparse : parse? source = some root)
    (he : e ∈ ScopeTable.log root source.toList) (hσ : e.site? = some σ) (hin : σ.InTree root)
    (hq : q.InTree root) {target : Node} (hnames : NamesModule q.node target)
    (hspan : target.span = σ.node.span) (hlt : σ.start < σ.stop) :
    ∃ scope name path, e = .bound scope name (some path) σ := by
  have hp := parse?_placed hparse
  -- The name of the module lies around what is recorded, or inside of it.
  have recorded {τ : Site} (hτ : τ.InTree root) (hqτ : q.Holds τ) (htarget : τ.node = target) :
      (σ.Holds τ ∨ τ.Holds σ) ∧ ∃ scope name imported i n, e = .bound scope name imported σ ∧
        (q.child i n).Holds σ ∧ q.node.children[i]? = some n ∧ n.role = some .name ∧
          (n.kind = .aliasedImport ∧ (q.child i n).part? .asName = some σ ∨
            n.kind ≠ .aliasedImport ∧ (q.kind = .importStatement → imported ≠ none)) := by
    have hspan : τ.node.span = σ.node.span := htarget ▸ hspan
    have hstart : τ.start = σ.start := congrArg Span.start hspan
    have hstop : τ.stop = σ.stop := congrArg Span.stop hspan
    have hplace := hin.comparable hp hτ (by omega) (by omega)
    obtain ⟨v, size, -, he⟩ := exists_visited_of_isImport (parse?_kind hparse)
      (parse?_shaped expressionEnclosure_lawful hparse) (parse?_shaped blockEnclosure_lawful hparse)
      he hσ hq hnames.isImport hqτ hplace
    obtain ⟨scope, name, imported, i, n, heq, hn, hr, ⟨hk, hp⟩ | ⟨hk, rfl, himported⟩⟩ :=
      exists_item_of_mem_respond hnames.isImport he hσ
    · obtain ⟨l, m, -, -, rfl⟩ := Site.part?_eq_some hp
      exact ⟨hplace, _, _, _, i, n, heq, Site.holds_child _ l m, hn, hr, .inl ⟨hk, hp⟩⟩
    · exact ⟨hplace, _, _, _, i, n, heq, List.suffix_rfl, hn, hr, .inr ⟨hk, himported⟩⟩
  cases hnames with
  | item hk hitem hdotted =>
    obtain ⟨j, hj, -⟩ := Node.exists_of_mem_parts hitem
    obtain ⟨hplace, scope, name, imported, i, n, rfl, hholds, hn, -, hcases⟩ :=
      recorded (hq.child hj) (q.holds_child j target) rfl
    obtain rfl := hholds.child_eq List.suffix_rfl hplace
    rw [hn] at hj
    cases hj
    obtain ⟨halias, -⟩ | ⟨-, himported⟩ := hcases
    · rw [hdotted] at halias
      cases halias
    · obtain ⟨path, rfl⟩ := Option.ne_none_iff_exists'.1 (himported hk)
      exact ⟨_, _, _, rfl⟩
  | @aliased item target hk hitem halias ht =>
    obtain ⟨j, hj, -⟩ := Node.exists_of_mem_parts hitem
    obtain ⟨l, hl, hr⟩ := Node.exists_of_part? ht
    have hchild : (q.child j item).Holds ((q.child j item).child l target) := Site.holds_child _ l _
    obtain ⟨hplace, scope, name, imported, i, n, rfl, hholds, hn, -, hcases⟩ :=
      recorded ((hq.child hj).child hl) ((q.holds_child j item).trans hchild) rfl
    obtain rfl := hholds.child_eq hchild hplace
    rw [hn] at hj
    cases hj
    obtain ⟨-, hpart⟩ | ⟨hne, -⟩ := hcases
    · obtain ⟨l', m, hm, hr', rfl⟩ := Site.part?_eq_some hpart
      obtain rfl := Site.Holds.child_eq List.suffix_rfl List.suffix_rfl hplace
      rw [show (q.child i item).node.children = item.children from rfl, hl] at hm
      cases hm
      rw [hr] at hr'
      cases hr'
    · exact absurd halias hne
  | origin hk ht =>
    obtain ⟨j, hj, hr⟩ := Node.exists_of_part? ht
    obtain ⟨hplace, scope, name, imported, i, n, rfl, hholds, hn, hr', -⟩ :=
      recorded (hq.child hj) (q.holds_child j target) rfl
    obtain rfl := hholds.child_eq List.suffix_rfl hplace
    rw [hn] at hj
    cases hj
    rw [hr] at hr'
    cases hr'

theorem Site.InTree.eq_of_holds_word {τ : Site} (hparse : parse? source = some root)
    (hσ : σ.InTree root) (hτ : τ.InTree root) (hk : σ.kind = .identifier) (h : σ.Holds τ) :
    σ = τ := by
  refine ((hσ.holds_iff hτ).1 h).resolve_right fun hmem => ?_
  obtain ⟨i, n, hn, -⟩ := hτ.exists_child hmem
  rw [((parse?_shaped classEnclosure_lawful hparse σ.node hσ.within).word hk).1] at hn
  cases hn

theorem ScopeTable.mem_uses {u : Use} (hu : u ∈ (build root source.toList).uses) :
    .used u.scope u.kind u.site ∈ log root source.toList ∧
      u.name = u.site.node.text source.toList := by
  rw [uses_build] at hu
  obtain ⟨e, he, hue⟩ := List.mem_filterMap.1 hu
  cases e with
  | used scope kind site =>
    cases hue
    exact ⟨he, rfl⟩
  | opened | bound | declaredGlobal | declaredNonlocal => cases hue

theorem eq_of_span_eq_use (hparse : parse? source = some root)
    (he : e ∈ ScopeTable.log root source.toList) (hσ : e.site? = some σ) (hin : σ.InTree root)
    {u : Use} (hu : u ∈ (ScopeTable.build root source.toList).uses)
    (hspan : u.site.node.span = σ.node.span) :
    u.site = σ ∧ (e = .ofText source.toList u.scope σ ∨ e = .declaredGlobal u.scope σ ∨
      e = .used u.scope u.kind σ) := by
  obtain ⟨hlog, -⟩ := ScopeTable.mem_uses hu
  have hshape := parse?_shaped classEnclosure_lawful hparse
  obtain ⟨hsite, -⟩ := isUsed_of_mem_uses (parse?_kind hparse) hshape u hu
  have hlt := (hshape u.site.node hsite.inTree.within).start_lt_stop hsite.kind
  have hstart : u.site.start = σ.start := congrArg Span.start hspan
  have hstop : u.site.stop = σ.stop := congrArg Span.stop hspan
  have hplace := hin.comparable (parse?_placed hparse) hsite.inTree
    (by rw [← hstart]; exact hlt) (by rw [← hstop]; exact hlt)
  obtain ⟨s, v, size, -, he, hused⟩ := exists_visited_of_comparable he hlog hσ rfl hplace
  have hresponse : Response source.toList (v.respond source.toList size s).1 := respond_response v
  generalize (v.respond source.toList size s).1 = es at hresponse he hused
  cases hresponse with
  | plain h => exact (h _ hused).elim
  | nonlocals => simp at hused
  | store scope site =>
    obtain ⟨hscope, hkind, rfl⟩ : u.scope = scope ∧ u.kind = .store ∧ u.site = site := by
      simpa [Effect.ofText] using hused
    obtain rfl | he := List.mem_cons.1 he
    · cases hσ
      exact ⟨rfl, .inl (by rw [hscope])⟩
    · cases List.mem_singleton.1 he
      cases hσ
      exact ⟨rfl, .inr (.inr (by rw [hscope, hkind]))⟩
  | load scope site =>
    obtain ⟨hscope, hkind, rfl⟩ : u.scope = scope ∧ u.kind = .load ∧ u.site = site := by
      simpa using hused
    cases List.mem_singleton.1 he
    cases hσ
    exact ⟨rfl, .inr (.inr (by rw [hscope, hkind]))⟩
  | globals scope items hitems =>
    obtain ⟨item, -, hused⟩ := List.mem_flatMap.1 hused
    obtain ⟨hscope, hkind, rfl⟩ : u.scope = scope ∧ u.kind = .globalDecl ∧ u.site = item := by
      simpa using hused
    obtain ⟨item, hitem, he⟩ := List.mem_flatMap.1 he
    have hcases : σ = item ∧ (e = .declaredGlobal scope item ∨ e = .used scope .globalDecl item) := by
      obtain rfl | he := List.mem_cons.1 he
      · cases hσ
        exact ⟨rfl, .inl rfl⟩
      · cases List.mem_singleton.1 he
        cases hσ
        exact ⟨rfl, .inr rfl⟩
    obtain ⟨rfl, he⟩ := hcases
    refine ⟨?_, .inr (by rwa [hscope, hkind])⟩
    obtain h | h := hplace
    · exact (hin.eq_of_holds_word hparse hsite.inTree (hitems σ hitem) h).symm
    · exact hsite.inTree.eq_of_holds_word hparse hin hsite.kind h

end Places

section Uses

variable {source : List Char} {old new : QualifiedName} {t : ScopeTable} {u : Use} {o : Scope}

theorem QualifiedName.segments_eq_singleton (h : old.length = 1) : old.segments = [old.first] := by
  obtain ⟨w, hw⟩ := List.length_eq_one_iff.1 h
  simp [QualifiedName.first, hw]

theorem QualifiedName.isPrefixOf_iff_head? (h : old.length = 1) {path : List String} :
    old.isPrefixOf path = true ↔ path.head? = some old.first := by
  rw [QualifiedName.isPrefixOf, QualifiedName.segments_eq_singleton h, List.isPrefixOf_iff_prefix]
  cases path with
  | nil => simp
  | cons w ws => simp [List.cons_prefix_cons, eq_comm]

theorem attributeChain_one (s : Site) :
    attributeChain source 1 s = ([s.node.text source], s.node.stop) := by
  unfold attributeChain
  cases s.ancestors <;> rfl

theorem exists_useEdit (hold : old.length = 1) (htext : u.name = u.site.node.text source)
    (hname : u.name = old.first) (hne : u.scope ≠ t.resolve u.scope u.name)
    (ho : t.scopes[t.resolve u.scope u.name]? = some o)
    (himports : (o.bindingsOf old.first).any (Binding.importsModule old) = true) {x : Option Edit}
    (h : useEdit t source old new u = .ok x) : ∃ e, x = some e ∧ e.span = u.site.node.span := by
  have hrefers {b : Bool}
      (hb : refersToImport t source old (t.resolve u.scope u.name) u = .ok b) : b = true := by
    unfold refersToImport at hb
    rw [ho] at hb
    dsimp only at hb
    rw [if_neg (by simp [himports]), if_pos hne] at hb
    split at hb
    · cases hb
      rfl
    · cases hb
  cases outcome_of_useEdit h with
  | other hother => exact absurd hname hother
  | unspelled _ hchain =>
    have htext : old.isPrefixOf [u.site.node.text source] = true :=
      (QualifiedName.isPrefixOf_iff_head? hold).2 (by rw [← htext, hname]; rfl)
    rw [hold, attributeChain_one, htext] at hchain
    cases hchain
  | dotted => omega
  | unbound hb => cases hrefers hb
  | load =>
    refine ⟨_, rfl, ?_⟩
    rw [hold, attributeChain_one]
    rfl
  | target => exact ⟨_, rfl, rfl⟩

theorem exists_of_useEdits {us : List Use} {es : List Edit}
    (h : useEdits t source old new us = .ok es) :
    ∀ u ∈ us, ∃ x, useEdit t source old new u = .ok x ∧ ∀ e ∈ x, e ∈ es := by
  induction us generalizing es with
  | nil => simp
  | cons u us ih =>
    obtain ⟨x, hx, h⟩ := exists_of_bind_eq_ok h
    obtain ⟨fs, hfs, h⟩ := exists_of_bind_eq_ok h
    cases h
    refine List.forall_mem_cons.2 ⟨⟨x, hx, fun e he => ?_⟩, fun v hv => ?_⟩
    · exact List.mem_append_left _ (Option.mem_toList.2 he)
    · obtain ⟨y, hy, hmem⟩ := ih hfs v hv
      exact ⟨y, hy, fun e he => List.mem_append_right _ (hmem e he)⟩

theorem Spells.stop_eq {base top : Site} {segments : List String} {stop : Nat}
    (h : Spells source base top segments stop) (hlength : segments.length = 1) :
    stop = base.node.stop := by
  cases h with
  | name => rfl
  | field h =>
    rw [List.length_append, List.length_singleton, Nat.add_eq_right,
      List.length_eq_zero_iff] at hlength
    subst hlength
    generalize hnil : ([] : List String) = segments at h
    cases h with
    | name => cases hnil
    | field => simp at hnil

end Uses

namespace ScopeTable

variable {source : String} {root : Node} {old new : QualifiedName} {edits : List Edit} {i : Nat}
  {s o : Scope} {site : Site} {name : String} {e : Effect}

theorem site?_of_mention? (h : e.mention? source.toList i = some (name, site)) :
    e.site? = some site := by
  cases e with
  | opened => cases h
  | bound | used | declaredGlobal | declaredNonlocal =>
    simp only [Effect.mention?, Option.ite_none_right_eq_some, Option.some.injEq,
      Prod.mk.injEq] at h
    rw [Effect.site?, h.2.2]

theorem imports_iff (hold : old.length = 1)
    (h : (build root source.toList).scopes[i]? = some s) :
    (s.bindingsOf old.first).any (Binding.importsModule old) = true ↔
      Imports root source.toList i old.first := by
  rw [any_importsModule_iff h]
  constructor
  · rintro ⟨⟨name, imported, site⟩, he, path, rfl, hpath⟩
    have hhead := head?_of_mem_entriesIn he path rfl
    rw [(QualifiedName.isPrefixOf_iff_head? hold).1 hpath] at hhead
    cases hhead
    exact ⟨site, path, he⟩
  · rintro ⟨site, path, he⟩
    exact ⟨_, he, path, rfl, (QualifiedName.isPrefixOf_iff_head? hold).2
      (head?_of_mem_entriesIn he path rfl)⟩

theorem isRenamed_of_isPrefixOf (hedits : renameEdits root source.toList old new = .ok edits)
    {path : List String} (h : ⟨name, some path, site⟩ ∈ entriesIn root source.toList i)
    (hpath : old.isPrefixOf path = true) : IsRenamed edits site := by
  obtain ⟨q, v, size, hq, he⟩ := exists_visited_of_mem_log (mem_entriesIn.1 h)
  obtain ⟨hk, j, n, hn, hr, hdotted, rfl, rfl⟩ := exists_of_mem_respond he
  have htarget : n ∈ q.node.importTargets := by
    refine List.mem_filterMap.2 ⟨n, List.mem_filter.2 ⟨List.mem_of_getElem? hn, beq_iff_eq.2 hr⟩, ?_⟩
    simp only [hdotted]
  have hedit : dottedEdit? old new source.toList n =
      some ⟨n.span, old.replace new (n.segments source.toList)⟩ := if_pos hpath
  obtain ⟨-, uses, -, rfl⟩ := exists_useEdits hedits
  refine ⟨⟨n.span, old.replace new (n.segments source.toList)⟩,
    List.mem_append_left _ (List.mem_flatMap.2 ⟨q.node, hq.mem_preorder, ?_⟩), rfl⟩
  unfold importEdits
  rw [show q.node.kind = .importStatement from hk]
  exact List.mem_filterMap.2 ⟨n, htarget, hedit⟩

theorem isRenamed_of_importedAt (hold : old.length = 1)
    (hedits : renameEdits root source.toList old new = .ok edits)
    (h : ImportedAt root source.toList i old.first site) : IsRenamed edits site := by
  obtain ⟨path, h⟩ := h
  have hhead := head?_of_mem_entriesIn h path rfl
  exact isRenamed_of_isPrefixOf hedits h ((QualifiedName.isPrefixOf_iff_head? hold).2 hhead)

theorem isRenamed_of_usedAt (hold : old.length = 1)
    (hedits : renameEdits root source.toList old new = .ok edits)
    (ho : (build root source.toList).scopes[(build root source.toList).resolve i old.first]? =
      some o) (hne : (build root source.toList).resolve i old.first ≠ i)
    (htext : site.node.text source.toList = old.first)
    (himports : Imports root source.toList ((build root source.toList).resolve i old.first)
      old.first) (h : UsedAt root source.toList i site) : IsRenamed edits site := by
  obtain ⟨u, hu, rfl, rfl⟩ := h
  obtain ⟨-, hname⟩ := mem_uses hu
  have hfirst := hname.trans htext
  obtain ⟨-, uses, huses, rfl⟩ := exists_useEdits hedits
  obtain ⟨x, hx, hmem⟩ := exists_of_useEdits huses u hu
  rw [← hfirst] at ho hne
  obtain ⟨e, rfl, hspan⟩ := exists_useEdit hold hname hfirst (Ne.symm hne) ho
    ((imports_iff hold ho).2 (hfirst ▸ himports)) hx
  exact ⟨e, List.mem_append_right _ (hmem e rfl), hspan⟩

theorem isRenamed_iff (hparse : parse? source = some root) (hold : old.length = 1)
    (hedits : renameEdits root source.toList old new = .ok edits)
    (ho : (build root source.toList).scopes[(build root source.toList).resolve i old.first]? =
      some o) (hne : (build root source.toList).resolve i old.first ≠ i)
    (hmention : Mentions root source.toList i old.first site) :
    IsRenamed edits site ↔ ImportedAt root source.toList i old.first site ∨
      UsedAt root source.toList i site ∧
        Imports root source.toList ((build root source.toList).resolve i old.first) old.first := by
  obtain ⟨e, he, hmention⟩ := hmention
  have hsite := site?_of_mention? hmention
  have hin : site.InTree root := by
    have := inPlace_of_mem_log (parse?_kind hparse) (parse?_shaped classEnclosure_lawful hparse) e he
    cases e with
    | opened => cases hsite
    | used =>
      cases hsite
      exact this.inTree
    | bound | declaredGlobal | declaredNonlocal =>
      cases hsite
      exact this
  constructor
  · rintro ⟨x, hx, hspan⟩
    have used {u : Use} (hu : u ∈ (build root source.toList).uses) (hname : u.name = old.first)
        (hbound : BoundByImport (build root source.toList) old u)
        (hspan : u.site.node.span = site.node.span) : UsedAt root source.toList i site ∧
          Imports root source.toList ((build root source.toList).resolve i old.first) old.first := by
      obtain ⟨rfl, hcases⟩ := eq_of_span_eq_use hparse he hsite hin hu hspan
      have hscope : u.scope = i := by
        obtain rfl | rfl | rfl := hcases <;> simp [Effect.ofText, Effect.mention?] at hmention <;>
          exact hmention.1
      refine ⟨⟨u, hu, hscope, rfl⟩, (imports_iff hold ho).1 ?_⟩
      obtain ⟨o', ho', b, hb, path, hpath, hprefix⟩ := hbound
      rw [hscope, hname, ho] at ho'
      cases ho'
      refine List.any_eq_true.2 ⟨b, hname ▸ hb, ?_⟩
      simp [Binding.importsModule, hpath, QualifiedName.isPrefixOf, hprefix]
    have hlicensed := licensed_of_mem_renameEdits (parse?_kind hparse)
      (parse?_shaped classEnclosure_lawful hparse) hedits x hx
    cases hlicensed with
    | @moduleName n target hn hnames hprefix =>
      have hwithin := hnames.within.trans hn
      have hlt := Node.start_lt_stop_of_segments
        (fun c hc => parse?_placed hparse c (hc.trans hwithin))
        (fun c hc => parse?_shaped classEnclosure_lawful hparse c (hc.trans hwithin))
        fun hnil => old.nonempty (List.prefix_nil.1 (hnil ▸ hprefix))
      obtain ⟨q, hq, rfl⟩ := exists_site_of_within hn
      have hspan : target.span = site.node.span := hspan
      have hlt' : site.start < site.stop := by
        rw [Node.start, Node.stop, hspan] at hlt
        exact hlt
      obtain ⟨scope, name, path, rfl⟩ := eq_bound_of_namesModule hparse he hsite hin hq hnames hspan
        hlt'
      simp only [Effect.mention?, Option.ite_none_right_eq_some, Option.some.injEq,
        Prod.mk.injEq] at hmention
      obtain ⟨rfl, rfl, -⟩ := hmention
      exact .inl ⟨path, mem_entriesIn.2 he⟩
    | wholeImport _ _ _ hparent =>
      rw [QualifiedName.parent?, if_pos (by omega)] at hparent
      cases hparent
    | load hu _ _ hname hbound hspells =>
      obtain rfl := hspells.stop_eq hold
      exact .inr (used hu hname hbound hspan)
    | target hu _ _ hname hbound => exact .inr (used hu hname hbound hspan)
  · rintro (h | ⟨h, himports⟩)
    · exact isRenamed_of_importedAt hold hedits h
    · refine isRenamed_of_usedAt hold hedits ho hne ?_ himports h
      obtain ⟨u, hu, rfl, rfl⟩ := h
      obtain ⟨-, hcases⟩ := eq_of_span_eq_use hparse he hsite hin hu rfl
      obtain rfl | rfl | rfl := hcases <;> simpa [Effect.ofText, Effect.mention?] using hmention

theorem kind_of_importedAt (h : ImportedAt root source.toList i name site) :
    site.kind = .dottedName := by
  obtain ⟨path, h⟩ := h
  obtain ⟨q, v, size, -, he⟩ := exists_visited_of_mem_log (mem_entriesIn.1 h)
  obtain ⟨-, j, n, -, -, hdotted, rfl, -⟩ := exists_of_mem_respond he
  exact hdotted

theorem mentions_of_importedAt (h : ImportedAt root source.toList i name site) :
    Mentions root source.toList i name site := by
  obtain ⟨path, h⟩ := h
  exact ⟨_, mem_entriesIn.1 h, if_pos rfl⟩

theorem exists_usedAt_of_mem_globals (hparse : parse? source = some root)
    (hscope : (build root source.toList).scopes[i]? = some s) (hname : name ∈ s.globals) :
    ∃ site, Mentions root source.toList i name site ∧ UsedAt root source.toList i site ∧
      ¬ImportedAt root source.toList i name site := by
  obtain ⟨u, hu, hdeclares⟩ := List.mem_filterMap.1 ((scope_build hscope).2 ▸ hname)
  rw [Use.declared?, Option.ite_none_right_eq_some, Option.some.injEq] at hdeclares
  obtain ⟨⟨rfl, -⟩, hname⟩ := hdeclares
  obtain ⟨hlog, htext⟩ := mem_uses hu
  refine ⟨u.site, ⟨_, hlog, ?_⟩, ⟨u, hu, rfl, rfl⟩, fun h => ?_⟩
  · rw [Effect.mention?, if_pos rfl, ← htext, hname]
  · have hword := (isUsed_of_mem_uses (parse?_kind hparse)
      (parse?_shaped classEnclosure_lawful hparse) u hu).1.kind
    rw [kind_of_importedAt h] at hword
    cases hword

theorem exists_not_usedAt_of_mem_nonlocals (hparse : parse? source = some root)
    (hscope : (build root source.toList).scopes[i]? = some s) (hname : name ∈ s.nonlocals) :
    ∃ site, Mentions root source.toList i name site ∧ ¬UsedAt root source.toList i site ∧
      ¬ImportedAt root source.toList i name site := by
  obtain ⟨site, hword, htext, hlog⟩ := exists_of_mem_nonlocals hscope hname
  refine ⟨site, ⟨_, hlog, ?_⟩, ?_, fun h => ?_⟩
  · rw [Effect.mention?, if_pos rfl, htext]
  · rintro ⟨u, hu, -, hsite⟩
    have hin := inPlace_of_mem_log (parse?_kind hparse)
      (parse?_shaped classEnclosure_lawful hparse) _ hlog
    obtain ⟨-, hcases⟩ := eq_of_span_eq_use hparse hlog rfl hin hu (by rw [hsite])
    simp [Effect.ofText] at hcases
  · rw [kind_of_importedAt h] at hword
    cases hword

def RenamedTogether (root : Node) (source : List Char) (edits : List Edit) (i : Nat)
    (name : String) : Prop :=
  (∀ site, Mentions root source i name site → IsRenamed edits site) ∨
    ∀ site, Mentions root source i name site → ¬IsRenamed edits site

theorem renamed_together_iff (hparse : parse? source = some root) (hold : old.length = 1)
    (hedits : renameEdits root source.toList old new = .ok edits)
    (hscope : (build root source.toList).scopes[i]? = some s) (hkind : s.kind = .function)
    (hdeclared : old.first ∈ s.globals ∨ old.first ∈ s.nonlocals) :
    RenamedTogether root source.toList edits i old.first ↔
      (old.first ∈ s.globals ∧
        (Imports root source.toList moduleScope old.first →
          ∀ site, Mentions root source.toList i old.first site →
            UsedAt root source.toList i site ∨ ImportedAt root source.toList i old.first site) ∧
        (¬Imports root source.toList moduleScope old.first →
          ¬Imports root source.toList i old.first)) ∨
      (old.first ∉ s.globals ∧ ¬Imports root source.toList i old.first ∧
        (Imports root source.toList ((build root source.toList).resolve i old.first) old.first →
          ∀ site, Mentions root source.toList i old.first site →
            ¬UsedAt root source.toList i site)) := by
  obtain ⟨hlt, hmodule⟩ := resolve_lt_of_declared hscope hkind hdeclared
  obtain ⟨o, ho⟩ : ∃ o, (build root source.toList).scopes[(build root source.toList).resolve i
      old.first]? = some o := by
    have hlength := (List.getElem?_eq_some_iff.1 hscope).1
    exact ⟨_, List.getElem?_eq_getElem (by omega)⟩
  have hiff (site : Site) (h : Mentions root source.toList i old.first site) :=
    isRenamed_iff hparse hold hedits ho (Nat.ne_of_lt hlt) h
  by_cases hglobal : old.first ∈ s.globals
  · obtain ⟨site₀, hmention, hused, hnot⟩ := exists_usedAt_of_mem_globals hparse hscope hglobal
    rw [hmodule hglobal] at hiff
    simp only [hglobal, true_and, not_true, false_and, or_false]
    by_cases himports : Imports root source.toList moduleScope old.first
    · simp only [himports, and_true, true_imp_iff, not_true, false_imp_iff] at hiff ⊢
      constructor
      · rintro (hall | hnone)
        · exact fun site h => Or.comm.1 ((hiff site h).1 (hall site h))
        · exact absurd ((hiff _ hmention).2 (.inr hused)) (hnone _ hmention)
      · exact fun h => .inl fun site hsite => (hiff site hsite).2 (Or.comm.1 (h site hsite))
    · simp only [himports, and_false, or_false, false_imp_iff, true_and, not_false_eq_true,
        true_imp_iff] at hiff ⊢
      constructor
      · rintro (hall | hnone) ⟨site, h⟩
        · exact hnot ((hiff _ hmention).1 (hall _ hmention))
        · have hsite := mentions_of_importedAt h
          exact hnone site hsite ((hiff site hsite).2 h)
      · exact fun h => .inr fun site hsite hrenamed => h ⟨site, (hiff site hsite).1 hrenamed⟩
  · obtain ⟨site₀, hmention, hunused, hnot⟩ :=
      exists_not_usedAt_of_mem_nonlocals hparse hscope (hdeclared.resolve_left hglobal)
    simp only [hglobal, false_and, false_or, not_false_eq_true, true_and]
    constructor
    · rintro (hall | hnone)
      · obtain h | ⟨h, -⟩ := (hiff _ hmention).1 (hall _ hmention)
        · exact absurd h hnot
        · exact absurd h hunused
      · refine ⟨fun ⟨site, h⟩ => ?_, fun himports site hsite hused => ?_⟩
        · have hsite := mentions_of_importedAt h
          exact hnone site hsite ((hiff site hsite).2 (.inl h))
        · exact hnone site hsite ((hiff site hsite).2 (.inr ⟨hused, himports⟩))
    · rintro ⟨hnone, hunused⟩
      refine .inr fun site hsite hrenamed => ?_
      obtain h | ⟨hused, himports⟩ := (hiff site hsite).1 hrenamed
      · exact hnone ⟨site, h⟩
      · exact hunused himports site hsite hused

def nonlocalText : String :=
  "def f():\n    import a\n    def g():\n        nonlocal a\n        a = 1\n"

def nonlocalRoot : Node :=
  .mk none .module ⟨0, 68⟩ [
    .mk none .functionDefinition ⟨0, 67⟩ [.mk none (.mark "def") ⟨0, 3⟩ [],
      .mk (some .name) .identifier ⟨4, 5⟩ [],
      .mk (some .parameters) .parameters ⟨5, 7⟩ [.mk none (.mark "(") ⟨5, 6⟩ [],
        .mk none (.mark ")") ⟨6, 7⟩ []],
      .mk none (.mark ":") ⟨7, 8⟩ [],
      .mk (some .body) .block ⟨13, 67⟩ [
        .mk none .importStatement ⟨13, 21⟩ [.mk none (.mark "import") ⟨13, 19⟩ [],
          .mk (some .name) .dottedName ⟨20, 21⟩ [.mk none .identifier ⟨20, 21⟩ []]],
        .mk none .functionDefinition ⟨26, 67⟩ [.mk none (.mark "def") ⟨26, 29⟩ [],
          .mk (some .name) .identifier ⟨30, 31⟩ [],
          .mk (some .parameters) .parameters ⟨31, 33⟩ [.mk none (.mark "(") ⟨31, 32⟩ [],
            .mk none (.mark ")") ⟨32, 33⟩ []],
          .mk none (.mark ":") ⟨33, 34⟩ [],
          .mk (some .body) .block ⟨43, 67⟩ [
            .mk none .nonlocalStatement ⟨43, 53⟩ [.mk none (.mark "nonlocal") ⟨43, 51⟩ [],
              .mk none .identifier ⟨52, 53⟩ []],
            .mk none .expressionStatement ⟨62, 67⟩ [.mk none .assignment ⟨62, 67⟩ [
              .mk (some .left) .identifier ⟨62, 63⟩ [], .mk none (.mark "=") ⟨64, 65⟩ [],
              .mk (some .right) .integerLit ⟨66, 67⟩ []]]]]]]]

def otherName : QualifiedName := ⟨["b"], by decide, by decide⟩

theorem renamed_together_iff_nonlocal : ∃ s,
    parse? nonlocalText = some nonlocalRoot ∧
      renameEdits nonlocalRoot nonlocalText.toList shortName otherName =
        .ok [⟨⟨20, 21⟩, "b"⟩, ⟨⟨62, 63⟩, "b"⟩] ∧
      (build nonlocalRoot nonlocalText.toList).scopes[2]? = some s ∧ s.kind = .function ∧
      "a" ∈ s.nonlocals ∧
      ¬RenamedTogether nonlocalRoot nonlocalText.toList [⟨⟨20, 21⟩, "b"⟩, ⟨⟨62, 63⟩, "b"⟩] 2 "a" := by
  have hparse : parse? nonlocalText = some nonlocalRoot := by decide +kernel
  have hedits : renameEdits nonlocalRoot nonlocalText.toList shortName otherName =
      .ok [⟨⟨20, 21⟩, "b"⟩, ⟨⟨62, 63⟩, "b"⟩] := by decide +kernel
  obtain ⟨s, hs⟩ : ∃ s, (build nonlocalRoot nonlocalText.toList).scopes[2]? = some s :=
    Option.isSome_iff_exists.1 (by decide +kernel)
  have hfacts : ((build nonlocalRoot nonlocalText.toList).scopes[2]?).all (fun s =>
      s.kind == .function && s.nonlocals.contains "a" && !s.globals.contains "a") = true := by
    decide +kernel
  rw [hs, Option.all_some, Bool.and_eq_true, Bool.and_eq_true, beq_iff_eq, Bool.not_eq_true',
    List.contains_iff_mem, ← Bool.not_eq_true, List.contains_iff_mem] at hfacts
  obtain ⟨⟨hkind, hnonlocal⟩, hglobal⟩ := hfacts
  refine ⟨s, hparse, hedits, hs, hkind, hnonlocal, fun htogether => ?_⟩
  obtain ⟨hmem, -⟩ | ⟨-, -, hunused⟩ :=
    (renamed_together_iff hparse rfl hedits hs hkind (.inr hnonlocal)).1 htogether
  · exact hglobal hmem
  obtain ⟨⟨name, imported, site⟩, he, himport⟩ : ∃ e ∈ entriesIn nonlocalRoot nonlocalText.toList
      ((build nonlocalRoot nonlocalText.toList).resolve 2 "a"),
        e.name = "a" ∧ e.imported = some ["a"] := by
    decide +kernel
  obtain ⟨u, hu, hscope, hname⟩ : ∃ u ∈ (build nonlocalRoot nonlocalText.toList).uses,
      u.scope = 2 ∧ u.name = "a" := by
    decide +kernel
  obtain ⟨hlog, htext⟩ := mem_uses hu
  obtain ⟨rfl, rfl⟩ : name = "a" ∧ imported = some ["a"] := himport
  refine hunused ⟨site, ["a"], he⟩ u.site ⟨_, hlog, ?_⟩ ⟨u, hu, hscope, rfl⟩
  rw [Effect.mention?, if_pos hscope, ← htext, hname]
  rfl

end ScopeTable

end Reroot.Python

import Reroot.Python.Rename
import Reroot.Proofs.Python.Splice
import Reroot.Proofs.Python.Uses

namespace Reroot.Python

inductive NamesModule (n : Node) : Node → Prop
  | item {item : Node} (hn : n.kind = .importStatement) (hitem : item ∈ n.parts .name)
      (hk : item.kind = .dottedName) : NamesModule n item
  | aliased {item target : Node} (hn : n.kind = .importStatement) (hitem : item ∈ n.parts .name)
      (hk : item.kind = .aliasedImport) (ht : item.part? .name = some target) : NamesModule n target
  | origin {target : Node} (hn : n.kind = .importFromStatement)
      (ht : n.part? .moduleName = some target) (hk : target.kind = .dottedName) :
      NamesModule n target

inductive Spells (source : List Char) (base : Site) : Site → List String → Nat → Prop
  | name : Spells source base base [base.node.text source] base.node.stop
  | field {s p : Site} {segments : List String} {stop : Nat} {a : Node}
      (h : Spells source base s segments stop) (hp : s.parent? = some p)
      (hk : p.kind = .attribute) (hobject : s.isPart .object = true)
      (ha : p.node.part? .attribute = some a) :
      Spells source base p (segments ++ [a.text source]) a.stop

def BoundByImport (t : ScopeTable) (old : QualifiedName) (u : Use) : Prop :=
  ∃ scope, t.scopes[t.resolve u.scope u.name]? = some scope ∧
    ∃ b ∈ scope.bindingsOf u.name, ∃ path, b.imported = some path ∧ old.segments <+: path

inductive Licensed (root : Node) (source : List Char) (old new : QualifiedName) : Edit → Prop
  | moduleName {n target : Node} (hn : n.Within root) (ht : NamesModule n target)
      (hold : old.segments <+: target.segments source) :
      Licensed root source old new
        ⟨target.span, dotted (new.segments ++ (target.segments source).drop old.length)⟩
  | wholeImport {n origin item : Node} {text : String} (hn : n.Within root)
      (hk : n.kind = .importFromStatement) (ho : NamesModule n origin)
      (hold : old.parent? = some (dotted (origin.segments source))) (hitem : item ∈ n.parts .name)
      (hlast : (item.importedAs source).1 = some old.last) : Licensed root source old new ⟨n.span, text⟩
  | load {u : Use} {top : Site} {stop : Nat} (hu : u ∈ (ScopeTable.build root source).uses)
      (hsite : u.site.IsUsed root) (hkind : u.kind = .load) (hname : u.name = old.first)
      (hbound : BoundByImport (ScopeTable.build root source) old u)
      (hspells : Spells source u.site top old.segments stop) :
      Licensed root source old new ⟨⟨u.site.node.start, stop⟩, new.text⟩
  | target {u : Use} (hu : u ∈ (ScopeTable.build root source).uses)
      (hsite : u.site.IsUsed root) (hkind : u.kind = .store ∨ u.kind = .globalDecl)
      (hname : u.name = old.first) (hbound : BoundByImport (ScopeTable.build root source) old u)
      (hold : old.length = 1) : Licensed root source old new ⟨u.site.node.span, new.text⟩

section Edits

variable {root : Node} {source : List Char} {old new : QualifiedName}

theorem Node.mem_children_of_mem_parts {n c : Node} {r : Role} (h : c ∈ n.parts r) :
    c ∈ n.children :=
  (List.mem_filter.1 h).1

theorem Node.mem_children_of_part? {n c : Node} {r : Role} (h : n.part? r = some c) :
    c ∈ n.children :=
  List.mem_of_find?_eq_some h

theorem dottedEdit?_eq_some {n : Node} {e : Edit} (h : dottedEdit? old new source n = some e) :
    old.segments <+: n.segments source ∧
      e = ⟨n.span, dotted (new.segments ++ (n.segments source).drop old.length)⟩ := by
  unfold dottedEdit? at h
  dsimp only at h
  split at h
  · next hold =>
    cases h
    exact ⟨List.isPrefixOf_iff_prefix.1 hold, rfl⟩
  · cases h

theorem namesModule_of_mem_importTargets {n target : Node} (hn : n.kind = .importStatement)
    (h : target ∈ n.importTargets) : NamesModule n target := by
  obtain ⟨item, hitem, ht⟩ := List.mem_filterMap.1 h
  split at ht
  · next hk =>
    cases ht
    exact .item hn hitem hk
  · next hk => exact .aliased hn hitem hk ht
  · cases ht

theorem namesModule_of_fromTarget? {n target : Node} (hn : n.kind = .importFromStatement)
    (h : n.fromTarget? = some target) : NamesModule n target := by
  obtain ⟨ht, hk⟩ := Option.filter_eq_some_iff.1 h
  exact .origin hn ht (beq_iff_eq.1 hk)

theorem splitEdit?_eq_some {n : Node} {parent : String} {e : Edit}
    (h : splitEdit? old new source parent n = some e) :
    e.span = n.span ∧ ∃ item ∈ n.parts .name, (item.importedAs source).1 = some old.last := by
  unfold splitEdit? at h
  dsimp only at h
  split at h
  · cases h
  · next hne =>
    cases h
    refine ⟨rfl, ?_⟩
    rw [List.isEmpty_map] at hne
    obtain ⟨item, hitem⟩ := List.exists_mem_of_ne_nil _ (mt List.isEmpty_iff.2 hne)
    obtain ⟨hmem, hmoved⟩ := List.mem_filter.1 hitem
    exact ⟨item, hmem, beq_iff_eq.1 hmoved⟩

theorem licensed_of_mem_importEdits {n : Node} (hn : n.Within root) {e : Edit}
    (he : e ∈ importEdits old new source n) : Licensed root source old new e := by
  unfold importEdits at he
  split at he
  · next hk =>
    obtain ⟨target, ht, he⟩ := List.mem_filterMap.1 he
    obtain ⟨hold, rfl⟩ := dottedEdit?_eq_some he
    exact .moduleName hn (namesModule_of_mem_importTargets hk ht) hold
  · next hk =>
    split at he
    · cases he
    · next target ht =>
      have hnames := namesModule_of_fromTarget? hk ht
      split at he
      · next e' he' =>
        obtain rfl := List.mem_singleton.1 he
        obtain ⟨hold, rfl⟩ := dottedEdit?_eq_some he'
        exact .moduleName hn hnames hold
      · split at he
        · next parent hparent =>
          split at he
          · next heq =>
            obtain ⟨hspan, item, hitem, hlast⟩ := splitEdit?_eq_some (Option.mem_toList.1 he)
            obtain ⟨span, text⟩ := e
            cases hspan
            exact .wholeImport hn hk hnames (by rw [hparent, heq]; rfl) hitem hlast
          · cases he
        · cases he
  · cases he

mutual

theorem Node.within_of_mem_preorder : ∀ {n m : Node}, m ∈ n.preorder → m.Within n
  | .mk r k s cs, m, h => by
    unfold Node.preorder at h
    obtain rfl | h := List.mem_cons.1 h
    · exact .self
    · obtain ⟨c, hc, hm⟩ := within_of_mem_preorderAll h
      exact .child hc hm

theorem within_of_mem_preorderAll : ∀ {cs : List Node} {m : Node}, m ∈ Node.preorderAll cs →
    ∃ c ∈ cs, m.Within c
  | [], m, h => by
    unfold Node.preorderAll at h
    cases h
  | c :: cs, m, h => by
    unfold Node.preorderAll at h
    split at h
    · obtain h | h := List.mem_append.1 h
      · exact ⟨c, by simp, Node.within_of_mem_preorder h⟩
      · obtain ⟨d, hd, hm⟩ := within_of_mem_preorderAll h
        exact ⟨d, by simp [hd], hm⟩
    · obtain ⟨d, hd, hm⟩ := within_of_mem_preorderAll h
      exact ⟨d, by simp [hd], hm⟩

end

theorem Site.ancestors_eq_cons {s p : Site} {above : List Site} (h : s.ancestors = p :: above) :
    s.parent? = some p ∧ p.ancestors = above := by
  refine ⟨by rw [Site.parent?, h]; rfl, ?_⟩
  obtain ⟨n, address, nodes⟩ := s
  cases address with
  | nil => cases h
  | cons i address =>
    cases nodes with
    | nil => cases h
    | cons m nodes =>
      cases h
      rfl

theorem chainAbove_spells {base s : Site} {limit stop : Nat} {above : List Site}
    {segments : List String} (habove : s.ancestors = above)
    (h : Spells source base s segments stop) (hlimit : segments.length ≤ limit) :
    ∃ top, Spells source base top (chainAbove source limit s above segments stop).1
        (chainAbove source limit s above segments stop).2 ∧
      (chainAbove source limit s above segments stop).1.length ≤ limit := by
  induction above generalizing s segments stop with
  | nil => exact ⟨s, h, hlimit⟩
  | cons p above ih =>
    obtain ⟨hparent, hp⟩ := Site.ancestors_eq_cons habove
    unfold chainAbove
    split
    · next hstep =>
      simp only [Bool.and_eq_true, decide_eq_true_eq, beq_iff_eq] at hstep
      obtain ⟨⟨hlt, hk⟩, hobject⟩ := hstep
      split
      · next a ha =>
        refine ih hp (.field h hparent hk hobject ha) ?_
        rw [List.length_append, List.length_singleton]
        omega
      · exact ⟨s, h, hlimit⟩
    · exact ⟨s, h, hlimit⟩

theorem exists_spells {s : Site}
    (h : old.isPrefixOf (attributeChain source old.length s).1 = true) :
    ∃ top, Spells source s top old.segments (attributeChain source old.length s).2 := by
  have hpos : 1 ≤ old.length := List.length_pos_of_ne_nil old.nonempty
  obtain ⟨top, hspells, hlen⟩ := chainAbove_spells rfl
    Spells.name hpos
  have heq := (List.isPrefixOf_iff_prefix.1 h).eq_of_length_le hlen
  refine ⟨top, ?_⟩
  rw [heq]
  exact hspells

theorem boundByImport_of_refersToImport {t : ScopeTable} {u : Use} (hname : u.name = old.first)
    (h : refersToImport t source old (t.resolve u.scope u.name) u = .ok true) :
    BoundByImport t old u := by
  unfold refersToImport at h
  split at h
  · cases h
  · next scope hscope =>
    dsimp only at h
    split at h
    · cases h
    · next hany =>
      rw [Bool.not_eq_true, Bool.not_eq_false'] at hany
      obtain ⟨b, hb, himports⟩ := List.any_eq_true.1 hany
      obtain ⟨path, hpath, hold⟩ := Option.any_eq_true _ _ |>.1 himports
      exact ⟨scope, hscope, b, hname ▸ hb, path, hpath, List.isPrefixOf_iff_prefix.1 hold⟩

theorem exists_of_bind_eq_ok {ε α β : Type} {x : Except ε α} {f : α → Except ε β} {b : β}
    (h : (x >>= f) = .ok b) : ∃ a, x = .ok a ∧ f a = .ok b := by
  cases x with
  | error e => cases h
  | ok a => exact ⟨a, rfl, h⟩

inductive UseOutcome (t : ScopeTable) (source : List Char) (old new : QualifiedName) (u : Use) :
    Option Edit → Prop
  | other (hname : u.name ≠ old.first) : UseOutcome t source old new u none
  | unspelled (hkind : u.kind = .load)
      (hchain : old.isPrefixOf (attributeChain source old.length u.site).1 = false) :
      UseOutcome t source old new u none
  | dotted (hkind : u.kind = .store ∨ u.kind = .globalDecl) (hold : 1 < old.length) :
      UseOutcome t source old new u none
  | unbound (hrefers : refersToImport t source old (t.resolve u.scope u.name) u = .ok false) :
      UseOutcome t source old new u none
  | load (hkind : u.kind = .load) (hname : u.name = old.first)
      (hchain : old.isPrefixOf (attributeChain source old.length u.site).1 = true)
      (hrefers : refersToImport t source old (t.resolve u.scope u.name) u = .ok true)
      (hroot : checkNewRoot t source new u = .ok ()) :
      UseOutcome t source old new u
        (some ⟨⟨u.site.node.start, (attributeChain source old.length u.site).2⟩, new.text⟩)
  | target (hkind : u.kind = .store ∨ u.kind = .globalDecl) (hname : u.name = old.first)
      (hold : old.length = 1)
      (hrefers : refersToImport t source old (t.resolve u.scope u.name) u = .ok true)
      (hroot : checkNewRoot t source new u = .ok ()) :
      UseOutcome t source old new u (some ⟨u.site.node.span, new.text⟩)

theorem outcome_of_useEdit {t : ScopeTable} {u : Use} {x : Option Edit}
    (h : useEdit t source old new u = .ok x) : UseOutcome t source old new u x := by
  unfold useEdit at h
  split at h
  · next hname =>
    cases h
    exact .other hname
  next hname =>
  have hname : u.name = old.first := not_not.1 hname
  have closing (hkind : u.kind = .store ∨ u.kind = .globalDecl)
      (h : (do
        if 1 < old.length then return none
        if !(← refersToImport t source old (t.resolve u.scope u.name) u) then return none
        if 1 < new.length then throw (.dottedGlobal (u.site.node.line source) old.text new.text)
        checkNewRoot t source new u
        return some ⟨u.site.node.span, new.text⟩ : Except RenameError (Option Edit)) = .ok x) :
      UseOutcome t source old new u x := by
    split at h
    · next hold =>
      cases h
      exact .dotted hkind hold
    next hold =>
    obtain ⟨refers, hrefers, h⟩ := exists_of_bind_eq_ok h
    cases refers with
    | false =>
      cases h
      exact .unbound hrefers
    | true =>
      have hpos : 1 ≤ old.length := List.length_pos_of_ne_nil old.nonempty
      simp only [Bool.not_true, Bool.false_eq_true, if_false] at h
      split at h
      · cases h
      obtain ⟨_, hroot, h⟩ := exists_of_bind_eq_ok h
      cases h
      exact .target hkind hname (by omega) hrefers hroot
  dsimp only at h
  split at h
  · next hkind =>
    split at h
    · next hchain =>
      cases h
      exact .unspelled hkind (by simpa using hchain)
    next hchain =>
    obtain ⟨refers, hrefers, h⟩ := exists_of_bind_eq_ok h
    cases refers with
    | false =>
      cases h
      exact .unbound hrefers
    | true =>
      obtain ⟨_, hroot, h⟩ := exists_of_bind_eq_ok h
      cases h
      exact .load hkind hname (by simpa using hchain) hrefers hroot
  · next hkind => exact closing (.inl hkind) h
  · next hkind => exact closing (.inr hkind) h

theorem licensed_of_useEdit {u : Use} {e : Edit} (hu : u ∈ (ScopeTable.build root source).uses)
    (hsite : u.site.IsUsed root)
    (h : useEdit (ScopeTable.build root source) source old new u = .ok (some e)) :
    Licensed root source old new e := by
  cases outcome_of_useEdit h with
  | load hkind hname hchain hrefers =>
    obtain ⟨top, hspells⟩ := exists_spells hchain
    exact .load hu hsite hkind hname (boundByImport_of_refersToImport hname hrefers) hspells
  | target hkind hname hold hrefers =>
    exact .target hu hsite hkind hname (boundByImport_of_refersToImport hname hrefers) hold

theorem exists_use_of_mem_useEdits {t : ScopeTable} {us : List Use} {es : List Edit}
    (h : useEdits t source old new us = .ok es) :
    ∀ e ∈ es, ∃ u ∈ us, useEdit t source old new u = .ok (some e) := by
  induction us generalizing es with
  | nil =>
    cases h
    simp
  | cons u us ih =>
    obtain ⟨e?, he?, h⟩ := exists_of_bind_eq_ok h
    obtain ⟨fs, hfs, h⟩ := exists_of_bind_eq_ok h
    cases h
    refine List.forall_mem_append.2 ⟨fun e he => ⟨u, by simp, ?_⟩, fun e he => ?_⟩
    · rw [he?, Option.mem_toList.1 he]
    · obtain ⟨v, hv, hedit⟩ := ih hfs e he
      exact ⟨v, by simp [hv], hedit⟩

theorem exists_useEdits {es : List Edit} (h : renameEdits root source old new = .ok es) :
    checkImportScopes old new (ScopeTable.build root source).scopes 0 = .ok () ∧ ∃ uses,
      useEdits (ScopeTable.build root source) source old new (ScopeTable.build root source).uses =
        .ok uses ∧ es = root.preorder.flatMap (importEdits old new source) ++ uses := by
  obtain ⟨_, hcheck, h⟩ := exists_of_bind_eq_ok h
  obtain ⟨uses, huses, h⟩ := exists_of_bind_eq_ok h
  cases h
  exact ⟨hcheck, uses, huses, rfl⟩

theorem licensed_of_mem_renameEdits {es : List Edit} (hroot : root.kind = .module)
    (hshape : root.All (Node.Shaped classEnclosure source))
    (h : renameEdits root source old new = .ok es) :
    ∀ e ∈ es, Licensed root source old new e := by
  obtain ⟨-, uses, huses, rfl⟩ := exists_useEdits h
  refine List.forall_mem_append.2 ⟨fun e he => ?_, fun e he => ?_⟩
  · obtain ⟨n, hn, he⟩ := List.mem_flatMap.1 he
    exact licensed_of_mem_importEdits (Node.within_of_mem_preorder hn) he
  · obtain ⟨u, hu, hedit⟩ := exists_use_of_mem_useEdits huses e he
    exact licensed_of_useEdit hu (isUsed_of_mem_uses hroot hshape u hu).1 hedit

end Edits

theorem NamesModule.within {n target : Node} (h : NamesModule n target) : target.Within n := by
  cases h with
  | item _ hitem _ => exact .child (Node.mem_children_of_mem_parts hitem) .self
  | aliased _ hitem _ ht =>
    exact .child (Node.mem_children_of_mem_parts hitem) (.child (Node.mem_children_of_part? ht) .self)
  | origin _ ht _ => exact .child (Node.mem_children_of_part? ht) .self

theorem NamesModule.isImport {n target : Node} (h : NamesModule n target) :
    n.kind.isImport = true := by
  cases h with
  | item hn | aliased hn | origin hn => rw [hn]; rfl

section Places

variable {root : Node} {source : List Char} {old new : QualifiedName}

theorem Node.Shaped.start_lt_stop {ρ : Type} {E : Enclosure ρ} {n : Node} (h : n.Shaped E source)
    (hk : n.kind = .identifier) : n.start < n.stop :=
  Text.lt_of_between_ne_nil (h.word hk).2.1

theorem Node.start_lt_stop_of_segments {ρ : Type} {E : Enclosure ρ} {n : Node}
    (hp : n.Placed source) (hs : n.All (Shaped E source)) (hne : n.segments source ≠ []) :
    n.start < n.stop := by
  unfold Node.segments at hne
  split at hne
  · next hk => exact hs.self.start_lt_stop (beq_iff_eq.1 hk)
  · obtain ⟨text, htext⟩ := List.exists_mem_of_ne_nil _ hne
    obtain ⟨c, hc, -⟩ := List.mem_map.1 htext
    obtain ⟨hnamed, hk⟩ := List.mem_filter.1 hc
    have hchild := (List.mem_filter.1 hnamed).1
    have hlt := (hs.child hchild).self.start_lt_stop (beq_iff_eq.1 hk)
    have hin := hp.self.inside c hchild
    omega

theorem Site.role_of_isPart {s : Site} {r : Role} (hs : s.InTree root) (h : s.isPart r = true) :
    s.node.role = some r := by
  cases hs with
  | root => cases h
  | @child q i n hq hn =>
    unfold Site.isPart Site.child at h
    obtain ⟨hi, hrole, -⟩ := List.findIdx?_eq_some_iff_getElem.1 (beq_iff_eq.1 h)
    rw [(List.getElem?_eq_some_iff.1 hn).2] at hrole
    exact beq_iff_eq.1 hrole

theorem Site.InTree.eq_child_of_parent? {s p : Site} (hs : s.InTree root)
    (hp : s.parent? = some p) : ∃ i, s = p.child i s.node ∧ p.node.children[i]? = some s.node ∧
      p.InTree root := by
  cases hs with
  | root => cases hp
  | @child q i n hq hn =>
    cases hp
    exact ⟨i, rfl, hn, hq⟩

theorem Spells.placed {base top : Site} {segments : List String} {stop : Nat}
    (hp : root.Placed source) (hs : root.All (Node.Shaped importEnclosure source))
    (hbase : base.InTree root) (h : Spells source base top segments stop) :
    top.InTree root ∧ top.address <:+ base.address ∧ Text.IsBoundary source stop ∧
      base.start ≤ stop := by
  induction h with
  | name =>
    have hsound := (hbase.placed hp).self
    exact ⟨hbase, List.suffix_rfl, hsound.stop_boundary, hsound.start_le_stop⟩
  | @field s p segments stop a h hparent hk hobject ha ih =>
    obtain ⟨hin, hsuffix, -, -⟩ := ih
    obtain ⟨i, heq, hchild, hpin⟩ := hin.eq_child_of_parent? hparent
    have hmem := Node.mem_children_of_part? ha
    have harole : a.role = some .attribute := by
      simpa using List.find?_some ha
    have hsrole := Site.role_of_isPart hin hobject
    have hlast := ((hs p.node hpin.within).field hk a hmem harole).2 s.node
      (List.mem_of_getElem? hchild) (by simp [hsrole])
    have haround := hbase.around hp hin hsuffix
    have hle := hbase.start_le_stop hp
    refine ⟨hpin, ?_, ((hpin.placed hp).child hmem).self.stop_boundary, ?_⟩
    · rw [heq] at hsuffix
      exact (List.suffix_cons i p.address).trans hsuffix
    · exact Nat.le_trans hle (Nat.le_trans haround.2 hlast)

theorem Licensed.fits {e : Edit} (hp : root.Placed source)
    (hs : root.All (Node.Shaped importEnclosure source)) (h : Licensed root source old new e) :
    e.Fits source := by
  have node {n : Node} {text : String} (hn : n.Within root) : Edit.Fits source ⟨n.span, text⟩ :=
    ⟨(hp n hn).start_boundary, (hp n hn).stop_boundary, (hp n hn).start_le_stop⟩
  cases h with
  | moduleName hn ht _ => exact node (ht.within.trans hn)
  | wholeImport hn => exact node hn
  | target _ hsite => exact node hsite.inTree.within
  | load _ hsite _ _ _ hspells =>
    obtain ⟨-, -, hstop, hle⟩ := hspells.placed hp hs hsite.inTree
    exact ⟨((hsite.inTree.placed hp).self).start_boundary, hstop, hle⟩

theorem exists_site_of_within {m : Node} (h : m.Within root) :
    ∃ s : Site, s.InTree root ∧ s.node = m := by
  suffices hgen : ∀ {n : Node}, m.Within n → ∀ q : Site, q.InTree root → q.node = n →
      ∃ s : Site, s.InTree root ∧ s.node = m from hgen h (Site.root root) .root rfl
  intro n hm
  induction hm with
  | self => exact fun q hq hn => ⟨q, hq, hn⟩
  | @child n c hc _ ih =>
    intro q hq hn
    obtain ⟨i, hi⟩ := List.getElem?_of_mem hc
    exact ih (q.child i c) (hq.child (hn ▸ hi)) rfl

theorem QualifiedName.ne_empty_of_mem {w : String} (h : w ∈ old.segments) : w ≠ "" := by
  rintro rfl
  have := old.valid "" h
  simp [isSegment, isWord] at this

theorem Node.start_lt_stop_of_text {n : Node} {w : String} (hw : w ≠ "")
    (h : n.text source = w) : n.start < n.stop := by
  have hne : Text.between n.start n.stop source ≠ [] := by
    intro hnil
    apply hw
    rw [← h, Node.text, hnil]
  exact Text.lt_of_between_ne_nil hne

theorem exists_within_of_importedAs {item : Node} {w : String} (hw : w ≠ "")
    (h : (item.importedAs source).1 = some w) : ∃ c : Node, c.Within item ∧ c.start < c.stop := by
  unfold Node.importedAs at h
  split at h
  · obtain ⟨c, hc, hcw⟩ := Option.map_eq_some_iff.1 h
    exact ⟨c, .child (Node.mem_children_of_part? hc) .self, Node.start_lt_stop_of_text hw hcw⟩
  · cases h
    exact ⟨item, .self, Node.start_lt_stop_of_text hw rfl⟩

section Fields

variable {m a : Node}

theorem start_ne_of_isImport {n : Node} {x : Nat} (hp : root.Placed source)
    (hs : root.All (Node.Shaped importEnclosure source)) (hn : n.Within root)
    (hi : n.kind.isImport = true) (hlo : n.start ≤ x) (hhi : x < n.stop) (hm : m.Within root)
    (hk : m.kind = .attribute) (ha : a ∈ m.children) (hr : a.role = some .attribute) :
    x ≠ a.start := by
  rintro rfl
  have hword := ((hs m hm).field hk a ha hr).1
  have hlt := (hs a (.trans (.child ha .self) hm)).start_lt_stop hword
  have hleaf := ((hs a (.trans (.child ha .self) hm)).word hword).1
  obtain ⟨sm, hsm, rfl⟩ := exists_site_of_within hm
  obtain ⟨sn, hsn, rfl⟩ := exists_site_of_within hn
  obtain ⟨i, hi'⟩ := List.getElem?_of_mem ha
  have hsa := hsm.child hi'
  obtain h | h := hsa.comparable hp hsn hhi (Nat.lt_of_le_of_lt hlo hlt)
  · obtain heq | hmem := hsn.eq_or_mem_ancestors hsa h
    · rw [← heq, show (sm.child i a).node.kind = .identifier from hword] at hi
      cases hi
    · obtain ⟨j, c, hc, -⟩ := hsn.exists_child hmem
      rw [show (sm.child i a).node.children = [] from hleaf] at hc
      cases hc
  · obtain heq | hmem := hsa.eq_or_mem_ancestors hsn h
    · rw [heq, show (sm.child i a).node.kind = .identifier from hword] at hi
      cases hi
    · rw [Site.ancestors_child] at hmem
      have hwithin : sm.node.Within sn.node := by
        obtain rfl | hmem := List.mem_cons.1 hmem
        · exact .self
        · exact Site.within_of_mem_ancestors hsm sn hmem
      have houter : importEnclosure.outer sn.node.kind = true := by
        simp [importEnclosure, hi]
      have hall : sn.node.All (Node.Shaped importEnclosure source) :=
        fun c hc => hs c (hc.trans hsn.within)
      obtain heq | hpart := hall.isImportPart houter hwithin
      · rw [← heq, hk] at hi
        cases hi
      · rw [hk] at hpart
        cases hpart

theorem start_ne_of_isUsed {s : Site} (hp : root.Placed source)
    (hs : root.All (Node.Shaped importEnclosure source)) (hsite : s.IsUsed root)
    (hm : m.Within root) (hk : m.kind = .attribute) (ha : a ∈ m.children)
    (hr : a.role = some .attribute) : s.start ≠ a.start := by
  intro hstart
  have hword := ((hs m hm).field hk a ha hr).1
  have hshape := hs a (.trans (.child ha .self) hm)
  have hshape' := hs s.node hsite.inTree.within
  obtain ⟨sm, hsm, rfl⟩ := exists_site_of_within hm
  obtain ⟨i, hi⟩ := List.getElem?_of_mem ha
  have hsa := hsm.child hi
  have hlt := hshape.start_lt_stop hword
  have hlt' := hshape'.start_lt_stop hsite.kind
  -- Two words that start at one place are the same, and this one is the field.
  have heq : sm.child i a = s := by
    have hlt₁ : (sm.child i a).start < s.stop := lt_of_eq_of_lt hstart.symm hlt'
    have hlt₂ : s.start < (sm.child i a).stop := lt_of_eq_of_lt hstart hlt
    obtain h | h := hsa.comparable hp hsite.inTree hlt₁ hlt₂
    · obtain heq | hmem := hsite.inTree.eq_or_mem_ancestors hsa h
      · exact heq
      · obtain ⟨j, c, hc, -⟩ := hsite.inTree.exists_child hmem
        rw [show (sm.child i a).node.children = [] from (hshape.word hword).1] at hc
        cases hc
    · obtain heq | hmem := hsa.eq_or_mem_ancestors hsite.inTree h
      · exact heq.symm
      · obtain ⟨j, c, hc, -⟩ := hsa.exists_child hmem
        rw [(hshape'.word hsite.kind).1] at hc
        cases hc
  subst heq
  exact hsite.notField ⟨sm, rfl, hk, hr⟩

theorem Licensed.start_ne {e : Edit} (hp : root.Placed source)
    (hs : root.All (Node.Shaped importEnclosure source)) (h : Licensed root source old new e)
    (hm : m.Within root) (hk : m.kind = .attribute) (ha : a ∈ m.children)
    (hr : a.role = some .attribute) : e.span.start ≠ a.start := by
  cases h with
  | @moduleName n target hn ht hold =>
    have hwithin := ht.within.trans hn
    have hin := (show n.Placed source from fun c hc => hp c (hc.trans hn)).within_span ht.within
    have hlt := Node.start_lt_stop_of_segments (fun c hc => hp c (hc.trans hwithin))
      (fun c hc => hs c (hc.trans hwithin)) fun hnil =>
        old.nonempty (List.prefix_nil.1 (hnil ▸ hold))
    exact start_ne_of_isImport hp hs hn ht.isImport hin.1 (Nat.lt_of_lt_of_le hlt hin.2) hm hk ha hr
  | @wholeImport n origin item text hn hkind ho hold hitem hlast =>
    obtain ⟨c, hc, hlt⟩ := exists_within_of_importedAs
      (QualifiedName.ne_empty_of_mem (List.getLast_mem old.nonempty)) hlast
    have hin := (show n.Placed source from fun c hc => hp c (hc.trans hn)).within_span
      (hc.trans (.child (Node.mem_children_of_mem_parts hitem) .self))
    have hlt : n.start < n.stop := by omega
    exact start_ne_of_isImport hp hs hn ho.isImport (Nat.le_refl _) hlt hm hk ha hr
  | load _ hsite => exact start_ne_of_isUsed hp hs hsite hm hk ha hr
  | target _ hsite => exact start_ne_of_isUsed hp hs hsite hm hk ha hr

end Fields

end Places

section Renaming

variable {source : String} {root : Node} {old new : QualifiedName}

theorem renameModule_eq_none (h : Text.occursIn old.first.toList source.toList = false) :
    renameModule source old new = .ok none := by
  rw [renameModule, h]
  rfl

theorem renameModule_eq_renameTree (hparse : parse? source = some root)
    (h : Text.occursIn old.first.toList source.toList = true) :
    renameModule source old new = renameTree root source.toList old new := by
  rw [renameModule, h, hparse]
  rfl

theorem exists_renameTree {r : Renamed} (h : renameModule source old new = .ok (some r)) :
    ∃ root, parse? source = some root ∧ renameTree root source.toList old new = .ok (some r) := by
  cases hoccurs : Text.occursIn old.first.toList source.toList with
  | false =>
    rw [renameModule_eq_none hoccurs] at h
    cases h
  | true =>
    cases hparse : parse? source with
    | none =>
      rw [renameModule, hoccurs, hparse] at h
      cases h
    | some root => exact ⟨root, rfl, renameModule_eq_renameTree hparse hoccurs ▸ h⟩

theorem exists_renameEdits {chars : List Char} {r : Option Renamed}
    (h : renameTree root chars old new = .ok r) : ∃ es, renameEdits root chars old new = .ok es ∧
      (es = [] ∧ r = none ∨ es ≠ [] ∧ ∃ text n, Edit.splice es chars = .ok (text, n) ∧
        r = some ⟨String.ofList text, n⟩) := by
  obtain ⟨es, hes, h⟩ := exists_of_bind_eq_ok h
  refine ⟨es, hes, ?_⟩
  split at h
  · next hempty =>
    cases h
    exact .inl ⟨List.isEmpty_iff.1 hempty, rfl⟩
  · next hne =>
    split at h
    · next text n hsplice =>
      cases h
      exact .inr ⟨fun hnil => hne (List.isEmpty_iff.2 hnil), text, n, hsplice, rfl⟩
    · cases h

theorem renameModule_eq_of_edits (es : List Edit)
    (text : List Char) {n : Nat} (hoccurs : Text.occursIn old.first.toList source.toList = true)
    (hedits : ((parse? source).bind fun root =>
      (renameEdits root source.toList old new).toOption) = some es)
    (hne : es ≠ []) (hsplice : Edit.splice es source.toList = .ok (text, n)) :
    renameModule source old new = .ok (some ⟨String.ofList text, n⟩) := by
  obtain ⟨root, hroot, hedits⟩ := Option.bind_eq_some_iff.1 hedits
  rw [renameModule_eq_renameTree hroot hoccurs, renameTree]
  cases hr : renameEdits root source.toList old new with
  | error e =>
    rw [hr] at hedits
    cases hedits
  | ok fs =>
    rw [hr] at hedits
    cases hedits
    cases es with
    | nil => exact absurd rfl hne
    | cons e es =>
      simp only [bind, Except.bind, List.isEmpty_cons, Bool.false_eq_true, if_false, hsplice]
      rfl

end Renaming

theorem renameModule_exact {source : String} {old new : QualifiedName} {r : Renamed}
    (h : renameModule source old new = .ok (some r)) :
    ∃ root es, parse? source = some root ∧ es.length = r.replacements ∧
      Spliced 0 es source.toList r.content.toList ∧
      (es.Pairwise fun e f => e.span.stop ≤ f.span.start) ∧
      ∀ e ∈ es, Licensed root source.toList old new e ∧
        ∀ m : Node, m.Within root → m.kind = .attribute → ∀ a ∈ m.children,
          a.role = some .attribute → e.span.start ≠ a.start := by
  obtain ⟨root, hroot, h⟩ := exists_renameTree h
  obtain ⟨edits, hedits, ⟨-, hnone⟩ | ⟨-, text, n, hsplice, heq⟩⟩ := exists_renameEdits h
  · cases hnone
  cases heq
  have hp := parse?_placed hroot
  have hs := parse?_shaped importEnclosure_lawful hroot
  have hlicensed := licensed_of_mem_renameEdits (parse?_kind hroot)
    (parse?_shaped classEnclosure_lawful hroot) hedits
  obtain ⟨hn, hspliced⟩ := Edit.splice_spliced (fun e he => (hlicensed e he).fits hp hs) hsplice
  refine ⟨root, (Edit.ordered edits).reverse, hroot, by simp [hn], ?_, hspliced.disjoint,
    fun e he => ?_⟩
  · rwa [String.toList_ofList]
  · have he := hlicensed e (Edit.mem_ordered.1 (List.mem_reverse.1 he))
    exact ⟨he, fun m hm hk a ha hr => he.start_ne hp hs hm hk ha hr⟩

def shortName : QualifiedName := ⟨["a"], by decide, by decide⟩

def longName : QualifiedName := ⟨["b", "a"], by decide, by decide⟩

theorem ordered_import_and_use :
    Edit.ordered [⟨⟨7, 8⟩, "b.a"⟩, ⟨⟨9, 10⟩, "b.a"⟩] =
      [⟨⟨9, 10⟩, "b.a"⟩, ⟨⟨7, 8⟩, "b.a"⟩] :=
  Edit.ordered_eq_reverse (by decide)

theorem renameModule_exact_import_and_use :
    ∃ root es, parse? "import a\na.x\n" = some root ∧ es.length = 2 ∧
      Spliced 0 es "import a\na.x\n".toList "import b.a\nb.a.x\n".toList ∧
      (es.Pairwise fun e f => e.span.stop ≤ f.span.start) ∧
      ∀ e ∈ es, Licensed root "import a\na.x\n".toList shortName longName e ∧
        ∀ m : Node, m.Within root → m.kind = .attribute → ∀ a ∈ m.children,
          a.role = some .attribute → e.span.start ≠ a.start := by
  refine renameModule_exact (r := ⟨"import b.a\nb.a.x\n", 2⟩) ?_
  refine renameModule_eq_of_edits [⟨⟨7, 8⟩, "b.a"⟩, ⟨⟨9, 10⟩, "b.a"⟩]
    "import b.a\nb.a.x\n".toList (by decide) (by decide +kernel) (by simp) ?_
  rw [Edit.splice, ordered_import_and_use, String.toList_ofList]
  rfl

end Reroot.Python

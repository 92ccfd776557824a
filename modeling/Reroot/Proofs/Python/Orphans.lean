import Reroot.Proofs.Python.Apart
import Reroot.Proofs.Python.Landing

namespace Reroot.Python

def Rewritten (es : List Edit) (site : Site) : Prop :=
  ∃ e ∈ es, e.span.start ≤ site.start ∧ site.stop ≤ e.span.stop

namespace ScopeTable

structure Orphaned (root : Node) (source : List Char) (es : List Edit) (i : Nat) (u : Use) : Prop where
  kept : ¬Rewritten es u.site
  lost : ∀ site, ImportedAt root source i u.name site → Rewritten es site

variable {source : String} {root : Node} {old new : QualifiedName} {edits : List Edit} {i : Nat}
  {s : Scope} {u : Use} {name : String} {path : List String} {site : Site}

theorem isPrefixOf_of_importEdits (hparse : parse? source = some root) {q : Site} {n m : Node}
    {e : Edit} (hq : q.InTree root) (hk : q.kind = .importStatement) (hn : n ∈ q.node.children)
    (hr : n.role = some .name) (hdotted : n.kind = .dottedName) (hlt : n.start < n.stop)
    (hm : m ∈ root.preorder) (he : e ∈ importEdits old new source.toList m)
    (hcovers : e.span.start ≤ n.start ∧ n.stop ≤ e.span.stop) :
    old.isPrefixOf (n.segments source.toList) = true := by
  have hplaced := hq.placed (parse?_placed hparse)
  have hinside := hplaced.self.inside n hn
  have hin := inside_of_mem_importEdits hparse hm he
  have himport : q.node.kind.isImport = true := by
    rw [show q.node.kind = .importStatement from hk]
    rfl
  obtain rfl := eq_of_isImport hparse hq.within (Node.within_of_mem_preorder hm) himport
    (isImport_of_mem_importEdits he) (by omega) (by omega)
  have hshaped := (parse?_shaped listEnclosure_lawful hparse).of_within hq.within
  have hitem : n ∈ q.node.importItems := by
    refine List.mem_filterMap.2 ⟨n, List.mem_filter.2 ⟨hn, beq_iff_eq.2 hr⟩, ?_⟩
    simp only [hdotted]
  unfold importEdits at he
  rw [show q.node.kind = .importStatement from hk] at he
  dsimp only at he
  rw [← filterMap_importItems hshaped hk] at he
  obtain ⟨target, htarget, hedit⟩ := List.mem_filterMap.1 he
  obtain ⟨hold, rfl⟩ := dottedEdit?_eq_some hedit
  have hordered := pairwise_moduleTargets hplaced
  rw [Node.moduleTargets, show q.node.kind = .importStatement from hk] at hordered
  have hcovers : target.start ≤ n.start ∧ n.stop ≤ target.stop := hcovers
  obtain rfl := eq_of_pairwise hordered hitem htarget (by omega) (by omega)
  exact List.isPrefixOf_iff_prefix.2 hold

theorem rewritten_import_iff (hparse : parse? source = some root)
    (hedits : renameEdits root source.toList old new = .ok edits)
    (h : ⟨name, some path, site⟩ ∈ entriesIn root source.toList i) :
    Rewritten edits site ↔ old.isPrefixOf path = true := by
  constructor
  · rintro ⟨e, he, hcovers⟩
    have hhead := head?_of_mem_entriesIn h path rfl
    obtain ⟨q, v, size, hq, hmem⟩ := exists_visited_of_mem_log (mem_entriesIn.1 h)
    obtain ⟨hk, j, n, hn, hr, hdotted, rfl, rfl⟩ := exists_of_mem_respond hmem
    have hp := parse?_placed hparse
    have hwithin : n.Within root := (hq.inTree.child hn).within
    have hlt := Node.start_lt_stop_of_segments (Node.All.of_within hp hwithin)
      ((parse?_shaped listEnclosure_lawful hparse).of_within hwithin) fun hnil => by
        rw [hnil] at hhead
        cases hhead
    have hchild := List.mem_of_getElem? hn
    have hcovers : e.span.start ≤ n.start ∧ n.stop ≤ e.span.stop := hcovers
    obtain ⟨-, uses, huses, rfl⟩ := exists_useEdits hedits
    obtain he | he := List.mem_append.1 he
    · obtain ⟨m, hm, he⟩ := List.mem_flatMap.1 he
      exact isPrefixOf_of_importEdits hparse hq.inTree hk hchild hr hdotted hlt hm he hcovers
    · obtain ⟨u, hu, hedit⟩ := exists_use_of_mem_useEdits huses e he
      have hinside := (hq.inTree.placed hp).self.inside n hchild
      have himport : q.node.kind.isImport = true := by
        rw [show q.node.kind = .importStatement from hk]
        rfl
      have := apart_of_import_of_use hparse hu hedit hq.inTree.within himport
      omega
  · intro hpath
    obtain ⟨e, he, hspan⟩ := isRenamed_of_isPrefixOf hedits h hpath
    have hstart : e.span.start = site.start := congrArg Span.start hspan
    have hstop : e.span.stop = site.stop := congrArg Span.stop hspan
    exact ⟨e, he, by omega, by omega⟩

theorem start_lt_stop_of_mem_uses (hparse : parse? source = some root)
    (hu : u ∈ (build root source.toList).uses) : u.site.start < u.site.stop := by
  have hused := (isUsed_of_mem_uses (parse?_kind hparse)
    (parse?_shaped classEnclosure_lawful hparse) u hu).1
  exact (parse?_shaped classEnclosure_lawful hparse u.site.node hused.inTree.within).start_lt_stop
    hused.kind

theorem rewritten_use_iff (hparse : parse? source = some root)
    (hedits : renameEdits root source.toList old new = .ok edits)
    (hu : u ∈ (build root source.toList).uses) : Rewritten edits u.site ↔
      ∃ e, useEdit (build root source.toList) source.toList old new u = .ok (some e) := by
  have hp := parse?_placed hparse
  have hlt := start_lt_stop_of_mem_uses hparse hu
  obtain ⟨-, uses, huses, rfl⟩ := exists_useEdits hedits
  constructor
  · rintro ⟨e, he, hstart, hstop⟩
    obtain he | he := List.mem_append.1 he
    · obtain ⟨n, hn, he⟩ := List.mem_flatMap.1 he
      have hin := inside_of_mem_importEdits hparse hn he
      have := apart_of_use hparse hu (Node.within_of_mem_preorder hn)
        (isImport_of_mem_importEdits he) (by omega)
      omega
    · obtain ⟨v, hv, hedit⟩ := exists_use_of_mem_useEdits huses e he
      refine ⟨e, ?_⟩
      by_contra hne
      have hapart : (build root source.toList).uses.Pairwise fun u v =>
        u.site.stop ≤ v.site.start ∨ v.site.stop ≤ u.site.start := (pairwise_uses hp).imp .inl
      have hsymm : Std.Symm fun u v : Use =>
        u.site.stop ≤ v.site.start ∨ v.site.stop ≤ u.site.start := ⟨fun _ _ => Or.symm⟩
      have hvstart := (span_of_useEdit_eq_some hedit).1
      obtain hle | hle := hapart.forall hu hv fun heq => hne (heq ▸ hedit)
      · omega
      · have := stop_le_start_of_useEdit hparse hv hu hle hedit
        omega
  · rintro ⟨e, hedit⟩
    obtain ⟨x, hx, hmem⟩ := exists_of_useEdits huses u hu
    rw [hedit, Except.ok.injEq] at hx
    obtain ⟨hstart, hstop⟩ := span_of_useEdit_eq_some hedit
    refine ⟨e, List.mem_append_right _ (hmem e (hx ▸ rfl)), by omega, ?_⟩
    obtain hstop | ⟨-, top, hspells⟩ := hstop
    · omega
    · have hused := (isUsed_of_mem_uses (parse?_kind hparse)
        (parse?_shaped classEnclosure_lawful hparse) u hu).1
      exact (hspells.within hp (parse?_shaped importEnclosure_lawful hparse) hused.inTree).1

theorem exists_renames_of_use {r : Option Renamed} (hparse : parse? source = some root)
    (hrename : renameModule source old new = .ok r) (hu : u ∈ (build root source.toList).uses) :
    ∃ es x, Renames source es r ∧ useEdit (build root source.toList) source.toList old new u = .ok x ∧
      (Rewritten es u.site ↔ ∃ e, x = some e) := by
  cases hoccurs : Text.occursIn old.first.toList source.toList with
  | false =>
    have hname : u.name ≠ old.first := by
      intro hname
      have := occursIn_of_mem_uses hu
      rw [hname, hoccurs] at this
      cases this
    obtain rfl := Except.ok.inj (renameModule_eq_none hoccurs ▸ hrename)
    exact ⟨[], none, rfl, if_pos hname, by simp [Rewritten]⟩
  | true =>
    obtain ⟨edits, es, hedits, hmem, hrenames⟩ := exists_renames hparse hoccurs hrename
    obtain ⟨-, uses, huses, -⟩ := exists_useEdits hedits
    obtain ⟨x, hx, -⟩ := exists_of_useEdits huses u hu
    have hrewritten : Rewritten es u.site ↔ Rewritten edits u.site := by simp only [Rewritten, hmem]
    refine ⟨es, x, hrenames, hx, hrewritten.trans ?_⟩
    rw [rewritten_use_iff hparse hedits hu, hx]
    simp only [Except.ok.injEq]

theorem refersToImport_of_forall {t : ScopeTable} {chars : List Char} {owner : Nat}
    (ho : t.scopes[owner]? = some s) (h : ∀ b ∈ s.bindingsOf old.first, b.isImport = true) :
    refersToImport t chars old owner u =
      .ok ((s.bindingsOf old.first).any (Binding.importsModule old)) := by
  have hall : (s.bindingsOf old.first).all Binding.isImport = true := List.all_eq_true.2 h
  unfold refersToImport
  rw [ho]
  dsimp only
  cases (s.bindingsOf old.first).any (Binding.importsModule old) with
  | false => rfl
  | true => rw [Bool.not_true, if_neg Bool.false_ne_true, if_pos hall]

theorem exists_useEdit_iff {t : ScopeTable} {chars : List Char} {x : Option Edit}
    (hkind : u.kind = .load) (hname : u.name = old.first)
    (h : useEdit t chars old new u = .ok x) : (∃ e, x = some e) ↔
      old.isPrefixOf (attributeChain chars old.length u.site).1 = true ∧
        refersToImport t chars old (t.resolve u.scope u.name) u = .ok true := by
  cases outcome_of_useEdit h with
  | other hother => exact absurd hname hother
  | unspelled _ hchain => simp [hchain]
  | dotted hother | target hother => simp [hkind] at hother
  | unbound hrefers => simp [hrefers]
  | load _ _ hchain hrefers => simp [hchain, hrefers]

theorem rewritten_imports_iff (hparse : parse? source = some root)
    (hedits : renameEdits root source.toList old new = .ok edits)
    (hs : (build root source.toList).scopes[i]? = some s)
    (hall : ∀ b ∈ s.bindingsOf old.first, b.isImport = true) :
    (∀ site, ImportedAt root source.toList i old.first site → Rewritten edits site) ↔
      ∀ b ∈ s.bindingsOf old.first, b.importsModule old = true := by
  constructor
  · intro hlost b hb
    obtain ⟨⟨name, imported, site⟩, he, rfl, rfl⟩ := (mem_bindingsOf hs).1 hb
    obtain ⟨path, himported⟩ := Option.isSome_iff_exists.1 (hall _ hb)
    obtain rfl : imported = some path := himported
    have hrewritten := hlost site ⟨path, he⟩
    exact Option.any_eq_true _ _ |>.2 ⟨path, rfl, (rewritten_import_iff hparse hedits he).1 hrewritten⟩
  · rintro hall site ⟨path, he⟩
    have himports := hall _ ((mem_bindingsOf hs).2 ⟨_, he, rfl, rfl⟩)
    obtain ⟨path', hpath, hold⟩ := Option.any_eq_true _ _ |>.1 himports
    obtain rfl : path = path' := Option.some.inj hpath
    exact (rewritten_import_iff hparse hedits he).2 hold

theorem rewritten_load_iff (hparse : parse? source = some root)
    (hedits : renameEdits root source.toList old new = .ok edits)
    (hu : u ∈ (build root source.toList).uses) (hkind : u.kind = .load) (hname : u.name = old.first)
    (howned : (build root source.toList).scopes[
      (build root source.toList).resolve u.scope u.name]? = some s)
    (hall : ∀ b ∈ s.bindingsOf old.first, b.isImport = true) : Rewritten edits u.site ↔
      old.isPrefixOf (attributeChain source.toList old.length u.site).1 = true ∧
        (s.bindingsOf old.first).any (Binding.importsModule old) = true := by
  obtain ⟨-, uses, huses, -⟩ := exists_useEdits hedits
  obtain ⟨x, hx, -⟩ := exists_of_useEdits huses u hu
  have hedit := exists_useEdit_iff hkind hname hx
  rw [refersToImport_of_forall howned hall, Except.ok.injEq] at hedit
  rw [rewritten_use_iff hparse hedits hu, ← hedit, hx]
  simp only [Except.ok.injEq]

theorem orphaned_iff_of_renameEdits (hparse : parse? source = some root)
    (hedits : renameEdits root source.toList old new = .ok edits)
    (hs : (build root source.toList).scopes[i]? = some s) (hne : s.bindingsOf old.first ≠ [])
    (hall : ∀ b ∈ s.bindingsOf old.first, b.isImport = true)
    (hu : u ∈ (build root source.toList).uses) (hkind : u.kind = .load) (hname : u.name = old.first)
    (howner : (build root source.toList).resolve u.scope u.name = i) :
    Orphaned root source.toList edits i u ↔
      old.isPrefixOf (attributeChain source.toList old.length u.site).1 = false ∧
        ∀ b ∈ s.bindingsOf old.first, b.importsModule old = true := by
  have hlost := rewritten_imports_iff hparse hedits hs hall
  have hkept := rewritten_load_iff hparse hedits hu hkind hname (howner ▸ hs) hall
  constructor
  · rintro ⟨hnot, hgone⟩
    rw [hname, hlost] at hgone
    obtain ⟨b, hb⟩ := List.exists_mem_of_ne_nil _ hne
    have hany := List.any_eq_true.2 ⟨b, hb, hgone b hb⟩
    exact ⟨Bool.eq_false_iff.2 fun hbegins => hnot (hkept.2 ⟨hbegins, hany⟩), hgone⟩
  · rintro ⟨hbegins, hgone⟩
    refine ⟨fun hrewritten => ?_, hname ▸ hlost.2 hgone⟩
    rw [hkept, hbegins] at hrewritten
    cases hrewritten.1

theorem orphaned_iff {r : Option Renamed} (hparse : parse? source = some root)
    (hrename : renameModule source old new = .ok r)
    (hs : (build root source.toList).scopes[i]? = some s) (hne : s.bindingsOf old.first ≠ [])
    (hall : ∀ b ∈ s.bindingsOf old.first, b.isImport = true)
    (hu : u ∈ (build root source.toList).uses) (hkind : u.kind = .load) (hname : u.name = old.first)
    (howner : (build root source.toList).resolve u.scope u.name = i) :
    ∃ es, Renames source es r ∧
      (Orphaned root source.toList es i u ↔
        old.isPrefixOf (attributeChain source.toList old.length u.site).1 = false ∧
          ∀ b ∈ s.bindingsOf old.first, b.importsModule old = true) ∧
      (old.length = 1 → ¬Orphaned root source.toList es i u) := by
  obtain ⟨edits, es, hedits, hmem, hrenames⟩ :=
    exists_renames hparse (hname ▸ occursIn_of_mem_uses hu) hrename
  have hrewritten (site : Site) : Rewritten es site ↔ Rewritten edits site := by
    simp only [Rewritten, hmem]
  have horphaned : Orphaned root source.toList es i u ↔ Orphaned root source.toList edits i u := by
    constructor
    · exact fun h => ⟨mt (hrewritten _).2 h.kept, fun site hsite => (hrewritten _).1 (h.lost site hsite)⟩
    · exact fun h => ⟨mt (hrewritten _).1 h.kept, fun site hsite => (hrewritten _).2 (h.lost site hsite)⟩
  have hiff := horphaned.trans
    (orphaned_iff_of_renameEdits hparse hedits hs hne hall hu hkind hname howner)
  refine ⟨es, hrenames, hiff, fun hold h => ?_⟩
  have hchain : old.isPrefixOf (attributeChain source.toList old.length u.site).1 = true := by
    rw [hold, attributeChain_one, QualifiedName.isPrefixOf_iff_head? hold, ← (mem_uses hu).2, hname]
    rfl
  rw [(hiff.1 h).1] at hchain
  cases hchain

def orphanText : String :=
  "import a.b\na.b.run()\na.c.run()\n"

def childName : QualifiedName := ⟨["a", "b"], by decide, by decide⟩

def movedName : QualifiedName := ⟨["x", "y"], by decide, by decide⟩

theorem ordered_orphanText : Edit.ordered [⟨⟨7, 10⟩, "x.y"⟩, ⟨⟨11, 14⟩, "x.y"⟩] =
    [⟨⟨11, 14⟩, "x.y"⟩, ⟨⟨7, 10⟩, "x.y"⟩] :=
  Edit.ordered_eq_reverse (by decide)

theorem renameModule_orphanText : renameModule orphanText childName movedName =
    .ok (some ⟨"import x.y\nx.y.run()\na.c.run()\n", 2⟩) := by
  refine renameModule_eq_of_edits [⟨⟨7, 10⟩, "x.y"⟩, ⟨⟨11, 14⟩, "x.y"⟩]
    "import x.y\nx.y.run()\na.c.run()\n".toList (by decide) (by decide +kernel) (by simp) ?_
  rw [Edit.splice, ordered_orphanText, String.toList_ofList]
  rfl

theorem orphaned_iff_orphanText : ∃ root es u, parse? orphanText = some root ∧
    renameModule orphanText childName movedName =
      .ok (some ⟨"import x.y\nx.y.run()\na.c.run()\n", 2⟩) ∧
    Renames orphanText es (some ⟨"import x.y\nx.y.run()\na.c.run()\n", 2⟩) ∧
    u ∈ (build root orphanText.toList).uses ∧ u.kind = .load ∧ u.name = "a" ∧
    Orphaned root orphanText.toList es moduleScope u := by
  have hfacts : ((parse? orphanText).any fun root =>
      ((build root orphanText.toList).scopes[0]?.any fun s =>
        (s.bindingsOf "a").length == 1 && (s.bindingsOf "a").all fun b =>
          b.isImport && b.importsModule childName) &&
      (build root orphanText.toList).uses.any fun u => u.kind == .load && u.name == "a" &&
        (build root orphanText.toList).resolve u.scope u.name == 0 &&
        !childName.isPrefixOf (attributeChain orphanText.toList childName.length u.site).1) =
      true := by
    decide +kernel
  obtain ⟨root, hparse, hfacts⟩ := Option.any_eq_true _ _ |>.1 hfacts
  obtain ⟨hscope, huse⟩ := Bool.and_eq_true_iff.1 hfacts
  obtain ⟨s, hs, hbindings⟩ := Option.any_eq_true _ _ |>.1 hscope
  obtain ⟨u, hu, huse⟩ := List.any_eq_true.1 huse
  simp only [Bool.and_eq_true, List.all_eq_true, beq_iff_eq, Bool.not_eq_true'] at hbindings huse
  obtain ⟨hlength, hall⟩ := hbindings
  obtain ⟨⟨⟨hkind, hname⟩, howner⟩, hchain⟩ := huse
  obtain ⟨es, hrenames, horphaned, -⟩ := orphaned_iff hparse renameModule_orphanText hs
    (fun hnil => by rw [show s.bindingsOf "a" = [] from hnil] at hlength; cases hlength)
    (fun b hb => (hall b hb).1) hu hkind hname howner
  exact ⟨root, es, u, hparse, renameModule_orphanText, hrenames, hu, hkind, hname,
    horphaned.2 ⟨hchain, fun b hb => (hall b hb).2⟩⟩

end ScopeTable

end Reroot.Python

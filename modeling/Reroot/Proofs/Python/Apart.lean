import Reroot.Proofs.Python.Chains
import Reroot.Proofs.Python.Listing

namespace Reroot.Python

namespace Edit

def Apart (e f : Edit) : Prop :=
  e.span.stop ≤ f.span.start ∨ f.span.stop ≤ e.span.start

theorem Apart.symm {e f : Edit} (h : e.Apart f) : f.Apart e :=
  Or.symm h

structure Separate (es : List Edit) : Prop where
  nonempty : ∀ e ∈ es, e.span.start < e.span.stop
  apart : es.Pairwise Apart

section Distinct

variable {es : List Edit} (hne : ∀ e ∈ es, e.span.start < e.span.stop)
  (hapart : ∀ e ∈ es, ∀ f ∈ es, e ≠ f → e.Apart f)

include hne hapart

theorem eq_of_start_eq : ∀ e ∈ es, ∀ f ∈ es, e.span.start = f.span.start → e = f := by
  intro e he f hf hstart
  by_contra hef
  have := hne e he
  have := hne f hf
  obtain h | h := hapart e he f hf hef <;> omega

theorem pairwise_ordered : (ordered es).Pairwise fun e f => f.span.stop ≤ e.span.start := by
  refine (ordered_falling (eq_of_start_eq hne hapart)).imp_of_mem fun {e f} he hf hlt => ?_
  have := hne e (mem_ordered.1 he)
  obtain h | h := hapart e (mem_ordered.1 he) f (mem_ordered.1 hf) (by rintro rfl; omega)
  · omega
  · exact h

theorem splice_eq_ok (text : List Char) : Edit.splice es text =
    .ok ((ordered es).foldl (fun text e => e.apply text) text, es.dedup.length) := by
  rw [← (perm_ordered (eq_of_start_eq hne hapart)).length_eq]
  unfold Edit.splice
  dsimp only
  rw [overlap?_eq_none (pairwise_ordered hne hapart)]

end Distinct

theorem Separate.splice {es : List Edit} (h : Separate es) (text : List Char) :
    ∃ text', Edit.splice es text = .ok (text', es.length) := by
  have : Std.Symm Apart := ⟨fun _ _ => Apart.symm⟩
  have hnodup : es.Nodup := by
    refine h.apart.imp_of_mem fun {e f} he _ hef => ?_
    rintro rfl
    exact absurd (h.nonempty e he) (not_lt.2 (or_self_iff.1 hef))
  have hsplice := splice_eq_ok h.nonempty (fun e he f hf => h.apart.forall he hf) text
  rw [hnodup.dedup] at hsplice
  exact ⟨_, hsplice⟩

end Edit

section Places

variable {root : Node} {source : List Char} {old new : QualifiedName}

theorem Spells.within {base top : Site} {segments : List String} {stop : Nat}
    (hp : root.Placed source) (hs : root.All (Node.Shaped importEnclosure source))
    (hbase : base.InTree root) (h : Spells source base top segments stop) :
    base.stop ≤ stop ∧ stop ≤ top.stop := by
  induction h with
  | name => exact ⟨Nat.le_refl _, Nat.le_refl _⟩
  | @field s p segments stop a h hparent hk hobject ha ih =>
    obtain ⟨hin, hholds, -, -⟩ := h.placed hp hs hbase
    obtain ⟨i, heq, hchild, hpin⟩ := hin.eq_child_of_parent? hparent
    have hmem := Node.mem_children_of_part? ha
    have harole : a.role = some .attribute := by simpa using List.find?_some ha
    have hlast := ((hs p.node hpin.within).field hk a hmem harole).2 s.node
      (List.mem_of_getElem? hchild) (by simp [Site.role_of_isPart hin hobject])
    exact ⟨(hbase.around hp hin hholds).2.trans hlast, ((hpin.placed hp).self.inside a hmem).2⟩

theorem Licensed.inside {e : Edit} (hp : root.Placed source)
    (hs : root.All (Node.Shaped importEnclosure source)) (h : Licensed root source old new e) :
    root.start ≤ e.span.start ∧ e.span.start < e.span.stop ∧ e.span.stop ≤ root.stop := by
  have node {n : Node} (hn : n.Within root) (hlt : n.start < n.stop) :
      root.start ≤ n.start ∧ n.start < n.stop ∧ n.stop ≤ root.stop :=
    ⟨(hp.within_span hn).1, hlt, (hp.within_span hn).2⟩
  cases h with
  | @moduleName n target hn ht hold =>
    have hwithin := ht.within.trans hn
    exact node hwithin (Node.start_lt_stop_of_segments (fun c hc => hp c (hc.trans hwithin))
      (fun c hc => hs c (hc.trans hwithin)) fun hnil =>
        old.nonempty (List.prefix_nil.1 (hnil ▸ hold)))
  | @wholeImport n origin item text hn hkind ho hold hitem hlast =>
    obtain ⟨c, hc, hlt⟩ := exists_within_of_importedAs
      (QualifiedName.ne_empty_of_mem (List.getLast_mem old.nonempty)) hlast
    have hin := (show n.Placed source from fun c hc => hp c (hc.trans hn)).within_span
      (hc.trans (.child (Node.mem_children_of_mem_parts hitem) .self))
    exact node hn (by omega)
  | @load u top stop hu hsite hkind hname hbound hspells =>
    obtain ⟨htop, -, -, -⟩ := hspells.placed hp hs hsite.inTree
    obtain ⟨hstop, htopstop⟩ := hspells.within hp hs hsite.inTree
    have hlt := (hs u.site.node hsite.inTree.within).start_lt_stop hsite.kind
    exact ⟨(hp.within_span hsite.inTree.within).1, Nat.lt_of_lt_of_le hlt hstop,
      htopstop.trans (hp.within_span htop.within).2⟩
  | @target u hu hsite =>
    exact node hsite.inTree.within ((hs u.site.node hsite.inTree.within).start_lt_stop hsite.kind)

theorem span_of_useEdit_eq_some {t : ScopeTable} {u : Use} {e : Edit}
    (h : useEdit t source old new u = .ok (some e)) : e.span.start = u.site.start ∧
      (e.span.stop = u.site.stop ∨
        u.kind = .load ∧ ∃ top, Spells source u.site top old.segments e.span.stop) := by
  cases outcome_of_useEdit h with
  | load hkind _ hchain => exact ⟨rfl, .inr ⟨hkind, exists_spells hchain⟩⟩
  | target => exact ⟨rfl, .inl rfl⟩

theorem isImport_of_mem_importEdits {n : Node} {e : Edit} (h : e ∈ importEdits old new source n) :
    n.kind.isImport = true := by
  unfold importEdits at h
  split at h
  · next hk => rw [hk]; rfl
  · next hk => rw [hk]; rfl
  · cases h

theorem pairwise_importEdits {n : Node} (hp : n.Placed source)
    (hs : n.All (Node.Shaped listEnclosure source)) :
    (importEdits old new source n).Pairwise Edit.Apart := by
  unfold importEdits
  split
  · next hk =>
    rw [← filterMap_importItems hs hk]
    have htargets := pairwise_moduleTargets hp
    rw [Node.moduleTargets, hk] at htargets
    refine List.pairwise_filterMap.2 (htargets.imp fun {a b} hle e he f hf => .inl ?_)
    rw [(dottedEdit?_eq_some he).2, (dottedEdit?_eq_some hf).2]
    exact hle
  · split
    · exact .nil
    · split
      · exact List.pairwise_singleton _ _
      · split
        · split
          · cases splitEdit? old new source _ n <;> simp
          · exact .nil
        · exact .nil
  · exact .nil

end Places

mutual

theorem Node.pairwise_preorder {source : List Char} : ∀ {n : Node}, n.Placed source →
    n.preorder.Pairwise fun a b => (∃ c ∈ a.children, b.Within c) ∨ a.stop ≤ b.start
  | .mk r k s cs, hp => by
    unfold Node.preorder
    refine List.pairwise_cons.2 ⟨fun b hb => .inl (within_of_mem_preorderAll hb), ?_⟩
    exact pairwise_preorderAll (fun c hc => hp.child hc) hp.self.ordered

theorem pairwise_preorderAll {source : List Char} : ∀ {cs : List Node},
    (∀ c ∈ cs, c.Placed source) → cs.Pairwise (fun a b => a.stop ≤ b.start) →
      (Node.preorderAll cs).Pairwise fun a b => (∃ c ∈ a.children, b.Within c) ∨ a.stop ≤ b.start
  | [], _, _ => by
    unfold Node.preorderAll
    exact .nil
  | c :: cs, hp, ho => by
    obtain ⟨hc, hcs⟩ := List.forall_mem_cons.1 hp
    obtain ⟨hafter, ho⟩ := List.pairwise_cons.1 ho
    have hrest := pairwise_preorderAll hcs ho
    unfold Node.preorderAll
    split
    · refine List.pairwise_append.2 ⟨Node.pairwise_preorder hc, hrest, fun a ha b hb => .inr ?_⟩
      obtain ⟨d, hd, hb⟩ := within_of_mem_preorderAll hb
      have ha := (hc.within_span (Node.within_of_mem_preorder ha)).2
      have hb := ((hcs d hd).within_span hb).1
      exact ha.trans ((hafter d hd).trans hb)
    · exact hrest

end

section Tree

variable {source : String} {root : Node} {old new : QualifiedName} {n : Node} {u v : Use}
  {e f : Edit} {t : ScopeTable}

theorem Node.All.of_within {P : Node → Prop} (h : root.All P) (hn : n.Within root) : n.All P :=
  fun m hm => h m (hm.trans hn)

theorem inside_of_mem_importEdits (hparse : parse? source = some root) (hn : n ∈ root.preorder)
    (he : e ∈ importEdits old new source.toList n) :
    n.start ≤ e.span.start ∧ e.span.start < e.span.stop ∧ e.span.stop ≤ n.stop := by
  have hwithin := Node.within_of_mem_preorder hn
  exact (licensed_of_mem_importEdits .self he).inside (Node.All.of_within (parse?_placed hparse) hwithin)
    ((parse?_shaped importEnclosure_lawful hparse).of_within hwithin)

theorem pairwise_flatMap_importEdits (hparse : parse? source = some root) :
    (root.preorder.flatMap (importEdits old new source.toList)).Pairwise Edit.Apart := by
  have hp := parse?_placed hparse
  refine List.pairwise_flatMap.2 ⟨fun n hn => ?_, ?_⟩
  · have hwithin := Node.within_of_mem_preorder hn
    exact pairwise_importEdits (Node.All.of_within hp hwithin)
      ((parse?_shaped listEnclosure_lawful hparse).of_within hwithin)
  · refine (Node.pairwise_preorder hp).imp_of_mem fun {a b} ha hb hab e he f hf => .inl ?_
    have hin := inside_of_mem_importEdits hparse ha he
    have hin' := inside_of_mem_importEdits hparse hb hf
    obtain ⟨c, hc, hbc⟩ | hle := hab
    · have hshape := (parse?_shaped importEnclosure_lawful hparse).of_within
        (Node.within_of_mem_preorder ha)
      have hpart : c.kind.isImportPart = true := hshape.self.inner
        (by simp [importEnclosure, isImport_of_mem_importEdits he]) c hc
      have hbk := isImport_of_mem_importEdits hf
      have hbpart : b.kind.isImportPart = true := by
        obtain rfl | hbpart := (hshape.child hc).isImportPart (by simp [importEnclosure, hpart]) hbc
        · exact hpart
        · exact hbpart
      obtain hk | hk := Kind.isImport_iff.1 hbk <;> rw [hk] at hbpart <;> cases hbpart
    · omega

theorem Spells.isStatement_eq_false {base top : Site} {segments : List String} {stop : Nat}
    (hbase : base.kind = .identifier) (h : Spells source.toList base top segments stop) :
    top.kind.isStatement = false := by
  cases h with
  | name => rw [hbase]; rfl
  | field _ _ hk => rw [hk]; rfl

theorem apart_of_import_of_use (hparse : parse? source = some root)
    (hu : u ∈ (ScopeTable.build root source.toList).uses)
    (hedit : useEdit t source.toList old new u = .ok (some e)) (hn : n.Within root)
    (himport : n.kind.isImport = true) : e.span.stop ≤ n.start ∨ n.stop ≤ e.span.start := by
  have hp := parse?_placed hparse
  have hused := (isUsed_of_mem_uses (parse?_kind hparse)
    (parse?_shaped classEnclosure_lawful hparse) u hu).1
  obtain ⟨hstart, hstop⟩ := span_of_useEdit_eq_some hedit
  by_contra hnot
  rw [not_or, not_le, not_le, hstart] at hnot
  have hbefore := apart_of_use hparse hu hn himport hnot.2
  obtain hstop | ⟨-, top, hspells⟩ := hstop
  · omega
  have hshape := parse?_shaped importEnclosure_lawful hparse
  obtain ⟨htop, hholds, -, -⟩ := hspells.placed hp hshape hused.inTree
  have hwithin := hspells.within hp hshape hused.inTree
  have haround := hused.inTree.around hp htop hholds
  have hlt : u.site.start < u.site.stop :=
    (hshape u.site.node hused.inTree.within).start_lt_stop hused.kind
  obtain ⟨q, hq, rfl⟩ := exists_site_of_within hn
  have hleft : q.start < top.stop := Nat.lt_of_lt_of_le hnot.1 hwithin.2
  have hright : top.start < q.stop := Nat.lt_of_le_of_lt haround.1 hnot.2
  obtain hq' | hq' := htop.comparable hp hq hright hleft
  · have hinner : q.node.Within top.node := by
      obtain rfl | hmem := (htop.holds_iff hq).1 hq'
      · exact .self
      · exact Site.within_of_mem_ancestors hq top hmem
    have hfalse := Node.All.isStatement_eq_false
      ((parse?_shaped expressionEnclosure_lawful hparse).of_within htop.within)
      (hspells.isStatement_eq_false hused.kind) hinner
    obtain hk | hk := Kind.isImport_iff.1 himport <;> rw [hk] at hfalse <;> cases hfalse
  · have hin := hused.inTree.around hp hq (hq'.trans hholds)
    have hbefore : u.site.stop ≤ q.start := hbefore
    omega

theorem stop_le_start_of_useEdit (hparse : parse? source = some root)
    (hu : u ∈ (ScopeTable.build root source.toList).uses)
    (hv : v ∈ (ScopeTable.build root source.toList).uses) (hle : u.site.stop ≤ v.site.start)
    (he : useEdit t source.toList old new u = .ok (some e)) : e.span.stop ≤ v.site.start := by
  have hp := parse?_placed hparse
  have hshape := parse?_shaped importEnclosure_lawful hparse
  have used {w : Use} (hw : w ∈ (ScopeTable.build root source.toList).uses) :=
    (isUsed_of_mem_uses (parse?_kind hparse) (parse?_shaped classEnclosure_lawful hparse) w hw).1
  have positive {w : Use} (hw : w ∈ (ScopeTable.build root source.toList).uses) :
      w.site.start < w.site.stop :=
    (hshape w.site.node (used hw).inTree.within).start_lt_stop (used hw).kind
  have hupos := positive hu
  have hvpos := positive hv
  obtain ⟨-, hstop⟩ := span_of_useEdit_eq_some he
  obtain hstop | ⟨hkind, top, hspells⟩ := hstop
  · rwa [hstop]
  by_contra hlt
  obtain ⟨htop, hholds, -, -⟩ := hspells.placed hp hshape (used hu).inTree
  have hwithin := hspells.within hp hshape (used hu).inTree
  have haround := (used hu).inTree.around hp htop hholds
  have hsame : u.site = v.site := by
    obtain h | h := htop.comparable hp (used hv).inTree (by omega) (by omega)
    · exact hspells.eq_of_holds hparse hu hkind hv h
    · exact ((used hv).inTree.eq_of_holds_word hparse (used hu).inTree (used hv).kind
        (h.trans hholds)).symm
  rw [hsame] at hle
  omega

theorem pairwise_useEdits (hparse : parse? source = some root) {us : List Use} {es : List Edit}
    (hus : us.Sublist (ScopeTable.build root source.toList).uses)
    (h : useEdits t source.toList old new us = .ok es) : es.Pairwise Edit.Apart := by
  have hordered := (pairwise_uses (parse?_placed hparse)).sublist hus
  induction us generalizing es with
  | nil =>
    cases h
    exact .nil
  | cons u us ih =>
    obtain ⟨x, hx, h⟩ := exists_of_bind_eq_ok h
    obtain ⟨fs, hfs, h⟩ := exists_of_bind_eq_ok h
    cases h
    obtain ⟨hafter, hordered⟩ := List.pairwise_cons.1 hordered
    refine List.pairwise_append.2 ⟨?_, ih ((List.sublist_cons_self u us).trans hus) hfs hordered,
      fun e he f hf => .inl ?_⟩
    · cases x <;> simp
    · obtain ⟨v, hv, hedit⟩ := exists_use_of_mem_useEdits hfs f hf
      rw [Option.mem_toList.1 he] at hx
      rw [(span_of_useEdit_eq_some hedit).1]
      exact stop_le_start_of_useEdit hparse (hus.subset (by simp)) (hus.subset (by simp [hv]))
        (hafter v hv) hx

theorem separate_edits (hparse : parse? source = some root) {us : List Use} {es : List Edit}
    (hus : us.Sublist (ScopeTable.build root source.toList).uses)
    (h : useEdits (ScopeTable.build root source.toList) source.toList old new us = .ok es) :
    Edit.Separate (root.preorder.flatMap (importEdits old new source.toList) ++ es) := by
  have hp := parse?_placed hparse
  have hshape := parse?_shaped importEnclosure_lawful hparse
  constructor
  · refine List.forall_mem_append.2 ⟨fun e he => ?_, fun e he => ?_⟩
    · obtain ⟨n, hn, he⟩ := List.mem_flatMap.1 he
      exact (inside_of_mem_importEdits hparse hn he).2.1
    · obtain ⟨u, hu, hedit⟩ := exists_use_of_mem_useEdits h e he
      have hused := (isUsed_of_mem_uses (parse?_kind hparse)
        (parse?_shaped classEnclosure_lawful hparse) u (hus.subset hu)).1
      exact ((licensed_of_useEdit (hus.subset hu) hused hedit).inside hp hshape).2.1
  · refine List.pairwise_append.2 ⟨pairwise_flatMap_importEdits hparse, pairwise_useEdits hparse hus h,
      fun e he f hf => ?_⟩
    obtain ⟨n, hn, he⟩ := List.mem_flatMap.1 he
    obtain ⟨u, hu, hedit⟩ := exists_use_of_mem_useEdits h f hf
    have hin := inside_of_mem_importEdits hparse hn he
    obtain hle | hle := apart_of_import_of_use hparse (hus.subset hu) hedit
      (Node.within_of_mem_preorder hn) (isImport_of_mem_importEdits he)
    · exact .inr (by omega)
    · exact .inl (by omega)

end Tree

section Renamings

variable {old new : QualifiedName} {t : ScopeTable} {chars : List Char} {u : Use}

def Coherent {α : Type} (x : Except RenameError α) : Prop :=
  ∀ a b, x ≠ .error (.overlapping a b)

theorem coherent_ok {α : Type} (a : α) : Coherent (.ok a) :=
  nofun

theorem Coherent.bind {α β : Type} {x : Except RenameError α} {f : α → Except RenameError β}
    (hx : Coherent x) (hf : ∀ a, Coherent (f a)) : Coherent (x >>= f) := by
  cases x with
  | ok a => exact hf a
  | error e =>
    rintro a b h
    cases h
    exact hx a b rfl

theorem coherent_checkImportScopes (scopes : List Scope) (index : Nat) :
    Coherent (checkImportScopes old new scopes index) := by
  induction scopes generalizing index with
  | nil => exact coherent_ok ()
  | cons scope scopes ih =>
    unfold checkImportScopes
    split
    · split
      · exact nofun
      · exact ih _
    · exact ih _

theorem coherent_refersToImport (owner : Nat) : Coherent (refersToImport t chars old owner u) := by
  unfold refersToImport
  split
  · exact nofun
  dsimp only
  split
  · exact nofun
  split
  · exact nofun
  split
  · exact nofun
  split
  · exact nofun
  split <;> exact nofun

theorem coherent_checkNewRoot : Coherent (checkNewRoot t chars new u) := by
  unfold checkNewRoot
  split
  · exact nofun
  split <;> exact nofun

theorem coherent_useEdit : Coherent (useEdit t chars old new u) := by
  unfold useEdit
  split
  · exact nofun
  dsimp only
  split
  · split
    · exact nofun
    refine (coherent_refersToImport _).bind fun refers => ?_
    split
    · exact nofun
    exact coherent_checkNewRoot.bind fun _ => nofun
  all_goals
    split
    · exact nofun
    refine (coherent_refersToImport _).bind fun refers => ?_
    split
    · exact nofun
    split
    · exact nofun
    exact coherent_checkNewRoot.bind fun _ => nofun

theorem coherent_useEdits (us : List Use) : Coherent (useEdits t chars old new us) := by
  induction us with
  | nil => exact coherent_ok []
  | cons u us ih => exact coherent_useEdit.bind fun _ => ih.bind fun _ => nofun

theorem coherent_renameEdits (root : Node) : Coherent (renameEdits root chars old new) :=
  (coherent_checkImportScopes _ 0).bind fun _ => (coherent_useEdits _).bind fun _ => nofun

end Renamings

section Renaming

variable {source : String} {root : Node} {old new : QualifiedName}

theorem separate_of_renameEdits (hparse : parse? source = some root) {es : List Edit}
    (h : renameEdits root source.toList old new = .ok es) : Edit.Separate es := by
  obtain ⟨-, uses, huses, rfl⟩ := exists_useEdits h
  exact separate_edits hparse (List.Sublist.refl _) huses

theorem renameTree_of_renameEdits (hparse : parse? source = some root) {es : List Edit}
    (h : renameEdits root source.toList old new = .ok es) :
    ∃ text, Edit.splice es source.toList = .ok (text, es.length) ∧
      renameTree root source.toList old new =
        .ok (if es.isEmpty then none else some ⟨String.ofList text, es.length⟩) := by
  obtain ⟨text, hsplice⟩ := (separate_of_renameEdits hparse h).splice source.toList
  refine ⟨text, hsplice, ?_⟩
  rw [renameTree, h]
  simp only [bind, Except.bind, hsplice]
  split <;> rfl

theorem renameModule_makes_all_edits (hparse : parse? source = some root) :
    (∀ us es, us <+: (ScopeTable.build root source.toList).uses →
      useEdits (ScopeTable.build root source.toList) source.toList old new us = .ok es →
        Edit.Separate (root.preorder.flatMap (importEdits old new source.toList) ++ es)) ∧
      (∀ es, renameEdits root source.toList old new = .ok es → Edit.Separate es ∧
        ∃ text, Edit.splice es source.toList = .ok (text, es.length)) ∧
      (∀ a b, renameModule source old new ≠ .error (.overlapping a b)) ∧
      ∀ r, renameModule source old new = .ok (some r) →
        ∃ es, renameEdits root source.toList old new = .ok es ∧ r.replacements = es.length := by
  have tree (x : Except RenameError (Option Renamed)) (hx : renameModule source old new = x) :
      x = .ok none ∨ x = renameTree root source.toList old new := by
    cases hoccurs : Text.occursIn old.first.toList source.toList with
    | false => exact .inl (hx.symm.trans (renameModule_eq_none hoccurs))
    | true => exact .inr (hx.symm.trans (renameModule_eq_renameTree hparse hoccurs))
  refine ⟨fun us es hus h => separate_edits hparse hus.sublist h, fun es h => ?_, fun a b h => ?_,
    fun r h => ?_⟩
  · exact ⟨separate_of_renameEdits hparse h, (separate_of_renameEdits hparse h).splice _⟩
  · obtain hnone | htree := tree _ h
    · cases hnone
    cases hedits : renameEdits root source.toList old new with
    | error e =>
      rw [renameTree, hedits] at htree
      cases htree
      exact coherent_renameEdits root a b hedits
    | ok es =>
      obtain ⟨text, -, hrename⟩ := renameTree_of_renameEdits hparse hedits
      rw [hrename] at htree
      cases htree
  · obtain hnone | htree := tree _ h
    · cases hnone
    obtain ⟨es, hedits, -⟩ := exists_of_bind_eq_ok htree.symm
    obtain ⟨text, -, hrename⟩ := renameTree_of_renameEdits hparse hedits
    rw [hrename, Except.ok.injEq] at htree
    refine ⟨es, hedits, ?_⟩
    split at htree
    · cases htree
    · cases htree
      rfl

end Renaming

theorem renameModule_makes_all_edits_nested : ∃ root,
    parse? "import b.a\nb.a.x(b.a.y)\n" = some root ∧
      renameEdits root "import b.a\nb.a.x(b.a.y)\n".toList longName ScopeTable.otherName =
        .ok [⟨⟨7, 10⟩, "b"⟩, ⟨⟨11, 14⟩, "b"⟩, ⟨⟨17, 20⟩, "b"⟩] ∧
      Edit.Separate [⟨⟨7, 10⟩, "b"⟩, ⟨⟨11, 14⟩, "b"⟩, ⟨⟨17, 20⟩, "b"⟩] := by
  have hfacts : ((parse? "import b.a\nb.a.x(b.a.y)\n").any fun root =>
      decide (renameEdits root "import b.a\nb.a.x(b.a.y)\n".toList longName ScopeTable.otherName =
        .ok [⟨⟨7, 10⟩, "b"⟩, ⟨⟨11, 14⟩, "b"⟩, ⟨⟨17, 20⟩, "b"⟩])) = true := by
    decide +kernel
  obtain ⟨root, hparse, hedits⟩ := Option.any_eq_true _ _ |>.1 hfacts
  have hedits := of_decide_eq_true hedits
  exact ⟨root, hparse, hedits, ((renameModule_makes_all_edits hparse).2.1 _ hedits).1⟩

end Reroot.Python

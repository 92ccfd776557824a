import Reroot.Proofs.Python.Declared
import Reroot.Proofs.Python.Imports
import Mathlib.Data.List.Pairwise

namespace Reroot.Python

def Node.dottedText (n : Node) (source : List Char) : String :=
  dotted (n.segments source)

def Edit.touches (e : Edit) (n : Node) : Bool :=
  e.span.start < n.stop && n.start < e.span.stop

theorem Edit.touches_iff {e : Edit} {n : Node} :
    e.touches n = true ↔ e.span.start < n.stop ∧ n.start < e.span.stop := by
  rw [touches, Bool.and_eq_true, decide_eq_true_eq, decide_eq_true_eq]

section Names

variable {source : List Char} {old new : QualifiedName} {n : Node}

theorem QualifiedName.text_eq_first (hold : old.length = 1) : old.text = old.first := by
  rw [QualifiedName.text, QualifiedName.segments_eq_singleton hold, dotted,
    String.intercalate_singleton]

theorem carry_dotted (new : QualifiedName) (hold : old.length = 1) (rest : List String) :
    carry (some (old.text, new.text)) (dotted (old.first :: rest)) = dotted (new.segments ++ rest) := by
  rw [QualifiedName.text_eq_first hold]
  cases rest with
  | nil => rw [dotted, String.intercalate_singleton, carry_self, List.append_nil,
      QualifiedName.text]
  | cons s rest =>
    rw [← List.singleton_append, dotted_append (by simp) (by simp), dotted_append new.nonempty (by simp),
      dotted, String.intercalate_singleton, carry_cons, QualifiedName.text]

theorem dottedEdit?_eq {ρ : Type} {E : Enclosure ρ} (hold : old.length = 1)
    (hs : n.All (Node.Shaped E source)) : dottedEdit? old new source n =
      if rootOf (n.dottedText source) = old.text then
        some ⟨n.span, carry (some (old.text, new.text)) (n.dottedText source)⟩
      else none := by
  have hfirst : old.first ≠ "" := QualifiedName.ne_empty_of_mem (List.head_mem old.nonempty)
  have hdot : '.' ∉ old.first.toList := old.not_mem_segment _ (List.head_mem old.nonempty)
  rw [dottedEdit?, QualifiedName.text_eq_first hold]
  by_cases hroot : rootOf (n.dottedText source) = old.first
  · obtain ⟨rest, hsegments⟩ := segments_of_rootOf hs hfirst hroot
    have hcarry := carry_dotted new hold rest
    rw [QualifiedName.text_eq_first hold] at hcarry
    rw [if_pos ((QualifiedName.isPrefixOf_iff_head? hold).2 (by rw [hsegments]; rfl)), if_pos hroot,
      Node.dottedText, hsegments, hcarry, QualifiedName.replace, hold]
    rfl
  · refine (if_neg fun hbegins => hroot ?_).trans (if_neg hroot).symm
    obtain ⟨rest, hsegments⟩ := List.head?_eq_some_iff.1 ((QualifiedName.isPrefixOf_iff_head? hold).1 hbegins)
    rw [Node.dottedText, hsegments, rootOf_dotted_cons, rootOf_of_not_mem hdot]

end Names

section Places

variable {source : List Char} {old new : QualifiedName} {n target : Node} {e : Edit}

theorem inside_of_listed (hp : n.Placed source) {item listed : Node} (hitem : item ∈ n.parts .name)
    (hlisted : (match item.kind with
      | .aliasedImport => item.part? .name
      | _ => some item) = some listed) : item.start ≤ listed.start ∧ listed.stop ≤ item.stop := by
  split at hlisted
  · exact (hp.child (Node.mem_children_of_mem_parts hitem)).self.inside listed
      (Node.mem_children_of_part? hlisted)
  · cases hlisted
    exact ⟨Nat.le_refl _, Nat.le_refl _⟩

theorem pairwise_moduleTargets (hp : n.Placed source) :
    n.moduleTargets.Pairwise fun a b => a.stop ≤ b.start := by
  unfold Node.moduleTargets
  split
  · have hordered : (n.parts .name).Pairwise fun a b => a.stop ≤ b.start := hp.self.ordered.filter _
    refine List.pairwise_filterMap.2 (hordered.imp_of_mem fun {a b} ha hb hle a' ha' b' hb' => ?_)
    have ha := inside_of_listed hp ha ha'
    have hb := inside_of_listed hp hb hb'
    omega
  · cases n.fromTarget? <;> simp
  · exact .nil

theorem eq_of_pairwise {l : List Node} {a b : Node} (h : l.Pairwise fun a b => a.stop ≤ b.start)
    (ha : a ∈ l) (hb : b ∈ l) (hab : a.start < b.stop) (hba : b.start < a.stop) : a = b := by
  have hapart : l.Pairwise fun a b => a.stop ≤ b.start ∨ b.stop ≤ a.start := h.imp .inl
  have hsymm : Std.Symm fun a b : Node => a.stop ≤ b.start ∨ b.stop ≤ a.start := ⟨fun _ _ => Or.symm⟩
  by_contra hne
  have := hapart.forall ha hb hne
  omega

theorem importEdits_eq (hs : n.All (Node.Shaped listEnclosure source)) (hold : old.length = 1) :
    importEdits old new source n = n.moduleTargets.filterMap (dottedEdit? old new source) := by
  have hparent : old.parent? = none := by
    rw [QualifiedName.parent?, if_pos (by omega)]
  unfold importEdits Node.moduleTargets
  cases hk : n.kind with
  | importStatement => exact (filterMap_importItems hs hk).symm
  | importFromStatement =>
    cases n.fromTarget? with
    | none => rfl
    | some target =>
      simp only [hparent]
      cases hedit : dottedEdit? old new source target <;> simp [hedit]
  | _ => rfl

theorem span_of_useEdit {t : ScopeTable} {u : Use} (hold : old.length = 1)
    (h : useEdit t source old new u = .ok (some e)) : e.span = u.site.node.span := by
  cases outcome_of_useEdit h with
  | load =>
    rw [hold, attributeChain_one]
    rfl
  | target => rfl

end Places

section Statements

variable {source : String} {root n m target : Node} {old new : QualifiedName} {e : Edit}

theorem apart_of_use (hparse : parse? source = some root) {u : Use}
    (hu : u ∈ (ScopeTable.build root source.toList).uses) (hn : n.Within root)
    (himport : n.kind.isImport = true) (htouches : u.site.start < n.stop) : u.site.stop ≤ n.start := by
  by_contra hlt
  obtain ⟨q, hq, rfl⟩ := exists_site_of_within hn
  obtain ⟨hlog, -⟩ := ScopeTable.mem_uses hu
  obtain ⟨hsite, -⟩ := isUsed_of_mem_uses (parse?_kind hparse) (parse?_shaped classEnclosure_lawful hparse) u hu
  have hplace := hsite.inTree.comparable (parse?_placed hparse) hq htouches (not_le.1 hlt)
  obtain ⟨v, size, -, he⟩ := exists_visited_of_isImport (parse?_kind hparse)
    (parse?_shaped expressionEnclosure_lawful hparse) (parse?_shaped blockEnclosure_lawful hparse)
    hlog rfl hq himport (List.suffix_rfl : q.Holds q) hplace
  obtain ⟨_, _, _, _, _, heq, -⟩ := exists_item_of_mem_respond himport he rfl
  cases heq

theorem eq_of_isImport (hparse : parse? source = some root) (hn : n.Within root) (hm : m.Within root)
    (hnk : n.kind.isImport = true) (hmk : m.kind.isImport = true) (hnm : n.start < m.stop)
    (hmn : m.start < n.stop) : n = m := by
  have hshape := parse?_shaped importEnclosure_lawful hparse
  have inner {a b : Node} (ha : a.Within root) (hb : b.Within a) (hak : a.kind.isImport = true)
      (hbk : b.kind.isImport = true) : b = a := by
    have hall : a.All (Node.Shaped importEnclosure source.toList) := fun c hc => hshape c (hc.trans ha)
    refine (hall.isImportPart (by simp [importEnclosure, hak]) hb).resolve_right fun hpart => ?_
    obtain hk | hk := Kind.isImport_iff.1 hbk <;> rw [hk] at hpart <;> cases hpart
  obtain ⟨q, hq, rfl⟩ := exists_site_of_within hn
  obtain ⟨p, hp, rfl⟩ := exists_site_of_within hm
  obtain h | h := hq.comparable (parse?_placed hparse) hp hnm hmn
  · obtain rfl | h := (hq.holds_iff hp).1 h
    · rfl
    · exact (inner hn (Site.within_of_mem_ancestors hp _ h) hnk hmk).symm
  · obtain rfl | h := (hp.holds_iff hq).1 h
    · rfl
    · exact inner hm (Site.within_of_mem_ancestors hq _ h) hmk hnk

theorem eq_dottedEdit?_of_touches (hparse : parse? source = some root) (hold : old.length = 1)
    {es : List Edit} (hes : renameEdits root source.toList old new = .ok es) (he : e ∈ es)
    (hn : n ∈ root.preorder) (himport : n.kind.isImport = true)
    (htouches : e.span.start < n.stop ∧ n.start < e.span.stop) :
    ∃ target ∈ n.moduleTargets, dottedEdit? old new source.toList target = some e := by
  obtain ⟨-, uses, huses, rfl⟩ := exists_useEdits hes
  have hwithin := Node.within_of_mem_preorder hn
  obtain he | he := List.mem_append.1 he
  · obtain ⟨m, hm, he⟩ := List.mem_flatMap.1 he
    have hmwithin := Node.within_of_mem_preorder hm
    rw [importEdits_eq (fun c hc => parse?_shaped listEnclosure_lawful hparse c (hc.trans hmwithin)) hold] at he
    obtain ⟨target, htarget, hedit⟩ := List.mem_filterMap.1 he
    have hmk : m.kind.isImport = true := by
      obtain ⟨hk, -⟩ | ⟨hk, -⟩ := mem_moduleTargets htarget <;> rw [hk] <;> rfl
    have hspan : e.span = target.span := by rw [(dottedEdit?_eq_some hedit).2]
    have hinside := (show m.Placed source.toList from fun c hc =>
      parse?_placed hparse c (hc.trans hmwithin)).within_span (within_of_mem_moduleTargets htarget)
    have hstart : e.span.start = target.start := congrArg Span.start hspan
    have hstop : e.span.stop = target.stop := congrArg Span.stop hspan
    obtain rfl := eq_of_isImport hparse hwithin hmwithin himport hmk (by omega) (by omega)
    exact ⟨target, htarget, hedit⟩
  · obtain ⟨u, hu, hedit⟩ := exists_use_of_mem_useEdits huses e he
    have hspan := span_of_useEdit hold hedit
    have hstart : e.span.start = u.site.start := congrArg Span.start hspan
    have hstop : e.span.stop = u.site.stop := congrArg Span.stop hspan
    have := apart_of_use hparse hu hwithin himport (by omega)
    omega

end Statements

def Renames (source : String) (es : List Edit) : Option Renamed → Prop
  | none => es = []
  | some r => es ≠ [] ∧ es.length = r.replacements ∧ Spliced 0 es source.toList r.content.toList

theorem Renames.disjoint {source : String} {es : List Edit} {r : Option Renamed} (h : Renames source es r) :
    es.Pairwise fun e f => e.span.stop ≤ f.span.start := by
  cases r with
  | none =>
    obtain rfl : es = [] := h
    exact .nil
  | some r => exact h.2.2.disjoint

theorem filter_eq_toList {es : List Edit} {p : Edit → Bool} {x : Option Edit}
    (hdisjoint : es.Pairwise fun e f => e.span.stop ≤ f.span.start)
    (hlt : ∀ e ∈ x, e.span.start < e.span.stop) (h : ∀ e, e ∈ x ↔ e ∈ es ∧ p e = true) :
    es.filter p = x.toList := by
  have hfilter := hdisjoint.filter p
  have hmem (e : Edit) : e ∈ es.filter p ↔ e ∈ x := List.mem_filter.trans (h e).symm
  generalize es.filter p = l at hfilter hmem
  match l, hfilter with
  | [], _ =>
    cases x with
    | none => rfl
    | some e => exact absurd ((hmem e).2 rfl) List.not_mem_nil
  | [e], _ =>
    obtain rfl := (hmem e).1 (by simp)
    rfl
  | e :: f :: l, hfilter =>
    -- Both are the one edit that counts, which would have to end before it starts.
    have he := (hmem e).1 (by simp)
    have hf := (hmem f).1 (by simp)
    rw [he, Option.mem_some_iff] at hf
    have hle := (List.pairwise_cons.1 hfilter).1 f (by simp)
    have := hlt e he
    rw [hf] at hle this
    omega

section Renaming

variable {source : String} {root : Node} {old new : QualifiedName} {r : Option Renamed}

theorem exists_renames (hparse : parse? source = some root)
    (hoccurs : Text.occursIn old.first.toList source.toList = true)
    (h : renameModule source old new = .ok r) :
    ∃ edits es, renameEdits root source.toList old new = .ok edits ∧ (∀ e, e ∈ es ↔ e ∈ edits) ∧
      Renames source es r := by
  rw [renameModule_eq_renameTree hparse hoccurs] at h
  obtain ⟨edits, hedits, ⟨rfl, rfl⟩ | ⟨hne, text, n, hsplice, rfl⟩⟩ := exists_renameEdits h
  · exact ⟨[], [], hedits, fun e => .rfl, rfl⟩
  have hlicensed := licensed_of_mem_renameEdits (parse?_kind hparse)
    (parse?_shaped classEnclosure_lawful hparse) hedits
  obtain ⟨hn, hspliced⟩ := Edit.splice_spliced (fun e he => (hlicensed e he).fits
    (parse?_placed hparse) (parse?_shaped importEnclosure_lawful hparse)) hsplice
  have hmem (e : Edit) : e ∈ (Edit.ordered edits).reverse ↔ e ∈ edits :=
    List.mem_reverse.trans Edit.mem_ordered
  refine ⟨edits, _, hedits, hmem, fun hnil => hne ?_, by simp [hn], ?_⟩
  · rw [hnil] at hmem
    exact List.eq_nil_iff_forall_not_mem.2 fun e he => by simpa using (hmem e).2 he
  · rwa [String.toList_ofList]

theorem filter_touches {edits es : List Edit} (hparse : parse? source = some root)
    (hold : old.length = 1) (hedits : renameEdits root source.toList old new = .ok edits)
    (hmem : ∀ e, e ∈ es ↔ e ∈ edits) (hes : Renames source es r) {n target : Node}
    (hn : n ∈ root.preorder) (htarget : target ∈ n.moduleTargets) :
    es.filter (·.touches target) = (dottedEdit? old new source.toList target).toList := by
  have hwithin := Node.within_of_mem_preorder hn
  have hplaced : n.Placed source.toList := fun c hc => parse?_placed hparse c (hc.trans hwithin)
  have hshaped : n.All (Node.Shaped listEnclosure source.toList) := fun c hc =>
    parse?_shaped listEnclosure_lawful hparse c (hc.trans hwithin)
  have himport : n.kind.isImport = true := by
    obtain ⟨hk, -⟩ | ⟨hk, -⟩ := mem_moduleTargets htarget <;> rw [hk] <;> rfl
  have hspan {target : Node} {e : Edit} (htarget : target ∈ n.moduleTargets)
      (he : dottedEdit? old new source.toList target = some e) :
      e.span = target.span ∧ target.start < target.stop := by
    obtain ⟨hbegins, rfl⟩ := dottedEdit?_eq_some he
    have hwithin := within_of_mem_moduleTargets htarget
    refine ⟨rfl, Node.start_lt_stop_of_segments (fun c hc => hplaced c (hc.trans hwithin))
      (fun c hc => hshaped c (hc.trans hwithin)) fun hnil => old.nonempty ?_⟩
    rwa [hnil, List.prefix_nil] at hbegins
  refine filter_eq_toList hes.disjoint (fun e he => ?_) fun e => ⟨fun he => ⟨?_, ?_⟩, fun ⟨he, htouches⟩ => ?_⟩
  · obtain ⟨heq, hlt⟩ := hspan htarget he
    rwa [heq]
  · obtain ⟨-, uses, -, rfl⟩ := exists_useEdits hedits
    refine (hmem e).2 (List.mem_append_left _ (List.mem_flatMap.2 ⟨n, hn, ?_⟩))
    rw [importEdits_eq hshaped hold]
    exact List.mem_filterMap.2 ⟨target, htarget, he⟩
  · obtain ⟨heq, hlt⟩ := hspan htarget he
    rw [Edit.touches_iff, heq]
    exact ⟨hlt, hlt⟩
  · rw [Edit.touches_iff] at htouches
    have hinside := hplaced.within_span (within_of_mem_moduleTargets htarget)
    obtain ⟨target', htarget', hedit⟩ := eq_dottedEdit?_of_touches hparse hold hedits ((hmem e).1 he) hn
      himport ⟨by omega, by omega⟩
    obtain ⟨heq, -⟩ := hspan htarget' hedit
    have hstart : e.span.start = target'.start := congrArg Span.start heq
    have hstop : e.span.stop = target'.stop := congrArg Span.stop heq
    obtain rfl := eq_of_pairwise (pairwise_moduleTargets hplaced) htarget htarget' (by omega) (by omega)
    exact hedit

theorem imports_carried (hparse : parse? source = some root) (hold : old.length = 1)
    (h : renameModule source old new = .ok r) :
    ∃ es, Renames source es r ∧
      (∀ target ∈ root.preorder.flatMap Node.moduleTargets, es.filter (·.touches target) =
        if rootOf (target.dottedText source.toList) = old.text then
          [⟨target.span, carry (some (old.text, new.text)) (target.dottedText source.toList)⟩]
        else []) ∧
      ((root.preorder.flatMap Node.moduleTargets).map fun target =>
        ((es.find? (·.touches target)).map (·.text)).getD (target.dottedText source.toList)) =
          (root.importedNames source.toList).map (carry (some (old.text, new.text))) ∧
      (∀ n ∈ root.preorder, n.kind.isImport = true → ∀ e ∈ es, e.touches n = true →
        ∃ target ∈ n.moduleTargets, e.span = target.span) ∧
      (r = none → ∀ name ∈ root.importedNames source.toList, rootOf name ≠ old.text) := by
  have hspared (hr : r = none) : ∀ name ∈ root.importedNames source.toList, rootOf name ≠ old.text := by
    subst hr
    rw [QualifiedName.text_eq_first hold]
    exact rootOf_ne_of_renameModule_none (QualifiedName.segments_eq_singleton hold) h
      (by rw [importedNames?, hparse]; rfl)
  have hedit {target : Node} (htarget : target ∈ root.preorder.flatMap Node.moduleTargets) :
      (dottedEdit? old new source.toList target).toList =
        if rootOf (target.dottedText source.toList) = old.text then
          [⟨target.span, carry (some (old.text, new.text)) (target.dottedText source.toList)⟩]
        else [] := by
    obtain ⟨n, hn, htarget⟩ := List.mem_flatMap.1 htarget
    rw [dottedEdit?_eq hold fun c hc => parse?_shaped listEnclosure_lawful hparse c
      (hc.trans ((within_of_mem_moduleTargets htarget).trans (Node.within_of_mem_preorder hn)))]
    split <;> rfl
  obtain ⟨es, hes, hfilter, hinside⟩ : ∃ es, Renames source es r ∧
      (∀ target ∈ root.preorder.flatMap Node.moduleTargets, es.filter (·.touches target) =
        (dottedEdit? old new source.toList target).toList) ∧
      ∀ n ∈ root.preorder, n.kind.isImport = true → ∀ e ∈ es, e.touches n = true →
        ∃ target ∈ n.moduleTargets, e.span = target.span := by
    by_cases hoccurs : Text.occursIn old.first.toList source.toList = true
    · obtain ⟨edits, es, hedits, hmem, hes⟩ := exists_renames hparse hoccurs h
      refine ⟨es, hes, fun target htarget => ?_, fun n hn himport e he htouches => ?_⟩
      · obtain ⟨n, hn, htarget⟩ := List.mem_flatMap.1 htarget
        exact filter_touches hparse hold hedits hmem hes hn htarget
      · obtain ⟨target, htarget, hedit⟩ := eq_dottedEdit?_of_touches hparse hold hedits ((hmem e).1 he)
          hn himport (Edit.touches_iff.1 htouches)
        exact ⟨target, htarget, by rw [(dottedEdit?_eq_some hedit).2]⟩
    · obtain rfl : r = none := by
        rw [renameModule_eq_none (by simpa using hoccurs)] at h
        exact (Except.ok.inj h).symm
      refine ⟨[], rfl, fun target htarget => ?_, by simp⟩
      have hroot : rootOf (target.dottedText source.toList) ≠ old.text :=
        hspared rfl _ (List.mem_map_of_mem htarget)
      rw [hedit htarget, if_neg hroot]
      rfl
  refine ⟨es, hes, fun target htarget => (hfilter target htarget).trans (hedit htarget), ?_, hinside, hspared⟩
  rw [Node.importedNames, List.map_map]
  refine List.map_congr_left fun target htarget => ?_
  rw [← List.head?_filter, hfilter target htarget, hedit htarget]
  split
  · rfl
  · next hroot =>
    rw [QualifiedName.text_eq_first hold] at hroot ⊢
    exact (carry_of_rootOf_ne (old.not_mem_segment _ (List.head_mem old.nonempty)) hroot).symm

end Renaming

def nestedText : String :=
  "if x:\n    import b, a.c as d\n"

theorem imports_carried_nested : ∃ root es, parse? nestedText = some root ∧
    Renames nestedText es (some ⟨"if x:\n    import b, b.a.c as d\n", 1⟩) ∧
    ((root.preorder.flatMap Node.moduleTargets).map fun target =>
      ((es.find? (·.touches target)).map (·.text)).getD (target.dottedText nestedText.toList)) =
        (root.importedNames nestedText.toList).map (carry (some ("a", "b.a"))) := by
  have hrename : renameModule nestedText shortName longName =
      .ok (some ⟨"if x:\n    import b, b.a.c as d\n", 1⟩) := by
    refine renameModule_eq_of_edits [⟨⟨20, 23⟩, "b.a.c"⟩] "if x:\n    import b, b.a.c as d\n".toList
      (by decide) (by decide +kernel) (by simp) ?_
    rw [Edit.splice, Edit.ordered, List.mergeSort_singleton]
    rfl
  obtain ⟨root, -, hparse, -⟩ := renameModule_exact hrename
  obtain ⟨es, hes, -, hcarried, -⟩ := imports_carried hparse rfl hrename
  exact ⟨root, es, hparse, hes, hcarried⟩

end Reroot.Python

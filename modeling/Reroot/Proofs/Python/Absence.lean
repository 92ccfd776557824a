import Reroot.Proofs.Python.Imports
import Reroot.Proofs.Python.Landing

namespace Reroot.Python

open ScopeTable

section Names

variable {source : List Char} {old : QualifiedName} {n : Node} {ρ : Type} {E : Enclosure ρ}

theorem QualifiedName.first_mem (q : QualifiedName) : q.first ∈ q.segments :=
  List.head_mem q.nonempty

theorem occursIn_of_prefix_segments (hs : n.All (Node.Shaped E source))
    (h : old.segments <+: n.segments source) :
    Text.occursIn old.first.toList source = true :=
  occursIn_of_mem_segments hs (h.subset (QualifiedName.first_mem old))

theorem QualifiedName.segments_of_parent? {parent : String} (h : old.parent? = some parent) :
    ∃ rest, segmentsOf parent = old.first :: rest := by
  unfold QualifiedName.parent? at h
  split at h
  · cases h
  · next hlength =>
    cases h
    rw [QualifiedName.length] at hlength
    have hne : old.segments.dropLast ≠ [] := fun hnil => hlength (by
      have := congrArg List.length hnil
      rw [List.length_dropLast, List.length_nil] at this
      omega)
    rw [segmentsOf_dotted hne fun w hw => old.not_mem_segment w ((List.dropLast_sublist _).subset hw)]
    exact ⟨_, (List.cons_head_tail hne).symm.trans (by rw [List.head_dropLast]; rfl)⟩

theorem occursIn_of_parent? (hs : n.All (Node.Shaped E source))
    (h : old.parent? = some (dotted (n.segments source))) :
    Text.occursIn old.first.toList source = true := by
  obtain ⟨rest, hparent⟩ := QualifiedName.segments_of_parent? h
  cases hsegments : n.segments source with
  | nil =>
    -- The empty text has one segment, which is empty, and no name begins with it.
    rw [hsegments] at hparent
    have hempty : segmentsOf (dotted []) = [""] := by decide
    rw [hempty] at hparent
    exact absurd (List.cons.inj hparent).1.symm
      (QualifiedName.ne_empty_of_mem (QualifiedName.first_mem old))
  | cons w ws =>
    rw [segmentsOf_dotted (by simp [hsegments]) (dot_not_mem_segments hs), hsegments] at hparent
    refine occursIn_of_mem_segments hs ?_
    rw [← (List.cons.inj hparent).1, hsegments]
    exact List.mem_cons_self

end Names

section Tree

variable {source : String} {root : Node} {old new : QualifiedName} {e : Edit} {i : Nat} {s : Scope}

theorem occursIn_of_licensed (hparse : parse? source = some root)
    (h : Licensed root source.toList old new e) :
    Text.occursIn old.first.toList source.toList = true := by
  have shaped {n : Node} (hn : n.Within root) : n.All (Node.Shaped classEnclosure source.toList) :=
    fun c hc => parse?_shaped classEnclosure_lawful hparse c (hc.trans hn)
  cases h with
  | moduleName hn ht hold => exact occursIn_of_prefix_segments (shaped (ht.within.trans hn)) hold
  | wholeImport hn _ ho hold _ _ => exact occursIn_of_parent? (shaped (ho.within.trans hn)) hold
  | load hu _ _ hname | target hu _ _ hname => exact hname ▸ occursIn_of_mem_uses hu

theorem occursIn_of_importsModule (hparse : parse? source = some root)
    (hs : (build root source.toList).scopes[i]? = some s)
    (h : (s.bindingsOf old.first).any (Binding.importsModule old) = true) :
    Text.occursIn old.first.toList source.toList = true := by
  obtain ⟨⟨name, imported, site⟩, he, path, himported, hold⟩ := (any_importsModule_iff hs).1 h
  obtain rfl : imported = some path := himported
  obtain ⟨p, v, size, hp, hmem⟩ := exists_visited_of_mem_log (mem_entriesIn.1 he)
  obtain ⟨-, j, n, hn, -, -, -, rfl⟩ := exists_of_mem_respond hmem
  have hwithin : n.Within root := (hp.inTree.child hn).within
  have hshaped : n.All (Node.Shaped classEnclosure source.toList) :=
    fun c hc => parse?_shaped classEnclosure_lawful hparse c (hc.trans hwithin)
  exact occursIn_of_prefix_segments hshaped (List.isPrefixOf_iff_prefix.1 hold)

end Tree

section Stages

variable {t : ScopeTable} {source : List Char} {old new : QualifiedName}

theorem checkImportScopes_eq_ok {scopes : List Scope} {index : Nat}
    (h : ∀ s ∈ scopes, (s.bindingsOf old.first).any (Binding.importsModule old) = false) :
    checkImportScopes old new scopes index = .ok () := by
  induction scopes generalizing index with
  | nil => rfl
  | cons s scopes ih =>
    obtain ⟨hs, hscopes⟩ := List.forall_mem_cons.1 h
    rw [checkImportScopes, hs, if_neg Bool.false_ne_true]
    exact ih hscopes

theorem useEdits_eq_nil {us : List Use} (h : ∀ u ∈ us, u.name ≠ old.first) :
    useEdits t source old new us = .ok [] := by
  induction us with
  | nil => rfl
  | cons u us ih =>
    obtain ⟨hu, hus⟩ := List.forall_mem_cons.1 h
    rw [useEdits, useEdit, if_pos hu, ih hus]
    rfl

end Stages

def renameWhole (source : String) (old new : QualifiedName) :
    Except RenameError (Option Renamed) :=
  match parse? source with
  | none => .error .unreadable
  | some root => renameTree root source.toList old new

section Absent

variable {source : String} {root : Node} {old : QualifiedName}

theorem stages_of_absent (new : QualifiedName) (hparse : parse? source = some root)
    (h : Text.occursIn old.first.toList source.toList = false) :
    root.preorder.flatMap (importEdits old new source.toList) = [] ∧
      checkImportScopes old new (build root source.toList).scopes 0 = .ok () ∧
      useEdits (build root source.toList) source.toList old new (build root source.toList).uses =
        .ok [] := by
  have absurd_of {p : Prop} (hoccurs : Text.occursIn old.first.toList source.toList = true) : p := by
    rw [h] at hoccurs
    cases hoccurs
  refine ⟨List.flatMap_eq_nil_iff.2 fun n hn => ?_, checkImportScopes_eq_ok fun s hs => ?_,
    useEdits_eq_nil fun u hu hname => absurd_of (hname ▸ occursIn_of_mem_uses hu)⟩
  · refine List.eq_nil_iff_forall_not_mem.2 fun e he => absurd_of ?_
    exact occursIn_of_licensed hparse
      (licensed_of_mem_importEdits (Node.within_of_mem_preorder hn) he)
  · obtain ⟨i, hi⟩ := List.mem_iff_getElem?.1 hs
    exact Bool.eq_false_iff.2 fun himports =>
      absurd_of (occursIn_of_importsModule hparse hi himports)

theorem renameTree_of_absent (new : QualifiedName) (hparse : parse? source = some root)
    (h : Text.occursIn old.first.toList source.toList = false) :
    renameTree root source.toList old new = .ok none := by
  obtain ⟨himports, hscopes, huses⟩ := stages_of_absent new hparse h
  rw [renameTree, renameEdits, hscopes]
  simp only [Bind.bind, Except.bind, huses, himports]
  rfl

theorem renameModule_of_occursIn (new : QualifiedName)
    (h : Text.occursIn old.first.toList source.toList = true) :
    renameModule source old new = renameWhole source old new := by
  unfold renameModule
  exact if_neg (by simp [h])

end Absent

theorem renameModule_skips_only_unreadable (source : String) (old new : QualifiedName) :
    (Text.occursIn old.first.toList source.toList = false → ∀ root, parse? source = some root →
      root.preorder.flatMap (importEdits old new source.toList) = [] ∧
        checkImportScopes old new (build root source.toList).scopes 0 = .ok () ∧
        useEdits (build root source.toList) source.toList old new (build root source.toList).uses =
          .ok [] ∧
        renameTree root source.toList old new = .ok none ∧
        renameModule source old new = .ok none) ∧
      (renameModule source old new ≠ renameWhole source old new ↔
        Text.occursIn old.first.toList source.toList = false ∧ parse? source = none) := by
  refine ⟨fun h root hparse => ?_, fun hne => ?_, fun ⟨h, hparse⟩ => ?_⟩
  · obtain ⟨himports, hscopes, huses⟩ := stages_of_absent new hparse h
    exact ⟨himports, hscopes, huses, renameTree_of_absent new hparse h, renameModule_eq_none h⟩
  · have h : Text.occursIn old.first.toList source.toList = false :=
      Bool.eq_false_iff.2 fun hoccurs => hne (renameModule_of_occursIn new hoccurs)
    refine ⟨h, Option.eq_none_iff_forall_ne_some.2 fun root hparse => hne ?_⟩
    rw [renameModule_eq_none h, renameWhole, hparse]
    exact (renameTree_of_absent new hparse h).symm
  · rw [renameModule_eq_none h, renameWhole, hparse]
    exact nofun

theorem renameModule_skips_only_unreadable_longName :
    Text.occursIn longName.first.toList "import a\na.x\n".toList = false ∧
      renameWhole "import a\na.x\n" longName otherName = .ok none ∧
      renameModule "import a\na.x\n" longName otherName = .ok none := by
  have habsent : Text.occursIn longName.first.toList "import a\na.x\n".toList = false := by decide
  obtain ⟨root, hparse⟩ : ∃ root, parse? "import a\na.x\n" = some root :=
    Option.isSome_iff_exists.1 (by decide +kernel)
  obtain ⟨-, -, -, htree, hrename⟩ :=
    (renameModule_skips_only_unreadable "import a\na.x\n" longName otherName).1 habsent root hparse
  refine ⟨habsent, ?_, hrename⟩
  rw [renameWhole, hparse]
  exact htree

end Reroot.Python

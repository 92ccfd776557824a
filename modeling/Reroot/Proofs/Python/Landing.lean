import Reroot.Proofs.Python.Declared

namespace Reroot.Python

variable {old new : QualifiedName} {t : ScopeTable} {source : List Char} {u : Use} {s : Scope}

theorem clash?_eq_none_iff {name : String} :
    clash? s name = none ↔ ∀ b ∈ s.bindingsOf name, b.isImport = true := by
  simp [clash?]

theorem clash?_of_checkImportScopes {scopes : List Scope} {index : Nat}
    (h : checkImportScopes old new scopes index = .ok ()) (hs : s ∈ scopes)
    (himports : (s.bindingsOf old.first).any (Binding.importsModule old) = true) :
    clash? s new.first = none := by
  induction scopes generalizing index with
  | nil => cases hs
  | cons scope scopes ih =>
    unfold checkImportScopes at h
    obtain rfl | hs := List.mem_cons.1 hs
    · rw [if_pos himports] at h
      split at h
      · cases h
      · next hclash => exact hclash
    · split at h
      · split at h
        · cases h
        · exact ih h hs
      · exact ih h hs

theorem clash?_of_checkNewRoot (h : checkNewRoot t source new u = .ok ())
    (hs : t.scopes[t.resolve u.scope new.first]? = some s) : clash? s new.first = none := by
  unfold checkNewRoot at h
  rw [hs] at h
  dsimp only at h
  split at h
  · cases h
  · next hclash => exact hclash

theorem all_isImport_of_refersToImport {owner : Nat} (hkind : u.kind ≠ .load)
    (h : refersToImport t source old owner u = .ok true) : ∃ o, t.scopes[owner]? = some o ∧
      (o.bindingsOf old.first).any (Binding.importsModule old) = true ∧
      ∀ b ∈ o.bindingsOf old.first, b.isImport = true := by
  unfold refersToImport at h
  split at h
  · cases h
  · next o ho =>
    dsimp only at h
    split at h
    · cases h
    · next hany =>
      rw [Bool.not_eq_true, Bool.not_eq_false'] at hany
      split at h
      · next hall => exact ⟨o, ho, hany, List.all_eq_true.1 hall⟩
      · split at h <;> cases h

namespace Use

theorem exists_useEdit_of_isEdited (h : u.isEdited t source old new = true) :
    ∃ e, useEdit t source old new u = .ok (some e) := by
  unfold isEdited at h
  split at h
  · next e he => exact ⟨e, he⟩
  · cases h

theorem isEdited_of_useEdit {e : Edit} (h : useEdit t source old new u = .ok (some e)) :
    u.isEdited t source old new = true := by
  rw [isEdited, h]

structure Passes (t : ScopeTable) (source : List Char) (old new : QualifiedName) (u : Use) :
    Prop where
  name : u.name = old.first
  refers : refersToImport t source old (t.resolve u.scope u.name) u = .ok true
  newRoot : checkNewRoot t source new u = .ok ()
  bare : u.kind ≠ .load → old.length = 1

theorem passes_of_isEdited (h : u.isEdited t source old new = true) :
    u.Passes t source old new := by
  obtain ⟨e, h⟩ := exists_useEdit_of_isEdited h
  cases outcome_of_useEdit h with
  | load hkind hname _ hrefers hroot => exact ⟨hname, hrefers, hroot, fun hne => absurd hkind hne⟩
  | target _ hname hold hrefers hroot => exact ⟨hname, hrefers, hroot, fun _ => hold⟩

end Use

namespace ScopeTable

theorem owner_eq_or (ht : t.Ordered) (name : String) (b : Bool) (i : Nat) :
    t.owner name b i = moduleScope ∨ ∃ c s, t.scopes[t.owner name b i]? = some s ∧
      s.verdict c name = .own := by
  induction i using Nat.strong_induction_on generalizing b with
  | _ i ih =>
    cases hs : t.scopes[i]? with
    | none => simp [owner, resolveLoop, hs]
    | some s =>
      rw [owner_eq ht hs]
      cases hv : s.verdict b name with
      | module => exact .inl rfl
      | own => exact .inr ⟨b, s, hs, hv⟩
      | outward =>
        obtain ⟨p, hp, hlt⟩ := ht.exists_parent hs (show s.verdict b name ≠ .module by simp [hv])
        simp only [hp, Option.elim]
        exact ih p hlt false

theorem owner_of_reaches {name : String} {b c : Bool} {i j : Nat} (ht : t.Ordered)
    (h : t.Reaches name b i c j) : t.owner name b i = t.owner name c j := by
  induction h with
  | here => rfl
  | outward hs hv hp _ ih =>
    rw [owner_eq ht hs, hv, hp]
    exact ih

section Renaming

variable {root : Node} {edits : List Edit} {i : Nat}

theorem kind_eq_or_mem_globals {name : String} (h : (build root source).scopes[i]? = some s)
    (hbinds : s.binds name = true) (hnonlocal : name ∉ s.nonlocals)
    (hne : (build root source).resolve i name ≠ i) : s.kind = .module ∨ name ∈ s.globals := by
  have howner : (build root source).resolve i name = _ := owner_eq (ordered_build root source) h
  refine or_iff_not_imp_right.2 fun hglobal => ?_
  cases hk : s.kind with
  | module => rfl
  | function | comprehension | classBody =>
    refine absurd ?_ hne
    rw [howner, verdict_eq_own_iff.2 ⟨hglobal, by simp [CanOwn, hk, hnonlocal], hbinds⟩]

theorem resolve_of_globalDecl (hu : u ∈ (build root source).uses) (hkind : u.kind = .globalDecl) :
    (build root source).resolve u.scope u.name = moduleScope := by
  cases hs : (build root source).scopes[u.scope]? with
  | none => simp [resolve, resolveLoop, hs]
  | some s =>
    have howner : (build root source).resolve u.scope u.name = _ :=
      owner_eq (ordered_build root source) hs
    have hglobal : u.name ∈ s.globals := by
      rw [(scope_build hs).2]
      exact List.mem_filterMap.2 ⟨u, hu, if_pos ⟨rfl, hkind⟩⟩
    rw [howner, verdict_eq_module_iff.2 (.inr hglobal)]

theorem exists_import_of_redeclares (h : Redeclares root source old new i) :
    ∃ s, (build root source).scopes[moduleScope]? = some s ∧
      (s.bindingsOf old.first).any (Binding.importsModule old) = true := by
  obtain ⟨u, hu, rfl, hkind, hedited⟩ := h
  have hrefers := (Use.passes_of_isEdited hedited).refers
  rw [resolve_of_globalDecl hu hkind] at hrefers
  obtain ⟨s, hs, himports, -⟩ := all_isImport_of_refersToImport (by simp [hkind]) hrefers
  exact ⟨s, hs, himports⟩

theorem resolve_ne_of_store (hu : u ∈ (build root source).uses) (hkind : u.kind = .store)
    (hedited : u.isEdited (build root source) source old new = true) :
    (build root source).resolve u.scope u.name ≠ u.scope := by
  intro heq
  obtain ⟨hname, hrefers, -, -⟩ := Use.passes_of_isEdited hedited
  obtain ⟨o, ho, -, hall⟩ := all_isImport_of_refersToImport (by simp [hkind]) hrefers
  rw [heq] at ho
  have himport := hall _ ((mem_bindingsOf ho).2 ⟨_, mem_entriesIn_of_store hu hkind, hname, rfl⟩)
  cases himport

end Renaming

section Renaming

variable {source : String} {root : Node} {edits : List Edit} {i : Nat}

theorem redeclares_of_store (hedits : renameEdits root source.toList old new = .ok edits)
    (hu : u ∈ (build root source.toList).uses) (hkind : u.kind = .store)
    (hedited : u.isEdited (build root source.toList) source.toList old new = true)
    (hs : (build root source.toList).scopes[u.scope]? = some s) (hglobal : old.first ∈ s.globals) :
    Redeclares root source.toList old new u.scope := by
  obtain ⟨hname, hrefers, -, hbare⟩ := Use.passes_of_isEdited hedited
  obtain ⟨o, ho, himports, -⟩ := all_isImport_of_refersToImport (by simp [hkind]) hrefers
  have hne := resolve_ne_of_store hu hkind hedited
  rw [(scope_build hs).2] at hglobal
  obtain ⟨d, hd, hdeclares⟩ := List.mem_filterMap.1 hglobal
  rw [Use.declared?, Option.ite_none_right_eq_some, Option.some.injEq] at hdeclares
  obtain ⟨⟨hscope, hdecl⟩, hdname⟩ := hdeclares
  obtain ⟨-, es, huses, -⟩ := exists_useEdits hedits
  obtain ⟨x, hx, -⟩ := exists_of_useEdits huses d hd
  have hsame : (build root source.toList).resolve d.scope d.name =
      (build root source.toList).resolve u.scope u.name := by
    rw [hscope, hdname, hname]
  obtain ⟨e, rfl, -⟩ := exists_useEdit (hbare (by simp [hkind])) (mem_uses hd).2 hdname
    (by rw [hsame, hscope]; exact hne.symm) (hsame ▸ ho) himports hx
  exact ⟨d, hd, hscope, hdecl, Use.isEdited_of_useEdit hx⟩

theorem resolve_afterRename_ne_of_store (hedits : renameEdits root source.toList old new = .ok edits)
    (hnonlocal : ∀ s ∈ (build root source.toList).scopes, old.first ∉ s.nonlocals)
    (hu : u ∈ (build root source.toList).uses) (hkind : u.kind = .store)
    (hedited : u.isEdited (build root source.toList) source.toList old new = true) (i : Nat) :
    (afterRename root source.toList old new).resolve i new.first ≠ u.scope := by
  intro heq
  have hne := resolve_ne_of_store hu hkind hedited
  obtain hmodule | ⟨c, s', hs', hown⟩ :=
    owner_eq_or (ordered_afterRename root source.toList old new) new.first true i
  · have hzero : u.scope = moduleScope := heq.symm.trans hmodule
    have hle := owner_le (ordered_build root source.toList) u.name true u.scope
    rw [hzero] at hle hne
    exact hne (Nat.le_zero.1 hle)
  · rw [show (afterRename root source.toList old new).owner new.first true i = u.scope from heq,
      scopes_afterRename] at hs'
    obtain ⟨s, hs, rfl⟩ := Option.map_eq_some_iff.1 hs'
    have hname := (Use.passes_of_isEdited hedited).name
    have hbinds : s.binds u.name = true := by
      rw [Scope.binds, (scope_build hs).1, List.any_map, List.any_eq_true]
      exact ⟨_, mem_entriesIn_of_store hu hkind, beq_self_eq_true u.name⟩
    have hmodule : (renamedScope root source.toList old new u.scope s).verdict c new.first =
        .module := by
      obtain hk | hglobal := kind_eq_or_mem_globals hs hbinds
        (hname ▸ hnonlocal s (List.mem_of_getElem? hs)) hne
      · exact verdict_eq_module_iff.2 (.inl hk)
      · refine (verdict_renamedScope_eq_module_iff hs).2 (.inr ?_)
        exact redeclares_of_store hedits hu hkind hedited hs (hname ▸ hglobal)
    rw [hmodule] at hown
    cases hown

theorem clash?_of_resolve_afterRename (hedits : renameEdits root source.toList old new = .ok edits)
    (hroot : checkNewRoot (build root source.toList) source.toList new u = .ok ())
    (hs : (build root source.toList).scopes[(afterRename root source.toList old new).resolve
      u.scope new.first]? = some s) : clash? s new.first = none := by
  by_cases hsame : (afterRename root source.toList old new).resolve u.scope new.first =
      (build root source.toList).resolve u.scope new.first
  · rw [hsame] at hs
    exact clash?_of_checkNewRoot hroot hs
  obtain ⟨b, j, s', hreach, htakes⟩ := (resolve_afterRename_ne_iff root source.toList old new _).1 hsame
  have ht := ordered_afterRename root source.toList old new
  have hj : (afterRename root source.toList old new).scopes[j]? =
      some (renamedScope root source.toList old new j s') := by
    rw [scopes_afterRename, htakes.scope]
    rfl
  have howner : (afterRename root source.toList old new).resolve u.scope new.first = _ :=
    (owner_of_reaches ht hreach).trans (owner_eq ht hj)
  obtain ⟨hredeclares, -⟩ | ⟨hredeclares, hcan, hbinds, hrebinds⟩ := htakes.taken
  · rw [howner, (verdict_renamedScope_eq_module_iff htakes.scope).2 (.inr hredeclares)] at hs
    obtain ⟨m, hm, himports⟩ := exists_import_of_redeclares hredeclares
    obtain rfl := Option.some.inj (hm.symm.trans hs)
    obtain ⟨hcheck, -⟩ := exists_useEdits hedits
    exact clash?_of_checkImportScopes hcheck (List.mem_of_getElem? hm) himports
  · rw [howner, (verdict_renamedScope_eq_own_iff htakes.scope).2
      ⟨htakes.undeclared, hredeclares, hcan, .inr hrebinds⟩] at hs
    obtain rfl := Option.some.inj (htakes.scope.symm.trans hs)
    refine clash?_eq_none_iff.2 fun b hb => ?_
    obtain ⟨p, hp, hname⟩ := List.mem_filterMap.1 hb
    rw [Scope.binds, List.any_eq_false] at hbinds
    rw [if_neg (hbinds p hp)] at hname
    cases hname

theorem exists_scope_afterRename (root : Node) (source : List Char) (old new : QualifiedName)
    (i : Nat) : ∃ s, (build root source).scopes[
      (afterRename root source old new).resolve i new.first]? = some s := by
  obtain hmodule | ⟨-, s', hs', -⟩ :=
    owner_eq_or (ordered_afterRename root source old new) new.first true i
  · rw [show (afterRename root source old new).resolve i new.first = _ from hmodule, scopes_build]
    exact ⟨_, rfl⟩
  · rw [scopes_afterRename] at hs'
    obtain ⟨s, hs, -⟩ := Option.map_eq_some_iff.1 hs'
    exact ⟨s, hs⟩

theorem mem_bindingsOf_renamedScope {b : Binding} (hs : (build root source.toList).scopes[i]? = some s)
    (hb : b ∈ (renamedScope root source.toList old new i s).bindingsOf new.first) :
    b ∈ s.bindingsOf new.first ∨ b.isImport = true ∨ ∃ u ∈ (build root source.toList).uses,
      u.scope = i ∧ u.kind = .store ∧
        u.isEdited (build root source.toList) source.toList old new = true := by
  simp only [renamedScope, Scope.bindingsOf, List.mem_filterMap, List.mem_map] at hb
  obtain ⟨_, ⟨e, he, rfl⟩, hb⟩ := hb
  rw [Option.ite_none_right_eq_some, Option.some.injEq] at hb
  obtain ⟨hname, rfl⟩ := hb
  cases hedited : e.isEdited (build root source.toList) source.toList old new i with
  | false =>
    rw [Entry.renamed, hedited] at hname ⊢
    exact .inl ((mem_bindingsOf hs).2 ⟨e, he, beq_iff_eq.1 hname, rfl⟩)
  | true =>
    rw [Entry.renamed, hedited]
    unfold Entry.isEdited at hedited
    split at hedited
    · next path hpath =>
      refine .inr (.inl ?_)
      simp [Entry.kept, Binding.isImport, Site.binding, hpath]
    · rw [Bool.and_eq_true, List.contains_iff_mem] at hedited
      exact .inr (.inr ⟨_, hedited.1, rfl, rfl, hedited.2⟩)

theorem renameEdits_of_renameModule {r : Option Renamed} (hparse : parse? source = some root)
    (h : renameModule source old new = .ok r)
    (hoccurs : Text.occursIn old.first.toList source.toList = true) :
    ∃ edits, renameEdits root source.toList old new = .ok edits := by
  rw [renameModule_eq_renameTree hparse hoccurs] at h
  obtain ⟨edits, hedits, -⟩ := exists_renameEdits h
  exact ⟨edits, hedits⟩

theorem occursIn_of_mem_uses (hu : u ∈ (build root source.toList).uses) :
    Text.occursIn u.name.toList source.toList = true := by
  rw [(mem_uses hu).2, Node.text, String.toList_ofList]
  exact Text.occursIn_of_isInfix (Text.between_isInfix _ _ _)

theorem isImport_of_resolve_afterRename {r : Option Renamed} (hparse : parse? source = some root)
    (h : renameModule source old new = .ok r)
    (hnonlocal : ∀ s ∈ (build root source.toList).scopes, old.first ∉ s.nonlocals)
    (hu : u ∈ (build root source.toList).uses)
    (hedited : u.isEdited (build root source.toList) source.toList old new = true) :
    ∃ s, (afterRename root source.toList old new).scopes[
        (afterRename root source.toList old new).resolve u.scope new.first]? = some s ∧
      ∀ b ∈ s.bindingsOf new.first, b.isImport = true := by
  obtain ⟨hname, -, hroot, -⟩ := Use.passes_of_isEdited hedited
  obtain ⟨edits, hedits⟩ := renameEdits_of_renameModule hparse h (hname ▸ occursIn_of_mem_uses hu)
  obtain ⟨s, hs⟩ := exists_scope_afterRename root source.toList old new u.scope
  refine ⟨renamedScope root source.toList old new _ s, by rw [scopes_afterRename, hs]; rfl, ?_⟩
  intro b hb
  obtain hb | himport | ⟨w, hw, hscope, hkind, hwedited⟩ := mem_bindingsOf_renamedScope hs hb
  · exact clash?_eq_none_iff.1 (clash?_of_resolve_afterRename hedits hroot hs) b hb
  · exact himport
  · exact absurd hscope.symm
      (resolve_afterRename_ne_of_store hedits hnonlocal hw hkind hwedited u.scope)

end Renaming

def globalText : String :=
  "import a\ndef f():\n import b\n def g():\n  global a\n  a = a.x\n"

theorem ordered_globalText :
    Edit.ordered [⟨⟨7, 8⟩, "b"⟩, ⟨⟨47, 48⟩, "b"⟩, ⟨⟨51, 52⟩, "b"⟩, ⟨⟨55, 56⟩, "b"⟩] =
      [⟨⟨55, 56⟩, "b"⟩, ⟨⟨51, 52⟩, "b"⟩, ⟨⟨47, 48⟩, "b"⟩, ⟨⟨7, 8⟩, "b"⟩] :=
  Edit.ordered_eq_reverse (by decide)

theorem isImport_of_resolve_afterRename_global : ∃ root r u s, parse? globalText = some root ∧
    renameModule globalText shortName otherName = .ok r ∧
    u ∈ (build root globalText.toList).uses ∧ u.kind = .load ∧
    u.isEdited (build root globalText.toList) globalText.toList shortName otherName = true ∧
    (build root globalText.toList).resolve u.scope "b" = 1 ∧
    (afterRename root globalText.toList shortName otherName).resolve u.scope "b" = moduleScope ∧
    (afterRename root globalText.toList shortName otherName).scopes[moduleScope]? = some s ∧
    ∀ b ∈ s.bindingsOf "b", b.isImport = true := by
  have hfacts : ((parse? globalText).any fun root =>
      ((build root globalText.toList).scopes.all fun s => !s.nonlocals.contains "a") &&
      (build root globalText.toList).uses.any fun u => u.kind == .load &&
        u.isEdited (build root globalText.toList) globalText.toList shortName otherName &&
        (build root globalText.toList).resolve u.scope "b" == 1 &&
        (afterRename root globalText.toList shortName otherName).resolve u.scope "b" == 0) = true := by
    decide +kernel
  obtain ⟨root, hparse, hfacts⟩ := Option.any_eq_true _ _ |>.1 hfacts
  simp only [Bool.and_eq_true, List.all_eq_true, List.any_eq_true, beq_iff_eq, Bool.not_eq_true',
    ← Bool.not_eq_true, List.contains_iff_mem] at hfacts
  obtain ⟨hnonlocal, u, hu, ⟨⟨hkind, hedited⟩, hbefore⟩, hafter⟩ := hfacts
  have hrename : renameModule globalText shortName otherName = .ok _ :=
    renameModule_eq_of_edits [⟨⟨7, 8⟩, "b"⟩, ⟨⟨47, 48⟩, "b"⟩, ⟨⟨51, 52⟩, "b"⟩, ⟨⟨55, 56⟩, "b"⟩] _
      (by decide) (by decide +kernel) (by simp) (by rw [Edit.splice, ordered_globalText]; rfl)
  obtain ⟨s, hs, himports⟩ :=
    isImport_of_resolve_afterRename hparse hrename hnonlocal hu hedited
  rw [show (afterRename root globalText.toList shortName otherName).resolve u.scope
    otherName.first = moduleScope from hafter] at hs
  exact ⟨root, _, u, s, hparse, hrename, hu, hkind, hedited, hbefore, hafter, hs, himports⟩

end ScopeTable

end Reroot.Python

import Reroot.Python.Rename
import Reroot.Proofs.Python.Scopes

namespace Reroot.Python

def Use.isEdited (t : ScopeTable) (source : List Char) (old new : QualifiedName) (u : Use) : Bool :=
  match useEdit t source old new u with
  | .ok (some _) => true
  | _ => false

def Use.renamed (t : ScopeTable) (source : List Char) (old new : QualifiedName) (u : Use) : Use :=
  if u.isEdited t source old new then { u with name := new.first } else u

def Entry.isEdited (t : ScopeTable) (source : List Char) (old new : QualifiedName) (scope : Nat)
    (e : Entry) : Bool :=
  match e.imported with
  | some path => old.isPrefixOf path
  | none =>
    t.uses.contains ⟨e.name, scope, .store, e.site⟩ &&
      Use.isEdited t source old new ⟨e.name, scope, .store, e.site⟩

def Entry.renamed (t : ScopeTable) (source : List Char) (old new : QualifiedName) (scope : Nat)
    (e : Entry) : Entry :=
  if e.isEdited t source old new scope then
    ⟨new.first, e.imported.map fun path => new.segments ++ path.drop old.length, e.site⟩
  else e

namespace ScopeTable

def afterRename (root : Node) (source : List Char) (old new : QualifiedName) : ScopeTable :=
  let t := build root source
  let uses := t.uses.map (Use.renamed t source old new)
  { scopes := t.scopes.mapIdx fun i s =>
      { s with
        bindings := (entriesIn root source i).map fun e =>
          (e.renamed t source old new i).kept source s.container.address
        globals := uses.filterMap (Use.declared? i) }
    uses := uses }

variable {root : Node} {source : List Char} {old new : QualifiedName} {i : Nat} {s : Scope}

def renamedScope (root : Node) (source : List Char) (old new : QualifiedName) (i : Nat) (s : Scope) :
    Scope :=
  { s with
    bindings := (entriesIn root source i).map fun e =>
      (e.renamed (build root source) source old new i).kept source s.container.address
    globals := (afterRename root source old new).uses.filterMap (Use.declared? i) }

theorem scopes_afterRename (root : Node) (source : List Char) (old new : QualifiedName) (i : Nat) :
    (afterRename root source old new).scopes[i]? =
      (build root source).scopes[i]?.map (renamedScope root source old new i) :=
  List.getElem?_mapIdx

theorem ordered_afterRename (root : Node) (source : List Char) (old new : QualifiedName) :
    (afterRename root source old new).Ordered := by
  have ht := ordered_build root source
  constructor
  · intro i s h
    rw [scopes_afterRename] at h
    obtain ⟨s₀, hs₀, rfl⟩ := Option.map_eq_some_iff.1 h
    exact ht.parent_lt i s₀ hs₀
  · intro i s h
    rw [scopes_afterRename] at h
    obtain ⟨s₀, hs₀, rfl⟩ := Option.map_eq_some_iff.1 h
    exact ht.module i s₀ hs₀

def Redeclares (root : Node) (source : List Char) (old new : QualifiedName) (i : Nat) : Prop :=
  ∃ u ∈ (build root source).uses, u.scope = i ∧ u.kind = .globalDecl ∧
    u.isEdited (build root source) source old new = true

def Rebinds (root : Node) (source : List Char) (old new : QualifiedName) (i : Nat) (s : Scope) :
    Prop :=
  (s.bindingsOf old.first).any (Binding.importsModule old) = true ∨
    ∃ u ∈ (build root source).uses, u.scope = i ∧ u.kind = .store ∧
      u.isEdited (build root source) source old new = true

theorem mem_globals_renamedScope (h : (build root source).scopes[i]? = some s) :
    new.first ∈ (renamedScope root source old new i s).globals ↔
      new.first ∈ s.globals ∨ Redeclares root source old new i := by
  rw [(scope_build h).2, renamedScope, afterRename]
  simp only [List.mem_filterMap, List.mem_map, Use.declared?, Redeclares]
  constructor
  · rintro ⟨_, ⟨u, hu, rfl⟩, hname⟩
    unfold Use.renamed at hname
    split at hname
    · next hedited =>
      split at hname
      · next hdeclares => exact .inr ⟨u, hu, hdeclares.1, hdeclares.2, hedited⟩
      · cases hname
    · exact .inl ⟨u, hu, hname⟩
  · rintro (⟨u, hu, hname⟩ | ⟨u, hu, hscope, hkind, hedited⟩)
    · refine ⟨_, ⟨u, hu, rfl⟩, ?_⟩
      unfold Use.renamed
      split
      · split at hname
        · next hdeclares => rw [if_pos hdeclares]
        · cases hname
      · exact hname
    · refine ⟨_, ⟨u, hu, rfl⟩, ?_⟩
      rw [Use.renamed, if_pos hedited, if_pos ⟨hscope, hkind⟩]

theorem any_importsModule_iff (h : (build root source).scopes[i]? = some s) :
    (s.bindingsOf old.first).any (Binding.importsModule old) = true ↔
      ∃ e ∈ entriesIn root source i, ∃ path, e.imported = some path ∧
        old.isPrefixOf path = true := by
  rw [List.any_eq_true]
  constructor
  · rintro ⟨b, hb, himports⟩
    obtain ⟨e, he, -, rfl⟩ := (mem_bindingsOf h).1 hb
    obtain ⟨path, hpath, hold⟩ := Option.any_eq_true _ _ |>.1 himports
    exact ⟨e, he, path, hpath, hold⟩
  · rintro ⟨e, he, path, hpath, hold⟩
    have hhead := head?_of_mem_entriesIn he path hpath
    have hname : e.name = old.first := by
      obtain ⟨rest, rfl⟩ := List.isPrefixOf_iff_prefix.1 hold
      rw [List.head?_append_of_ne_nil _ old.nonempty, List.head?_eq_some_head old.nonempty] at hhead
      exact (Option.some.inj hhead).symm
    exact ⟨_, (mem_bindingsOf h).2 ⟨e, he, hname, rfl⟩, Option.any_eq_true _ _ |>.2 ⟨path, hpath, hold⟩⟩

theorem exists_isEdited_iff (h : (build root source).scopes[i]? = some s) :
    (∃ e ∈ entriesIn root source i, e.isEdited (build root source) source old new i = true) ↔
      Rebinds root source old new i s := by
  rw [Rebinds, any_importsModule_iff h]
  constructor
  · rintro ⟨e, he, hedited⟩
    unfold Entry.isEdited at hedited
    split at hedited
    · next path hpath => exact .inl ⟨e, he, path, hpath, hedited⟩
    · rw [Bool.and_eq_true, List.contains_iff_mem] at hedited
      exact .inr ⟨_, hedited.1, rfl, rfl, hedited.2⟩
  · rintro (⟨e, he, path, hpath, hold⟩ | ⟨u, hu, rfl, hkind, hedited⟩)
    · exact ⟨e, he, by simpa [Entry.isEdited, hpath] using hold⟩
    · obtain ⟨name, scope, kind, site⟩ := u
      cases hkind
      refine ⟨_, mem_entriesIn_of_store hu rfl, ?_⟩
      simpa [Entry.isEdited, hu] using hedited

theorem binds_renamedScope (h : (build root source).scopes[i]? = some s) :
    (renamedScope root source old new i s).binds new.first = true ↔
      s.binds new.first = true ∨ Rebinds root source old new i s := by
  have hname (e : Entry) : (e.renamed (build root source) source old new i).name = new.first ↔
      e.name = new.first ∨ e.isEdited (build root source) source old new i = true := by
    unfold Entry.renamed
    split
    · next hedited => simp [hedited]
    · next hedited => simp [hedited]
  rw [← exists_isEdited_iff h, Scope.binds, Scope.binds, (scope_build h).1, renamedScope]
  simp only [List.any_map, List.any_eq_true, Function.comp_apply, Entry.kept, beq_iff_eq, hname,
    and_or_left, exists_or]

def CanOwn (s : Scope) (innermost : Bool) (name : String) : Prop :=
  match s.kind with
  | .module => False
  | .classBody => innermost = true
  | .function | .comprehension => name ∉ s.nonlocals

theorem canOwn_iff {s : Scope} {innermost : Bool} {name : String} : CanOwn s innermost name ↔
    s.kind ≠ .module ∧ (s.kind = .classBody → innermost = true) ∧
      (s.kind ≠ .classBody → name ∉ s.nonlocals) := by
  unfold CanOwn
  cases s.kind <;> simp

structure Takes (root : Node) (source : List Char) (old new : QualifiedName) (innermost : Bool)
    (i : Nat) (s : Scope) : Prop where
  scope : (build root source).scopes[i]? = some s
  inner : s.kind ≠ .module
  undeclared : new.first ∉ s.globals
  taken : Redeclares root source old new i ∧
      (build root source).owner new.first innermost i ≠ moduleScope ∨
    ¬Redeclares root source old new i ∧ CanOwn s innermost new.first ∧
      s.binds new.first = false ∧ Rebinds root source old new i s

theorem verdict_eq_module_iff {name : String} {b : Bool} :
    s.verdict b name = .module ↔ s.kind = .module ∨ name ∈ s.globals := by
  unfold Scope.verdict
  cases s.kind <;> simp <;> by_cases hglobal : name ∈ s.globals <;> simp [hglobal] <;> split <;> simp

theorem verdict_eq_own_iff {name : String} {b : Bool} :
    s.verdict b name = .own ↔ name ∉ s.globals ∧ CanOwn s b name ∧ s.binds name = true := by
  unfold Scope.verdict CanOwn
  cases s.kind <;> simp <;> by_cases hglobal : name ∈ s.globals <;> simp [hglobal]

theorem verdict_eq_outward_iff {name : String} {b : Bool} :
    s.verdict b name = .outward ↔ s.verdict b name ≠ .module ∧ s.verdict b name ≠ .own := by
  cases s.verdict b name <;> simp

section RenamedScope

variable {b : Bool} (h : (build root source).scopes[i]? = some s)

include h

theorem verdict_renamedScope_eq_module_iff :
    (renamedScope root source old new i s).verdict b new.first = .module ↔
      s.verdict b new.first = .module ∨ Redeclares root source old new i := by
  rw [verdict_eq_module_iff, verdict_eq_module_iff, mem_globals_renamedScope h, or_assoc]
  rfl

theorem verdict_renamedScope_eq_own_iff :
    (renamedScope root source old new i s).verdict b new.first = .own ↔
      new.first ∉ s.globals ∧ ¬Redeclares root source old new i ∧ CanOwn s b new.first ∧
        (s.binds new.first = true ∨ Rebinds root source old new i s) := by
  rw [verdict_eq_own_iff, mem_globals_renamedScope h, binds_renamedScope h, not_or, and_assoc]
  rfl

theorem diverts_iff :
    (build root source).Diverts (afterRename root source old new) new.first b i s
      (renamedScope root source old new i s) ↔ Takes root source old new b i s := by
  have hafter : (afterRename root source old new).scopes[i]? =
      some (renamedScope root source old new i s) := by
    rw [scopes_afterRename, h]
    rfl
  have hinner : s.verdict b new.first ≠ .module ↔ s.kind ≠ .module ∧ new.first ∉ s.globals := by
    rw [Ne, verdict_eq_module_iff, not_or]
  have hown : s.verdict b new.first = .outward ∧
      (renamedScope root source old new i s).verdict b new.first = .own ↔
        s.kind ≠ .module ∧ new.first ∉ s.globals ∧ ¬Redeclares root source old new i ∧
          CanOwn s b new.first ∧ s.binds new.first = false ∧ Rebinds root source old new i s := by
    have hpassed : s.verdict b new.first ≠ .own ↔ _ := verdict_eq_own_iff.not
    rw [verdict_renamedScope_eq_own_iff h, verdict_eq_outward_iff, hinner, hpassed,
      ← Bool.not_eq_true]
    tauto
  have hmodule : s.verdict b new.first ≠ .module ∧
      (renamedScope root source old new i s).verdict b new.first = .module ∧
        (build root source).owner new.first b i ≠ moduleScope ↔
      s.kind ≠ .module ∧ new.first ∉ s.globals ∧ Redeclares root source old new i ∧
        (build root source).owner new.first b i ≠ moduleScope := by
    rw [verdict_renamedScope_eq_module_iff h, hinner]
    have := hinner.not
    tauto
  constructor
  · rintro ⟨hbefore, -, hverdict⟩
    rw [hown, hmodule] at hverdict
    obtain ⟨hk, hg, hrest⟩ | ⟨hk, hg, hrest⟩ := hverdict
    · exact ⟨hbefore, hk, hg, .inr hrest⟩
    · exact ⟨hbefore, hk, hg, .inl hrest⟩
  · rintro ⟨hbefore, hk, hg, htaken⟩
    refine ⟨hbefore, hafter, ?_⟩
    rw [hown, hmodule]
    obtain hrest | hrest := htaken
    · exact .inr ⟨hk, hg, hrest⟩
    · exact .inl ⟨hk, hg, hrest⟩

end RenamedScope

theorem knows_afterRename (root : Node) (source : List Char) (old new : QualifiedName) :
    (build root source).Knows (afterRename root source old new) new.first := by
  constructor
  · intro i hi
    rw [scopes_afterRename, hi]
    rfl
  · intro i s hs
    refine ⟨renamedScope root source old new i s, by rw [scopes_afterRename, hs]; rfl, rfl, fun b => ?_⟩
    cases hafter : (renamedScope root source old new i s).verdict b new.first with
    | module =>
      by_cases hmodule : s.verdict b new.first = .module
      · exact .inl hmodule.symm
      · exact .inr (.inr ⟨hmodule, rfl⟩)
    | own =>
      obtain ⟨hglobal, -, hcan, -⟩ := (verdict_renamedScope_eq_own_iff hs).1 hafter
      have hmodule : s.verdict b new.first ≠ .module := by
        rw [Ne, verdict_eq_module_iff]
        rintro (hk | hmem)
        · simp [CanOwn, hk] at hcan
        · exact hglobal hmem
      by_cases hown : s.verdict b new.first = .own
      · exact .inl hown.symm
      · exact .inr (.inl ⟨verdict_eq_outward_iff.2 ⟨hmodule, hown⟩, rfl⟩)
    | outward =>
      obtain ⟨hmodule, hown⟩ := verdict_eq_outward_iff.1 hafter
      rw [Ne, verdict_renamedScope_eq_module_iff hs, not_or] at hmodule
      refine .inl (verdict_eq_outward_iff.2 ⟨hmodule.1, fun hbefore => hown ?_⟩).symm
      obtain ⟨hglobal, hcan, hbinds⟩ := verdict_eq_own_iff.1 hbefore
      exact (verdict_renamedScope_eq_own_iff hs).2 ⟨hglobal, hmodule.2, hcan, .inl hbinds⟩

theorem resolve_afterRename_ne_iff (root : Node) (source : List Char) (old new : QualifiedName)
    (i : Nat) :
    (afterRename root source old new).resolve i new.first ≠ (build root source).resolve i new.first ↔
      ∃ b j s, (afterRename root source old new).Reaches new.first true i b j ∧
        Takes root source old new b j s := by
  refine (owner_ne_iff (ordered_build root source) (ordered_afterRename root source old new)
    (knows_afterRename root source old new)).trans ?_
  constructor
  · rintro ⟨b, j, s, s', hreach, hdiverts⟩
    have hafter := hdiverts.after
    rw [scopes_afterRename, hdiverts.before] at hafter
    cases hafter
    exact ⟨b, j, s, hreach, (diverts_iff hdiverts.before).1 hdiverts⟩
  · rintro ⟨b, j, s, hreach, htakes⟩
    exact ⟨b, j, s, _, hreach, (diverts_iff htakes.scope).2 htakes⟩

example : ((parse? "b = 1\ndef f():\n    import a\n    return b\n").map fun root =>
    ((build root "b = 1\ndef f():\n    import a\n    return b\n".toList).resolve 1 "b",
      (afterRename root "b = 1\ndef f():\n    import a\n    return b\n".toList
        ⟨["a"], by decide, by decide⟩ ⟨["b"], by decide, by decide⟩).resolve 1 "b")) =
    some (0, 1) := by
  decide +kernel

end ScopeTable

end Reroot.Python

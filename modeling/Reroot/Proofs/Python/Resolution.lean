import Reroot.Proofs.Python.Orphans

namespace Reroot.Python

def Effect.IsInner : Effect → Prop
  | opened kind .. => kind ≠ .module
  | _ => True

section Inner

variable {source : List Char} {size : Nat} {site : Site}

theorem respond_isInner (v : Visit) : ∀ e ∈ (v.respond source size site).1, e.IsInner := by
  intro e he
  cases does_of_mem_respond he <;> simp [Effect.IsInner]

end Inner

section Verdict

variable {s : Scope} {b : Bool} {name : String}

theorem Scope.of_verdict_own (h : s.verdict b name = .own) : s.binds name = true ∧
    (s.kind ≠ .classBody → name ∉ s.nonlocals) ∧ (s.kind = .classBody → b = true) := by
  obtain ⟨-, hcan, hbinds⟩ := ScopeTable.verdict_eq_own_iff.1 h
  obtain ⟨-, hclass, hnonlocal⟩ := ScopeTable.canOwn_iff.1 hcan
  exact ⟨hbinds, hnonlocal, hclass⟩

end Verdict

namespace ScopeTable

variable {root : Node} {source : List Char}

theorem kind_ne_module {i : Nat} {s : Scope} (h : (build root source).scopes[i]? = some s)
    (hi : i ≠ moduleScope) : s.kind ≠ .module := by
  obtain ⟨i, rfl⟩ := Nat.exists_eq_succ_of_ne_zero hi
  rw [scopes_build] at h
  obtain ⟨o, ho, rfl⟩ := Option.map_eq_some_iff.1 h
  obtain ⟨e, he, heo⟩ := List.mem_filterMap.1 (List.mem_of_getElem? (by simpa [openings] using ho))
  have hinner : e.IsInner :=
    log_forall (I := fun _ _ => True) (fun v _ _ _ _ => respond_isInner v) (fun _ _ _ _ _ _ _ _ _ => trivial)
      (fun _ _ _ => trivial) e he
  cases e with
  | opened kind parent container =>
    cases heo
    exact hinner
  | bound | used | declaredGlobal | declaredNonlocal => cases heo

structure WellFormed (t : ScopeTable) : Prop where
  module : ∃ s, t.scopes[moduleScope]? = some s ∧ s.kind = .module ∧ s.parent = none
  inner : ∀ (i : Nat) (s : Scope), t.scopes[i]? = some s → i ≠ moduleScope →
    s.kind ≠ .module ∧ ∃ p, s.parent = some p ∧ p < i
  uses : ∀ u ∈ t.uses, u.scope < t.scopes.length
  sorted : t.uses.Pairwise fun u v => u.site.start < v.site.start

theorem scope_lt_of_wellScoped {size : Nat} {es : List Effect} (h : WellScoped size es) :
    ∀ u ∈ es.filterMap (Effect.use? source), u.scope < size + opensIn es := by
  induction es generalizing size with
  | nil => simp
  | cons e es ih =>
    obtain ⟨hfits, hes⟩ := h
    intro u hu
    rw [opensIn_cons, ← Nat.add_assoc]
    obtain ⟨f, hf, hfu⟩ := List.mem_filterMap.1 hu
    obtain rfl | hf := List.mem_cons.1 hf
    · cases f with
      | used scope kind site =>
        cases hfu
        have hlt : scope < size := hfits
        change scope < _
        omega
      | opened | bound | declaredGlobal | declaredNonlocal => cases hfu
    · exact ih hes u (List.mem_filterMap.2 ⟨f, hf, hfu⟩)

theorem wellFormed_build {source : String} (hparse : parse? source = some root) :
    (build root source.toList).WellFormed := by
  have ht := ordered_build root source.toList
  refine ⟨⟨_, scopes_build root source.toList moduleScope, rfl, rfl⟩, fun i s h hi => ?_, fun u hu => ?_, ?_⟩
  · have hk := kind_ne_module h hi
    refine ⟨hk, ?_⟩
    cases hp : s.parent with
    | none => exact absurd (ht.module i s h hp) hk
    | some p => exact ⟨p, rfl, ht.parent_lt i s h p hp⟩
  · rw [uses_build] at hu
    rw [build_eq, length_scopes_foldl]
    exact scope_lt_of_wellScoped (wellScoped_log root source.toList) u hu
  · refine (pairwise_uses (parse?_placed hparse)).imp_of_mem fun {u v} hu _ h => ?_
    exact Nat.lt_of_lt_of_le (start_lt_stop_of_mem_uses hparse hu) h

def IsParent (t : ScopeTable) (i p : Nat) : Prop :=
  ∃ s, t.scopes[i]? = some s ∧ s.parent = some p

structure EndsIn (t : ScopeTable) (name : String) (i j : Nat) : Prop where
  ends : ∃ c k s, t.Reaches name true i c k ∧ t.scopes[k]? = some s ∧
    (s.verdict c name = .module ∧ j = moduleScope ∨ s.verdict c name = .own ∧ j = k)
  owns : j ≠ moduleScope → ∃ s, t.scopes[j]? = some s ∧ Relation.ReflTransGen t.IsParent i j ∧
    s.binds name = true ∧ (s.kind ≠ .classBody → name ∉ s.nonlocals)
  classBody : ∀ s, t.scopes[j]? = some s → s.kind = .classBody → j = i
  global : ∀ c k s, t.Reaches name true i c k → t.scopes[k]? = some s → name ∈ s.globals →
    j = moduleScope

variable {t : ScopeTable} {name : String} {b c : Bool} {i j k : Nat} {s : Scope}

theorem Reaches.isParent (h : t.Reaches name b i c k) : Relation.ReflTransGen t.IsParent i k := by
  induction h with
  | here => exact .refl
  | outward hs _ hp _ ih => exact .head ⟨_, hs, hp⟩ ih

theorem Reaches.innermost (h : t.Reaches name b i c k) (hc : c = true) : b = true ∧ k = i := by
  induction h with
  | here => exact ⟨hc, rfl⟩
  | outward _ _ _ _ ih => cases (ih hc).1

theorem Reaches.unique_end {c' : Bool} {k' : Nat} {s' : Scope} (h : t.Reaches name b i c k)
    (hs : t.scopes[k]? = some s) (hv : s.verdict c name ≠ .outward) (h' : t.Reaches name b i c' k')
    (hs' : t.scopes[k']? = some s') (hv' : s'.verdict c' name ≠ .outward) : c' = c ∧ k' = k := by
  induction h with
  | here => exact reaches_of_verdict_ne hs hv h'
  | outward hi hvi hp _ ih =>
    cases h' with
    | here =>
      rw [hi] at hs'
      cases hs'
      exact absurd hvi hv'
    | outward hi' _ hp' h' =>
      obtain rfl := Option.some.inj (hi.symm.trans hi')
      obtain rfl := Option.some.inj (hp.symm.trans hp')
      exact ih hs hv h'

theorem Ordered.exists_reaches (ht : t.Ordered) (name : String) (b : Bool) (hi : i < t.scopes.length) :
    ∃ c k s, t.Reaches name b i c k ∧ t.scopes[k]? = some s ∧
      (s.verdict c name = .module ∧ t.owner name b i = moduleScope ∨
        s.verdict c name = .own ∧ t.owner name b i = k) := by
  induction i using Nat.strong_induction_on generalizing b with
  | _ i ih =>
    obtain ⟨s, hs⟩ : ∃ s, t.scopes[i]? = some s := ⟨_, List.getElem?_eq_getElem hi⟩
    have howner := @owner_eq _ name b i s ht hs
    cases hv : s.verdict b name with
    | module => exact ⟨b, i, s, .here b i, hs, .inl ⟨hv, by rw [howner, hv]⟩⟩
    | own => exact ⟨b, i, s, .here b i, hs, .inr ⟨hv, by rw [howner, hv]⟩⟩
    | outward =>
      obtain ⟨p, hp, hlt⟩ := ht.exists_parent hs (show s.verdict b name ≠ .module by simp [hv])
      obtain ⟨c, k, s', hreach, hs', hend⟩ := ih p hlt false (hlt.trans hi)
      rw [hv, hp] at howner
      exact ⟨c, k, s', .outward hs hv hp hreach, hs', by rwa [howner]⟩

theorem WellFormed.endsIn (h : t.WellFormed) (ht : t.Ordered) (name : String)
    (hi : i < t.scopes.length) : t.EndsIn name i (t.resolve i name) := by
  obtain ⟨c, k, s, hreach, hs, hend⟩ := ht.exists_reaches name true hi
  change s.verdict c name = .module ∧ t.resolve i name = moduleScope ∨
    s.verdict c name = .own ∧ t.resolve i name = k at hend
  generalize t.resolve i name = j at hend
  have hv : s.verdict c name ≠ .outward := by
    obtain ⟨hv, -⟩ | ⟨hv, -⟩ := hend <;> simp [hv]
  refine ⟨⟨c, k, s, hreach, hs, hend⟩, fun hj => ?_, fun s' hs' hk => ?_, fun c' k' s' hreach' hs' hglobal => ?_⟩
  · obtain ⟨-, rfl⟩ | ⟨hown, rfl⟩ := hend
    · exact absurd rfl hj
    · obtain ⟨hbinds, hnonlocal, -⟩ := Scope.of_verdict_own hown
      exact ⟨s, hs, hreach.isParent, hbinds, hnonlocal⟩
  · obtain ⟨-, rfl⟩ | ⟨hown, rfl⟩ := hend
    · obtain ⟨top, htop, hmodule, -⟩ := h.module
      rw [htop] at hs'
      cases hs'
      rw [hmodule] at hk
      cases hk
    · obtain rfl := Option.some.inj (hs.symm.trans hs')
      exact (hreach.innermost ((Scope.of_verdict_own hown).2.2 hk)).2
  · have hmodule : s'.verdict c' name = .module := Scope.verdict_of_globals hglobal
    obtain ⟨rfl, rfl⟩ := hreach.unique_end hs hv hreach' hs' (by simp [hmodule])
    obtain rfl := Option.some.inj (hs.symm.trans hs')
    obtain ⟨-, hj⟩ | ⟨hown, -⟩ := hend
    · exact hj
    · rw [hmodule] at hown
      cases hown

theorem resolve_endsIn {source : String} (hparse : parse? source = some root) :
    (build root source.toList).WellFormed ∧
      ∀ i < (build root source.toList).scopes.length, ∀ name,
        (build root source.toList).EndsIn name i ((build root source.toList).resolve i name) := by
  have hwell := wellFormed_build hparse
  exact ⟨hwell, fun i hi name => hwell.endsIn (ordered_build root source.toList) name hi⟩

def shadowText : String :=
  "def f():\n    a = 1\n    class C:\n        nonlocal a\n        a = 2\n"

theorem resolve_endsIn_shadowText : ∃ root s, parse? shadowText = some root ∧
    (build root shadowText.toList).WellFormed ∧
    (build root shadowText.toList).scopes[2]? = some s ∧ s.kind = .classBody ∧ "a" ∈ s.nonlocals ∧
    (build root shadowText.toList).resolve 2 "a" = 2 ∧ (build root shadowText.toList).EndsIn "a" 2 2 := by
  have hfacts : ((parse? shadowText).any fun root =>
      ((build root shadowText.toList).scopes[2]?.any fun s =>
        s.kind == .classBody && s.nonlocals.contains "a") &&
      (build root shadowText.toList).resolve 2 "a" == 2) = true := by
    decide +kernel
  obtain ⟨root, hparse, hfacts⟩ := Option.any_eq_true _ _ |>.1 hfacts
  obtain ⟨hscope, howner⟩ := Bool.and_eq_true_iff.1 hfacts
  obtain ⟨s, hs, hfacts⟩ := Option.any_eq_true _ _ |>.1 hscope
  simp only [Bool.and_eq_true, beq_iff_eq, List.contains_iff_mem] at hfacts howner
  obtain ⟨hwell, hends⟩ := resolve_endsIn hparse
  have hend := hends 2 (List.getElem?_eq_some_iff.1 hs).1 "a"
  rw [howner] at hend
  exact ⟨root, s, hparse, hwell, hs, hfacts.1, hfacts.2, howner, hend⟩

end ScopeTable

end Reroot.Python

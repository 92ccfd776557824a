import Reroot.Proofs.Python.Shape
import Reroot.Proofs.Python.Tour

namespace Reroot.Python

variable {root : Node} {source : List Char} {s : Site}

@[simp]
theorem Site.parent?_child (s : Site) (i : Nat) (n : Node) : (s.child i n).parent? = some s := rfl

def Site.IsField (s : Site) : Prop :=
  ∃ p, s.parent? = some p ∧ p.kind = .attribute ∧ s.node.role = some .attribute

theorem Site.not_isField_child {i : Nat} {n : Node}
    (h : s.kind = .attribute → n.role ≠ some .attribute) : ¬(s.child i n).IsField := by
  rintro ⟨p, hp, hk, hr⟩
  cases hp
  exact h hk hr

structure Site.IsUsed (root : Node) (s : Site) : Prop where
  inTree : s.InTree root
  kind : s.kind = .identifier
  notField : ¬s.IsField

def Effect.InPlace (root : Node) : Effect → Prop
  | used _ _ s => s.IsUsed root
  | bound _ _ _ s | declaredGlobal _ s | declaredNonlocal _ s => s.InTree root
  | opened .. => True

def Visit.Expects (s : Site) : Visit → Prop
  | code _ => ¬s.IsField
  | classBody _ => s.kind ≠ .attribute
  | _ => True

theorem Site.InTree.of_part? {r : Role} {c : Site} (h : s.InTree root) (hc : s.part? r = some c) :
    c.InTree root := by
  obtain ⟨i, n, hn, -, rfl⟩ := Site.part?_eq_some hc
  exact h.child hn

theorem Site.InTree.of_mem_parts {r : Role} (h : s.InTree root) :
    ∀ c ∈ s.parts r, c.InTree root := by
  intro c hc
  obtain ⟨⟨n, i⟩, hp, rfl⟩ := List.mem_map.1 hc
  exact h.child (List.mem_zipIdx_iff_getElem?.1 (List.mem_filter.1 hp).1)

theorem Site.InTree.of_mem_namedChildren (h : s.InTree root) :
    ∀ c ∈ s.namedChildren, c.InTree root ∧ c.parent? = some s := by
  intro c hc
  obtain ⟨⟨n, i⟩, hp, rfl⟩ := List.mem_map.1 hc
  have hn := List.mem_zipIdx_iff_getElem?.1 (List.mem_filter.1 hp).1
  exact ⟨h.child hn, rfl⟩

theorem respond_inPlace {v : Visit} {size : Nat} (hs : s.InTree root) (hv : v.Expects s) :
    ∀ e ∈ (v.respond source size s).1, e.InPlace root := by
  intro e he
  cases does_of_mem_respond he with
  | function | comprehension | classBody => exact trivial
  | name _ hp => exact hs.of_part? hp
  | whole _ hitem | member _ hitem => exact hs.of_mem_parts _ hitem
  | aliased _ hitem _ hp => exact (hs.of_mem_parts _ hitem).of_part? hp
  | declaresGlobal _ hitem | declaresNonlocal _ hitem => exact (hs.of_mem_namedChildren _ hitem).1
  | usesGlobal hk hitem hi =>
    obtain ⟨hin, hparent⟩ := hs.of_mem_namedChildren _ hitem
    refine ⟨hin, hi, ?_⟩
    rintro ⟨p, hp, hattr, -⟩
    rw [hparent] at hp
    cases hp
    rw [hk] at hattr
    cases hattr
  | stores hk | loads hk => exact ⟨hs, hk, hv⟩
  | assigns | parameter | pattern => exact hs

theorem respond_expects {v : Visit} {size i : Nat} {c : Node} (hv : v.Expects s)
    (hclass : s.kind = .classDefinition → c.kind ≠ .attribute) :
    ((v.respond source size s).2 c).Expects (s.child i c) := by
  have below {k : Kind} (hk : s.kind = k) (hne : k ≠ .attribute) : ¬(s.child i c).IsField :=
    Site.not_isField_child fun h => absurd (hk.symm.trans h) hne
  have honward := @respond_onward source s c v size
  generalize (v.respond source size s).2 c = w at honward ⊢
  by_cases hskip : w = .skip
  · rw [hskip]
    exact trivial
  cases honward hskip with
  | parameters | parameter | name | typed | splat | pattern => exact trivial
  | body hk => obtain hk | hk := Kind.isFunction_iff.1 hk <;> exact below hk (by simp)
  | comprehension hk =>
    obtain hk | hk | hk | hk := Kind.isComprehension_iff.1 hk <;> exact below hk (by simp)
  | result hk | bases hk | argument hk | typing hk => exact below hk (by simp)
  | value hk => obtain hk | hk := hk <;> exact below hk (by simp)
  | classBody hk => exact hclass hk
  | object _ hr =>
    refine Site.not_isField_child fun _ hr' => ?_
    rw [hr'] at hr
    cases hr
  | ordinary hk =>
    refine Site.not_isField_child fun h => ?_
    rw [h] at hk
    cases hk
  | member => exact Site.not_isField_child fun h => absurd h hv

theorem inPlace_of_mem_log (hroot : root.kind = .module)
    (hshape : root.All (Node.Shaped classEnclosure source)) :
    ∀ e ∈ ScopeTable.log root source, e.InPlace root := by
  refine ScopeTable.log_forall (I := fun v s => v.Expects s)
    (fun v size s hs hv => respond_inPlace hs hv) ?_ ?_
  · intro v size s i c hs hv hc _
    refine respond_expects hv fun hk => ?_
    have hin := (hshape s.node hs.within).inner (beq_iff_eq.2 hk) c (List.mem_of_getElem? hc)
    exact bne_iff_ne.1 hin
  · intro i c hc
    refine Site.not_isField_child fun hk => ?_
    rw [show (Site.root root).kind = .module from hroot] at hk
    cases hk

theorem isUsed_of_mem_uses (hroot : root.kind = .module)
    (hshape : root.All (Node.Shaped classEnclosure source)) :
    ∀ u ∈ (ScopeTable.build root source).uses,
      u.site.IsUsed root ∧ u.name = u.site.node.text source := by
  have hlog := inPlace_of_mem_log hroot hshape
  intro u hu
  rw [ScopeTable.uses_build] at hu
  obtain ⟨e, he, hue⟩ := List.mem_filterMap.1 hu
  cases e with
  | used scope kind site =>
    cases hue
    exact ⟨hlog _ he, rfl⟩
  | opened | bound | declaredGlobal | declaredNonlocal => cases hue

end Reroot.Python

import Reroot.Python.Site
import Reroot.Proofs.Python.Placement

namespace Reroot.Python

namespace Site

inductive InTree (root : Node) : Site → Prop
  | root : InTree root (Site.root root)
  | child {s : Site} {i : Nat} {n : Node} (h : InTree root s)
      (hn : s.node.children[i]? = some n) : InTree root (s.child i n)

variable {root : Node} {s t q u a c : Site} {text : List Char}

@[simp]
theorem ancestors_root (n : Node) : (Site.root n).ancestors = [] := rfl

@[simp]
theorem ancestors_child (s : Site) (i : Nat) (n : Node) :
    (s.child i n).ancestors = s :: s.ancestors := rfl

theorem InTree.within (h : s.InTree root) : s.node.Within root := by
  induction h with
  | root => exact .self
  | child _ hn ih => exact Node.Within.trans (.child (List.mem_of_getElem? hn) .self) ih

theorem InTree.eq_of_address (hs : s.InTree root) (ht : t.InTree root)
    (h : s.address = t.address) : s = t := by
  induction hs generalizing t with
  | root =>
    cases ht with
    | root => rfl
    | child _ _ => cases h
  | @child s i n _ hn ih =>
    cases ht with
    | root => cases h
    | @child t j m ht hm =>
      simp only [Site.child, List.cons.injEq] at h
      obtain ⟨rfl, h⟩ := h
      obtain rfl := ih ht h
      rw [hn] at hm
      cases hm
      rfl

theorem InTree.of_mem_ancestors (h : s.InTree root) : ∀ a ∈ s.ancestors, a.InTree root := by
  induction h with
  | root => simp
  | child h _ ih =>
    rw [ancestors_child]
    exact List.forall_mem_cons.2 ⟨h, ih⟩

theorem within_of_mem_ancestors (h : s.InTree root) :
    ∀ a ∈ s.ancestors, s.node.Within a.node := by
  induction h with
  | root => simp
  | @child s i n _ hn ih =>
    have hchild : n.Within s.node := .child (List.mem_of_getElem? hn) .self
    rw [ancestors_child]
    exact List.forall_mem_cons.2 ⟨hchild, fun a ha => hchild.trans (ih a ha)⟩

theorem InTree.suffix_of_mem_ancestors (h : s.InTree root) :
    ∀ a ∈ s.ancestors, a.address <:+ s.address ∧ a.address.length < s.address.length := by
  induction h with
  | root => simp
  | @child s i n _ _ ih =>
    rw [ancestors_child]
    refine List.forall_mem_cons.2 ⟨⟨List.suffix_cons i _, by simp [Site.child]⟩, fun a ha => ?_⟩
    obtain ⟨hsuffix, hlt⟩ := ih a ha
    exact ⟨hsuffix.trans (List.suffix_cons i _), Nat.lt_succ_of_lt hlt⟩

theorem InTree.eq_or_mem_ancestors (hs : s.InTree root) (hq : q.InTree root)
    (h : q.address <:+ s.address) : q = s ∨ q ∈ s.ancestors := by
  induction hs with
  | root => exact .inl (hq.eq_of_address .root (List.suffix_nil.1 h))
  | @child s i n hs hn ih =>
    obtain h | h := List.suffix_cons_iff.1 h
    · exact .inl (hq.eq_of_address (hs.child hn) h)
    · obtain rfl | hmem := ih h
      · exact .inr (by simp)
      · exact .inr (by simp [hmem])

theorem InTree.mem_ancestors_iff (hs : s.InTree root) (hq : q.InTree root) :
    q ∈ s.ancestors ↔ q.address <:+ s.address ∧ q.address.length < s.address.length := by
  refine ⟨hs.suffix_of_mem_ancestors q, ?_⟩
  rintro ⟨h, hlt⟩
  obtain rfl | hmem := hs.eq_or_mem_ancestors hq h
  · omega
  · exact hmem

theorem InTree.exists_child (hs : s.InTree root) (hq : q ∈ s.ancestors) :
    ∃ i n, q.node.children[i]? = some n ∧ (q.child i n).address <:+ s.address := by
  induction hs with
  | root => simp at hq
  | @child s i n hs hn ih =>
    rw [ancestors_child] at hq
    obtain rfl | hq := List.mem_cons.1 hq
    · exact ⟨i, n, hn, List.suffix_rfl⟩
    · obtain ⟨j, m, hm, hsuffix⟩ := ih hq
      exact ⟨j, m, hm, hsuffix.trans (List.suffix_cons i _)⟩

def Holds (s t : Site) : Prop :=
  s.address <:+ t.address

instance (s t : Site) : Decidable (s.Holds t) :=
  inferInstanceAs (Decidable (s.address <:+ t.address))

theorem InTree.holds_iff (hs : s.InTree root) (ht : t.InTree root) :
    s.Holds t ↔ s = t ∨ s ∈ t.ancestors := by
  constructor
  · exact ht.eq_or_mem_ancestors hs
  · rintro (rfl | h)
    · exact List.suffix_rfl
    · exact (ht.suffix_of_mem_ancestors s h).1

theorem Holds.trans (h : s.Holds t) (h' : t.Holds u) : s.Holds u :=
  List.IsSuffix.trans h h'

theorem Holds.total (hs : s.Holds u) (ht : t.Holds u) : s.Holds t ∨ t.Holds s :=
  List.suffix_or_suffix_of_suffix hs ht

theorem holds_child (s : Site) (i : Nat) (n : Node) : s.Holds (s.child i n) :=
  List.suffix_cons i _

theorem eq_of_holds_child {i j : Nat} {m n : Node} (hm : (s.child i m).Holds u)
    (hn : (s.child j n).Holds u) : i = j := by
  obtain h | h := hm.total hn
  · exact (List.cons.inj (List.IsSuffix.eq_of_length h rfl)).1
  · exact (List.cons.inj (List.IsSuffix.eq_of_length h rfl)).1.symm

theorem InTree.ne_of_mem_ancestors (hs : s.InTree root) (h : a ∈ s.ancestors) : a ≠ s := by
  rintro rfl
  exact Nat.lt_irrefl _ (hs.suffix_of_mem_ancestors a h).2

theorem InTree.not_holds_of_mem_ancestors (hs : s.InTree root) (h : a ∈ s.ancestors) :
    ¬s.Holds a := by
  intro hsa
  have hlt := (hs.suffix_of_mem_ancestors a h).2
  have hle := hsa.length_le
  omega

theorem InTree.mem_ancestors_trans (hs : s.InTree root) (ha : a ∈ s.ancestors)
    (hc : c ∈ a.ancestors) : c ∈ s.ancestors := by
  have ha' := hs.of_mem_ancestors a ha
  obtain ⟨h₁, h₂⟩ := hs.suffix_of_mem_ancestors a ha
  obtain ⟨h₃, h₄⟩ := ha'.suffix_of_mem_ancestors c hc
  exact (hs.mem_ancestors_iff (ha'.of_mem_ancestors c hc)).2 ⟨h₃.trans h₁, by omega⟩

theorem ancestorsBelow_child (s : Site) (i : Nat) (n : Node) (c : Address) :
    (s.child i n).ancestorsBelow c = if s.address = c then [] else s :: s.ancestorsBelow c := by
  rw [ancestorsBelow, ancestors_child, List.takeWhile_cons]
  by_cases h : s.address = c
  · rw [if_pos h, if_neg (by simp [h])]
  · rw [if_neg h, if_pos (by simpa using h)]
    rfl

theorem InTree.mem_ancestorsBelow_iff (hs : s.InTree root) (hc : c ∈ s.ancestors) :
    a ∈ s.ancestorsBelow c.address ↔ a ∈ s.ancestors ∧ c ∈ a.ancestors := by
  induction hs with
  | root => simp at hc
  | @child s i n hs hn ih =>
    rw [ancestorsBelow_child]
    rw [ancestors_child] at hc ⊢
    obtain rfl | hc := List.mem_cons.1 hc
    · rw [if_pos rfl]
      refine ⟨by simp, ?_⟩
      rintro ⟨ha, hca⟩
      obtain rfl | ha := List.mem_cons.1 ha
      · exact absurd rfl (hs.ne_of_mem_ancestors hca)
      · exact absurd rfl (hs.ne_of_mem_ancestors (hs.mem_ancestors_trans ha hca))
    · have hne : s.address ≠ c.address := fun h =>
        hs.ne_of_mem_ancestors hc ((hs.of_mem_ancestors c hc).eq_of_address hs h.symm)
      rw [if_neg hne, List.mem_cons, List.mem_cons, ih hc]
      constructor
      · rintro (rfl | ⟨ha, hca⟩)
        · exact ⟨.inl rfl, hc⟩
        · exact ⟨.inr ha, hca⟩
      · rintro ⟨rfl | ha, hca⟩
        · exact .inl rfl
        · exact .inr ⟨ha, hca⟩

theorem InTree.ancestorsBelow_eq_append (hs : s.InTree root) (ha : a ∈ s.ancestors)
    (hc : c ∈ a.ancestors) :
    s.ancestorsBelow c.address =
      s.ancestorsBelow a.address ++ a :: a.ancestorsBelow c.address := by
  induction hs with
  | root => simp at ha
  | @child s i n hs hn ih =>
    have hcs : c ∈ s.ancestors := by
      rw [ancestors_child] at ha
      obtain rfl | ha := List.mem_cons.1 ha
      · exact hc
      · exact hs.mem_ancestors_trans ha hc
    have hne : s.address ≠ c.address := fun h =>
      hs.ne_of_mem_ancestors hcs ((hs.of_mem_ancestors c hcs).eq_of_address hs h.symm)
    rw [ancestorsBelow_child, ancestorsBelow_child, if_neg hne]
    rw [ancestors_child] at ha
    obtain rfl | ha := List.mem_cons.1 ha
    · rw [if_pos rfl, List.nil_append]
    · have hne' : s.address ≠ a.address := fun h =>
        hs.ne_of_mem_ancestors ha ((hs.of_mem_ancestors a ha).eq_of_address hs h.symm)
      rw [if_neg hne', ih ha, List.cons_append]

theorem InTree.eq_root_or_mem_ancestors (hs : s.InTree root) :
    s = Site.root root ∨ Site.root root ∈ s.ancestors :=
  (hs.eq_or_mem_ancestors .root List.nil_suffix).imp_left Eq.symm

theorem InTree.pairwise_ancestors (h : s.InTree root) :
    s.ancestors.Pairwise fun a b => b ∈ a.ancestors := by
  induction h with
  | root => exact .nil
  | child h _ ih => exact .cons (fun _ ha => ha) ih

def start (s : Site) : Nat := s.node.start

def stop (s : Site) : Nat := s.node.stop

theorem InTree.placed (hp : root.Placed text) (h : s.InTree root) : s.node.Placed text :=
  fun _ hm => hp _ (hm.trans h.within)

theorem InTree.start_le_stop (hp : root.Placed text) (h : s.InTree root) : s.start ≤ s.stop :=
  (h.placed hp).self.start_le_stop

theorem InTree.around (hp : root.Placed text) (hs : s.InTree root) (hq : q.InTree root)
    (h : q.address <:+ s.address) : q.start ≤ s.start ∧ s.stop ≤ q.stop := by
  induction hs with
  | root =>
    obtain rfl := hq.eq_of_address .root (List.suffix_nil.1 h)
    exact ⟨Nat.le_refl _, Nat.le_refl _⟩
  | @child s i n hs hn ih =>
    obtain h | h := List.suffix_cons_iff.1 h
    · obtain rfl := hq.eq_of_address (hs.child hn) h
      exact ⟨Nat.le_refl _, Nat.le_refl _⟩
    · obtain ⟨h₁, h₂⟩ := ih h
      obtain ⟨h₃, h₄⟩ := (hs.placed hp).self.inside n (List.mem_of_getElem? hn)
      exact ⟨Nat.le_trans h₁ h₃, Nat.le_trans h₄ h₂⟩

theorem stop_le_start_of_lt (hp : root.Placed text) (hq : q.InTree root) {i j : Nat} {m n : Node}
    (hm : q.node.children[i]? = some m) (hn : q.node.children[j]? = some n) (hij : i < j) :
    m.stop ≤ n.start := by
  obtain ⟨hi, rfl⟩ := List.getElem?_eq_some_iff.1 hm
  obtain ⟨hj, rfl⟩ := List.getElem?_eq_some_iff.1 hn
  exact List.pairwise_iff_getElem.1 (hq.placed hp).self.ordered i j hi hj hij

theorem InTree.stop_le_start (hp : root.Placed text) (hq : q.InTree root) (hs : s.InTree root)
    (ht : t.InTree root) {i j : Nat} {m n : Node} (hm : q.node.children[i]? = some m)
    (hn : q.node.children[j]? = some n) (hms : (q.child i m).address <:+ s.address)
    (hnt : (q.child j n).address <:+ t.address) (hij : i < j) : s.stop ≤ t.start := by
  have h₁ := (hs.around hp (hq.child hm) hms).2
  have h₂ := (ht.around hp (hq.child hn) hnt).1
  have h₃ := stop_le_start_of_lt hp hq hm hn hij
  exact Nat.le_trans h₁ (Nat.le_trans h₃ h₂)

theorem InTree.comparable (hp : root.Placed text) (hs : s.InTree root) (ht : t.InTree root)
    (hst : s.start < t.stop) (hts : t.start < s.stop) :
    s.address <:+ t.address ∨ t.address <:+ s.address := by
  induction hs with
  | root => exact .inl (List.nil_suffix)
  | @child q i n hq hn ih =>
    have hin := (hq.child hn).around hp hq (List.suffix_cons i _)
    obtain h | h := ih (Nat.lt_of_le_of_lt hin.1 hst) (Nat.lt_of_lt_of_le hts hin.2)
    · obtain rfl | hmem := ht.eq_or_mem_ancestors hq h
      · exact .inr (List.suffix_cons i _)
      · obtain ⟨j, m, hm, hsuffix⟩ := ht.exists_child hmem
        obtain hij | rfl | hij := Nat.lt_trichotomy i j
        · have := InTree.stop_le_start hp hq (hq.child hn) ht hn hm List.suffix_rfl hsuffix hij
          omega
        · rw [hn] at hm
          cases hm
          exact .inl hsuffix
        · have := InTree.stop_le_start hp hq ht (hq.child hn) hm hn hsuffix List.suffix_rfl hij
          omega
    · exact .inr (h.trans (List.suffix_cons i _))

end Site

end Reroot.Python

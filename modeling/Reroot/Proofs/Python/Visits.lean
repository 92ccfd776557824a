import Reroot.Proofs.Python.Uses
import Reroot.Proofs.Python.Scopes

namespace Reroot.Python

def Visit.before (source : List Char) (s : Site) (next : Node → Visit) (size i : Nat) : Nat :=
  size + opensIn (tourAll source (s.node.children.take i) 0 next s.address (s.node :: s.above) size)

inductive Visited (root : Node) (source : List Char) : Site → Visit → Nat → Prop
  | top {i : Nat} {n : Node} (hn : root.children[i]? = some n) (hnamed : n.isNamed = true) :
      Visited root source ((Site.root root).child i n) (.code ScopeTable.moduleScope)
        (Visit.before source (Site.root root) (fun _ => .code ScopeTable.moduleScope) 1 i)
  | child {s : Site} {v : Visit} {size i : Nat} {n : Node} (h : Visited root source s v size)
      (hn : s.node.children[i]? = some n) (hnamed : n.isNamed = true)
      (hnext : (v.respond source size s).2 n ≠ .skip) :
      Visited root source (s.child i n) ((v.respond source size s).2 n)
        (Visit.before source s (v.respond source size s).2
          (size + opensIn (v.respond source size s).1) i)

theorem Site.child_inj {s t : Site} {i j : Nat} {m n : Node} (h : s.child i m = t.child j n) :
    s = t ∧ i = j ∧ m = n := by
  obtain ⟨a, address, above⟩ := s
  obtain ⟨b, address', above'⟩ := t
  cases h
  exact ⟨rfl, rfl, rfl⟩

section Tour

variable {source : List Char}

theorem tour_eq (v : Visit) (s : Site) (size : Nat) :
    Visit.tour source s.node v s.address s.above size = (v.respond source size s).1 ++
      Visit.tourAll source s.node.children 0 (v.respond source size s).2 s.address
        (s.node :: s.above) (size + opensIn (v.respond source size s).1) := by
  obtain ⟨⟨r, k, span, cs⟩, address, above⟩ := s
  rw [Visit.tour]
  rfl

theorem tourAll_append (source : List Char) (cs ds : List Node) (i : Nat) (next : Node → Visit)
    (address : Address) (above : List Node) (size : Nat) :
    Visit.tourAll source (cs ++ ds) i next address above size =
      Visit.tourAll source cs i next address above size ++
        Visit.tourAll source ds (i + cs.length) next address above
          (size + opensIn (Visit.tourAll source cs i next address above size)) := by
  induction cs generalizing i size with
  | nil =>
    rw [Visit.tourAll]
    rfl
  | cons c cs ih =>
    rw [List.cons_append, Visit.tourAll, Visit.tourAll, ih, opensIn_append, List.append_assoc,
      List.length_cons, Nat.add_assoc i, Nat.add_comm 1, Nat.add_assoc size]

variable {s : Site} {next : Node → Visit} {size i : Nat} {n : Node}

theorem exists_tourAll_children (source : List Char) (next : Node → Visit) (size : Nat)
    (hn : s.node.children[i]? = some n) (hnamed : n.isNamed = true) (hnext : next n ≠ .skip) : ∃ es,
    Visit.tourAll source s.node.children 0 next s.address (s.node :: s.above) size =
      Visit.tourAll source (s.node.children.take i) 0 next s.address (s.node :: s.above) size ++
        (Visit.tour source n (next n) (i :: s.address) (s.node :: s.above)
          (Visit.before source s next size i) ++ es) := by
  obtain ⟨hi, rfl⟩ := List.getElem?_eq_some_iff.1 hn
  have hsplit := tourAll_append source (s.node.children.take i) (s.node.children.drop i) 0 next
    s.address (s.node :: s.above) size
  rw [List.take_append_drop, List.length_take_of_le (Nat.le_of_lt hi), Nat.zero_add,
    List.drop_eq_getElem_cons hi, Visit.tourAll, if_pos (by simp [hnamed, hnext])] at hsplit
  exact ⟨_, hsplit⟩

theorem before_succ (hn : s.node.children[i]? = some n) :
    Visit.before source s next size (i + 1) = Visit.before source s next size i +
      opensIn (if n.isNamed && next n != .skip then
        Visit.tour source n (next n) (i :: s.address) (s.node :: s.above)
          (Visit.before source s next size i) else []) := by
  obtain ⟨hi, rfl⟩ := List.getElem?_eq_some_iff.1 hn
  unfold Visit.before
  rw [← List.take_append_getElem hi, tourAll_append, List.length_take_of_le (Nat.le_of_lt hi),
    Nat.zero_add, Visit.tourAll, Visit.tourAll, List.append_nil, opensIn_append, Nat.add_assoc]

end Tour

namespace Visited

variable {root : Node} {source : List Char} {s a : Site} {v v' : Visit} {size size' : Nat}

theorem inTree (h : Visited root source s v size) : s.InTree root := by
  induction h with
  | top hn => exact Site.InTree.root.child hn
  | child _ hn _ _ ih => exact ih.child hn

theorem ne_root (h : Visited root source s v size) : s ≠ Site.root root := by
  rintro rfl
  generalize hs : Site.root root = s at h
  cases h with
  | top | child => cases hs

theorem unique (h : Visited root source s v size) (h' : Visited root source s v' size') :
    v = v' ∧ size = size' := by
  induction h generalizing v' size' with
  | @top i n hn hnamed =>
    generalize hc : (Site.root root).child i n = c at h'
    cases h' with
    | top =>
      obtain ⟨-, rfl, -⟩ := Site.child_inj hc
      exact ⟨rfl, rfl⟩
    | child h' =>
      obtain ⟨rfl, -, -⟩ := Site.child_inj hc
      exact absurd rfl h'.ne_root
  | @child s v size i n h hn hnamed hnext ih =>
    generalize hc : s.child i n = c at h'
    cases h' with
    | top =>
      obtain ⟨rfl, -, -⟩ := Site.child_inj hc
      exact absurd rfl h.ne_root
    | child h' =>
      obtain ⟨rfl, rfl, rfl⟩ := Site.child_inj hc
      obtain ⟨rfl, rfl⟩ := ih h'
      exact ⟨rfl, rfl⟩

theorem split (h : Visited root source s v size) :
    ∃ es fs, ScopeTable.log root source =
        es ++ (Visit.tour source s.node v s.address s.above size ++ fs) ∧ size = 1 + opensIn es := by
  induction h with
  | @top i n hn hnamed =>
    obtain ⟨fs, hfs⟩ := exists_tourAll_children (s := Site.root root) source
      (fun _ => .code ScopeTable.moduleScope) 1 hn hnamed nofun
    exact ⟨_, fs, hfs, rfl⟩
  | @child s v size i n h hn hnamed hnext ih =>
    obtain ⟨es, fs, hlog, hsize⟩ := ih
    obtain ⟨gs, hgs⟩ := exists_tourAll_children source _
      (size + opensIn (v.respond source size s).1) hn hnamed hnext
    rw [tour_eq, hgs] at hlog
    refine ⟨es ++ ((v.respond source size s).1 ++ Visit.tourAll source (s.node.children.take i) 0
      (v.respond source size s).2 s.address (s.node :: s.above)
        (size + opensIn (v.respond source size s).1)), gs ++ fs, ?_, ?_⟩
    · rw [hlog]
      simp only [List.append_assoc]
      rfl
    · rw [Visit.before, opensIn_append, opensIn_append]
      omega

theorem mem_log (h : Visited root source s v size) :
    ∀ e ∈ (v.respond source size s).1, e ∈ ScopeTable.log root source := by
  obtain ⟨es, fs, hlog, -⟩ := h.split
  intro e he
  rw [hlog, tour_eq]
  simp [he]

theorem descend (h : Visited root source s v size) (ha : a ∈ s.ancestors) :
    a = Site.root root ∨ ∃ v' size' i n, Visited root source a v' size' ∧
      a.node.children[i]? = some n ∧ (v'.respond source size' a).2 n ≠ .skip ∧
      (a.child i n).Holds s := by
  induction h with
  | top => exact .inl (List.mem_singleton.1 ha)
  | @child s v size i n h hn hnamed hnext ih =>
    rw [Site.ancestors_child] at ha
    obtain rfl | ha := List.mem_cons.1 ha
    · exact .inr ⟨v, size, i, n, h, hn, hnext, List.suffix_rfl⟩
    · obtain heq | ⟨v', size', j, m, h', hm, hnext', hholds⟩ := ih ha
      · exact .inl heq
      · exact .inr ⟨v', size', j, m, h', hm, hnext', hholds.trans (s.holds_child i n)⟩

end Visited

section Preorder

variable {root : Node} {source : List Char}

theorem Node.mem_preorder_self (n : Node) : n ∈ n.preorder := by
  obtain ⟨r, k, span, cs⟩ := n
  unfold Node.preorder
  exact List.mem_cons_self

theorem mem_preorderAll {cs : List Node} {c : Node} (hc : c ∈ cs) (hnamed : c.isNamed = true) :
    c ∈ Node.preorderAll cs := by
  induction cs with
  | nil => cases hc
  | cons d ds ih =>
    unfold Node.preorderAll
    obtain rfl | hc := List.mem_cons.1 hc
    · rw [if_pos hnamed]
      exact List.mem_append_left _ c.mem_preorder_self
    · split
      · exact List.mem_append_right _ (ih hc)
      · exact ih hc

mutual

theorem Node.mem_preorder_of_child : ∀ {n m c : Node}, m ∈ n.preorder → c ∈ m.children →
    c.isNamed = true → c ∈ n.preorder
  | .mk r k span cs, m, c, hm, hc, hnamed => by
    unfold Node.preorder at hm ⊢
    obtain rfl | hm := List.mem_cons.1 hm
    · exact List.mem_cons_of_mem _ (mem_preorderAll hc hnamed)
    · exact List.mem_cons_of_mem _ (mem_preorderAll_of_child hm hc hnamed)

theorem mem_preorderAll_of_child : ∀ {cs : List Node} {m c : Node}, m ∈ Node.preorderAll cs →
    c ∈ m.children → c.isNamed = true → c ∈ Node.preorderAll cs
  | [], m, c, hm, _, _ => by
    unfold Node.preorderAll at hm
    cases hm
  | d :: ds, m, c, hm, hc, hnamed => by
    unfold Node.preorderAll at hm ⊢
    split at hm
    · next hd =>
      rw [if_pos hd]
      obtain hm | hm := List.mem_append.1 hm
      · exact List.mem_append_left _ (Node.mem_preorder_of_child hm hc hnamed)
      · exact List.mem_append_right _ (mem_preorderAll_of_child hm hc hnamed)
    · next hd =>
      rw [if_neg hd]
      exact mem_preorderAll_of_child hm hc hnamed

end

theorem Visited.mem_preorder {s : Site} {v : Visit} {size : Nat}
    (h : Visited root source s v size) : s.node ∈ root.preorder := by
  induction h with
  | top hn hnamed =>
    exact Node.mem_preorder_of_child root.mem_preorder_self (List.mem_of_getElem? hn) hnamed
  | child _ hn hnamed _ ih => exact Node.mem_preorder_of_child ih (List.mem_of_getElem? hn) hnamed

end Preorder

section Effects

variable {root : Node} {source : List Char}

mutual

theorem exists_visited_of_mem_tour :
    ∀ (n : Node) (v : Visit) (address : Address) (above : List Node) (size : Nat),
      Visited root source ⟨n, address, above⟩ v size →
        ∀ e ∈ Visit.tour source n v address above size, ∃ s v' size',
          Visited root source s v' size' ∧ e ∈ (v'.respond source size' s).1
  | .mk r k span cs, v, address, above, size, h, e, he => by
    unfold Visit.tour at he
    obtain he | he := List.mem_append.1 he
    · exact ⟨_, _, _, h, he⟩
    · refine exists_visited_of_mem_tourAll cs 0 _ ⟨.mk r k span cs, address, above⟩
        (size + opensIn (v.respond source size ⟨.mk r k span cs, address, above⟩).1) _ ?_ rfl ?_ e he
      · rw [Visit.before, List.take_zero, Visit.tourAll, opensIn_nil, Nat.add_zero]
      · exact fun i n hn hnamed hnext => h.child hn hnamed hnext

theorem exists_visited_of_mem_tourAll :
    ∀ (cs : List Node) (i : Nat) (next : Node → Visit) (s : Site) (size size' : Nat),
      size' = Visit.before source s next size i → s.node.children.drop i = cs →
      (∀ (j : Nat) (n : Node), s.node.children[j]? = some n → n.isNamed = true → next n ≠ .skip →
        Visited root source (s.child j n) (next n) (Visit.before source s next size j)) →
        ∀ e ∈ Visit.tourAll source cs i next s.address (s.node :: s.above) size', ∃ s v size,
          Visited root source s v size ∧ e ∈ (v.respond source size s).1
  | [], _, _, _, _, _, _, _, _, e, he => by
    unfold Visit.tourAll at he
    cases he
  | c :: cs, i, next, s, size, _, rfl, hcs, hall, e, he => by
    have hc : s.node.children[i]? = some c := by
      rw [← List.head?_drop, hcs]
      rfl
    unfold Visit.tourAll at he
    obtain he | he := List.mem_append.1 he
    · split at he
      · next hvisit =>
        obtain ⟨hnamed, hnext⟩ := Bool.and_eq_true_iff.1 hvisit
        exact exists_visited_of_mem_tour c (next c) (i :: s.address) (s.node :: s.above) _
          (hall i c hc hnamed (bne_iff_ne.1 hnext)) e he
      · cases he
    · refine exists_visited_of_mem_tourAll cs (i + 1) next s size _ (before_succ hc).symm ?_ hall e he
      rw [← List.tail_drop, hcs, List.tail_cons]

end

theorem exists_visited_of_mem_log {e : Effect} (he : e ∈ ScopeTable.log root source) :
    ∃ s v size, Visited root source s v size ∧ e ∈ (v.respond source size s).1 := by
  refine exists_visited_of_mem_tourAll root.children 0 _ (Site.root root) 1 1 ?_ rfl ?_ e he
  · rw [Visit.before, List.take_zero, Visit.tourAll, opensIn_nil]
  · exact fun i n hn hnamed _ => .top hn hnamed

def Effect.site? : Effect → Option Site
  | opened .. => none
  | bound _ _ _ site | used _ _ site | declaredGlobal _ site | declaredNonlocal _ site => some site

def Visit.Marks (source : List Char) (v : Visit) (size : Nat) (s σ : Site) : Prop :=
  (σ = s ∧ s.kind = .identifier ∧ ∀ c, (v.respond source size s).2 c = .skip) ∨
    ∃ i n, s.node.children[i]? = some n ∧ (v.respond source size s).2 n = .skip ∧
      (n.role = some .name ∨ n.kind = .identifier) ∧ (s.child i n).Holds σ

variable {s σ : Site} {scope size : Nat} {e : Effect}

theorem respond_marks {v : Visit} (he : e ∈ (v.respond source size s).1) (hσ : e.site? = some σ) :
    v.Marks source size s σ := by
  have header {i : Nat} {n : Node} (hn : s.node.children[i]? = some n)
      (hskip : (v.respond source size s).2 n = .skip)
      (hname : n.role = some .name ∨ n.kind = .identifier) (hσ : (s.child i n).Holds σ) :
      v.Marks source size s σ := .inr ⟨i, n, hn, hskip, hname, hσ⟩
  have item {τ : Site} (hitem : τ ∈ s.parts .name) (hskip : ∀ n, (v.respond source size s).2 n = .skip)
      (hσ : τ.Holds σ) : v.Marks source size s σ := by
    obtain ⟨i, n, hn, hr, rfl⟩ := Site.exists_of_mem_parts hitem
    exact header hn (hskip n) (.inl hr) hσ
  have word {τ : Site} (hitem : τ ∈ s.namedChildren) (hi : τ.kind = .identifier)
      (hskip : ∀ n, (v.respond source size s).2 n = .skip) (hσ : τ.Holds σ) :
      v.Marks source size s σ := by
    obtain ⟨i, n, hn, rfl⟩ := Site.exists_of_mem_namedChildren hitem
    exact header hn (hskip n) (.inr hi) hσ
  cases does_of_mem_respond he with
  | function | comprehension | classBody => cases hσ
  | name hk hp =>
    cases hσ
    obtain ⟨i, n, hn, hr, rfl⟩ := Site.part?_eq_some hp
    refine header hn ?_ (.inl hr) List.suffix_rfl
    obtain hk | hk := hk <;> simp [Visit.respond, Visit.respondCode, hk, hr]
  | whole hk hitem =>
    cases hσ
    exact item hitem (by simp [Visit.respond, Visit.respondCode, hk]) List.suffix_rfl
  | aliased hk hitem _ hp =>
    cases hσ
    obtain ⟨i, n, -, -, rfl⟩ := Site.part?_eq_some hp
    refine item hitem ?_ (Site.holds_child _ i n)
    obtain hk | hk | hk := hk <;> simp [Visit.respond, Visit.respondCode, hk]
  | member hk hitem =>
    cases hσ
    refine item hitem ?_ List.suffix_rfl
    obtain hk | hk := hk <;> simp [Visit.respond, Visit.respondCode, hk]
  | declaresGlobal hk hitem hi | usesGlobal hk hitem hi | declaresNonlocal hk hitem hi =>
    cases hσ
    exact word hitem hi (by simp [Visit.respond, Visit.respondCode, hk]) List.suffix_rfl
  | assigns hk hs | stores hk hs | loads hk hs =>
    cases hσ
    exact .inl ⟨rfl, hk, by simp [Visit.respond, Visit.respondCode, hk, hs]⟩
  | parameter hk | pattern hk =>
    cases hσ
    exact .inl ⟨rfl, hk, by simp [Visit.respond, hk]⟩

theorem Visit.Marks.holds {v : Visit} (h : v.Marks source size s σ) : s.Holds σ := by
  obtain ⟨rfl, -, -⟩ | ⟨i, n, -, -, -, h⟩ := h
  · exact List.suffix_rfl
  · exact (s.holds_child i n).trans h

theorem Visit.Marks.apart {v v' : Visit} {size' : Nat} {s' : Site} (hm : v.Marks source size s σ)
    (h : Visited root source s v size) (h' : Visited root source s' v' size')
    (hs : s ∈ s'.ancestors) : ¬σ.Holds s' ∧ ¬s'.Holds σ := by
  obtain heq | ⟨w, size'', i, n, hw, hn, hnext, hchild⟩ := h'.descend hs
  · exact absurd heq h.ne_root
  obtain ⟨rfl, rfl⟩ := h.unique hw
  obtain ⟨-, -, hskip⟩ | ⟨j, m, hj, hskip, -, hσ⟩ := hm
  · exact absurd (hskip n) hnext
  have hij : i ≠ j := by
    rintro rfl
    rw [hn] at hj
    cases hj
    exact hnext hskip
  exact ⟨fun hle => hij (Site.eq_of_holds_child hchild (hσ.trans hle)),
    fun hle => hij (Site.eq_of_holds_child (hchild.trans hle) hσ)⟩

theorem exists_visited_of_holds {e' : Effect} {σ' : Site} (he : e ∈ ScopeTable.log root source)
    (he' : e' ∈ ScopeTable.log root source) (hσ : e.site? = some σ) (hσ' : e'.site? = some σ')
    (hholds : σ.Holds σ') : ∃ s v size, Visited root source s v size ∧
      e ∈ (v.respond source size s).1 ∧ e' ∈ (v.respond source size s).1 := by
  obtain ⟨s, v, size, h, he⟩ := exists_visited_of_mem_log he
  obtain ⟨s', v', size', h', he'⟩ := exists_visited_of_mem_log he'
  have hm := respond_marks he hσ
  have hm' := respond_marks he' hσ'
  have hcases : s = s' ∨ s ∈ s'.ancestors ∨ s' ∈ s.ancestors := by
    obtain hle | hle := (hm.holds.trans hholds).total hm'.holds
    · exact ((h.inTree.holds_iff h'.inTree).1 hle).imp_right .inl
    · exact ((h'.inTree.holds_iff h.inTree).1 hle).imp Eq.symm .inr
  obtain rfl | hs | hs := hcases
  · obtain ⟨rfl, rfl⟩ := h.unique h'
    exact ⟨s, v, size, h, he, he'⟩
  · obtain ⟨h₁, h₂⟩ := hm.apart h h' hs
    exact ((hholds.total hm'.holds).elim h₁ h₂).elim
  · exact ((hm'.apart h' h hs).2 (hm.holds.trans hholds)).elim

theorem exists_visited_of_comparable {e' : Effect} {σ' : Site} (he : e ∈ ScopeTable.log root source)
    (he' : e' ∈ ScopeTable.log root source) (hσ : e.site? = some σ) (hσ' : e'.site? = some σ')
    (hplace : σ.Holds σ' ∨ σ'.Holds σ) : ∃ s v size, Visited root source s v size ∧
      e ∈ (v.respond source size s).1 ∧ e' ∈ (v.respond source size s).1 := by
  obtain h | h := hplace
  · exact exists_visited_of_holds he he' hσ hσ' h
  · obtain ⟨s, v, size, hv, h₁, h₂⟩ := exists_visited_of_holds he' he hσ' hσ h
    exact ⟨s, v, size, hv, h₂, h₁⟩

end Effects

section Onward

variable {root : Node} {source : List Char} {s : Site} {n : Node} {v : Visit} {scope size : Nat}

theorem Kind.isImport_iff {k : Kind} :
    k.isImport = true ↔ k = .importStatement ∨ k = .importFromStatement := by
  simp [Kind.isImport]

namespace Visited

theorem exists_onward (h : Visited root source s v size) :
    (v = .code ScopeTable.moduleScope ∧ s.parent? = some (Site.root root)) ∨
      ∃ p w size' i n, s = p.child i n ∧ p.node.children[i]? = some n ∧
        Visited root source p w size' ∧ Visit.Onward size' p n w v := by
  cases h with
  | top => exact .inl ⟨rfl, rfl⟩
  | child h hn _ hnext => exact .inr ⟨_, _, _, _, _, rfl, hn, h, respond_onward hnext⟩

theorem isStatement_eq_false (hshape : root.All (Node.Shaped expressionEnclosure source))
    (h : Visited root source s v size) (hv : v = .pattern scope) : s.kind.isStatement = false := by
  induction h with
  | top => cases hv
  | @child s v size i n h hn _ hnext ih =>
    have hstep := respond_onward hnext
    rw [hv] at hstep
    have hs : s.kind.isStatement = false := by
      cases hstep with
      | name hk => obtain hk | hk := hk <;> rw [hk] <;> rfl
      | typed hk => rw [hk]; rfl
      | splat hk =>
        simp only [List.mem_cons, List.not_mem_nil, or_false] at hk
        obtain hk | hk | hk := hk <;> rw [hk] <;> rfl
      | pattern => exact ih rfl
    refine Node.All.isStatement_eq_false (fun m hm => hshape m (hm.trans h.inTree.within)) hs ?_
    exact .child (List.mem_of_getElem? hn) .self

theorem isImport_eq_false (hroot : root.kind = .module)
    (hexpression : root.All (Node.Shaped expressionEnclosure source))
    (hblock : root.All (Node.Shaped blockEnclosure source)) (h : Visited root source s v size)
    {q : Site} (hq : q ∈ s.ancestors) : q.kind.isImport = false := by
  obtain rfl | ⟨w, size', i, n, hw, hn, hnext, -⟩ := h.descend hq
  · rw [show (Site.root root).kind = .module from hroot]
    rfl
  have outer {p : Site} {j : Nat} {m : Node} (hp : p.InTree root) (hm : p.node.children[j]? = some m)
      (hk : blockEnclosure.outer p.kind = true) : (p.child j m).kind.isImport = false := by
    have := (hblock p.node hp.within).inner hk m (List.mem_of_getElem? hm)
    exact Bool.not_eq_true' _ ▸ this
  have function {p : Site} (hk : p.kind.isFunction = true) : blockEnclosure.outer p.kind = true := by
    simp only [Kind.isFunction, List.contains_iff_mem, List.mem_cons, List.not_mem_nil,
      or_false] at hk
    obtain hk | hk := hk <;> rw [hk] <;> rfl
  by_contra himport
  have hk := Kind.isImport_iff.1 (Bool.not_eq_false _ ▸ himport)
  have hword {k : Kind} (heq : q.kind = k) (hne : k.isImport = false) : False := by
    rw [heq] at himport
    exact himport hne
  have hstep := respond_onward hnext
  generalize (w.respond source size' q).2 n = u at hstep
  cases hstep with
  | parameters hk' | body hk' =>
    obtain hk | hk := hk <;> rw [hk] at hk' <;> cases hk'
  | result hk' | bases hk' | classBody hk' | object hk' | argument hk' | typed hk'
  | typing hk' => exact hword hk' rfl
  | comprehension hk' | ordinary hk' => obtain hk | hk := hk <;> rw [hk] at hk' <;> cases hk'
  | member =>
    obtain ⟨hcode, -⟩ | ⟨p, w', size'', j, m, rfl, hm, hp, hstep⟩ := hw.exists_onward
    · cases hcode
    · cases hstep with
      | classBody hk' => exact himport (outer hp.inTree hm (by rw [hk']; rfl))
  | parameter =>
    obtain ⟨hcode, -⟩ | ⟨p, w', size'', j, m, rfl, hm, hp, hstep⟩ := hw.exists_onward
    · cases hcode
    · cases hstep with
      | parameters hk' => exact himport (outer hp.inTree hm (function hk'))
  | name hk' | value hk' => exact hk'.elim (hword · rfl) (hword · rfl)
  | splat hk' => obtain hk | hk := hk <;> rw [hk] at hk' <;> simp at hk'
  | pattern =>
    have hstatement := hw.isStatement_eq_false hexpression rfl
    obtain hk | hk := hk <;> rw [hk] at hstatement <;> cases hstatement

end Visited

theorem exists_visited_of_isImport (hroot : root.kind = .module)
    (hexpression : root.All (Node.Shaped expressionEnclosure source))
    (hblock : root.All (Node.Shaped blockEnclosure source)) {e : Effect} {σ τ q : Site}
    (he : e ∈ ScopeTable.log root source) (hσ : e.site? = some σ) (hq : q.InTree root)
    (himport : q.kind.isImport = true) (hqτ : q.Holds τ) (hplace : σ.Holds τ ∨ τ.Holds σ) :
    ∃ v size, Visited root source q v size ∧ e ∈ (v.respond source size q).1 := by
  obtain ⟨s, v, size, h, he⟩ := exists_visited_of_mem_log he
  have hm := respond_marks he hσ
  have hcases : s = q ∨ q ∈ s.ancestors ∨ s ∈ q.ancestors := by
    have htotal : s.Holds q ∨ q.Holds s := by
      obtain hle | hle := hplace
      · exact (hm.holds.trans hle).total hqτ
      · exact hm.holds.total (hqτ.trans hle)
    obtain hle | hle := htotal
    · exact ((h.inTree.holds_iff hq).1 hle).imp_right .inr
    · exact ((hq.holds_iff h.inTree).1 hle).imp Eq.symm .inl
  obtain rfl | hqs | hsq := hcases
  · exact ⟨v, size, h, he⟩
  · rw [h.isImport_eq_false hroot hexpression hblock hqs] at himport
    cases himport
  -- Neither a word nor a name holds a statement.
  · obtain ⟨i, n, hn, hchild⟩ := hq.exists_child hsq
    obtain ⟨-, hk, -⟩ | ⟨j, m, hm, -, hname, hmσ⟩ := hm
    · rw [((hexpression s.node h.inTree.within).word hk).1] at hn
      cases hn
    · have hij : i = j := by
        obtain hle | hle := hplace
        · exact Site.eq_of_holds_child (hchild.trans hqτ) (hmσ.trans hle)
        · exact Site.eq_of_holds_child ((hchild.trans hqτ).trans hle) hmσ
      subst hij
      rw [hn] at hm
      cases hm
      have hmem := List.mem_of_getElem? hn
      have hstatement : n.kind.isStatement = false := by
        obtain hr | hk := hname
        · have := (hexpression s.node h.inTree.within).suits n hmem .name (by decide) hr
          simpa [expressionEnclosure] using this
        · rw [hk]
          rfl
      have hwithin : q.node.Within n := by
        obtain heq | hmem := ((h.inTree.child hn).holds_iff hq).1 hchild
        · rw [← heq]
          exact .self
        · exact Site.within_of_mem_ancestors hq _ hmem
      have hfalse := Node.All.isStatement_eq_false
        (fun d hd => hexpression d (hd.trans (h.inTree.child hn).within)) hstatement hwithin
      change q.kind.isStatement = false at hfalse
      obtain hk | hk := Kind.isImport_iff.1 himport <;> rw [hk] at hfalse <;> cases hfalse

end Onward

end Reroot.Python

import Reroot.Proofs.Python.Declared
import Reroot.Proofs.Python.Lookup
import Reroot.Proofs.Python.Spelling

namespace Reroot.Python

def Node.OneObject (n : Node) : Prop :=
  n.kind = .attribute → (n.parts .object).length ≤ 1

theorem Node.oneObject_of_kind {n : Node} (h : n.kind ≠ .attribute) : n.OneObject :=
  fun hk => absurd hk h

structure Node.Unclaimed (n : Node) : Prop where
  role : n.role ≠ some .object
  inner : n.All OneObject

theorem oneObject_targetStable : TargetStable Node.OneObject := by
  intro n n' hk _ _ _
  apply Node.oneObject_of_kind
  intro hk'
  simp [hk', targetPatterns] at hk

theorem targets?_unclaimed {ns ns' : List Node} (h : targets? ns = some ns')
    (hns : ∀ n ∈ ns, n.Unclaimed) : ∀ n ∈ ns', n.Unclaimed := by
  have hinner := (targets?_all oneObject_targetStable ns ns' h fun n hn => (hns n hn).inner).2
  intro n' hn'
  obtain ⟨n, hn, htarget⟩ := exists_of_mem_targets? h n' hn'
  exact ⟨asTarget?_role htarget ▸ (hns n hn).role, hinner n' hn'⟩

namespace Gram

def claimsOnce {ρ : Type} : Gram ρ → Bool
  | then_ a b =>
    match a, b with
    | then_ (then_ (tag .object) (tok _)) (then_ (ident _) (tag .attribute)), pack .attribute => true
    | _, _ => claimsOnce a && claimsOnce b
  | or_ a b => claimsOnce a && claimsOnce b
  | many a | fresh a | within _ a => claimsOnce a
  | tag r => r != .object
  | pack k | packMany k => k != .attribute
  | _ => true

theorem claimsOnce_phrase (r : Rule) : (Rule.phrase r).claimsOnce = true := by
  revert r
  decide +kernel

section Read

variable {ρ : Type} {rules : ρ → Gram ρ} {g : Gram ρ} {fuel : Nat} {follow : Expect} {lo : Nat}
  {ns ns' : List Node} {c c' : Cursor} {text : List Char}

theorem unclaimed_leaf {k : Kind} {w : Nat} : (c.leaf k w).Unclaimed :=
  ⟨by simp [Cursor.leaf, Node.role], Node.all_mk_iff.2
    ⟨fun _ => by simp [Node.parts, Node.children], by simp⟩⟩

theorem unclaimed_spanning {k : Kind} (hk : k ≠ .attribute) (h : ∀ n ∈ ns, n.Unclaimed)
    (here : Nat) : (Node.spanning k here ns.reverse).Unclaimed :=
  ⟨by simp [Node.spanning, Node.role], Node.all_mk_iff.2 ⟨Node.oneObject_of_kind hk,
    fun n hn => (h n (List.mem_reverse.1 hn)).inner⟩⟩

theorem unclaimed_attribute {i m o : Node} (hi : i.Unclaimed) (hm : m.Unclaimed) (ho : o.Unclaimed)
    (h : ∀ n ∈ ns, n.Unclaimed) (here : Nat) :
    (Node.spanning .attribute here
      (i.withRole .attribute :: m :: o.withRole .object :: ns).reverse).Unclaimed := by
  have relabelled {n : Node} {r : Role} (hn : n.Unclaimed) : (n.withRole r).All Node.OneObject :=
    (Node.all_iff _).2 ⟨hn.inner.self, fun _ hc => hn.inner.child hc⟩
  refine ⟨by simp [Node.spanning, Node.role], Node.all_mk_iff.2 ⟨fun _ => ?_, fun n hn => ?_⟩⟩
  · have hns : ns.filter (fun n => n.role == some .object) = [] :=
      List.filter_eq_nil_iff.2 fun n hn => by simpa using (h n hn).role
    have hdot : (m.role == some .object) = false := by simpa using hm.role
    change (List.filter _ (List.reverse _)).length ≤ 1
    rw [List.filter_reverse, List.length_reverse, List.filter_cons_of_neg (by rintro ⟨⟩),
      List.filter_cons_of_neg (by simp [hdot]), List.filter_cons_of_pos rfl, hns]
    exact Nat.le_refl 1
  · obtain rfl | hn := List.mem_cons.1 (List.mem_reverse.1 hn)
    · exact relabelled hi
    obtain rfl | hn := List.mem_cons.1 hn
    · exact hm.inner
    obtain rfl | hn := List.mem_cons.1 hn
    · exact relabelled ho
    · exact (h n hn).inner

theorem read_attribute_unclaimed {t : String} {rs : List String} (hc : Progress.Sound text lo ns c)
    (h : ∀ n ∈ ns, n.Unclaimed)
    (hr : (then_ (then_ (then_ (tag .object) (tok t)) (then_ (ident rs) (tag .attribute)))
      (pack .attribute)).read rules fuel follow ns c = some (ns', c')) :
    ∀ n ∈ ns', n.Unclaimed := by
  obtain ⟨o, rest, a, b, v, w, -, -, -, rfl, -, rfl⟩ := exists_of_read_attribute hc hr
  obtain ⟨ho, hrest⟩ := List.forall_mem_cons.1 h
  intro n hn
  obtain rfl := List.mem_singleton.1 hn
  exact unclaimed_attribute unclaimed_leaf unclaimed_leaf ho hrest _

theorem read_unclaimed (hrules : ∀ r, (rules r).claimsOnce = true) (hg : g.claimsOnce = true)
    (hc : Progress.Sound text lo ns c) (h : ∀ n ∈ ns, n.Unclaimed)
    (hr : g.read rules fuel follow ns c = some (ns', c')) : ∀ n ∈ ns', n.Unclaimed := by
  induction fuel generalizing g follow lo ns ns' c c' with
  | zero => cases hr
  | succ fuel ih =>
    cases reading_of_read hc.cursor hr with
    | then_ ha hb =>
      unfold claimsOnce at hg
      split at hg
      · exact read_attribute_unclaimed hc h hr
      · obtain ⟨hga, hgb⟩ := Bool.and_eq_true_iff.1 hg
        exact ih hgb (read_sound rules hc ha).1 (ih hga hc h ha) hb
    | left ha => exact ih (Bool.and_eq_true_iff.1 hg).1 hc h ha
    | right hb => exact ih (Bool.and_eq_true_iff.1 hg).2 hc h hb
    | @more a _ _ _ _ _ _ ha hmore =>
      have hga : a.claimsOnce = true := hg
      exact ih hg (read_sound rules hc ha).1 (ih hga hc h ha) hmore
    | call hr => exact ih (hrules _) hc h hr
    | @fresh a _ _ _ _ ha =>
      have hga : a.claimsOnce = true := hg
      exact List.forall_mem_append.2 ⟨ih hga (Progress.sound_nil hc.cursor) (by simp) ha, h⟩
    | @within _ a _ _ _ _ ha =>
      have hga : a.claimsOnce = true := hg
      exact ih hga hc h ha
    | tag =>
      obtain ⟨hn, hrest⟩ := List.forall_mem_cons.1 h
      refine List.forall_mem_cons.2 ⟨⟨fun hrole => ?_, (Node.all_iff _).2 ⟨hn.inner.self,
        fun _ hc => hn.inner.child hc⟩⟩, hrest⟩
      exact bne_iff_ne.1 hg (Option.some.inj hrole)
    | pack | packMany => simpa using unclaimed_spanning (bne_iff_ne.1 hg) h _
    | target hns => exact targets?_unclaimed hns h
    | token => exact List.forall_mem_cons.2 ⟨unclaimed_leaf, h⟩
    | silent | enough | single => exact h

end Read

end Gram

theorem Node.OneObject.weave {text : List Char} {r : Option Role} {k : Kind} {s : Span}
    {cs es : List Node} (h : (Node.mk r k s cs).OneObject) (hes : ∀ e ∈ es, e.IsExtra text) :
    (Node.mk r k s (weaveAll cs es)).OneObject := by
  intro hk
  have hextra : ∀ e ∈ es, (e.role == some .object) = false := fun e he => by
    rw [(hes e he).role]
    rfl
  have hparts := congrArg List.length (filter_weaveAll cs
    (fun a b heq => by rw [show a.role = b.role from congrArg Prod.fst heq]) hextra)
  rw [List.length_map, List.length_map] at hparts
  exact hparts.trans_le (h hk)

theorem parse?_oneObject {source : String} {root : Node} (h : parse? source = some root) :
    root.All Node.OneObject := by
  refine parse?_all (fun n hk => ?_) (fun e he => ?_) (fun r k s cs es hn hes => hn.weave hes)
    (fun fuel n c hr => ?_) h
  · exact Node.oneObject_of_kind (by simp [hk])
  · apply Node.oneObject_of_kind
    obtain hk | hk := he.kind <;> simp [hk]
  · exact (Gram.read_unclaimed Gram.claimsOnce_phrase rfl
      (Progress.sound_nil (Cursor.sound_ofText source.toList)) (by simp) hr n (by simp)).inner

theorem eq_of_length_filter_le_one {α : Type} {l : List α} {p : α → Bool}
    (h : (l.filter p).length ≤ 1) {i j : Nat} {a b : α} (hi : l[i]? = some a) (hj : l[j]? = some b)
    (ha : p a = true) (hb : p b = true) : i = j := by
  have later {x : α} {xs : List α} {j : Nat} {b : α} (h : ((x :: xs).filter p).length ≤ 1)
      (hx : p x = true) (hj : xs[j]? = some b) (hb : p b = true) : False := by
    rw [List.filter_cons_of_pos hx, List.length_cons] at h
    have hmem := List.mem_filter.2 ⟨List.mem_of_getElem? hj, hb⟩
    have := List.length_pos_of_mem hmem
    omega
  induction l generalizing i j with
  | nil => cases hi
  | cons x xs ih =>
    cases i with
    | zero =>
      cases j with
      | zero => rfl
      | succ j =>
        cases hi
        exact (later h ha hj hb).elim
    | succ i =>
      cases j with
      | zero =>
        cases hj
        exact (later h hb hi ha).elim
      | succ j =>
        have hle := ((List.sublist_cons_self x xs).filter p).length_le.trans h
        exact congrArg Nat.succ (ih hle hi hj)

section Chain

variable {root : Node} {source : String} {s p : Site} {k size : Nat} {u v : Use}

theorem Node.OneObject.eq {n c d : Node} {i j : Nat} (h : n.OneObject) (hk : n.kind = .attribute)
    (hc : n.children[i]? = some c) (hd : n.children[j]? = some d) (hcr : c.role = some .object)
    (hdr : d.role = some .object) : i = j :=
  eq_of_length_filter_le_one (l := n.children) (h hk) hc hd (beq_iff_eq.2 hcr) (beq_iff_eq.2 hdr)

theorem Visited.of_object (hparse : parse? source = some root)
    (h : Visited root source.toList s (.code k) size) (hp : s.parent? = some p)
    (hk : p.kind = .attribute) : ∃ size', Visited root source.toList p (.code k) size' := by
  obtain ⟨-, hroot⟩ | ⟨q, w, size', i, n, rfl, hn, hq, hstep⟩ := h.exists_onward
  · rw [hp, Option.some.injEq] at hroot
    rw [hroot, show (Site.root root).kind = .module from parse?_kind hparse] at hk
    cases hk
  cases hp
  cases hstep with
  | object => exact ⟨size', hq⟩
  | body hk' | comprehension hk' | ordinary hk' => rw [hk] at hk'; cases hk'
  | result hk' | bases hk' | argument hk' | typing hk' => rw [hk] at hk'; cases hk'
  | value hk' => obtain hk' | hk' := hk' <;> rw [hk] at hk' <;> cases hk'
  | member =>
    obtain ⟨c, j, m, rfl, hm, hclass, -⟩ := hq.agrees
    obtain ⟨-, -, -, hin⟩ := hq.inTree.eq_child_of_parent? rfl
    have hinner := (parse?_shaped classEnclosure_lawful hparse c.node hin.within).inner
      (beq_iff_eq.2 hclass) m (List.mem_of_getElem? hm.child)
    exact absurd hk (bne_iff_ne.1 hinner)

theorem Spells.visited {base top : Site} {segments : List String} {stop : Nat}
    (hparse : parse? source = some root) (h : Spells source.toList base top segments stop)
    (hbase : Visited root source.toList base (.code k) size) :
    ∃ size', Visited root source.toList top (.code k) size' := by
  induction h with
  | name => exact ⟨size, hbase⟩
  | field _ hp hk _ _ ih =>
    obtain ⟨size', hs⟩ := ih
    exact hs.of_object hparse hp hk

theorem Visited.exists_object (hparse : parse? source = some root)
    (hp : Visited root source.toList p (.code k) size) (hk : p.kind = .attribute)
    (hv : v ∈ (ScopeTable.build root source.toList).uses) (hin : p ∈ v.site.ancestors) :
    ∃ i n, p.node.children[i]? = some n ∧ n.role = some .object ∧ (p.child i n).Holds v.site := by
  obtain ⟨s, size', hs, hholds, hcases⟩ := exists_visited_of_use hv
  have hmem : p ∈ s.ancestors := by
    obtain ⟨rfl, -⟩ | ⟨hk', -, hparent⟩ := hcases
    · exact hin
    · have hvin := (isUsed_of_mem_uses (parse?_kind hparse)
        (parse?_shaped classEnclosure_lawful hparse) v hv).1.inTree
      obtain ⟨i, heq, -, -⟩ := hvin.eq_child_of_parent? hparent
      rw [heq, Site.ancestors_child] at hin
      refine (List.mem_cons.1 hin).resolve_left fun hps => ?_
      rw [hps, hk'] at hk
      cases hk
  obtain rfl | ⟨w, size'', i, n, hw, hn, hnext, hchild⟩ := hs.descend hmem
  · exact absurd rfl hp.ne_root
  · obtain ⟨rfl, -⟩ := hp.unique hw
    have hstep := respond_onward hnext
    generalize (Visit.respond source.toList (.code k) size'' p).2 n = w at hstep
    cases hstep with
    | object _ hr => exact ⟨i, n, hn, hr, hchild.trans hholds⟩
    | parameters hk' | body hk' | comprehension hk' | ordinary hk' => rw [hk] at hk'; cases hk'
    | result hk' | bases hk' | classBody hk' | argument hk' => rw [hk] at hk'; cases hk'

theorem Visited.holds_of_isPart (hparse : parse? source = some root)
    (hp : Visited root source.toList p (.code k) size) (hk : p.kind = .attribute)
    (hs : s.InTree root) (hparent : s.parent? = some p) (hpart : s.isPart .object = true)
    (hv : v ∈ (ScopeTable.build root source.toList).uses) (hholds : p.Holds v.site) :
    s.Holds v.site := by
  have hused := (isUsed_of_mem_uses (parse?_kind hparse)
    (parse?_shaped classEnclosure_lawful hparse) v hv).1
  have hin : p ∈ v.site.ancestors := by
    refine ((hp.inTree.holds_iff hused.inTree).1 hholds).resolve_left fun heq => ?_
    rw [heq, hused.kind] at hk
    cases hk
  obtain ⟨i, n, hn, hr, hchild⟩ := hp.exists_object hparse hk hv hin
  obtain ⟨j, heq, hj, -⟩ := hs.eq_child_of_parent? hparent
  obtain rfl : i = j := (parse?_oneObject hparse p.node hp.inTree.within).eq hk hn hj hr
    (Site.role_of_isPart hs hpart)
  rw [hn, Option.some.injEq] at hj
  rw [heq, ← hj]
  exact hchild

theorem Spells.eq_of_holds {top : Site} {segments : List String} {stop : Nat}
    (hparse : parse? source = some root) (hu : u ∈ (ScopeTable.build root source.toList).uses)
    (hkind : u.kind = .load) (hv : v ∈ (ScopeTable.build root source.toList).uses)
    (h : Spells source.toList u.site top segments stop) (hholds : top.Holds v.site) :
    u.site = v.site := by
  have used {w : Use} (hw : w ∈ (ScopeTable.build root source.toList).uses) :=
    (isUsed_of_mem_uses (parse?_kind hparse) (parse?_shaped classEnclosure_lawful hparse) w hw).1
  obtain ⟨s, size, hbase, -, ⟨rfl, -⟩ | ⟨-, hglobal, -⟩⟩ := exists_visited_of_use hu
  · induction h with
    | name => exact (used hu).inTree.eq_of_holds_word hparse (used hv).inTree (used hu).kind hholds
    | field h hp hk hobject ha ih =>
      obtain ⟨size', hs⟩ := h.visited hparse hbase
      obtain ⟨size'', hp'⟩ := hs.of_object hparse hp hk
      exact ih (hp'.holds_of_isPart hparse hk hs.inTree hp hobject hv hholds)
  · rw [hkind] at hglobal
    cases hglobal

end Chain

structure InOrder (source : List Char) (lo hi : Nat) (es : List Effect) : Prop where
  bounds : ∀ u ∈ es.filterMap (Effect.use? source), lo ≤ u.site.start ∧ u.site.stop ≤ hi
  ordered : (es.filterMap (Effect.use? source)).Pairwise fun u v => u.site.stop ≤ v.site.start

section Order

variable {source : List Char} {es fs : List Effect} {lo mid hi : Nat} {s : Site}

theorem inOrder_of_forall (h : ∀ e ∈ es, e.use? source = none) : InOrder source lo hi es := by
  have hnil : es.filterMap (Effect.use? source) = [] := List.filterMap_eq_nil_iff.2 h
  constructor <;> rw [hnil] <;> simp

theorem InOrder.append (hes : InOrder source lo mid es) (hfs : InOrder source mid hi fs)
    (hlo : lo ≤ mid) (hhi : mid ≤ hi) : InOrder source lo hi (es ++ fs) := by
  constructor <;> rw [List.filterMap_append]
  · refine List.forall_mem_append.2 ⟨fun u hu => ?_, fun u hu => ?_⟩
    · have := hes.bounds u hu
      omega
    · have := hfs.bounds u hu
      omega
  · refine List.pairwise_append.2 ⟨hes.ordered, hfs.ordered, fun u hu v hv => ?_⟩
    exact (hes.bounds u hu).2.trans (hfs.bounds v hv).1

theorem Site.pairwise_namedChildren (hp : s.node.Placed source) :
    s.namedChildren.Pairwise fun a b => a.stop ≤ b.start := by
  have hnodes : s.namedChildren.map (·.node) = s.node.namedChildren := by
    unfold Site.namedChildren Node.namedChildren
    conv_rhs => rw [← List.zipIdx_map_fst 0 s.node.children, List.filter_map]
    rw [List.map_map]
    rfl
  have hordered : s.node.namedChildren.Pairwise fun a b => a.stop ≤ b.start :=
    hp.self.ordered.filter _
  rw [← hnodes] at hordered
  exact List.pairwise_map.1 hordered

theorem respond_inOrder (v : Visit) (size : Nat) (s : Site) (hp : s.node.Placed source) :
    (∀ e ∈ (v.respond source size s).1, e.use? source = none) ∨
      InOrder source s.start s.stop (v.respond source size s).1 ∧
        ∀ c, (v.respond source size s).2 c = .skip := by
  by_cases hnone : ∀ e ∈ (v.respond source size s).1, e.use? source = none
  · exact .inl hnone
  simp only [not_forall] at hnone
  obtain ⟨e, he, hused⟩ := hnone
  obtain ⟨k, kind, σ, rfl⟩ : ∃ k kind σ, e = .used k kind σ := by
    cases e with
    | used k kind σ => exact ⟨k, kind, σ, rfl⟩
    | opened | bound | declaredGlobal | declaredNonlocal => exact absurd rfl hused
  right
  obtain ⟨k, rfl, ⟨item, hitem, -, ⟨hk, -⟩ | ⟨-, heq⟩⟩ | ⟨kind, -, heq⟩⟩ := exists_of_not_isPlain he id
  · have hresponse : Visit.respond source (.code k) size s =
        ((s.namedChildren.filter (·.kind == .identifier)).flatMap fun item =>
          [.declaredGlobal k item, .used k .globalDecl item], fun _ => .skip) := by
      rw [Visit.respond, Visit.respondCode, hk]
    have huses (items : List Site) : (items.flatMap fun item =>
        [Effect.declaredGlobal k item, .used k .globalDecl item]).filterMap (Effect.use? source) =
          items.map fun item => ⟨item.node.text source, k, .globalDecl, item⟩ := by
      induction items with
      | nil => rfl
      | cons item items ih =>
        rw [List.flatMap_cons, List.filterMap_append, ih]
        rfl
    rw [hresponse]
    refine ⟨⟨?_, ?_⟩, fun _ => rfl⟩ <;> rw [huses]
    · intro u hu
      obtain ⟨item, hitem, rfl⟩ := List.mem_map.1 hu
      obtain ⟨i, n, hn, rfl⟩ := Site.exists_of_mem_namedChildren (List.mem_filter.1 hitem).1
      exact hp.self.inside n (List.mem_of_getElem? hn)
    · exact List.pairwise_map.2 ((Site.pairwise_namedChildren hp).filter _)
  · cases heq
  · obtain ⟨-, -, rfl⟩ := Effect.used.inj heq
    obtain ⟨-, hk, hskip⟩ | ⟨i, n, -, -, -, hchild⟩ := respond_marks he rfl
    · refine ⟨?_, hskip⟩
      have hsingle : ∃ kind, (Visit.respond source (.code k) size σ).1.filterMap (Effect.use? source) =
          [⟨σ.node.text source, k, kind, σ⟩] := by
        rw [Visit.respond, Visit.respondCode, hk]
        dsimp only
        split
        · exact ⟨.store, rfl⟩
        · exact ⟨.load, rfl⟩
      obtain ⟨kind, hsingle⟩ := hsingle
      constructor <;> rw [hsingle]
      · intro u hu
        obtain rfl := List.mem_singleton.1 hu
        exact ⟨Nat.le_refl _, Nat.le_refl _⟩
      · exact List.pairwise_singleton _ _
    · exact absurd hchild.length_le (Nat.not_succ_le_self _)

theorem tourAll_of_skip {cs : List Node} {i : Nat} {next : Node → Visit} {address : Address}
    {above : List Node} {size : Nat} (h : ∀ c, next c = .skip) :
    Visit.tourAll source cs i next address above size = [] := by
  induction cs generalizing i size with
  | nil => rfl
  | cons c cs ih =>
    rw [Visit.tourAll, h c, ih]
    simp

mutual

theorem tour_inOrder :
    ∀ (n : Node) (v : Visit) (address : Address) (above : List Node) (size : Nat),
      n.Placed source → InOrder source n.start n.stop (Visit.tour source n v address above size)
  | .mk r k s cs, v, address, above, size, hp => by
    unfold Visit.tour
    dsimp only
    have hle := hp.self.start_le_stop
    obtain hnone | ⟨horder, hskip⟩ := respond_inOrder v size ⟨.mk r k s cs, address, above⟩ hp
    · exact (inOrder_of_forall hnone).append (tourAll_inOrder cs 0 _ address _ _ hle
        ⟨fun c hc => hp.child hc, hp.self.inside, hp.self.ordered⟩) (Nat.le_refl _) hle
    · rw [tourAll_of_skip hskip, List.append_nil]
      exact horder

theorem tourAll_inOrder :
    ∀ (cs : List Node) (i : Nat) (next : Node → Visit) (address : Address) (above : List Node)
      (size : Nat) {lo hi : Nat}, lo ≤ hi → Row source lo hi cs →
        InOrder source lo hi (Visit.tourAll source cs i next address above size)
  | [], _, _, _, _, _, _, _, _, _ => inOrder_of_forall (by simp [Visit.tourAll])
  | c :: cs, i, next, address, above, size, lo, hi, _, hrow => by
    have hc := hrow.placed c (by simp)
    have hbounds := hrow.bounds c (by simp)
    have hle := hc.self.start_le_stop
    obtain ⟨hafter, hordered⟩ := List.pairwise_cons.1 hrow.ordered
    have hrest : Row source c.stop hi cs := ⟨fun d hd => hrow.placed d (by simp [hd]),
      fun d hd => ⟨hafter d hd, (hrow.bounds d (by simp [hd])).2⟩, hordered⟩
    unfold Visit.tourAll
    refine InOrder.append ?_ (tourAll_inOrder cs (i + 1) next address above _ hbounds.2 hrest)
      (hbounds.1.trans hle) hbounds.2
    split
    · have horder := tour_inOrder c (next c) (i :: address) above size hc
      refine ⟨fun u hu => ?_, horder.ordered⟩
      have := horder.bounds u hu
      omega
    · exact inOrder_of_forall (by simp)

end

theorem pairwise_uses {root : Node} (hp : root.Placed source) :
    (ScopeTable.build root source).uses.Pairwise fun u v => u.site.stop ≤ v.site.start := by
  rw [ScopeTable.uses_build]
  exact (tourAll_inOrder root.children 0 _ [] [root] 1 hp.self.start_le_stop
    ⟨fun c hc => hp.child hc, hp.self.inside, hp.self.ordered⟩).ordered

end Order

end Reroot.Python

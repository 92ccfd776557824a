import Reroot.Python.Rename
import Reroot.Proofs.Python.Exactness
import Reroot.Proofs.Python.Flow

namespace Reroot.Python

theorem flow?_of_isSimpleStatement {k : Kind} (h : k.isSimpleStatement = true) : k.flow? = none := by
  simp only [Kind.isSimpleStatement, List.contains_eq_mem, List.mem_cons, List.not_mem_nil, or_false,
    decide_eq_true_eq] at h
  obtain rfl | rfl | rfl | rfl | rfl := h <;> rfl

structure Site.Open (root : Node) (s c : Site) : Prop where
  inTree : s.InTree root
  inside : c ∈ s.ancestors
  flow : ∀ a ∈ s.ancestors, c ∈ a.ancestors → a.kind.flow? ≠ none

structure Entry.Anchored (root : Node) (c st : Site) (e : Entry) : Prop where
  site : e.site.InTree root
  mem : st ∈ e.site.ancestors
  simple : st.kind.isSimpleStatement = true
  isOpen : st.Open root c

def Point.Open (root : Node) (c : Site) : Point → Prop
  | whole s => s.Open root c
  | rest f s _ => s = c ∧ c.InTree root ∧ f = .sequence ∨ s.Open root c ∧ s.kind.flow? = some f

section Anchored

variable {root : Node} {c s st : Site} {e : Entry} {f : Flow} {i : Nat} {n : Node}

theorem Point.Open.inTree (h : (Point.rest f s i).Open root c) : s.InTree root := by
  obtain ⟨rfl, hc, -⟩ | ⟨hs, -⟩ := h
  · exact hc
  · exact hs.inTree

theorem Point.Open.child (h : (Point.rest f s i).Open root c) {j : Nat}
    (hn : s.node.children[j]? = some n) : (s.child j n).Open root c := by
  refine ⟨h.inTree.child hn, ?_, ?_⟩
  · rw [Site.ancestors_child, List.mem_cons]
    obtain ⟨rfl, -⟩ | ⟨hs, -⟩ := h
    · exact .inl rfl
    · exact .inr hs.inside
  · intro a ha hca
    rw [Site.ancestors_child] at ha
    obtain ⟨rfl, hc, -⟩ | ⟨hs, hf⟩ := h
    · obtain rfl | ha := List.mem_cons.1 ha
      · exact absurd rfl (hc.ne_of_mem_ancestors hca)
      · exact absurd rfl (hc.ne_of_mem_ancestors (hc.mem_ancestors_trans ha hca))
    · obtain rfl | ha := List.mem_cons.1 ha
      · simp [hf]
      · exact hs.flow a ha hca

theorem Entry.Anchored.holds_site (he : e.Anchored root c st) : st.Holds e.site :=
  (he.site.suffix_of_mem_ancestors st he.mem).1

theorem Entry.Anchored.holds (he : e.Anchored root c st) (hs : s.Open root c)
    (h : s.Holds e.site) : s.Holds st := by
  obtain h | h := h.total he.holds_site
  · exact h
  · obtain rfl | hmem := (he.isOpen.inTree.holds_iff hs.inTree).1 h
    · exact List.suffix_rfl
    · exact absurd (flow?_of_isSimpleStatement he.simple) (hs.flow st hmem he.isOpen.inside)

theorem Site.Open.eq_of_holds (hs : s.Open root c) (hst : st.Open root c) (h : s.Holds st)
    (hflow : s.kind.flow? = none) : s = st := by
  obtain rfl | hmem := (hs.inTree.holds_iff hst.inTree).1 h
  · rfl
  · exact absurd hflow (hst.flow s hmem hs.inside)

end Anchored

section Runs

variable {root : Node} {text : List Char} {c load : Site} {E : List Entry} {stmt : Entry → Site}
  {p : Point} {trace : List Entry} {x : Exit}

theorem Runs.before_or_looped (hp : root.Placed text) (hE : ∀ e ∈ E, e.Anchored root c (stmt e))
    (hload : load.InTree root) (htargets : ∀ e ∈ E, ¬load.IsAmongTargets (stmt e))
    (h : Runs E load p trace x) (hopen : p.Open root c) (hx : x = .here) :
    ∀ e ∈ trace, (stmt e).stop ≤ load.start ∨
      ∃ l : Site, l.Open root c ∧ l.kind.flow? = some .loop ∧ l.Holds load ∧ l.Holds (stmt e) := by
  -- What was run before the part with the load comes before it in the text, unless it is a loop.
  have step {f : Flow} {s : Site} {i : Nat} {n : Node} {trace' : List Entry}
      (hopen : (Point.rest f s i).Open root c) (hn : s.node.children[i]? = some n)
      {e : Entry} (he : e ∈ E ∧ (s.child i n).Holds e.site)
      (h' : Runs E load (.rest f s (i + 1)) trace' .here) :
      (stmt e).stop ≤ load.start ∨
        ∃ l : Site, l.Open root c ∧ l.kind.flow? = some .loop ∧ l.Holds load ∧ l.Holds (stmt e) := by
    have hchild := (hE e he.1).holds (hopen.child hn) he.2
    obtain ⟨j, m, hj, hm, hmload⟩ := h'.holds_load rfl
    obtain rfl | hj := hj
    · obtain ⟨-, -, hf⟩ | ⟨hs, hf⟩ := hopen
      · cases hf
      · exact .inr ⟨s, hs, hf, (s.holds_child j m).trans hmload, (s.holds_child i n).trans hchild⟩
    · exact .inl (Site.InTree.stop_le_start hp hopen.inTree (hE e he.1).isOpen.inTree hload hn hm
        hchild hmload hj)
  induction h with
  | statement | broken | finished | unwound => cases hx
  | @loaded s trace hk htrace hsload hnone =>
    intro e he
    obtain ⟨heE, hse⟩ := mem_madeIn.1 (htrace.subset he)
    obtain rfl := Site.Open.eq_of_holds hopen (hE e heE).isOpen ((hE e heE).holds hopen hse)
      (flow?_of_isSimpleStatement hk)
    obtain rfl | hamong := hnone
    · simp at he
    · exact absurd hamong (htargets e heE)
  | @other s trace x hk hflow htrace =>
    intro e he
    obtain ⟨heE, hse⟩ := mem_madeIn.1 (htrace e he)
    obtain rfl := Site.Open.eq_of_holds hopen (hE e heE).isOpen ((hE e heE).holds hopen hse) hflow
    rw [(hE e heE).simple] at hk
    cases hk
  | parts hflow _ ih => exact ih (.inr ⟨hopen, hflow⟩) hx
  | passed hn h h' ih ih' =>
    intro e he
    obtain he | he := List.mem_append.1 he
    · exact step hopen hn (h.made e he) (hx ▸ h')
    · exact ih' hopen hx e he
  | caught hf hn h h' ih ih' =>
    intro e he
    obtain he | he := List.mem_append.1 he
    · exact step hopen hn (h.made e he) (hx ▸ h')
    · exact ih' hopen hx e he
  | stopped hn _ _ ih => exact ih (hopen.child hn) hx
  | skipped _ _ ih => exact ih hopen hx
  | again _ ih => exact ih hopen hx

structure Site.Straight (root : Node) (g c st : Site) : Prop where
  base : g = c ∨ g.Open root c ∧ g.kind.flow? = some .sequence
  inside : g ∈ st.ancestors
  sequence : ∀ a ∈ st.ancestors, g ∈ a.ancestors → a.kind.flow? = some .sequence

def EndsLate (stmt : Entry → Site) (st : Site) (trace : List Entry) : Prop :=
  ∃ e, trace.getLast? = some e ∧ st.stop ≤ (stmt e).stop

section EndsLate

variable {st : Site} {trace trace' : List Entry}

theorem EndsLate.append (h : EndsLate stmt st trace') : EndsLate stmt st (trace ++ trace') := by
  obtain ⟨e, hlast, hle⟩ := h
  exact ⟨e, by rw [List.getLast?_append, hlast, Option.some_or], hle⟩

theorem EndsLate.append_of_forall (h : EndsLate stmt st trace)
    (h' : ∀ e ∈ trace', st.stop ≤ (stmt e).stop) : EndsLate stmt st (trace ++ trace') := by
  cases hlast : trace'.getLast? with
  | none =>
    rw [List.getLast?_eq_none_iff.1 hlast, List.append_nil]
    exact h
  | some e =>
    exact ⟨e, by rw [List.getLast?_append, hlast, Option.some_or],
      h' e (List.mem_of_getLast? hlast)⟩

end EndsLate

theorem Runs.later (hp : root.Placed text) (hE : ∀ e ∈ E, e.Anchored root c (stmt e)) {s st : Site}
    {i k : Nat} {n : Node} (h : Runs E load (.rest .sequence s i) trace x)
    (hopen : (Point.rest .sequence s i).Open root c) (hst : st.InTree root)
    (hn : s.node.children[k]? = some n) (hchild : (s.child k n).Holds st) (hk : k < i) :
    ∀ e ∈ trace, st.stop ≤ (stmt e).stop := by
  intro e he
  obtain ⟨heE, j, m, hj, hm, hmsite⟩ := h.made e he
  have hmstmt := (hE e heE).holds (hopen.child hm) hmsite
  have hin := (hE e heE).isOpen.inTree
  have hij : i ≤ j := hj.resolve_left (by simp)
  have hle := Site.InTree.stop_le_start hp hopen.inTree hst hin hn hm hchild hmstmt (by omega)
  exact Nat.le_trans hle (hin.start_le_stop hp)

def Point.LeadsTo (g st : Site) : Point → Prop
  | whole s => g.Holds s ∧ s.Holds st
  | rest f s i => f = .sequence ∧ g.Holds s ∧
      ∃ k n, i ≤ k ∧ s.node.children[k]? = some n ∧ (s.child k n).Holds st

theorem Site.Straight.leadsTo {g s st : Site} {f : Flow} (hg : g.Straight root c st)
    (hst : st.InTree root) (hs : s.Open root c) (hgs : g.Holds s) (hsst : s.Holds st)
    (hne : s ≠ st) (hflow : s.kind.flow? = some f) : (Point.rest f s 0).LeadsTo g st := by
  have hmem : s ∈ st.ancestors := ((hs.inTree.holds_iff hst).1 hsst).resolve_left hne
  have hgin := hst.of_mem_ancestors g hg.inside
  have hseq : s.kind.flow? = some .sequence := by
    obtain rfl | hgs := (hgin.holds_iff hs.inTree).1 hgs
    · obtain rfl | ⟨-, hseq⟩ := hg.base
      · exact absurd rfl (hs.inTree.ne_of_mem_ancestors hs.inside)
      · exact hseq
    · exact hg.sequence s hmem hgs
  rw [hseq] at hflow
  cases hflow
  obtain ⟨k, n, hn, hchild⟩ := hst.exists_child hmem
  exact ⟨rfl, hgs, k, n, Nat.zero_le k, hn, hchild⟩

theorem Runs.endsLate_of_done (hp : root.Placed text) (hE : ∀ e ∈ E, e.Anchored root c (stmt e))
    {b : Entry} (hb : b ∈ E) {g : Site} (hg : g.Straight root c (stmt b))
    (h : Runs E load p trace x) (hopen : p.Open root c) (hx : x = .done)
    (hlead : p.LeadsTo g (stmt b)) : EndsLate stmt (stmt b) trace := by
  have hst := (hE b hb).isOpen
  induction h with
  | broken | loaded | unwound => cases hx
  | @statement s hk =>
    obtain rfl := Site.Open.eq_of_holds hopen hst hlead.2 (flow?_of_isSimpleStatement hk)
    have hmem : b ∈ madeIn E (stmt b) := mem_madeIn.2 ⟨hb, (hE b hb).holds_site⟩
    obtain ⟨e, hlast⟩ : ∃ e, (madeIn E (stmt b)).getLast? = some e :=
      ⟨_, List.getLast?_eq_some_getLast (List.ne_nil_of_mem hmem)⟩
    obtain ⟨heE, hse⟩ := mem_madeIn.1 (List.mem_of_getLast? hlast)
    have heq := Site.Open.eq_of_holds hopen (hE e heE).isOpen ((hE e heE).holds hopen hse)
      (flow?_of_isSimpleStatement hk)
    exact ⟨e, hlast, by rw [← heq]⟩
  | @other s trace x hk hflow =>
    obtain rfl := Site.Open.eq_of_holds hopen hst hlead.2 hflow
    rw [(hE b hb).simple] at hk
    cases hk
  | @parts s f trace x hflow h ih =>
    have hne : s ≠ stmt b := by
      rintro rfl
      rw [flow?_of_isSimpleStatement (hE b hb).simple] at hflow
      cases hflow
    exact ih (.inr ⟨hopen, hflow⟩) hx
      (hg.leadsTo hst.inTree hopen hlead.1 hlead.2 hne hflow)
  | finished hi =>
    obtain ⟨-, -, k, n, hk, hn, -⟩ := hlead
    have := (List.getElem?_eq_some_iff.1 hn).1
    omega
  | @passed f s i n trace trace' x hn h h' ih ih' =>
    obtain ⟨rfl, hgs, k, m, hk, hm, hchild⟩ := hlead
    obtain rfl | hk := Nat.eq_or_lt_of_le hk
    · rw [hn] at hm
      cases hm
      refine (ih (hopen.child hn) rfl ⟨hgs.trans (s.holds_child i n), hchild⟩).append_of_forall ?_
      exact h'.later hp hE hopen hst.inTree hn hchild (Nat.lt_succ_self i)
    · exact (ih' hopen hx ⟨rfl, hgs, k, m, hk, hm, hchild⟩).append
  | stopped _ _ hdone => exact absurd hx hdone
  | skipped hf => exact absurd hlead.1 hf
  | caught hf =>
    rw [hlead.1] at hf
    cases hf
  | again => cases hlead.1

def Point.Awaits (g st : Site) : Point → Prop
  | whole s => s.Holds g ∨ (whole s).LeadsTo g st
  | rest f s i => s.Holds g ∧ s ≠ g ∨ (rest f s i).LeadsTo g st

theorem Runs.endsLate_of_here (hp : root.Placed text) (hE : ∀ e ∈ E, e.Anchored root c (stmt e))
    (hload : load.InTree root) (hlen : load.start < load.stop) {b : Entry} (hb : b ∈ E)
    (hbefore : (stmt b).stop ≤ load.start) {g : Site} (hg : g.Straight root c (stmt b))
    (hgload : g.Holds load) (h : Runs E load p trace x) (hopen : p.Open root c) (hx : x = .here)
    (hwait : p.Awaits g (stmt b)) : EndsLate stmt (stmt b) trace := by
  have hst := (hE b hb).isOpen
  have hgin := hst.inTree.of_mem_ancestors g hg.inside
  -- No single statement lies around both the binding and the load.
  have single {s : Site} (hs : s.Open root c) (hflow : s.kind.flow? = none) (hsload : s.Holds load)
      (hwait : (Point.whole s).Awaits g (stmt b)) : s = stmt b := by
    obtain hsg | ⟨-, hsst⟩ := hwait
    · refine hs.eq_of_holds hst (hsg.trans ?_) hflow
      exact (hst.inTree.suffix_of_mem_ancestors g hg.inside).1
    · exact hs.eq_of_holds hst hsst hflow
  have apart (h : (stmt b).Holds load) : False := by
    have := (hload.around hp hst.inTree h).2
    omega
  induction h with
  | statement | broken | finished | unwound => cases hx
  | @loaded s trace hk htrace hsload =>
    obtain rfl := single hopen (flow?_of_isSimpleStatement hk) hsload hwait
    exact (apart hsload).elim
  | @other s trace x hk hflow htrace hsload =>
    obtain rfl := single hopen hflow (hsload hx) hwait
    exact (apart (hsload hx)).elim
  | @parts s f trace x hflow h ih =>
    refine ih (.inr ⟨hopen, hflow⟩) hx ?_
    have hlead (hgs : g.Holds s) (hsst : s.Holds (stmt b)) : (Point.rest f s 0).Awaits g (stmt b) := by
      refine .inr (hg.leadsTo hst.inTree hopen hgs hsst ?_ hflow)
      rintro rfl
      rw [flow?_of_isSimpleStatement (hE b hb).simple] at hflow
      cases hflow
    obtain hsg | ⟨hgs, hsst⟩ := hwait
    · by_cases heq : s = g
      · subst heq
        exact hlead List.suffix_rfl (hst.inTree.suffix_of_mem_ancestors s hg.inside).1
      · exact .inl ⟨hsg, heq⟩
    · exact hlead hgs hsst
  | @stopped f s i n trace x hn h _ ih =>
    have hchild : (s.child i n).Holds load := h.holds_load hx
    refine ih (hopen.child hn) hx ?_
    obtain ⟨hsg, hne⟩ | ⟨rfl, hgs, k, m, hk, hm, hmst⟩ := hwait
    · obtain hcg | hgc := hchild.total hgload
      · exact .inl hcg
      · obtain rfl | hmem := (hgin.holds_iff (hopen.child hn).inTree).1 hgc
        · exact .inl List.suffix_rfl
        · rw [Site.ancestors_child] at hmem
          obtain rfl | hmem := List.mem_cons.1 hmem
          · exact absurd rfl hne
          · exact absurd hsg (hopen.inTree.not_holds_of_mem_ancestors hmem)
    · obtain rfl | hk := Nat.eq_or_lt_of_le hk
      · rw [hn] at hm
        cases hm
        exact .inr ⟨hgs.trans (s.holds_child i n), hmst⟩
      · have := Site.InTree.stop_le_start hp hopen.inTree hload hst.inTree hn hm hchild hmst hk
        have := hst.inTree.start_le_stop hp
        omega
  | @passed f s i n trace trace' x hn h h' ih ih' =>
    obtain hsg | ⟨rfl, hgs, k, m, hk, hm, hmst⟩ := hwait
    · exact (ih' hopen hx (.inl hsg)).append
    · obtain rfl | hk := Nat.eq_or_lt_of_le hk
      · rw [hn] at hm
        cases hm
        refine EndsLate.append_of_forall ?_
          (h'.later hp hE hopen hst.inTree hn hmst (Nat.lt_succ_self i))
        exact h.endsLate_of_done hp hE hb hg (hopen.child hn) rfl
          ⟨hgs.trans (s.holds_child i n), hmst⟩
      · exact (ih' hopen hx (.inr ⟨rfl, hgs, k, m, hk, hm, hmst⟩)).append
  | skipped hf h ih =>
    obtain hsg | ⟨rfl, -⟩ := hwait
    · exact ih hopen hx (.inl hsg)
    · exact absurd rfl hf
  | caught hf hn h h' ih ih' =>
    obtain hsg | ⟨rfl, -⟩ := hwait
    · exact (ih' hopen hx (.inl hsg)).append
    · cases hf
  | again h ih =>
    obtain hsg | ⟨hf, -⟩ := hwait
    · exact ih hopen hx (.inl hsg)
    · cases hf

end Runs

def Kind.isCompound (k : Kind) : Bool :=
  k.flow?.isSome && k != .block

def statementEnclosure : Enclosure Rule where
  outer := Kind.isCompound
  inner k := k != .withStatement && !k.isSimpleStatement
  rules := [.suite, .elifClause, .elseClause, .exceptClause, .exceptGroup, .finallyClause,
    .expressions, .expressionItems, .expression, .targets, .lambdaExpr, .conditional, .aliased,
    .disjunction, .conjunction, .negation, .operand, .named, .comparison, .bitOr, .bitAnd, .bitXor,
    .shift, .sum, .product, .unary, .power, .primary, .atom, .strings, .string, .paren, .bracket,
    .brace]

theorem statementEnclosure_lawful : statementEnclosure.Lawful Rule.phrase where
  tops := by decide +kernel
  regular := by decide +kernel
  targets := by decide
  extras := by decide

section Guards

variable {root : Node} {text : List Char} {c s : Site}

theorem Site.Open.of_mem_ancestors (hs : s.Open root c) {a : Site} (ha : a ∈ s.ancestors)
    (hc : c ∈ a.ancestors) : a.Open root c :=
  ⟨hs.inTree.of_mem_ancestors a ha, hc,
    fun b hb hcb => hs.flow b (hs.inTree.mem_ancestors_trans ha hb) hcb⟩

theorem Site.Open.exists_parent (hs : s.Open root c) :
    ∃ q i n, s = q.child i n ∧ q.node.children[i]? = some n ∧ (q = c ∨ q.Open root c) := by
  obtain ⟨hin, hc, hflow⟩ := id hs
  cases hin with
  | root => simp at hc
  | @child q i n hq hn =>
    refine ⟨q, i, n, rfl, hn, ?_⟩
    obtain rfl | hc := List.mem_cons.1 hc
    · exact .inl rfl
    · exact .inr (hs.of_mem_ancestors (by simp) hc)

theorem Site.Open.parent_block (hshape : root.All (Node.Shaped statementEnclosure text))
    {i : Nat} {n : Node} (hs : (s.child i n).Open root c) (hparent : s.Open root c)
    (hn : s.node.children[i]? = some n)
    (hk : n.kind.isSimpleStatement = true ∨ n.kind = .withStatement) : s.kind = .block := by
  by_contra hblock
  have hflow := hs.flow s (by simp) hparent.inside
  have houter : statementEnclosure.outer s.kind = true := by
    simp [statementEnclosure, Kind.isCompound, hblock, Option.isSome_iff_ne_none, hflow]
  have hinner := (hshape s.node hparent.inTree.within).inner houter n (List.mem_of_getElem? hn)
  obtain hk | hk := hk <;> simp [statementEnclosure, hk] at hinner

theorem Site.Straight.of_parent {q : Site} {i : Nat} {n : Node}
    (hbase : q = c ∨ q.Open root c ∧ q.kind.flow? = some .sequence) (hq : q.InTree root) :
    q.Straight root c (q.child i n) := by
  refine ⟨hbase, by simp, fun a ha hqa => ?_⟩
  obtain rfl | ha := List.mem_cons.1 ha
  · exact absurd rfl (hq.ne_of_mem_ancestors hqa)
  · exact absurd rfl (hq.ne_of_mem_ancestors (hq.mem_ancestors_trans ha hqa))

theorem Site.Straight.child {g : Site} {i : Nat} {n : Node} (h : g.Straight root c s)
    (hflow : s.kind.flow? = some .sequence) : g.Straight root c (s.child i n) := by
  refine ⟨h.base, by simp [h.inside], fun a ha hga => ?_⟩
  obtain rfl | ha := List.mem_cons.1 ha
  · exact hflow
  · exact h.sequence a ha hga

theorem Site.isGuard_block {q : Site} {i : Nat} {n : Node} (hk : (q.child i n).kind = .block)
    (c : Address) :
    (q.child i n).isGuard c = (q.address != c && q.kind != .withStatement) := by
  unfold isGuard
  rw [hk]
  rfl

theorem Site.Open.exists_straight (hshape : root.All (Node.Shaped statementEnclosure text))
    (hc : c.InTree root) (hs : s.Open root c)
    (hk : s.kind.isSimpleStatement = true ∨ s.kind = .withStatement) :
    ∃ g, g.Straight root c s ∧
      ((s.ancestorsBelow c.address).find? (·.isGuard c.address) = none ∧ g = c ∨
        (s.ancestorsBelow c.address).find? (·.isGuard c.address) = some g) := by
  induction hlen : s.address.length using Nat.strong_induction_on generalizing s with
  | _ len ih =>
  obtain ⟨q, i, n, rfl, hn, rfl | hq⟩ := hs.exists_parent
  · refine ⟨q, .of_parent (.inl rfl) hc, .inl ⟨?_, rfl⟩⟩
    rw [ancestorsBelow_child, if_pos rfl]
    rfl
  have hblock := hs.parent_block hshape hq hn hk
  have hflow : q.kind.flow? = some .sequence := by rw [hblock]; rfl
  have hne {a : Site} (ha : a.Open root c) : a.address ≠ c.address := fun h =>
    ha.inTree.ne_of_mem_ancestors ha.inside (hc.eq_of_address ha.inTree h.symm)
  rw [ancestorsBelow_child, if_neg (hne hq)]
  obtain ⟨r, j, m, rfl, hm, hr⟩ := hq.exists_parent
  have hguard := isGuard_block hblock c.address
  rw [List.find?_cons, ancestorsBelow_child]
  obtain rfl | hr := hr
  · rw [hguard, bne_self_eq_false, Bool.false_and, if_pos rfl]
    exact ⟨r, .child (.of_parent (.inl rfl) hc) hflow, .inl ⟨rfl, rfl⟩⟩
  rw [if_neg (hne hr)]
  by_cases hwith : r.kind = .withStatement
  · have hrlen : r.address.length < len := by
      rw [← hlen]
      simp only [Site.child, List.length_cons]
      omega
    obtain ⟨g, hg, hfind⟩ := ih _ hrlen hr (.inr hwith) rfl
    have hrflow : r.kind.flow? = some .sequence := by rw [hwith]; rfl
    have hrguard : r.isGuard c.address = false := by
      unfold isGuard
      rw [hwith]
    rw [hguard, hwith, bne_self_eq_false, Bool.and_false, List.find?_cons, hrguard]
    exact ⟨g, (hg.child hrflow).child hflow, hfind⟩
  · have htrue : (r.child j m).isGuard c.address = true := by
      rw [hguard]
      simp [hne hr, hwith]
    rw [htrue]
    exact ⟨r.child j m, .of_parent (.inr ⟨hq, hflow⟩) hq.inTree, .inr rfl⟩

end Guards

def Site.IsTargetPart (s : Site) : Prop :=
  s.kind ∈ [Kind.patternList, .tuplePattern, .listPattern, .listSplatPattern, .tuple, .listDisplay,
    .listSplat, .parenthesizedExpression, .expressionList, .aliasedImport] ∨
    s.kind = .assignment ∧ s.node.part? .typeOf = none

instance (s : Site) : Decidable s.IsTargetPart :=
  inferInstanceAs (Decidable (_ ∨ _))

structure Entry.IsSimple (container : Address) (st : Site) (e : Entry) : Prop where
  mem : st ∈ e.site.ancestorsBelow container
  simple : st.kind.isSimpleStatement = true
  target : ∀ a ∈ e.site.ancestorsBelow st.address, a.IsTargetPart
  nested : ∀ a ∈ st.ancestorsBelow container, a.kind.flow? ≠ none

def entriesOf (root : Node) (source : List Char) (scope : Nat) (name : String) : List Entry :=
  ((ScopeTable.log root source).filterMap (Effect.entry? scope)).filter (·.name == name)

theorem bindingsOf_eq {root : Node} {source : List Char} {i : Nat} {scope : Scope}
    (h : (ScopeTable.build root source).scopes[i]? = some scope) (name : String) :
    scope.bindingsOf name = (entriesOf root source i name).map fun e =>
      e.site.binding source scope.container.address e.imported := by
  rw [Scope.bindingsOf, ScopeTable.bindings_build h, entriesOf, List.filterMap_map,
    ← List.filterMap_eq_map, List.filterMap_filter]
  rfl

theorem inTree_of_mem_entriesOf {root : Node} {source : List Char} (hroot : root.kind = .module)
    (hshape : root.All (Node.Shaped classEnclosure source)) {i : Nat} {name : String} {e : Entry}
    (h : e ∈ entriesOf root source i name) : e.site.InTree root := by
  obtain ⟨effect, hmem, heffect⟩ := List.mem_filterMap.1 (List.mem_filter.1 h).1
  have hplace := inPlace_of_mem_log hroot hshape effect hmem
  cases effect with
  | bound scope name' imported site =>
    rw [Effect.entry?] at heffect
    split at heffect
    · cases heffect
      exact hplace
    · cases heffect
  | opened | used | declaredGlobal | declaredNonlocal => cases heffect

section Simple

variable {root : Node} {c st : Site} {e : Entry}

theorem Site.IsTargetPart.not_isGuard {s : Site} (h : s.IsTargetPart) (c : Address) :
    s.isGuard c = false ∧ s.kind.isSimpleStatement = false := by
  have hk : s.kind ∈ [Kind.assignment, .patternList, .tuplePattern, .listPattern, .listSplatPattern,
      .tuple, .listDisplay, .listSplat, .parenthesizedExpression, .expressionList,
      .aliasedImport] := by
    obtain h | ⟨h, -⟩ := h
    · exact List.mem_cons_of_mem _ h
    · simp [h]
  simp only [List.mem_cons, List.not_mem_nil, or_false] at hk
  unfold isGuard
  obtain hk | hk | hk | hk | hk | hk | hk | hk | hk | hk | hk := hk <;> rw [hk] <;> exact ⟨rfl, rfl⟩

theorem Site.not_isGuard_of_isSimpleStatement {s : Site} (h : s.kind.isSimpleStatement = true)
    (c : Address) : s.isGuard c = false := by
  simp only [Kind.isSimpleStatement, List.contains_eq_mem, List.mem_cons, List.not_mem_nil, or_false,
    decide_eq_true_eq] at h
  unfold isGuard
  obtain hk | hk | hk | hk | hk := h <;> rw [hk]

theorem Entry.IsSimple.anchored (h : e.IsSimple c.address st) (hroot : root.kind = .module)
    (he : e.site.InTree root) (hc : c.InTree root) : e.Anchored root c st := by
  have hmem : st ∈ e.site.ancestors := (List.takeWhile_subset _) h.mem
  have hst := he.of_mem_ancestors st hmem
  have hinside : c ∈ st.ancestors := by
    -- Otherwise the whole text would be nested in something.
    by_contra hout
    have hall : st.ancestorsBelow c.address = st.ancestors := by
      refine List.takeWhile_eq_self_iff.2 fun a ha => bne_iff_ne.2 fun heq => hout ?_
      rwa [← (hst.of_mem_ancestors a ha).eq_of_address hc heq]
    obtain rfl | hrmem := hst.eq_root_or_mem_ancestors
    · have hsimple := h.simple
      rw [show (Site.root root).kind = .module from hroot] at hsimple
      cases hsimple
    · refine h.nested (Site.root root) (hall ▸ hrmem) ?_
      rw [show (Site.root root).kind = .module from hroot]
      rfl
  exact ⟨he, hmem, h.simple, hst, hinside, fun a ha hca =>
    h.nested a ((hst.mem_ancestorsBelow_iff hinside).2 ⟨ha, hca⟩)⟩

theorem Entry.IsSimple.binding_eq (source : List Char) (h : e.IsSimple c.address st)
    (he : e.Anchored root c st) (imported : Option (List String)) :
    (e.site.binding source c.address imported).effective = st.stop ∧
      (e.site.binding source c.address imported).guard =
        ((st.ancestorsBelow c.address).find? (·.isGuard c.address)).map Site.landmark := by
  have hsplit := he.site.ancestorsBelow_eq_append he.mem he.isOpen.inside
  have hguard : (e.site.ancestorsBelow st.address).find? (·.isGuard c.address) = none :=
    List.find?_eq_none.2 fun a ha => by simp [((h.target a ha).not_isGuard c.address).1]
  have hsimple : (e.site.ancestorsBelow st.address).find? (·.kind.isSimpleStatement) = none :=
    List.find?_eq_none.2 fun a ha => by simp [((h.target a ha).not_isGuard c.address).2]
  unfold Site.binding
  dsimp only
  rw [hsplit, List.find?_append, List.find?_append, List.find?_cons, List.find?_cons, hguard,
    hsimple, h.simple, Site.not_isGuard_of_isSimpleStatement h.simple]
  exact ⟨rfl, rfl⟩

end Simple

section Seen

variable {bindings : List Binding} {load : Site} {container : Address}

def certainFloor (bindings : List Binding) (load : Site) (container : Address) : Nat :=
  ((bindings.filter fun b => b.effective ≤ load.start &&
    b.guard.all ((load.ancestorsBelow container).map Site.landmark).contains).map
      (·.effective)).foldl max 0

def loopEnd? (load : Site) (container : Address) : Option Nat :=
  ((load.ancestorsBelow container).filter fun a =>
    a.kind == .forStatement || a.kind == .whileStatement).getLast?.map (·.node.stop)

def seen (bindings : List Binding) (load : Site) (container : Address) : List Binding :=
  bindings.filter fun b =>
    (certainFloor bindings load container ≤ b.effective && b.effective ≤ load.start)
      || (loopEnd? load container).any fun stop => load.start < b.effective && b.effective ≤ stop

theorem reaching_eq : reaching bindings load container =
    ((seen bindings load container).any Binding.isImport,
      (seen bindings load container).any fun b => !b.isImport) :=
  rfl

theorem foldl_max_le {ns : List Nat} {m k : Nat} (hm : m ≤ k) (h : ∀ n ∈ ns, n ≤ k) :
    ns.foldl max m ≤ k := by
  induction ns generalizing m with
  | nil => exact hm
  | cons n ns ih =>
    obtain ⟨hn, hns⟩ := List.forall_mem_cons.1 h
    exact ih (Nat.max_le.2 ⟨hm, hn⟩) hns

theorem certainFloor_le {k : Nat} (h : ∀ b ∈ bindings, b.effective ≤ load.start →
    (∀ g ∈ b.guard, g ∈ (load.ancestorsBelow container).map Site.landmark) → b.effective ≤ k) :
    certainFloor bindings load container ≤ k := by
  refine foldl_max_le (Nat.zero_le k) fun n hn => ?_
  obtain ⟨b, hb, rfl⟩ := List.mem_map.1 hn
  obtain ⟨hb, hcertain⟩ := List.mem_filter.1 hb
  obtain ⟨hle, hguard⟩ := Bool.and_eq_true_iff.1 hcertain
  refine h b hb (of_decide_eq_true hle) fun g hg => ?_
  rw [Option.mem_def.1 hg] at hguard
  exact List.contains_iff_mem.1 hguard

theorem exists_loopEnd? {root : Node} {text : List Char} (hp : root.Placed text)
    (hload : load.InTree root) {l : Site} (hl : l ∈ load.ancestorsBelow container)
    (hloop : l.kind = .forStatement ∨ l.kind = .whileStatement) :
    ∃ stop, loopEnd? load container = some stop ∧ l.stop ≤ stop := by
  unfold loopEnd?
  generalize hls : (load.ancestorsBelow container).filter (fun a =>
    a.kind == .forStatement || a.kind == .whileStatement) = ls
  have hmem : l ∈ ls := by
    rw [← hls]
    exact List.mem_filter.2 ⟨hl, by simpa using hloop⟩
  have hsub : ls.Sublist load.ancestors := by
    rw [← hls]
    exact List.filter_sublist.trans (List.takeWhile_sublist _)
  have hpairs := hload.pairwise_ancestors.sublist hsub
  have hin := hload.of_mem_ancestors l (hsub.subset hmem)
  have hne := List.ne_nil_of_mem hmem
  rw [List.getLast?_eq_some_getLast hne]
  refine ⟨_, rfl, ?_⟩
  rw [← List.dropLast_append_getLast hne] at hmem hpairs
  obtain hmem | hmem := List.mem_append.1 hmem
  · have hanc := (List.pairwise_append.1 hpairs).2.2 l hmem _ (List.mem_singleton_self _)
    exact (hin.around hp (hin.of_mem_ancestors _ hanc) (hin.suffix_of_mem_ancestors _ hanc).1).2
  · rw [← List.mem_singleton.1 hmem]
    exact Nat.le_refl _

theorem mem_seen {root : Node} {text : List Char} (hp : root.Placed text)
    (hload : load.InTree root) {b : Binding} (hb : b ∈ bindings)
    (hfloor : certainFloor bindings load container ≤ b.effective)
    (hlate : b.effective ≤ load.start ∨ ∃ l ∈ load.ancestorsBelow container,
      (l.kind = .forStatement ∨ l.kind = .whileStatement) ∧ b.effective ≤ l.stop) :
    b ∈ seen bindings load container := by
  refine List.mem_filter.2 ⟨hb, ?_⟩
  by_cases hpos : b.effective ≤ load.start
  · simp [hfloor, hpos]
  · obtain ⟨l, hl, hloop, hle⟩ := hlate.resolve_left hpos
    obtain ⟨stop, hstop, hls⟩ := exists_loopEnd? hp hload hl hloop
    have : load.start < b.effective ∧ b.effective ≤ stop := by omega
    simp [hstop, this]

end Seen

theorem loop_kind {k : Kind} (h : k.flow? = some .loop) :
    k = .forStatement ∨ k = .whileStatement := by
  unfold Kind.flow? at h
  split at h <;> first | exact .inl rfl | exact .inr rfl | cases h

theorem mem_seen_of_runs {root : Node} {source : List Char} (hroot : root.kind = .module)
    (hp : root.Placed source) (hshape : root.All (Node.Shaped statementEnclosure source))
    {c load : Site} (hc : c.InTree root) (hload : load.InTree root) (hkind : load.kind = .identifier)
    (hlen : load.start < load.stop) {E : List Entry}
    (hE : ∀ e ∈ E, e.site.InTree root ∧ ∃ st, e.IsSimple c.address st)
    (htargets : ∀ e ∈ E, ∀ st ∈ e.site.ancestors, ¬load.IsAmongTargets st)
    {trace : List Entry} (hrun : Runs E load (.rest .sequence c 0) trace .here) {e : Entry}
    (hlast : trace.getLast? = some e) :
    e.site.binding source c.address e.imported ∈
      seen (E.map fun e => e.site.binding source c.address e.imported) load c.address := by
  have : Nonempty Site := ⟨c⟩
  choose! stmt hstmt using fun e he => (hE e he).2
  have hA : ∀ e ∈ E, e.Anchored root c (stmt e) :=
    fun e he => (hstmt e he).anchored hroot (hE e he).1 hc
  have hopen : (Point.rest .sequence c 0).Open root c := .inl ⟨rfl, hc, rfl⟩
  have hmem := List.mem_of_getLast? hlast
  have heE := (hrun.made e hmem).1
  have heff := ((hstmt e heE).binding_eq source (hA e heE) e.imported).1
  have hcload : c ∈ load.ancestors := by
    obtain ⟨j, n, -, hn, hchild⟩ := hrun.holds_load rfl
    have hcmem : c ∈ (c.child j n).ancestors := by simp
    obtain rfl | hchild := ((hc.child hn).holds_iff hload).1 hchild
    · exact hcmem
    · exact hload.mem_ancestors_trans hchild hcmem
  refine mem_seen hp hload (List.mem_map_of_mem heE) (certainFloor_le ?_) ?_
  · intro b hb hle hguard
    obtain ⟨d, hd, rfl⟩ := List.mem_map.1 hb
    obtain ⟨hdeff, hdguard⟩ := (hstmt d hd).binding_eq source (hA d hd) d.imported
    have hst := (hA d hd).isOpen
    obtain ⟨g, hg, hfind⟩ := hst.exists_straight hshape hc (.inl (hA d hd).simple)
    have hgin := hst.inTree.of_mem_ancestors g hg.inside
    have hgload : g.Holds load := by
      obtain ⟨-, rfl⟩ | hfind := hfind
      · exact (hload.suffix_of_mem_ancestors g hcload).1
      · rw [hdguard, hfind] at hguard
        obtain ⟨a, ha, heq⟩ := List.mem_map.1 (hguard g.landmark rfl)
        have ha := (List.takeWhile_subset _) ha
        have haddress : a.address = g.address := congrArg Landmark.address heq
        rw [← (hload.of_mem_ancestors a ha).eq_of_address hgin haddress]
        exact (hload.suffix_of_mem_ancestors a ha).1
    have hwait : (Point.rest .sequence c 0).Awaits g (stmt d) := by
      obtain rfl | ⟨hgopen, -⟩ := hg.base
      · obtain ⟨k, n, hn, hchild⟩ := hst.inTree.exists_child hg.inside
        exact .inr ⟨rfl, List.suffix_rfl, k, n, Nat.zero_le k, hn, hchild⟩
      · exact .inl ⟨(hgin.suffix_of_mem_ancestors c hgopen.inside).1,
          hgin.ne_of_mem_ancestors hgopen.inside⟩
    obtain ⟨e', hlast', hlate⟩ := hrun.endsLate_of_here hp hA hload hlen hd (hdeff ▸ hle) hg hgload
      hopen rfl hwait
    rw [hlast] at hlast'
    cases hlast'
    rw [hdeff, heff]
    exact hlate
  · rw [heff]
    obtain h | ⟨l, hl, hflow, hlload, hle⟩ := hrun.before_or_looped hp hA hload
      (fun e he => htargets e he (stmt e) (hA e he).mem) hopen rfl e hmem
    · exact .inl h
    · have hlmem : l ∈ load.ancestors := by
        refine ((hl.inTree.holds_iff hload).1 hlload).resolve_left ?_
        rintro rfl
        rw [hkind] at hflow
        cases hflow
      exact .inr ⟨l, (hload.mem_ancestorsBelow_iff hcload).2 ⟨hlmem, hl.inside⟩, loop_kind hflow,
        ((hA e heE).isOpen.inTree.around hp hl.inTree hle).2⟩

theorem isImport_eq_of_refersToImport {t : ScopeTable} {source : List Char} {old : QualifiedName}
    {owner : Nat} {scope : Scope} (hscope : t.scopes[owner]? = some scope)
    (himport : (scope.bindingsOf old.first).any (Binding.importsModule old) = true) {u : Use}
    (howner : u.scope = owner) (hload : u.kind = .load) {answer : Bool}
    (hanswer : refersToImport t source old owner u = .ok answer) {b : Binding}
    (hb : b ∈ seen (scope.bindingsOf old.first) u.site scope.container.address) :
    b.isImport = answer := by
  unfold refersToImport at hanswer
  rw [hscope] at hanswer
  dsimp only at hanswer
  rw [if_neg (by simp [himport])] at hanswer
  split at hanswer
  · next hall =>
    cases hanswer
    exact List.all_eq_true.1 hall b (List.mem_filter.1 hb).1
  rw [if_neg (by simp [howner]), if_neg (by simp [hload]), reaching_eq] at hanswer
  split at hanswer
  · cases hanswer
  · next isImport isOther hne heq =>
    cases hanswer
    obtain ⟨rfl, rfl⟩ := Prod.mk.inj heq
    cases hi : b.isImport with
    | true => exact (List.any_eq_true.2 ⟨b, hb, hi⟩).symm
    | false =>
      have hother : (seen (scope.bindingsOf old.first) u.site scope.container.address).any
          (fun b => !b.isImport) = true := List.any_eq_true.2 ⟨b, hb, by simp [hi]⟩
      by_contra htrue
      exact hne (by simpa using Ne.symm htrue) hother

theorem refersToImport_sound {source : String} {root : Node} (hparse : parse? source = some root)
    {old : QualifiedName} {owner : Nat} {scope : Scope}
    (hscope : (ScopeTable.build root source.toList).scopes[owner]? = some scope)
    (himport : (scope.bindingsOf old.first).any (Binding.importsModule old) = true)
    (hsimple : ∀ e ∈ entriesOf root source.toList owner old.first,
      ∃ st, e.IsSimple scope.container.address st)
    {u : Use} (hu : u ∈ (ScopeTable.build root source.toList).uses) (howner : u.scope = owner)
    (hload : u.kind = .load)
    (htargets : ∀ e ∈ entriesOf root source.toList owner old.first, ∀ st ∈ e.site.ancestors,
      ¬u.site.IsAmongTargets st)
    {answer : Bool}
    (hanswer : refersToImport (ScopeTable.build root source.toList) source.toList old owner u =
      .ok answer)
    {c : Site} (hc : c.InTree root) (hcontainer : c.address = scope.container.address)
    {trace : List Entry}
    (hrun : Runs (entriesOf root source.toList owner old.first) u.site (.rest .sequence c 0) trace
      .here)
    {e : Entry} (hlast : trace.getLast? = some e) : e.imported.isSome = answer := by
  have hkind := parse?_kind hparse
  have hclass := parse?_shaped classEnclosure_lawful hparse
  obtain ⟨hsite, -⟩ := isUsed_of_mem_uses hkind hclass u hu
  have hlen : u.site.start < u.site.stop :=
    Text.lt_of_between_ne_nil ((hclass u.site.node hsite.inTree.within).word hsite.kind).2.1
  have hseen := mem_seen_of_runs hkind (parse?_placed hparse)
    (parse?_shaped statementEnclosure_lawful hparse) hc hsite.inTree hsite.kind hlen
    (fun e he => ⟨inTree_of_mem_entriesOf hkind hclass he, hcontainer ▸ hsimple e he⟩)
    htargets hrun hlast
  rw [hcontainer, ← bindingsOf_eq hscope] at hseen
  exact isImport_eq_of_refersToImport hscope himport howner hload hanswer hseen

def loopText : String := "import a\nwhile b:\n    a = 1\n    a\n"

def loopRoot : Node :=
  .mk none .module ⟨0, 34⟩ [
    .mk none .importStatement ⟨0, 8⟩ [.mk none (.mark "import") ⟨0, 6⟩ [],
      .mk (some .name) .dottedName ⟨7, 8⟩ [.mk none .identifier ⟨7, 8⟩ []]],
    .mk none .whileStatement ⟨9, 33⟩ [.mk none (.mark "while") ⟨9, 14⟩ [],
      .mk none .identifier ⟨15, 16⟩ [], .mk none (.mark ":") ⟨16, 17⟩ [],
      .mk none .block ⟨22, 33⟩ [
        .mk none .expressionStatement ⟨22, 27⟩ [.mk none .assignment ⟨22, 27⟩ [
          .mk (some .left) .identifier ⟨22, 23⟩ [], .mk none (.mark "=") ⟨24, 25⟩ [],
          .mk (some .right) .integerLit ⟨26, 27⟩ []]],
        .mk none .expressionStatement ⟨32, 33⟩ [.mk none .identifier ⟨32, 33⟩ []]]]]

def loopName : QualifiedName := shortName

def loopTable : ScopeTable := ScopeTable.build loopRoot loopText.toList

def loopEntries : List Entry := entriesOf loopRoot loopText.toList 0 loopName.first

def loopSite (path : List Nat) : Site :=
  path.foldl (fun s i => (s.node.children[i]?).elim s (s.child i)) (.root loopRoot)

def loopLoad : Use := ⟨"a", 0, .load, loopSite [1, 3, 1, 0]⟩

theorem loopEntries_eq : loopEntries =
    [⟨"a", some ["a"], loopSite [0, 1]⟩, ⟨"a", none, loopSite [1, 3, 0, 0, 0]⟩] := by
  decide +kernel

theorem runs_loop : Runs loopEntries loopLoad.site (.rest .sequence (.root loopRoot) 0)
    (madeIn loopEntries (loopSite [0]) ++ (madeIn loopEntries (loopSite [1, 3, 0]) ++ [])) .here := by
  refine .passed rfl (.statement rfl) (.stopped rfl (.parts rfl ?_) (by decide))
  refine .skipped (by decide) (.skipped (by decide) (.skipped (by decide) ?_))
  refine .stopped rfl (.parts rfl ?_) (by decide)
  refine .passed rfl (.statement rfl) (.stopped rfl ?_ (by decide))
  exact .loaded rfl List.nil_prefix (by decide +kernel) (.inl rfl)

theorem refersToImport_sound_loop : ∃ trace e,
    parse? loopText = some loopRoot ∧ loopLoad ∈ loopTable.uses ∧
      refersToImport loopTable loopText.toList loopName 0 loopLoad = .ok false ∧
      Runs loopEntries loopLoad.site (.rest .sequence (.root loopRoot) 0) trace .here ∧
      trace.getLast? = some e ∧ e.imported.isSome = false := by
  have hparse : parse? loopText = some loopRoot := by decide +kernel
  have huse : loopLoad ∈ loopTable.uses := by decide +kernel
  have hanswer : refersToImport loopTable loopText.toList loopName 0 loopLoad = .ok false := by
    decide +kernel
  have hlast : (madeIn loopEntries (loopSite [0]) ++
      (madeIn loopEntries (loopSite [1, 3, 0]) ++ [])).getLast? =
        some ⟨"a", none, loopSite [1, 3, 0, 0, 0]⟩ := by decide +kernel
  obtain ⟨scope, hscope⟩ : ∃ scope, loopTable.scopes[0]? = some scope :=
    Option.isSome_iff_exists.1 (by decide +kernel)
  have hfacts : (loopTable.scopes[0]?).all (fun s =>
      (s.bindingsOf loopName.first).any (Binding.importsModule loopName) &&
        s.container.address == []) = true := by
    decide +kernel
  rw [hscope, Option.all_some, Bool.and_eq_true, beq_iff_eq] at hfacts
  obtain ⟨himport, hcontainer⟩ := hfacts
  refine ⟨_, _, hparse, huse, hanswer, runs_loop, hlast, ?_⟩
  refine refersToImport_sound hparse hscope himport ?_ huse rfl rfl ?_ hanswer .root hcontainer.symm
    runs_loop hlast
  · intro e he
    change e ∈ loopEntries at he
    rw [loopEntries_eq] at he
    rw [hcontainer]
    obtain rfl | he := List.mem_cons.1 he
    · exact ⟨loopSite [0], by decide +kernel, by decide, by decide +kernel, by decide +kernel⟩
    · obtain rfl := List.mem_singleton.1 he
      exact ⟨loopSite [1, 3, 0], by decide +kernel, by decide, by decide +kernel, by decide +kernel⟩
  · have hapart : ∀ e ∈ loopEntries, ∀ st ∈ e.site.ancestors,
        st.kind = .deleteStatement ∨ st.kind = .expressionStatement → ¬st.Holds loopLoad.site := by
      decide +kernel
    rintro e he st hst ⟨hholds, hkind⟩
    exact hapart e he st hst (hkind.imp_right And.left) hholds

end Reroot.Python

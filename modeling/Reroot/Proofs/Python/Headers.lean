import Reroot.Proofs.Python.Course
import Reroot.Proofs.Python.Reaching

namespace Reroot.Python

theorem isPassable_of_route? {k : Kind} {f : Flow} (h : k.route? = some f) : k.isPassable = true := by
  simp [Kind.isPassable, h]

theorem isSimpleStatement_iff {k : Kind} : k.isSimpleStatement = true ↔
    k = .expressionStatement ∨ k = .importStatement ∨ k = .importFromStatement ∨
      k = .futureImportStatement ∨ k = .deleteStatement := by
  simp [Kind.isSimpleStatement]

theorem isPassable_of_isStep {k : Kind} (h : k.isStep = true) : k.isPassable = false := by
  rw [Kind.isStep, Bool.or_eq_true, isSimpleStatement_iff, Kind.isDefinition, Bool.or_eq_true,
    beq_iff_eq, beq_iff_eq] at h
  obtain (rfl | rfl | rfl | rfl | rfl) | rfl | rfl := h <;> rfl

theorem not_isPassable_of_isStatement {k : Kind} (h : k.isStatement = false) :
    k.isPassable = false ∧ k.isSimpleStatement = false := by
  constructor
  · refine Bool.eq_false_iff.2 fun hpass => ?_
    rw [Kind.isPassable, Bool.or_eq_true, beq_iff_eq] at hpass
    obtain hpass | rfl := hpass
    · unfold Kind.route? at hpass
      split at hpass <;> first | cases h | cases hpass
    · cases h
  · refine Bool.eq_false_iff.2 fun hsimple => ?_
    obtain rfl | rfl | rfl | rfl | rfl := isSimpleStatement_iff.1 hsimple <;> cases h

structure Site.Reachable (root : Node) (s c : Site) : Prop where
  inTree : s.InTree root
  inside : c ∈ s.ancestors
  passable : ∀ a ∈ s.ancestors, c ∈ a.ancestors → a.kind.isPassable = true

structure Entry.Fixed (root : Node) (c st : Site) (e : Entry) : Prop where
  site : e.site.InTree root
  holds : st.Holds e.site
  solid : st.kind.isPassable = false
  reachable : st.Reachable root c
  settled : st.kind.isStep = true ∨
    ∃ f : Site, f.Reachable root c ∧ f.kind = .forStatement ∧ f.part? .left = some st

def Stage.Reachable (root : Node) (c : Site) : Stage → Prop
  | whole s => s.Reachable root c
  | rest f s _ => s = c ∧ c.InTree root ∧ f = .sequence ∨ s.Reachable root c ∧ s.kind.route? = some f
  | rounds s => s.Reachable root c ∧ s.kind = .forStatement

section Reachable

variable {root : Node} {c s st : Site} {e : Entry} {f : Flow} {i : Nat} {n : Node}

theorem Site.Reachable.child (h : s.Reachable root c) (hk : s.kind.isPassable = true)
    (hn : s.node.children[i]? = some n) : (s.child i n).Reachable root c := by
  refine ⟨h.inTree.child hn, by simp [h.inside], fun a ha hca => ?_⟩
  obtain rfl | ha := List.mem_cons.1 ha
  · exact hk
  · exact h.passable a ha hca

theorem Stage.Reachable.inTree (h : (Stage.rest f s i).Reachable root c) : s.InTree root := by
  obtain ⟨rfl, hc, -⟩ | ⟨hs, -⟩ := h
  · exact hc
  · exact hs.inTree

theorem Stage.Reachable.child (h : (Stage.rest f s i).Reachable root c) {j : Nat}
    (hn : s.node.children[j]? = some n) : (s.child j n).Reachable root c := by
  obtain ⟨rfl, hc, -⟩ | ⟨hs, hf⟩ := h
  · refine ⟨hc.child hn, by simp, fun a ha hca => ?_⟩
    obtain rfl | ha := List.mem_cons.1 ha
    · exact absurd rfl (hc.ne_of_mem_ancestors hca)
    · exact absurd rfl (hc.ne_of_mem_ancestors (hc.mem_ancestors_trans ha hca))
  · exact hs.child (isPassable_of_route? hf) hn

theorem Stage.Reachable.roundsChild (h : (Stage.rounds s).Reachable root c)
    (hn : s.node.children[i]? = some n) : (s.child i n).Reachable root c :=
  h.1.child (by rw [h.2]; rfl) hn

theorem Entry.Fixed.holds_of (he : e.Fixed root c st) (hs : s.Reachable root c)
    (h : s.Holds e.site) : s.Holds st := by
  obtain h | h := h.total he.holds
  · exact h
  · obtain rfl | hmem := (he.reachable.inTree.holds_iff hs.inTree).1 h
    · exact List.suffix_rfl
    · have hpass := hs.passable st hmem he.reachable.inside
      rw [he.solid] at hpass
      cases hpass

theorem Site.Reachable.eq_of_holds (hs : s.Reachable root c) (hst : st.Reachable root c)
    (h : s.Holds st) (hsolid : s.kind.isPassable = false) : s = st := by
  obtain rfl | hmem := (hs.inTree.holds_iff hst.inTree).1 h
  · rfl
  · have hpass := hst.passable s hmem hs.inside
    rw [hsolid] at hpass
    cases hpass

end Reachable

section Course

variable {root : Node} {text : List Char} {c load : Site} {E : List Entry} {stmt : Entry → Site}
  {suppresses : Site → Prop} {p : Stage} {trace : List Entry} {x : Exit}

theorem Course.before_or_looped (hp : root.Placed text)
    (hE : ∀ e ∈ E, e.Fixed root c (stmt e)) (hload : load.InTree root)
    (htargets : ∀ e ∈ E, ¬load.IsAmongTargets (stmt e))
    (h : Course E load suppresses p trace x) (hopen : p.Reachable root c) (hx : x = .here) :
    ∀ e ∈ trace, (stmt e).stop ≤ load.start ∨ ∃ l : Site, l.Reachable root c ∧
      (l.kind = .forStatement ∨ l.kind = .whileStatement) ∧ l.Holds load ∧ l.Holds (stmt e) := by
  -- What was run before the part with the load comes before it in the text, unless it is a loop.
  have step {f : Flow} {s : Site} {i : Nat} {n : Node} {trace' : List Entry}
      (hopen : (Stage.rest f s i).Reachable root c) (hn : s.node.children[i]? = some n)
      {e : Entry} (he : e ∈ E ∧ (s.child i n).Holds e.site)
      (h' : Course E load suppresses (.rest f s (i + 1)) trace' .here) :
      (stmt e).stop ≤ load.start ∨ ∃ l : Site, l.Reachable root c ∧
        (l.kind = .forStatement ∨ l.kind = .whileStatement) ∧ l.Holds load ∧ l.Holds (stmt e) := by
    have hchild := (hE e he.1).holds_of (hopen.child hn) he.2
    obtain ⟨j, m, hj, hm, hmload⟩ := h'.holds_load rfl
    obtain rfl | hj := hj
    · obtain ⟨-, -, hf⟩ | ⟨hs, hf⟩ := hopen
      · cases hf
      · have hk : s.kind = .whileStatement := by
          unfold Kind.route? at hf
          split at hf <;> first | assumption | cases hf
        exact .inr ⟨s, hs, .inr hk, (s.holds_child j m).trans hmload,
          (s.holds_child i n).trans hchild⟩
    · exact .inl (Site.InTree.stop_le_start hp hopen.inTree (hE e he.1).reachable.inTree hload hn hm
        hchild hmload hj)
  -- What is run in the rounds of a loop may come before the load in a later round.
  have rounds {s : Site} {trace : List Entry} (hopen : (Stage.rounds s).Reachable root c)
      (hsload : s.Holds load) (hmade : ∀ e ∈ trace, e ∈ E ∧ s.Holds e.site) :
      ∀ e ∈ trace, (stmt e).stop ≤ load.start ∨ ∃ l : Site, l.Reachable root c ∧
        (l.kind = .forStatement ∨ l.kind = .whileStatement) ∧ l.Holds load ∧ l.Holds (stmt e) :=
    fun e he => .inr ⟨s, hopen.1, .inl hopen.2, hsload,
      (hE e (hmade e he).1).holds_of hopen.1 (hmade e he).2⟩
  induction h with
  | statement | broken | finished | unwound | suppressed => cases hx
  | @loaded s trace hk htrace hsload hnone =>
    intro e he
    obtain ⟨heE, hse⟩ := mem_madeIn.1 (htrace.subset he)
    obtain rfl := Site.Reachable.eq_of_holds hopen (hE e heE).reachable
      ((hE e heE).holds_of hopen hse) (isPassable_of_isStep hk)
    obtain rfl | hamong := hnone
    · simp at he
    · exact absurd hamong (htargets e heE)
  | @other s trace x hk hpass htrace hsload =>
    intro e he
    obtain ⟨heE, hse⟩ := mem_madeIn.1 (htrace e he)
    obtain rfl := Site.Reachable.eq_of_holds hopen (hE e heE).reachable
      ((hE e heE).holds_of hopen hse) hpass
    obtain hstep | ⟨f, hf, hfk, hl⟩ := (hE e heE).settled
    · rw [hk] at hstep
      cases hstep
    · exact .inr ⟨f, hf, .inl hfk, (Site.holds_of_part? hl).trans (hsload hx),
        Site.holds_of_part? hl⟩
  | parts hroute _ ih => exact ih (.inr ⟨hopen, hroute⟩) hx
  | passed hn h h' ih ih' =>
    intro e he
    obtain he | he := List.mem_append.1 he
    · exact step hopen hn (h.made e he) (hx ▸ h')
    · exact ih' hopen hx e he
  | caught hf hn h h' ih ih' =>
    intro e he
    obtain he | he := List.mem_append.1 he
    · exact step hopen hn (h.made e he) (hx ▸ h')
    · exact ih' hopen hx e he
  | stopped hn _ _ ih => exact ih (hopen.child hn) hx
  | skipped _ _ ih => exact ih hopen hx
  | again _ ih => exact ih hopen hx
  | iterable => simp
  | loop hk _ ih => exact ih ⟨hopen, hk⟩ hx
  | ended hnot => exact absurd hx hnot
  | exhausted hn _ h ih => exact ih (hopen.roundsChild hn) hx
  | @target s l trace x hl htrace hx' hload' =>
    have h : Course E load suppresses (.rounds s) trace x := .target hl htrace hx' hload'
    exact rounds hopen (h.holds_load hx) h.made
  | @body s l i n trace hl hn hk h =>
    have h : Course E load suppresses (.rounds s) (madeIn E l ++ trace) .here := .body hl hn hk h
    exact rounds hopen (h.holds_load hx) h.made
  | @round s l i n trace trace' x x' hl hn hk h hx' h' =>
    have h : Course E load suppresses (.rounds s) (madeIn E l ++ trace ++ trace') x' :=
      .round hl hn hk h hx' h'
    exact rounds hopen (h.holds_load hx) h.made

def Stage.Above (g : Site) : Stage → Prop
  | whole s => s.Holds g
  | rest _ s _ | rounds s => s.Holds g ∧ s ≠ g

theorem Site.Reachable.not_holds {s g : Site} (hs : s.Reachable root c) (hg : g.Reachable root c)
    (hpass : g.kind.isPassable = true) (hsolid : s.kind.isPassable = false) : ¬s.Holds g := by
  intro h
  obtain rfl := hs.eq_of_holds hg h hsolid
  rw [hpass] at hsolid
  cases hsolid

theorem Site.Reachable.holds_of_child {s g : Site} {i : Nat} {n : Node} (hg : g.Reachable root c)
    (hs : (s.child i n).InTree root) (hgload : g.Holds load) (hsg : s.Holds g) (hne : s ≠ g)
    (hchild : (s.child i n).Holds load) : (s.child i n).Holds g := by
  obtain h | h := hchild.total hgload
  · exact h
  · obtain rfl | hmem := (hg.inTree.holds_iff hs).1 h
    · exact List.suffix_rfl
    · obtain rfl | hmem := List.mem_cons.1 hmem
      · exact absurd rfl hne
      · exact absurd hsg ((hs.of_mem_ancestors s (by simp)).not_holds_of_mem_ancestors hmem)

theorem isStatement_of_part? (hshape : root.All (Node.Shaped expressionEnclosure text))
    {s l : Site} (hs : s.InTree root) (hl : s.part? .left = some l) :
    l.kind.isStatement = false := by
  obtain ⟨i, n, hn, hrole, rfl⟩ := Site.part?_eq_some hl
  have hinner : (!n.kind.isStatement) = true :=
    (hshape s.node hs.within).suits n (List.mem_of_getElem? hn) .left (by decide) hrole
  rwa [Bool.not_eq_true'] at hinner

theorem Course.enter (hshape : root.All (Node.Shaped expressionEnclosure text)) {g : Site}
    (hg : g.Reachable root c) (hpass : g.kind.isPassable = true) (hgload : g.Holds load)
    (h : Course E load suppresses p trace x) (hopen : p.Reachable root c) (hx : x = .here)
    (habove : p.Above g) :
    ∃ pre trace', trace = pre ++ trace' ∧ Course E load suppresses (.whole g) trace' .here := by
  have onward {s : Site} {i : Nat} {n : Node} (hs : (s.child i n).Reachable root c)
      (h : s.Holds g ∧ s ≠ g) (hchild : (s.child i n).Holds load) : (s.child i n).Holds g :=
    hg.holds_of_child hs.inTree hgload h.1 h.2 hchild
  have behind {pre trace : List Entry}
      (h : ∃ pre trace', trace = pre ++ trace' ∧ Course E load suppresses (.whole g) trace' .here) :
      ∃ pre' trace', pre ++ trace = pre' ++ trace' ∧
        Course E load suppresses (.whole g) trace' .here := by
    obtain ⟨pre', trace', rfl, h⟩ := h
    exact ⟨pre ++ pre', trace', by simp, h⟩
  induction h with
  | statement | broken | finished | unwound | suppressed => cases hx
  | loaded hk =>
    exact absurd habove (Site.Reachable.not_holds hopen hg hpass (isPassable_of_isStep hk))
  | other _ hsolid => exact absurd habove (Site.Reachable.not_holds hopen hg hpass hsolid)
  | @parts s f trace x hroute h ih =>
    by_cases heq : s = g
    · exact ⟨[], trace, rfl, heq ▸ hx ▸ .parts hroute h⟩
    · exact ih (.inr ⟨hopen, hroute⟩) hx ⟨habove, heq⟩
  | passed _ _ _ _ ih' | caught _ _ _ _ _ ih' => exact behind (ih' hopen hx habove)
  | stopped hn h _ ih =>
    exact ih (hopen.child hn) hx (onward (hopen.child hn) habove (h.holds_load hx))
  | skipped _ _ ih => exact ih hopen hx habove
  | again _ ih => exact ih hopen hx habove
  | @iterable s x hk hnot hload' =>
    by_cases heq : s = g
    · exact ⟨[], [], rfl, heq ▸ hx ▸ .iterable hk hnot hload'⟩
    · obtain ⟨i, n, hn, hsolid, hchild⟩ := hload' hx
      have hs : (Stage.rounds s).Reachable root c := ⟨hopen, hk⟩
      exact absurd (onward (hs.roundsChild hn) ⟨habove, heq⟩ hchild)
        ((hs.roundsChild hn).not_holds hg hpass hsolid)
  | @loop s trace x hk h ih =>
    by_cases heq : s = g
    · exact ⟨[], trace, rfl, heq ▸ hx ▸ .loop hk h⟩
    · exact ih ⟨hopen, hk⟩ hx ⟨habove, heq⟩
  | ended hnot => exact absurd hx hnot
  | exhausted hn _ h ih =>
    exact ih (hopen.roundsChild hn) hx (onward (hopen.roundsChild hn) habove (h.holds_load hx))
  | @target s l trace x hl _ _ hload' =>
    have hsolid :=
      (not_isPassable_of_isStatement (isStatement_of_part? hshape hopen.1.inTree hl)).1
    obtain ⟨i, n, hn, -, rfl⟩ := Site.part?_eq_some hl
    exact absurd (onward (hopen.roundsChild hn) habove (hload' hx))
      ((hopen.roundsChild hn).not_holds hg hpass hsolid)
  | body _ hn _ h ih =>
    exact behind (ih (hopen.roundsChild hn) rfl
      (onward (hopen.roundsChild hn) habove (h.holds_load rfl)))
  | round _ _ _ _ _ _ _ ih' => exact behind (ih' hopen hx habove)

def EndsBehind (stmt : Entry → Site) (st : Site) (trace : List Entry) : Prop :=
  ∃ e, trace.getLast? = some e ∧ (stmt e = st ∨ st.stop ≤ (stmt e).start)

section EndsBehind

variable {st : Site} {trace trace' : List Entry}

theorem EndsBehind.append (h : EndsBehind stmt st trace') :
    EndsBehind stmt st (trace ++ trace') := by
  obtain ⟨e, hlast, hle⟩ := h
  exact ⟨e, by rw [List.getLast?_append, hlast, Option.some_or], hle⟩

theorem EndsBehind.append_of_forall (h : EndsBehind stmt st trace)
    (h' : ∀ e ∈ trace', st.stop ≤ (stmt e).start) : EndsBehind stmt st (trace ++ trace') := by
  cases hlast : trace'.getLast? with
  | none =>
    rw [List.getLast?_eq_none_iff.1 hlast, List.append_nil]
    exact h
  | some e =>
    exact ⟨e, by rw [List.getLast?_append, hlast, Option.some_or],
      .inr (h' e (List.mem_of_getLast? hlast))⟩

theorem endsBehind_madeIn (hE : ∀ e ∈ E, e.Fixed root c (stmt e)) {b : Entry} (hb : b ∈ E) :
    EndsBehind stmt (stmt b) (madeIn E (stmt b)) := by
  have hmem : b ∈ madeIn E (stmt b) := mem_madeIn.2 ⟨hb, (hE b hb).holds⟩
  obtain ⟨e, hlast⟩ : ∃ e, (madeIn E (stmt b)).getLast? = some e :=
    ⟨_, List.getLast?_eq_some_getLast (List.ne_nil_of_mem hmem)⟩
  obtain ⟨heE, hse⟩ := mem_madeIn.1 (List.mem_of_getLast? hlast)
  have hb := hE b hb
  have he := hE e heE
  exact ⟨e, hlast, .inl (hb.reachable.eq_of_holds he.reachable (he.holds_of hb.reachable hse)
    hb.solid).symm⟩

end EndsBehind

structure Site.Direct (root : Node) (g c st : Site) : Prop where
  base : g = c ∨ g.Reachable root c ∧ g.kind.route? = some .sequence
  inside : g ∈ st.ancestors
  sequence : ∀ a ∈ st.ancestors, g ∈ a.ancestors → a.kind.route? = some .sequence

theorem Site.Direct.route?_eq {g s st : Site} (hg : g.Direct root c st) (hst : st.InTree root)
    (hs : s.Reachable root c) (hgs : g.Holds s) (hsst : s.Holds st) (hne : s ≠ st) :
    s.kind.route? = some .sequence := by
  have hmem : s ∈ st.ancestors := ((hs.inTree.holds_iff hst).1 hsst).resolve_left hne
  obtain rfl | hgs := ((hst.of_mem_ancestors g hg.inside).holds_iff hs.inTree).1 hgs
  · obtain rfl | ⟨-, hseq⟩ := hg.base
    · exact absurd rfl (hs.inTree.ne_of_mem_ancestors hs.inside)
    · exact hseq
  · exact hg.sequence s hmem hgs

def Stage.LeadsTo (g st : Site) : Stage → Prop
  | whole s => g.Holds s ∧ s.Holds st
  | rest f s i => f = .sequence ∧ g.Holds s ∧
      ∃ k n, i ≤ k ∧ s.node.children[k]? = some n ∧ (s.child k n).Holds st
  | rounds _ => False

theorem Site.Direct.leadsTo {g s st : Site} {f : Flow} (hg : g.Direct root c st)
    (hst : st.InTree root) (hsolid : st.kind.isPassable = false) (hs : s.Reachable root c)
    (h : (Stage.whole s).LeadsTo g st) (hroute : s.kind.route? = some f) :
    (Stage.rest f s 0).LeadsTo g st := by
  have hne : s ≠ st := by
    rintro rfl
    rw [isPassable_of_route? hroute] at hsolid
    cases hsolid
  rw [hg.route?_eq hst hs h.1 h.2 hne] at hroute
  cases hroute
  obtain ⟨k, n, hn, hchild⟩ := hst.exists_child (((hs.inTree.holds_iff hst).1 h.2).resolve_left hne)
  exact ⟨rfl, h.1, k, n, Nat.zero_le k, hn, hchild⟩

theorem Site.Direct.ne_forStatement {g s st : Site} (hg : g.Direct root c st)
    (hst : st.InTree root) (hsolid : st.kind.isPassable = false) (hs : s.Reachable root c)
    (h : (Stage.whole s).LeadsTo g st) : s.kind ≠ .forStatement := by
  intro hk
  have hne : s ≠ st := by
    rintro rfl
    rw [hk] at hsolid
    cases hsolid
  have hroute := hg.route?_eq hst hs h.1 h.2 hne
  rw [hk] at hroute
  cases hroute

theorem Course.later (hp : root.Placed text) (hE : ∀ e ∈ E, e.Fixed root c (stmt e)) {s st : Site}
    {i k : Nat} {n : Node} (h : Course E load suppresses (.rest .sequence s i) trace x)
    (hopen : (Stage.rest .sequence s i).Reachable root c) (hst : st.InTree root)
    (hn : s.node.children[k]? = some n) (hchild : (s.child k n).Holds st) (hk : k < i) :
    ∀ e ∈ trace, st.stop ≤ (stmt e).start := by
  intro e he
  obtain ⟨heE, j, m, hj, hm, hmsite⟩ := h.made e he
  have hmstmt := (hE e heE).holds_of (hopen.child hm) hmsite
  have hij : i ≤ j := hj.resolve_left (by simp)
  exact Site.InTree.stop_le_start hp hopen.inTree hst (hE e heE).reachable.inTree hn hm hchild
    hmstmt (by omega)

theorem Course.endsBehind_of_done (hp : root.Placed text)
    (hE : ∀ e ∈ E, e.Fixed root c (stmt e)) {b : Entry} (hb : b ∈ E)
    (hstep : (stmt b).kind.isStep = true) {g : Site} (hg : g.Direct root c (stmt b))
    (hwith : ∀ w : Site, w.InTree root → w.kind = .withStatement → suppresses w →
      w.Holds (stmt b) → w.Holds load)
    (h : Course E load suppresses p trace x) (hopen : p.Reachable root c) (hx : x = .done)
    (hlead : p.LeadsTo g (stmt b)) (hpast : ¬p.Holds load) :
    EndsBehind stmt (stmt b) trace := by
  have hst := (hE b hb).reachable
  have hsolid := (hE b hb).solid
  induction h with
  | broken | loaded | unwound | body => cases hx
  | @statement s hk =>
    obtain rfl := Site.Reachable.eq_of_holds hopen hst hlead.2 (isPassable_of_isStep hk)
    exact endsBehind_madeIn hE hb
  | other hk hpass =>
    obtain rfl := Site.Reachable.eq_of_holds hopen hst hlead.2 hpass
    rw [hstep] at hk
    cases hk
  | parts hroute _ ih =>
    exact ih (.inr ⟨hopen, hroute⟩) hx (hg.leadsTo hst.inTree hsolid hopen hlead hroute)
      fun h => hpast h.whole
  | suppressed hk hs => exact absurd (hwith _ (Site.Reachable.inTree hopen) hk hs hlead.2) hpast
  | finished hi =>
    obtain ⟨-, -, k, n, hk, hn, -⟩ := hlead
    have := (List.getElem?_eq_some_iff.1 hn).1
    omega
  | @passed f s i n trace trace' x hn h h' ih ih' =>
    obtain ⟨rfl, hgs, k, m, hk, hm, hchild⟩ := hlead
    obtain rfl | hk := Nat.eq_or_lt_of_le hk
    · rw [hn] at hm
      cases hm
      refine (ih (hopen.child hn) rfl ⟨hgs.trans (s.holds_child i n), hchild⟩
        fun h => hpast (Stage.holds_first hn h)).append_of_forall ?_
      exact h'.later hp hE hopen hst.inTree hn hchild (Nat.lt_succ_self i)
    · exact (ih' hopen hx ⟨rfl, hgs, k, m, hk, hm, hchild⟩ fun h => hpast h.of_succ).append
  | stopped _ _ hdone => exact absurd hx hdone
  | skipped hf => exact absurd hlead.1 hf
  | caught hf =>
    rw [hlead.1] at hf
    cases hf
  | again => cases hlead.1
  | iterable _ hdone | target _ _ hdone => exact absurd hx hdone
  | loop hk => exact absurd hk (hg.ne_forStatement hst.inTree hsolid hopen hlead)
  | ended | exhausted | round => exact hlead.elim

theorem Course.endsBehind_of_here (hp : root.Placed text)
    (hE : ∀ e ∈ E, e.Fixed root c (stmt e)) (hload : load.InTree root)
    (hlen : load.start < load.stop) {b : Entry} (hb : b ∈ E)
    (hstep : (stmt b).kind.isStep = true) (hbefore : (stmt b).stop ≤ load.start) {g : Site}
    (hg : g.Direct root c (stmt b))
    (hwith : ∀ w : Site, w.InTree root → w.kind = .withStatement → suppresses w →
      w.Holds (stmt b) → w.Holds load)
    (h : Course E load suppresses p trace x) (hopen : p.Reachable root c) (hx : x = .here)
    (hlead : p.LeadsTo g (stmt b)) : EndsBehind stmt (stmt b) trace := by
  have hst := (hE b hb).reachable
  have hsolid := (hE b hb).solid
  induction h with
  | statement | broken | finished | unwound | suppressed => cases hx
  | loaded hk _ hsload =>
    obtain rfl := Site.Reachable.eq_of_holds hopen hst hlead.2 (isPassable_of_isStep hk)
    have := (hload.around hp hst.inTree hsload).2
    omega
  | other hk hpass =>
    obtain rfl := Site.Reachable.eq_of_holds hopen hst hlead.2 hpass
    rw [hstep] at hk
    cases hk
  | parts hroute _ ih =>
    exact ih (.inr ⟨hopen, hroute⟩) hx (hg.leadsTo hst.inTree hsolid hopen hlead hroute)
  | @stopped f s i n trace x hn h _ ih =>
    obtain ⟨rfl, hgs, k, m, hk, hm, hmst⟩ := hlead
    obtain rfl | hk := Nat.eq_or_lt_of_le hk
    · rw [hn] at hm
      cases hm
      exact ih (hopen.child hn) hx ⟨hgs.trans (s.holds_child i n), hmst⟩
    · have := Site.InTree.stop_le_start hp hopen.inTree hload hst.inTree hn hm (h.holds_load hx)
        hmst hk
      have := hst.inTree.start_le_stop hp
      omega
  | @passed f s i n trace trace' x hn h h' ih ih' =>
    obtain ⟨rfl, hgs, k, m, hk, hm, hmst⟩ := hlead
    obtain rfl | hk := Nat.eq_or_lt_of_le hk
    · rw [hn] at hm
      cases hm
      refine EndsBehind.append_of_forall ?_
        (h'.later hp hE hopen hst.inTree hn hmst (Nat.lt_succ_self i))
      refine h.endsBehind_of_done hp hE hb hstep hg hwith (hopen.child hn) rfl
        ⟨hgs.trans (s.holds_child i n), hmst⟩ fun hchild => ?_
      obtain ⟨j, l, hj, hl, hlload⟩ := h'.holds_load hx
      have := hj.resolve_left (by simp)
      have := Site.eq_of_holds_child hchild hlload
      omega
    · exact (ih' hopen hx ⟨rfl, hgs, k, m, hk, hm, hmst⟩).append
  | skipped hf => exact absurd hlead.1 hf
  | caught hf =>
    rw [hlead.1] at hf
    cases hf
  | again => cases hlead.1
  | iterable hk | loop hk => exact absurd hk (hg.ne_forStatement hst.inTree hsolid hopen hlead)
  | ended | exhausted | target | body | round => exact hlead.elim

theorem Course.endsBehind_of_rounds (hE : ∀ e ∈ E, e.Fixed root c (stmt e)) {b : Entry} (hb : b ∈ E) {f : Site}
    (hf : (Stage.rounds f).Reachable root c) (hl : f.part? .left = some (stmt b)) {k : Nat} {m : Node}
    (hm : f.node.children[k]? = some m) (hblock : m.kind = .block)
    (hload : (f.child k m).Holds load)
    (hbehind : ∀ s : Site, s.InTree root → (f.child k m).Holds s → (stmt b).stop ≤ s.start)
    (h : Course E load suppresses p trace x) (hrounds : p = .rounds f) (hx : x = .here) :
    EndsBehind stmt (stmt b) trace := by
  have same {i : Nat} {n : Node} (hn : f.node.children[i]? = some n)
      (h : (f.child i n).Holds load) : n = m := by
    obtain rfl := Site.eq_of_holds_child h hload
    rw [hn] at hm
    cases hm
    rfl
  induction h with
  | statement | broken | loaded | other | parts | suppressed | finished | unwound | passed | stopped
  | skipped | caught | again | iterable | loop => cases hrounds
  | ended hnot => exact absurd hx hnot
  | exhausted hn hk h =>
    cases hrounds
    rw [same hn (h.holds_load hx), hblock] at hk
    cases hk
  | target hl' _ _ hload' =>
    cases hrounds
    have hlload := hload' hx
    rw [hl] at hl'
    cases hl'
    have hsolid := (hE b hb).solid
    obtain ⟨i, n, hn, -, heq⟩ := Site.part?_eq_some hl
    rw [heq] at hlload hsolid
    rw [same hn hlload] at hsolid
    change m.kind.isPassable = false at hsolid
    rw [hblock] at hsolid
    cases hsolid
  | @body s l i n trace hl' hn hk h =>
    cases hrounds
    rw [hl] at hl'
    cases hl'
    refine (endsBehind_madeIn hE hb).append_of_forall fun e he => ?_
    obtain ⟨heE, hsite⟩ := h.made e he
    obtain rfl := Site.eq_of_holds_child (h.holds_load rfl) hload
    rw [hn] at hm
    cases hm
    exact hbehind _ (hE e heE).reachable.inTree ((hE e heE).holds_of (hf.roundsChild hn) hsite)
  | round _ _ _ _ _ _ _ ih' => exact (ih' hrounds hx).append

end Course

def stepEnclosure : Enclosure Rule where
  outer k := k.isPassable && k != .block && k != .decoratedDefinition
  inner k := !k.isStep && k != .withStatement && k != .decoratedDefinition
  rules := statementEnclosure.rules

theorem stepEnclosure_lawful : stepEnclosure.Lawful Rule.phrase where
  tops := by decide +kernel
  regular := by decide +kernel
  targets := by decide
  extras := by decide

def Kind.isPlainStep (k : Kind) : Bool :=
  k.isStep || k == .withStatement || k == .decoratedDefinition

section Guards

variable {root : Node} {text : List Char} {c s : Site}

theorem Site.Reachable.of_mem_ancestors (hs : s.Reachable root c) {a : Site} (ha : a ∈ s.ancestors)
    (hc : c ∈ a.ancestors) : a.Reachable root c :=
  ⟨hs.inTree.of_mem_ancestors a ha, hc,
    fun b hb hcb => hs.passable b (hs.inTree.mem_ancestors_trans ha hb) hcb⟩

theorem Site.Reachable.exists_parent (hs : s.Reachable root c) : ∃ q i n, s = q.child i n ∧
    q.node.children[i]? = some n ∧ (q = c ∨ q.Reachable root c) := by
  obtain ⟨hin, hc, hflow⟩ := id hs
  cases hin with
  | root => simp at hc
  | @child q i n hq hn =>
    refine ⟨q, i, n, rfl, hn, ?_⟩
    obtain rfl | hc := List.mem_cons.1 hc
    · exact .inl rfl
    · exact .inr (hs.of_mem_ancestors (by simp) hc)

theorem Site.Reachable.parent_kind (hshape : root.All (Node.Shaped stepEnclosure text)) {i : Nat}
    {n : Node} (hs : (s.child i n).Reachable root c) (hparent : s.Reachable root c)
    (hn : s.node.children[i]? = some n) (hk : n.kind.isPlainStep = true) :
    s.kind = .block ∨ s.kind = .decoratedDefinition := by
  by_contra hother
  rw [not_or] at hother
  have hpass := hs.passable s (by simp) hparent.inside
  have houter : stepEnclosure.outer s.kind = true := by
    simp [stepEnclosure, hpass, hother.1, hother.2]
  have hinner := (hshape s.node hparent.inTree.within).inner houter n (List.mem_of_getElem? hn)
  simp only [stepEnclosure, Bool.and_eq_true, Bool.not_eq_true', bne_iff_ne] at hinner
  simp [Kind.isPlainStep, hinner] at hk

theorem Site.Direct.of_parent {q : Site} {i : Nat} {n : Node}
    (hbase : q = c ∨ q.Reachable root c ∧ q.kind.route? = some .sequence) (hq : q.InTree root) :
    q.Direct root c (q.child i n) := by
  refine ⟨hbase, by simp, fun a ha hqa => ?_⟩
  obtain rfl | ha := List.mem_cons.1 ha
  · exact absurd rfl (hq.ne_of_mem_ancestors hqa)
  · exact absurd rfl (hq.ne_of_mem_ancestors (hq.mem_ancestors_trans ha hqa))

theorem Site.Direct.child {g : Site} {i : Nat} {n : Node} (h : g.Direct root c s)
    (hroute : s.kind.route? = some .sequence) : g.Direct root c (s.child i n) := by
  refine ⟨h.base, by simp [h.inside], fun a ha hga => ?_⟩
  obtain rfl | ha := List.mem_cons.1 ha
  · exact hroute
  · exact h.sequence a ha hga

theorem Site.Reachable.exists_direct (hshape : root.All (Node.Shaped stepEnclosure text))
    (hc : c.InTree root) (hs : s.Reachable root c) (hk : s.kind.isPlainStep = true) :
    ∃ g, g.Direct root c s ∧
      ((s.ancestorsBelow c.address).find? (·.isGuard c.address) = none ∧ g = c ∨
        (s.ancestorsBelow c.address).find? (·.isGuard c.address) = some g) := by
  induction hlen : s.address.length using Nat.strong_induction_on generalizing s with
  | _ len ih =>
  obtain ⟨q, i, n, rfl, hn, rfl | hq⟩ := hs.exists_parent
  · refine ⟨q, .of_parent (.inl rfl) hc, .inl ⟨?_, rfl⟩⟩
    rw [ancestorsBelow_child, if_pos rfl]
    rfl
  have hne {a : Site} (ha : a.Reachable root c) : a.address ≠ c.address := fun h =>
    ha.inTree.ne_of_mem_ancestors ha.inside (hc.eq_of_address ha.inTree h.symm)
  rw [ancestorsBelow_child, if_neg (hne hq)]
  obtain hblock | hdecorated := hs.parent_kind hshape hq hn hk
  · have hroute : q.kind.route? = some .sequence := by rw [hblock]; rfl
    obtain ⟨r, j, m, rfl, hm, hr⟩ := hq.exists_parent
    have hguard := isGuard_block hblock c.address
    rw [List.find?_cons, ancestorsBelow_child]
    obtain rfl | hr := hr
    · rw [hguard, bne_self_eq_false, Bool.false_and, if_pos rfl]
      exact ⟨r, .child (.of_parent (.inl rfl) hc) hroute, .inl ⟨rfl, rfl⟩⟩
    rw [if_neg (hne hr)]
    by_cases hwith : r.kind = .withStatement
    · have hrlen : r.address.length < len := by
        rw [← hlen]
        simp only [Site.child, List.length_cons]
        omega
      obtain ⟨g, hg, hfind⟩ := ih _ hrlen hr (by rw [hwith]; rfl) rfl
      have hrroute : r.kind.route? = some .sequence := by rw [hwith]; rfl
      have hrguard : r.isGuard c.address = false := by
        unfold isGuard
        rw [hwith]
      rw [hguard, hwith, bne_self_eq_false, Bool.and_false, List.find?_cons, hrguard]
      exact ⟨g, (hg.child hrroute).child hroute, hfind⟩
    · have htrue : (r.child j m).isGuard c.address = true := by
        rw [hguard]
        simp [hne hr, hwith]
      rw [htrue]
      exact ⟨r.child j m, .of_parent (.inr ⟨hq, hroute⟩) hq.inTree, .inr rfl⟩
  · have hqlen : q.address.length < len := by
      rw [← hlen]
      exact Nat.lt_succ_self _
    obtain ⟨g, hg, hfind⟩ := ih _ hqlen hq (by rw [hdecorated]; rfl) rfl
    have hqguard : q.isGuard c.address = false := by
      unfold isGuard
      rw [hdecorated]
    rw [List.find?_cons, hqguard]
    exact ⟨g, hg.child (by rw [hdecorated]; rfl), hfind⟩

end Guards

inductive Entry.BoundAt (container : Address) (e : Entry) : Site → Prop
  | statement {st : Site} (h : e.IsSimple container st) : BoundAt container e st
  | header {st : Site} (hparent : e.site.parent? = some st) (hk : st.kind.isDefinition = true)
      (himported : e.imported = none)
      (hnested : ∀ a ∈ st.ancestorsBelow container, a.kind.isPassable = true) :
      BoundAt container e st
  | target {f l : Site} (hf : f ∈ e.site.ancestors) (hk : f.kind = .forStatement)
      (hl : f.part? .left = some l) (hin : l.Holds e.site)
      (hparts : ∀ a ∈ e.site.ancestorsBelow f.address, a.IsTargetPart)
      (himported : e.imported = none)
      (hnested : ∀ a ∈ f.ancestorsBelow container, a.kind.isPassable = true) :
      BoundAt container e l

def Site.IsInHeader (load st : Site) : Prop :=
  st.kind.isDefinition = true ∧ st.Holds load ∨
    ∃ f, st.parent? = some f ∧ f.kind = .forStatement ∧ f.Holds load ∧
      ∀ i n, f.node.children[i]? = some n → n.kind = .block → ¬(f.child i n).Holds load

theorem isPassable_of_flow? {k : Kind} (h : k.flow? ≠ none) : k.isPassable = true := by
  unfold Kind.flow? at h
  split at h <;> first | rfl | exact absurd rfl h

theorem Site.not_isGuard_of_isDefinition {s : Site} (h : s.kind.isDefinition = true) (c : Address) :
    s.isGuard c = false ∧ s.kind.isSimpleStatement = false := by
  rw [Kind.isDefinition, Bool.or_eq_true, beq_iff_eq, beq_iff_eq] at h
  unfold isGuard
  obtain h | h := h <;> rw [h] <;> exact ⟨rfl, rfl⟩

section BoundAt

variable {root : Node} {text : List Char} {c s st : Site} {e : Entry}

theorem Site.reachable_of_nested (hroot : root.kind = .module) (hs : s.InTree root)
    (hk : s.kind ≠ .module) (hc : c.InTree root)
    (h : ∀ a ∈ s.ancestorsBelow c.address, a.kind.isPassable = true) : s.Reachable root c := by
  have hinside : c ∈ s.ancestors := by
    by_contra hout
    have hall : s.ancestorsBelow c.address = s.ancestors := by
      refine List.takeWhile_eq_self_iff.2 fun a ha => bne_iff_ne.2 fun heq => hout ?_
      rwa [← (hs.of_mem_ancestors a ha).eq_of_address hc heq]
    obtain rfl | hmem := hs.eq_root_or_mem_ancestors
    · exact hk hroot
    · have hpass := h (Site.root root) (hall ▸ hmem)
      rw [show (Site.root root).kind = .module from hroot] at hpass
      cases hpass
  exact ⟨hs, hinside, fun a ha hca => h a ((hs.mem_ancestorsBelow_iff hinside).2 ⟨ha, hca⟩)⟩

theorem Site.Reachable.address_ne (hc : c.InTree root) (hs : s.Reachable root c) :
    s.address ≠ c.address := fun h =>
  hs.inTree.ne_of_mem_ancestors hs.inside (hc.eq_of_address hs.inTree h.symm)

theorem Site.Reachable.find?_isSimpleStatement (hs : s.Reachable root c) :
    (s.ancestorsBelow c.address).find? (·.kind.isSimpleStatement) = none := by
  refine List.find?_eq_none.2 fun a ha hsimple => ?_
  obtain ⟨ha, hca⟩ := (hs.inTree.mem_ancestorsBelow_iff hs.inside).1 ha
  have hpass := hs.passable a ha hca
  rw [isPassable_of_isStep (by rw [Kind.isStep, hsimple, Bool.true_or])] at hpass
  cases hpass

theorem Site.InTree.exists_of_parent? (hs : s.InTree root) (h : s.parent? = some st) :
    ∃ i n, s = st.child i n := by
  cases hs with
  | root => cases h
  | @child q i n =>
    cases h
    exact ⟨i, n, rfl⟩

theorem Entry.BoundAt.fixed (hroot : root.kind = .module)
    (hshape : root.All (Node.Shaped expressionEnclosure text)) (hc : c.InTree root)
    (he : e.site.InTree root) (h : e.BoundAt c.address st) : e.Fixed root c st := by
  cases h with
  | statement h =>
    have hst := h.anchored hroot he hc
    have hstep : st.kind.isStep = true := by rw [Kind.isStep, h.simple, Bool.true_or]
    exact ⟨he, hst.holds_site, isPassable_of_isStep hstep, ⟨hst.isOpen.inTree, hst.isOpen.inside,
      fun a ha hca => isPassable_of_flow? (hst.isOpen.flow a ha hca)⟩, .inl hstep⟩
  | header hparent hk _ hnested =>
    have hmem : st ∈ e.site.ancestors := List.mem_of_mem_head? hparent
    have hstep : st.kind.isStep = true := by rw [Kind.isStep, hk, Bool.or_true]
    have hne : st.kind ≠ .module := by
      intro hmodule
      rw [hmodule] at hk
      cases hk
    exact ⟨he, (he.suffix_of_mem_ancestors st hmem).1, isPassable_of_isStep hstep,
      Site.reachable_of_nested hroot (he.of_mem_ancestors st hmem) hne hc hnested, .inl hstep⟩
  | @target f _ hf hk hl hin _ _ hnested =>
    have hreach : f.Reachable root c :=
      Site.reachable_of_nested hroot (he.of_mem_ancestors f hf) (by simp [hk]) hc hnested
    have hrounds : (Stage.rounds f).Reachable root c := ⟨hreach, hk⟩
    have hsolid :=
      (not_isPassable_of_isStatement (isStatement_of_part? hshape hreach.inTree hl)).1
    refine ⟨he, hin, hsolid, ?_, .inr ⟨f, hreach, hk, hl⟩⟩
    obtain ⟨i, n, hn, -, rfl⟩ := Site.part?_eq_some hl
    exact hrounds.roundsChild hn

theorem Site.binding_of_header (source : List Char) (hc : c.InTree root) (hst : st.Reachable root c)
    (hk : st.kind.isDefinition = true) (i : Nat) (n : Node) (imported : Option (List String)) :
    ((st.child i n).binding source c.address imported).effective = n.stop ∧
      ((st.child i n).binding source c.address imported).guard =
        ((st.ancestorsBelow c.address).find? (·.isGuard c.address)).map Site.landmark := by
  unfold Site.binding
  dsimp only
  rw [Site.ancestorsBelow_child, if_neg (hst.address_ne hc), List.find?_cons, List.find?_cons,
    (Site.not_isGuard_of_isDefinition hk c.address).1,
    (Site.not_isGuard_of_isDefinition hk c.address).2, hst.find?_isSimpleStatement]
  exact ⟨rfl, rfl⟩

theorem Site.binding_of_target (source : List Char) {f : Site} (hs : s.InTree root)
    (hmem : f ∈ s.ancestors) (hf : f.Reachable root c) (hk : f.kind = .forStatement)
    (hparts : ∀ a ∈ s.ancestorsBelow f.address, a.IsTargetPart) (imported : Option (List String)) :
    (s.binding source c.address imported).effective = s.stop ∧
      (s.binding source c.address imported).guard = some f.landmark := by
  have hguard : (s.ancestorsBelow f.address).find? (·.isGuard c.address) = none :=
    List.find?_eq_none.2 fun a ha => by simp [((hparts a ha).not_isGuard c.address).1]
  have hsimple : (s.ancestorsBelow f.address).find? (·.kind.isSimpleStatement) = none :=
    List.find?_eq_none.2 fun a ha => by simp [((hparts a ha).not_isGuard c.address).2]
  have hfguard : f.isGuard c.address = true := by
    unfold isGuard
    rw [hk]
  have hfsimple : f.kind.isSimpleStatement = false := by rw [hk]; rfl
  unfold Site.binding
  dsimp only
  rw [hs.ancestorsBelow_eq_append hmem hf.inside, List.find?_append, List.find?_append,
    List.find?_cons, List.find?_cons, hguard, hsimple, hfguard, hfsimple,
    hf.find?_isSimpleStatement]
  exact ⟨rfl, rfl⟩

theorem Entry.IsSimple.binding_of_fixed (source : List Char) (h : e.IsSimple c.address st)
    (he : e.Fixed root c st) (imported : Option (List String)) :
    (e.site.binding source c.address imported).effective = st.stop ∧
      (e.site.binding source c.address imported).guard =
        ((st.ancestorsBelow c.address).find? (·.isGuard c.address)).map Site.landmark := by
  refine h.binding_eq source ⟨he.site, List.takeWhile_subset _ h.mem, h.simple, ?_⟩ imported
  obtain ⟨hst, hinside, -⟩ := he.reachable
  exact ⟨hst, hinside, fun a ha hca => h.nested a ((hst.mem_ancestorsBelow_iff hinside).2 ⟨ha, hca⟩)⟩

theorem Entry.BoundAt.effective (source : List Char) (hroot : root.kind = .module)
    (hp : root.Placed text) (hshape : root.All (Node.Shaped expressionEnclosure text))
    (hc : c.InTree root) (h : e.BoundAt c.address st) (he : e.Fixed root c st) :
    let effective := (e.site.binding source c.address e.imported).effective
    effective ≤ st.stop ∧ st.start ≤ effective ∧
      (st.kind.isSimpleStatement = true ∧ effective = st.stop ∨
        st.kind.isSimpleStatement = false ∧ e.imported = none) := by
  have haround := he.site.around hp he.reachable.inTree he.holds
  have hname : st.start ≤ e.site.stop := Nat.le_trans haround.1 (he.site.start_le_stop hp)
  cases h with
  | statement h =>
    rw [(h.binding_of_fixed source he e.imported).1]
    exact ⟨Nat.le_refl _, he.reachable.inTree.start_le_stop hp, .inl ⟨h.simple, rfl⟩⟩
  | header hparent hk himported =>
    obtain ⟨i, n, hsite⟩ := he.site.exists_of_parent? hparent
    rw [hsite] at haround hname ⊢
    rw [(Site.binding_of_header source hc he.reachable hk i n e.imported).1]
    exact ⟨haround.2, hname, .inr ⟨(Site.not_isGuard_of_isDefinition hk c.address).2, himported⟩⟩
  | @target f _ hf hk hl hin hparts himported hnested =>
    have hreach : f.Reachable root c :=
      Site.reachable_of_nested hroot (he.site.of_mem_ancestors f hf) (by simp [hk]) hc hnested
    rw [(Site.binding_of_target source he.site hf hreach hk hparts e.imported).1]
    exact ⟨haround.2, hname, .inr ⟨(not_isPassable_of_isStatement
      (isStatement_of_part? hshape hreach.inTree hl)).2, himported⟩⟩

end BoundAt

theorem foldl_max_eq_or_mem (ns : List Nat) (m : Nat) : ns.foldl max m = m ∨ ns.foldl max m ∈ ns := by
  induction ns generalizing m with
  | nil => exact .inl rfl
  | cons n ns ih =>
    obtain h | h := ih (max m n)
    · obtain hm | hm := Nat.le_total n m
      · exact .inl (h.trans (Nat.max_eq_left hm))
      · exact .inr (List.mem_cons.2 (.inl (h.trans (Nat.max_eq_right hm))))
    · exact .inr (List.mem_cons_of_mem n h)

theorem exists_certain (bindings : List Binding) (load : Site) (container : Address) :
    certainFloor bindings load container = 0 ∨ ∃ b ∈ bindings,
      certainFloor bindings load container = b.effective ∧ b.effective ≤ load.start ∧
      ∀ g ∈ b.guard, g ∈ (load.ancestorsBelow container).map Site.landmark := by
  refine (foldl_max_eq_or_mem _ 0).imp_right fun h => ?_
  obtain ⟨b, hb, heq⟩ := List.mem_map.1 h
  obtain ⟨hb, hcertain⟩ := List.mem_filter.1 hb
  obtain ⟨hle, hguard⟩ := Bool.and_eq_true_iff.1 hcertain
  refine ⟨b, hb, heq.symm, of_decide_eq_true hle, fun g hg => ?_⟩
  rw [Option.mem_def.1 hg] at hguard
  exact List.contains_iff_mem.1 hguard

section Seen

variable {root : Node} {source : List Char} {c load : Site} {E : List Entry} {stmt : Entry → Site}
  {suppresses : Site → Prop} {trace : List Entry}

theorem Site.InTree.mem_ancestors_of_landmark {g : Site} {container : Address}
    (hload : load.InTree root) (hg : g.InTree root)
    (h : g.landmark ∈ (load.ancestorsBelow container).map Site.landmark) : g ∈ load.ancestors := by
  obtain ⟨a, ha, heq⟩ := List.mem_map.1 h
  have ha := (List.takeWhile_subset _) ha
  have haddress : a.address = g.address := congrArg Landmark.address heq
  rwa [← (hload.of_mem_ancestors a ha).eq_of_address hg haddress]

theorem Course.endsBehind_of_step (hp : root.Placed source)
    (hexpression : root.All (Node.Shaped expressionEnclosure source))
    (hshape : root.All (Node.Shaped stepEnclosure source)) (hc : c.InTree root)
    (hE : ∀ e ∈ E, e.Fixed root c (stmt e)) (hload : load.InTree root) (hcload : c ∈ load.ancestors)
    (hlen : load.start < load.stop) {b : Entry} (hb : b ∈ E)
    (hstep : (stmt b).kind.isStep = true) (hbefore : (stmt b).stop ≤ load.start)
    (hguard : ∀ g ∈ (((stmt b).ancestorsBelow c.address).find? (·.isGuard c.address)).map
      Site.landmark, g ∈ (load.ancestorsBelow c.address).map Site.landmark)
    (hwith : ∀ w : Site, w.InTree root → w.kind = .withStatement → suppresses w →
      w.Holds (stmt b) → w.Holds load)
    (hrun : Course E load suppresses (.rest .sequence c 0) trace .here) :
    EndsBehind stmt (stmt b) trace := by
  have hst := (hE b hb).reachable
  obtain ⟨g, hg, hfind⟩ := hst.exists_direct hshape hc
    (by rw [Kind.isPlainStep, hstep, Bool.true_or, Bool.true_or])
  have hgst : g.Holds (stmt b) := (hst.inTree.suffix_of_mem_ancestors g hg.inside).1
  have hopen : (Stage.rest .sequence c 0).Reachable root c := .inl ⟨rfl, hc, rfl⟩
  obtain rfl | ⟨hgreach, hroute⟩ := hg.base
  · obtain ⟨k, n, hn, hchild⟩ := hst.inTree.exists_child hg.inside
    exact hrun.endsBehind_of_here hp hE hload hlen hb hstep hbefore hg hwith hopen rfl
      ⟨rfl, List.suffix_rfl, k, n, Nat.zero_le k, hn, hchild⟩
  · have hgload : g ∈ load.ancestors := by
      obtain ⟨-, rfl⟩ | hfind := hfind
      · exact hcload
      · exact hload.mem_ancestors_of_landmark hgreach.inTree
          (hguard g.landmark (by rw [hfind]; rfl))
    obtain ⟨pre, trace', rfl, h⟩ := hrun.enter hexpression hgreach (isPassable_of_route? hroute)
      (hload.suffix_of_mem_ancestors g hgload).1 hopen rfl
      ⟨(hgreach.inTree.suffix_of_mem_ancestors c hgreach.inside).1,
        hgreach.inTree.ne_of_mem_ancestors hgreach.inside⟩
    exact (h.endsBehind_of_here hp hE hload hlen hb hstep hbefore hg hwith hgreach rfl
      ⟨List.suffix_rfl, hgst⟩).append

theorem Course.endsBehind_of_target (hp : root.Placed source)
    (hexpression : root.All (Node.Shaped expressionEnclosure source)) (hc : c.InTree root)
    (hE : ∀ e ∈ E, e.Fixed root c (stmt e)) (hload : load.InTree root)
    (hlen : load.start < load.stop) {b : Entry} (hb : b ∈ E) (hbefore : b.site.stop ≤ load.start)
    {f : Site} (hf : f.Reachable root c) (hk : f.kind = .forStatement)
    (hl : f.part? .left = some (stmt b)) {k : Nat} {m : Node} (hm : f.node.children[k]? = some m)
    (hblock : m.kind = .block) (hbody : (f.child k m).Holds load)
    (hrun : Course E load suppresses (.rest .sequence c 0) trace .here) :
    EndsBehind stmt (stmt b) trace := by
  have hpass : f.kind.isPassable = true := by rw [hk]; rfl
  obtain ⟨i, n, hn, -, heq⟩ := Site.part?_eq_some hl
  have hsite : (f.child i n).Holds b.site := heq ▸ (hE b hb).holds
  have hik : i < k := by
    obtain h | rfl | h := Nat.lt_trichotomy i k
    · exact h
    · rw [hn] at hm
      cases hm
      have hsolid := (hE b hb).solid
      rw [heq, show (f.child i m).kind = .block from hblock] at hsolid
      cases hsolid
    · have := Site.InTree.stop_le_start hp hf.inTree hload (hE b hb).site hm hn hbody hsite h
      have := (hE b hb).site.start_le_stop hp
      omega
  have hbehind (s : Site) (hs : s.InTree root) (h : (f.child k m).Holds s) :
      (stmt b).stop ≤ s.start :=
    Site.InTree.stop_le_start hp hf.inTree (hE b hb).reachable.inTree hs hn hm
      (heq ▸ List.suffix_rfl) h hik
  obtain ⟨pre, trace', rfl, h⟩ := hrun.enter hexpression hf hpass
    ((f.holds_child k m).trans hbody) (.inl ⟨rfl, hc, rfl⟩) rfl
    ⟨(hf.inTree.suffix_of_mem_ancestors c hf.inside).1, hf.inTree.ne_of_mem_ancestors hf.inside⟩
  refine EndsBehind.append ?_
  cases h with
  | loaded hstep =>
    rw [isPassable_of_isStep hstep] at hpass
    cases hpass
  | other _ hsolid =>
    rw [hpass] at hsolid
    cases hsolid
  | parts hroute =>
    rw [hk] at hroute
    cases hroute
  | iterable _ _ hload' =>
    obtain ⟨j, n, hn, hsolid, hchild⟩ := hload' rfl
    obtain rfl := Site.eq_of_holds_child hchild hbody
    rw [hm] at hn
    cases hn
    rw [hblock] at hsolid
    cases hsolid
  | loop _ h => exact h.endsBehind_of_rounds hE hb ⟨hf, hk⟩ hl hm hblock hbody hbehind rfl rfl

theorem Entry.BoundAt.endsBehind (hroot : root.kind = .module) (hp : root.Placed source)
    (hexpression : root.All (Node.Shaped expressionEnclosure source))
    (hshape : root.All (Node.Shaped stepEnclosure source)) (hc : c.InTree root)
    (hE : ∀ e ∈ E, e.Fixed root c (stmt e)) (hload : load.InTree root) (hcload : c ∈ load.ancestors)
    (hlen : load.start < load.stop) (hleaf : load.node.children = []) {b : Entry} (hb : b ∈ E)
    (hbound : b.BoundAt c.address (stmt b)) (hclear : ¬load.IsInHeader (stmt b))
    (hle : (b.site.binding source c.address b.imported).effective ≤ load.start)
    (hguard : ∀ g ∈ (b.site.binding source c.address b.imported).guard,
      g ∈ (load.ancestorsBelow c.address).map Site.landmark)
    (hwith : ∀ w : Site, w.InTree root → w.kind = .withStatement → suppresses w →
      w.Holds (stmt b) → w.Holds load)
    (hrun : Course E load suppresses (.rest .sequence c 0) trace .here) :
    EndsBehind stmt (stmt b) trace := by
  have hfixed := hE b hb
  generalize hst : stmt b = st at hbound
  cases hbound with
  | statement h =>
    subst hst
    obtain ⟨heff, hfind⟩ := h.binding_of_fixed source hfixed b.imported
    rw [heff] at hle
    rw [hfind] at hguard
    exact hrun.endsBehind_of_step hp hexpression hshape hc hE hload hcload hlen hb
      (by rw [Kind.isStep, h.simple, Bool.true_or]) hle hguard hwith
  | header hparent hk =>
    subst hst
    obtain ⟨i, n, hsite⟩ := hfixed.site.exists_of_parent? hparent
    obtain ⟨heff, hfind⟩ := Site.binding_of_header source hc hfixed.reachable hk i n b.imported
    rw [← hsite] at heff hfind
    rw [heff] at hle
    rw [hfind] at hguard
    refine hrun.endsBehind_of_step hp hexpression hshape hc hE hload hcload hlen hb
      (by rw [Kind.isStep, hk, Bool.or_true]) ?_ hguard hwith
    by_contra hlt
    have haround := hfixed.site.around hp hfixed.reachable.inTree hfixed.holds
    have hord := hfixed.site.start_le_stop hp
    have hstop : b.site.stop = n.stop := by rw [hsite]; rfl
    obtain h | h := hfixed.reachable.inTree.comparable hp hload (by omega) (by omega)
    · exact hclear (.inl ⟨hk, h⟩)
    · obtain heq | hmem := (hload.holds_iff hfixed.reachable.inTree).1 h
      · exact hclear (.inl ⟨hk, by rw [heq]; exact List.suffix_rfl⟩)
      · obtain ⟨j, m, hm, -⟩ := hfixed.reachable.inTree.exists_child hmem
        simp [hleaf] at hm
  | @target f _ hf hk hl _ hparts _ hnested =>
    subst hst
    have hreach : f.Reachable root c :=
      Site.reachable_of_nested hroot (hfixed.site.of_mem_ancestors f hf) (by simp [hk]) hc hnested
    obtain ⟨heff, hfind⟩ := Site.binding_of_target source hfixed.site hf hreach hk hparts b.imported
    rw [heff] at hle
    have hfload := hload.mem_ancestors_of_landmark hreach.inTree
      (hguard f.landmark (by rw [hfind]; rfl))
    obtain ⟨k, m, hm, hblock, hbody⟩ : ∃ k m, f.node.children[k]? = some m ∧ m.kind = .block ∧
        (f.child k m).Holds load := by
      by_contra hnone
      obtain ⟨i, n, -, -, heq⟩ := Site.part?_eq_some hl
      refine hclear (.inr ⟨f, by rw [heq]; rfl, hk, (hload.suffix_of_mem_ancestors f hfload).1, ?_⟩)
      exact fun j n' hn' hk' hholds => hnone ⟨j, n', hn', hk', hholds⟩
    exact hrun.endsBehind_of_target hp hexpression hc hE hload hlen hb hle hreach hk hl hm hblock
      hbody

theorem exists_seen_of_course (hroot : root.kind = .module) (hp : root.Placed source)
    (hexpression : root.All (Node.Shaped expressionEnclosure source))
    (hshape : root.All (Node.Shaped stepEnclosure source)) (hc : c.InTree root)
    (hload : load.InTree root) (hkind : load.kind = .identifier) (hleaf : load.node.children = [])
    (hlen : load.start < load.stop)
    (hE : ∀ e ∈ E, e.site.InTree root ∧ ∃ st, e.BoundAt c.address st)
    (htargets : ∀ e ∈ E, ∀ st, e.BoundAt c.address st →
      ¬load.IsAmongTargets st ∧ ¬load.IsInHeader st)
    (hwith : ∀ w : Site, w.InTree root → w.kind = .withStatement → suppresses w →
      ∀ e ∈ E, w.Holds e.site → w.Holds load)
    (hrun : Course E load suppresses (.rest .sequence c 0) trace .here) {e : Entry}
    (hlast : trace.getLast? = some e) :
    ∃ b ∈ seen (E.map fun e => e.site.binding source c.address e.imported) load c.address,
      b.isImport = e.imported.isSome := by
  have : Nonempty Site := ⟨c⟩
  choose! stmt hstmt using fun e he => (hE e he).2
  have hF : ∀ e ∈ E, e.Fixed root c (stmt e) :=
    fun e he => (hstmt e he).fixed hroot hexpression hc (hE e he).1
  have hopen : (Stage.rest .sequence c 0).Reachable root c := .inl ⟨rfl, hc, rfl⟩
  have hmem := List.mem_of_getLast? hlast
  have heE := (hrun.made e hmem).1
  obtain ⟨hestop, hestart, hekind⟩ :=
    (hstmt e heE).effective source hroot hp hexpression hc (hF e heE)
  have hcload : c ∈ load.ancestors := by
    obtain ⟨j, n, -, hn, hchild⟩ := hrun.holds_load rfl
    have hcmem : c ∈ (c.child j n).ancestors := by simp
    obtain rfl | hchild := ((hc.child hn).holds_iff hload).1 hchild
    · exact hcmem
    · exact hload.mem_ancestors_trans hchild hcmem
  -- What is seen of the last binding, if no certain one takes effect behind it.
  have last (hfloor : certainFloor (E.map fun e => e.site.binding source c.address e.imported) load
      c.address ≤ (e.site.binding source c.address e.imported).effective) :
      ∃ b ∈ seen (E.map fun e => e.site.binding source c.address e.imported) load c.address,
        b.isImport = e.imported.isSome := by
    refine ⟨_, mem_seen hp hload (List.mem_map_of_mem heE) hfloor ?_, rfl⟩
    obtain h | ⟨l, hl, hloop, hlload, hle⟩ := hrun.before_or_looped hp hF hload
      (fun e he => (htargets e he _ (hstmt e he)).1) hopen rfl e hmem
    · exact .inl (Nat.le_trans hestop h)
    · have hlmem : l ∈ load.ancestors := by
        refine ((hl.inTree.holds_iff hload).1 hlload).resolve_left ?_
        rintro rfl
        rw [hkind] at hloop
        obtain h | h := hloop <;> cases h
      exact .inr ⟨l, (hload.mem_ancestorsBelow_iff hcload).2 ⟨hlmem, hl.inside⟩, hloop,
        Nat.le_trans hestop ((hF e heE).reachable.inTree.around hp hl.inTree hle).2⟩
  obtain hzero | ⟨b, hb, hfloor, hle, hguard⟩ :=
    exists_certain (E.map fun e => e.site.binding source c.address e.imported) load c.address
  · exact last (hzero ▸ Nat.zero_le _)
  obtain ⟨d, hd, rfl⟩ := List.mem_map.1 hb
  obtain ⟨hdstop, -, hdkind⟩ := (hstmt d hd).effective source hroot hp hexpression hc (hF d hd)
  obtain ⟨e', hlast', hlate⟩ := (hstmt d hd).endsBehind hroot hp hexpression hshape hc hF hload
    hcload hlen hleaf hd (htargets d hd _ (hstmt d hd)).2 hle hguard
    (fun w hin hk hw hwd => hwith w hin hk hw d hd (hwd.trans (hF d hd).holds)) hrun
  rw [hlast] at hlast'
  cases hlast'
  obtain hsame | hbehind := hlate
  · rw [hsame] at hestop hekind
    obtain ⟨-, heff⟩ | ⟨hsimple, himported⟩ := hekind
    · exact last (by rw [hfloor, heff]; exact hdstop)
    · obtain ⟨hnot, -⟩ | ⟨-, hdimported⟩ := hdkind
      · rw [hsimple] at hnot
        cases hnot
      · refine ⟨_, mem_seen hp hload hb hfloor.le (.inl hle), ?_⟩
        rw [himported]
        exact congrArg Option.isSome hdimported
  · exact last (by rw [hfloor]; omega)

end Seen

theorem refersToImport_sound_of_headers {source : String} {root : Node}
    (hparse : parse? source = some root) {old : QualifiedName} {owner : Nat} {scope : Scope}
    (hscope : (ScopeTable.build root source.toList).scopes[owner]? = some scope)
    (himport : (scope.bindingsOf old.first).any (Binding.importsModule old) = true)
    (hbound : ∀ e ∈ entriesOf root source.toList owner old.first,
      ∃ st, e.BoundAt scope.container.address st)
    {u : Use} (hu : u ∈ (ScopeTable.build root source.toList).uses) (howner : u.scope = owner)
    (hload : u.kind = .load)
    (hclear : ∀ e ∈ entriesOf root source.toList owner old.first, ∀ st,
      e.BoundAt scope.container.address st → ¬u.site.IsAmongTargets st ∧ ¬u.site.IsInHeader st)
    {suppresses : Site → Prop}
    (hwith : ∀ w : Site, w.InTree root → w.kind = .withStatement → suppresses w →
      ∀ e ∈ entriesOf root source.toList owner old.first, w.Holds e.site → w.Holds u.site)
    {answer : Bool}
    (hanswer : refersToImport (ScopeTable.build root source.toList) source.toList old owner u =
      .ok answer)
    {c : Site} (hc : c.InTree root) (hcontainer : c.address = scope.container.address)
    {trace : List Entry}
    (hrun : Course (entriesOf root source.toList owner old.first) u.site suppresses
      (.rest .sequence c 0) trace .here)
    {e : Entry} (hlast : trace.getLast? = some e) : e.imported.isSome = answer := by
  have hkind := parse?_kind hparse
  have hclass := parse?_shaped classEnclosure_lawful hparse
  obtain ⟨hsite, -⟩ := isUsed_of_mem_uses hkind hclass u hu
  obtain ⟨hleaf, hword⟩ := (hclass u.site.node hsite.inTree.within).word hsite.kind
  obtain ⟨b, hseen, himported⟩ := exists_seen_of_course hkind (parse?_placed hparse)
    (parse?_shaped expressionEnclosure_lawful hparse) (parse?_shaped stepEnclosure_lawful hparse) hc
    hsite.inTree hsite.kind hleaf (Text.lt_of_between_ne_nil hword.1)
    (fun e he => ⟨inTree_of_mem_entriesOf hkind hclass he, hcontainer ▸ hbound e he⟩)
    (hcontainer ▸ hclear) hwith hrun hlast
  rw [hcontainer, ← bindingsOf_eq hscope] at hseen
  rw [← himported]
  exact isImport_eq_of_refersToImport hscope himport howner hload hanswer hseen

def roundText : String := "import a\nfor a in b:\n    a\n"

def roundRoot : Node :=
  .mk none .module ⟨0, 27⟩ [
    .mk none .importStatement ⟨0, 8⟩ [.mk none (.mark "import") ⟨0, 6⟩ [],
      .mk (some .name) .dottedName ⟨7, 8⟩ [.mk none .identifier ⟨7, 8⟩ []]],
    .mk none .forStatement ⟨9, 26⟩ [.mk none (.mark "for") ⟨9, 12⟩ [],
      .mk (some .left) .identifier ⟨13, 14⟩ [], .mk none (.mark "in") ⟨15, 17⟩ [],
      .mk none .identifier ⟨18, 19⟩ [], .mk none (.mark ":") ⟨19, 20⟩ [],
      .mk none .block ⟨25, 26⟩ [
        .mk none .expressionStatement ⟨25, 26⟩ [.mk none .identifier ⟨25, 26⟩ []]]]]

def roundTable : ScopeTable := ScopeTable.build roundRoot roundText.toList

def roundEntries : List Entry := entriesOf roundRoot roundText.toList 0 loopName.first

def roundSite (path : List Nat) : Site :=
  path.foldl (fun s i => (s.node.children[i]?).elim s (s.child i)) (.root roundRoot)

def roundLoad : Use := ⟨"a", 0, .load, roundSite [1, 5, 0, 0]⟩

theorem roundEntries_eq : roundEntries =
    [⟨"a", some ["a"], roundSite [0, 1]⟩, ⟨"a", none, roundSite [1, 1]⟩] := by
  decide +kernel

theorem course_round : Course roundEntries roundLoad.site (fun _ => True)
    (.rest .sequence (.root roundRoot) 0)
    (madeIn roundEntries (roundSite [0]) ++ (madeIn roundEntries (roundSite [1, 1]) ++ [])) .here := by
  refine .passed rfl (.statement rfl) (.stopped rfl (.loop rfl ?_) (by decide))
  refine .body rfl (i := 5) rfl rfl (.parts rfl (.stopped rfl ?_ (by decide)))
  exact .loaded rfl List.nil_prefix (by decide +kernel) (.inl rfl)

theorem not_within_round {e : Entry} (he : e ∈ roundEntries) {st : Site} (h : e.BoundAt [] st) :
    ¬roundLoad.site.IsAmongTargets st ∧ ¬roundLoad.site.IsInHeader st := by
  have hfacts : ∀ e ∈ roundEntries, ∀ a ∈ e.site.ancestors, a.kind.isDefinition = false ∧
      (a.kind.isSimpleStatement = true → a = roundSite [0]) ∧
      (a.kind = .forStatement → a = roundSite [1]) := by
    decide +kernel
  cases h with
  | statement h =>
    obtain rfl := (hfacts e he st (List.takeWhile_subset _ h.mem)).2.1 h.simple
    refine ⟨?_, ?_⟩
    · rintro ⟨-, h | ⟨h, -⟩⟩ <;> cases h
    · rintro (⟨h, -⟩ | ⟨f, hf, h, -⟩)
      · cases h
      · cases hf
        cases h
  | header hparent hk =>
    rw [(hfacts e he st (List.mem_of_mem_head? hparent)).1] at hk
    cases hk
  | target hf hk hl =>
    obtain rfl := (hfacts e he _ hf).2.2 hk
    cases hl
    refine ⟨?_, ?_⟩
    · rintro ⟨-, h | ⟨h, -⟩⟩ <;> cases h
    · rintro (⟨h, -⟩ | ⟨f, hf, -, -, hbody⟩)
      · cases h
      · cases hf
        exact hbody 5 _ rfl rfl (by decide +kernel)

theorem refersToImport_sound_of_headers_round : ∃ trace e,
    parse? roundText = some roundRoot ∧ roundLoad ∈ roundTable.uses ∧
      refersToImport roundTable roundText.toList loopName 0 roundLoad = .ok false ∧
      Course roundEntries roundLoad.site (fun _ => True) (.rest .sequence (.root roundRoot) 0) trace
        .here ∧
      trace.getLast? = some e ∧ e.imported.isSome = false := by
  have hparse : parse? roundText = some roundRoot := by decide +kernel
  have huse : roundLoad ∈ roundTable.uses := by decide +kernel
  have hanswer : refersToImport roundTable roundText.toList loopName 0 roundLoad = .ok false := by
    decide +kernel
  have hlast : (madeIn roundEntries (roundSite [0]) ++
      (madeIn roundEntries (roundSite [1, 1]) ++ [])).getLast? =
        some ⟨"a", none, roundSite [1, 1]⟩ := by decide +kernel
  obtain ⟨scope, hscope⟩ : ∃ scope, roundTable.scopes[0]? = some scope :=
    Option.isSome_iff_exists.1 (by decide +kernel)
  have hfacts : (roundTable.scopes[0]?).all (fun s =>
      (s.bindingsOf loopName.first).any (Binding.importsModule loopName) &&
        s.container.address == []) = true := by
    decide +kernel
  rw [hscope, Option.all_some, Bool.and_eq_true, beq_iff_eq] at hfacts
  obtain ⟨himport, hcontainer⟩ := hfacts
  refine ⟨_, _, hparse, huse, hanswer, course_round, hlast, ?_⟩
  refine refersToImport_sound_of_headers hparse hscope himport ?_ huse rfl rfl ?_ ?_ hanswer .root
    hcontainer.symm course_round hlast
  · intro e he
    change e ∈ roundEntries at he
    rw [roundEntries_eq] at he
    rw [hcontainer]
    obtain rfl | he := List.mem_cons.1 he
    · exact ⟨roundSite [0], .statement ⟨by decide +kernel, by decide, by decide +kernel,
        by decide +kernel⟩⟩
    · obtain rfl := List.mem_singleton.1 he
      exact ⟨roundSite [1, 1], .target (f := roundSite [1]) (by decide +kernel) rfl rfl
        (by decide +kernel) (by decide +kernel) rfl (by decide +kernel)⟩
  · rw [hcontainer]
    exact fun e he st h => not_within_round he h
  · intro w hw hk _ e he h
    have hnone : ∀ e ∈ roundEntries, ∀ a ∈ e.site :: e.site.ancestors, a.kind ≠ .withStatement := by
      decide +kernel
    have hsite := inTree_of_mem_entriesOf (parse?_kind hparse)
      (parse?_shaped classEnclosure_lawful hparse) he
    exact absurd hk (hnone e he w (List.mem_cons.2 ((hw.holds_iff hsite).1 h)))

end Reroot.Python

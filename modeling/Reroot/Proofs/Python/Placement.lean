import Reroot.Python.Parse
import Reroot.Proofs.Text.Bytes
import Mathlib.Data.List.TakeWhile

namespace Reroot.Python

namespace Node

inductive Within (m : Node) : Node → Prop
  | self : Within m m
  | child {n c : Node} (hc : c ∈ n.children) (h : Within m c) : Within m n

def All (P : Node → Prop) (n : Node) : Prop :=
  ∀ m, m.Within n → P m

theorem Within.trans {a b c : Node} (hab : a.Within b) (hbc : b.Within c) : a.Within c := by
  induction hbc with
  | self => exact hab
  | child hc _ ih => exact .child hc ih

theorem all_mk_iff {P : Node → Prop} {r : Option Role} {k : Kind} {s : Span} {cs : List Node} :
    (mk r k s cs).All P ↔ P (mk r k s cs) ∧ ∀ c ∈ cs, c.All P := by
  constructor
  · intro h
    exact ⟨h _ .self, fun c hc m hm => h m (.child hc hm)⟩
  · rintro ⟨hn, hcs⟩ m hm
    cases hm with
    | self => exact hn
    | child hc hm => exact hcs _ hc m hm

theorem all_iff {P : Node → Prop} (n : Node) : n.All P ↔ P n ∧ ∀ c ∈ n.children, c.All P := by
  obtain ⟨r, k, s, cs⟩ := n
  exact all_mk_iff

theorem All.self {P : Node → Prop} {n : Node} (h : n.All P) : P n :=
  h n .self

theorem All.child {P : Node → Prop} {n c : Node} (h : n.All P) (hc : c ∈ n.children) : c.All P :=
  fun m hm => h m (.child hc hm)

structure Sound (text : List Char) (n : Node) : Prop where
  start_boundary : Text.IsBoundary text n.start
  stop_boundary : Text.IsBoundary text n.stop
  start_le_stop : n.start ≤ n.stop
  inside : ∀ c ∈ n.children, n.start ≤ c.start ∧ c.stop ≤ n.stop
  ordered : n.children.Pairwise fun a b => a.stop ≤ b.start

def Placed (text : List Char) (n : Node) : Prop :=
  n.All (Sound text)

theorem Placed.within_span {text : List Char} {m n : Node} (h : n.Placed text) (hm : m.Within n) :
    n.start ≤ m.start ∧ m.stop ≤ n.stop := by
  induction hm with
  | self => exact ⟨Nat.le_refl _, Nat.le_refl _⟩
  | @child n c hc _ ih =>
    obtain ⟨h₁, h₂⟩ := ih (h.child hc)
    obtain ⟨h₃, h₄⟩ := h.self.inside c hc
    exact ⟨Nat.le_trans h₃ h₁, Nat.le_trans h₂ h₄⟩

def Apart (e m : Node) : Prop :=
  e.stop ≤ m.start ∨ m.stop ≤ e.start ∨
    (m.start ≤ e.start ∧ e.stop ≤ m.stop ∧ m.children ≠ [])

def ClearOf (n e : Node) : Prop :=
  n.All (Apart e)

theorem Placed.clearOf_of_stop_le {text : List Char} {n e : Node} (h : n.Placed text)
    (he : n.stop ≤ e.start) : n.ClearOf e := fun _ hm =>
  .inr (.inl (Nat.le_trans (h.within_span hm).2 he))

theorem Sound.congr {text : List Char} {n n' : Node} (hs : n'.span = n.span)
    (hcs : n'.children.map span = n.children.map span) (h : n.Sound text) : n'.Sound text := by
  have hstart : n'.start = n.start := congrArg Span.start hs
  have hstop : n'.stop = n.stop := congrArg Span.stop hs
  refine ⟨?_, ?_, ?_, ?_, ?_⟩
  · rw [hstart]
    exact h.start_boundary
  · rw [hstop]
    exact h.stop_boundary
  · rw [hstart, hstop]
    exact h.start_le_stop
  · intro c hc
    have hmem : c.span ∈ n.children.map span := hcs ▸ List.mem_map_of_mem hc
    obtain ⟨d, hd, hdc⟩ := List.mem_map.1 hmem
    have := h.inside d hd
    rw [hstart, hstop]
    simpa only [start, stop, hdc] using this
  · have ho : (n.children.map span).Pairwise fun a b => a.stop ≤ b.start :=
      List.pairwise_map.2 h.ordered
    rw [← hcs] at ho
    exact List.pairwise_map.1 ho

theorem Apart.congr {e n n' : Node} (hs : n'.span = n.span)
    (hcs : n'.children.map span = n.children.map span) (h : Apart e n) : Apart e n' := by
  have hne : n.children ≠ [] → n'.children ≠ [] := by
    intro hn hn'
    rw [hn'] at hcs
    exact hn (List.map_eq_nil_iff.1 hcs.symm)
  have hstart : n'.start = n.start := congrArg Span.start hs
  have hstop : n'.stop = n.stop := congrArg Span.stop hs
  unfold Apart
  rw [hstart, hstop]
  obtain h | h | ⟨h₁, h₂, h₃⟩ := h
  · exact .inl h
  · exact .inr (.inl h)
  · exact .inr (.inr ⟨h₁, h₂, hne h₃⟩)

section Spanning

variable {k : Kind} {here : Nat} {a b : Node} {cs : List Node}

theorem start_spanning_cons : (spanning k here (a :: cs)).start = a.start := rfl

theorem stop_spanning_cons_cons :
    (spanning k here (a :: b :: cs)).stop = (spanning k here (b :: cs)).stop := by
  simp only [spanning, stop, span, List.getLast?_cons_cons]

theorem exists_stop_spanning_eq (k : Kind) (here : Nat) (hne : cs ≠ []) :
    ∃ z ∈ cs, (spanning k here cs).stop = z.stop := by
  refine ⟨cs.getLast hne, List.getLast_mem hne, ?_⟩
  simp only [spanning, stop, span, List.getLast?_eq_some_getLast hne, Option.map_some,
    Option.getD_some]

theorem spanning_bounds (k : Kind) (here : Nat) (hle : ∀ c ∈ cs, c.start ≤ c.stop)
    (ho : cs.Pairwise fun a b => a.stop ≤ b.start) :
    ∀ c ∈ cs, (spanning k here cs).start ≤ c.start ∧ c.stop ≤ (spanning k here cs).stop := by
  induction cs with
  | nil => simp
  | cons a cs ih =>
    obtain ⟨ha, ho⟩ := List.pairwise_cons.1 ho
    obtain ⟨hale, hle⟩ := List.forall_mem_cons.1 hle
    cases cs with
    | nil =>
      intro c hc
      obtain rfl := List.mem_singleton.1 hc
      exact ⟨Nat.le_refl _, Nat.le_refl _⟩
    | cons b cs =>
      have ih := ih hle ho
      rw [stop_spanning_cons_cons, start_spanning_cons]
      rw [start_spanning_cons] at ih
      have hab := ha b (by simp)
      have hb := ih b (by simp)
      have hble := hle b (by simp)
      intro c hc
      obtain rfl | hc := List.mem_cons.1 hc
      · exact ⟨Nat.le_refl _, by omega⟩
      · have := ih c hc
        omega

theorem apart_spanning {e : Node} (hne : cs ≠ []) (hle : ∀ c ∈ cs, c.start ≤ c.stop)
    (ho : cs.Pairwise fun a b => a.stop ≤ b.start) (ha : ∀ c ∈ cs, Apart e c) :
    Apart e (spanning k here cs) := by
  suffices h : e.stop ≤ (spanning k here cs).start ∨ (spanning k here cs).stop ≤ e.start ∨
      ((spanning k here cs).start ≤ e.start ∧ e.stop ≤ (spanning k here cs).stop) by
    obtain h | h | ⟨h₁, h₂⟩ := h
    · exact .inl h
    · exact .inr (.inl h)
    · exact .inr (.inr ⟨h₁, h₂, hne⟩)
  induction cs with
  | nil => exact absurd rfl hne
  | cons a cs ih =>
    have hbounds := spanning_bounds k here hle ho a (by simp)
    obtain ⟨hao, ho⟩ := List.pairwise_cons.1 ho
    obtain ⟨hale, hle⟩ := List.forall_mem_cons.1 hle
    obtain ⟨haa, ha⟩ := List.forall_mem_cons.1 ha
    cases cs with
    | nil =>
      obtain h | h | ⟨h₁, h₂, -⟩ := haa
      · exact .inl h
      · exact .inr (.inl h)
      · exact .inr (.inr ⟨h₁, h₂⟩)
    | cons b cs =>
      have hab := hao b (by simp)
      have hbl := spanning_bounds k here hle ho b (by simp)
      have hble := hle b (by simp)
      have ih := ih (by simp) hle ho ha
      rw [stop_spanning_cons_cons, start_spanning_cons] at *
      -- The extra lies to the front child as it may, and to all others as the induction says.
      obtain h | h | ⟨h₁, h₂⟩ := ih <;> obtain h' | h' | ⟨h₁', h₂', -⟩ := haa <;> omega

theorem sound_spanning {text : List Char} (hhere : Text.IsBoundary text here)
    (hs : ∀ c ∈ cs, c.Sound text) (ho : cs.Pairwise fun a b => a.stop ≤ b.start) :
    (spanning k here cs).Sound text := by
  have hbounds := spanning_bounds k here (fun c hc => (hs c hc).start_le_stop) ho
  cases hcs : cs with
  | nil => exact ⟨hhere, hhere, Nat.le_refl _, by simp [spanning, children], .nil⟩
  | cons a as =>
    rw [← hcs]
    have ha : a ∈ cs := by simp [hcs]
    obtain ⟨z, hz, hstop⟩ := exists_stop_spanning_eq k here (List.ne_nil_of_mem ha)
    have hstart : (spanning k here cs).start = a.start := by rw [hcs]; rfl
    refine ⟨?_, ?_, ?_, hbounds, ho⟩
    · rw [hstart]
      exact (hs a ha).start_boundary
    · rw [hstop]
      exact (hs z hz).stop_boundary
    · have := hbounds a ha
      have := (hs a ha).start_le_stop
      omega

end Spanning

end Node

section Targets

variable {P : Node → Prop}

def targetPatterns : List Kind :=
  [.listSplatPattern, .tuplePattern, .listPattern, .patternList]

def patternKinds : List (Kind × Kind) :=
  [(.listSplat, .listSplatPattern), (.tuple, .tuplePattern), (.parenthesizedExpression, .tuplePattern),
    (.listDisplay, .listPattern), (.expressionList, .patternList)]

theorem mem_targetPatterns {k k' : Kind} (h : (k, k') ∈ patternKinds) : k' ∈ targetPatterns :=
  (by decide : ∀ p ∈ patternKinds, p.2 ∈ targetPatterns) _ h

theorem asTarget?_eq {r : Option Role} {k : Kind} {s : Span} {cs : List Node} {n : Node}
    (h : (Node.mk r k s cs).asTarget? = some n) : n = .mk r k s cs ∨
      ∃ k' cs', (k, k') ∈ patternKinds ∧ n = .mk r k' s cs' ∧ (cs' = cs ∨ targets? cs = some cs') := by
  have down {k' : Kind} (hk : (k, k') ∈ patternKinds)
      (h : (targets? cs).map (Node.mk r k' s) = some n) : ∃ k' cs', (k, k') ∈ patternKinds ∧
        n = .mk r k' s cs' ∧ (cs' = cs ∨ targets? cs = some cs') := by
    obtain ⟨cs', hcs, rfl⟩ := Option.map_eq_some_iff.1 h
    exact ⟨_, cs', hk, rfl, .inr hcs⟩
  unfold Node.asTarget? at h
  split at h
  · exact .inl (Option.some.inj h).symm
  · exact .inl (Option.some.inj h).symm
  · exact .inl (Option.some.inj h).symm
  · split at h <;> cases h
    exact .inr ⟨_, cs, by simp [patternKinds], rfl, .inl rfl⟩
  · exact .inr (down (by simp [patternKinds]) h)
  · exact .inr (down (by simp [patternKinds]) h)
  · exact .inr (down (by simp [patternKinds]) h)
  · exact .inr (down (by simp [patternKinds]) h)
  · exact .inl (Option.some.inj h).symm
  · cases h

theorem targets?_cons {n : Node} {ns ns' : List Node} (h : targets? (n :: ns) = some ns') :
    ∃ d ds, n.asTarget? = some d ∧ targets? ns = some ds ∧ ns' = d :: ds := by
  unfold targets? at h
  split at h
  · next d ds hd hds => exact ⟨d, ds, hd, hds, (Option.some.inj h).symm⟩
  · cases h

theorem exists_of_mem_targets? {ns ns' : List Node} (h : targets? ns = some ns') :
    ∀ n' ∈ ns', ∃ n ∈ ns, n.asTarget? = some n' := by
  induction ns generalizing ns' with
  | nil =>
    cases h
    simp
  | cons n ns ih =>
    obtain ⟨d, ds, hd, hds, rfl⟩ := targets?_cons h
    refine List.forall_mem_cons.2 ⟨⟨n, List.mem_cons_self, hd⟩, fun n' hn' => ?_⟩
    obtain ⟨m, hm, hmn⟩ := ih hds n' hn'
    exact ⟨m, List.mem_cons_of_mem _ hm, hmn⟩

def TargetStable (P : Node → Prop) : Prop :=
  ∀ n n' : Node, n'.kind ∈ targetPatterns → n'.span = n.span →
    n'.children.map Node.span = n.children.map Node.span → P n → P n'

def SpanwiseStable (P : Node → Prop) : Prop :=
  ∀ n n' : Node, n'.span = n.span → n'.children.map Node.span = n.children.map Node.span →
    P n → P n'

theorem SpanwiseStable.targetStable (hP : SpanwiseStable P) : TargetStable P :=
  fun n n' _ => hP n n'

mutual

theorem asTarget?_all (hP : TargetStable P) :
    ∀ (n n' : Node), n.asTarget? = some n' → n.All P → n'.span = n.span ∧ n'.All P
  | .mk r k s cs, n', h, ha => by
    obtain rfl | ⟨k', cs', hk, rfl, hcs⟩ := asTarget?_eq h
    · exact ⟨rfl, ha⟩
    have hchildren : cs'.map Node.span = cs.map Node.span ∧ ∀ c ∈ cs', c.All P := by
      obtain rfl | hcs := hcs
      · exact ⟨rfl, fun c hc => ha.child hc⟩
      · exact targets?_all hP cs cs' hcs fun c hc => ha.child hc
    exact ⟨rfl, Node.all_mk_iff.2
      ⟨hP (.mk r k s cs) _ (mem_targetPatterns hk) rfl hchildren.1 ha.self, hchildren.2⟩⟩

theorem targets?_all (hP : TargetStable P) :
    ∀ (ns ns' : List Node), targets? ns = some ns' → (∀ n ∈ ns, n.All P) →
      ns'.map Node.span = ns.map Node.span ∧ ∀ n ∈ ns', n.All P
  | [], ns', h, _ => by
    cases h
    simp
  | n :: ns, ns', h, ha => by
    obtain ⟨d, ds, hd, hds, rfl⟩ := targets?_cons h
    obtain ⟨hn, hns⟩ := List.forall_mem_cons.1 ha
    obtain ⟨hs, hall⟩ := asTarget?_all hP n d hd hn
    obtain ⟨hss, halls⟩ := targets?_all hP ns ds hds hns
    exact ⟨by simp [hs, hss], List.forall_mem_cons.2 ⟨hall, halls⟩⟩

end

end Targets

theorem spanwiseStable_sound (text : List Char) : SpanwiseStable (Node.Sound text) :=
  fun _ _ hs hcs h => h.congr hs hcs

theorem spanwiseStable_apart (e : Node) : SpanwiseStable (Node.Apart e) :=
  fun _ _ hs hcs h => h.congr hs hcs

structure Node.IsExtra (text : List Char) (e : Node) : Prop where
  start_boundary : Text.IsBoundary text e.start
  stop_boundary : Text.IsBoundary text e.stop
  start_lt_stop : e.start < e.stop
  children : e.children = []
  role : e.role = none
  kind : e.kind = .comment ∨ e.kind = .lineContinuation

theorem Node.IsExtra.placed {text : List Char} {e : Node} (h : e.IsExtra text) : e.Placed text := by
  refine (Node.all_iff e).2 ⟨⟨h.start_boundary, h.stop_boundary, ?_, ?_, ?_⟩, ?_⟩
  · exact Nat.le_of_lt h.start_lt_stop
  · simp [h.children]
  · simp [h.children]
  · simp [h.children]

namespace Cursor

structure Sound (text : List Char) (c : Cursor) : Prop where
  position : ∃ passed, text = passed ++ c.rest ∧ c.pos = Text.byteWidth passed
  extras : ∀ e ∈ c.extras, e.IsExtra text ∧ e.stop ≤ c.pos
  ordered : c.extras.Pairwise fun a b => b.stop ≤ a.start

theorem Sound.isBoundary {text : List Char} {c : Cursor} (h : c.Sound text) :
    Text.IsBoundary text c.pos := by
  obtain ⟨passed, ht, hp⟩ := h.position
  exact ⟨passed, c.rest, ht, hp⟩

theorem sound_ofText (text : List Char) : (ofText text).Sound text :=
  ⟨⟨[], rfl, rfl⟩, by simp [ofText], by simp [ofText]⟩

structure Moved (n : Nat) (c c' : Cursor) : Prop where
  rest : c'.rest = c.rest.drop n
  pos : c'.pos = c.pos + Text.byteWidth (c.rest.take n)
  extras : c'.extras = c.extras

theorem moved_advance (n : Nat) (c : Cursor) : Moved n c (c.advance n) :=
  ⟨rfl, rfl, rfl⟩

theorem moved_zero {c c' : Cursor} (hr : c'.rest = c.rest) (hp : c'.pos = c.pos)
    (he : c'.extras = c.extras) : Moved 0 c c' :=
  ⟨by simp [hr], by simp [hp], he⟩

structure LeadsTo (c c' : Cursor) : Prop where
  pos_le : c.pos ≤ c'.pos
  extras : ∃ new, c'.extras = new ++ c.extras ∧ ∀ e ∈ new, c.pos ≤ e.start

theorem LeadsTo.refl (c : Cursor) : c.LeadsTo c :=
  ⟨Nat.le_refl _, [], rfl, by simp⟩

theorem LeadsTo.trans {a b c : Cursor} (hab : a.LeadsTo b) (hbc : b.LeadsTo c) : a.LeadsTo c := by
  obtain ⟨hp, new, he, hn⟩ := hab
  obtain ⟨hp', new', he', hn'⟩ := hbc
  refine ⟨Nat.le_trans hp hp', new' ++ new, by rw [he', he, List.append_assoc], ?_⟩
  intro e hmem
  obtain hmem | hmem := List.mem_append.1 hmem
  · exact Nat.le_trans hp (hn' e hmem)
  · exact hn e hmem

theorem Moved.leadsTo {n : Nat} {c c' : Cursor} (h : Moved n c c') : c.LeadsTo c' :=
  ⟨by rw [h.pos]; omega, [], h.extras, by simp⟩

theorem Sound.move {text : List Char} {n : Nat} {c c' : Cursor} (h : c.Sound text)
    (hm : Moved n c c') : c'.Sound text := by
  refine ⟨?_, ?_, ?_⟩
  · obtain ⟨passed, ht, hp⟩ := h.position
    refine ⟨passed ++ c.rest.take n, ?_, ?_⟩
    · rw [hm.rest, List.append_assoc, List.take_append_drop, ht]
    · rw [hm.pos, hp, Text.byteWidth_append]
  · rw [hm.extras]
    intro e he
    obtain ⟨hx, hle⟩ := h.extras e he
    exact ⟨hx, Nat.le_trans hle hm.leadsTo.pos_le⟩
  · rw [hm.extras]
    exact h.ordered

theorem extraLength_pos {cs : List Char} {k : Kind} {n : Nat}
    (h : extraLength cs = some (k, n)) :
    0 < n ∧ cs ≠ [] ∧ (k = .comment ∨ k = .lineContinuation) := by
  unfold extraLength at h
  split at h
  · cases h
    exact ⟨by omega, by simp, .inl rfl⟩
  · cases h
    exact ⟨by omega, by simp, .inr rfl⟩
  · cases h
    exact ⟨by omega, by simp, .inr rfl⟩
  · cases h
    exact ⟨by omega, by simp, .inr rfl⟩
  · cases h

theorem byteWidth_take_pos {cs : List Char} {n : Nat} (hn : 0 < n) (hcs : cs ≠ []) :
    0 < Text.byteWidth (cs.take n) := by
  apply Text.byteWidth_pos
  cases cs with
  | nil => exact absurd rfl hcs
  | cons c cs =>
    obtain ⟨m, rfl⟩ : ∃ m, n = m + 1 := ⟨n - 1, by omega⟩
    simp

theorem Sound.addExtra {text : List Char} {c : Cursor} {k : Kind} {n : Nat} (h : c.Sound text)
    (hx : extraLength c.rest = some (k, n)) :
    ({ c.advance n with extras := c.leaf k n :: c.extras } : Cursor).Sound text ∧
      c.LeadsTo { c.advance n with extras := c.leaf k n :: c.extras } := by
  obtain ⟨hn, hne, hk⟩ := extraLength_pos hx
  have hadv := h.move (moved_advance n c)
  have hpos : c.pos < (c.advance n).pos := by
    have := byteWidth_take_pos hn hne
    rw [(moved_advance n c).pos]
    omega
  have hleaf : (c.leaf k n).IsExtra text :=
    ⟨h.isBoundary, hadv.isBoundary, hpos, rfl, rfl, hk⟩
  refine ⟨⟨hadv.position, ?_, ?_⟩, ⟨Nat.le_of_lt hpos, [c.leaf k n], rfl, ?_⟩⟩
  · intro e he
    obtain rfl | he := List.mem_cons.1 he
    · exact ⟨hleaf, Nat.le_refl _⟩
    · exact hadv.extras e he
  · exact List.pairwise_cons.2 ⟨fun e he => (h.extras e he).2, h.ordered⟩
  · intro e he
    obtain rfl := List.mem_singleton.1 he
    exact Nat.le_refl _

theorem Sound.settleLoop {text : List Char} {e : Expect} {fuel : Nat} {c c' : Cursor}
    (h : c.Sound text) (hc : settleLoop e fuel c = some c') : c'.Sound text ∧ c.LeadsTo c' := by
  induction fuel generalizing c with
  | zero =>
    cases hc
    exact ⟨h, .refl _⟩
  | succ fuel ih =>
    have hpend (l : Option Layout) :
        ({ c with pending := l } : Cursor).Sound text ∧ c.LeadsTo { c with pending := l } := by
      have hm : Moved 0 c { c with pending := l } := moved_zero rfl rfl rfl
      exact ⟨h.move hm, hm.leadsTo⟩
    unfold Cursor.settleLoop at hc
    split at hc
    · split at hc
      · cases hc
        exact hpend _
      · cases hc
    · cases hc
      exact hpend _
    · have hm := moved_advance (c.rest.takeWhile isBlank).length c
      have hs := h.move hm
      dsimp only at hc
      split at hc
      · next k n hx =>
        obtain ⟨hs', hl⟩ := hs.addExtra hx
        obtain ⟨hs'', hl'⟩ := ih hs' hc
        exact ⟨hs'', (hm.leadsTo.trans hl).trans hl'⟩
      · cases hc
        exact ⟨hs, hm.leadsTo⟩

theorem Sound.settle {text : List Char} {e : Expect} {c c' : Cursor} (h : c.Sound text)
    (hc : c.settle e = some c') : c'.Sound text ∧ c.LeadsTo c' := by
  unfold Cursor.settle at hc
  split at hc
  · cases hc
    exact ⟨h, .refl _⟩
  · exact h.settleLoop hc

def Takes (c : Cursor) (n : Node) (c' : Cursor) : Prop :=
  ∃ k w, n = c.leaf k w ∧ Moved w c c'

theorem takes_token? {c c' : Cursor} {t : String} {n : Node} (h : c.token? t = some (n, c')) :
    c.Takes n c' := by
  unfold token? at h
  split at h
  · cases h
  · split at h
    · split at h
      · cases h
        exact ⟨_, _, rfl, moved_advance _ _⟩
      · cases h
    · split at h
      · cases h
        exact ⟨_, _, rfl, moved_advance _ _⟩
      · cases h
    · cases h

theorem takes_glued? {c c' : Cursor} {t : String} {n : Node} (h : c.glued? t = some (n, c')) :
    c.Takes n c' := by
  unfold glued? at h
  split at h
  · cases h
    exact ⟨_, _, rfl, moved_advance _ _⟩
  · cases h

theorem takes_ident? {c c' : Cursor} {rs : List String} {n : Node}
    (h : c.ident? rs = some (n, c')) : c.Takes n c' := by
  unfold ident? at h
  split at h
  · cases h
  · split at h
    · split at h
      · cases h
      · cases h
        exact ⟨_, _, rfl, moved_advance _ _⟩
    · cases h

theorem takes_number? {c c' : Cursor} {n : Node} (h : c.number? = some (n, c')) :
    c.Takes n c' := by
  unfold number? at h
  split at h
  · cases h
  · split at h
    · cases h
      exact ⟨_, _, rfl, moved_advance _ _⟩
    · cases h

theorem takes_stringOpen? {c c' : Cursor} {n : Node} (h : c.stringOpen? = some (n, c')) :
    c.Takes n c' := by
  unfold stringOpen? at h
  split at h
  · cases h
  · split at h
    · cases h
      exact ⟨_, _, rfl, rfl, rfl, rfl⟩
    · cases h

theorem takes_stringClose? {c c' : Cursor} {n : Node} (h : c.stringClose? = some (n, c')) :
    c.Takes n c' := by
  unfold stringClose? at h
  split at h
  · next q qs _ =>
    dsimp only at h
    generalize (if q.triple = true then 3 else 1) = w at h
    split at h
    · cases h
      exact ⟨_, _, rfl, rfl, rfl, rfl⟩
    · cases h
  · cases h

theorem takes_braceOpen? {c c' : Cursor} {n : Node} (h : c.braceOpen? = some (n, c')) :
    c.Takes n c' := by
  unfold braceOpen? at h
  split at h
  · cases h
    exact ⟨_, _, rfl, moved_advance _ _⟩
  · cases h

theorem takes_conversion? {c c' : Cursor} {n : Node} (h : c.conversion? = some (n, c')) :
    c.Takes n c' := by
  unfold conversion? at h
  split at h
  · split at h
    · cases h
      exact ⟨_, _, rfl, moved_advance _ _⟩
    · cases h
  · cases h

theorem moved_newline? {c c' : Cursor} (h : c.newline? = some c') : Moved 0 c c' := by
  unfold newline? at h
  split at h
  · cases h
    exact moved_zero rfl rfl rfl
  · cases h

theorem moved_indent? {c c' : Cursor} (h : c.indent? = some c') : Moved 0 c c' := by
  unfold indent? at h
  split at h
  · cases h
    exact moved_zero rfl rfl rfl
  · cases h

theorem moved_dedent? {c c' : Cursor} (h : c.dedent? = some c') : Moved 0 c c' := by
  unfold dedent? at h
  split at h
  · cases h
    exact moved_zero rfl rfl rfl
  · cases h

theorem moved_stringText? {c c' : Cursor} (h : c.stringText? = some c') : ∃ w, Moved w c c' := by
  unfold stringText? at h
  split at h
  · obtain ⟨w, -, rfl⟩ := Option.map_eq_some_iff.1 h
    exact ⟨w, moved_advance _ _⟩
  · cases h

theorem takes_emptyBlock? {c c' : Cursor} {n : Node} (h : c.emptyBlock? = some (n, c')) :
    c.Takes n c' := by
  obtain ⟨c₁, h₁, h₂⟩ := Option.map_eq_some_iff.1 h
  cases h₂
  exact ⟨_, _, rfl, moved_newline? h₁⟩

end Cursor

namespace Progress

structure Sound (text : List Char) (lo : Nat) (ns : List Node) (c : Cursor) : Prop where
  cursor : c.Sound text
  lo_le : lo ≤ c.pos
  placed : ∀ n ∈ ns, n.Placed text
  low : ∀ n ∈ ns, lo ≤ n.start
  high : ∀ n ∈ ns, n.stop ≤ c.pos
  ordered : ns.Pairwise fun a b => b.stop ≤ a.start
  clear : ∀ e ∈ c.extras, ∀ n ∈ ns, n.ClearOf e

variable {text : List Char} {lo : Nat} {ns : List Node} {c c' : Cursor}

theorem sound_nil (h : c.Sound text) : Sound text c.pos [] c :=
  ⟨h, Nat.le_refl _, by simp, by simp, by simp, by simp, by simp⟩

theorem Sound.lead (h : Sound text lo ns c) (hc : c'.Sound text) (hl : c.LeadsTo c') :
    Sound text lo ns c' := by
  refine ⟨hc, Nat.le_trans h.lo_le hl.pos_le, h.placed, h.low, ?_, h.ordered, ?_⟩
  · intro n hn
    exact Nat.le_trans (h.high n hn) hl.pos_le
  · obtain ⟨new, he, hnew⟩ := hl.extras
    rw [he]
    intro e hmem n hn
    obtain hmem | hmem := List.mem_append.1 hmem
    · exact (h.placed n hn).clearOf_of_stop_le (Nat.le_trans (h.high n hn) (hnew e hmem))
    · exact h.clear e hmem n hn

theorem Sound.take {n : Node} (h : Sound text lo ns c) (ht : c.Takes n c') :
    Sound text lo (n :: ns) c' := by
  obtain ⟨k, w, rfl, hm⟩ := ht
  have hc' := h.cursor.move hm
  have hs : (c.leaf k w).stop = c'.pos := hm.pos.symm
  have hleaf : (c.leaf k w).Placed text := by
    refine Node.all_mk_iff.2 ⟨⟨h.cursor.isBoundary, ?_, ?_, by simp [Node.children], ?_⟩, by simp⟩
    · exact hs ▸ hc'.isBoundary
    · exact hs ▸ hm.leadsTo.pos_le
    · exact .nil
  have hclear : ∀ e ∈ c'.extras, (c.leaf k w).ClearOf e := by
    rw [hm.extras]
    intro e he
    exact Node.all_mk_iff.2 ⟨.inl (h.cursor.extras e he).2, by simp⟩
  have hold := h.lead hc' hm.leadsTo
  refine ⟨hc', hold.lo_le, ?_, ?_, ?_, ?_, ?_⟩
  · exact List.forall_mem_cons.2 ⟨hleaf, h.placed⟩
  · exact List.forall_mem_cons.2 ⟨h.lo_le, h.low⟩
  · exact List.forall_mem_cons.2 ⟨Nat.le_of_eq hs, hold.high⟩
  · exact List.pairwise_cons.2 ⟨h.high, h.ordered⟩
  · intro e he
    exact List.forall_mem_cons.2 ⟨hclear e he, hold.clear e he⟩

theorem Sound.congr {ns' : List Node} (h : Sound text lo ns c)
    (hs : ns'.map Node.span = ns.map Node.span) (hp : ∀ n ∈ ns', n.Placed text)
    (hc : ∀ e ∈ c.extras, ∀ n ∈ ns', n.ClearOf e) : Sound text lo ns' c := by
  have hmem {n : Node} (hn : n ∈ ns') : ∃ m ∈ ns, m.span = n.span := by
    have : n.span ∈ ns.map Node.span := hs ▸ List.mem_map_of_mem hn
    exact List.mem_map.1 this
  refine ⟨h.cursor, h.lo_le, hp, ?_, ?_, ?_, hc⟩
  · intro n hn
    obtain ⟨m, hm, heq⟩ := hmem hn
    have := h.low m hm
    rwa [Node.start, heq] at this
  · intro n hn
    obtain ⟨m, hm, heq⟩ := hmem hn
    have := h.high m hm
    rwa [Node.stop, heq] at this
  · have ho : (ns.map Node.span).Pairwise fun a b => b.stop ≤ a.start :=
      List.pairwise_map.2 h.ordered
    rw [← hs] at ho
    exact List.pairwise_map.1 ho

theorem Sound.target {ns' : List Node} (h : Sound text lo ns c) (ht : targets? ns = some ns') :
    Sound text lo ns' c := by
  obtain ⟨hs, hp⟩ := targets?_all (spanwiseStable_sound text).targetStable ns ns' ht h.placed
  refine h.congr hs hp fun e he => ?_
  exact (targets?_all (spanwiseStable_apart e).targetStable ns ns' ht (h.clear e he)).2

theorem Sound.tag {n : Node} (r : Role) (h : Sound text lo (n :: ns) c) :
    Sound text lo (n.withRole r :: ns) c := by
  obtain ⟨r₀, k, s, cs⟩ := n
  have hall {P : Node → Prop} (hP : SpanwiseStable P) (ha : (Node.mk r₀ k s cs).All P) :
      ((Node.mk r₀ k s cs).withRole r).All P :=
    Node.all_mk_iff.2 ⟨hP (.mk r₀ k s cs) _ rfl rfl ha.self, fun _ hm => ha.child hm⟩
  refine h.congr rfl ?_ fun e he => ?_
  · exact List.forall_mem_cons.2
      ⟨hall (spanwiseStable_sound text) (h.placed _ (by simp)), fun m hm => h.placed m (by simp [hm])⟩
  · exact List.forall_mem_cons.2
      ⟨hall (spanwiseStable_apart e) (h.clear e he _ (by simp)),
        fun m hm => h.clear e he m (by simp [hm])⟩

theorem Sound.fresh {ms : List Node} (h : Sound text lo ns c) (hm : Sound text c.pos ms c')
    (hl : c.LeadsTo c') : Sound text lo (ms ++ ns) c' := by
  have hold := h.lead hm.cursor hl
  refine ⟨hm.cursor, hold.lo_le, ?_, ?_, ?_, ?_, ?_⟩
  · exact List.forall_mem_append.2 ⟨hm.placed, hold.placed⟩
  · exact List.forall_mem_append.2 ⟨fun n hn => Nat.le_trans h.lo_le (hm.low n hn), hold.low⟩
  · exact List.forall_mem_append.2 ⟨hm.high, hold.high⟩
  · refine List.pairwise_append.2 ⟨hm.ordered, hold.ordered, ?_⟩
    intro a ha b hb
    exact Nat.le_trans (h.high b hb) (hm.low a ha)
  · intro e he
    exact List.forall_mem_append.2 ⟨hm.clear e he, hold.clear e he⟩

theorem Sound.pack (k : Kind) (h : Sound text lo ns c) :
    Sound text lo [Node.spanning k c.pos ns.reverse] c := by
  have ho : ns.reverse.Pairwise fun a b => a.stop ≤ b.start := List.pairwise_reverse.2 h.ordered
  have hs : ∀ n ∈ ns.reverse, n.Sound text := fun n hn =>
    (h.placed n (List.mem_reverse.1 hn)).self
  have hle : ∀ n ∈ ns.reverse, n.start ≤ n.stop := fun n hn => (hs n hn).start_le_stop
  have hsound := Node.sound_spanning (k := k) h.cursor.isBoundary hs ho
  have hbounds := Node.spanning_bounds k c.pos hle ho
  have hspan : lo ≤ (Node.spanning k c.pos ns.reverse).start ∧
      (Node.spanning k c.pos ns.reverse).stop ≤ c.pos := by
    cases hns : ns.reverse with
    | nil => exact ⟨h.lo_le, Nat.le_refl _⟩
    | cons a as =>
      obtain ⟨z, hz, hstop⟩ :=
        Node.exists_stop_spanning_eq k c.pos (List.cons_ne_nil a as)
      rw [Node.start_spanning_cons, hstop]
      exact ⟨h.low a (List.mem_reverse.1 (by simp [hns])), h.high z (List.mem_reverse.1 (hns ▸ hz))⟩
  refine ⟨h.cursor, h.lo_le, ?_, ?_, ?_, List.pairwise_singleton _ _, ?_⟩
  · intro n hn
    obtain rfl := List.mem_singleton.1 hn
    exact Node.all_mk_iff.2 ⟨hsound, fun m hm => h.placed m (List.mem_reverse.1 hm)⟩
  · intro n hn
    obtain rfl := List.mem_singleton.1 hn
    exact hspan.1
  · intro n hn
    obtain rfl := List.mem_singleton.1 hn
    exact hspan.2
  · intro e he n hn
    obtain rfl := List.mem_singleton.1 hn
    refine Node.all_mk_iff.2 ⟨?_, fun m hm => h.clear e he m (List.mem_reverse.1 hm)⟩
    by_cases hne : ns.reverse = []
    · rw [hne]
      exact .inl (h.cursor.extras e he).2
    · exact Node.apart_spanning hne hle ho fun m hm =>
        (h.clear e he m (List.mem_reverse.1 hm)).self

theorem Sound.add {ns' : List Node} {x : Option (Node × Cursor)} (h : Sound text lo ns c)
    (hx : ∀ n d, x = some (n, d) → c.Takes n d) (hr : Progress.add ns x = some (ns', c')) :
    Sound text lo ns' c' ∧ c.LeadsTo c' := by
  unfold Progress.add at hr
  split at hr
  · cases hr
    have ht := hx _ _ rfl
    obtain ⟨-, w, -, hm⟩ := id ht
    exact ⟨h.take ht, hm.leadsTo⟩
  · cases hr

theorem Sound.settleAdd {ns' : List Node} {f : Cursor → Option (Node × Cursor)}
    (h : Sound text lo ns c) (hf : ∀ a n b, f a = some (n, b) → a.Takes n b)
    (hr : ((c.settle .token).bind fun a => Progress.add ns (f a)) = some (ns', c')) :
    Sound text lo ns' c' ∧ c.LeadsTo c' := by
  obtain ⟨a, ha, hr⟩ := Option.bind_eq_some_iff.1 hr
  obtain ⟨hs, hl⟩ := h.cursor.settle ha
  obtain ⟨hs', hl'⟩ := (h.lead hs hl).add (fun n d => hf a n d) hr
  exact ⟨hs', hl.trans hl'⟩

theorem Sound.step {ns' : List Node} {x : Option Cursor} (h : Sound text lo ns c)
    (hx : ∀ d, x = some d → d.Sound text ∧ c.LeadsTo d)
    (hr : Progress.move ns x = some (ns', c')) : Sound text lo ns' c' ∧ c.LeadsTo c' := by
  unfold Progress.move at hr
  split at hr
  · cases hr
    obtain ⟨hs, hl⟩ := hx _ rfl
    exact ⟨h.lead hs hl, hl⟩
  · cases hr

end Progress

theorem Cursor.Sound.moved {text : List Char} {c c' : Cursor} {n : Nat} (h : c.Sound text)
    (hm : Cursor.Moved n c c') : c'.Sound text ∧ c.LeadsTo c' :=
  ⟨h.move hm, hm.leadsTo⟩

namespace Gram

section Read

variable {ρ : Type} {rules : ρ → Gram ρ} {fuel : Nat} {follow : Expect} {ns ns' : List Node}
  {c c' : Cursor}

theorem read_then {a b : Gram ρ} (hr : (then_ a b).read rules fuel follow ns c = some (ns', c')) :
    ∃ i ms d, fuel = i + 1 ∧ a.read rules i follow ns c = some (ms, d) ∧
      b.read rules i follow ms d = some (ns', c') := by
  cases fuel with
  | zero => cases hr
  | succ fuel =>
    simp only [read] at hr
    split at hr
    · next ms d ha => exact ⟨fuel, ms, d, rfl, ha, hr⟩
    · cases hr

theorem read_or {a b : Gram ρ} (hr : (or_ a b).read rules fuel follow ns c = some (ns', c')) :
    ∃ i, fuel = i + 1 ∧ (a.read rules i follow ns c = some (ns', c') ∨
      b.read rules i follow ns c = some (ns', c')) := by
  cases fuel with
  | zero => cases hr
  | succ fuel =>
    simp only [read] at hr
    split at hr
    · next ha =>
      cases hr
      exact ⟨fuel, rfl, .inl ha⟩
    · exact ⟨fuel, rfl, .inr hr⟩

theorem read_many {a : Gram ρ} (hr : (many a).read rules fuel follow ns c = some (ns', c')) :
    ∃ i, fuel = i + 1 ∧ ((ns' = ns ∧ c' = c) ∨ ∃ ms d, a.read rules i follow ns c = some (ms, d) ∧
      (many a).read rules i follow ms d = some (ns', c')) := by
  cases fuel with
  | zero => cases hr
  | succ fuel =>
    simp only [read] at hr
    split at hr
    · next ms d ha => exact ⟨fuel, rfl, .inr ⟨ms, d, ha, hr⟩⟩
    · cases hr
      exact ⟨fuel, rfl, .inl ⟨rfl, rfl⟩⟩

theorem read_call {r : ρ} (hr : (call r).read rules fuel follow ns c = some (ns', c')) :
    ∃ i, fuel = i + 1 ∧ (rules r).read rules i follow ns c = some (ns', c') := by
  cases fuel with
  | zero => cases hr
  | succ fuel => exact ⟨fuel, rfl, hr⟩

theorem read_fresh {a : Gram ρ} (hr : (fresh a).read rules fuel follow ns c = some (ns', c')) :
    ∃ i ms, fuel = i + 1 ∧ a.read rules i follow [] c = some (ms, c') ∧ ns' = ms ++ ns := by
  cases fuel with
  | zero => cases hr
  | succ fuel =>
    simp only [read] at hr
    split at hr
    · next ms d ha =>
      cases hr
      exact ⟨fuel, ms, rfl, ha, rfl⟩
    · cases hr

theorem read_tag {r : Role} (hr : (tag r : Gram ρ).read rules fuel follow ns c = some (ns', c')) :
    ∃ n rest, ns = n :: rest ∧ ns' = n.withRole r :: rest ∧ c' = c := by
  cases fuel with
  | zero => cases hr
  | succ fuel =>
    simp only [read] at hr
    split at hr
    · cases hr
      exact ⟨_, _, rfl, rfl, rfl⟩
    · cases hr

theorem read_pack {k : Kind} (hr : (pack k : Gram ρ).read rules fuel follow ns c = some (ns', c')) :
    ns' = [Node.spanning k c.pos ns.reverse] ∧ c' = c := by
  cases fuel <;> cases hr
  exact ⟨rfl, rfl⟩

end Read

end Gram

theorem Gram.read_sound {ρ : Type} (rules : ρ → Gram ρ) {text : List Char} {fuel : Nat}
    {g : Gram ρ} {follow : Expect} {lo : Nat} {ns ns' : List Node} {c c' : Cursor}
    (h : Progress.Sound text lo ns c) (hr : g.read rules fuel follow ns c = some (ns', c')) :
    Progress.Sound text lo ns' c' ∧ c.LeadsTo c' := by
  induction fuel generalizing g follow lo ns ns' c c' with
  | zero => cases hr
  | succ fuel ih =>
    cases g with
    | done =>
      cases hr
      exact ⟨h, .refl _⟩
    | tok t => exact h.settleAdd (fun _ _ _ => Cursor.takes_token?) hr
    | glued t => exact h.settleAdd (fun _ _ _ => Cursor.takes_glued?) hr
    | ident rs => exact h.settleAdd (fun _ _ _ => Cursor.takes_ident?) hr
    | number => exact h.settleAdd (fun _ _ _ => Cursor.takes_number?) hr
    | then_ a b =>
      obtain ⟨_, ms, d, ⟨⟩, ha, hb⟩ := Gram.read_then hr
      obtain ⟨hs, hl⟩ := ih h ha
      obtain ⟨hs', hl'⟩ := ih hs hb
      exact ⟨hs', hl.trans hl'⟩
    | or_ a b =>
      obtain ⟨_, ⟨⟩, ha | hb⟩ := Gram.read_or hr
      · exact ih h ha
      · exact ih h hb
    | many a =>
      obtain ⟨_, ⟨⟩, ⟨rfl, rfl⟩ | ⟨ms, d, ha, hmore⟩⟩ := Gram.read_many hr
      · exact ⟨h, .refl _⟩
      · obtain ⟨hs, hl⟩ := ih h ha
        obtain ⟨hs', hl'⟩ := ih hs hmore
        exact ⟨hs', hl.trans hl'⟩
    | call r => exact ih h hr
    | fresh a =>
      obtain ⟨_, ms, ⟨⟩, ha, rfl⟩ := Gram.read_fresh hr
      obtain ⟨hs, hl⟩ := ih (Progress.sound_nil h.cursor) ha
      exact ⟨h.fresh hs hl, hl⟩
    | tag r =>
      obtain ⟨n, rest, rfl, rfl, rfl⟩ := Gram.read_tag hr
      exact ⟨h.tag r, .refl _⟩
    | pack k =>
      obtain ⟨rfl, rfl⟩ := Gram.read_pack hr
      exact ⟨h.pack k, .refl _⟩
    | packMany k =>
      simp only [Gram.read, Option.some.injEq, Prod.mk.injEq] at hr
      obtain ⟨rfl, rfl⟩ := hr
      split
      · exact ⟨h.pack k, .refl _⟩
      · exact ⟨h, .refl _⟩
    | target =>
      obtain ⟨ms, hms, heq⟩ := Option.map_eq_some_iff.1 hr
      cases heq
      exact ⟨h.target hms, .refl _⟩
    | latest ks =>
      simp only [Gram.read] at hr
      split at hr
      · cases hr
        exact ⟨h, .refl _⟩
      · cases hr
    | ahead a =>
      simp only [Gram.read] at hr
      split at hr
      · cases hr
        exact ⟨h, .refl _⟩
      · cases hr
    | unless_ a =>
      simp only [Gram.read] at hr
      split at hr
      · cases hr
      · cases hr
        exact ⟨h, .refl _⟩
    | settle e => exact h.step (fun _ => h.cursor.settle) hr
    | boundary => exact h.step (fun _ => h.cursor.settle) hr
    | within e a => exact ih h hr
    | newline => exact h.step (fun _ hd => h.cursor.moved (Cursor.moved_newline? hd)) hr
    | indent => exact h.step (fun _ hd => h.cursor.moved (Cursor.moved_indent? hd)) hr
    | dedent => exact h.step (fun _ hd => h.cursor.moved (Cursor.moved_dedent? hd)) hr
    | emptyBlock => exact h.add (fun _ _ => Cursor.takes_emptyBlock?) hr
    | stringOpen => exact h.settleAdd (fun _ _ _ => Cursor.takes_stringOpen?) hr
    | stringText =>
      refine h.step (fun _ hd => ?_) hr
      obtain ⟨w, hw⟩ := Cursor.moved_stringText? hd
      exact h.cursor.moved hw
    | stringClose => exact h.add (fun _ _ => Cursor.takes_stringClose?) hr
    | braceOpen => exact h.add (fun _ _ => Cursor.takes_braceOpen?) hr
    | formatText =>
      cases hr
      have hm := Cursor.moved_advance
        (c.rest.takeWhile fun d => d != '\x7b' && d != '\x7d').length c
      exact ⟨h.lead (h.cursor.move hm) hm.leadsTo, hm.leadsTo⟩
    | conversion => exact h.settleAdd (fun _ _ _ => Cursor.takes_conversion?) hr
    | endOfText =>
      obtain ⟨d, hd, hr⟩ := Option.bind_eq_some_iff.1 hr
      obtain ⟨hs, hl⟩ := h.cursor.settle hd
      split at hr
      · cases hr
        exact ⟨h.lead hs hl, hl⟩
      · cases hr

theorem le_start_of_mem_dropWhile {es : List Node} {x : Nat}
    (ho : es.Pairwise fun a b => a.start ≤ b.start) {e : Node}
    (he : e ∈ es.dropWhile fun e => e.start < x) : x ≤ e.start := by
  induction es with
  | nil => cases he
  | cons a es ih =>
    obtain ⟨ha, ho⟩ := List.pairwise_cons.1 ho
    rw [List.dropWhile_cons] at he
    split at he
    · exact ih ho he
    · next hx =>
      have hxa : x ≤ a.start := by simpa using hx
      obtain rfl | he := List.mem_cons.1 he
      · exact hxa
      · exact Nat.le_trans hxa (ha e he)

structure Extras (text : List Char) (lo hi : Nat) (es : List Node) : Prop where
  isExtra : ∀ e ∈ es, e.IsExtra text
  bounds : ∀ e ∈ es, lo ≤ e.start ∧ e.stop ≤ hi
  ordered : es.Pairwise fun a b => a.stop ≤ b.start

theorem Extras.mono {text : List Char} {lo hi lo' hi' : Nat} {es es' : List Node}
    (h : Extras text lo hi es) (hs : es'.Sublist es)
    (hb : ∀ e ∈ es', lo' ≤ e.start ∧ e.stop ≤ hi') : Extras text lo' hi' es' :=
  ⟨fun e he => h.isExtra e (hs.subset he), hb, h.ordered.sublist hs⟩

theorem Extras.sorted {text : List Char} {lo hi : Nat} {es : List Node}
    (h : Extras text lo hi es) : es.Pairwise fun a b => a.start ≤ b.start := by
  refine h.ordered.imp_of_mem ?_
  intro a b ha _ hab
  have := (h.isExtra a ha).start_lt_stop
  omega

structure Row (text : List Char) (lo hi : Nat) (ns : List Node) : Prop where
  placed : ∀ n ∈ ns, n.Placed text
  bounds : ∀ n ∈ ns, lo ≤ n.start ∧ n.stop ≤ hi
  ordered : ns.Pairwise fun a b => a.stop ≤ b.start

theorem Row.sound {text : List Char} {r : Option Role} {k : Kind} {s : Span} {cs : List Node}
    (hstart : Text.IsBoundary text s.start) (hstop : Text.IsBoundary text s.stop)
    (hle : s.start ≤ s.stop) (h : Row text s.start s.stop cs) : (Node.mk r k s cs).Placed text :=
  Node.all_mk_iff.2 ⟨⟨hstart, hstop, hle, h.bounds, h.ordered⟩, h.placed⟩

theorem Row.extras {text : List Char} {lo hi : Nat} {es : List Node}
    (h : Extras text lo hi es) : Row text lo hi es :=
  ⟨fun e he => (h.isExtra e he).placed, h.bounds, h.ordered⟩

theorem Row.cons_of_extras {text : List Char} {lo hi : Nat} {es ns : List Node} {n : Node}
    (hes : Extras text lo n.start es) (hn : n.Placed text) (hlo : lo ≤ n.start)
    (hhi : n.stop ≤ hi) (hns : Row text n.stop hi ns) : Row text lo hi (es ++ n :: ns) := by
  have hle := hn.self.start_le_stop
  refine ⟨?_, ?_, ?_⟩
  · exact List.forall_mem_append.2
      ⟨(Row.extras hes).placed, List.forall_mem_cons.2 ⟨hn, hns.placed⟩⟩
  · refine List.forall_mem_append.2 ⟨?_, List.forall_mem_cons.2 ⟨⟨hlo, hhi⟩, ?_⟩⟩
    · intro e he
      have := hes.bounds e he
      omega
    · intro m hm
      have := hns.bounds m hm
      omega
  · refine List.pairwise_append.2 ⟨hes.ordered, List.pairwise_cons.2 ⟨?_, hns.ordered⟩, ?_⟩
    · intro m hm
      exact (hns.bounds m hm).1
    · intro e he m hm
      have h₁ := (hes.bounds e he).2
      obtain rfl | hm := List.mem_cons.1 hm
      · exact h₁
      · have := (hns.bounds m hm).1
        omega

theorem Extras.around {text : List Char} {lo hi : Nat} {es : List Node} {c : Node}
    (hes : Extras text lo hi es) (hle : c.start ≤ c.stop) (hapart : ∀ e ∈ es, Node.Apart e c) :
    Extras text lo c.start (es.takeWhile fun e => e.start < c.start) ∧
      Extras text c.start c.stop
        ((es.dropWhile fun e => e.start < c.start).takeWhile fun e => e.start < c.stop) ∧
      Extras text c.stop hi (es.dropWhile fun e => e.start < c.stop) := by
  refine ⟨?_, ?_, ?_⟩
  · refine hes.mono (List.takeWhile_sublist _) fun e he => ?_
    have hmem := (List.takeWhile_sublist _).subset he
    have hlt : e.start < c.start := by simpa using List.mem_takeWhile_imp he
    have := hes.bounds e hmem
    have := (hes.isExtra e hmem).start_lt_stop
    obtain h | h | ⟨h, h', -⟩ := hapart e hmem <;> omega
  · refine hes.mono ((List.takeWhile_sublist _).trans (List.dropWhile_sublist _)) fun e he => ?_
    have hdrop := (List.takeWhile_sublist _).subset he
    have hmem := (List.dropWhile_sublist _).subset hdrop
    have hlt : e.start < c.stop := by simpa using List.mem_takeWhile_imp he
    have hge := le_start_of_mem_dropWhile hes.sorted hdrop
    have := (hes.isExtra e hmem).start_lt_stop
    obtain h | h | ⟨h, h', -⟩ := hapart e hmem <;> omega
  · refine hes.mono (List.dropWhile_sublist _) fun e he => ?_
    exact ⟨le_start_of_mem_dropWhile hes.sorted he,
      (hes.bounds e ((List.dropWhile_sublist _).subset he)).2⟩

theorem mem_of_mem_inner {es : List Node} {c e : Node}
    (he : e ∈ (es.dropWhile fun e => e.start < c.start).takeWhile fun e => e.start < c.stop) :
    e ∈ es :=
  (List.dropWhile_sublist _).subset ((List.takeWhile_sublist _).subset he)

theorem Node.span_weave (n : Node) (es : List Node) : (n.weave es).span = n.span := by
  obtain ⟨r, k, s, cs⟩ := n
  unfold Node.weave
  rfl

theorem Node.start_weave (n : Node) (es : List Node) : (n.weave es).start = n.start :=
  congrArg Span.start (n.span_weave es)

theorem Node.stop_weave (n : Node) (es : List Node) : (n.weave es).stop = n.stop :=
  congrArg Span.stop (n.span_weave es)

mutual

theorem Node.Placed.weave {text : List Char} :
    ∀ {n : Node} {es : List Node}, n.Placed text → Extras text n.start n.stop es →
      (∀ e ∈ es, n.ClearOf e) → (n.weave es).Placed text
  | .mk r k s cs, es, hn, hes, hclear => by
    have hrow : Row text s.start s.stop cs :=
      ⟨fun c hc => hn.child hc, hn.self.inside, hn.self.ordered⟩
    exact Row.sound hn.self.start_boundary hn.self.stop_boundary hn.self.start_le_stop
      (hrow.weaveAll hes fun e he c hc => (hclear e he).child hc)

theorem Row.weaveAll {text : List Char} {lo hi : Nat} :
    ∀ {cs es : List Node}, Row text lo hi cs → Extras text lo hi es →
      (∀ e ∈ es, ∀ c ∈ cs, c.ClearOf e) → Row text lo hi (weaveAll cs es)
  | [], es, _, hes, _ => by
    unfold Reroot.Python.weaveAll
    exact Row.extras hes
  | c :: cs, es, hrow, hes, hclear => by
    have hc := hrow.placed c (by simp)
    have hcb := hrow.bounds c (by simp)
    obtain ⟨hco, ho⟩ := List.pairwise_cons.1 hrow.ordered
    obtain ⟨hfront, hinner, hback⟩ :=
      hes.around hc.self.start_le_stop fun e he => (hclear e he c (by simp)).self
    have hwoven := hc.weave hinner fun e he => hclear e (mem_of_mem_inner he) c (by simp)
    have hrest : Row text c.stop hi cs :=
      ⟨fun d hd => hrow.placed d (by simp [hd]),
        fun d hd => ⟨hco d hd, (hrow.bounds d (by simp [hd])).2⟩, ho⟩
    have hrest' := hrest.weaveAll hback fun e he d hd =>
      hclear e ((List.dropWhile_sublist _).subset he) d (by simp [hd])
    unfold Reroot.Python.weaveAll
    refine Row.cons_of_extras ?_ hwoven ?_ ?_ ?_
    · rw [Node.start_weave]
      exact hfront
    · rw [Node.start_weave]
      exact hcb.1
    · rw [Node.stop_weave]
      exact hcb.2
    · rw [Node.stop_weave]
      exact hrest'

end

theorem parse?_woven {source : String} {root : Node} (h : parse? source = some root) :
    ∃ n c, (Gram.call Rule.module).read Rule.phrase (readingFuel source.toList.length) .token []
        (.ofText source.toList) = some ([n], c) ∧
      root = .mk n.role n.kind ⟨0, Text.byteWidth source.toList⟩
        (weaveAll n.children c.extras.reverse) ∧
      Row source.toList 0 (Text.byteWidth source.toList) n.children ∧
      Extras source.toList 0 (Text.byteWidth source.toList) c.extras.reverse ∧
      ∀ e ∈ c.extras.reverse, ∀ m ∈ n.children, m.ClearOf e := by
  unfold parse? at h
  dsimp only at h
  split at h
  · next n c hr =>
    cases h
    obtain ⟨hs, -⟩ := Gram.read_sound Rule.phrase
      (Progress.sound_nil (Cursor.sound_ofText source.toList)) hr
    have hn := hs.placed n (by simp)
    have hle := (hs.cursor.isBoundary).le_byteWidth
    refine ⟨n, c, hr, rfl, ⟨fun m hm => hn.child hm, fun m hm => ?_, hn.self.ordered⟩,
      ⟨fun e he => ?_, fun e he => ?_, List.pairwise_reverse.2 hs.cursor.ordered⟩, fun e he m hm => ?_⟩
    · have := (hn.self.inside m hm).2
      have := hs.high n (by simp)
      omega
    · exact (hs.cursor.extras e (List.mem_reverse.1 he)).1
    · have := (hs.cursor.extras e (List.mem_reverse.1 he)).2
      omega
    · exact (hs.clear e (List.mem_reverse.1 he) n (by simp)).child hm
  · cases h

theorem parse?_placed {source : String} {root : Node} (h : parse? source = some root) :
    root.Placed source.toList := by
  obtain ⟨n, c, -, rfl, hrow, hextras, hclear⟩ := parse?_woven h
  exact Row.sound (Text.isBoundary_zero _) (Text.isBoundary_byteWidth _) (Nat.zero_le _)
    (hrow.weaveAll hextras hclear)

end Reroot.Python

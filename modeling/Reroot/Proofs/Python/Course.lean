import Reroot.Proofs.Python.Flow

/-!
How control passes through the statements of a scope that bind names in their headers. A definition
binds its name when its defaults, annotations and bases have been evaluated; a `for` statement
evaluates the iterable, and then binds its targets at the start of every round; a `with` statement
may suppress an exception that its body is left by.
-/

namespace Reroot.Python

def Kind.isDefinition (k : Kind) : Bool :=
  k == .functionDefinition || k == .classDefinition

def Kind.isStep (k : Kind) : Bool :=
  k.isSimpleStatement || k.isDefinition

def Kind.route? : Kind → Option Flow
  | .block | .withStatement | .decoratedDefinition => some .sequence
  | .ifStatement | .elifClause | .elseClause | .exceptClause | .exceptGroupClause
  | .finallyClause => some .branches
  | .tryStatement => some .guarded
  | .whileStatement => some .loop
  | _ => none

def Kind.isPassable (k : Kind) : Bool :=
  k.route?.isSome || k == .forStatement

section Course

variable (E : List Entry) (load : Site) (suppresses : Site → Prop)

inductive Stage where
  | whole (s : Site)
  | rest (f : Flow) (s : Site) (i : Nat)
  | rounds (s : Site)

inductive Course : Stage → List Entry → Exit → Prop
  | statement {s : Site} (hk : s.kind.isStep = true) : Course (.whole s) (madeIn E s) .done
  | broken {s : Site} {trace : List Entry} (hk : s.kind.isStep = true)
      (htrace : trace <+: madeIn E s) : Course (.whole s) trace .early
  | loaded {s : Site} {trace : List Entry} (hk : s.kind.isStep = true)
      (htrace : trace <+: madeIn E s) (hload : s.Holds load)
      (htargets : trace = [] ∨ load.IsAmongTargets s) : Course (.whole s) trace .here
  | other {s : Site} {trace : List Entry} {x : Exit} (hk : s.kind.isStep = false)
      (hpass : s.kind.isPassable = false) (htrace : ∀ e ∈ trace, e ∈ madeIn E s)
      (hload : x = .here → s.Holds load) : Course (.whole s) trace x
  | parts {s : Site} {f : Flow} {trace : List Entry} {x : Exit} (hroute : s.kind.route? = some f)
      (h : Course (.rest f s 0) trace x) : Course (.whole s) trace x
  | suppressed {s : Site} {trace : List Entry} (hk : s.kind = .withStatement) (hs : suppresses s)
      (h : Course (.rest .sequence s 0) trace .early) : Course (.whole s) trace .done
  | finished {f : Flow} {s : Site} {i : Nat} (hi : s.node.children.length ≤ i) :
      Course (.rest f s i) [] .done
  | unwound {f : Flow} {s : Site} {i : Nat} (hf : f.catches = true)
      (hi : s.node.children.length ≤ i) : Course (.rest f s i) [] .early
  | passed {f : Flow} {s : Site} {i : Nat} {n : Node} {trace trace' : List Entry} {x : Exit}
      (hn : s.node.children[i]? = some n) (h : Course (.whole (s.child i n)) trace .done)
      (h' : Course (.rest f s (i + 1)) trace' x) : Course (.rest f s i) (trace ++ trace') x
  | stopped {f : Flow} {s : Site} {i : Nat} {n : Node} {trace : List Entry} {x : Exit}
      (hn : s.node.children[i]? = some n) (h : Course (.whole (s.child i n)) trace x)
      (hx : x ≠ .done) : Course (.rest f s i) trace x
  | skipped {f : Flow} {s : Site} {i : Nat} {trace : List Entry} {x : Exit}
      (hf : f ≠ .sequence) (h : Course (.rest f s (i + 1)) trace x) : Course (.rest f s i) trace x
  | caught {f : Flow} {s : Site} {i : Nat} {n : Node} {trace trace' : List Entry} {x : Exit}
      (hf : f.catches = true) (hn : s.node.children[i]? = some n)
      (h : Course (.whole (s.child i n)) trace .early)
      (h' : Course (.rest f s (i + 1)) trace' x) : Course (.rest f s i) (trace ++ trace') x
  | again {s : Site} {i : Nat} {trace : List Entry} {x : Exit}
      (h : Course (.rest .loop s 0) trace x) : Course (.rest .loop s i) trace x
  | iterable {s : Site} {x : Exit} (hk : s.kind = .forStatement) (hx : x ≠ .done)
      (hload : x = .here → ∃ i n, s.node.children[i]? = some n ∧ n.kind.isPassable = false ∧
        (s.child i n).Holds load) : Course (.whole s) [] x
  | loop {s : Site} {trace : List Entry} {x : Exit} (hk : s.kind = .forStatement)
      (h : Course (.rounds s) trace x) : Course (.whole s) trace x
  | ended {s : Site} {x : Exit} (hx : x ≠ .here) : Course (.rounds s) [] x
  | exhausted {s : Site} {i : Nat} {n : Node} {trace : List Entry} {x : Exit}
      (hn : s.node.children[i]? = some n) (hk : n.kind = .elseClause)
      (h : Course (.whole (s.child i n)) trace x) : Course (.rounds s) trace x
  | target {s l : Site} {trace : List Entry} {x : Exit} (hl : s.part? .left = some l)
      (htrace : trace <+: madeIn E l) (hx : x ≠ .done) (hload : x = .here → l.Holds load) :
      Course (.rounds s) trace x
  | body {s l : Site} {i : Nat} {n : Node} {trace : List Entry} (hl : s.part? .left = some l)
      (hn : s.node.children[i]? = some n) (hk : n.kind = .block)
      (h : Course (.whole (s.child i n)) trace .here) : Course (.rounds s) (madeIn E l ++ trace) .here
  | round {s l : Site} {i : Nat} {n : Node} {trace trace' : List Entry} {x x' : Exit}
      (hl : s.part? .left = some l) (hn : s.node.children[i]? = some n) (hk : n.kind = .block)
      (h : Course (.whole (s.child i n)) trace x) (hx : x ≠ .here)
      (h' : Course (.rounds s) trace' x') : Course (.rounds s) (madeIn E l ++ trace ++ trace') x'

end Course

namespace Stage

def Holds : Stage → Site → Prop
  | whole s, t | rounds s, t => s.Holds t
  | rest f s i, t =>
    ∃ j n, (f = .loop ∨ i ≤ j) ∧ s.node.children[j]? = some n ∧ (s.child j n).Holds t

variable {f : Flow} {s t : Site} {i : Nat} {n : Node}

theorem holds_first (hn : s.node.children[i]? = some n) (h : (s.child i n).Holds t) :
    (rest f s i).Holds t :=
  ⟨i, n, .inr (Nat.le_refl i), hn, h⟩

theorem Holds.of_succ (h : (rest f s (i + 1)).Holds t) : (rest f s i).Holds t := by
  obtain ⟨j, n, hj, hn, h⟩ := h
  exact ⟨j, n, hj.imp_right Nat.le_of_succ_le, hn, h⟩

theorem Holds.whole (h : (rest f s i).Holds t) : s.Holds t := by
  obtain ⟨j, n, -, -, h⟩ := h
  exact (Site.holds_child s j n).trans h

end Stage

theorem Site.holds_of_part? {s l : Site} {r : Role} (h : s.part? r = some l) : s.Holds l := by
  obtain ⟨i, n, -, -, rfl⟩ := Site.part?_eq_some h
  exact s.holds_child i n

section Course

variable {E : List Entry} {load : Site} {suppresses : Site → Prop} {p : Stage}
  {trace : List Entry} {x : Exit}

theorem Course.made (h : Course E load suppresses p trace x) :
    ∀ e ∈ trace, e ∈ E ∧ p.Holds e.site := by
  have target {s l : Site} (hl : s.part? .left = some l) :
      ∀ e ∈ madeIn E l, e ∈ E ∧ (Stage.rounds s).Holds e.site := fun e he =>
    ⟨(mem_madeIn.1 he).1, (Site.holds_of_part? hl).trans (mem_madeIn.1 he).2⟩
  induction h with
  | statement => exact fun e he => mem_madeIn.1 he
  | broken _ htrace | loaded _ htrace => exact fun e he => mem_madeIn.1 (htrace.subset he)
  | other _ _ htrace => exact fun e he => mem_madeIn.1 (htrace e he)
  | parts _ _ ih | suppressed _ _ _ ih => exact fun e he => ⟨(ih e he).1, (ih e he).2.whole⟩
  | finished | unwound | iterable | ended => simp
  | passed hn _ _ ih ih' | caught _ hn _ _ ih ih' =>
    intro e he
    obtain he | he := List.mem_append.1 he
    · exact ⟨(ih e he).1, Stage.holds_first hn (ih e he).2⟩
    · exact ⟨(ih' e he).1, (ih' e he).2.of_succ⟩
  | stopped hn _ _ ih => exact fun e he => ⟨(ih e he).1, Stage.holds_first hn (ih e he).2⟩
  | skipped _ _ ih => exact fun e he => ⟨(ih e he).1, (ih e he).2.of_succ⟩
  | again _ ih =>
    intro e he
    obtain ⟨hE, j, n, -, hn, h⟩ := ih e he
    exact ⟨hE, j, n, .inl rfl, hn, h⟩
  | loop _ _ ih => exact ih
  | @exhausted s i n _ _ hn _ _ ih =>
    exact fun e he => ⟨(ih e he).1, (s.holds_child i n).trans (ih e he).2⟩
  | target hl htrace => exact fun e he => target hl e (htrace.subset he)
  | @body s l i n _ hl hn _ _ ih =>
    intro e he
    obtain he | he := List.mem_append.1 he
    · exact target hl e he
    · exact ⟨(ih e he).1, (s.holds_child i n).trans (ih e he).2⟩
  | @round s l i n _ _ _ _ hl hn _ _ _ _ ih ih' =>
    intro e he
    obtain he | he := List.mem_append.1 he
    · obtain he | he := List.mem_append.1 he
      · exact target hl e he
      · exact ⟨(ih e he).1, (s.holds_child i n).trans (ih e he).2⟩
    · exact ih' e he

theorem Course.holds_load (h : Course E load suppresses p trace x) (hx : x = .here) :
    p.Holds load := by
  induction h with
  | statement | broken | finished | unwound | suppressed => cases hx
  | loaded _ _ hload => exact hload
  | other _ _ _ hload => exact hload hx
  | parts _ _ ih => exact (ih hx).whole
  | passed _ _ _ _ ih' | caught _ _ _ _ _ ih' => exact (ih' hx).of_succ
  | stopped hn _ _ ih => exact Stage.holds_first hn (ih hx)
  | skipped _ _ ih => exact (ih hx).of_succ
  | again _ ih =>
    obtain ⟨j, n, -, hn, h⟩ := ih hx
    exact ⟨j, n, .inl rfl, hn, h⟩
  | @iterable s _ _ _ hload =>
    obtain ⟨i, n, -, -, h⟩ := hload hx
    exact (s.holds_child i n).trans h
  | loop _ _ ih => exact ih hx
  | ended hnot => exact absurd hx hnot
  | @exhausted s i n _ _ _ _ _ ih => exact (s.holds_child i n).trans (ih hx)
  | target hl _ _ hload => exact (Site.holds_of_part? hl).trans (hload hx)
  | @body s _ i n _ _ _ _ _ ih => exact (s.holds_child i n).trans (ih hx)
  | round _ _ _ _ _ _ _ ih' => exact ih' hx

end Course

end Reroot.Python

import Reroot.Proofs.Python.Uses

/-!
How control passes through the statements of a scope, as far as the bindings of one name go. A run
leaves a trace of the bindings that it has made; it may take any branch or none, go round loops any
number of times, and leave a statement early by a jump or an exception. Handlers and loops may go on
after that, bodies of `with` statements may not.
-/

namespace Reroot.Python

inductive Exit where
  | done | early | here
  deriving DecidableEq

inductive Flow where
  | sequence | branches | guarded | loop
  deriving DecidableEq

def Kind.flow? : Kind → Option Flow
  | .block | .withStatement => some .sequence
  | .ifStatement | .elifClause | .elseClause | .exceptClause | .exceptGroupClause
  | .finallyClause => some .branches
  | .tryStatement => some .guarded
  | .forStatement | .whileStatement => some .loop
  | _ => none

def Flow.catches : Flow → Bool
  | .guarded | .loop => true
  | _ => false

def Site.IsAmongTargets (load s : Site) : Prop :=
  s.Holds load ∧ (s.kind = .deleteStatement ∨ s.kind = .expressionStatement ∧
    ∃ a p : Site, s ∈ a.ancestors ∧ a.Holds load ∧ a.parent? = some p ∧ p.kind = .assignment ∧
      a.isPart .left = true)

section Runs

variable (E : List Entry) (load : Site)

def madeIn (s : Site) : List Entry :=
  E.filter fun e => s.address.isSuffixOf e.site.address

inductive Point where
  | whole (s : Site)
  | rest (f : Flow) (s : Site) (i : Nat)

inductive Runs : Point → List Entry → Exit → Prop
  | statement {s : Site} (hk : s.kind.isSimpleStatement = true) : Runs (.whole s) (madeIn E s) .done
  | broken {s : Site} {trace : List Entry} (hk : s.kind.isSimpleStatement = true)
      (htrace : trace <+: madeIn E s) : Runs (.whole s) trace .early
  | loaded {s : Site} {trace : List Entry} (hk : s.kind.isSimpleStatement = true)
      (htrace : trace <+: madeIn E s) (hload : s.Holds load)
      (htargets : trace = [] ∨ load.IsAmongTargets s) : Runs (.whole s) trace .here
  | other {s : Site} {trace : List Entry} {x : Exit} (hk : s.kind.isSimpleStatement = false)
      (hflow : s.kind.flow? = none) (htrace : ∀ e ∈ trace, e ∈ madeIn E s)
      (hload : x = .here → s.Holds load) : Runs (.whole s) trace x
  | parts {s : Site} {f : Flow} {trace : List Entry} {x : Exit} (hflow : s.kind.flow? = some f)
      (h : Runs (.rest f s 0) trace x) : Runs (.whole s) trace x
  | finished {f : Flow} {s : Site} {i : Nat} (hi : s.node.children.length ≤ i) :
      Runs (.rest f s i) [] .done
  | unwound {f : Flow} {s : Site} {i : Nat} (hf : f.catches = true)
      (hi : s.node.children.length ≤ i) : Runs (.rest f s i) [] .early
  | passed {f : Flow} {s : Site} {i : Nat} {n : Node} {trace trace' : List Entry} {x : Exit}
      (hn : s.node.children[i]? = some n) (h : Runs (.whole (s.child i n)) trace .done)
      (h' : Runs (.rest f s (i + 1)) trace' x) : Runs (.rest f s i) (trace ++ trace') x
  | stopped {f : Flow} {s : Site} {i : Nat} {n : Node} {trace : List Entry} {x : Exit}
      (hn : s.node.children[i]? = some n) (h : Runs (.whole (s.child i n)) trace x)
      (hx : x ≠ .done) : Runs (.rest f s i) trace x
  | skipped {f : Flow} {s : Site} {i : Nat} {trace : List Entry} {x : Exit}
      (hf : f ≠ .sequence) (h : Runs (.rest f s (i + 1)) trace x) : Runs (.rest f s i) trace x
  | caught {f : Flow} {s : Site} {i : Nat} {n : Node} {trace trace' : List Entry} {x : Exit}
      (hf : f.catches = true) (hn : s.node.children[i]? = some n)
      (h : Runs (.whole (s.child i n)) trace .early)
      (h' : Runs (.rest f s (i + 1)) trace' x) : Runs (.rest f s i) (trace ++ trace') x
  | again {s : Site} {i : Nat} {trace : List Entry} {x : Exit}
      (h : Runs (.rest .loop s 0) trace x) : Runs (.rest .loop s i) trace x

end Runs

namespace Point

def Holds : Point → Site → Prop
  | whole s, t => s.Holds t
  | rest f s i, t =>
    ∃ j n, (f = .loop ∨ i ≤ j) ∧ s.node.children[j]? = some n ∧ (s.child j n).Holds t

variable {f : Flow} {s t : Site} {i : Nat} {n : Node}

theorem holds_first (hn : s.node.children[i]? = some n) (h : (s.child i n).Holds t) :
    (rest f s i).Holds t :=
  ⟨i, n, .inr (Nat.le_refl i), hn, h⟩

theorem Holds.of_succ (h : (rest f s (i + 1)).Holds t) : (rest f s i).Holds t := by
  obtain ⟨j, n, hj, hn, h⟩ := h
  exact ⟨j, n, hj.imp_right Nat.le_of_succ_le, hn, h⟩

theorem Holds.whole (h : (rest f s i).Holds t) : s.Holds t := by
  obtain ⟨j, n, -, -, h⟩ := h
  exact (Site.holds_child s j n).trans h

end Point

section Runs

variable {E : List Entry} {load : Site} {p : Point} {trace : List Entry} {x : Exit}

theorem mem_madeIn {s : Site} {e : Entry} : e ∈ madeIn E s ↔ e ∈ E ∧ s.Holds e.site := by
  rw [madeIn, List.mem_filter, List.isSuffixOf_iff_suffix]
  rfl

theorem Runs.made (h : Runs E load p trace x) : ∀ e ∈ trace, e ∈ E ∧ p.Holds e.site := by
  induction h with
  | statement => exact fun e he => mem_madeIn.1 he
  | broken _ htrace | loaded _ htrace => exact fun e he => mem_madeIn.1 (htrace.subset he)
  | other _ _ htrace => exact fun e he => mem_madeIn.1 (htrace e he)
  | parts _ _ ih => exact fun e he => ⟨(ih e he).1, (ih e he).2.whole⟩
  | finished | unwound => simp
  | passed hn _ _ ih ih' | caught _ hn _ _ ih ih' =>
    intro e he
    obtain he | he := List.mem_append.1 he
    · exact ⟨(ih e he).1, Point.holds_first hn (ih e he).2⟩
    · exact ⟨(ih' e he).1, (ih' e he).2.of_succ⟩
  | stopped hn _ _ ih => exact fun e he => ⟨(ih e he).1, Point.holds_first hn (ih e he).2⟩
  | skipped _ _ ih => exact fun e he => ⟨(ih e he).1, (ih e he).2.of_succ⟩
  | again _ ih =>
    intro e he
    obtain ⟨hE, j, n, -, hn, h⟩ := ih e he
    exact ⟨hE, j, n, .inl rfl, hn, h⟩

theorem Runs.holds_load (h : Runs E load p trace x) (hx : x = .here) : p.Holds load := by
  induction h with
  | statement | broken | finished | unwound => cases hx
  | loaded _ _ hload => exact hload
  | other _ _ _ hload => exact hload hx
  | parts _ _ ih => exact (ih hx).whole
  | passed _ _ _ _ ih' | caught _ _ _ _ _ ih' => exact (ih' hx).of_succ
  | stopped hn _ _ ih => exact Point.holds_first hn (ih hx)
  | skipped _ _ ih => exact (ih hx).of_succ
  | again _ ih =>
    obtain ⟨j, n, -, hn, h⟩ := ih hx
    exact ⟨j, n, .inl rfl, hn, h⟩

end Runs

end Reroot.Python

import Reroot.Proofs.Project.Index
import Reroot.Proofs.Run.Trace
import Reroot.Python.Analyzer

namespace Reroot

namespace Event

def IsWriting : Event → Prop
  | writing .. => True
  | _ => False

def IsPlanning : Event → Prop
  | planning .. => True
  | _ => False

def IsShown : Event → Prop
  | offered .. | reported .. | detailed .. => True
  | _ => False

def Settles : Event → Prop
  | offered _ a? => a? ≠ some .apply
  | reported _ _ a? => a? ≠ some .verbose
  | _ => False

def IsRetry : Event → Prop
  | reported _ _ a? => a? = some .retry
  | _ => False

def IsQuit : Event → Prop
  | offered _ a? => a? = some .quit
  | reported _ _ a? => a? = some .quit
  | _ => False

def IsUnanswered : Event → Prop
  | offered _ a? => a? = none
  | reported _ _ a? => a? = none
  | _ => False

theorem IsUnanswered.isShown {ev : Event} (h : ev.IsUnanswered) : ev.IsShown := by
  cases ev with
  | offered | reported => trivial
  | planning | writing | detailed => exact h.elim

end Event

namespace Session

variable {s s' s'' : Session} {ev : Event} {es es' : List Event}

inductive Does : Session → Event → Session → Prop
  | planning (s : Session) (x : Transformation) :
    Does s (.planning x s.tree s.snapshot) (s.note (.planning x s.tree s.snapshot))
  | offered (s : Session) (cs : ChangeSet) :
    Does s (.offered cs s.operator.decision.toOption) (ending (confirm cs s))
  | writing (s : Session) (cs : ChangeSet) {t : FileTree}
    (h : Runner.Writes cs s.snapshot.root s.tree t) :
    Does s (.writing cs s.tree) { s.note (.writing cs s.tree) with tree := t }
  | reported (s : Session) (d : String) (e : Error) :
    Does s (.reported d e s.operator.errorDecision.toOption) (ending (askOnce d e s))
  | detailed (s : Session) (text : String) : Does s (.detailed text) (s.note (.detailed text))

inductive Passes : Session → List Event → Session → Prop
  | nil (s : Session) : Passes s [] s
  | cons {s s' s'' : Session} {ev : Event} {es : List Event} :
    Does s ev s' → Passes s' es s'' → Passes s (ev :: es) s''

theorem ending_confirm (cs : ChangeSet) (s : Session) :
    ending (confirm cs s) =
      { s with
        tree := s.operator.whileDeciding.headD id s.tree
        operator := s.operator.afterDecision
        journal := s.journal ++ [.offered cs s.operator.decision.toOption] } := by
  unfold confirm
  dsimp only
  split <;> rfl

theorem ending_askOnce (d : String) (e : Error) (s : Session) :
    ending (askOnce d e s) =
      { s with
        tree := s.operator.whileFailing.headD id s.tree
        operator := s.operator.afterErrorDecision
        journal := s.journal ++ [.reported d e s.operator.errorDecision.toOption] } := by
  unfold askOnce
  dsimp only
  split <;> rfl

theorem Does.journal (h : Does s ev s') : s'.journal = s.journal ++ [ev] := by
  cases h with
  | planning | writing | detailed => rfl
  | offered => rw [ending_confirm]
  | reported => rw [ending_askOnce]

theorem Does.snapshot (h : Does s ev s') : s'.snapshot = s.snapshot := by
  cases h with
  | planning | writing | detailed => rfl
  | offered => rw [ending_confirm]
  | reported => rw [ending_askOnce]

theorem Does.quiet (h : Does s ev s') (hq : s.operator.Quiet) : s'.operator.Quiet := by
  cases h with
  | planning | writing | detailed => exact hq
  | offered cs => exact (follows_confirm hq cs).quiet
  | reported d e => exact (follows_askOnce hq d e).quiet

theorem Does.tree (h : Does s ev s') (hq : s.operator.Quiet) (hev : ¬ev.IsWriting) :
    s'.tree = s.tree := by
  cases h with
  | planning | detailed => rfl
  | writing => exact absurd trivial hev
  | offered cs => exact (follows_confirm hq cs).tree
  | reported d e => exact (follows_askOnce hq d e).tree

theorem Does.operator (h : Does s ev s') (hev : ¬ev.IsShown) : s'.operator = s.operator := by
  cases h with
  | planning | writing => rfl
  | offered | reported | detailed => exact absurd trivial hev

theorem Passes.journal (h : Passes s es s') : s'.journal = s.journal ++ es := by
  induction h with
  | nil => rw [List.append_nil]
  | cons hdoes _ ih => rw [ih, hdoes.journal, List.append_assoc, List.singleton_append]

theorem Passes.snapshot (h : Passes s es s') : s'.snapshot = s.snapshot := by
  induction h with
  | nil => rfl
  | cons hdoes _ ih => rw [ih, hdoes.snapshot]

theorem Passes.quiet (h : Passes s es s') (hq : s.operator.Quiet) : s'.operator.Quiet := by
  induction h with
  | nil => exact hq
  | cons hdoes _ ih => exact ih (hdoes.quiet hq)

theorem Passes.tree (h : Passes s es s') (hq : s.operator.Quiet) (hes : ∀ ev ∈ es, ¬ev.IsWriting) :
    s'.tree = s.tree := by
  induction h with
  | nil => rfl
  | cons hdoes _ ih =>
    obtain ⟨hev, hes⟩ := List.forall_mem_cons.1 hes
    rw [ih (hdoes.quiet hq) hes, hdoes.tree hq hev]

theorem Passes.operator (h : Passes s es s') (hes : ∀ ev ∈ es, ¬ev.IsShown) :
    s'.operator = s.operator := by
  induction h with
  | nil => rfl
  | cons hdoes _ ih =>
    obtain ⟨hev, hes⟩ := List.forall_mem_cons.1 hes
    rw [ih hes, hdoes.operator hev]

theorem confirm_eq (cs : ChangeSet) (s : Session) :
    confirm cs s =
      match s.operator.decision with
      | .ok a => .ok a (ending (confirm cs s))
      | .error e => .error e (ending (confirm cs s)) := by
  rw [ending_confirm]
  rfl

def result? {α : Type} : EStateM.Result Error Session α → Option α
  | .ok a _ => some a
  | .error .. => none

inductive Questions (d : String) (e : Error) : List Event → Option ErrorDecision → Prop
  | answer (a? : Option ErrorDecision) (h : a? ≠ some .verbose) : Questions d e [.reported d e a?] a?
  | verbose {es : List Event} {a? : Option ErrorDecision} (h : Questions d e es a?) :
    Questions d e
      (.reported d e (some .verbose) :: .detailed (d ++ "\n" ++ e.detail) :: es) a?

def Settlement.ofAnswer? : Option ErrorDecision → Option Settlement
  | some .retry => some .retry
  | some .next => some (.onward .next)
  | some .quit => some (.onward .quit)
  | _ => none

theorem errorDecisions_ne_nil (h : s.operator.errorDecision = .ok .verbose) :
    s.operator.errorDecisions ≠ [] := by
  intro hnil
  unfold Operator.errorDecision at h
  rw [hnil] at h
  cases hend : s.operator.atEnd <;> rw [hend] at h <;> cases h

theorem askOnce_eq (d : String) (e : Error) (s : Session) :
    askOnce d e s =
      match s.operator.errorDecision with
      | .ok a => .ok a (ending (askOnce d e s))
      | .error e' => .error e' (ending (askOnce d e s)) := by
  rw [ending_askOnce]
  rfl

theorem errorDecision_of_askOnce {d : String} {e : Error} {a : ErrorDecision}
    (h : askOnce d e s = .ok a s') : s.operator.errorDecision = .ok a := by
  rw [askOnce_eq] at h
  split at h
  · next hanswer =>
    cases h
    exact hanswer
  · cases h

theorem does_of_askOnce {d : String} {e : Error} {a : ErrorDecision} (h : askOnce d e s = .ok a s') :
    Does s (.reported d e (some a)) s' := by
  have hdoes := Does.reported s d e
  rwa [errorDecision_of_askOnce h, h] at hdoes

theorem does_of_askOnce_error {d : String} {e e' : Error} (h : askOnce d e s = .error e' s') :
    Does s (.reported d e none) s' := by
  have hdoes := Does.reported s d e
  rw [h] at hdoes
  rw [askOnce_eq] at h
  split at h
  · cases h
  · next hanswer => rwa [hanswer] at hdoes

inductive AsksUntil (d : String) (e : Error) : Session → EStateM.Result Error Session Settlement → Prop
  | error {s s' : Session} {e' : Error} (h : askOnce d e s = .error e' s') :
    AsksUntil d e s (.error e' s')
  | retry {s s' : Session} (h : askOnce d e s = .ok .retry s') : AsksUntil d e s (.ok .retry s')
  | next {s s' : Session} (h : askOnce d e s = .ok .next s') : AsksUntil d e s (.ok (.onward .next) s')
  | quit {s s' : Session} (h : askOnce d e s = .ok .quit s') : AsksUntil d e s (.ok (.onward .quit) s')
  | verbose {s s' : Session} {y : EStateM.Result Error Session Settlement}
    (h : askOnce d e s = .ok .verbose s')
    (h' : AsksUntil d e (s'.note (.detailed (d ++ "\n" ++ e.detail))) y) : AsksUntil d e s y

theorem asksUntil_settleLoop (d : String) (e : Error) {n : Nat}
    (hn : s.operator.errorDecisions.length < n) : AsksUntil d e s (settleLoop d e n s) := by
  induction n generalizing s with
  | zero => exact absurd hn (Nat.not_lt_zero _)
  | succ n ih =>
    rw [settleLoop]
    split
    · next h => exact .error h
    · next h => exact .retry h
    · next h => exact .next h
    · next h => exact .quit h
    · next s' h =>
      -- Each request for more uses up an answer, so the bound on the questions is not reached.
      have hpos := List.length_pos_iff.2 (errorDecisions_ne_nil (errorDecision_of_askOnce h))
      have hlt : s'.operator.errorDecisions.length < n := by
        rw [errorDecisions_of_askOnce h, List.length_tail]
        omega
      exact .verbose h (ih hlt)

theorem asksUntil_settle (d : String) (e : Error) (s : Session) : AsksUntil d e s (settle d e s) :=
  asksUntil_settleLoop d e (Nat.lt_succ_self _)

theorem AsksUntil.questions {d : String} {e : Error} {y : EStateM.Result Error Session Settlement}
    (h : AsksUntil d e s y) : ∃ es a?, Questions d e es a? ∧ Passes s es (ending y) ∧
      result? y = Settlement.ofAnswer? a? := by
  induction h with
  | error h =>
    exact ⟨_, _, .answer none (by simp), .cons (does_of_askOnce_error h) (.nil _), rfl⟩
  | retry h | next h | quit h =>
    exact ⟨_, _, .answer (some _) (by simp), .cons (does_of_askOnce h) (.nil _), rfl⟩
  | verbose h _ ih =>
    obtain ⟨es, a?, hquestions, hpasses, hresult⟩ := ih
    exact ⟨_, a?, .verbose hquestions,
      .cons (does_of_askOnce h) (.cons (.detailed _ _) hpasses), hresult⟩

theorem Questions.ends {d : String} {e : Error} {a? : Option ErrorDecision}
    (h : Questions d e es a?) :
    ∃ front, es = front ++ [.reported d e a?] ∧ a? ≠ some .verbose ∧
      ∀ ev ∈ front, ¬ev.Settles ∧ ¬ev.IsWriting ∧ ¬ev.IsPlanning := by
  induction h with
  | answer a? h => exact ⟨[], rfl, h, by simp⟩
  | verbose _ ih =>
    obtain ⟨front, rfl, ha, hfront⟩ := ih
    refine ⟨_ :: _ :: front, rfl, ha, ?_⟩
    simpa [Event.Settles, Event.IsWriting, Event.IsPlanning] using hfront

end Session

namespace Runner

open Session

variable {r : Runner} {x : Transformation} {s s' : Session} {t : FileTree} {b : Snapshot}
  {cs : ChangeSet} {es es' : List Event} {o : Outcome} {y : Option Attempt}

def Attempt.ofSettlement (d : String) (g : Stage) (e : Error) : Settlement → Attempt
  | .retry => .again
  | .onward o => .done (.failed d g e o)

def Attempt.ofDecision? (d : String) : Option Decision → Option Attempt
  | some .skip => some (.done (.skipped d))
  | some .quit => some (.done (.quit d))
  | _ => none

inductive Reacts (r : Runner) (d : String) (g : Stage) (e : Error) :
    List Event → Option Attempt → Prop
  | uncaught (hcatching : r.catching = false) : Reacts r d g e [] none
  | firstError (hcatching : r.catching = true) (hmode : r.mode = .firstError) :
    Reacts r d g e [] (some (.done (.failed d g e .quit)))
  | keepGoing (hcatching : r.catching = true) (hmode : r.mode = .keepGoing) :
    Reacts r d g e [] (some (.done (.failed d g e .next)))
  | interactive {es : List Event} {a? : Option ErrorDecision} (hcatching : r.catching = true)
    (hmode : r.mode = .interactive) (hquestions : Questions d e es a?) :
    Reacts r d g e es ((Settlement.ofAnswer? a?).map (Attempt.ofSettlement d g e))

def consent (r : Runner) (cs : ChangeSet) : List Event :=
  if r.mode = .interactive then [.offered cs (some .apply)] else []

inductive Round (r : Runner) (x : Transformation) (t : FileTree) (b : Snapshot) :
    List Event → Option Attempt → Prop
  | rejected {e : Error} {es : List Event} {y : Option Attempt}
    (hchanges : x.changes r.analyzer t b = .error e) (hreacts : Reacts r x.label .rejected e es y) :
    Round r x t b (.planning x t b :: es) y
  | withheld {cs : ChangeSet} (a? : Option Decision) (hchanges : x.changes r.analyzer t b = .ok cs)
    (hmode : r.mode = .interactive) (hanswer : a? ≠ some .apply) :
    Round r x t b [.planning x t b, .offered cs a?] (Attempt.ofDecision? cs.description a?)
  | applied {cs : ChangeSet} {t' : FileTree} (hchanges : x.changes r.analyzer t b = .ok cs) :
    Round r x t b (.planning x t b :: (r.consent cs ++ [.writing cs t']))
      (some (.done (.applied cs.description)))
  | broken {cs : ChangeSet} {t' : FileTree} {e : Error} {es : List Event} {y : Option Attempt}
    (hchanges : x.changes r.analyzer t b = .ok cs)
    (hreacts : Reacts r cs.description .fatal e es y) :
    Round r x t b (.planning x t b :: (r.consent cs ++ .writing cs t' :: es)) y

theorem reacts_of_fail (r : Runner) (d : String) (g : Stage) (e : Error) (s : Session) :
    ∃ es, Passes s es (ending (r.fail d g e s)) ∧ Reacts r d g e es (result? (r.fail d g e s)) := by
  unfold fail
  cases hcatching : r.catching with
  | false => exact ⟨[], .nil s, .uncaught hcatching⟩
  | true =>
    cases hmode : r.mode with
    | firstError => exact ⟨[], .nil s, .firstError hcatching hmode⟩
    | keepGoing => exact ⟨[], .nil s, .keepGoing hcatching hmode⟩
    | interactive =>
      obtain ⟨es, a?, hquestions, hpasses, hresult⟩ := (asksUntil_settle d e s).questions
      have hreacts := Reacts.interactive (g := g) hcatching hmode hquestions
      rw [← hresult] at hreacts
      refine ⟨es, ?_⟩
      simp only [if_true]
      cases hsettle : settle d e s with
      | error e' s' =>
        rw [hsettle] at hpasses hreacts
        exact ⟨hpasses, hreacts⟩
      | ok a s' =>
        rw [hsettle] at hpasses hreacts
        cases a with
        | retry | onward => exact ⟨hpasses, hreacts⟩

theorem round_of_write (hchanges : x.changes r.analyzer t b = .ok cs)
    (s : Session) :
    ∃ es, Passes s es (ending (r.write x cs s)) ∧
      Round r x t b (.planning x t b :: (r.consent cs ++ es)) (result? (r.write x cs s)) := by
  cases hwork : r.carryOut s.snapshot x cs s.tree with
  | ok _ t' =>
    rw [write_of_carryOut hwork]
    have hwrites : Writes cs s.snapshot.root s.tree t' := .inl (carryOut_ok hwork)
    exact ⟨[.writing cs s.tree], .cons (.writing s cs hwrites) (.nil _), .applied hchanges⟩
  | error e t' =>
    rw [write_of_carryOut_error hwork]
    obtain ⟨es, hpasses, hreacts⟩ := r.reacts_of_fail cs.description .fatal e
      { s.note (.writing cs s.tree) with tree := t' }
    exact ⟨.writing cs s.tree :: es, .cons (.writing s cs (carryOut_error hwork)) hpasses,
      .broken hchanges hreacts⟩

theorem round_of_attempt (r : Runner) (x : Transformation) (s : Session) :
    ∃ es, Passes s es (ending (r.attempt x s)) ∧
      Round r x s.tree s.snapshot es (result? (r.attempt x s)) := by
  have hplanning := Does.planning s x
  cases hchanges : x.changes r.analyzer s.tree s.snapshot with
  | error e =>
    rw [attempt_of_error hchanges]
    obtain ⟨es, hpasses, hreacts⟩ := r.reacts_of_fail x.label .rejected e
      (s.note (.planning x s.tree s.snapshot))
    exact ⟨_, .cons hplanning hpasses, .rejected hchanges hreacts⟩
  | ok cs =>
    rw [attempt_of_ok hchanges]
    generalize s.note (.planning x s.tree s.snapshot) = s₁ at hplanning ⊢
    by_cases hmode : r.mode = .interactive
    · have hoffered := Does.offered s₁ cs
      rw [decide_of_interactive hmode, confirm_eq]
      cases hanswer : s₁.operator.decision with
      | error e =>
        rw [hanswer] at hoffered
        exact ⟨_, .cons hplanning (.cons hoffered (.nil _)),
          .withheld none hchanges hmode (by simp)⟩
      | ok a =>
        rw [hanswer] at hoffered
        cases a with
        | skip | quit =>
          exact ⟨_, .cons hplanning (.cons hoffered (.nil _)),
            .withheld (some _) hchanges hmode (by simp)⟩
        | apply =>
          obtain ⟨es, hpasses, hround⟩ := round_of_write hchanges (ending (confirm cs s₁))
          rw [consent, if_pos hmode] at hround
          exact ⟨_, .cons hplanning (.cons hoffered hpasses), hround⟩
    · obtain ⟨es, hpasses, hround⟩ := round_of_write hchanges s₁
      rw [consent, if_neg hmode] at hround
      rw [decide_of_ne hmode]
      exact ⟨_, .cons hplanning hpasses, hround⟩

theorem round_of_ok {z : Attempt} (h : r.attempt x s = .ok z s') :
    ∃ es, Passes s es s' ∧ Round r x s.tree s.snapshot es (some z) := by
  obtain ⟨es, hpasses, hround⟩ := r.round_of_attempt x s
  rw [h] at hpasses hround
  exact ⟨es, hpasses, hround⟩

theorem round_of_error {e : Error} (h : r.attempt x s = .error e s') :
    ∃ es, Passes s es s' ∧ Round r x s.tree s.snapshot es none := by
  obtain ⟨es, hpasses, hround⟩ := r.round_of_attempt x s
  rw [h] at hpasses hround
  exact ⟨es, hpasses, hround⟩

structure Ends (r : Runner) (front : List Event) (last : Event) (y : Option Attempt) : Prop where
  front : ∀ ev ∈ front, ¬ev.Settles
  retry : last.IsRetry ↔ y = some .again
  unanswered : r.catching = true → (last.IsUnanswered ↔ y = none)
  quit : r.mode = .interactive → (last.IsQuit ↔ ∃ o, y = some (.done o) ∧ o.onward = .quit)

theorem ends_of_not_settles {front : List Event} {last : Event} (hfront : ∀ ev ∈ front, ¬ev.Settles)
    (hlast : ¬last.Settles) (hagain : y ≠ some .again) (hcaught : r.catching = true → y ≠ none)
    (hquit : r.mode = .interactive → ∀ o, y = some (.done o) → o.onward ≠ .quit) :
    Ends r front last y := by
  have hnot : ¬last.IsRetry ∧ ¬last.IsUnanswered ∧ ¬last.IsQuit := by
    cases last <;> simp_all [Event.Settles, Event.IsRetry, Event.IsUnanswered, Event.IsQuit]
  refine ⟨hfront, iff_of_false hnot.1 hagain, fun h => iff_of_false hnot.2.1 (hcaught h),
    fun h => iff_of_false hnot.2.2 ?_⟩
  rintro ⟨o, hy, ho⟩
  exact hquit h o hy ho

theorem Reacts.ends {d : String} {g : Stage} {e : Error} {last : Event} (h : Reacts r d g e es y)
    (front : List Event) (hfront : ∀ ev ∈ front, ¬ev.Settles) (hlast : ¬last.Settles) :
    ∃ front' last', front ++ last :: es = front' ++ [last'] ∧ Ends r front' last' y := by
  cases h with
  | uncaught hcatching =>
    exact ⟨front, last, rfl, ends_of_not_settles hfront hlast (by simp) (by simp [hcatching]) (by simp)⟩
  | firstError _ hmode | keepGoing _ hmode =>
    exact ⟨front, last, rfl, ends_of_not_settles hfront hlast (by simp) (by simp) (by simp [hmode])⟩
  | @interactive _ a? _ hmode hquestions =>
    obtain ⟨front', rfl, ha, hfront'⟩ := hquestions.ends
    refine ⟨front ++ last :: front', .reported d e a?, by simp, ?_, ?_, fun _ => ?_, fun _ => ?_⟩
    · simp only [List.forall_mem_append, List.forall_mem_cons]
      exact ⟨hfront, hlast, fun ev hev => (hfront' ev hev).1⟩
    all_goals
      rcases a? with _ | _ | _ | _ | _ <;>
        simp_all [Event.IsRetry, Event.IsUnanswered, Event.IsQuit, Settlement.ofAnswer?,
          Attempt.ofSettlement, Outcome.onward]

theorem not_settles_consent (r : Runner) (cs : ChangeSet) : ∀ ev ∈ r.consent cs, ¬ev.Settles := by
  unfold consent
  split <;> simp [Event.Settles]

theorem Round.ends (h : Round r x t b es y) :
    ∃ front last, es = front ++ [last] ∧ Ends r front last y := by
  have hplanning : ¬(Event.planning x t b).Settles := by simp [Event.Settles]
  cases h with
  | rejected _ hreacts => exact hreacts.ends [] (by simp) hplanning
  | @withheld cs a? _ hmode hanswer =>
    refine ⟨[.planning x t b], .offered cs a?, rfl, by simpa using hplanning, ?_, fun _ => ?_,
      fun _ => ?_⟩
    all_goals
      rcases a? with _ | _ | _ | _ <;>
        simp_all [Event.IsRetry, Event.IsUnanswered, Event.IsQuit, Attempt.ofDecision?, Outcome.onward]
  | @applied cs t' =>
    have hwriting : ¬(Event.writing cs t').Settles := by simp [Event.Settles]
    refine ⟨.planning x t b :: r.consent cs, .writing cs t', by simp,
      ends_of_not_settles (List.forall_mem_cons.2 ⟨hplanning, r.not_settles_consent cs⟩) hwriting
        (by simp) (by simp) (by simp [Outcome.onward])⟩
  | @broken cs t' _ _ _ _ hreacts =>
    have hwriting : ¬(Event.writing cs t').Settles := by simp [Event.Settles]
    obtain ⟨front, last, heq, hends⟩ := hreacts.ends (.planning x t b :: r.consent cs)
      (List.forall_mem_cons.2 ⟨hplanning, r.not_settles_consent cs⟩) hwriting
    exact ⟨front, last, by rw [← heq, List.cons_append], hends⟩

theorem Reacts.events {d : String} {g : Stage} {e : Error} (h : Reacts r d g e es y) :
    ∀ ev ∈ es, ¬ev.IsWriting ∧ ¬ev.IsPlanning ∧ (r.mode ≠ .interactive → ¬ev.IsShown) := by
  cases h with
  | uncaught | firstError | keepGoing => simp
  | interactive _ hmode hquestions =>
    obtain ⟨front, rfl, -, hfront⟩ := hquestions.ends
    simp only [List.forall_mem_append, List.forall_mem_singleton]
    exact ⟨fun ev hev => ⟨(hfront ev hev).2.1, (hfront ev hev).2.2, fun h => absurd hmode h⟩,
      id, id, fun h => absurd hmode h⟩

theorem mem_consent {ev : Event} (h : ev ∈ r.consent cs) :
    r.mode = .interactive ∧ ev = .offered cs (some .apply) := by
  unfold consent at h
  split at h
  · next hmode => exact ⟨hmode, List.mem_singleton.1 h⟩
  · cases h

theorem Round.begins (h : Round r x t b es y) :
    ∃ rest, es = .planning x t b :: rest ∧ ∀ ev ∈ rest, ¬ev.IsPlanning := by
  have hconsent (cs : ChangeSet) : ∀ ev ∈ r.consent cs, ¬ev.IsPlanning := by
    intro ev hev
    rw [(mem_consent hev).2]
    exact id
  cases h with
  | rejected _ hreacts => exact ⟨_, rfl, fun ev hev => (hreacts.events ev hev).2.1⟩
  | withheld => exact ⟨_, rfl, by simp [Event.IsPlanning]⟩
  | applied =>
    refine ⟨_, rfl, ?_⟩
    simp only [List.forall_mem_append, List.forall_mem_singleton]
    exact ⟨hconsent _, id⟩
  | broken _ hreacts =>
    refine ⟨_, rfl, ?_⟩
    simp only [List.forall_mem_append, List.forall_mem_cons]
    exact ⟨hconsent _, id, fun ev hev => (hreacts.events ev hev).2.1⟩

theorem Round.writing {before after : List Event} {t' : FileTree} (h : Round r x t b es y)
    (heq : es = before ++ .writing cs t' :: after) :
    before = .planning x t b :: r.consent cs ∧ x.changes r.analyzer t b = .ok cs := by
  have hmem : .writing cs t' ∈ es := by simp [heq]
  have hfront (cs' : ChangeSet) : .writing cs t' ∉ .planning x t b :: r.consent cs' := by
    intro hev
    obtain hev | hev := List.mem_cons.1 hev
    · cases hev
    · cases (mem_consent hev).2
  cases h with
  | rejected _ hreacts =>
    obtain hev | hev := List.mem_cons.1 hmem
    · cases hev
    · exact absurd trivial (hreacts.events _ hev).1
  | withheld => simp at hmem
  | @applied cs' t'' hchanges =>
    obtain ⟨rfl, hev, -⟩ := (List.append_cons_inj_of_notMem (hfront cs') List.not_mem_nil).1 heq
    cases hev
    exact ⟨rfl, hchanges⟩
  | @broken cs' t'' e es' _ hchanges hreacts =>
    have hes : .writing cs t' ∉ es' := fun hev => (hreacts.events _ hev).1 trivial
    obtain ⟨rfl, hev, -⟩ := (List.append_cons_inj_of_notMem (hfront cs') hes).1 heq
    cases hev
    exact ⟨rfl, hchanges⟩

theorem Round.not_isShown (h : Round r x t b es y) (hmode : r.mode ≠ .interactive) :
    ∀ ev ∈ es, ¬ev.IsShown := by
  have hconsent (cs : ChangeSet) : r.consent cs = [] := if_neg hmode
  cases h with
  | rejected _ hreacts =>
    exact List.forall_mem_cons.2 ⟨id, fun ev hev => (hreacts.events ev hev).2.2 hmode⟩
  | withheld _ _ h => exact absurd h hmode
  | applied => simp [hconsent, Event.IsShown]
  | broken _ hreacts =>
    rw [hconsent, List.nil_append]
    simp only [List.forall_mem_cons]
    exact ⟨id, id, fun ev hev => (hreacts.events ev hev).2.2 hmode⟩

variable {xs : List Transformation} {run : Run}

theorem steps_nil (r : Runner) (s : Session) : r.steps [] s = .ok ⟨[], none⟩ s :=
  rfl

theorem steps_of_next {s₁ s₂ s₃ : Session} {rest : Run} (hstep : r.step x s = .ok o s₁)
    (hrefresh : Session.refresh s₁ = .ok () s₂) (ho : o.onward = .next)
    (hrest : r.steps xs s₂ = .ok rest s₃) :
    r.steps (x :: xs) s = .ok ⟨o :: rest.outcomes, rest.aborted⟩ s₃ := by
  simp only [steps, hstep, hrefresh, ho, hrest]

theorem steps_of_quit {s₁ s₂ : Session} (hstep : r.step x s = .ok o s₁)
    (hrefresh : Session.refresh s₁ = .ok () s₂) (ho : o.onward = .quit) :
    r.steps (x :: xs) s =
      .ok ⟨[o], if r.mode = .interactive then some (xs.length + 1) else none⟩ s₂ := by
  simp only [steps, hstep, hrefresh, ho]

theorem exists_of_steps_cons (h : r.steps (x :: xs) s = .ok run s') :
    ∃ o s₁ s₂, r.step x s = .ok o s₁ ∧ Session.refresh s₁ = .ok () s₂ ∧
      (o.onward = .quit ∧ s' = s₂ ∧
          run = ⟨[o], if r.mode = .interactive then some (xs.length + 1) else none⟩ ∨
        o.onward = .next ∧ ∃ rest, r.steps xs s₂ = .ok rest s' ∧
          run = ⟨o :: rest.outcomes, rest.aborted⟩) := by
  rw [steps] at h
  split at h
  · cases h
  next o s₁ hstep =>
  split at h
  · cases h
  next s₂ hrefresh =>
  refine ⟨o, s₁, s₂, hstep, hrefresh, ?_⟩
  split at h
  · next ho =>
    cases h
    exact .inl ⟨ho, rfl, rfl⟩
  · next ho =>
    split at h
    · cases h
    · next rest s₃ hrest =>
      cases h
      exact .inr ⟨ho, rest, hrest, rfl⟩

inductive Chronicle (r : Runner) : List Transformation → List Event → Prop
  | nil : Chronicle r [] []
  | stop {x : Transformation} {xs : List Transformation} {t : FileTree} {b : Snapshot}
    {es : List Event} {y : Option Attempt} (h : Round r x t b es y) : Chronicle r (x :: xs) es
  | again {x : Transformation} {xs : List Transformation} {t : FileTree} {b : Snapshot}
    {es es' : List Event} (h : Round r x t b es (some .again)) (h' : Chronicle r (x :: xs) es') :
    Chronicle r (x :: xs) (es ++ es')
  | next {x : Transformation} {xs : List Transformation} {t : FileTree} {b : Snapshot}
    {es es' : List Event} {o : Outcome} (h : Round r x t b es (some (.done o)))
    (h' : Chronicle r xs es') : Chronicle r (x :: xs) (es ++ es')

theorem chronicle_of_step (r : Runner) (x : Transformation) (xs : List Transformation) (s : Session) :
    ∃ es, (ending (r.step x s)).journal = s.journal ++ es ∧ Chronicle r (x :: xs) es ∧
      ∀ o s' es', r.step x s = .ok o s' → Chronicle r xs es' →
        Chronicle r (x :: xs) (es ++ es') := by
  fun_induction step r x s with
  | case1 s e s₁ ha =>
    obtain ⟨es, hpasses, hround⟩ := round_of_error ha
    exact ⟨es, hpasses.journal, .stop hround, fun _ _ _ h => by cases h⟩
  | case2 s o' s₁ ha =>
    obtain ⟨es, hpasses, hround⟩ := round_of_ok ha
    exact ⟨es, hpasses.journal, .stop hround, fun _ _ _ _ h' => .next hround h'⟩
  | case3 s s₁ ha e =>
    obtain ⟨es, hpasses, hround⟩ := round_of_ok ha
    exact ⟨es, hpasses.journal, .stop hround, fun _ _ _ h => by cases h⟩
  | case4 s s₁ ha snapshot _ ih =>
    obtain ⟨es, hpasses, hround⟩ := round_of_ok ha
    obtain ⟨es', hjournal, hchronicle, hnext⟩ := ih
    refine ⟨es ++ es', ?_, .again hround hchronicle, fun o s' es'' hstep h' => ?_⟩
    · rw [hjournal, ← List.append_assoc, ← hpasses.journal]
    · rw [List.append_assoc]
      exact .again hround (hnext o s' es'' hstep h')

theorem chronicle_of_steps (r : Runner) (xs : List Transformation) (s : Session) :
    ∃ es, (ending (r.steps xs s)).journal = s.journal ++ es ∧ Chronicle r xs es := by
  induction xs generalizing s with
  | nil => exact ⟨[], (List.append_nil _).symm, .nil⟩
  | cons x xs ih =>
    obtain ⟨es, hjournal, hchronicle, hnext⟩ := r.chronicle_of_step x xs s
    rw [steps]
    cases hstep : r.step x s with
    | error e s₁ =>
      rw [hstep] at hjournal
      exact ⟨es, hjournal, hchronicle⟩
    | ok o s₁ =>
      rw [hstep] at hjournal
      dsimp only
      cases hrefresh : Session.refresh s₁ with
      | error e s₂ =>
        obtain rfl : s₂ = s₁ := refresh_error hrefresh
        exact ⟨es, hjournal, hchronicle⟩
      | ok u s₂ =>
        obtain ⟨-, -, hsame, -⟩ := refresh_ok hrefresh
        have hjournal₂ : s₂.journal = s.journal ++ es := hsame.trans hjournal
        dsimp only
        split
        · exact ⟨es, hjournal₂, hchronicle⟩
        · obtain ⟨es', hjournal', hchronicle'⟩ := ih s₂
          refine ⟨es ++ es', ?_, hnext o s₁ es' hstep hchronicle'⟩
          rw [hjournal₂, List.append_assoc] at hjournal'
          cases hrest : r.steps xs s₂ with
          | error e s₃ | ok run s₃ =>
            rw [hrest] at hjournal'
            exact hjournal'

section Invariant

variable {I J : Session → Prop} (hIJ : ∀ s, I s → J s)
  (hrefresh : ∀ s b, J s → s.snapshot.refresh s.tree = .ok b → I { s with snapshot := b })

include hrefresh

theorem ending_step (hattempt : ∀ s, I s → J (ending (r.attempt x s))) (hs : I s) :
    J (ending (r.step x s)) := by
  fun_induction step r x s with
  | case1 s e s₁ ha | case2 s o s₁ ha | case3 s s₁ ha e =>
    have hended := hattempt s hs
    rw [ha] at hended
    exact hended
  | case4 s s₁ ha b hb ih =>
    have hended := hattempt s hs
    rw [ha] at hended
    exact ih (hrefresh s₁ b hended hb)

include hIJ

theorem ending_steps {xs : List Transformation}
    (hattempt : ∀ x ∈ xs, ∀ s, I s → J (ending (r.attempt x s))) (hs : I s) :
    J (ending (r.steps xs s)) := by
  induction xs generalizing s with
  | nil => exact hIJ s hs
  | cons x xs ih =>
    obtain ⟨hx, hxs⟩ := List.forall_mem_cons.1 hattempt
    have hstepped := ending_step hrefresh hx hs
    rw [steps]
    cases hstep : r.step x s with
    | error e s₁ =>
      rw [hstep] at hstepped
      exact hstepped
    | ok o s₁ =>
      rw [hstep] at hstepped
      dsimp only [Session.refresh]
      cases hb : s₁.snapshot.refresh s₁.tree with
      | error e => exact hstepped
      | ok b =>
        have hfresh := hrefresh s₁ b hstepped hb
        dsimp only
        split
        · exact hIJ _ hfresh
        · have hended := ih hxs hfresh
          cases hrest : r.steps xs { s₁ with snapshot := b } with
          | error e s₃ | ok run s₃ =>
            rw [hrest] at hended
            exact hended

end Invariant

def Halts (r : Runner) {α : Type} : EStateM.Result Error Session α → Prop
  | .ok _ s => ∀ ev, s.journal.getLast? = some ev → ¬ev.IsRetry
  | .error e s => s.snapshot.refresh s.tree = .error e ∨ ∃ ev, s.journal.getLast? = some ev ∧
      ¬ev.IsRetry ∧ (r.catching = true → ev.IsUnanswered)

theorem halts_step (r : Runner) (x : Transformation) (s : Session) : Halts r (r.step x s) := by
  fun_induction step r x s with
  | case1 s e s₁ ha =>
    obtain ⟨es, hpasses, hround⟩ := round_of_error ha
    obtain ⟨front, last, rfl, hends⟩ := hround.ends
    refine .inr ⟨last, ?_, fun h => by simpa using hends.retry.1 h,
      fun h => (hends.unanswered h).2 rfl⟩
    rw [hpasses.journal, ← List.append_assoc, List.getLast?_concat]
  | case2 s o s₁ ha =>
    obtain ⟨es, hpasses, hround⟩ := round_of_ok ha
    obtain ⟨front, last, rfl, hends⟩ := hround.ends
    intro ev hev hretry
    rw [hpasses.journal, ← List.append_assoc, List.getLast?_concat] at hev
    cases hev
    simpa using hends.retry.1 hretry
  | case3 s s₁ ha e he => exact .inl he
  | case4 s s₁ ha b hb ih => exact ih

theorem halts_steps (r : Runner) (xs : List Transformation)
    (hs : ∀ ev, s.journal.getLast? = some ev → ¬ev.IsRetry) : Halts r (r.steps xs s) := by
  induction xs generalizing s with
  | nil => exact hs
  | cons x xs ih =>
    have hhalts := r.halts_step x s
    rw [steps]
    cases hstep : r.step x s with
    | error e s₁ =>
      rw [hstep] at hhalts
      exact hhalts
    | ok o s₁ =>
      rw [hstep] at hhalts
      dsimp only [Session.refresh]
      cases hb : s₁.snapshot.refresh s₁.tree with
      | error e => exact .inl hb
      | ok b =>
        dsimp only
        split
        · exact hhalts
        · have hrest := ih (s := { s₁ with snapshot := b }) hhalts
          cases hsteps : r.steps xs { s₁ with snapshot := b } with
          | error e s₂ | ok run s₂ =>
            rw [hsteps] at hrest
            exact hrest

def ScanFails {α : Type} (y : EStateM.Result Error Session α) : Prop :=
  ∃ e s, y = .error e s ∧ s.snapshot.refresh s.tree = .error e

theorem exists_ok_of_steps {xs : List Transformation} (hcatching : r.catching = true)
    (hs : s.journal = []) (hscan : ¬ScanFails (r.steps xs s))
    (hanswered : ∀ ev ∈ (ending (r.steps xs s)).journal, ¬ev.IsUnanswered) :
    ∃ run s', r.steps xs s = .ok run s' := by
  have hhalts := r.halts_steps (s := s) xs (by simp [hs])
  cases hsteps : r.steps xs s with
  | ok run s' => exact ⟨run, s', rfl⟩
  | error e s' =>
    rw [hsteps] at hhalts hscan hanswered
    obtain hfails | ⟨ev, hev, -, hunanswered⟩ := hhalts
    · exact absurd ⟨e, s', rfl, hfails⟩ hscan
    · exact absurd (hunanswered hcatching) (hanswered ev (List.mem_of_getLast? hev))

def start (operator? : Option Operator) (t : FileTree) (a : Snapshot) : Session :=
  ⟨t, a, operator?.getD (Operator.scripted [] []), []⟩

theorem run_eq {operator? : Option Operator} (h : r.mode = .interactive → operator?.isSome = true)
    (t : FileTree) (a : Snapshot) (xs : List Transformation) :
    r.run operator? t a xs = r.steps xs (start operator? t a) := by
  cases operator? with
  | some operator => rfl
  | none =>
    have hmode : r.mode ≠ .interactive := fun hmode => by simpa using h hmode
    rw [run, if_neg hmode]
    rfl

variable {root : Path} {l : Layout} {excludes : List Glob} {a : Snapshot}

theorem refresh_of_capture (h : Snapshot.capture t root l excludes = .ok a) (t' : FileTree) :
    a.refresh t' = Snapshot.capture t' root l excludes := by
  obtain ⟨rfl, rfl, rfl, -⟩ := Snapshot.capture_ok h
  rfl

structure Tracks (root : Path) (l : Layout) (excludes : List Glob) (s : Session) : Prop where
  refresh : ∀ t, s.snapshot.refresh t = Snapshot.capture t root l excludes
  planned : ∀ x t b, .planning x t b ∈ s.journal → Snapshot.capture t root l excludes = .ok b

theorem tracks_of_attempt (h : Tracks root l excludes s)
    (hs : Snapshot.capture s.tree root l excludes = .ok s.snapshot) :
    Tracks root l excludes (ending (r.attempt x s)) := by
  obtain ⟨es, hpasses, hround⟩ := r.round_of_attempt x s
  obtain ⟨rest, rfl, hrest⟩ := hround.begins
  refine ⟨hpasses.snapshot ▸ h.refresh, fun x' t b hev => ?_⟩
  rw [hpasses.journal, List.mem_append, List.mem_cons] at hev
  obtain hev | hev | hev := hev
  · exact h.planned x' t b hev
  · cases hev
    exact hs
  · exact absurd trivial (hrest _ hev)

theorem capture_of_planning (ha : Snapshot.capture t root l excludes = .ok a) (r : Runner)
    (operator? : Option Operator) (xs : List Transformation) {x : Transformation} {t' : FileTree}
    (h : .planning x t' b ∈ (ending (r.run operator? t a xs)).journal) :
    Snapshot.capture t' root l excludes = .ok b := by
  have hstart : Tracks root l excludes (start operator? t a) :=
    ⟨refresh_of_capture ha, fun _ _ _ hev => by cases hev⟩
  by_cases hrun : r.mode = .interactive → operator?.isSome = true
  · rw [run_eq hrun] at h
    have htracks : Tracks root l excludes (ending (r.steps xs (start operator? t a))) :=
      ending_steps (I := fun s => Tracks root l excludes s ∧
          Snapshot.capture s.tree root l excludes = .ok s.snapshot)
        (fun s hs => hs.1)
        (fun s b hs hb => by
          rw [hs.refresh] at hb
          exact ⟨⟨refresh_of_capture hb, hs.planned⟩, hb⟩)
        (fun x _ s hs => tracks_of_attempt hs.1 hs.2) ⟨hstart, ha⟩
    exact htracks.planned x t' b h
  · obtain ⟨hmode, hnone⟩ := Classical.not_imp.1 hrun
    cases operator? with
    | some operator => simp at hnone
    | none =>
      rw [run, if_pos hmode] at h
      cases h

end Runner

namespace Mended

open Runner

def module : TopLevelModule :=
  ⟨"a", ⟨"a.py"⟩, false⟩

def move : Transformation :=
  .moveModule module "p"

def runner : Runner :=
  ⟨Python.analyzer, .interactive, [], true⟩

def tree : FileTree :=
  ⟨.dir [], []⟩

def snapshot : Snapshot :=
  ⟨⟨"/"⟩, .standard, [], []⟩

def tree' : FileTree :=
  ⟨.dir [("a.py", .file "".toUTF8)], []⟩

def snapshot' : Snapshot :=
  ⟨⟨"/"⟩, .standard, [], [⟨"a", ⟨"a.py"⟩⟩]⟩

def operator : Operator :=
  ⟨[.quit], [.retry], [], [fun _ => tree'], none⟩

def changes : ChangeSet :=
  ⟨"Move module <a> to <p.a>", [.move ⟨"a.py"⟩ ⟨"p/a.py"⟩]⟩

def failure : Error :=
  .planning (.absent "a" ⟨"a.py"⟩)

theorem run_tree : ∃ s', runner.run (some operator) tree snapshot [move] =
      .ok ⟨[.quit changes.description], some 1⟩ s' ∧
    s'.journal = [.planning move tree snapshot, .reported move.label failure (some .retry),
      .planning move tree' snapshot', .offered changes (some .quit)] := by
  have hfirst : runner.attempt move ⟨tree, snapshot, operator, []⟩ =
      .ok .again ⟨tree', snapshot, ⟨[.quit], [], [], [], none⟩,
        [.planning move tree snapshot, .reported move.label failure (some .retry)]⟩ := rfl
  have hsecond : runner.attempt move ⟨tree', snapshot', ⟨[.quit], [], [], [], none⟩,
        [.planning move tree snapshot, .reported move.label failure (some .retry)]⟩ =
      .ok (.done (.quit changes.description)) ⟨tree', snapshot', ⟨[], [], [], [], none⟩,
        [.planning move tree snapshot, .reported move.label failure (some .retry),
          .planning move tree' snapshot', .offered changes (some .quit)]⟩ := rfl
  have hstep := (step_of_again hfirst rfl).trans (step_of_done hsecond)
  change ∃ s', runner.steps [move] ⟨tree, snapshot, operator, []⟩ = _ ∧ _
  rw [steps, hstep]
  exact ⟨_, rfl, rfl⟩

theorem capture_of_planning_mended :
    Snapshot.capture tree ⟨"/"⟩ .standard [] = .ok snapshot ∧
      .planning move tree' snapshot' ∈
        (Session.ending (runner.run (some operator) tree snapshot [move])).journal ∧
      Snapshot.capture tree' ⟨"/"⟩ .standard [] = .ok snapshot' := by
  obtain ⟨s', hrun, hjournal⟩ := run_tree
  have hplanned : .planning move tree' snapshot' ∈
      (Session.ending (runner.run (some operator) tree snapshot [move])).journal := by
    rw [hrun]
    change _ ∈ s'.journal
    simp [hjournal]
  exact ⟨rfl, hplanned, capture_of_planning rfl _ _ _ hplanned⟩

end Mended

end Reroot

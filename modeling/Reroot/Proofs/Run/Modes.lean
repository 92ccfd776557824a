import Reroot.Proofs.Run.Consent

namespace Reroot

def Outcome.summary (o : Outcome) : String × String × Option Error :=
  (o.description, o.stateName, o.error?)

def FailureMode.onward : FailureMode → Onward
  | firstError => .quit
  | _ => .next

structure Operator.Agrees (m n : Nat) (o : Operator) : Prop extends o.Quiet where
  decisions : ∀ d ∈ o.decisions, d = .apply
  errorDecisions : ∀ d ∈ o.errorDecisions, d = .next
  length_decisions : m ≤ o.decisions.length
  length_errorDecisions : n ≤ o.errorDecisions.length

theorem Operator.Agrees.mono {m m' n n' : Nat} {o : Operator} (h : o.Agrees m n) (hm : m' ≤ m)
    (hn : n' ≤ n) : o.Agrees m' n' :=
  { h with
    length_decisions := hm.trans h.length_decisions
    length_errorDecisions := hn.trans h.length_errorDecisions }

namespace Session

variable {s : Session} {m n : Nat}

theorem confirm_of_agrees (h : s.operator.Agrees (m + 1) n) (cs : ChangeSet) :
    ∃ s', confirm cs s = .ok .apply s' ∧ s'.tree = s.tree ∧ s'.snapshot = s.snapshot ∧
      s'.operator.Agrees m n := by
  have hfollows := follows_confirm h.toQuiet cs
  cases hds : s.operator.decisions with
  | nil => simpa [hds] using h.length_decisions
  | cons d ds =>
    obtain rfl : d = .apply := h.decisions d (by simp [hds])
    have hdecision : s.operator.decision = .ok .apply := by rw [Operator.decision, hds]
    rw [confirm_eq, hdecision]
    refine ⟨_, rfl, hfollows.tree, hfollows.snapshot, hfollows.quiet, ?_, ?_, ?_, ?_⟩
    all_goals rw [ending_confirm]
    · exact fun d hd => h.decisions d (List.mem_of_mem_tail hd)
    · exact h.errorDecisions
    · have hlen := h.length_decisions
      rw [hds, List.length_cons] at hlen
      simpa [Operator.afterDecision, hds] using hlen
    · exact h.length_errorDecisions

theorem settle_of_agrees (h : s.operator.Agrees m (n + 1)) (d : String) (e : Error) :
    ∃ s', settle d e s = .ok (.onward .next) s' ∧ s'.tree = s.tree ∧ s'.snapshot = s.snapshot ∧
      s'.operator.Agrees m n := by
  have hfollows := follows_askOnce h.toQuiet d e
  cases hes : s.operator.errorDecisions with
  | nil => simpa [hes] using h.length_errorDecisions
  | cons a as =>
    obtain rfl : a = .next := h.errorDecisions a (by simp [hes])
    have hdecision : s.operator.errorDecision = .ok .next := by rw [Operator.errorDecision, hes]
    rw [settle, settleLoop, askOnce_eq, hdecision]
    refine ⟨_, rfl, hfollows.tree, hfollows.snapshot, hfollows.quiet, ?_, ?_, ?_, ?_⟩
    all_goals rw [ending_askOnce]
    · exact h.decisions
    · exact fun a ha => h.errorDecisions a (List.mem_of_mem_tail ha)
    · exact h.length_decisions
    · have hlen := h.length_errorDecisions
      rw [hes, List.length_cons] at hlen
      simpa [Operator.afterErrorDecision, hes] using hlen

end Session

namespace Runner

open Session

variable {r : Runner} {x : Transformation} {xs : List Transformation} {s s' : Session}
  {t t' : FileTree} {cs : ChangeSet} {o : Outcome} {run : Run} {d : String} {g : Stage} {e : Error}
  {m n : Nat}

def inMode (r : Runner) (mode : FailureMode) (catching : Bool) : Runner :=
  { r with mode := mode, catching := catching }

def trial (r : Runner) (x : Transformation) (t : FileTree) (b : Snapshot) :
    EStateM.Result (String × Stage × Error) FileTree String :=
  match x.changes r.analyzer t b with
  | .error e => .error (x.label, .rejected, e) t
  | .ok cs =>
    match r.carryOut b x cs t with
    | .ok () t' => .ok cs.description t'
    | .error e t' => .error (cs.description, .fatal, e) t'

theorem fail_of_ne (hmode : r.mode ≠ .interactive) (d : String) (g : Stage) (e : Error) (s : Session) :
    r.fail d g e s =
      if r.catching then .ok (.done (.failed d g e r.mode.onward)) s else .error e s := by
  unfold fail
  cases hm : r.mode with
  | firstError | keepGoing => rfl
  | interactive => exact absurd hm hmode

theorem attempt_unasked (r : Runner) (x : Transformation) (s : Session) :
    ∃ s₁, s₁.snapshot = s.snapshot ∧ match r.trial x s.tree s.snapshot with
      | .ok d t' => s₁.tree = t' ∧ ∀ mode ≠ .interactive, ∀ c,
          (r.inMode mode c).attempt x s = .ok (.done (.applied d)) s₁
      | .error (d, g, e) t' => s₁.tree = t' ∧ ∀ mode ≠ .interactive, ∀ c,
          (r.inMode mode c).attempt x s = (r.inMode mode c).fail d g e s₁ := by
  unfold trial
  cases hchanges : x.changes r.analyzer s.tree s.snapshot with
  | error e =>
    exact ⟨s.note (.planning x s.tree s.snapshot), rfl, rfl,
      fun mode _ c => attempt_of_error (r := r.inMode mode c) hchanges⟩
  | ok cs =>
    have hattempt (mode : FailureMode) (hmode : mode ≠ .interactive) (c : Bool) :
        (r.inMode mode c).attempt x s =
          (r.inMode mode c).write x cs (s.note (.planning x s.tree s.snapshot)) := by
      rw [attempt_of_ok (r := r.inMode mode c) hchanges, decide_of_ne hmode]
    dsimp only
    cases hcarry : r.carryOut s.snapshot x cs s.tree with
    | ok u t' =>
      refine ⟨{ (s.note (.planning x s.tree s.snapshot)).note (.writing cs s.tree) with tree := t' },
        rfl, rfl, fun mode hmode c => (hattempt mode hmode c).trans ?_⟩
      exact write_of_carryOut (r := r.inMode mode c) (s := s.note _) hcarry
    | error e t' =>
      refine ⟨{ (s.note (.planning x s.tree s.snapshot)).note (.writing cs s.tree) with tree := t' },
        rfl, rfl, fun mode hmode c => (hattempt mode hmode c).trans ?_⟩
      exact write_of_carryOut_error (r := r.inMode mode c) (s := s.note _) hcarry

theorem attempt_ne_again (hmode : r.mode ≠ .interactive) (x : Transformation) (s s₁ : Session) :
    r.attempt x s ≠ .ok .again s₁ := by
  intro ha
  obtain ⟨s₂, -, hattempt⟩ := r.attempt_unasked x s
  cases htrial : r.trial x s.tree s.snapshot with
  | ok d t' =>
    simp only [htrial] at hattempt
    cases ha.symm.trans (hattempt.2 r.mode hmode r.catching)
  | error f t' =>
    obtain ⟨d, g, e⟩ := f
    simp only [htrial] at hattempt
    have hfail := ha.symm.trans ((hattempt.2 r.mode hmode r.catching).trans (fail_of_ne hmode d g e s₂))
    split at hfail <;> cases hfail

theorem step_unasked {mode : FailureMode} (hmode : mode ≠ .interactive)
    (h : (r.inMode mode true).step x s = .ok o s') :
    s'.snapshot = s.snapshot ∧
      ((∃ d, r.trial x s.tree s.snapshot = .ok d s'.tree ∧ o = .applied d ∧
          ∀ mode' ≠ .interactive, ∀ c, (r.inMode mode' c).step x s = .ok (.applied d) s') ∨
        ∃ d g e, r.trial x s.tree s.snapshot = .error (d, g, e) s'.tree ∧
          o = .failed d g e mode.onward ∧
          ∀ mode' ≠ .interactive,
            (r.inMode mode' true).step x s = .ok (.failed d g e mode'.onward) s' ∧
            (r.inMode mode' false).step x s = .error e s') := by
  obtain ⟨s₁, hsnapshot, hattempt⟩ := r.attempt_unasked x s
  cases htrial : r.trial x s.tree s.snapshot with
  | ok d t' =>
    simp only [htrial] at hattempt
    obtain ⟨rfl, hattempt⟩ := hattempt
    have hstep (mode' : FailureMode) (hmode' : mode' ≠ .interactive) (c : Bool) :
        (r.inMode mode' c).step x s = .ok (.applied d) s₁ :=
      step_of_done (hattempt mode' hmode' c)
    rw [hstep mode hmode] at h
    cases h
    exact ⟨hsnapshot, .inl ⟨d, rfl, rfl, hstep⟩⟩
  | error f t' =>
    obtain ⟨d, g, e⟩ := f
    simp only [htrial] at hattempt
    obtain ⟨rfl, hattempt⟩ := hattempt
    have hstep (mode' : FailureMode) (hmode' : mode' ≠ .interactive) :
        (r.inMode mode' true).step x s = .ok (.failed d g e mode'.onward) s₁ ∧
          (r.inMode mode' false).step x s = .error e s₁ :=
      ⟨step_of_done ((hattempt mode' hmode' true).trans (fail_of_ne hmode' d g e s₁)),
        step_of_error ((hattempt mode' hmode' false).trans (fail_of_ne hmode' d g e s₁))⟩
    rw [(hstep mode hmode).1] at h
    cases h
    exact ⟨hsnapshot, .inr ⟨d, g, e, rfl, rfl, hstep⟩⟩

theorem fail_of_agrees (r : Runner) (h : s.operator.Agrees m (n + 1)) (d : String) (g : Stage)
    (e : Error) :
    ∃ s', (r.inMode .interactive true).fail d g e s = .ok (.done (.failed d g e .next)) s' ∧
      s'.tree = s.tree ∧ s'.snapshot = s.snapshot ∧ s'.operator.Agrees m n := by
  obtain ⟨s', hsettle, hkept⟩ := settle_of_agrees h d e
  refine ⟨s', ?_, hkept⟩
  simp only [fail, inMode, if_true, hsettle]

theorem step_agreed (r : Runner) (x : Transformation) (hop : s.operator.Agrees (m + 1) (n + 1)) :
    ∃ s', s'.snapshot = s.snapshot ∧ s'.operator.Agrees m n ∧
      match r.trial x s.tree s.snapshot with
      | .ok d t' => s'.tree = t' ∧ (r.inMode .interactive true).step x s = .ok (.applied d) s'
      | .error (d, g, e) t' => s'.tree = t' ∧
          (r.inMode .interactive true).step x s = .ok (.failed d g e .next) s' := by
  unfold trial
  cases hchanges : x.changes r.analyzer s.tree s.snapshot with
  | error e =>
    obtain ⟨s', hfail, htree, hsnapshot, hop'⟩ := fail_of_agrees (s := s.note _) r hop x.label .rejected e
    refine ⟨s', hsnapshot, hop'.mono (Nat.le_succ m) le_rfl, htree, step_of_done ?_⟩
    exact (attempt_of_error (r := r.inMode .interactive true) hchanges).trans hfail
  | ok cs =>
    obtain ⟨s₁, hconfirm, htree, hsnapshot, hop₁⟩ := confirm_of_agrees
      (s := s.note (.planning x s.tree s.snapshot)) hop cs
    have hattempt : (r.inMode .interactive true).attempt x s =
        (r.inMode .interactive true).write x cs s₁ := by
      rw [attempt_of_ok (r := r.inMode .interactive true) hchanges, decide_of_interactive rfl, hconfirm]
    dsimp only
    cases hcarry : r.carryOut s.snapshot x cs s.tree with
    | ok u t' =>
      have hcarry₁ : r.carryOut s₁.snapshot x cs s₁.tree = .ok () t' := by
        rw [hsnapshot, htree]
        exact hcarry
      refine ⟨{ s₁.note (.writing cs s₁.tree) with tree := t' }, hsnapshot,
        hop₁.mono le_rfl (Nat.le_succ n), rfl, step_of_done (hattempt.trans ?_)⟩
      exact write_of_carryOut (r := r.inMode .interactive true) hcarry₁
    | error e t' =>
      have hcarry₁ : r.carryOut s₁.snapshot x cs s₁.tree = .error e t' := by
        rw [hsnapshot, htree]
        exact hcarry
      obtain ⟨s', hfail, htree', hsnapshot', hop'⟩ := fail_of_agrees
        (s := { s₁.note (.writing cs s₁.tree) with tree := t' }) r hop₁ cs.description .fatal e
      refine ⟨s', hsnapshot'.trans hsnapshot, hop', htree', step_of_done (hattempt.trans ?_)⟩
      exact (write_of_carryOut_error (r := r.inMode .interactive true) hcarry₁).trans hfail

theorem exists_of_keepGoing_cons (h : (r.inMode .keepGoing true).steps (x :: xs) s = .ok run s') :
    ∃ o s₁ s₂ rest, (r.inMode .keepGoing true).step x s = .ok o s₁ ∧
      Session.refresh s₁ = .ok () s₂ ∧ o.onward = .next ∧
      (r.inMode .keepGoing true).steps xs s₂ = .ok rest s' ∧
      run = ⟨o :: rest.outcomes, rest.aborted⟩ := by
  obtain ⟨o, s₁, s₂, hstep, hrefresh, ⟨ho, -⟩ | ⟨ho, rest, hrest⟩⟩ := exists_of_steps_cons h
  · obtain ⟨-, ⟨d, -, rfl, -⟩ | ⟨d, g, e, -, rfl, -⟩⟩ := step_unasked (by simp) hstep <;> cases ho
  · exact ⟨o, s₁, s₂, rest, hstep, hrefresh, ho, hrest⟩

theorem aborted_of_keepGoing (h : (r.inMode .keepGoing true).steps xs s = .ok run s') :
    run.aborted = none := by
  induction xs generalizing s run with
  | nil =>
    cases h
    rfl
  | cons x xs ih =>
    obtain ⟨o, s₁, s₂, rest, -, -, -, hrest, rfl⟩ := exists_of_keepGoing_cons h
    have haborted : rest.aborted = none := ih hrest
    exact haborted

theorem firstError_steps (h : (r.inMode .keepGoing true).steps xs s = .ok run s')
    (hn : n = run.outcomes.findIdx Outcome.isFailed + 1) :
    ∃ os s₁, (r.inMode .firstError true).steps xs s = .ok ⟨os, none⟩ s₁ ∧
      os.map Outcome.summary = (run.outcomes.take n).map Outcome.summary ∧
      (r.inMode .keepGoing true).steps (xs.take n) s = .ok ⟨run.outcomes.take n, none⟩ s₁ ∧
      (r.inMode .keepGoing true).steps (xs.drop n) s₁ = .ok ⟨run.outcomes.drop n, none⟩ s' := by
  induction xs generalizing s run n with
  | nil =>
    cases h
    exact ⟨[], s', rfl, by simp, by simp [steps], by simp [steps]⟩
  | cons x xs ih =>
    obtain ⟨o, s₁, s₂, rest, hstep, hrefresh, -, hrest, rfl⟩ := exists_of_keepGoing_cons h
    obtain ⟨-, ⟨d, -, rfl, hsame⟩ | ⟨d, g, e, -, rfl, hsame⟩⟩ := step_unasked (by simp) hstep
    · obtain ⟨os, s₃, hfirst, hsummary, htake, hdrop⟩ := ih hrest rfl
      rw [List.findIdx_cons] at hn
      subst hn
      refine ⟨.applied d :: os, s₃, steps_of_next (hsame _ (by simp) _) hrefresh rfl hfirst, ?_,
        steps_of_next hstep hrefresh rfl htake, hdrop⟩
      exact congrArg (_ :: ·) hsummary
    · obtain rfl : n = 1 := by rw [hn, List.findIdx_cons]; rfl
      have haborted := aborted_of_keepGoing hrest
      refine ⟨[.failed d g e .quit], s₂, steps_of_quit (hsame _ (by simp)).1 hrefresh rfl, ?_,
        steps_of_next hstep hrefresh rfl (steps_nil _ s₂), ?_⟩
      · cases g <;> rfl
      · cases rest
        cases haborted
        exact hrest

theorem uncaught_steps {mode : FailureMode} (hmode : mode ≠ .interactive)
    (h : (r.inMode .firstError true).steps xs s = .ok run s') :
    (∀ e, (∃ s₁, (r.inMode mode false).steps xs s = .error e s₁) ↔
      ∃ o ∈ run.outcomes, o.error? = some e) ∧
    (ending ((r.inMode mode false).steps xs s)).tree = s'.tree ∧
    ((∀ o ∈ run.outcomes, o.error? = none) → (r.inMode mode false).steps xs s = .ok run s') := by
  induction xs generalizing s run with
  | nil =>
    cases h
    simp [steps, ending]
  | cons x xs ih =>
    obtain ⟨o, s₁, s₂, hstep, hrefresh, hcases⟩ := exists_of_steps_cons h
    obtain ⟨-, ⟨d, -, rfl, hsame⟩ | ⟨d, g, e, -, rfl, hsame⟩⟩ := step_unasked (by simp) hstep
    · obtain ⟨ho, -⟩ | ⟨-, rest, hrest, rfl⟩ := hcases
      · cases ho
      obtain ⟨herror, htree, hok⟩ := ih hrest
      have hstep' := hsame mode hmode false
      cases hsteps : (r.inMode mode false).steps xs s₂ with
      | error e s₃ =>
        rw [hsteps] at herror htree hok
        have hsteps' : (r.inMode mode false).steps (x :: xs) s = .error e s₃ := by
          simp only [steps, hstep', hrefresh, Outcome.onward, hsteps]
        rw [hsteps']
        refine ⟨fun e' => (herror e').trans ?_, htree, fun hall => ?_⟩
        · simp [Outcome.error?]
        · cases hok fun o ho => hall o (List.mem_cons_of_mem _ ho)
      | ok run' s₃ =>
        rw [hsteps] at herror htree hok
        rw [steps_of_next hstep' hrefresh rfl hsteps]
        refine ⟨fun e' => ?_, htree, fun hall => ?_⟩
        · simpa [Outcome.error?] using herror e'
        · cases hok fun o ho => hall o (List.mem_cons_of_mem _ ho)
          rfl
    · obtain ⟨-, rfl, rfl⟩ | ⟨ho, -⟩ := hcases
      · have hsteps : (r.inMode mode false).steps (x :: xs) s = .error e s₁ := by
          simp only [steps, (hsame mode hmode).2]
        obtain ⟨htree, -⟩ := refresh_ok hrefresh
        rw [hsteps]
        refine ⟨fun e' => ?_, htree.symm, ?_⟩ <;> simp [Outcome.error?, eq_comm]
      · cases ho

theorem agreed_steps {u : Session} (h : (r.inMode .keepGoing true).steps xs s = .ok run s')
    (htree : u.tree = s.tree) (hsnapshot : u.snapshot = s.snapshot)
    (hop : u.operator.Agrees xs.length xs.length) :
    ∃ u', (r.inMode .interactive true).steps xs u = .ok run u' ∧ u'.tree = s'.tree := by
  induction xs generalizing s u run with
  | nil =>
    cases h
    exact ⟨u, rfl, htree⟩
  | cons x xs ih =>
    obtain ⟨o, s₁, s₂, rest, hstep, hrefresh, ho, hrest, rfl⟩ := exists_of_keepGoing_cons h
    obtain ⟨u₁, hsnapshot₁, hop₁, hagreed⟩ := step_agreed r x hop
    rw [htree, hsnapshot] at hagreed
    obtain ⟨hkept, hcases⟩ := step_unasked (by simp) hstep
    have hboth : u₁.tree = s₁.tree ∧ (r.inMode .interactive true).step x u = .ok o u₁ := by
      obtain ⟨d, htrial, rfl, -⟩ | ⟨d, g, e, htrial, rfl, -⟩ := hcases
      all_goals
        rw [htrial] at hagreed
        exact hagreed
    obtain ⟨htree₁, hstep'⟩ := hboth
    obtain ⟨htree₂, -, -, hfresh⟩ := refresh_ok hrefresh
    rw [hkept, ← hsnapshot, ← hsnapshot₁, ← htree₁] at hfresh
    have hrefresh' : Session.refresh u₁ = .ok () { u₁ with snapshot := s₂.snapshot } := by
      simp only [Session.refresh, hfresh]
    obtain ⟨u', hsteps, htree'⟩ := ih (u := { u₁ with snapshot := s₂.snapshot }) hrest
      (htree₁.trans htree₂.symm) rfl hop₁
    exact ⟨u', steps_of_next hstep' hrefresh' ho hsteps, htree'⟩

theorem modes_agree (r : Runner) (operator? : Option Operator) (t : FileTree) (a : Snapshot)
    (xs : List Transformation)
    (hscan : ¬ScanFails ((r.inMode .keepGoing true).run operator? t a xs)) :
    ∃ os s', (r.inMode .keepGoing true).run operator? t a xs = .ok ⟨os, none⟩ s' ∧
      (∃ n os₁ s₁, n = os.findIdx Outcome.isFailed + 1 ∧
        (r.inMode .firstError true).run operator? t a xs = .ok ⟨os₁, none⟩ s₁ ∧
        os₁.map Outcome.summary = (os.take n).map Outcome.summary ∧
        (r.inMode .keepGoing true).run operator? t a (xs.take n) = .ok ⟨os.take n, none⟩ s₁ ∧
        (r.inMode .keepGoing true).steps (xs.drop n) s₁ = .ok ⟨os.drop n, none⟩ s' ∧
        ∀ mode ≠ .interactive,
          (∀ e, (∃ s₂, (r.inMode mode false).run operator? t a xs = .error e s₂) ↔
            ∃ o ∈ os₁, o.error? = some e) ∧
          (ending ((r.inMode mode false).run operator? t a xs)).tree = s₁.tree ∧
          ((∀ o ∈ os₁, o.error? = none) →
            (r.inMode mode false).run operator? t a xs = .ok ⟨os₁, none⟩ s₁)) ∧
      ∀ operator : Operator, operator.Agrees xs.length xs.length →
        ∃ u', (r.inMode .interactive true).run (some operator) t a xs = .ok ⟨os, none⟩ u' ∧
          u'.tree = s'.tree := by
  have hrun (mode : FailureMode) (hmode : mode ≠ .interactive) (c : Bool) (ys : List Transformation) :
      (r.inMode mode c).run operator? t a ys = (r.inMode mode c).steps ys (start operator? t a) :=
    run_eq (fun h => absurd h hmode) t a ys
  rw [hrun .keepGoing (by simp)] at hscan
  have hstart : Unasked (start operator? t a).operator (start operator? t a) :=
    ⟨rfl, by simp [start]⟩
  have hunasked := unasked_of_steps (r := r.inMode .keepGoing true) (by simp [inMode]) xs hstart
  obtain ⟨⟨os, aborted⟩, s', hkeep⟩ := exists_ok_of_steps rfl rfl hscan fun ev hev hunanswered =>
    hunasked.not_isShown ev hev hunanswered.isShown
  obtain rfl : aborted = none := aborted_of_keepGoing hkeep
  obtain ⟨os₁, s₁, hfirst, hsummary, htake, hdrop⟩ := firstError_steps hkeep rfl
  refine ⟨os, s', (hrun _ (by simp) _ _).trans hkeep, ⟨_, os₁, s₁, rfl,
    (hrun _ (by simp) _ _).trans hfirst, hsummary, (hrun _ (by simp) _ _).trans htake, hdrop,
    fun mode hmode => ?_⟩, fun operator hop => ?_⟩
  · rw [hrun mode hmode]
    exact uncaught_steps hmode hfirst
  · rw [run_eq fun _ => rfl]
    exact agreed_steps hkeep rfl rfl hop

end Runner

namespace Unmoved

open Runner

def rename : Transformation :=
  .renameExternal "b" "c" "*"

def plan : List Transformation :=
  [rename, move, rename]

def outcomes : List Outcome :=
  [.applied "Rename", .failed "Move" .fatal failure .next, .applied "Rename"]

def surveyed : Surveyed :=
  ⟨snapshot, Survey.capture analyzer tree snapshot⟩

theorem trial_rename (mode : FailureMode) :
    (runner mode).trial rename tree snapshot = .ok "Rename" tree := by
  have hsorted : sortedNames [] = [] := by
    rw [sortedNames, List.mergeSort_nil]
    rfl
  have hcheck : checkConsistency tree [] rename.renamed? surveyed surveyed = .ok () := by
    rw [checkConsistency, show freshlyDangling tree [] rename.renamed? surveyed surveyed = [] from rfl,
      hsorted, if_neg (Nat.lt_irrefl _)]
  have hcarry : (runner mode).carryOut snapshot rename ⟨"Rename", []⟩ tree = .ok () tree := by
    change TreeM.ofExcept (checkConsistency tree [] rename.renamed? surveyed surveyed) tree = _
    rw [hcheck]
    rfl
  rw [trial, show rename.changes (runner mode).analyzer tree snapshot = .ok ⟨"Rename", []⟩ from rfl]
  simp only [hcarry]

theorem trial_move (mode : FailureMode) :
    (runner mode).trial move tree snapshot = .error ("Move", .fatal, failure) tree :=
  rfl

theorem refresh_tree {s : Session} (htree : s.tree = tree) (hsnapshot : s.snapshot = snapshot) :
    Session.refresh s = .ok () s := by
  have hrefresh : s.snapshot.refresh s.tree = .ok s.snapshot := by
    rw [htree, hsnapshot]
    rfl
  simp only [Session.refresh, hrefresh]

theorem run_plan : ∃ s', (runner .keepGoing).run none tree snapshot plan = .ok ⟨outcomes, none⟩ s' := by
  have hfirst (s : Session) (htree : s.tree = tree) (hsnapshot : s.snapshot = snapshot) :
      ∃ s', (runner .keepGoing).step rename s = .ok (.applied "Rename") s' ∧
        s'.tree = tree ∧ s'.snapshot = snapshot := by
    obtain ⟨s', hkept, hattempt⟩ := (runner .keepGoing).attempt_unasked rename s
    rw [htree, hsnapshot, trial_rename] at hattempt
    exact ⟨s', step_of_done (hattempt.2 .keepGoing (by simp) true), hattempt.1, hkept.trans hsnapshot⟩
  have hsecond (s : Session) (htree : s.tree = tree) (hsnapshot : s.snapshot = snapshot) :
      ∃ s', (runner .keepGoing).step move s = .ok (.failed "Move" .fatal failure .next) s' ∧
        s'.tree = tree ∧ s'.snapshot = snapshot := by
    obtain ⟨s', hkept, hattempt⟩ := (runner .keepGoing).attempt_unasked move s
    rw [htree, hsnapshot, trial_move] at hattempt
    exact ⟨s', step_of_done (hattempt.2 .keepGoing (by simp) true), hattempt.1, hkept.trans hsnapshot⟩
  obtain ⟨s₁, hstep₁, htree₁, hsnapshot₁⟩ := hfirst (start none tree snapshot) rfl rfl
  obtain ⟨s₂, hstep₂, htree₂, hsnapshot₂⟩ := hsecond s₁ htree₁ hsnapshot₁
  obtain ⟨s₃, hstep₃, htree₃, hsnapshot₃⟩ := hfirst s₂ htree₂ hsnapshot₂
  have hsteps₃ := steps_of_next hstep₃ (refresh_tree htree₃ hsnapshot₃) rfl (steps_nil _ s₃)
  have hsteps₂ := steps_of_next hstep₂ (refresh_tree htree₂ hsnapshot₂) rfl hsteps₃
  exact ⟨s₃, steps_of_next hstep₁ (refresh_tree htree₁ hsnapshot₁) rfl hsteps₂⟩

theorem modes_agree_unmoved :
    ¬ScanFails ((runner .keepGoing).run none tree snapshot plan) ∧
      ∃ s' os₁ s₁ u', (runner .keepGoing).run none tree snapshot plan = .ok ⟨outcomes, none⟩ s' ∧
        (runner .firstError).run none tree snapshot plan = .ok ⟨os₁, none⟩ s₁ ∧
        os₁.map Outcome.summary =
          [("Rename", "applied", none), ("Move", "fatal", some failure)] ∧
        (runner .keepGoing).run none tree snapshot [rename, move] =
          .ok ⟨[.applied "Rename", .failed "Move" .fatal failure .next], none⟩ s₁ ∧
        (∃ s₂, (⟨analyzer, .keepGoing, [], false⟩ : Runner).run none tree snapshot plan =
          .error failure s₂) ∧
        (runner .interactive).run (some (.scripted (.replicate 3 .apply) (.replicate 3 .next))) tree
          snapshot plan = .ok ⟨outcomes, none⟩ u' ∧
        u'.tree = s'.tree := by
  obtain ⟨s₀, hkeep⟩ := run_plan
  have hscan : ¬ScanFails ((runner .keepGoing).run none tree snapshot plan) := by
    rintro ⟨e, s, herror, -⟩
    cases hkeep.symm.trans herror
  have hagrees : (Operator.scripted (.replicate 3 .apply) (.replicate 3 .next)).Agrees 3 3 := by
    refine ⟨⟨?_, ?_⟩, ?_, ?_, ?_, ?_⟩ <;> simp [Operator.scripted]
  obtain ⟨os, s', hrun, ⟨n, os₁, s₁, rfl, hfirst, hsummary, htake, -, huncaught⟩, hagreed⟩ :=
    modes_agree (runner .keepGoing) none tree snapshot plan hscan
  cases hkeep.symm.trans hrun
  obtain ⟨u', hinteractive, htree⟩ := hagreed _ hagrees
  have hfailed : ∃ o ∈ os₁, o.error? = some failure := by
    have hmem : ("Move", "fatal", some failure) ∈ os₁.map Outcome.summary := by
      rw [hsummary]
      exact .tail _ (.head _)
    obtain ⟨o, ho, heq⟩ := List.mem_map.1 hmem
    exact ⟨o, ho, (Prod.ext_iff.1 (Prod.ext_iff.1 heq).2).2⟩
  exact ⟨hscan, s₀, os₁, s₁, u', hkeep, hfirst, hsummary, htake,
    ((huncaught .keepGoing (by simp)).1 failure).2 hfailed, hinteractive, htree⟩

end Unmoved

end Reroot

import Reroot.Proofs.Run.Modes
import Reroot.Report

namespace Reroot

inductive Sorts : List Outcome → List String → List Failure → List String → Prop
  | nil : Sorts [] [] [] []
  | applied {os ss fs ks} (d : String) :
    Sorts os ss fs ks → Sorts (.applied d :: os) (d :: ss) fs ks
  | failed {os ss fs ks} (d : String) (g : Stage) (e : Error) (w : Onward) :
    Sorts os ss fs ks → Sorts (.failed d g e w :: os) ss (⟨d, e.kind, e.message, e.detail⟩ :: fs) ks
  | skipped {os ss fs ks} (d : String) :
    Sorts os ss fs ks → Sorts (.skipped d :: os) ss fs (d :: ks)
  | quit {os ss fs ks} (d : String) : Sorts os ss fs ks → Sorts (.quit d :: os) ss fs ks

namespace Report

theorem sorts_ofOutcomes (os : List Outcome) (aborted : Option Nat) :
    Sorts os (ofOutcomes os aborted).successes (ofOutcomes os aborted).failures
      (ofOutcomes os aborted).skipped := by
  induction os with
  | nil => exact .nil
  | cons o os ih =>
    cases o with
    | applied d => exact .applied d ih
    | skipped d => exact .skipped d ih
    | quit d => exact .quit d ih
    | failed d g e w => exact .failed d g e w ih

theorem exitCode_eq_zero_iff (r : Report) :
    r.exitCode = 0 ↔ r.aborted.isSome = true ∨ r.failures = [] := by
  unfold exitCode
  cases r.aborted <;> simp

theorem failures_ofRun_eq_nil_iff (run : Run) :
    (ofRun run).failures = [] ↔ ∀ o ∈ run.outcomes, o.isFailed = false := by
  simp [ofRun, ofOutcomes, Outcome.failure?, Outcome.isFailed]

end Report

namespace Outcome

variable {o : Outcome}

theorem isFailed_of_isApplied (h : o.isApplied = true) : o.isFailed = false := by
  cases o with
  | applied => rfl
  | skipped | quit | failed => cases h

theorem isFailed_of_isSkipped (h : o.isSkipped = true) : o.isFailed = false := by
  cases o with
  | skipped => rfl
  | applied | quit | failed => cases h

theorem applied_or_skipped (hfailed : o.isFailed = false) (hnext : o.onward = .next) :
    o.isApplied = true ∨ o.isSkipped = true := by
  cases o with
  | applied => exact .inl rfl
  | skipped => exact .inr rfl
  | quit => cases hnext
  | failed => cases hfailed

end Outcome

def FailureMode.Yields (mode : FailureMode) (o : Outcome) : Prop :=
  mode ≠ .interactive → o.isApplied = true ∨ o.isFailed = true ∧ o.onward = mode.onward

inductive Tally (mode : FailureMode) : Nat → List Outcome → Option Nat → Prop
  | nil : Tally mode 0 [] none
  | stop {n : Nat} {o : Outcome} (hyields : mode.Yields o) (ho : o.onward = .quit) :
    Tally mode (n + 1) [o] (if mode = .interactive then some (n + 1) else none)
  | next {n : Nat} {o : Outcome} {os : List Outcome} {left? : Option Nat} (hyields : mode.Yields o)
    (ho : o.onward = .next) (h : Tally mode n os left?) : Tally mode (n + 1) (o :: os) left?

namespace Tally

variable {mode : FailureMode} {n : Nat} {o : Outcome} {os : List Outcome} {left? : Option Nat}

theorem length_le (h : Tally mode n os left?) : os.length ≤ n := by
  induction h with
  | nil => exact le_rfl
  | stop => simp
  | next _ _ _ ih => simpa using ih

theorem yields (h : Tally mode n os left?) : ∀ o ∈ os, mode.Yields o := by
  induction h with
  | nil => simp
  | stop hyields => simpa using hyields
  | next hyields _ _ ih => exact List.forall_mem_cons.2 ⟨hyields, ih⟩

theorem length_eq (h : Tally mode n os left?) (hnext : ∀ o ∈ os, o.onward = .next) :
    os.length = n := by
  induction h with
  | nil => rfl
  | stop _ ho =>
    rw [hnext _ (by simp)] at ho
    cases ho
  | next _ _ _ ih => simp [ih fun o ho => hnext o (List.mem_cons_of_mem _ ho)]

theorem onward_of_mem_dropLast (h : Tally mode n os left?) : ∀ o ∈ os.dropLast, o.onward = .next := by
  induction h with
  | nil => simp
  | stop => simp
  | @next _ o os _ _ ho _ ih =>
    cases os with
    | nil => simp
    | cons o' os =>
      rw [List.dropLast_cons_cons]
      exact List.forall_mem_cons.2 ⟨ho, ih⟩

theorem quit_iff (h : Tally mode n os left?) :
    (∃ o ∈ os.getLast?, o.onward = .quit) ↔ ∃ o ∈ os, o.onward = .quit := by
  constructor
  · rintro ⟨o, ho, hquit⟩
    exact ⟨o, List.mem_of_getLast? ho, hquit⟩
  · rintro ⟨o, ho, hquit⟩
    have hne : os ≠ [] := List.ne_nil_of_mem ho
    rw [← List.dropLast_append_getLast hne, List.mem_append, List.mem_singleton] at ho
    obtain ho | rfl := ho
    · rw [h.onward_of_mem_dropLast o ho] at hquit
      cases hquit
    · exact ⟨_, List.getLast?_eq_some_getLast hne, hquit⟩

theorem quit_of_length_lt (h : Tally mode n os left?) (hlt : os.length < n) :
    ∃ o ∈ os.getLast?, o.onward = .quit := by
  rw [h.quit_iff]
  by_contra hnone
  have hnext (o : Outcome) (ho : o ∈ os) : o.onward = .next := by
    cases hw : o.onward with
    | next => rfl
    | quit => exact absurd ⟨o, ho, hw⟩ hnone
  exact hlt.ne (h.length_eq hnext)

theorem eq_some_iff (h : Tally mode n os left?) (k : Nat) :
    left? = some k ↔ mode = .interactive ∧ (∃ o ∈ os.getLast?, o.onward = .quit) ∧
      k = n + 1 - os.length := by
  rw [h.quit_iff]
  induction h with
  | nil => simp
  | stop _ ho => simp [ho, eq_comm]
  | next _ ho _ ih => simp [ih, ho]

theorem keepGoing (h : Tally .keepGoing n os left?) : os.length = n := by
  refine h.length_eq fun o ho => ?_
  obtain happlied | ⟨-, hnext⟩ := h.yields o ho (by simp)
  · exact Runner.onward_of_isApplied happlied
  · exact hnext

theorem firstError (h : Tally .firstError n os left?) :
    (∀ o ∈ os.dropLast, o.isApplied = true) ∧
      (os.length < n → ∃ o ∈ os.getLast?, o.isFailed = true) := by
  constructor
  · intro o ho
    obtain happlied | ⟨-, hquit⟩ := h.yields o (List.dropLast_subset os ho) (by simp)
    · exact happlied
    · rw [h.onward_of_mem_dropLast o ho] at hquit
      cases hquit
  · intro hlt
    obtain ⟨o, ho, hquit⟩ := h.quit_of_length_lt hlt
    obtain happlied | ⟨hfailed, -⟩ := h.yields o (List.mem_of_getLast? ho) (by simp)
    · rw [Runner.onward_of_isApplied happlied] at hquit
      cases hquit
    · exact ⟨o, ho, hfailed⟩

variable {run : Run}

theorem isSome_iff (h : Tally mode n os left?) :
    left?.isSome = true ↔ mode = .interactive ∧ ∃ o ∈ os, o.onward = .quit := by
  rw [Option.isSome_iff_exists, ← h.quit_iff]
  simp [h.eq_some_iff]

theorem exitCode_of_ne (h : Tally mode n run.outcomes run.aborted) (hmode : mode ≠ .interactive) :
    (Report.ofRun run).exitCode = 0 ↔
      run.outcomes.length = n ∧ ∀ o ∈ run.outcomes, o.isApplied = true := by
  rw [Report.exitCode_eq_zero_iff, Report.failures_ofRun_eq_nil_iff,
    show (Report.ofRun run).aborted = run.aborted from rfl, h.isSome_iff]
  constructor
  · rintro (⟨hinteractive, -⟩ | hnone)
    · exact absurd hinteractive hmode
    · have happlied (o : Outcome) (ho : o ∈ run.outcomes) : o.isApplied = true := by
        obtain happlied | ⟨hfailed, -⟩ := h.yields o ho hmode
        · exact happlied
        · rw [hnone o ho] at hfailed
          cases hfailed
      exact ⟨h.length_eq fun o ho => Runner.onward_of_isApplied (happlied o ho), happlied⟩
  · rintro ⟨-, happlied⟩
    exact .inr fun o ho => Outcome.isFailed_of_isApplied (happlied o ho)

theorem exitCode_of_interactive (h : Tally .interactive n run.outcomes run.aborted) :
    (Report.ofRun run).exitCode = 0 ↔ (∃ o ∈ run.outcomes, o.onward = .quit) ∨
      ∀ o ∈ run.outcomes, o.isApplied = true ∨ o.isSkipped = true := by
  rw [Report.exitCode_eq_zero_iff, Report.failures_ofRun_eq_nil_iff,
    show (Report.ofRun run).aborted = run.aborted from rfl, h.isSome_iff]
  constructor
  · rintro (⟨-, hquit⟩ | hnone)
    · exact .inl hquit
    · refine or_iff_not_imp_left.2 fun hquit o ho => ?_
      refine Outcome.applied_or_skipped (hnone o ho) ?_
      cases hw : o.onward with
      | next => rfl
      | quit => exact absurd ⟨o, ho, hw⟩ hquit
  · rintro (hquit | hall)
    · exact .inl ⟨rfl, hquit⟩
    · refine .inr fun o ho => ?_
      obtain happlied | hskipped := hall o ho
      · exact Outcome.isFailed_of_isApplied happlied
      · exact Outcome.isFailed_of_isSkipped hskipped

end Tally

namespace Runner

open Session

variable {r : Runner} {x : Transformation} {xs : List Transformation} {s s' : Session}
  {t : FileTree} {b : Snapshot} {es : List Event} {o : Outcome} {run : Run} {y : Option Attempt}

def Belongs (r : Runner) (x : Transformation) : Outcome → Prop
  | .failed d .rejected e _ => d = x.label ∧ ∃ t b, x.changes r.analyzer t b = .error e
  | o => ∃ t b cs, x.changes r.analyzer t b = .ok cs ∧ o.description = cs.description

theorem Round.belongs (h : Round r x t b es (some (.done o))) : r.Belongs x o := by
  generalize hy : some (Attempt.done o) = y at h
  cases h with
  | rejected hchanges hreacts =>
    obtain ⟨w, rfl⟩ := hreacts.outcome hy.symm
    exact ⟨rfl, _, _, hchanges⟩
  | @withheld cs a? hchanges =>
    rcases a? with _ | _ | _ | _ <;> cases hy <;> exact ⟨_, _, cs, hchanges, rfl⟩
  | applied hchanges =>
    cases hy
    exact ⟨_, _, _, hchanges, rfl⟩
  | broken hchanges hreacts =>
    obtain ⟨w, rfl⟩ := hreacts.outcome hy.symm
    exact ⟨_, _, _, hchanges, rfl⟩

theorem belongs_of_step (h : r.step x s = .ok o s') : r.Belongs x o := by
  obtain ⟨-, s₁, es, -, -, -, -, hround⟩ := exists_round_of_step h
  exact hround.belongs

theorem yields_of_step (hcatching : r.mode ≠ .interactive → r.catching = true)
    (h : r.step x s = .ok o s') : r.mode.Yields o := by
  intro hmode
  have hr : r.inMode r.mode true = r := by
    rw [inMode, ← hcatching hmode]
  rw [← hr] at h
  obtain ⟨-, ⟨d, -, rfl, -⟩ | ⟨d, g, e, -, rfl, -⟩⟩ := step_unasked hmode h
  · exact .inl rfl
  · exact .inr ⟨rfl, rfl⟩

theorem tally_of_steps (hcatching : r.mode ≠ .interactive → r.catching = true)
    (h : r.steps xs s = .ok run s') : Tally r.mode xs.length run.outcomes run.aborted := by
  induction xs generalizing s run with
  | nil =>
    cases h
    exact .nil
  | cons x xs ih =>
    obtain ⟨o, s₁, s₂, hstep, -, ⟨ho, -, rfl⟩ | ⟨ho, rest, hrest, rfl⟩⟩ := exists_of_steps_cons h
    · exact .stop (yields_of_step hcatching hstep) ho
    · exact .next (yields_of_step hcatching hstep) ho (ih hrest)

theorem step_of_getElem? {i : Nat} (h : r.steps xs s = .ok run s') (ho : run.outcomes[i]? = some o) :
    ∃ x s₁ s₂, xs[i]? = some x ∧ r.steps (xs.take i) s = .ok ⟨run.outcomes.take i, none⟩ s₁ ∧
      r.step x s₁ = .ok o s₂ := by
  induction xs generalizing s run i with
  | nil =>
    cases h
    simp at ho
  | cons x xs ih =>
    obtain ⟨o', s₁, s₂, hstep, hrefresh, hcases⟩ := exists_of_steps_cons h
    cases i with
    | zero =>
      have hfirst : o' = o := by
        obtain ⟨-, -, rfl⟩ | ⟨-, rest, -, rfl⟩ := hcases <;> exact Option.some.inj ho
      exact ⟨x, s, s₁, rfl, rfl, hfirst ▸ hstep⟩
    | succ i =>
      obtain ⟨-, -, rfl⟩ | ⟨hnext, rest, hrest, rfl⟩ := hcases
      · simp at ho
      · obtain ⟨x', s₃, s₄, hx', htake, hstep'⟩ := ih hrest ho
        exact ⟨x', s₃, s₄, hx', steps_of_next hstep hrefresh hnext htake, hstep'⟩

theorem Round.quit_iff (h : Round r x t b es y) (hmode : r.mode = .interactive) :
    (∃ ev ∈ es, ev.IsQuit) ↔ ∃ o, y = some (.done o) ∧ o.onward = .quit := by
  obtain ⟨front, last, rfl, hends⟩ := h.ends
  rw [← hends.quit hmode]
  constructor
  · rintro ⟨ev, hev, hquit⟩
    obtain hev | hev := List.mem_append.1 hev
    · have hsettles := hends.front ev hev
      cases ev <;> simp_all [Event.IsQuit, Event.Settles]
    · exact List.mem_singleton.1 hev ▸ hquit
  · intro hquit
    exact ⟨last, by simp, hquit⟩

theorem quit_of_step (hmode : r.mode = .interactive) (h : r.step x s = .ok o s') :
    (∃ ev ∈ s'.journal, ev.IsQuit) ↔ (∃ ev ∈ s.journal, ev.IsQuit) ∨ o.onward = .quit := by
  fun_induction step r x s with
  | case1 | case3 => cases h
  | case2 s o' s₁ ha =>
    cases h
    obtain ⟨es, hpasses, hround⟩ := round_of_ok ha
    simp only [hpasses.journal, List.mem_append, or_and_right, exists_or, hround.quit_iff hmode]
    simp
  | case4 s s₁ ha b hb ih =>
    obtain ⟨es, hpasses, hround⟩ := round_of_ok ha
    rw [ih h]
    simp only [hpasses.journal, List.mem_append, or_and_right, exists_or, hround.quit_iff hmode]
    simp

theorem quit_of_steps (hmode : r.mode = .interactive) (h : r.steps xs s = .ok run s') :
    (∃ ev ∈ s'.journal, ev.IsQuit) ↔
      (∃ ev ∈ s.journal, ev.IsQuit) ∨ ∃ o ∈ run.outcomes, o.onward = .quit := by
  induction xs generalizing s run with
  | nil =>
    cases h
    simp
  | cons x xs ih =>
    obtain ⟨o, s₁, s₂, hstep, hrefresh, hcases⟩ := exists_of_steps_cons h
    have hquit := quit_of_step hmode hstep
    obtain ⟨-, -, hjournal, -⟩ := refresh_ok hrefresh
    obtain ⟨-, rfl, rfl⟩ | ⟨-, rest, hrest, rfl⟩ := hcases
    · rw [hjournal, hquit]
      simp
    · rw [ih hrest, hjournal, hquit]
      simp [or_assoc]

theorem run_accounts (r : Runner) (operator? : Option Operator) (t : FileTree) (a : Snapshot)
    (xs : List Transformation) (hcatching : r.catching = true)
    (hoperator : r.mode = .interactive → operator?.isSome = true)
    (hscan : ¬ScanFails (r.run operator? t a xs))
    (hanswered : ∀ ev ∈ (ending (r.run operator? t a xs)).journal, ¬ev.IsUnanswered) :
    ∃ run s', r.run operator? t a xs = .ok run s' ∧
      (∀ i o, run.outcomes[i]? = some o → ∃ x s₁ s₂, xs[i]? = some x ∧ r.Belongs x o ∧
        r.run operator? t a (xs.take i) = .ok ⟨run.outcomes.take i, none⟩ s₁ ∧
        r.step x s₁ = .ok o s₂) ∧
      run.outcomes.length ≤ xs.length ∧
      (r.mode = .keepGoing → run.outcomes.length = xs.length) ∧
      (r.mode = .firstError → (∀ o ∈ run.outcomes.dropLast, o.isApplied = true) ∧
        (run.outcomes.length < xs.length → ∃ o ∈ run.outcomes.getLast?, o.isFailed = true)) ∧
      (∀ k, run.aborted = some k ↔ r.mode = .interactive ∧
        (∃ o ∈ run.outcomes.getLast?, o.onward = .quit) ∧
        k = xs.length + 1 - run.outcomes.length) ∧
      (∀ k, run.aborted = some k → 1 ≤ k) ∧
      Sorts run.outcomes (Report.ofRun run).successes (Report.ofRun run).failures
        (Report.ofRun run).skipped ∧
      (r.mode ≠ .interactive → ((Report.ofRun run).exitCode = 0 ↔
        run.outcomes.length = xs.length ∧ ∀ o ∈ run.outcomes, o.isApplied = true)) ∧
      (r.mode = .interactive → ((Report.ofRun run).exitCode = 0 ↔
        (∃ ev ∈ s'.journal, ev.IsQuit) ∨
          ∀ o ∈ run.outcomes, o.isApplied = true ∨ o.isSkipped = true)) := by
  rw [run_eq hoperator] at hscan hanswered
  obtain ⟨run, s', hsteps⟩ := exists_ok_of_steps hcatching rfl hscan hanswered
  have htally := tally_of_steps (fun _ => hcatching) hsteps
  refine ⟨run, s', (run_eq hoperator t a xs).trans hsteps, fun i o ho => ?_, htally.length_le,
    fun hmode => ?_, fun hmode => ?_, htally.eq_some_iff, fun k hk => ?_,
    Report.sorts_ofOutcomes _ _, htally.exitCode_of_ne, fun hmode => ?_⟩
  · obtain ⟨x, s₁, s₂, hx, htake, hstep⟩ := step_of_getElem? hsteps ho
    exact ⟨x, s₁, s₂, hx, belongs_of_step hstep, (run_eq hoperator t a _).trans htake, hstep⟩
  · rw [hmode] at htally
    exact htally.keepGoing
  · rw [hmode] at htally
    exact htally.firstError
  · have hlength := htally.length_le
    have hk' := ((htally.eq_some_iff k).1 hk).2.2
    omega
  · rw [hmode] at htally
    rw [htally.exitCode_of_interactive, quit_of_steps hmode hsteps]
    simp [start]

end Runner

namespace Unmoved

open Runner Session

def quitter : Operator :=
  .scripted [.skip, .apply] [.quit]

def quitRun : Run :=
  ⟨[.skipped "Move", .failed "Move" .fatal failure .quit], some 2⟩

def quitJournal : List Event :=
  back ++ front ++ [.writing changes tree, .reported "Move" failure (some .quit)]

theorem run_quitter : (runner .interactive).run (some quitter) tree snapshot [move, move, move] =
    .ok quitRun ⟨tree, snapshot, .scripted [] [], quitJournal⟩ := by
  have hfirst : (runner .interactive).attempt move ⟨tree, snapshot, quitter, []⟩ =
      .ok (.done (.skipped "Move")) ⟨tree, snapshot, .scripted [.apply] [.quit], back⟩ := rfl
  have hsecond : (runner .interactive).attempt move
        ⟨tree, snapshot, .scripted [.apply] [.quit], back⟩ =
      .ok (.done (.failed "Move" .fatal failure .quit))
        ⟨tree, snapshot, .scripted [] [], quitJournal⟩ := rfl
  exact steps_of_next (step_of_done hfirst) (refresh_tree rfl rfl) rfl
    (steps_of_quit (step_of_done hsecond) (refresh_tree rfl rfl) rfl)

theorem run_accounts_quitter :
    ¬ScanFails ((runner .interactive).run (some quitter) tree snapshot [move, move, move]) ∧
      (∀ ev ∈ (ending ((runner .interactive).run (some quitter) tree snapshot
        [move, move, move])).journal, ¬ev.IsUnanswered) ∧
      (∃ x s₁ s₂, [move, move, move][1]? = some x ∧
        (runner .interactive).run (some quitter) tree snapshot [move] =
          .ok ⟨[.skipped "Move"], none⟩ s₁ ∧
        (runner .interactive).step x s₁ = .ok (.failed "Move" .fatal failure .quit) s₂) ∧
      (∃ o ∈ quitRun.outcomes.getLast?, o.onward = .quit) ∧ 2 = 3 + 1 - quitRun.outcomes.length ∧
      (Report.ofRun quitRun).exitCode = 0 := by
  have hscan : ¬ScanFails ((runner .interactive).run (some quitter) tree snapshot
      [move, move, move]) := by
    rintro ⟨e, s, herror, -⟩
    cases run_quitter.symm.trans herror
  have hanswered : ∀ ev ∈ (ending ((runner .interactive).run (some quitter) tree snapshot
      [move, move, move])).journal, ¬ev.IsUnanswered := by
    rw [run_quitter]
    change ∀ ev ∈ quitJournal, ¬ev.IsUnanswered
    simp [quitJournal, back, front, Event.IsUnanswered]
  obtain ⟨run, s', hrun, hstep, -, -, -, haborted, -, -, -, hexit⟩ :=
    run_accounts (runner .interactive) (some quitter) tree snapshot [move, move, move] rfl
      (fun _ => rfl) hscan hanswered
  cases run_quitter.symm.trans hrun
  obtain ⟨x, s₁, s₂, hx, -, htake, hlast⟩ := hstep 1 _ rfl
  obtain ⟨-, hquit, hleft⟩ := (haborted 2).1 rfl
  refine ⟨hscan, hanswered, ⟨x, s₁, s₂, hx, htake, hlast⟩, hquit, hleft, (hexit rfl).2 (.inl ?_)⟩
  exact ⟨.reported "Move" failure (some .quit), by simp [quitJournal], rfl⟩

end Unmoved

end Reroot

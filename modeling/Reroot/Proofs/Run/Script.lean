import Reroot.Proofs.Run.Accounting

namespace Reroot

namespace Event

def planned? : Event → Option Transformation
  | planning x .. => some x
  | _ => none

def decision? : Event → Option Decision
  | offered _ a? => a?
  | _ => none

def errorDecision? : Event → Option ErrorDecision
  | reported _ _ a? => a?
  | _ => none

theorem planned?_eq_none {ev : Event} (h : ¬ev.IsPlanning) : ev.planned? = none := by
  cases ev with
  | planning => exact absurd trivial h
  | offered | writing | reported | detailed => rfl

theorem isQuit_of_decision? {ev : Event} (h : ev.decision? = some .quit) : ev.IsQuit := by
  cases ev with
  | offered => exact h
  | planning | writing | reported | detailed => cases h

theorem isQuit_of_errorDecision? {ev : Event} (h : ev.errorDecision? = some .quit) : ev.IsQuit := by
  cases ev with
  | reported => exact h
  | planning | offered | writing | detailed => cases h

end Event

section Spends

variable {α : Type} {quit a : α} {script answers left : List α}

def Spends (quit : α) (script answers left : List α) : Prop :=
  answers ++ left = script ∨ left = [] ∧ ∃ n, answers = script ++ List.replicate n quit

theorem Spends.next (h : Spends quit script answers left) :
    Spends quit script (answers ++ [left.headD quit]) left.tail := by
  obtain h | ⟨rfl, n, rfl⟩ := h
  · cases left with
    | nil => exact .inr ⟨rfl, 1, by simpa using h⟩
    | cons a left => exact .inl (by simpa using h)
  · refine .inr ⟨rfl, n + 1, ?_⟩
    rw [List.headD_nil, List.replicate_succ', List.append_assoc]

def PlaysOut (quit : α) (script answers left : List α) : Prop :=
  answers ++ left = script ∨ left = [] ∧ answers = script ++ [quit]

theorem Spends.playsOut (h : Spends quit script answers left) (hquit : quit ∉ answers.dropLast) :
    PlaysOut quit script answers left := by
  obtain h | ⟨rfl, n, rfl⟩ := h
  · exact .inl h
  · cases n with
    | zero => exact .inl (by simp)
    | succ n =>
      rw [List.replicate_succ', ← List.append_assoc, List.dropLast_concat] at hquit
      cases n with
      | zero => exact .inr ⟨rfl, rfl⟩
      | succ n => simp at hquit

theorem PlaysOut.count_le [DecidableEq α] (h : PlaysOut quit script answers left) (ha : a ≠ quit) :
    answers.count a ≤ script.count a := by
  obtain rfl | ⟨-, rfl⟩ := h
  · simp
  · simp [ha.symm]

theorem PlaysOut.eq_quit {rest : List α} (h : PlaysOut quit script answers left)
    (heq : answers = script ++ a :: rest) : a = quit := by
  subst heq
  obtain h | ⟨-, h⟩ := h
  · simp at h
  · exact (List.cons.inj (List.append_cancel_left h)).1

end Spends

namespace Session

variable {s s' : Session} {ev : Event} {evs : List Event} {ds : List Decision}
  {es : List ErrorDecision}

structure OnScript (ds : List Decision) (es : List ErrorDecision) (s : Session) : Prop where
  atEnd : s.operator.atEnd = none
  decisions : Spends .quit ds (s.journal.filterMap Event.decision?) s.operator.decisions
  errorDecisions :
    Spends .quit es (s.journal.filterMap Event.errorDecision?) s.operator.errorDecisions
  answered : ∀ ev ∈ s.journal, ¬ev.IsUnanswered

theorem OnScript.decision (h : OnScript ds es s) :
    s.operator.decision = .ok (s.operator.decisions.headD .quit) := by
  unfold Operator.decision
  rw [h.atEnd]
  cases s.operator.decisions <;> rfl

theorem OnScript.errorDecision (h : OnScript ds es s) :
    s.operator.errorDecision = .ok (s.operator.errorDecisions.headD .quit) := by
  unfold Operator.errorDecision
  rw [h.atEnd]
  cases s.operator.errorDecisions <;> rfl

theorem OnScript.step (h : OnScript ds es s) (hdoes : Does s ev s') : OnScript ds es s' := by
  have answered {ev : Event} (hev : ¬ev.IsUnanswered) : ∀ ev' ∈ s.journal ++ [ev], ¬ev'.IsUnanswered :=
    List.forall_mem_append.2 ⟨h.answered, by simpa using hev⟩
  cases hdoes with
  | planning | writing | detailed =>
    refine ⟨h.atEnd, ?_, ?_, answered id⟩
    · simpa [note, Event.decision?, List.filterMap_cons] using h.decisions
    · simpa [note, Event.errorDecision?, List.filterMap_cons] using h.errorDecisions
  | offered cs =>
    rw [ending_confirm, h.decision]
    refine ⟨h.atEnd, ?_, ?_, answered (by simp [Event.IsUnanswered, Except.toOption])⟩
    · rw [List.filterMap_append]
      exact h.decisions.next
    · simpa [Operator.afterDecision, Event.errorDecision?, List.filterMap_cons] using h.errorDecisions
  | reported d e =>
    rw [ending_askOnce, h.errorDecision]
    refine ⟨h.atEnd, ?_, ?_, answered (by simp [Event.IsUnanswered, Except.toOption])⟩
    · simpa [Operator.afterErrorDecision, Event.decision?, List.filterMap_cons] using h.decisions
    · rw [List.filterMap_append]
      exact h.errorDecisions.next

theorem OnScript.passes (h : OnScript ds es s) (hpasses : Passes s evs s') : OnScript ds es s' := by
  induction hpasses with
  | nil => exact h
  | cons hdoes _ ih => exact ih (h.step hdoes)

end Session

namespace Runner

open Session

variable {r : Runner} {x : Transformation} {xs : List Transformation} {s s' : Session}
  {t : FileTree} {b : Snapshot} {ds : List Decision} {es : List ErrorDecision} {evs : List Event}
  {o : Outcome} {run : Run} {y : Option Attempt} {d : String} {e : Error} {g : Stage}

inductive TriesUntil (r : Runner) (x : Transformation) :
    Session → EStateM.Result Error Session Outcome → Prop
  | error {s s' : Session} {e : Error} (h : r.attempt x s = .error e s') :
    TriesUntil r x s (.error e s')
  | done {s s' : Session} {o : Outcome} (h : r.attempt x s = .ok (.done o) s') :
    TriesUntil r x s (.ok o s')
  | unscanned {s s' : Session} {e : Error} (h : r.attempt x s = .ok .again s')
    (hscan : s'.snapshot.refresh s'.tree = .error e) : TriesUntil r x s (.error e s')
  | again {s s' : Session} {b : Snapshot} {y : EStateM.Result Error Session Outcome}
    (h : r.attempt x s = .ok .again s') (hscan : s'.snapshot.refresh s'.tree = .ok b)
    (h' : TriesUntil r x { s' with snapshot := b } y) : TriesUntil r x s y

theorem triesUntil_step (r : Runner) (x : Transformation) (s : Session) :
    TriesUntil r x s (r.step x s) := by
  fun_induction step r x s with
  | case1 s e s' ha => exact .error ha
  | case2 s o s' ha => exact .done ha
  | case3 s s' ha e he => exact .unscanned ha he
  | case4 s s' ha b hb ih => exact .again ha hb ih

theorem onScript_of_steps (xs : List Transformation) (h : OnScript ds es s) :
    OnScript ds es (ending (r.steps xs s)) :=
  ending_steps (fun _ h => h) (fun _ _ h _ => ⟨h.atEnd, h.decisions, h.errorDecisions, h.answered⟩)
    (fun x _ s h => by
      obtain ⟨evs, hpasses, -⟩ := r.round_of_attempt x s
      exact h.passes hpasses) h

theorem Questions.length_eq {a? : Option ErrorDecision} (h : Questions d e evs a?) :
    evs.length = 2 * (evs.filterMap Event.errorDecision?).count .verbose + 1 := by
  induction h with
  | answer a? h =>
    rcases a? with _ | _ | _ | _ | _ <;> simp_all [Event.errorDecision?, List.filterMap_cons]
  | verbose _ ih =>
    simp only [Event.errorDecision?, List.filterMap_cons, List.length_cons, List.count_cons_self, ih]
    omega

theorem Reacts.length_le (h : Reacts r d g e evs y) :
    evs.length ≤ 2 * (evs.filterMap Event.errorDecision?).count .verbose + 1 := by
  cases h with
  | uncaught | firstError | keepGoing => simp
  | interactive _ _ hquestions => exact (Questions.length_eq hquestions).le

theorem Round.length_le (h : Round r x t b evs y) :
    evs.length ≤ 4 + 2 * (evs.filterMap Event.errorDecision?).count .verbose := by
  have hconsent (cs : ChangeSet) : (r.consent cs).length ≤ 1 ∧
      (r.consent cs).filterMap Event.errorDecision? = [] := by
    unfold consent
    split <;> simp [Event.errorDecision?]
  cases h with
  | rejected _ hreacts =>
    have := hreacts.length_le
    simp only [List.length_cons, List.filterMap_cons, Event.errorDecision?]
    omega
  | withheld =>
    simp only [List.length_cons, List.length_nil]
    omega
  | @applied cs =>
    have := (hconsent cs).1
    simp only [List.length_cons, List.length_append, List.length_nil]
    omega
  | @broken cs _ _ _ _ _ hreacts =>
    have := hreacts.length_le
    have := (hconsent cs).1
    simp only [List.length_cons, List.length_append, List.filterMap_cons, List.filterMap_append,
      Event.errorDecision?, (hconsent cs).2, List.nil_append]
    omega

theorem Round.planned (h : Round r x t b evs y) : evs.filterMap Event.planned? = [x] := by
  obtain ⟨rest, rfl, hrest⟩ := h.begins
  have hnone : rest.filterMap Event.planned? = [] :=
    List.filterMap_eq_nil_iff.2 fun ev hev => Event.planned?_eq_none (hrest ev hev)
  simp [Event.planned?, hnone]

theorem Round.retry_mem (h : Round r x t b evs (some .again)) :
    .retry ∈ evs.filterMap Event.errorDecision? := by
  obtain ⟨front, last, rfl, hends⟩ := h.ends
  have hretry := hends.retry.2 rfl
  cases last with
  | planning | offered | writing | detailed => exact hretry.elim
  | reported d e a? =>
    obtain rfl : a? = some .retry := hretry
    simp [Event.errorDecision?]

theorem Chronicle.length_planned (h : Chronicle r xs evs) :
    (evs.filterMap Event.planned?).length ≤
      xs.length + (evs.filterMap Event.errorDecision?).count .retry := by
  induction h with
  | nil => simp
  | stop hround => simp [hround.planned]; omega
  | again hround _ ih =>
    have := List.count_pos_iff.2 hround.retry_mem
    simp only [List.filterMap_append, List.length_append, List.count_append, hround.planned,
      List.length_singleton]
    omega
  | next hround _ ih =>
    simp only [List.filterMap_append, List.length_append, List.count_append, hround.planned,
      List.length_cons, List.length_nil]
    omega

theorem Chronicle.length_le (h : Chronicle r xs evs) :
    evs.length ≤ 4 * (evs.filterMap Event.planned?).length +
      2 * (evs.filterMap Event.errorDecision?).count .verbose := by
  induction h with
  | nil => simp
  | stop hround => simpa [hround.planned] using hround.length_le
  | again hround _ ih | next hround _ ih =>
    have := hround.length_le
    simp only [List.filterMap_append, List.length_append, List.count_append, hround.planned,
      List.length_singleton]
    omega

def QuitsLast (evs : List Event) : Prop :=
  ∀ ev ∈ evs.dropLast, ¬ev.IsQuit

theorem QuitsLast.eq_nil {before after : List Event} {ev : Event} (h : QuitsLast (before ++ ev :: after))
    (hev : ev.IsQuit) : after = [] := by
  by_contra hne
  rw [QuitsLast, List.dropLast_append_of_ne_nil (by simp), List.dropLast_cons_of_ne_nil hne] at h
  exact h ev (by simp) hev

theorem QuitsLast.not_mem {α : Type} {quit : α} {f : Event → Option α} (h : QuitsLast evs)
    (hf : ∀ ev, f ev = some quit → ev.IsQuit) : quit ∉ (evs.filterMap f).dropLast := by
  have hfront : quit ∉ evs.dropLast.filterMap f := by
    rw [List.mem_filterMap]
    rintro ⟨ev, hev, hquit⟩
    exact h ev hev (hf ev hquit)
  obtain rfl | ⟨front, last, rfl⟩ := List.eq_nil_or_concat' evs
  · simp
  · rw [List.dropLast_concat] at hfront
    rw [List.filterMap_append, List.filterMap_cons]
    split
    · rw [List.filterMap_nil, List.append_nil]
      exact fun hmem => hfront (List.dropLast_subset _ hmem)
    · rwa [List.filterMap_nil, List.dropLast_concat]

theorem quitsLast_of_round (hs : ∀ ev ∈ s.journal, ¬ev.IsQuit) (hpasses : Passes s evs s')
    (h : Round r x t b evs y) : QuitsLast s'.journal := by
  obtain ⟨front, last, rfl, hends⟩ := h.ends
  rw [QuitsLast, hpasses.journal, ← List.append_assoc, List.dropLast_concat]
  refine List.forall_mem_append.2 ⟨hs, fun ev hev hquit => ?_⟩
  have hsettles := hends.front ev hev
  cases ev <;> simp_all [Event.IsQuit, Event.Settles]

theorem quitsLast_of_step (hmode : r.mode = .interactive) (x : Transformation)
    (hs : ∀ ev ∈ s.journal, ¬ev.IsQuit) : QuitsLast (ending (r.step x s)).journal := by
  fun_induction step r x s with
  | case1 s e s₁ ha =>
    obtain ⟨evs, hpasses, hround⟩ := round_of_error ha
    exact quitsLast_of_round hs hpasses hround
  | case2 s o s₁ ha | case3 s s₁ ha e =>
    obtain ⟨evs, hpasses, hround⟩ := round_of_ok ha
    exact quitsLast_of_round hs hpasses hround
  | case4 s s₁ ha b hb ih =>
    obtain ⟨evs, hpasses, hround⟩ := round_of_ok ha
    refine ih fun ev hev hquit => ?_
    rw [hpasses.journal] at hev
    obtain hev | hev := List.mem_append.1 hev
    · exact hs ev hev hquit
    · simpa using (hround.quit_iff hmode).1 ⟨ev, hev, hquit⟩

theorem quitsLast_of_steps (hmode : r.mode = .interactive) (xs : List Transformation)
    (hs : ∀ ev ∈ s.journal, ¬ev.IsQuit) : QuitsLast (ending (r.steps xs s)).journal := by
  induction xs generalizing s with
  | nil => exact fun ev hev => hs ev (List.dropLast_subset _ hev)
  | cons x xs ih =>
    have hlast := quitsLast_of_step hmode x hs
    rw [steps]
    cases hstep : r.step x s with
    | error e s₁ =>
      rw [hstep] at hlast
      exact hlast
    | ok o s₁ =>
      rw [hstep] at hlast
      dsimp only
      cases hrefresh : Session.refresh s₁ with
      | error e s₂ =>
        obtain rfl : s₂ = s₁ := refresh_error hrefresh
        exact hlast
      | ok u s₂ =>
        obtain ⟨-, -, hjournal, -⟩ := refresh_ok hrefresh
        dsimp only
        split
        · exact hjournal ▸ hlast
        · next ho =>
          have hnone : ∀ ev ∈ s₂.journal, ¬ev.IsQuit := by
            rw [hjournal]
            intro ev hev hquit
            obtain ⟨ev', hev', hquit'⟩ | ho' := (quit_of_step hmode hstep).1 ⟨ev, hev, hquit⟩
            · exact hs ev' hev' hquit'
            · rw [ho] at ho'
              cases ho'
          have hrest := ih hnone
          cases hsteps : r.steps xs s₂ with
          | error e s₃ | ok run s₃ =>
            rw [hsteps] at hrest
            exact hrest

def Exhausts (ds : List Decision) (es : List ErrorDecision) (before : List Event) : Event → Prop
  | .offered .. => before.filterMap Event.decision? = ds
  | .reported .. => before.filterMap Event.errorDecision? = es
  | _ => False

theorem Exhausts.isQuit {before after : List Event} {ev : Event} {left : List Decision}
    {left' : List ErrorDecision} (h : Exhausts ds es before ev) (hev : ¬ev.IsUnanswered)
    (hds : PlaysOut .quit ds ((before ++ ev :: after).filterMap Event.decision?) left)
    (hes : PlaysOut .quit es ((before ++ ev :: after).filterMap Event.errorDecision?) left') :
    ev.IsQuit := by
  cases ev with
  | planning | writing | detailed => exact h.elim
  | offered cs a? =>
    cases a? with
    | none => exact absurd rfl hev
    | some a =>
      have h : before.filterMap Event.decision? = ds := h
      rw [List.filterMap_append, h] at hds
      exact congrArg some (hds.eq_quit rfl)
  | reported d e a? =>
    cases a? with
    | none => exact absurd rfl hev
    | some a =>
      have h : before.filterMap Event.errorDecision? = es := h
      rw [List.filterMap_append, h] at hes
      exact congrArg some (hes.eq_quit rfl)

theorem scripted_run_ends (r : Runner) (hmode : r.mode = .interactive) (t : FileTree) (a : Snapshot)
    (xs : List Transformation) (ds : List Decision) (es : List ErrorDecision)
    {y : EStateM.Result Error Session Run} (hy : r.run (some (.scripted ds es)) t a xs = y) :
    (∀ d e s, AsksUntil d e s (settle d e s)) ∧ (∀ x s, TriesUntil r x s (r.step x s)) ∧
    ((ending y).journal.filterMap Event.planned?).length ≤ xs.length + es.count .retry ∧
    (ending y).journal.length ≤ 4 * (xs.length + es.count .retry) + 2 * es.count .verbose ∧
    PlaysOut .quit ds ((ending y).journal.filterMap Event.decision?) (ending y).operator.decisions ∧
    PlaysOut .quit es ((ending y).journal.filterMap Event.errorDecision?)
      (ending y).operator.errorDecisions ∧
    ∀ before ev after, (ending y).journal = before ++ ev :: after → Exhausts ds es before ev →
      ev.IsQuit ∧ after = [] ∧ ∀ run s', y = .ok run s' → run.aborted.isSome = true := by
  rw [run_eq fun _ => rfl] at hy
  subst hy
  obtain ⟨evs, hjournal, hchronicle⟩ := r.chronicle_of_steps xs (start (some (.scripted ds es)) t a)
  have hstart : OnScript ds es (start (some (.scripted ds es)) t a) :=
    ⟨rfl, .inl rfl, .inl rfl, by simp [start]⟩
  have hscript := onScript_of_steps (r := r) xs hstart
  have hlast := quitsLast_of_steps (s := start (some (.scripted ds es)) t a) hmode xs (by simp [start])
  have hds := hscript.decisions.playsOut (hlast.not_mem fun _ => Event.isQuit_of_decision?)
  have hes := hscript.errorDecisions.playsOut (hlast.not_mem fun _ => Event.isQuit_of_errorDecision?)
  obtain rfl : (ending (r.steps xs (start (some (.scripted ds es)) t a))).journal = evs := hjournal
  have hplanned := hchronicle.length_planned
  have hlength := hchronicle.length_le
  have hretry := hes.count_le (a := .retry) (by simp)
  have hverbose := hes.count_le (a := .verbose) (by simp)
  refine ⟨asksUntil_settle, r.triesUntil_step, by omega, by omega, hds, hes, ?_⟩
  intro before ev after heq hexhausts
  have hquit : ev.IsQuit := by
    rw [heq] at hds hes
    exact hexhausts.isQuit (hscript.answered ev (by simp [heq])) hds hes
  refine ⟨hquit, (heq ▸ hlast).eq_nil hquit, fun run s' hrun => ?_⟩
  rw [hrun] at heq
  have hanswered : ∃ ev ∈ s'.journal, ev.IsQuit := ⟨ev, by simp [show s'.journal = _ from heq], hquit⟩
  obtain ⟨ev', hev', -⟩ | houtcome := (quit_of_steps hmode hrun).1 hanswered
  · cases hev'
  · exact (tally_of_steps (fun hne => absurd hmode hne) hrun).isSome_iff.2 ⟨hmode, houtcome⟩

end Runner

namespace Unmoved

open Runner Session

def terse : Operator :=
  .scripted [.apply] [.retry]

def terseFront : List Event :=
  front ++ [.writing changes tree, .reported "Move" failure (some .retry), .planning move tree snapshot]

def terseJournal : List Event :=
  terseFront ++ [.offered changes (some .quit)]

theorem run_terse : (runner .interactive).run (some terse) tree snapshot [move, move] =
    .ok ⟨[.quit "Move"], some 2⟩ ⟨tree, snapshot, .scripted [] [], terseJournal⟩ := by
  have hfirst : (runner .interactive).attempt move ⟨tree, snapshot, terse, []⟩ =
      .ok .again ⟨tree, snapshot, .scripted [] [],
        front ++ [.writing changes tree, .reported "Move" failure (some .retry)]⟩ := rfl
  have hsecond : (runner .interactive).attempt move ⟨tree, snapshot, .scripted [] [],
        front ++ [.writing changes tree, .reported "Move" failure (some .retry)]⟩ =
      .ok (.done (.quit "Move")) ⟨tree, snapshot, .scripted [] [], terseJournal⟩ := rfl
  exact steps_of_quit ((step_of_again hfirst rfl).trans (step_of_done hsecond)) (refresh_tree rfl rfl) rfl

theorem scripted_run_ends_terse :
    (terseJournal.filterMap Event.planned?).length ≤ [move, move].length + [ErrorDecision.retry].count .retry ∧
      PlaysOut .quit [.apply] (terseJournal.filterMap Event.decision?) [] ∧
      PlaysOut .quit [.retry] (terseJournal.filterMap Event.errorDecision?) [] ∧
      (Event.offered changes (some .quit)).IsQuit := by
  obtain ⟨-, -, hplanned, -, hds, hes, hlast⟩ :=
    scripted_run_ends (runner .interactive) rfl tree snapshot [move, move] [.apply] [.retry] run_terse
  exact ⟨hplanned, hds, hes, (hlast terseFront (.offered changes (some .quit)) [] rfl rfl).1⟩

end Unmoved

end Reroot

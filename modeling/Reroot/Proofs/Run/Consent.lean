import Reroot.Proofs.Run.Journal

namespace Reroot

theorem exists_of_append_eq {α : Type} {xs ys before after : List α} {z : α}
    (h : xs ++ ys = before ++ z :: after) :
    (∃ rest, xs = before ++ z :: rest ∧ after = rest ++ ys) ∨
      ∃ rest, ys = rest ++ z :: after ∧ before = xs ++ rest := by
  obtain ⟨rest, hbefore, hys⟩ | ⟨rest, hxs, hafter⟩ := List.append_eq_append_iff.1 h
  · exact .inr ⟨rest, hys, hbefore⟩
  · cases rest with
    | nil => exact .inr ⟨[], hafter.symm, by simp [hxs]⟩
    | cons w rest =>
      obtain ⟨rfl, rfl⟩ := List.cons.inj hafter
      exact .inl ⟨rest, hxs, rfl⟩

def Outcome.IsWithheld : Outcome → Prop
  | skipped _ | quit _ | failed _ .rejected _ _ => True
  | _ => False

namespace Session

variable {s s' : Session} {es : List Event}

theorem Does.decisions {ev : Event} (h : Does s ev s') :
    s'.operator.decisions ⊆ s.operator.decisions := by
  cases h with
  | planning | writing | detailed => exact List.Subset.refl _
  | offered =>
    rw [ending_confirm]
    exact fun _ => List.mem_of_mem_tail
  | reported =>
    rw [ending_askOnce]
    exact List.Subset.refl _

theorem Does.apply_mem {cs : ChangeSet} (h : Does s (.offered cs (some .apply)) s') :
    .apply ∈ s.operator.decisions := by
  generalize hev : Event.offered cs (some .apply) = ev at h
  cases h with
  | planning | writing | reported | detailed => cases hev
  | offered cs' =>
    injection hev with _ hanswer
    unfold Operator.decision at hanswer
    split at hanswer
    · next d ds _ hds =>
      cases hanswer
      simp [hds]
    · cases hanswer
    · cases hanswer

theorem Passes.decisions (h : Passes s es s') : s'.operator.decisions ⊆ s.operator.decisions := by
  induction h with
  | nil => exact List.Subset.refl _
  | cons hdoes _ ih => exact List.Subset.trans ih hdoes.decisions

theorem Passes.apply_mem {cs : ChangeSet} (h : Passes s es s')
    (hev : .offered cs (some .apply) ∈ es) : .apply ∈ s.operator.decisions := by
  induction h with
  | nil => cases hev
  | cons hdoes _ ih =>
    obtain rfl | hev := List.mem_cons.1 hev
    · exact hdoes.apply_mem
    · exact hdoes.decisions (ih hev)

end Session

namespace Runner

open Session

variable {r : Runner} {x : Transformation} {xs : List Transformation} {s s' : Session}
  {t t' : FileTree} {a b : Snapshot} {cs : ChangeSet} {es before after : List Event} {o : Outcome}
  {y : Option Attempt}

theorem Chronicle.begins (h : Chronicle r (x :: xs) es) :
    ∃ t b rest, es = .planning x t b :: rest := by
  cases h with
  | stop hround =>
    obtain ⟨rest, rfl, -⟩ := hround.begins
    exact ⟨_, _, rest, rfl⟩
  | again hround | next hround =>
    obtain ⟨rest, rfl, -⟩ := hround.begins
    exact ⟨_, _, _, rfl⟩

def Agreed (r : Runner) (xs : List Transformation) (cs : ChangeSet) (before : List Event) : Prop :=
  ∃ earlier x t b, x ∈ xs ∧ before = earlier ++ .planning x t b :: r.consent cs ∧
    x.changes r.analyzer t b = .ok cs

theorem Agreed.mono {ys : List Transformation} (h : Agreed r xs cs before) (hsub : xs ⊆ ys)
    (es : List Event) : Agreed r ys cs (es ++ before) := by
  obtain ⟨earlier, x, t, b, hx, rfl, hchanges⟩ := h
  exact ⟨es ++ earlier, x, t, b, hsub hx, by simp, hchanges⟩

theorem Round.agreed (h : Round r x t b es y) (heq : es = before ++ .writing cs t' :: after) :
    Agreed r (x :: xs) cs before := by
  obtain ⟨rfl, hchanges⟩ := h.writing heq
  exact ⟨[], x, t, b, by simp, rfl, hchanges⟩

theorem Chronicle.agreed (h : Chronicle r xs es) (heq : es = before ++ .writing cs t' :: after) :
    Agreed r xs cs before := by
  induction h generalizing before after with
  | nil => simp at heq
  | stop hround => exact hround.agreed heq
  | again hround _ ih =>
    obtain ⟨rest, hes, -⟩ | ⟨rest, hes, rfl⟩ := exists_of_append_eq heq
    · exact hround.agreed hes
    · exact (ih hes).mono (List.Subset.refl _) _
  | next hround _ ih =>
    obtain ⟨rest, hes, -⟩ | ⟨rest, hes, rfl⟩ := exists_of_append_eq heq
    · exact hround.agreed hes
    · exact (ih hes).mono (List.subset_cons_self _ _) _

def Replanned (before after : List Event) : Prop :=
  ∃ x earlier t b mid t' b' rest, before = earlier ++ .planning x t b :: mid ∧
    (∀ ev ∈ mid, ¬ev.IsPlanning) ∧ after = .planning x t' b' :: rest

theorem Replanned.append (h : Replanned before after) (es : List Event) :
    Replanned (es ++ before) after := by
  obtain ⟨x, earlier, t, b, mid, t', b', rest, rfl, hmid, rfl⟩ := h
  exact ⟨x, es ++ earlier, t, b, mid, t', b', rest, by simp, hmid, rfl⟩

theorem Round.retry {ev : Event} (h : Round r x t b es y) (heq : es = before ++ ev :: after)
    (hev : ev.IsRetry) :
    after = [] ∧ y = some .again ∧ ∃ mid, before = .planning x t b :: mid ∧
      ∀ ev ∈ mid, ¬ev.IsPlanning := by
  obtain ⟨front, last, rfl, hends⟩ := h.ends
  have hnot : ev ∉ front := fun hmem => by
    have hsettles := hends.front ev hmem
    cases ev <;> simp_all [Event.IsRetry, Event.Settles]
  obtain ⟨rfl, rfl, rfl⟩ := (List.append_cons_inj_of_notMem hnot List.not_mem_nil).1 heq
  refine ⟨rfl, hends.retry.1 hev, ?_⟩
  obtain ⟨rest, hbegins, hrest⟩ := h.begins
  cases front with
  | nil =>
    obtain ⟨rfl, -⟩ := List.cons.inj hbegins
    cases hev
  | cons first mid =>
    obtain ⟨rfl, rfl⟩ := List.cons.inj hbegins
    exact ⟨mid, rfl, fun ev hmem => hrest ev (List.mem_append_left _ hmem)⟩

theorem Chronicle.replanned {ev : Event} (h : Chronicle r xs es) (heq : es = before ++ ev :: after)
    (hev : ev.IsRetry) : after = [] ∨ Replanned before after := by
  induction h generalizing before after with
  | nil => simp at heq
  | stop hround => exact .inl (hround.retry heq hev).1
  | again hround hchronicle ih =>
    obtain ⟨rest, hes, rfl⟩ | ⟨rest, hes, rfl⟩ := exists_of_append_eq heq
    · obtain ⟨rfl, -, mid, rfl, hmid⟩ := hround.retry hes hev
      obtain ⟨t', b', later, rfl⟩ := hchronicle.begins
      exact .inr ⟨_, [], _, _, mid, t', b', later, rfl, hmid, rfl⟩
    · exact (ih hes).imp_right fun h => h.append _
  | next hround _ ih =>
    obtain ⟨rest, hes, rfl⟩ | ⟨rest, hes, rfl⟩ := exists_of_append_eq heq
    · cases (hround.retry hes hev).2.1
    · exact (ih hes).imp_right fun h => h.append _

theorem replanned_of_steps {ev : Event} (hs : s.journal = [])
    (h : (ending (r.steps xs s)).journal = before ++ ev :: after) (hev : ev.IsRetry) :
    Replanned before after ∨ after = [] ∧ ∃ e s', r.steps xs s = .error e s' ∧
      s'.snapshot.refresh s'.tree = .error e := by
  obtain ⟨es, hjournal, hchronicle⟩ := r.chronicle_of_steps xs s
  rw [hs, List.nil_append, h] at hjournal
  obtain rfl | hreplanned := hchronicle.replanned hjournal.symm hev
  · refine .inr ⟨rfl, ?_⟩
    have hhalts := r.halts_steps (s := s) xs (by simp [hs])
    have hlast : (ending (r.steps xs s)).journal.getLast? = some ev := by simp [h]
    cases hsteps : r.steps xs s with
    | ok run s' =>
      rw [hsteps] at hhalts hlast
      exact absurd hev (hhalts ev hlast)
    | error e s' =>
      rw [hsteps] at hhalts hlast
      obtain hscan | ⟨ev', hev', hnot, -⟩ := hhalts
      · exact ⟨e, s', rfl, hscan⟩
      · obtain rfl : ev' = ev := Option.some.inj (hev'.symm.trans hlast)
        exact absurd hev hnot
  · exact .inl hreplanned

theorem Reacts.outcome {d : String} {g : Stage} {e : Error} (h : Reacts r d g e es y)
    (hy : y = some (.done o)) : ∃ w, o = .failed d g e w := by
  cases h with
  | uncaught => cases hy
  | firstError | keepGoing =>
    cases hy
    exact ⟨_, rfl⟩
  | interactive =>
    obtain ⟨settlement, -, hsettlement⟩ := Option.map_eq_some_iff.1 hy
    cases settlement with
    | retry => cases hsettlement
    | onward w =>
      cases hsettlement
      exact ⟨w, rfl⟩

theorem Round.not_isWriting (h : Round r x t b es (some (.done o))) (ho : o.IsWithheld) :
    ∀ ev ∈ es, ¬ev.IsWriting := by
  generalize hy : some (Attempt.done o) = y at h
  cases h with
  | rejected _ hreacts => exact List.forall_mem_cons.2 ⟨id, fun ev hev => (hreacts.events ev hev).1⟩
  | withheld => simp [Event.IsWriting]
  | applied =>
    cases hy
    exact ho.elim
  | broken _ hreacts =>
    obtain ⟨w, rfl⟩ := hreacts.outcome hy.symm
    exact ho.elim

theorem exists_round_of_step (h : r.step x s = .ok o s') :
    ∃ earlier s₁ es, s₁.journal = s.journal ++ earlier ∧
      (earlier = [] ∨ ∃ ev, earlier.getLast? = some ev ∧ ev.IsRetry) ∧
      (s.operator.Quiet → s₁.operator.Quiet) ∧ Passes s₁ es s' ∧
      Round r x s₁.tree s₁.snapshot es (some (.done o)) := by
  fun_induction step r x s with
  | case1 | case3 => cases h
  | case2 s o' s₁ ha =>
    cases h
    obtain ⟨es, hpasses, hround⟩ := round_of_ok ha
    exact ⟨[], s, es, by simp, .inl rfl, id, hpasses, hround⟩
  | case4 s s₁ ha b hb ih =>
    obtain ⟨es, hpasses, hround⟩ := round_of_ok ha
    obtain ⟨earlier, s₂, es', hjournal, hlast, hquiet, hpasses', hround'⟩ := ih h
    obtain ⟨front, last, rfl, hends⟩ := hround.ends
    refine ⟨front ++ [last] ++ earlier, s₂, es', ?_, .inr ?_, fun hq => hquiet (hpasses.quiet hq),
      hpasses', hround'⟩
    · rw [hjournal, ← List.append_assoc, ← hpasses.journal]
    · obtain rfl | ⟨ev, hev, hretry⟩ := hlast
      · exact ⟨last, by simp, hends.retry.2 rfl⟩
      · exact ⟨ev, by rw [List.getLast?_append, hev, Option.some_or], hretry⟩

theorem withheld_of_step (h : r.step x s = .ok o s') (ho : o.IsWithheld) :
    ∃ earlier t₁ b rest, s'.journal = s.journal ++ earlier ++ .planning x t₁ b :: rest ∧
      (earlier = [] ∨ ∃ d e, earlier.getLast? = some (.reported d e (some .retry))) ∧
      (∀ cs t', .writing cs t' ∉ rest) ∧ (s.operator.Quiet → s'.tree = t₁) := by
  obtain ⟨earlier, s₁, es, hjournal, hlast, hquiet, hpasses, hround⟩ := exists_round_of_step h
  have hes := hround.not_isWriting ho
  obtain ⟨rest, rfl, -⟩ := hround.begins
  refine ⟨earlier, s₁.tree, s₁.snapshot, rest, by rw [hpasses.journal, hjournal], ?_,
    fun cs t' hev => hes _ (List.mem_cons_of_mem _ hev) trivial, fun hq => hpasses.tree (hquiet hq) hes⟩
  refine hlast.imp_right ?_
  rintro ⟨ev, hev, hretry⟩
  cases ev with
  | planning | offered | writing | detailed => exact hretry.elim
  | reported d e a? =>
    obtain rfl : a? = some .retry := hretry
    exact ⟨d, e, hev⟩

structure Untouched (t : FileTree) (s : Session) : Prop where
  tree : s.tree = t
  quiet : s.operator.Quiet
  never : .apply ∉ s.operator.decisions

theorem untouched_of_attempt (hmode : r.mode = .interactive) (h : Untouched t s) :
    Untouched t (ending (r.attempt x s)) := by
  obtain ⟨es, hpasses, hround⟩ := r.round_of_attempt x s
  have hes : ∀ ev ∈ es, ¬ev.IsWriting := by
    intro ev hev
    cases ev with
    | planning | offered | reported | detailed => exact id
    | writing cs t' =>
      obtain ⟨before, after, heq⟩ := List.append_of_mem hev
      obtain ⟨hbefore, -⟩ := hround.writing heq
      rw [consent, if_pos hmode] at hbefore
      have hoffered : .offered cs (some .apply) ∈ es := by simp [heq, hbefore]
      exact absurd (hpasses.apply_mem hoffered) h.never
  exact ⟨(hpasses.tree h.quiet hes).trans h.tree, hpasses.quiet h.quiet,
    fun hmem => h.never (hpasses.decisions hmem)⟩

theorem untouched_of_steps (hmode : r.mode = .interactive) (xs : List Transformation)
    (h : Untouched t s) : Untouched t (ending (r.steps xs s)) :=
  ending_steps (fun _ h => h) (fun _ _ h _ => ⟨h.tree, h.quiet, h.never⟩)
    (fun _ _ _ => untouched_of_attempt hmode) h

structure Unasked (operator : Operator) (s : Session) : Prop where
  operator : s.operator = operator
  not_isShown : ∀ ev ∈ s.journal, ¬ev.IsShown

theorem unasked_of_attempt {operator : Operator} (hmode : r.mode ≠ .interactive)
    (h : Unasked operator s) : Unasked operator (ending (r.attempt x s)) := by
  obtain ⟨es, hpasses, hround⟩ := r.round_of_attempt x s
  have hes := hround.not_isShown hmode
  refine ⟨(hpasses.operator hes).trans h.operator, ?_⟩
  rw [hpasses.journal, List.forall_mem_append]
  exact ⟨h.not_isShown, hes⟩

theorem unasked_of_steps {operator : Operator} (hmode : r.mode ≠ .interactive)
    (xs : List Transformation) (h : Unasked operator s) : Unasked operator (ending (r.steps xs s)) :=
  ending_steps (fun _ h => h) (fun _ _ h _ => ⟨h.operator, h.not_isShown⟩)
    (fun _ _ _ => unasked_of_attempt hmode) h

theorem written_only_with_consent (r : Runner) (operator : Operator) (t : FileTree) (a : Snapshot)
    (xs : List Transformation) :
    (r.mode = .interactive →
      (∀ before cs t' after, (ending (r.run (some operator) t a xs)).journal =
          before ++ .writing cs t' :: after →
        ∃ earlier x t₁ b, x ∈ xs ∧ before = earlier ++ [.planning x t₁ b, .offered cs (some .apply)] ∧
          x.changes r.analyzer t₁ b = .ok cs) ∧
      (∀ before d e after, (ending (r.run (some operator) t a xs)).journal =
          before ++ .reported d e (some .retry) :: after →
        Replanned before after ∨ after = [] ∧ ∃ e' s', r.run (some operator) t a xs = .error e' s' ∧
          s'.snapshot.refresh s'.tree = .error e') ∧
      (∀ x s o s', r.step x s = .ok o s' → o.IsWithheld →
        ∃ earlier t₁ b rest, s'.journal = s.journal ++ earlier ++ .planning x t₁ b :: rest ∧
          (earlier = [] ∨ ∃ d e, earlier.getLast? = some (.reported d e (some .retry))) ∧
          (∀ cs t', .writing cs t' ∉ rest) ∧ (s.operator.Quiet → s'.tree = t₁)) ∧
      (operator.Quiet → .apply ∉ operator.decisions →
        (ending (r.run (some operator) t a xs)).tree = t)) ∧
    (r.mode ≠ .interactive →
      (ending (r.run (some operator) t a xs)).operator = operator ∧
      ∀ ev ∈ (ending (r.run (some operator) t a xs)).journal, ¬ev.IsShown) := by
  rw [run_eq (fun _ => rfl)]
  refine ⟨fun hmode => ⟨fun before cs t' after h => ?_, fun before d e after h => ?_,
    fun x s o s' => withheld_of_step, fun hquiet hnever => ?_⟩, fun hmode => ?_⟩
  · obtain ⟨es, hjournal, hchronicle⟩ := r.chronicle_of_steps xs (start (some operator) t a)
    have hagreed := hchronicle.agreed (hjournal.symm.trans h)
    rw [Agreed, consent, if_pos hmode] at hagreed
    exact hagreed
  · exact replanned_of_steps rfl h rfl
  · have hstart : Untouched t (start (some operator) t a) := ⟨rfl, hquiet, hnever⟩
    exact (untouched_of_steps hmode xs hstart).tree
  · have hstart : Unasked operator (start (some operator) t a) := ⟨rfl, by simp [start]⟩
    have hunasked := unasked_of_steps hmode xs hstart
    exact ⟨hunasked.operator, hunasked.not_isShown⟩

end Runner

namespace Unmoved

open Runner Session

def analyzer : Analyzer where
  planRename := fun _ _ _ _ _ => .ok ⟨"Rename", []⟩
  planMove := fun _ _ _ _ => .ok ⟨"Move", []⟩
  importedNames? := fun _ => some []

def runner (mode : FailureMode) : Runner :=
  ⟨analyzer, mode, [], true⟩

def tree : FileTree :=
  ⟨.dir [("a.py", .file "".toUTF8)], []⟩

def snapshot : Snapshot :=
  ⟨⟨"/"⟩, .standard, [], [⟨"a", ⟨"a.py"⟩⟩]⟩

def move : Transformation :=
  .moveModule ⟨"a", ⟨"a.py"⟩, false⟩ "p"

def changes : ChangeSet :=
  ⟨"Move", []⟩

def failure : Error :=
  .breach (.stillThere ⟨"a.py"⟩ "a")

def operator : Operator :=
  .scripted [.apply, .skip] [.retry]

def front : List Event :=
  [.planning move tree snapshot, .offered changes (some .apply)]

def back : List Event :=
  [.planning move tree snapshot, .offered changes (some .skip)]

def journal : List Event :=
  front ++ .writing changes tree :: .reported "Move" failure (some .retry) :: back

theorem step_tree : (runner .interactive).step move ⟨tree, snapshot, operator, []⟩ =
    .ok (.skipped "Move") ⟨tree, snapshot, .scripted [] [], journal⟩ := by
  have hfirst : (runner .interactive).attempt move ⟨tree, snapshot, operator, []⟩ =
      .ok .again ⟨tree, snapshot, .scripted [.skip] [],
        front ++ [.writing changes tree, .reported "Move" failure (some .retry)]⟩ := rfl
  have hsecond : (runner .interactive).attempt move ⟨tree, snapshot, .scripted [.skip] [],
        front ++ [.writing changes tree, .reported "Move" failure (some .retry)]⟩ =
      .ok (.done (.skipped "Move")) ⟨tree, snapshot, .scripted [] [], journal⟩ := rfl
  exact (step_of_again hfirst rfl).trans (step_of_done hsecond)

theorem run_tree : (runner .interactive).run (some operator) tree snapshot [move] =
    .ok ⟨[.skipped "Move"], none⟩ ⟨tree, snapshot, .scripted [] [], journal⟩ := by
  change (runner .interactive).steps [move] ⟨tree, snapshot, operator, []⟩ = _
  rw [steps, step_tree]
  rfl

theorem written_only_with_consent_retried :
    (ending ((runner .interactive).run (some operator) tree snapshot [move])).journal =
      front ++ .writing changes tree :: .reported "Move" failure (some .retry) :: back ∧
    (∃ earlier x t₁ b, x ∈ [move] ∧
      front = earlier ++ [.planning x t₁ b, .offered changes (some .apply)] ∧
      x.changes analyzer t₁ b = .ok changes) ∧
    Replanned (front ++ [.writing changes tree]) back ∧
    (∃ earlier t₁ b rest, journal = earlier ++ .planning move t₁ b :: rest ∧
      (earlier = [] ∨ ∃ d e, earlier.getLast? = some (.reported d e (some .retry))) ∧
      (∀ cs t', .writing cs t' ∉ rest) ∧ tree = t₁) ∧
    (ending ((runner .interactive).run (some (.scripted [.skip] [])) tree snapshot [move])).tree =
      tree ∧
    (ending ((runner .keepGoing).run (some operator) tree snapshot [move])).operator = operator := by
  have hjournal : (ending ((runner .interactive).run (some operator) tree snapshot [move])).journal =
      journal := by
    rw [run_tree]
    rfl
  obtain ⟨hwriting, hretry, hwithheld, -⟩ :=
    (written_only_with_consent (runner .interactive) operator tree snapshot [move]).1 rfl
  refine ⟨hjournal, hwriting _ _ _ _ hjournal, ?_, ?_, ?_, ?_⟩
  · refine (hretry _ "Move" failure back (hjournal.trans ?_)).resolve_right (by simp [back])
    rw [journal, List.append_assoc, List.singleton_append]
  · obtain ⟨earlier, t₁, b, rest, heq, hlast, hrest, htree⟩ := hwithheld _ _ _ _ step_tree trivial
    exact ⟨earlier, t₁, b, rest, heq, hlast, hrest, htree (Operator.quiet_scripted _ _)⟩
  · exact ((written_only_with_consent (runner .interactive) (.scripted [.skip] []) tree snapshot
      [move]).1 rfl).2.2.2 (Operator.quiet_scripted _ _) (by decide)
  · exact ((written_only_with_consent (runner .keepGoing) operator tree snapshot [move]).2
      (by decide)).1

end Unmoved

end Reroot

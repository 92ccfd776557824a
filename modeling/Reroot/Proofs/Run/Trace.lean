import Reroot.Proofs.Change.Perform
import Reroot.Proofs.Project.Scan
import Reroot.Run.Basic

namespace Reroot

structure Operator.Quiet (o : Operator) : Prop where
  deciding : ∀ f ∈ o.whileDeciding, f = id
  failing : ∀ f ∈ o.whileFailing, f = id

theorem Operator.quiet_scripted (ds : List Decision) (es : List ErrorDecision) :
    (Operator.scripted ds es).Quiet :=
  ⟨fun _ hf => absurd hf List.not_mem_nil, fun _ hf => absurd hf List.not_mem_nil⟩

theorem Operator.Quiet.headD {fs : List (FileTree → FileTree)} (h : ∀ f ∈ fs, f = id)
    (t : FileTree) : fs.headD id t = t := by
  cases fs with
  | nil => rfl
  | cons f fs => rw [List.headD_cons, h f (by simp), id]

namespace Session

variable {s s' s'' : Session}

structure Follows (s s' : Session) : Prop where
  tree : s'.tree = s.tree
  snapshot : s'.snapshot = s.snapshot
  quiet : s'.operator.Quiet
  journal : ∀ e ∈ s.journal, e ∈ s'.journal

structure Continues (s s' : Session) : Prop where
  snapshot : s'.snapshot = s.snapshot
  quiet : s'.operator.Quiet
  journal : ∀ e ∈ s.journal, e ∈ s'.journal

theorem Follows.continues (h : s.Follows s') : s.Continues s' :=
  ⟨h.snapshot, h.quiet, h.journal⟩

theorem Continues.trans (h : s.Continues s') (h' : s'.Continues s'') : s.Continues s'' :=
  ⟨h'.snapshot.trans h.snapshot, h'.quiet, fun e he => h'.journal e (h.journal e he)⟩

theorem Follows.refl (h : s.operator.Quiet) : s.Follows s :=
  ⟨rfl, rfl, h, fun _ he => he⟩

theorem Follows.trans (h : s.Follows s') (h' : s'.Follows s'') : s.Follows s'' :=
  ⟨h'.tree.trans h.tree, h'.snapshot.trans h.snapshot, h'.quiet,
    fun e he => h'.journal e (h.journal e he)⟩

theorem follows_note (h : s.operator.Quiet) (e : Event) : s.Follows (s.note e) :=
  ⟨rfl, rfl, h, fun _ he => List.mem_append_left _ he⟩

def ending {α : Type} : EStateM.Result Error Session α → Session
  | .ok _ s => s
  | .error _ s => s

theorem follows_confirm (hq : s.operator.Quiet) (cs : ChangeSet) :
    s.Follows (ending (confirm cs s)) := by
  unfold confirm
  dsimp only
  split <;> exact ⟨Operator.Quiet.headD hq.deciding s.tree, rfl,
    ⟨fun f hf => hq.deciding f (List.mem_of_mem_tail hf), hq.failing⟩,
    fun _ he => List.mem_append_left _ he⟩

theorem follows_askOnce (hq : s.operator.Quiet) (d : String) (e : Error) :
    s.Follows (ending (askOnce d e s)) := by
  unfold askOnce
  dsimp only
  split <;> exact ⟨Operator.Quiet.headD hq.failing s.tree, rfl,
    ⟨hq.deciding, fun f hf => hq.failing f (List.mem_of_mem_tail hf)⟩,
    fun _ he => List.mem_append_left _ he⟩

theorem follows_settleLoop (hq : s.operator.Quiet) (d : String) (e : Error) (n : Nat) :
    s.Follows (ending (settleLoop d e n s)) := by
  induction n generalizing s with
  | zero => exact .refl hq
  | succ n ih =>
    have hask := follows_askOnce hq d e
    unfold settleLoop
    split
    case h_5 ha =>
      rw [ha] at hask
      exact (hask.trans (follows_note hask.quiet _)).trans (ih hask.quiet)
    all_goals
      next ha =>
      rw [ha] at hask
      exact hask

end Session

namespace Runner

open Session

variable {r : Runner} {x : Transformation} {cs : ChangeSet} {s s' : Session} {t t' : FileTree}

def Attempt.IsApplied : Attempt → Prop
  | .done o => o.isApplied = true
  | .again => False

theorem follows_fail (hq : s.operator.Quiet) (d : String) (g : Stage) (e : Error) :
    s.Follows (ending (r.fail d g e s)) := by
  unfold fail
  split
  · split
    · exact .refl hq
    · exact .refl hq
    · have hsettle := follows_settleLoop hq d e (s.operator.errorDecisions.length + 1)
      split
      all_goals
        next hs =>
        unfold settle at hs
        rw [hs] at hsettle
        exact hsettle
  · exact .refl hq

theorem not_isApplied_of_fail {d : String} {g : Stage} {e : Error} {a : Attempt}
    (h : r.fail d g e s = .ok a s') : ¬a.IsApplied := by
  unfold fail at h
  split at h
  · split at h
    · cases h
      exact nofun
    · cases h
      exact nofun
    · split at h <;> cases h <;> exact nofun
  · cases h

theorem follows_decide (hq : s.operator.Quiet) (cs : ChangeSet) :
    s.Follows (ending (r.decide cs s)) := by
  unfold decide
  split
  · exact follows_confirm hq cs
  · exact .refl hq

theorem decide_of_interactive (hmode : r.mode = .interactive) (cs : ChangeSet) (s : Session) :
    r.decide cs s = confirm cs s := by
  unfold decide
  rw [hmode]

theorem decide_of_ne (hmode : r.mode ≠ .interactive) (cs : ChangeSet) (s : Session) :
    r.decide cs s = .ok .apply s := by
  unfold decide
  split
  · next h => exact absurd h hmode
  · rfl

def Reads {α : Type} (y : TreeM α) : Prop :=
  ∀ t, (∃ a, y t = .ok a t) ∨ ∃ e, y t = .error e t

section Reads

variable {α β : Type} {y : TreeM α} {f : α → TreeM β}

theorem reads_get : Reads (get : TreeM FileTree) :=
  fun t => .inl ⟨t, rfl⟩

theorem reads_ofExcept (z : Except Error α) : Reads (TreeM.ofExcept z) := by
  cases z with
  | ok a => exact fun _ => .inl ⟨a, rfl⟩
  | error e => exact fun _ => .inr ⟨e, rfl⟩

theorem Reads.bind (hy : Reads y) (hf : ∀ a, Reads (f a)) : Reads (y >>= f) := by
  intro t
  obtain ⟨a, ha⟩ | ⟨e, he⟩ := hy t
  · rw [bind_of_ok ha]
    exact hf a t
  · exact .inr ⟨e, bind_of_error he⟩

theorem Reads.ok (h : Reads y) {a : α} (ha : y t = .ok a t') : t' = t := by
  obtain ⟨b, hb⟩ | ⟨e, he⟩ := h t
  · rw [ha] at hb
    cases hb
    rfl
  · rw [ha] at he
    cases he

theorem Reads.error (h : Reads y) {e : Error} (he : y t = .error e t') : t' = t := by
  obtain ⟨b, hb⟩ | ⟨e', he'⟩ := h t
  · rw [he] at hb
    cases hb
  · rw [he] at he'
    cases he'
    rfl

end Reads

def Writes (cs : ChangeSet) (root : Path) (t t' : FileTree) : Prop :=
  (∃ n, cs.apply root t = .ok n t') ∨ ∃ e, cs.apply root t = .error e t'

theorem carryOut_eq (r : Runner) (snapshot : Snapshot) (x : Transformation) (cs : ChangeSet)
    (t : FileTree) :
    ∃ rest : TreeM Unit, Reads rest ∧
      r.carryOut snapshot x cs t = (cs.apply snapshot.root >>= fun _ => rest) t := by
  refine ⟨_, ?_, rfl⟩
  refine reads_get.bind fun _ => (reads_ofExcept _).bind fun later => ?_
  have hcheck : Reads (do
      let after := Survey.capture r.analyzer (← get) later
      TreeM.ofExcept (checkConsistency (← get) r.search x.renamed?
        ⟨snapshot, Survey.capture r.analyzer t snapshot⟩ ⟨later, after⟩) : TreeM Unit) :=
    reads_get.bind fun _ => reads_get.bind fun _ => reads_ofExcept _
  cases x with
  | renameExternal | convertToPackage => exact hcheck
  | moveModule m destination =>
    exact reads_get.bind fun _ => (reads_ofExcept _).bind fun _ => hcheck

theorem carryOut_ok {snapshot : Snapshot} (h : r.carryOut snapshot x cs t = .ok () t') :
    ∃ n, cs.apply snapshot.root t = .ok n t' := by
  obtain ⟨rest, hreads, heq⟩ := r.carryOut_eq snapshot x cs t
  rw [heq] at h
  obtain ⟨n, t₁, happly, hrest⟩ := exists_of_bind_ok h
  rw [hreads.ok hrest]
  exact ⟨n, happly⟩

theorem carryOut_error {snapshot : Snapshot} {e : Error}
    (h : r.carryOut snapshot x cs t = .error e t') : Writes cs snapshot.root t t' := by
  obtain ⟨rest, hreads, heq⟩ := r.carryOut_eq snapshot x cs t
  rw [heq] at h
  obtain happly | ⟨n, t₁, happly, hrest⟩ := of_bind_error h
  · exact .inr ⟨e, happly⟩
  · rw [hreads.error hrest]
    exact .inl ⟨n, happly⟩

theorem write_of_carryOut (h : r.carryOut s.snapshot x cs s.tree = .ok () t') :
    r.write x cs s = .ok (.done (.applied cs.description))
      { s.note (.writing cs s.tree) with tree := t' } := by
  simp only [write, Session.work, note, h]

theorem write_of_carryOut_error {e : Error}
    (h : r.carryOut s.snapshot x cs s.tree = .error e t') :
    r.write x cs s = r.fail cs.description .fatal e
      { s.note (.writing cs s.tree) with tree := t' } := by
  simp only [write, Session.work, note, h]

theorem writes_write (x : Transformation) (cs : ChangeSet) (hq : s.operator.Quiet) :
    s.Continues (ending (r.write x cs s)) ∧
      Writes cs s.snapshot.root s.tree (ending (r.write x cs s)).tree := by
  have hnote := (follows_note hq (.writing cs s.tree)).journal
  cases hwork : r.carryOut s.snapshot x cs s.tree with
  | ok _ t =>
    rw [write_of_carryOut hwork]
    exact ⟨⟨rfl, hq, hnote⟩, .inl (carryOut_ok hwork)⟩
  | error e t =>
    rw [write_of_carryOut_error hwork]
    have hfollows := r.follows_fail (s := { s.note (.writing cs s.tree) with tree := t }) hq
      cs.description .fatal e
    refine ⟨⟨hfollows.snapshot, hfollows.quiet, fun e he => hfollows.journal e (hnote e he)⟩, ?_⟩
    rw [hfollows.tree]
    exact carryOut_error hwork

theorem carryOut_of_write {a : Attempt} (h : r.write x cs s = .ok a s') (happlied : a.IsApplied) :
    r.carryOut s.snapshot x cs s.tree = .ok () s'.tree := by
  cases hwork : r.carryOut s.snapshot x cs s.tree with
  | ok _ t =>
    rw [write_of_carryOut hwork] at h
    cases h
    rfl
  | error e t =>
    rw [write_of_carryOut_error hwork] at h
    exact absurd happlied (not_isApplied_of_fail h)

theorem attempt_of_error {e : Error} (h : x.changes r.analyzer s.tree s.snapshot = .error e) :
    r.attempt x s = r.fail x.label .rejected e (s.note (.planning x s.tree s.snapshot)) := by
  unfold attempt
  dsimp only
  rw [show x.changes r.analyzer (s.note _).tree (s.note _).snapshot = .error e from h]

theorem attempt_of_ok (h : x.changes r.analyzer s.tree s.snapshot = .ok cs) :
    r.attempt x s =
      match r.decide cs (s.note (.planning x s.tree s.snapshot)) with
      | .error e s' => .error e s'
      | .ok .skip s' => .ok (.done (.skipped cs.description)) s'
      | .ok .quit s' => .ok (.done (.quit cs.description)) s'
      | .ok .apply s' => r.write x cs s' := by
  unfold attempt
  dsimp only
  split
  · next e he => cases h.symm.trans he
  · next cs' hcs =>
    cases h.symm.trans hcs
    rfl

structure Tries (r : Runner) (x : Transformation) (s s' : Session) : Prop extends
    Continues s s' where
  planned : .planning x s.tree s.snapshot ∈ s'.journal
  tree : s'.tree = s.tree ∨ ∃ cs, x.changes r.analyzer s.tree s.snapshot = .ok cs ∧
    Writes cs s.snapshot.root s.tree s'.tree

theorem tries_of_attempt {y : EStateM.Result Error Session Attempt} (hq : s.operator.Quiet)
    (h : r.attempt x s = y) : r.Tries x s (ending y) := by
  subst h
  have hnote := (follows_note hq (.planning x s.tree s.snapshot)).continues
  have hplanned : .planning x s.tree s.snapshot ∈ (s.note (.planning x s.tree s.snapshot)).journal :=
    List.mem_append_right _ (List.mem_singleton_self _)
  have tries {s' : Session} (hc : (s.note (.planning x s.tree s.snapshot)).Continues s')
      (htree : s'.tree = s.tree ∨ ∃ cs, x.changes r.analyzer s.tree s.snapshot = .ok cs ∧
        Writes cs s.snapshot.root s.tree s'.tree) : r.Tries x s s' :=
    ⟨hnote.trans hc, hc.journal _ hplanned, htree⟩
  cases hchanges : x.changes r.analyzer s.tree s.snapshot with
  | error e =>
    rw [attempt_of_error hchanges]
    have hfollows := r.follows_fail hnote.quiet x.label .rejected e
    exact tries hfollows.continues (.inl hfollows.tree)
  | ok cs =>
    rw [attempt_of_ok hchanges]
    have hfollows := r.follows_decide hnote.quiet cs
    split
    case h_4 s₁ hdecide =>
      rw [hdecide] at hfollows
      have htree : s₁.tree = s.tree := hfollows.tree
      have hsnapshot : s₁.snapshot = s.snapshot := hfollows.snapshot
      have hquiet : s₁.operator.Quiet := hfollows.quiet
      obtain ⟨hcontinues, hwrites⟩ := r.writes_write x cs hquiet
      rw [htree, hsnapshot] at hwrites
      exact tries (hfollows.continues.trans hcontinues) (.inr ⟨cs, hchanges, hwrites⟩)
    all_goals
      next hdecide =>
      rw [hdecide] at hfollows
      exact tries hfollows.continues (.inl hfollows.tree)

theorem carryOut_of_attempt {a : Attempt} (hq : s.operator.Quiet) (h : r.attempt x s = .ok a s')
    (happlied : a.IsApplied) : ∃ cs, x.changes r.analyzer s.tree s.snapshot = .ok cs ∧
      r.carryOut s.snapshot x cs s.tree = .ok () s'.tree := by
  have hnote := (follows_note hq (.planning x s.tree s.snapshot)).quiet
  cases hchanges : x.changes r.analyzer s.tree s.snapshot with
  | error e =>
    rw [attempt_of_error hchanges] at h
    exact absurd happlied (not_isApplied_of_fail h)
  | ok cs =>
    rw [attempt_of_ok hchanges] at h
    split at h
    · cases h
    · cases h
      cases happlied
    · cases h
      cases happlied
    · next s₁ hdecide =>
      have hfollows := r.follows_decide hnote cs
      rw [hdecide] at hfollows
      have htree : s₁.tree = s.tree := hfollows.tree
      have hsnapshot : s₁.snapshot = s.snapshot := hfollows.snapshot
      have hcarry := carryOut_of_write h happlied
      rw [htree, hsnapshot] at hcarry
      exact ⟨cs, rfl, hcarry⟩

structure Fresh (s : Session) (root : Path) (l : Layout) : Prop where
  quiet : s.operator.Quiet
  isOf : s.snapshot.IsOf s.tree root l

variable {root : Path} {l : Layout} {o : Outcome}

theorem isOf_of_refresh (hfree : t.top.LinkFree) (htidy : t.top.Tidy) {a b : Snapshot}
    (ha : a.IsOf t' root l) (h : a.refresh t = .ok b) : b.IsOf t root l := by
  unfold Snapshot.refresh at h
  rw [ha.root_eq, ha.layout_eq, ha.excludes_eq] at h
  exact Snapshot.isOf_of_capture hfree htidy h

theorem step_of_done (h : r.attempt x s = .ok (.done o) s') : r.step x s = .ok o s' := by
  rw [step]
  split <;> simp_all

theorem step_of_error {e : Error} (h : r.attempt x s = .error e s') : r.step x s = .error e s' := by
  rw [step]
  split <;> simp_all

theorem step_of_again {b : Snapshot} (h : r.attempt x s = .ok .again s')
    (hb : s'.snapshot.refresh s'.tree = .ok b) : r.step x s = r.step x { s' with snapshot := b } := by
  rw [step]
  split <;> simp_all

theorem step_ok (hq : s.operator.Quiet) (h : r.step x s = .ok o s') :
    s'.operator.Quiet ∧ ∀ e ∈ s.journal, e ∈ s'.journal := by
  fun_induction step r x s with
  | case1 | case3 => cases h
  | case2 s o' s₁ ha =>
    cases h
    have htries : r.Tries x s s' := tries_of_attempt hq ha
    exact ⟨htries.quiet, htries.journal⟩
  | case4 s s₁ ha snapshot _ ih =>
    have htries : r.Tries x s s₁ := tries_of_attempt hq ha
    obtain ⟨hquiet, hjournal⟩ := ih htries.quiet h
    exact ⟨hquiet, fun e he => hjournal e (htries.journal e he)⟩

section Kept

variable {I : FileTree → Prop} {J : FileTree → Snapshot → Prop}
  (hJ : ∀ t t' a b, J t' a → I t → a.refresh t = .ok b → J t b)

include hJ

theorem attempt_of_step (hq : s.operator.Quiet) (hcurrent : J s.tree s.snapshot) (hstart : I s.tree)
    (h : r.step x s = .ok o s')
    (hwrites : ∀ t a cs t', I t → J t a → .planning x t a ∈ s'.journal →
      x.changes r.analyzer t a = .ok cs → Writes cs a.root t t' → I t') :
    ∃ s₀, (s₀ = s ∨ ∃ s₁, r.attempt x s = .ok .again s₁) ∧ s₀.operator.Quiet ∧ I s₀.tree ∧
      J s₀.tree s₀.snapshot ∧ r.attempt x s₀ = .ok (.done o) s' := by
  fun_induction step r x s with
  | case1 | case3 => cases h
  | case2 s o' s₁ ha =>
    cases h
    exact ⟨s, .inl rfl, hq, hstart, hcurrent, ha⟩
  | case4 s s₁ ha snapshot hrefresh ih =>
    have htries : r.Tries x s s₁ := tries_of_attempt hq ha
    have hquiet : { s₁ with snapshot := snapshot }.operator.Quiet := htries.quiet
    have hplanned : .planning x s.tree s.snapshot ∈ s'.journal :=
      (step_ok hquiet h).2 _ htries.planned
    have hkept : I s₁.tree := by
      obtain heq | ⟨cs, hchanges, hw⟩ := htries.tree
      · rwa [heq]
      · exact hwrites _ _ _ _ hstart hcurrent hplanned hchanges hw
    rw [htries.snapshot] at hrefresh
    obtain ⟨s₀, -, hlast⟩ := ih hquiet (hJ _ _ _ _ hcurrent hkept hrefresh) hkept h
    exact ⟨s₀, .inr ⟨s₁, ha⟩, hlast⟩

theorem carryOut_of_step (hq : s.operator.Quiet) (hcurrent : J s.tree s.snapshot) (hstart : I s.tree)
    (h : r.step x s = .ok o s')
    (hwrites : ∀ t a cs t', I t → J t a → .planning x t a ∈ s'.journal →
      x.changes r.analyzer t a = .ok cs → Writes cs a.root t t' → I t')
    (happlied : o.isApplied = true) :
    ∃ t cs, I t ∧ J t s'.snapshot ∧ .planning x t s'.snapshot ∈ s'.journal ∧
      x.changes r.analyzer t s'.snapshot = .ok cs ∧
      r.carryOut s'.snapshot x cs t = .ok () s'.tree := by
  obtain ⟨s₀, -, hquiet, hI, hcurrent, ha⟩ := attempt_of_step hJ hq hcurrent hstart h hwrites
  have htries : r.Tries x s₀ s' := tries_of_attempt hquiet ha
  obtain ⟨cs, hchanges, hcarry⟩ := carryOut_of_attempt hquiet ha happlied
  rw [htries.snapshot]
  exact ⟨s₀.tree, cs, hI, hcurrent, htries.planned, hchanges, hcarry⟩

theorem kept_of_step (hq : s.operator.Quiet) (hcurrent : J s.tree s.snapshot) (hstart : I s.tree)
    (hwrites : ∀ t a cs t', I t → J t a → x.changes r.analyzer t a = .ok cs →
      Writes cs a.root t t' → I t') :
    (ending (r.step x s)).operator.Quiet ∧ I (ending (r.step x s)).tree ∧
      ∃ t, J t (ending (r.step x s)).snapshot := by
  have attempted {s s₁ : Session} (htries : r.Tries x s s₁) (hcurrent : J s.tree s.snapshot)
      (hstart : I s.tree) : I s₁.tree ∧ J s.tree s₁.snapshot := by
    refine ⟨?_, htries.snapshot ▸ hcurrent⟩
    obtain heq | ⟨cs, hchanges, hw⟩ := htries.tree
    · rwa [heq]
    · exact hwrites _ _ _ _ hstart hcurrent hchanges hw
  fun_induction step r x s with
  | case1 s e s₁ ha | case2 s o' s₁ ha | case3 s s₁ ha e hrefresh =>
    have htries : r.Tries x s s₁ := tries_of_attempt hq ha
    obtain ⟨hkept, hlater⟩ := attempted htries hcurrent hstart
    exact ⟨htries.quiet, hkept, _, hlater⟩
  | case4 s s₁ ha snapshot hrefresh ih =>
    have htries : r.Tries x s s₁ := tries_of_attempt hq ha
    obtain ⟨hkept, hlater⟩ := attempted htries hcurrent hstart
    exact ih htries.quiet (hJ _ _ _ _ hlater hkept hrefresh) hkept

end Kept

theorem step_applied {I : FileTree → Prop} (hI : ∀ t, I t → t.top.LinkFree ∧ t.top.Tidy)
    (hfresh : Fresh s root l) (hstart : I s.tree) (h : r.step x s = .ok o s')
    (hwrites : ∀ t snapshot cs t', I t → snapshot.IsOf t root l →
      .planning x t snapshot ∈ s'.journal → x.changes r.analyzer t snapshot = .ok cs →
      Writes cs root t t' → I t')
    (happlied : o.isApplied = true) :
    (∃ t, s'.snapshot.IsOf t root l) ∧ ∃ t snapshot cs n, I t ∧ snapshot.IsOf t root l ∧
      .planning x t snapshot ∈ s'.journal ∧ x.changes r.analyzer t snapshot = .ok cs ∧
      cs.apply root t = .ok n s'.tree := by
  obtain ⟨t, cs, ht, hisOf, hplanned, hchanges, hcarry⟩ := carryOut_of_step
    (J := fun t a => a.IsOf t root l)
    (fun t t' a b ha ht h => isOf_of_refresh (hI t ht).1 (hI t ht).2 ha h) hfresh.quiet hfresh.isOf
    hstart h (fun t a cs t' ht ha hplanned hchanges hw =>
      hwrites t a cs t' ht ha hplanned hchanges (ha.root_eq ▸ hw)) happlied
  obtain ⟨n, happly⟩ := carryOut_ok hcarry
  rw [hisOf.root_eq] at happly
  exact ⟨⟨t, hisOf⟩, t, s'.snapshot, cs, n, ht, hisOf, hplanned, hchanges, happly⟩

variable {xs ys : List Transformation} {run : Run}

theorem onward_of_isApplied (h : o.isApplied = true) : o.onward = .next := by
  cases o with
  | applied => rfl
  | skipped | quit | failed => cases h

theorem steps_cons_ok (h : r.steps (x :: xs) s = .ok run s')
    (happlied : ∀ o ∈ run.outcomes, o.isApplied = true) :
    ∃ o s₁ s₂ rest, r.step x s = .ok o s₁ ∧ o.isApplied = true ∧ Session.refresh s₁ = .ok () s₂ ∧
      r.steps xs s₂ = .ok rest s' ∧ ∀ o ∈ rest.outcomes, o.isApplied = true := by
  unfold steps at h
  split at h
  · cases h
  next o s₁ hstep =>
  split at h
  · cases h
  next s₂ hrefresh =>
  split at h
  · next honward =>
    cases h
    rw [onward_of_isApplied (happlied o (List.mem_singleton_self o))] at honward
    cases honward
  · split at h
    · cases h
    · next rest s₃ hrest =>
      cases h
      obtain ⟨ho, hall⟩ := List.forall_mem_cons.1 happlied
      exact ⟨o, s₁, s₂, rest, hstep, ho, hrefresh, hrest, hall⟩

theorem steps_append_ok (h : r.steps (xs ++ ys) s = .ok run s')
    (happlied : ∀ o ∈ run.outcomes, o.isApplied = true) :
    ∃ run₁ s₁ run₂, r.steps xs s = .ok run₁ s₁ ∧ (∀ o ∈ run₁.outcomes, o.isApplied = true) ∧
      r.steps ys s₁ = .ok run₂ s' ∧ ∀ o ∈ run₂.outcomes, o.isApplied = true := by
  induction xs generalizing s run with
  | nil => exact ⟨⟨[], none⟩, s, run, rfl, by simp, h, happlied⟩
  | cons x xs ih =>
    obtain ⟨o, s₁, s₂, rest, hstep, ho, hrefresh, hrest, hall⟩ := steps_cons_ok h happlied
    obtain ⟨run₁, s₃, run₂, hxs, hall₁, hys, hall₂⟩ := ih hrest hall
    refine ⟨⟨o :: run₁.outcomes, run₁.aborted⟩, s₃, run₂, ?_, List.forall_mem_cons.2 ⟨ho, hall₁⟩, hys,
      hall₂⟩
    simp only [steps, hstep, hrefresh, onward_of_isApplied ho, hxs]

theorem refresh_ok (h : Session.refresh s = .ok () s') :
    s'.tree = s.tree ∧ s'.operator = s.operator ∧ s'.journal = s.journal ∧
      s.snapshot.refresh s.tree = .ok s'.snapshot := by
  unfold Session.refresh at h
  split at h
  · next hrefresh =>
    cases h
    exact ⟨rfl, rfl, rfl, hrefresh⟩
  · cases h

theorem refresh_error {e : Error} (h : Session.refresh s = .error e s') : s' = s := by
  unfold Session.refresh at h
  split at h
  · cases h
  · cases h
    rfl

theorem steps_journal (hq : s.operator.Quiet) (h : r.steps xs s = .ok run s')
    (happlied : ∀ o ∈ run.outcomes, o.isApplied = true) : ∀ e ∈ s.journal, e ∈ s'.journal := by
  induction xs generalizing s run with
  | nil =>
    cases h
    exact fun e he => he
  | cons x xs ih =>
    obtain ⟨o, s₁, s₂, rest, hstep, -, hrefresh, hrest, hall⟩ := steps_cons_ok h happlied
    obtain ⟨hquiet, hjournal⟩ := step_ok hq hstep
    obtain ⟨-, hoperator, hsame, -⟩ := refresh_ok hrefresh
    intro e he
    refine ih (hoperator ▸ hquiet) hrest hall e ?_
    rw [hsame]
    exact hjournal e he

theorem steps_applied {P : List Transformation → FileTree → Prop}
    (hP : ∀ xs t, P xs t → t.top.LinkFree ∧ t.top.Tidy) (hfresh : Fresh s root l) (hstart : P xs s.tree)
    (h : r.steps xs s = .ok run s') (happlied : ∀ o ∈ run.outcomes, o.isApplied = true)
    (hstep : ∀ x xs s₀ o s₁, Fresh s₀ root l → P (x :: xs) s₀.tree → r.step x s₀ = .ok o s₁ →
      o.isApplied = true → (∀ e ∈ s₁.journal, e ∈ s'.journal) →
      P xs s₁.tree ∧ ∃ t, s₁.snapshot.IsOf t root l) :
    P [] s'.tree ∧ Fresh s' root l := by
  induction xs generalizing s run with
  | nil =>
    cases h
    exact ⟨hstart, hfresh⟩
  | cons x xs ih =>
    obtain ⟨o, s₁, s₂, rest, hfirst, ho, hrefresh, hrest, hall⟩ := steps_cons_ok h happlied
    obtain ⟨hquiet, -⟩ := step_ok hfresh.quiet hfirst
    obtain ⟨htree, hoperator, hsame, hsnapshot⟩ := refresh_ok hrefresh
    have hquiet₂ : s₂.operator.Quiet := hoperator ▸ hquiet
    have hlater : ∀ e ∈ s₁.journal, e ∈ s'.journal := hsame ▸ steps_journal hquiet₂ hrest hall
    obtain ⟨hnext, t, hisOf⟩ := hstep x xs s o s₁ hfresh hstart hfirst ho hlater
    obtain ⟨hfree, htidy⟩ := hP _ _ hnext
    refine ih ⟨hquiet₂, ?_⟩ (htree ▸ hnext) hrest hall
    rw [htree]
    exact isOf_of_refresh hfree htidy hisOf hsnapshot

theorem kept_of_steps {P : List Transformation → FileTree → Prop} {J : FileTree → Snapshot → Prop}
    (hJ : ∀ xs t t' a b, J t' a → P xs t → a.refresh t = .ok b → J t b)
    (hnext : ∀ x xs t, P (x :: xs) t → P xs t)
    (hwrites : ∀ x xs t a cs t', P (x :: xs) t → J t a → x.changes r.analyzer t a = .ok cs →
      Writes cs a.root t t' → P (x :: xs) t')
    (hq : s.operator.Quiet) (hcurrent : J s.tree s.snapshot) (hstart : P xs s.tree) :
    ∃ ys, P ys (ending (r.steps xs s)).tree := by
  induction xs generalizing s with
  | nil => exact ⟨[], hstart⟩
  | cons x xs ih =>
    obtain ⟨hquiet, hkept, t, hlater⟩ := kept_of_step (hJ (x :: xs)) hq hcurrent hstart (hwrites x xs)
    rw [steps]
    cases hstep : r.step x s with
    | error e s₁ =>
      rw [hstep] at hkept
      exact ⟨x :: xs, hkept⟩
    | ok o s₁ =>
      rw [hstep] at hquiet hkept hlater
      dsimp only
      cases hrefresh : Session.refresh s₁ with
      | error e s₂ =>
        obtain rfl : s₂ = s₁ := refresh_error hrefresh
        exact ⟨x :: xs, hkept⟩
      | ok u s₂ =>
        obtain ⟨htree, hoperator, -, hsnapshot⟩ := refresh_ok hrefresh
        have hkept₂ : P (x :: xs) s₂.tree := htree ▸ hkept
        have hcurrent₂ : J s₂.tree s₂.snapshot := htree ▸ hJ _ _ _ _ _ hlater hkept hsnapshot
        dsimp only
        split
        · exact ⟨x :: xs, hkept₂⟩
        · obtain ⟨ys, hys⟩ := ih (hoperator ▸ hquiet) hcurrent₂ (hnext x xs _ hkept₂)
          refine ⟨ys, ?_⟩
          cases hrest : r.steps xs s₂ with
          | error e s₃ | ok run s₃ =>
            rw [hrest] at hys
            exact hys

end Runner

end Reroot

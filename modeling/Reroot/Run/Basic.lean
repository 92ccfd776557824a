import Reroot.Run.Session
import Reroot.Survey

namespace Reroot

structure Runner where
  analyzer : Analyzer
  mode : FailureMode
  search : SearchPath
  catching : Bool

structure Run where
  outcomes : List Outcome
  aborted : Option Nat
  deriving DecidableEq, Repr

namespace Runner

def carryOut (r : Runner) (snapshot : Snapshot) (x : Transformation) (changes : ChangeSet) :
    TreeM Unit := do
  let before := Survey.capture r.analyzer (← get) snapshot
  let _ ← changes.apply snapshot.root
  let later ← TreeM.ofExcept (snapshot.refresh (← get))
  match x with
  | .moveModule m _ => TreeM.ofExcept (checkMoved (← get) later m)
  | _ => pure ()
  let after := Survey.capture r.analyzer (← get) later
  TreeM.ofExcept (checkConsistency (← get) r.search x.renamed? ⟨snapshot, before⟩ ⟨later, after⟩)

inductive Attempt where
  | done (o : Outcome)
  | again

def fail (r : Runner) (description : String) (stage : Stage) (e : Error) : SessionM Attempt :=
  fun s =>
    if r.catching then
      match r.mode with
      | .firstError => .ok (.done (.failed description stage e .quit)) s
      | .keepGoing => .ok (.done (.failed description stage e .next)) s
      | .interactive =>
        match Session.settle description e s with
        | .error e' s' => .error e' s'
        | .ok .retry s' => .ok .again s'
        | .ok (.onward o) s' => .ok (.done (.failed description stage e o)) s'
    else .error e s

def decide (r : Runner) (changes : ChangeSet) : SessionM Decision := fun s =>
  match r.mode with
  | .interactive => Session.confirm changes s
  | _ => .ok .apply s

def write (r : Runner) (x : Transformation) (changes : ChangeSet) : SessionM Attempt := fun s =>
  match Session.work (r.carryOut s.snapshot x changes) (s.note (.writing changes s.tree)) with
  | .error e s' => .error e s'
  | .ok (.ok ()) s' => .ok (.done (.applied changes.description)) s'
  | .ok (.error e) s' => r.fail changes.description .fatal e s'

def attempt (r : Runner) (x : Transformation) : SessionM Attempt := fun s =>
  let s := s.note (.planning x s.tree s.snapshot)
  match x.changes r.analyzer s.tree s.snapshot with
  | .error e => r.fail x.label .rejected e s
  | .ok changes =>
    match r.decide changes s with
    | .error e s' => .error e s'
    | .ok .skip s' => .ok (.done (.skipped changes.description)) s'
    | .ok .quit s' => .ok (.done (.quit changes.description)) s'
    | .ok .apply s' => r.write x changes s'

end Runner

namespace Session

theorem errorDecisions_of_askOnce {d : String} {e : Error} {a : ErrorDecision}
    {s s' : Session} (h : askOnce d e s = .ok a s') :
    s'.operator.errorDecisions = s.operator.errorDecisions.tail := by
  unfold askOnce at h
  dsimp only at h
  split at h
  · cases h
    rfl
  · cases h

theorem errorDecisions_ne_nil_of_askOnce_retry {d : String} {e : Error} {s s' : Session}
    (h : askOnce d e s = .ok .retry s') : s.operator.errorDecisions ≠ [] := by
  intro hs
  unfold askOnce at h
  dsimp only at h
  split at h
  · next hd =>
    cases h
    unfold Operator.errorDecision at hd
    rw [hs] at hd
    cases ha : s.operator.atEnd <;> simp [ha] at hd
  · cases h

theorem length_errorDecisions_of_settleLoop {d : String} {e : Error} {n : Nat} {s s' : Session}
    (h : settleLoop d e n s = .ok .retry s') :
    s'.operator.errorDecisions.length < s.operator.errorDecisions.length := by
  induction n generalizing s with
  | zero => cases h
  | succ n ih =>
    unfold settleLoop at h
    split at h
    · cases h
    · next ha =>
      cases h
      have hne := errorDecisions_ne_nil_of_askOnce_retry ha
      have hlen := List.length_pos_iff.2 hne
      rw [errorDecisions_of_askOnce ha, List.length_tail]
      omega
    · cases h
    · cases h
    · next ha =>
      have hlt := ih h
      have htail := errorDecisions_of_askOnce ha
      simp only [note] at hlt
      rw [htail, List.length_tail] at hlt
      omega

theorem errorDecisions_of_confirm {cs : ChangeSet} {a : Decision} {s s' : Session}
    (h : confirm cs s = .ok a s') :
    s'.operator.errorDecisions = s.operator.errorDecisions := by
  unfold confirm at h
  dsimp only at h
  split at h
  · cases h
    rfl
  · cases h

end Session

namespace Runner

theorem length_errorDecisions_of_fail {r : Runner} {d : String} {g : Stage} {e : Error}
    {s s' : Session} (h : r.fail d g e s = .ok .again s') :
    s'.operator.errorDecisions.length < s.operator.errorDecisions.length := by
  unfold fail at h
  split at h
  · split at h
    · cases h
    · cases h
    · split at h
      · cases h
      · next hs =>
        cases h
        exact Session.length_errorDecisions_of_settleLoop hs
      · cases h
  · cases h

theorem length_errorDecisions_of_write {r : Runner} {x : Transformation} {cs : ChangeSet}
    {s s' : Session} (h : r.write x cs s = .ok .again s') :
    s'.operator.errorDecisions.length < s.operator.errorDecisions.length := by
  unfold write at h
  split at h
  · cases h
  · cases h
  · next e s₁ hw =>
    have hlt := length_errorDecisions_of_fail h
    unfold Session.work at hw
    split at hw
    · cases hw
    · cases hw
      exact hlt

theorem errorDecisions_of_decide {r : Runner} {cs : ChangeSet} {a : Decision} {s s' : Session}
    (h : r.decide cs s = .ok a s') :
    s'.operator.errorDecisions = s.operator.errorDecisions := by
  unfold decide at h
  split at h
  · exact Session.errorDecisions_of_confirm h
  · cases h
    rfl

theorem length_errorDecisions_of_attempt {r : Runner} {x : Transformation} {s s' : Session}
    (h : r.attempt x s = .ok .again s') :
    s'.operator.errorDecisions.length < s.operator.errorDecisions.length := by
  unfold attempt at h
  dsimp only at h
  split at h
  · have hlt := length_errorDecisions_of_fail h
    exact hlt
  · split at h
    · cases h
    · cases h
    · cases h
    · next hd =>
      have hlt := length_errorDecisions_of_write h
      rw [errorDecisions_of_decide hd] at hlt
      exact hlt

def step (r : Runner) (x : Transformation) (s : Session) : EStateM.Result Error Session Outcome :=
  match _h : r.attempt x s with
  | .error e s' => .error e s'
  | .ok (.done o) s' => .ok o s'
  | .ok .again s' =>
    match s'.snapshot.refresh s'.tree with
    | .error e => .error e s'
    | .ok snapshot => r.step x { s' with snapshot := snapshot }
termination_by s.operator.errorDecisions.length
decreasing_by exact length_errorDecisions_of_attempt _h

def steps (r : Runner) : List Transformation → Session → EStateM.Result Error Session Run
  | [], s => .ok ⟨[], none⟩ s
  | x :: xs, s =>
    match r.step x s with
    | .error e s' => .error e s'
    | .ok o s' =>
      match Session.refresh s' with
      | .error e s'' => .error e s''
      | .ok () s'' =>
        match o.onward with
        | .quit =>
          .ok ⟨[o], if r.mode = .interactive then some (xs.length + 1) else none⟩ s''
        | .next =>
          match r.steps xs s'' with
          | .error e s''' => .error e s'''
          | .ok run s''' => .ok ⟨o :: run.outcomes, run.aborted⟩ s'''

def run (r : Runner) (operator? : Option Operator) (t : FileTree) (s : Snapshot)
    (plan : List Transformation) : EStateM.Result Error Session Run :=
  match operator? with
  | none =>
    let session : Session := ⟨t, s, Operator.scripted [] [], []⟩
    if r.mode = .interactive then .error (.config .noOperator) session
    else r.steps plan session
  | some operator => r.steps plan ⟨t, s, operator, []⟩

end Runner

end Reroot

import Reroot.Proofs.Change.Success
import Reroot.Proofs.Run.Modes
import Reroot.Proofs.Run.Visibility
import Reroot.Proofs.Survey

namespace Reroot

open FileTree Session Runner

namespace Runner

variable {r : Runner} {x : Transformation} {a b : Snapshot} {t t' : FileTree} {cs : ChangeSet}
  {n : Nat} {s s' : Session} {o : Outcome}

def comparison (r : Runner) (x : Transformation) (t t' : FileTree) (a b : Snapshot) :
    Except Error Unit :=
  checkConsistency t' r.search x.renamed? ⟨a, Survey.capture r.analyzer t a⟩
    ⟨b, Survey.capture r.analyzer t' b⟩

def verdict (r : Runner) (x : Transformation) (t t' : FileTree) (a b : Snapshot) :
    Except Error Unit :=
  match x with
  | .moveModule m _ =>
    match checkMoved t' b m with
    | .ok () => r.comparison x t t' a b
    | .error e => .error e
  | _ => r.comparison x t t' a b

theorem carryOut_of_apply (happly : cs.apply a.root t = .ok n t') (hb : a.refresh t' = .ok b) :
    r.carryOut a x cs t = TreeM.ofExcept (r.verdict x t t' a b) t' := by
  unfold carryOut
  refine (bind_of_ok rfl).trans ((bind_of_ok happly).trans ((bind_of_ok rfl).trans ?_))
  refine (bind_of_ok (ofExcept_of_ok hb)).trans ?_
  have hcompare : (do
      let after := Survey.capture r.analyzer (← get) b
      TreeM.ofExcept (checkConsistency (← get) r.search x.renamed?
        ⟨a, Survey.capture r.analyzer t a⟩ ⟨b, after⟩) : TreeM Unit) t' =
      TreeM.ofExcept (r.comparison x t t' a b) t' := by
    rw [comparison]
    exact (bind_of_ok rfl).trans (bind_of_ok rfl)
  cases x with
  | renameExternal | convertToPackage =>
    dsimp only [verdict]
    exact hcompare
  | moveModule m destination =>
    dsimp only [verdict]
    refine (bind_of_ok rfl).trans ?_
    cases checkMoved t' b m with
    | error e => exact bind_of_error rfl
    | ok => exact (bind_of_ok rfl).trans hcompare

theorem exists_of_carryOut_ok (h : r.carryOut a x cs t = .ok () t') :
    ∃ n b, cs.apply a.root t = .ok n t' ∧ a.refresh t' = .ok b ∧ r.comparison x t t' a b = .ok () := by
  obtain ⟨n, happly⟩ := carryOut_ok h
  obtain ⟨b, hb⟩ := refresh_of_carryOut h
  refine ⟨n, b, happly, hb, ?_⟩
  rw [carryOut_of_apply happly hb] at h
  have hverdict : r.verdict x t t' a b = .ok () := by
    cases hv : r.verdict x t t' a b with
    | ok => rfl
    | error e =>
      rw [hv] at h
      cases h
  unfold verdict at hverdict
  split at hverdict
  · split at hverdict
    · exact hverdict
    · cases hverdict
  · exact hverdict

theorem exists_carryOut_of_step (h : r.step x s = .ok o s') (happlied : o.isApplied = true) :
    ∃ cs t, r.carryOut s'.snapshot x cs t = .ok () s'.tree := by
  fun_induction step r x s with
  | case1 | case3 => cases h
  | case4 s s₁ ha b hb ih => exact ih h
  | case2 s o' s₁ ha =>
    cases h
    cases hchanges : x.changes r.analyzer s.tree s.snapshot with
    | error e =>
      rw [attempt_of_error hchanges] at ha
      exact absurd happlied (not_isApplied_of_fail ha)
    | ok cs =>
      rw [attempt_of_ok hchanges] at ha
      split at ha
      · cases ha
      · cases ha
        cases happlied
      · cases ha
        cases happlied
      · next s₂ _ =>
        have hcarry := carryOut_of_write ha happlied
        rw [write_of_carryOut hcarry] at ha
        have hsnapshot : s₂.snapshot = s'.snapshot :=
          congrArg (·.snapshot) (EStateM.Result.ok.inj ha).2
        exact ⟨cs, s₂.tree, hsnapshot ▸ hcarry⟩

theorem snapshot_of_step (hmode : r.mode ≠ .interactive) (h : r.step x s = .ok o s') :
    s'.snapshot = s.snapshot := by
  fun_induction step r x s with
  | case1 | case3 => cases h
  | case4 s s₁ ha => exact absurd ha (attempt_ne_again hmode x s s₁)
  | case2 s o' s₁ ha =>
    cases h
    obtain ⟨es, hpasses, -⟩ := round_of_ok ha
    exact hpasses.snapshot

end Runner

namespace Snapshot

variable {follow : Path → Path} {a b : Snapshot} {i i' j : String}

def Inherits (follow : Path → Path) (a b : Snapshot) (i j : String) : Prop :=
  ∀ m ∈ b.modules, m.identifier = j → ∃ m₀ ∈ a.modules, m₀.identifier = i ∧ follow m₀.path = m.path

instance : Decidable (Inherits follow a b i j) :=
  inferInstanceAs (Decidable (∀ m ∈ b.modules, m.identifier = j →
    ∃ m₀ ∈ a.modules, m₀.identifier = i ∧ follow m₀.path = m.path))

def introduced (follow : Path → Path) (a b : Snapshot) : List String :=
  b.repeated.filter fun j => ¬∃ i ∈ a.repeated, Inherits follow a b i j

def removed (follow : Path → Path) (a b : Snapshot) : List String :=
  a.repeated.filter fun i => ¬∃ j ∈ b.repeated, Inherits follow a b i j

theorem nodup_repeated (s : Snapshot) : s.repeated.Nodup :=
  ((sorted_sortedNames s.identifiers).1.imp ne_of_lt).filter _

theorem mem_repeated {s : Snapshot} : i ∈ s.repeated ↔ 1 < s.identifiers.count i := by
  rw [repeated, List.mem_filter, (sorted_sortedNames _).2, decide_eq_true_eq]
  exact and_iff_right_of_imp fun h => List.count_pos_iff.1 (Nat.zero_lt_of_lt h)

theorem mem_repeated_of_ne {s : Snapshot} {m m' : Module} (hm : m ∈ s.modules) (hm' : m' ∈ s.modules)
    (hne : m ≠ m') (hsame : m.identifier = m'.identifier) : m.identifier ∈ s.repeated := by
  rw [mem_repeated, identifiers, List.count, List.countP_map, List.countP_eq_length_filter]
  have hmem : m ∈ s.modules.filter ((· == m.identifier) ∘ (·.identifier)) := by simp [hm]
  have hmem' : m' ∈ s.modules.filter ((· == m.identifier) ∘ (·.identifier)) := by simp [hm', hsame]
  generalize s.modules.filter ((· == m.identifier) ∘ (·.identifier)) = ms at hmem hmem'
  cases ms with
  | nil => cases hmem
  | cons m₀ ms =>
    cases ms with
    | nil => exact absurd ((List.mem_singleton.1 hmem).trans (List.mem_singleton.1 hmem').symm) hne
    | cons m₁ ms => simp

section Follow

variable (hfollow : ∀ m₀ ∈ a.modules, ∀ m₁ ∈ a.modules, follow m₀.path = follow m₁.path → m₀ = m₁)

include hfollow

theorem Inherits.unique (hj : j ∈ b.repeated) (h : Inherits follow a b i j)
    (h' : Inherits follow a b i' j) : i = i' := by
  have hmem := List.count_pos_iff.1 (Nat.zero_lt_of_lt (mem_repeated.1 hj))
  obtain ⟨m, hm, hmj⟩ := List.mem_map.1 hmem
  obtain ⟨m₀, hm₀, rfl, hplace⟩ := h m hm hmj
  obtain ⟨m₁, hm₁, rfl, hplace'⟩ := h' m hm hmj
  rw [hfollow m₀ hm₀ m₁ hm₁ (hplace.trans hplace'.symm)]

theorem length_introduced_le (h : b.duplicates.length ≤ a.duplicates.length) :
    (introduced follow a b).length ≤ (removed follow a b).length := by
  rw [length_duplicates, length_duplicates] at h
  have hsplitA := List.length_eq_length_filter_add (l := a.repeated)
    (fun i => ¬∃ j ∈ b.repeated, Inherits follow a b i j)
  have hsplitB := List.length_eq_length_filter_add (l := b.repeated)
    (fun j => ¬∃ i ∈ a.repeated, Inherits follow a b i j)
  -- Each collision that is kept has one after the step for itself.
  have hkept : (a.repeated.filter fun i => !decide (¬∃ j ∈ b.repeated, Inherits follow a b i j)).length ≤
      (b.repeated.filter fun j => !decide (¬∃ i ∈ a.repeated, Inherits follow a b i j)).length := by
    have hheir : ∀ i ∈ a.repeated.filter fun i => !decide (¬∃ j ∈ b.repeated, Inherits follow a b i j),
        i ∈ a.repeated ∧ ∃ j ∈ b.repeated, Inherits follow a b i j := by
      intro i hi
      simpa using hi
    choose! heir hheir using fun i hi => (hheir i hi).2
    have hnodup : ((a.repeated.filter fun i =>
        !decide (¬∃ j ∈ b.repeated, Inherits follow a b i j)).map heir).Nodup := by
      refine List.Nodup.map_on (fun i hi i' hi' heq => ?_) (a.nodup_repeated.filter _)
      exact Inherits.unique hfollow (hheir i hi).1 (hheir i hi).2 (heq ▸ (hheir i' hi').2)
    refine (List.length_map heir).symm.le.trans (List.subperm_of_subset hnodup ?_).length_le
    intro j hj
    obtain ⟨i, hi, rfl⟩ := List.mem_map.1 hj
    obtain ⟨hmem, hinherits⟩ := hheir i hi
    simpa using ⟨hmem, i, (List.mem_filter.1 hi).1, hinherits⟩
  unfold introduced removed
  omega

end Follow

theorem exists_of_introduced_eq_nil {m m' : Module} (h : introduced follow a b = []) (hm : m ∈ b.modules)
    (hm' : m' ∈ b.modules) (hne : m ≠ m') (hsame : m.identifier = m'.identifier) :
    ∃ m₀ ∈ a.modules, ∃ m₁ ∈ a.modules, follow m₀.path = m.path ∧ follow m₁.path = m'.path ∧
      m₀.identifier = m₁.identifier := by
  have hall := List.filter_eq_nil_iff.1 h m.identifier (mem_repeated_of_ne hm hm' hne hsame)
  simp only [decide_eq_true_eq, not_not] at hall
  obtain ⟨i, -, hinherits⟩ := hall
  obtain ⟨m₀, hm₀, hi, hplace⟩ := hinherits m hm rfl
  obtain ⟨m₁, hm₁, hi', hplace'⟩ := hinherits m' hm' hsame.symm
  exact ⟨m₀, hm₀, m₁, hm₁, hplace, hplace', hi.trans hi'.symm⟩

end Snapshot

theorem duplicates_le_of_checkConsistency {t : FileTree} {search : SearchPath}
    {renamed? : Option (String × String)} {before after : Surveyed}
    (h : checkConsistency t search renamed? before after = .ok ()) :
    after.survey.duplicates ≤ before.survey.duplicates := by
  unfold checkConsistency at h
  split at h
  · cases h
  · next hlt => exact Nat.le_of_not_lt hlt

theorem collisions_of_step {r : Runner} {x : Transformation} {s s' : Session} {o : Outcome}
    (h : r.step x s = .ok o s') (happlied : o.isApplied = true) :
    ∃ later, s'.snapshot.refresh s'.tree = .ok later ∧
      (r.mode ≠ .interactive → s'.snapshot = s.snapshot) ∧
      ∀ follow : Path → Path, (∀ m₀ ∈ s'.snapshot.modules, ∀ m₁ ∈ s'.snapshot.modules,
          follow m₀.path = follow m₁.path → m₀ = m₁) →
        (s'.snapshot.introduced follow later).length ≤ (s'.snapshot.removed follow later).length ∧
        (s'.snapshot.removed follow later = [] → ∀ m ∈ later.modules, ∀ m' ∈ later.modules, m ≠ m' →
          m.identifier = m'.identifier → ∃ m₀ ∈ s'.snapshot.modules, ∃ m₁ ∈ s'.snapshot.modules,
            follow m₀.path = m.path ∧ follow m₁.path = m'.path ∧ m₀.identifier = m₁.identifier) := by
  obtain ⟨cs, t, hcarry⟩ := exists_carryOut_of_step h happlied
  obtain ⟨n, later, -, hlater, hcheck⟩ := exists_of_carryOut_ok hcarry
  have hduplicates : later.duplicates.length ≤ s'.snapshot.duplicates.length :=
    duplicates_le_of_checkConsistency hcheck
  refine ⟨later, hlater, fun hmode => snapshot_of_step hmode h, fun follow hfollow => ?_⟩
  have hle := Snapshot.length_introduced_le hfollow hduplicates
  refine ⟨hle, fun hnone m hm m' hm' hne hsame => ?_⟩
  rw [hnone] at hle
  exact Snapshot.exists_of_introduced_eq_nil (List.length_eq_zero_iff.1 (Nat.le_zero.1 hle)) hm hm' hne hsame

namespace Twins

def tree : FileTree :=
  ⟨.dir [("a", .dir [("__init__.py", .file "".toUTF8)]), ("a.py", .file "".toUTF8),
    ("app", .dir [("__init__.py", .file "".toUTF8), ("a.py", .file "".toUTF8)])], []⟩

def snapshot : Snapshot :=
  ⟨⟨"/"⟩, .standard, [], [⟨"a", ⟨"a/__init__.py"⟩⟩, ⟨"a", ⟨"a.py"⟩⟩, ⟨"app", ⟨"app/__init__.py"⟩⟩,
    ⟨"app.a", ⟨"app/a.py"⟩⟩]⟩

def later : Snapshot :=
  ⟨⟨"/"⟩, .standard, [], [⟨"a", ⟨"a.py"⟩⟩, ⟨"app", ⟨"app/__init__.py"⟩⟩,
    ⟨"app.a", ⟨"app/a/__init__.py"⟩⟩, ⟨"app.a", ⟨"app/a.py"⟩⟩]⟩

def module : TopLevelModule :=
  ⟨"a", ⟨"a"⟩, true⟩

def changes : ChangeSet :=
  ⟨"Move module <a> to <app.a>", [.move ⟨"a"⟩ ⟨"app/a"⟩]⟩

def follow (p : Path) : Path :=
  if p = ⟨"a/__init__.py"⟩ then ⟨"app/a/__init__.py"⟩ else p

theorem repeated_snapshot : snapshot.repeated = ["a"] := by
  have hnames : sortedNames snapshot.identifiers = ["a", "app", "app.a"] :=
    sortedNames_eq (by decide) (by simp [snapshot, Snapshot.identifiers])
  rw [Snapshot.repeated, hnames]
  decide +kernel

def tree' : FileTree :=
  ⟨.dir [("a.py", .file "".toUTF8), ("app", .dir [("__init__.py", .file "".toUTF8),
    ("a", .dir [("__init__.py", .file "".toUTF8)]), ("a.py", .file "".toUTF8)])], []⟩

theorem apply_changes : changes.apply ⟨"/"⟩ tree = .ok 1 tree' :=
  rfl

theorem refresh_tree' : snapshot.refresh tree' = .ok later :=
  rfl

theorem planMove_tree : Python.planMove tree snapshot module "app" = .ok changes :=
  eq_ok_of_toOption (by decide +kernel)

theorem repeated_later : later.repeated = ["app.a"] := by
  have hnames : sortedNames later.identifiers = ["a", "app", "app.a"] :=
    sortedNames_eq (by decide) (by simp [later, Snapshot.identifiers])
  rw [Snapshot.repeated, hnames]
  decide +kernel

theorem carryOut_tree : SelfImport.runner.carryOut snapshot (.moveModule module "app") changes tree =
    .ok () tree' := by
  have hduplicates : later.duplicates.length ≤ snapshot.duplicates.length := by
    rw [Snapshot.length_duplicates, Snapshot.length_duplicates, repeated_snapshot, repeated_later]
    exact le_rfl
  have himports : (Survey.capture Python.analyzer tree' later).imports = [] := by decide +kernel
  refine carryOut_of_checks apply_changes refresh_tree' rfl (checkConsistency_ok hduplicates ?_)
  change ∀ name ∈ (Survey.capture Python.analyzer tree' later).imports, _
  simp [himports]

end Twins

theorem collisions_of_step_twins :
    ∃ s', SelfImport.runner.step (.moveModule Twins.module "app")
        ⟨Twins.tree, Twins.snapshot, Operator.scripted [] [], []⟩ =
          .ok (.applied Twins.changes.description) s' ∧
      s'.snapshot.refresh s'.tree = .ok Twins.later ∧
      Twins.snapshot.introduced Twins.follow Twins.later = ["app.a"] ∧
      Twins.snapshot.removed Twins.follow Twins.later = ["a"] ∧
      (Twins.snapshot.introduced Twins.follow Twins.later).length ≤
        (Twins.snapshot.removed Twins.follow Twins.later).length := by
  have hstep := step_of_carryOut (r := SelfImport.runner) (x := .moveModule Twins.module "app")
    (s := ⟨Twins.tree, Twins.snapshot, Operator.scripted [] [], []⟩) (by decide) Twins.planMove_tree
    Twins.carryOut_tree
  have hfollow : ∀ m₀ ∈ Twins.snapshot.modules, ∀ m₁ ∈ Twins.snapshot.modules,
      Twins.follow m₀.path = Twins.follow m₁.path → m₀ = m₁ := by decide +kernel
  obtain ⟨later, hlater, -, hcollisions⟩ := collisions_of_step hstep rfl
  obtain rfl : Twins.later = later := Except.ok.inj (Twins.refresh_tree'.symm.trans hlater)
  refine ⟨_, hstep, hlater, ?_, ?_, (hcollisions Twins.follow hfollow).1⟩
  · rw [Snapshot.introduced, Twins.repeated_later, Twins.repeated_snapshot]
    decide +kernel
  · rw [Snapshot.removed, Twins.repeated_later, Twins.repeated_snapshot]
    decide +kernel

def LiesIn (old name : String) : Prop :=
  name = old ∨ ∃ rest, name = old ++ "." ++ rest

theorem carry_of_not_liesIn {old new name : String} (h : ¬LiesIn old name) :
    carry (some (old, new)) name = name :=
  carry_of_not_begins fun hbegins => h (segmentsOf_prefix_iff.1 hbegins)

def Reports (verdict : Except Error Unit) (name : String) : Prop :=
  ∃ names, verdict = .error (.validation (.unresolved names)) ∧ name ∈ names

namespace Runner

variable {r : Runner} {x : Transformation} {a b : Snapshot} {t t' : FileTree} {cs : ChangeSet}
  {n : Nat} {s s₁ : Session} {name : String} {root : Path} {l : Layout} {excludes : List Glob}

structure Dangles (r : Runner) (t : FileTree) (a : Snapshot) (name : String) : Prop where
  imported : name ∈ (Survey.capture r.analyzer t a).imports
  unresolved : a.resolves t r.search name = false

def Excused (r : Runner) (x : Transformation) (t t' : FileTree) (a b : Snapshot) (name : String) :
    Prop :=
  ∃ y ∈ (Survey.capture r.analyzer t a).imports, rootOf y ∈ a.topLevelNames ++ b.topLevelNames ∧
    a.resolves t' r.search y = false ∧ carry x.renamed? y = name

theorem mem_dangling {u : FileTree} {watched : List String} :
    name ∈ (Survey.capture r.analyzer u a).dangling t a r.search watched ↔
      name ∈ (Survey.capture r.analyzer u a).imports ∧ rootOf name ∈ watched ∧
        a.resolves t r.search name = false := by
  rw [Survey.dangling, List.mem_filter, List.mem_filter, List.contains_iff_mem, Bool.not_eq_true',
    and_assoc]
  rfl

def blamed (r : Runner) (x : Transformation) (t t' : FileTree) (a b : Snapshot) : List String :=
  freshlyDangling t' r.search x.renamed? ⟨a, Survey.capture r.analyzer t a⟩
    ⟨b, Survey.capture r.analyzer t' b⟩

theorem mem_blamed : name ∈ r.blamed x t t' a b ↔
    r.Dangles t' b name ∧ rootOf name ∈ a.topLevelNames ++ b.topLevelNames ∧
      ¬r.Excused x t t' a b name := by
  have hknown : name ∈ ((Survey.capture r.analyzer t a).dangling t' a r.search
      (a.topLevelNames ++ b.topLevelNames)).map (carry x.renamed?) ↔ r.Excused x t t' a b name := by
    simp only [Excused, List.mem_map, mem_dangling, and_assoc]
  refine List.mem_filter.trans ?_
  rw [Bool.not_eq_true', ← Bool.not_eq_true, List.contains_iff_mem]
  refine (and_congr mem_dangling (not_congr hknown)).trans ?_
  constructor
  · rintro ⟨⟨himported, hwatched, hunresolved⟩, hnew⟩
    exact ⟨⟨himported, hunresolved⟩, hwatched, hnew⟩
  · rintro ⟨⟨himported, hunresolved⟩, hwatched, hnew⟩
    exact ⟨⟨himported, hwatched, hunresolved⟩, hnew⟩

theorem comparison_of_lt (h : a.duplicates.length < b.duplicates.length) :
    r.comparison x t t' a b = .error (.validation (.duplicates b.duplicates)) :=
  if_pos h

theorem comparison_of_le (h : b.duplicates.length ≤ a.duplicates.length) :
    r.comparison x t t' a b =
      match sortedNames (r.blamed x t t' a b) with
      | [] => .ok ()
      | names => .error (.validation (.unresolved names)) :=
  if_neg (Nat.not_lt.2 h)

theorem reports_iff : Reports (r.comparison x t t' a b) name ↔
    b.duplicates.length ≤ a.duplicates.length ∧ name ∈ r.blamed x t t' a b := by
  rw [← (sorted_sortedNames _).2]
  obtain hlt | hle := Nat.lt_or_ge a.duplicates.length b.duplicates.length
  · rw [comparison_of_lt hlt]
    simp [Reports, Nat.not_le.2 hlt]
  · rw [comparison_of_le hle]
    cases sortedNames (r.blamed x t t' a b) with
    | nil => simp [Reports]
    | cons y ys => simp [Reports, hle]

theorem comparison_eq_ok_iff : r.comparison x t t' a b = .ok () ↔
    b.duplicates.length ≤ a.duplicates.length ∧ ∀ name, name ∉ r.blamed x t t' a b := by
  simp only [← (sorted_sortedNames (r.blamed x t t' a b)).2, ← List.eq_nil_iff_forall_not_mem]
  obtain hlt | hle := Nat.lt_or_ge a.duplicates.length b.duplicates.length
  · rw [comparison_of_lt hlt]
    simp [Nat.not_le.2 hlt]
  · rw [comparison_of_le hle]
    cases sortedNames (r.blamed x t t' a b) with
    | nil => simp [hle]
    | cons y ys => simp

theorem Dangles.excused (h : r.Dangles t a name) (h' : r.Dangles t' b name) (hb : a.refresh t' = .ok b)
    (hwatched : rootOf name ∈ a.topLevelNames ++ b.topLevelNames) (hcarry : carry x.renamed? name = name) :
    r.Excused x t t' a b name := by
  obtain ⟨-, hlayout, -, -⟩ := Snapshot.capture_ok hb
  have hholds := h.unresolved
  have hsearch := h'.unresolved
  rw [Snapshot.resolves, Bool.or_eq_false_iff] at hholds hsearch
  refine ⟨name, h.imported, hwatched, ?_, hcarry⟩
  rw [Snapshot.resolves, hholds.1, Bool.false_or, ← hlayout, hsearch.2]

theorem carryOut_of_empty (hx : ∀ m destination, x ≠ .moveModule m destination)
    (ha : Snapshot.capture t root l excludes = .ok a) (h : cs.changes = []) :
    r.carryOut a x cs t = TreeM.ofExcept (r.comparison x t t a a) t := by
  have hrefresh : a.refresh t = .ok a := (refresh_of_capture ha t).trans ha
  rw [carryOut_of_apply (ChangeSet.apply_of_empty a.root t h) hrefresh]
  cases x with
  | renameExternal | convertToPackage => rfl
  | moveModule m destination => exact absurd rfl (hx m destination)

section Empty

variable (hx : ∀ m destination, x ≠ .moveModule m destination) (hquiet : s.operator.Quiet)
  (hcapture : Snapshot.capture s.tree root l excludes = .ok s.snapshot)
  (hchanges : x.changes r.analyzer s.tree s.snapshot = .ok cs) (hempty : cs.changes = [])

include hx hquiet hcapture hchanges hempty

theorem comparison_of_step {o : Outcome} {s' : Session} (h : r.step x s = .ok o s')
    (happlied : o.isApplied = true) : r.comparison x s.tree s.tree s.snapshot s.snapshot = .ok () := by
  have hsame {a : Snapshot} (ha : Snapshot.capture s.tree root l excludes = .ok a) : a = s.snapshot :=
    Except.ok.inj (ha.symm.trans hcapture)
  obtain ⟨t, cs', rfl, ha, -, hchanges', hcarry⟩ := carryOut_of_step (I := (· = s.tree))
    (J := fun t a => Snapshot.capture t root l excludes = .ok a)
    (fun t t' a b ha _ hb => (refresh_of_capture ha t).symm.trans hb) hquiet hcapture rfl h
    (fun t a cs' t' ht ha _ hchanges' hw => by
      subst ht
      obtain rfl := hsame ha
      obtain rfl := Except.ok.inj (hchanges.symm.trans hchanges')
      rw [Writes, ChangeSet.apply_of_empty _ _ hempty] at hw
      obtain ⟨n, hw⟩ | ⟨e, hw⟩ := hw
      · cases hw
        rfl
      · cases hw) happlied
  rw [hsame ha] at hchanges' hcarry
  obtain rfl := Except.ok.inj (hchanges.symm.trans hchanges')
  rw [carryOut_of_empty hx hcapture hempty] at hcarry
  cases hcheck : r.comparison x s.tree s.tree s.snapshot s.snapshot with
  | ok => rfl
  | error e =>
    rw [hcheck] at hcarry
    cases hcarry

theorem step_of_comparison
    (hdecide : r.decide cs (s.note (.planning x s.tree s.snapshot)) = .ok .apply s₁)
    (h : r.comparison x s.tree s.tree s.snapshot s.snapshot = .ok ()) :
    ∃ s', r.step x s = .ok (.applied cs.description) s' ∧ s'.tree = s.tree := by
  have hfollows := r.follows_decide
    (s := s.note (.planning x s.tree s.snapshot)) hquiet cs
  rw [hdecide] at hfollows
  have htree : s₁.tree = s.tree := hfollows.tree
  have hsnapshot : s₁.snapshot = s.snapshot := hfollows.snapshot
  have hcarry : r.carryOut s₁.snapshot x cs s₁.tree = .ok () s.tree := by
    rw [htree, hsnapshot, carryOut_of_empty hx hcapture hempty, h]
    rfl
  exact ⟨_, step_of_decide hchanges hdecide hcarry, rfl⟩

end Empty

theorem comparison_of_same (ha : Snapshot.capture t root l excludes = .ok a) :
    r.comparison x t t a a = .ok () ↔ ∀ old new name, x.renamed? = some (old, new) → LiesIn old name →
      r.Dangles t a name → rootOf name ∈ a.topLevelNames → r.Excused x t t a a name := by
  have hrefresh : a.refresh t = .ok a := (refresh_of_capture ha t).trans ha
  rw [comparison_eq_ok_iff, and_iff_right le_rfl]
  constructor
  · intro h old new name _ _ hdangles hroot
    by_contra hexcused
    exact h name (mem_blamed.2 ⟨hdangles, List.mem_append_left _ hroot, hexcused⟩)
  · intro h name hname
    obtain ⟨hdangles, hroot, hexcused⟩ := mem_blamed.1 hname
    have hwatched : rootOf name ∈ a.topLevelNames := (List.mem_append.1 hroot).elim id id
    cases hrenamed : x.renamed? with
    | none => exact hexcused (hdangles.excused hdangles hrefresh hroot (by rw [hrenamed]; rfl))
    | some names =>
      obtain ⟨old, new⟩ := names
      by_cases hlies : LiesIn old name
      · exact hexcused (h old new name hrenamed hlies hdangles hwatched)
      · exact hexcused (hdangles.excused hdangles hrefresh hroot
          (by rw [hrenamed, carry_of_not_liesIn hlies]))

end Runner

theorem old_dangling_blamed_iff {r : Runner} {x : Transformation} {s : Session} {cs : ChangeSet}
    {root : Path} {l : Layout} {excludes : List Glob} (hquiet : s.operator.Quiet)
    (hcapture : Snapshot.capture s.tree root l excludes = .ok s.snapshot)
    (hchanges : x.changes r.analyzer s.tree s.snapshot = .ok cs) :
    (∀ n t' b name, cs.apply s.snapshot.root s.tree = .ok n t' → s.snapshot.refresh t' = .ok b →
      r.Dangles s.tree s.snapshot name → r.Dangles t' b name →
      (Reports (r.comparison x s.tree t' s.snapshot b) name ↔
        b.duplicates.length ≤ s.snapshot.duplicates.length ∧
          rootOf name ∈ s.snapshot.topLevelNames ++ b.topLevelNames ∧
          (∃ old new, x.renamed? = some (old, new) ∧ LiesIn old name) ∧
          ¬r.Excused x s.tree t' s.snapshot b name)) ∧
    ∀ s₁, (∀ m destination, x ≠ .moveModule m destination) → cs.changes = [] →
      r.decide cs (s.note (.planning x s.tree s.snapshot)) = .ok .apply s₁ →
      ((∃ o s', r.step x s = .ok o s' ∧ o.isApplied = true ∧ s'.tree = s.tree) ↔
        ∀ old new name, x.renamed? = some (old, new) → LiesIn old name →
          r.Dangles s.tree s.snapshot name → rootOf name ∈ s.snapshot.topLevelNames →
          r.Excused x s.tree s.tree s.snapshot s.snapshot name) := by
  constructor
  · intro n t' b name _ hb hbefore hafter
    rw [reports_iff, mem_blamed, and_iff_right hafter]
    refine and_congr_right fun _ => and_congr_right fun hroot => ?_
    rw [iff_and_self]
    intro hexcused
    cases hrenamed : x.renamed? with
    | none => exact absurd (hbefore.excused hafter hb hroot (by rw [hrenamed]; rfl)) hexcused
    | some names =>
      obtain ⟨old, new⟩ := names
      refine ⟨old, new, rfl, by_contra fun hlies => hexcused ?_⟩
      exact hbefore.excused hafter hb hroot (by rw [hrenamed, carry_of_not_liesIn hlies])
  · intro s₁ hx hempty hdecide
    rw [← comparison_of_same hcapture]
    constructor
    · rintro ⟨o, s', hstep, happlied, -⟩
      exact comparison_of_step hx hquiet hcapture hchanges hempty hstep happlied
    · intro hcheck
      obtain ⟨s', hstep, htree⟩ :=
        step_of_comparison hx hquiet hcapture hchanges hempty hdecide hcheck
      exact ⟨_, s', hstep, rfl, htree⟩

namespace Stale

def tree : FileTree :=
  ⟨.dir [("a.py", .file "".toUTF8), ("b.py", .file "import a.missing\n".toUTF8)], []⟩

def snapshot : Snapshot :=
  ⟨⟨"/"⟩, .standard, [], [⟨"a", ⟨"a.py"⟩⟩, ⟨"b", ⟨"b.py"⟩⟩]⟩

def rename : Transformation :=
  .renameExternal "a" "c" "nothing"

def changes : ChangeSet :=
  ⟨"Rename module <a> to <c>", []⟩

theorem imports_tree : (Survey.capture Python.analyzer tree snapshot).imports = ["a.missing"] := by
  decide +kernel

theorem changes_rename : rename.changes Python.analyzer tree snapshot = .ok changes :=
  eq_ok_of_toOption (by decide +kernel)

theorem topLevelNames_snapshot : snapshot.topLevelNames = ["a", "b"] := by
  change sortedNames ["a", "b"] = ["a", "b"]
  exact sortedNames_eq (by decide) fun _ => Iff.rfl

theorem dangles_tree : SelfImport.runner.Dangles tree snapshot "a.missing" where
  imported := by
    change "a.missing" ∈ (Survey.capture Python.analyzer tree snapshot).imports
    simp [imports_tree]
  unresolved := by decide +kernel

theorem not_excused : ¬SelfImport.runner.Excused rename tree tree snapshot snapshot "a.missing" := by
  rintro ⟨y, hy, -, -, hcarry⟩
  change y ∈ (Survey.capture Python.analyzer tree snapshot).imports at hy
  rw [imports_tree, List.mem_singleton] at hy
  subst hy
  revert hcarry
  decide +kernel

end Stale

theorem old_dangling_blamed_stale :
    Snapshot.capture Stale.tree ⟨"/"⟩ .standard [] = .ok Stale.snapshot ∧
      Stale.rename.changes Python.analyzer Stale.tree Stale.snapshot = .ok Stale.changes ∧
      SelfImport.runner.Dangles Stale.tree Stale.snapshot "a.missing" ∧
      Reports (SelfImport.runner.comparison Stale.rename Stale.tree Stale.tree Stale.snapshot
        Stale.snapshot) "a.missing" ∧
      ¬∃ o s', SelfImport.runner.step Stale.rename
        ⟨Stale.tree, Stale.snapshot, Operator.scripted [] [], []⟩ = .ok o s' ∧
          o.isApplied = true ∧ s'.tree = Stale.tree := by
  have hroot : rootOf "a.missing" ∈ Stale.snapshot.topLevelNames := by
    rw [Stale.topLevelNames_snapshot]
    decide +kernel
  have hlies : LiesIn "a" "a.missing" := .inr ⟨"missing", rfl⟩
  have hcapture : Snapshot.capture Stale.tree ⟨"/"⟩ .standard [] = .ok Stale.snapshot := rfl
  obtain ⟨hreports, happlied⟩ := old_dangling_blamed_iff (r := SelfImport.runner)
    (s := ⟨Stale.tree, Stale.snapshot, Operator.scripted [] [], []⟩)
    (Operator.quiet_scripted [] []) hcapture Stale.changes_rename
  refine ⟨hcapture, Stale.changes_rename, Stale.dangles_tree, ?_, fun hstep => ?_⟩
  · refine (hreports 0 Stale.tree Stale.snapshot "a.missing" rfl rfl Stale.dangles_tree
      Stale.dangles_tree).2 ⟨le_rfl, List.mem_append_left _ hroot, ⟨"a", "c", rfl, hlies⟩, Stale.not_excused⟩
  · exact Stale.not_excused ((happlied _ (by simp [Stale.rename]) rfl rfl).1 hstep "a" "c" "a.missing" rfl
      hlies Stale.dangles_tree hroot)

end Reroot

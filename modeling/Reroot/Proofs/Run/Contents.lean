import Reroot.Proofs.Path.Order
import Reroot.Proofs.Project.Markers
import Reroot.Proofs.Run.References

namespace Reroot

open FileTree Scan
open Reroot.Path (IsName)

theorem map_eraseRepsBy {α β : Type} [LinearOrder β] {r : α → α → Bool} {f : α → β}
    (hr : ∀ a b, r a b = true ↔ f a = f b) (as : List α) :
    (as.eraseRepsBy r).map f = (as.map f).eraseReps := by
  have hloop : ∀ (as acc : List α) (a : α), (List.eraseRepsBy.loop r a as acc).map f =
      List.eraseRepsBy.loop (· == ·) (f a) (as.map f) (acc.map f) := by
    intro as
    induction as with
    | nil => simp [List.eraseRepsBy.loop]
    | cons b as ih =>
      intro acc a
      have hab : r a b = (f a == f b) := by rw [Bool.eq_iff_iff, hr, beq_iff_eq]
      rw [List.eraseRepsBy.loop, List.map_cons, List.eraseRepsBy.loop, hab]
      cases f a == f b
      · exact ih (a :: acc) b
      · exact ih acc a
  cases as with
  | nil => rfl
  | cons a as => exact hloop as [] a

theorem Snapshot.pairwise_sortedPaths (ps : List Path) :
    (sortedPaths ps).Pairwise fun p q => p.key < q.key := by
  have hmerged : (ps.mergeSort Path.le).Pairwise fun p q => p.le q = true := by
    refine List.pairwise_mergeSort (fun p q r hpq hqr => ?_) (fun p q => ?_) ps
    · exact Path.le_iff.2 ((Path.le_iff.1 hpq).trans (Path.le_iff.1 hqr))
    · rw [Bool.or_eq_true, Path.le_iff, Path.le_iff]
      exact le_total _ _
  have hsorted : ((ps.mergeSort Path.le).map Path.key).Pairwise (· ≤ ·) :=
    List.pairwise_map.2 (hmerged.imp Path.le_iff.1)
  rw [sortedPaths, ← List.pairwise_map, map_eraseRepsBy Path.samePlace_iff]
  exact (eraseReps_of_sorted hsorted).1

namespace Snapshot

variable {t : FileTree} {root : Path} {l : Layout} {excludes : List Glob} {s : Snapshot}

theorem rootAt_of_filesBelow {fs : List (List String)} (h : filesBelow t root = .ok fs) (hne : fs ≠ []) :
    ∃ base, t.RootAt root base := by
  unfold filesBelow at h
  split at h
  · cases h
  · next es he =>
    obtain ⟨names, hresolve⟩ := entry?_ok he
    obtain ⟨hroot, hwalks⟩ := walks_of_resolve hresolve
    exact ⟨names, es, resolve_of_walks hroot (hwalks.of_not_link nofun)⟩
  · exact absurd (Except.ok.inj h).symm hne
  · split at h
    · cases h
    · next es he =>
      obtain ⟨names, hresolve⟩ := entry?_ok he
      exact ⟨names, es, hresolve⟩
    · exact absurd (Except.ok.inj h).symm hne

theorem isBelow_of_capture (htidy : t.top.Tidy) (h : capture t root l excludes = .ok s) :
    ∀ m ∈ s.modules, Plan.IsBelow m.path := by
  intro m hm
  obtain ⟨fs, hfs, hmodules⟩ := filesBelow_of_capture h
  obtain ⟨base, hroot⟩ := rootAt_of_filesBelow hfs (by rintro rfl; simp [hmodules] at hm)
  obtain ⟨q, hq, -, hpath⟩ := (indexes_of_capture htidy hroot h).exists_file hm
  exact ⟨q, hq.1, isName_of_mem_filesUnder htidy hq, hpath⟩

end Snapshot

namespace Plan

variable {t : FileTree} {s : Snapshot} {package : QualifiedName} {m : TopLevelModule}

structure Converts (t : FileTree) (s : Snapshot) (package : QualifiedName) (ds : List (List String)) :
    Prop where
  mem : ∀ ns, ns ∈ ds ↔ IsWanted s package ns ∧ s.hasMarker t (Path.ofNames ns) = false
  increasing : ds.Pairwise (· < ·)
  outer_first : ds.Pairwise fun ns later => ¬later <+: ns

theorem not_isPrefix_of_lt {ns ps : List String} (h : ns < ps) : ¬ps <+: ns := by
  rintro ⟨rest, rfl⟩
  exact List.le_append_left h

theorem exists_converts (t : FileTree) (package : QualifiedName) (hs : ∀ m ∈ s.modules, IsBelow m.path) :
    ∃ ds, directories t s package = ds.map Path.ofNames ∧ Converts t s package ds := by
  have hnames {ns : List String} (hns : IsWanted s package ns) : ∀ n ∈ ns, IsName n := hns.isName hs
  have hspelled : ∀ d ∈ directories t s package, Path.ofNames d.pieces = d ∧ IsWanted s package d.pieces ∧
      s.hasMarker t d = false := by
    intro d hd
    obtain ⟨hmarker, ns, hns, rfl⟩ := (mem_directories hs).1 hd
    rw [Path.pieces_ofNames (hnames hns)]
    exact ⟨rfl, hns, hmarker⟩
  have hincreasing : ((directories t s package).map Path.pieces).Pairwise (· < ·) := by
    refine List.pairwise_map.2 ((Snapshot.pairwise_sortedPaths _).imp_of_mem fun {d d'} hd hd' hlt => ?_)
    obtain ⟨heq, hd, -⟩ := hspelled d hd
    obtain ⟨heq', hd', -⟩ := hspelled d' hd'
    rw [← heq, ← heq'] at hlt
    exact (Path.key_ofNames_lt (hnames hd) (hnames hd')).1 hlt
  refine ⟨(directories t s package).map Path.pieces, ?_, fun ns => ?_, hincreasing,
    hincreasing.imp not_isPrefix_of_lt⟩
  · rw [List.map_map]
    conv_lhs => rw [← List.map_id (directories t s package)]
    exact List.map_congr_left fun d hd => (hspelled d hd).1.symm
  · rw [List.mem_map]
    constructor
    · rintro ⟨d, hd, rfl⟩
      obtain ⟨heq, hwanted, hmarker⟩ := hspelled d hd
      exact ⟨hwanted, by rwa [heq]⟩
    · rintro ⟨hwanted, hmarker⟩
      exact ⟨_, (mem_directories hs).2 ⟨hmarker, ns, hwanted, rfl⟩, Path.pieces_ofNames (hnames hwanted)⟩

def IsEntry (s : Snapshot) (m : TopLevelModule) : Prop :=
  ∃ front m₀ back k rest, s.modules = front ++ m₀ :: back ∧ (∀ y ∈ front, y.topLevel ≠ m.name) ∧
    m₀.topLevel = m.name ∧ m₀.path.pieces = k :: rest ∧ m.path = Path.ofNames [k] ∧
    (m.isPackage = true ↔ rest ≠ [])

structure Moves (s : Snapshot) (package : QualifiedName) (ms : List TopLevelModule) : Prop where
  entry : ∀ name ∈ s.topLevelNames, ∃! m, IsEntry s m ∧ m.name = name
  mem : ∀ m, m ∈ ms ↔ IsEntry s m ∧ m.name ∈ s.topLevelNames ∧ m.name ≠ package.first ∧
    s.isExcluded m.path = false
  increasing : ms.Pairwise fun m later => m.name < later.name

theorem find?_eq_some_iff {m₀ : Module} {name : String} :
    s.modules.find? (fun y => y.topLevel == name) = some m₀ ↔
      m₀.topLevel = name ∧ ∃ front back, s.modules = front ++ m₀ :: back ∧ ∀ y ∈ front, y.topLevel ≠ name := by
  simp [List.find?_eq_some_iff_append]

section Entries

variable (hs : ∀ m ∈ s.modules, IsBelow m.path)

include hs

theorem isEntry_iff : IsEntry s m ↔ ∃ m₀, s.modules.find? (fun y => y.topLevel == m.name) = some m₀ ∧
    m = ⟨m.name, Path.ofParts (m₀.path.parts.take 1), !m₀.isRootFile⟩ := by
  have hfirst {m₀ : Module} {k : String} {rest : List String} (hm₀ : m₀ ∈ s.modules)
      (hpieces : m₀.path.pieces = k :: rest) : Path.ofParts (m₀.path.parts.take 1) = Path.ofNames [k] ∧
        (m₀.isRootFile = true ↔ rest = []) := by
    obtain ⟨q, -, hnames, hpath⟩ := hs m₀ hm₀
    rw [hpath, Path.pieces_ofNames hnames] at hpieces
    subst hpieces
    have hparts : m₀.path.parts = (k :: rest).map .name := by rw [hpath, Path.parts_ofNames hnames]
    refine ⟨?_, by simp [Module.isRootFile, hparts]⟩
    rw [hparts, List.map_cons, List.take_succ_cons, List.take_zero]
    exact Path.ofParts_names [k]
  constructor
  · rintro ⟨front, m₀, back, k, rest, hmodules, hfront, hname, hpieces, hpath, hpackage⟩
    obtain ⟨hentry, hfile⟩ := hfirst (by simp [hmodules]) hpieces
    refine ⟨m₀, find?_eq_some_iff.2 ⟨hname, front, back, hmodules, hfront⟩, ?_⟩
    obtain ⟨name, path, isPackage⟩ := m
    rw [TopLevelModule.mk.injEq, hentry]
    refine ⟨rfl, hpath, ?_⟩
    rw [Bool.eq_iff_iff, Bool.not_eq_true', ← Bool.not_eq_true, hfile]
    exact hpackage
  · rintro ⟨m₀, hfind, hm⟩
    obtain ⟨hname, front, back, hmodules, hfront⟩ := find?_eq_some_iff.1 hfind
    have hmem : m₀ ∈ s.modules := List.mem_of_find?_eq_some hfind
    obtain ⟨q, hne, hnames, hpath⟩ := hs m₀ hmem
    obtain ⟨k, rest, rfl⟩ := List.exists_cons_of_ne_nil hne
    have hpieces : m₀.path.pieces = k :: rest := by rw [hpath, Path.pieces_ofNames hnames]
    obtain ⟨hentry, hfile⟩ := hfirst hmem hpieces
    refine ⟨front, m₀, back, k, rest, hmodules, hfront, hname, hpieces, ?_, ?_⟩
    · rw [hm, hentry]
    · rw [hm, Bool.not_eq_true', ← Bool.not_eq_true, hfile]

theorem mem_topLevelModules : m ∈ s.topLevelModules ↔ m.name ∈ s.topLevelNames ∧ IsEntry s m := by
  rw [Snapshot.topLevelModules, List.mem_filterMap, isEntry_iff hs]
  constructor
  · rintro ⟨name, hname, hm⟩
    split at hm
    · cases hm
    · next m₀ hfind =>
      cases hm
      exact ⟨hname, m₀, hfind, rfl⟩
  · rintro ⟨hname, m₀, hfind, hm⟩
    exact ⟨m.name, hname, by rw [hfind]; exact congrArg some hm.symm⟩

theorem moves_modulesToMove : Moves s package (modulesToMove s package) := by
  constructor
  · intro name hname
    obtain ⟨m₀, hm₀, hfirst⟩ := List.mem_map.1 ((sorted_sortedNames _).2 _ |>.1 hname)
    obtain ⟨m₁, hfind⟩ := Option.isSome_iff_exists.1
      (List.find?_isSome (p := fun y : Module => y.topLevel == name) |>.2 ⟨m₀, hm₀, by simpa using hfirst⟩)
    refine ⟨⟨name, _, _⟩, ⟨(isEntry_iff hs).2 ⟨m₁, hfind, rfl⟩, rfl⟩, fun m ⟨hm, heq⟩ => ?_⟩
    obtain ⟨m₂, hfind', hm⟩ := (isEntry_iff hs).1 hm
    rw [heq, hfind, Option.some.injEq] at hfind'
    rw [hm, heq, hfind']
  · intro m
    rw [modulesToMove, List.mem_filter, List.mem_filter, mem_topLevelModules hs, bne_iff_ne,
      Bool.not_eq_true']
    tauto
  · refine ((List.pairwise_filterMap.2 ((sorted_sortedNames _).1.imp ?_)).filter _).filter _
    intro name name' hlt m hm m' hm'
    split at hm
    · cases hm
    split at hm'
    · cases hm'
    cases hm
    cases hm'
    exact hlt

end Entries

end Plan

theorem plan_contents {t₀ : FileTree} {root : Path} {l : Layout} {excludes : List Glob} {s : Snapshot}
    (htidy : t₀.top.Tidy) (hcapture : Snapshot.capture t₀ root l excludes = .ok s) (t : FileTree)
    (name : String) (requests : List RenameRequest) :
    (∀ e, plan t s name requests = .error e ↔
      ∃ cause, QualifiedName.parse name = .error cause ∧ e = .invalidName cause) ∧
    ∀ package, QualifiedName.parse name = .ok package → ∃ ds ms,
      plan t s name requests = .ok ((requests.map fun r => .renameExternal r.oldName r.newName r.scope) ++
        ds.map (fun ns => .convertToPackage (Path.ofNames ns)) ++ ms.map (.moveModule · name)) ∧
      Plan.Converts t s package ds ∧ Plan.Moves s package ms := by
  have hs := Snapshot.isBelow_of_capture htidy hcapture
  constructor
  · intro e
    unfold plan
    cases QualifiedName.parse name with
    | error cause => simp [eq_comm]
    | ok package => simp
  · intro package hpackage
    obtain ⟨ds, hds, hconverts⟩ := Plan.exists_converts t package hs
    refine ⟨ds, Plan.modulesToMove s package, ?_, hconverts, Plan.moves_modulesToMove hs⟩
    unfold plan
    rw [hpackage]
    simp only [hds, List.map_map, QualifiedName.text_of_parse hpackage]
    rfl

theorem plan_contents_selfImport : ∃ ds ms,
    plan SelfImport.tree SelfImport.snapshot "p" [] = .ok
      (ds.map (fun ns => .convertToPackage (Path.ofNames ns)) ++ ms.map (.moveModule · "p")) ∧
    Plan.Converts SelfImport.tree SelfImport.snapshot SelfImport.target ds ∧
    Plan.Moves SelfImport.snapshot SelfImport.target ms :=
  (plan_contents SelfImport.tidy_tree SelfImport.capture_tree SelfImport.tree "p" []).2 SelfImport.target
    (QualifiedName.parse_text SelfImport.target)

end Reroot

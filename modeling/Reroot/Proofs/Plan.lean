import Reroot.Plan
import Reroot.Proofs.Python.Planning
import Reroot.Proofs.Change.Additions
import Mathlib.Data.String.Basic

namespace Reroot

theorem mem_of_mem_eraseRepsBy {α : Type} {r : α → α → Bool} {as : List α} {x : α}
    (h : x ∈ as.eraseRepsBy r) : x ∈ as := by
  have hloop : ∀ (as acc : List α) (a : α), x ∈ List.eraseRepsBy.loop r a as acc →
      x ∈ acc ∨ x = a ∨ x ∈ as := by
    intro as
    induction as with
    | nil =>
      intro acc a hx
      simp only [List.eraseRepsBy.loop, List.mem_reverse, List.mem_cons] at hx
      tauto
    | cons b as ih =>
      intro acc a hx
      simp only [List.eraseRepsBy.loop] at hx
      split at hx
      · have := ih acc a hx
        simp only [List.mem_cons]
        tauto
      · have := ih (a :: acc) b hx
        simp only [List.mem_cons] at this ⊢
        tauto
  cases as with
  | nil => cases h
  | cons a as =>
    have := hloop as [] a h
    simpa using this

theorem Snapshot.mem_of_mem_sortedPaths {ps : List Path} {p : Path} (h : p ∈ sortedPaths ps) :
    p ∈ ps :=
  List.mem_mergeSort.1 (mem_of_mem_eraseRepsBy h)

theorem eraseReps_of_sorted {α : Type} [LinearOrder α] {as : List α} (h : as.Pairwise (· ≤ ·)) :
    as.eraseReps.Pairwise (· < ·) ∧ ∀ x, x ∈ as.eraseReps ↔ x ∈ as := by
  -- What was kept so far stands below the element that is compared with the rest.
  have hloop : ∀ (as acc : List α) (a : α), (a :: as).Pairwise (· ≤ ·) → acc.Pairwise (· > ·) →
      (∀ x ∈ acc, x < a) → (List.eraseRepsBy.loop (· == ·) a as acc).Pairwise (· < ·) ∧
        ∀ x, x ∈ List.eraseRepsBy.loop (· == ·) a as acc ↔ x ∈ acc ∨ x = a ∨ x ∈ as := by
    intro as
    induction as with
    | nil =>
      intro acc a _ hacc hbelow
      refine ⟨List.pairwise_reverse.2 (List.pairwise_cons.2 ⟨fun x hx => hbelow x hx, hacc⟩), ?_⟩
      simp [List.eraseRepsBy.loop, or_comm]
    | cons b as ih =>
      intro acc a hsorted hacc hbelow
      obtain ⟨hfirst, hrest⟩ := List.pairwise_cons.1 hsorted
      rw [List.eraseRepsBy.loop]
      by_cases hab : a = b
      · subst hab
        obtain ⟨hpairwise, hmem⟩ := ih acc a hrest hacc hbelow
        simpa using ⟨hpairwise, hmem⟩
      · have hlt : a < b := lt_of_le_of_ne (hfirst b (by simp)) hab
        obtain ⟨hpairwise, hmem⟩ := ih (a :: acc) b hrest
          (List.pairwise_cons.2 ⟨fun x hx => hbelow x hx, hacc⟩)
          (List.forall_mem_cons.2 ⟨hlt, fun x hx => (hbelow x hx).trans hlt⟩)
        rw [beq_eq_false_iff_ne.2 hab]
        refine ⟨hpairwise, fun x => ?_⟩
        rw [hmem, List.mem_cons, List.mem_cons]
        tauto
  cases as with
  | nil => simp [List.eraseReps, List.eraseRepsBy]
  | cons a as =>
    obtain ⟨hpairwise, hmem⟩ := hloop as [] a h .nil (by simp)
    exact ⟨hpairwise, fun x => (hmem x).trans (by simp)⟩

theorem sorted_sortedNames (names : List String) :
    (sortedNames names).Pairwise (· < ·) ∧ ∀ x, x ∈ sortedNames names ↔ x ∈ names := by
  have hmerged : (names.mergeSort fun a b => decide (a ≤ b)).Pairwise fun a b =>
      decide (a ≤ b) = true := by
    refine List.pairwise_mergeSort (fun a b c hab hbc => ?_) (fun a b => ?_) names
    · simp only [decide_eq_true_eq] at hab hbc ⊢
      exact le_trans hab hbc
    · simpa using le_total a b
  have hsorted : (names.mergeSort fun a b => decide (a ≤ b)).Pairwise (· ≤ ·) := by
    simpa only [decide_eq_true_eq] using hmerged
  obtain ⟨hpairwise, hmem⟩ := eraseReps_of_sorted hsorted
  exact ⟨hpairwise, fun x => (hmem x).trans List.mem_mergeSort⟩

theorem sortedNames_eq {names xs : List String} (hxs : xs.Pairwise (· < ·))
    (h : ∀ x, x ∈ xs ↔ x ∈ names) : sortedNames names = xs := by
  obtain ⟨hsorted, hmem⟩ := sorted_sortedNames names
  have hperm : (sortedNames names).Perm xs :=
    (List.perm_ext_iff_of_nodup (hsorted.imp ne_of_lt) (hxs.imp ne_of_lt)).2 fun x =>
      (hmem x).trans (h x).symm
  exact hperm.eq_of_pairwise (fun _ _ _ _ hab hba => absurd hab (lt_asymm hba)) hsorted hxs

namespace Plan

open FileTree Scan Python

variable {t : FileTree} {root : Path} {l : Layout} {s : Snapshot} {package : QualifiedName}

def IsBelow (d : Path) : Prop :=
  ∃ ns, ns ≠ [] ∧ (∀ n ∈ ns, Path.IsName n) ∧ d = Path.ofNames ns

theorem isBelow_of_directories (hs : ∀ m ∈ s.modules, IsBelow m.path) :
    ∀ d ∈ directories t s package, IsBelow d := by
  intro d hd
  obtain hd | hd := List.mem_append.1 (Snapshot.mem_of_mem_sortedPaths hd)
  · have hd := Snapshot.mem_of_mem_sortedPaths (List.mem_filter.1 hd).1
    obtain ⟨m, hm, hd⟩ := List.mem_flatMap.1 hd
    obtain ⟨q, hne, hnames, hpath⟩ := hs m hm
    rw [hpath, Path.pieces_ofNames hnames] at hd
    obtain ⟨n, hn, rfl⟩ := List.mem_map.1 hd
    have hpos : n ≠ 0 := by
      rintro rfl
      rw [List.tail_range] at hn
      simp at hn
    refine ⟨q.take n, by simp [hpos, hne], fun m hm => hnames m (List.mem_of_mem_take hm), rfl⟩
  · obtain ⟨n, -, rfl⟩ := List.mem_map.1 (List.mem_filter.1 hd).1
    exact ⟨package.segments.take (n + 1), by simp [package.nonempty],
      fun m hm => package.isName m (List.mem_of_mem_take hm), rfl⟩

theorem isBelow_of_mem_directories (htidy : t.top.Tidy) (hs : s.IsOf t root l) :
    ∀ d ∈ directories t s package, IsBelow d := by
  refine isBelow_of_directories fun m hm => ?_
  obtain ⟨q, hq, -, -, hpath⟩ := hs.exists_file hm
  exact ⟨q, hq.1, isName_of_mem_filesUnder htidy hq, hpath⟩

def IsMarkerIn (W : List String → Prop) (marker : String) (q : List String) : Prop :=
  ∃ ns, W ns ∧ q = ns ++ [marker]

def IsInnerMarker (marker : String) (q : List String) : Prop :=
  ∃ ns, ns ≠ [] ∧ q = ns ++ [marker]

section Conversion

variable {ns : List String} (hne : ns ≠ []) (hnames : ∀ n ∈ ns ++ [s.layout.marker], Path.IsName n)

include hne hnames

theorem join_marker : (Path.ofNames ns).join ⟨s.layout.marker⟩ = Path.ofNames (ns ++ [s.layout.marker]) := by
  rw [← Path.ofNames_singleton s.layout.marker, Path.join_ofNames hne (by simp) (fun n hn => hnames n (List.mem_append_left _ hn))
    fun n hn => hnames n (List.mem_append_right _ hn)]

theorem putsAt_of_convert {W : List String → Prop} (hns : W ns) :
    ∀ c ∈ (s.planConversion t [Path.ofNames ns]).changes, c.PutsAt (IsMarkerIn W s.layout.marker) := by
  intro c hc
  obtain ⟨d, hd, rfl⟩ := List.mem_map.1 hc
  obtain rfl : d = Path.ofNames ns :=
    List.mem_singleton.1 (List.mem_filter.1 (Snapshot.mem_of_mem_sortedPaths hd)).1
  rw [join_marker hne hnames]
  exact ⟨Path.isPlain_ofNames (by simp) hnames, ns, hns, Path.pieces_ofNames hnames⟩

end Conversion

theorem putsAt_of_planConversion {t' : FileTree} {s' : Snapshot} {d : Path} (hd : IsBelow d)
    (hmarker : Path.IsName s'.layout.marker) :
    ∀ c ∈ (s'.planConversion t' [d]).changes, c.PutsAt (IsInnerMarker s'.layout.marker) := by
  obtain ⟨ns, hne, hnames, rfl⟩ := hd
  refine putsAt_of_convert (W := (· ≠ [])) hne ?_ hne
  simp only [List.forall_mem_append, List.forall_mem_singleton]
  exact ⟨hnames, hmarker⟩

theorem not_mem_topLevel (m : Module) : '.' ∉ m.topLevel.toList := by
  obtain ⟨rest, h⟩ := segmentsOf_eq_cons m.identifier
  rw [Module.topLevel, h, List.headD_cons]
  exact not_mem_rootOf _

theorem exists_entry_of_mem_modulesToMove (htidy : t.top.Tidy) (hs : s.IsOf t root l)
    (hmarker : Path.IsName l.marker) {m : TopLevelModule} (hm : m ∈ modulesToMove s package) :
    ∃ k, IsMovable m package k ∧ (k = l.marker → [l.marker] ∉ t.filesUnder root) := by
  obtain ⟨hm, -⟩ := List.mem_filter.1 hm
  obtain ⟨hm, houtside⟩ := List.mem_filter.1 hm
  obtain ⟨-, m₀, hm₀, htop, hentry⟩ := Snapshot.exists_of_mem_topLevelModules hm
  obtain ⟨q, hq, -, hat, hpath⟩ := hs.exists_file hm₀
  have hnames := isName_of_mem_filesUnder htidy hq
  obtain ⟨k, rest, rfl⟩ := List.exists_cons_of_ne_nil hq.1
  refine ⟨k, ⟨?_, hnames k (by simp), htop ▸ not_mem_topLevel m₀, ?_⟩, ?_⟩
  · rw [hentry, hpath, Path.parts_ofNames hnames, List.map_cons, List.take_succ_cons, List.take_zero]
    exact Path.ofParts_names [k]
  · exact fun heq => by simp [heq] at houtside
  · rintro rfl ⟨-, bytes, hview⟩
    obtain ⟨-, bytes', hview'⟩ := hq
    cases rest with
    | nil => exact Module.not_isAt_marker hmarker hat
    | cons n rest =>
      have hbelow : t.view (t.place root ++ [l.marker] ++ n :: rest) = none :=
        view_below_eq_none (by simp [hview]) (by simp)
      rw [List.append_assoc, List.singleton_append, hview'] at hbelow
      cases hbelow

end Plan

end Reroot

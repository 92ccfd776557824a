import Reroot.Project.Snapshot
import Reroot.Proofs.Files.Tidy

namespace Reroot

namespace Scan

open Entry

variable {e : Entry} {es : Listing} {names ns q : List String}

def IsVisible (q : List String) : Prop :=
  ∀ name ∈ q.dropLast, isSkipped name = false

theorem mem_filesIn : ns ∈ filesIn es names ↔
    ∃ a ∈ es, (a.2.isDir && isSkipped a.1) = false ∧ ns ∈ files a.2 (names ++ [a.1]) := by
  induction es with
  | nil => simp [filesIn]
  | cons a es ih =>
    obtain ⟨name, e⟩ := a
    rw [filesIn, List.mem_append, ih, List.exists_mem_cons_iff]
    by_cases h : (e.isDir && isSkipped name) = true
    · simp [h]
    · simp [h]

theorem isVisible_cons {name : String} :
    IsVisible (name :: q) ↔ (q ≠ [] → isSkipped name = false) ∧ IsVisible q := by
  unfold IsVisible
  cases q with
  | nil => simp
  | cons m q => simp

theorem IsVisible.append {front : List String} (hfront : ∀ name ∈ front, isSkipped name = false)
    (h : IsVisible q) : IsVisible (front ++ q) := by
  intro name hname
  by_cases hq : q = []
  · subst hq
    rw [List.append_nil] at hname
    exact hfront name (List.dropLast_subset front hname)
  · rw [List.dropLast_append_of_ne_nil hq] at hname
    exact (List.mem_append.1 hname).elim (hfront name) (h name)

theorem IsVisible.of_append {front : List String} (hq : q ≠ []) (h : IsVisible (front ++ q)) :
    IsVisible q := by
  intro name hname
  rw [IsVisible, List.dropLast_append_of_ne_nil hq] at h
  exact h name (List.mem_append_right _ hname)

theorem mem_files (h : e.Tidy) : ns ∈ files e names ↔
    ∃ q bytes, ns = names ++ q ∧ e.view q = some (.file bytes) ∧ IsVisible q := by
  induction h generalizing names with
  | file bytes =>
    rw [files, List.mem_singleton]
    constructor
    · rintro rfl
      exact ⟨[], bytes, by simp, by simp [shape], by simp [IsVisible]⟩
    · rintro ⟨q, bytes', rfl, hq, -⟩
      cases q with
      | nil => simp
      | cons => cases hq
  | link target =>
    rw [files]
    constructor
    · simp
    · rintro ⟨q, bytes', -, hq, -⟩
      cases q with
      | nil => simp [shape] at hq
      | cons => cases hq
  | @dir es sorted _ _ ih =>
    rw [files, mem_filesIn]
    constructor
    · rintro ⟨⟨name, x⟩, ha, hskip, hns⟩
      obtain ⟨q, bytes, rfl, hq, hvisible⟩ := (ih _ ha).1 hns
      refine ⟨name :: q, bytes, by simp, ?_, isVisible_cons.2 ⟨fun hne => ?_, hvisible⟩⟩
      · rw [view_dir_cons, find?_of_mem sorted ha]
        exact hq
      · obtain ⟨n, q', rfl⟩ := List.exists_cons_of_ne_nil hne
        have hsome : x.view (n :: q') ≠ none := fun hnone => by simp [hnone] at hq
        obtain ⟨fs, rfl⟩ := exists_dir_of_view_cons hsome
        exact hskip
    · rintro ⟨q, bytes, rfl, hq, hvisible⟩
      cases q with
      | nil => simp [shape] at hq
      | cons name q =>
        rw [view_dir_cons] at hq
        obtain ⟨x, hx, hq⟩ := Option.bind_eq_some_iff.1 hq
        obtain ⟨hskip, hvisible⟩ := isVisible_cons.1 hvisible
        refine ⟨(name, x), mem_of_find? hx, ?_,
          (ih _ (mem_of_find? hx)).2 ⟨q, bytes, by simp, hq, hvisible⟩⟩
        cases q with
        | nil =>
          rw [view_nil] at hq
          cases x with
          | file | link => rfl
          | dir => simp [shape] at hq
        | cons n q => simp [hskip (by simp)]

theorem pairwise_files (h : e.Tidy) : (files e names).Pairwise (· < ·) := by
  induction h generalizing names with
  | file bytes => simp [files]
  | link target => simp [files]
  | @dir es sorted proper below ih =>
    rw [files]
    induction es with
    | nil => simp [filesIn]
    | cons a es ihes =>
      obtain ⟨name, x⟩ := a
      obtain ⟨hfirst, hsorted⟩ := List.pairwise_cons.1 sorted
      rw [filesIn]
      refine List.pairwise_append.2 ⟨?_, ?_, ?_⟩
      · split
        · exact .nil
        · exact ih (name, x) (by simp)
      · exact ihes hsorted (fun a ha => proper a (by simp [ha]))
          (fun a ha => below a (by simp [ha])) fun a ha => ih a (by simp [ha])
      · intro ns hns ms hms
        split at hns
        · cases hns
        · obtain ⟨q, -, rfl, -⟩ := (mem_files (below (name, x) (by simp))).1 hns
          obtain ⟨⟨name', x'⟩, ha, -, hms⟩ := mem_filesIn.1 hms
          obtain ⟨q', -, rfl, -⟩ := (mem_files (below (name', x') (by simp [ha]))).1 hms
          rw [List.append_assoc, List.append_assoc]
          exact List.append_left_lt (List.cons_lt_cons_iff.2 (.inl (hfirst _ ha)))

end Scan

namespace FileTree

open Scan

variable {t : FileTree} {root : Path}

def filesUnder (t : FileTree) (root : Path) : Set (List String) :=
  { q | q ≠ [] ∧ ∃ bytes, t.view (t.place root ++ q) = some (.file bytes) }

theorem isName_of_mem_filesUnder (htidy : t.top.Tidy) {q : List String} (h : q ∈ t.filesUnder root) :
    ∀ n ∈ q, Path.IsName n := by
  obtain ⟨-, bytes, hview⟩ := h
  have hsome : t.top.view (t.place root ++ q) ≠ none := by
    change t.view (t.place root ++ q) ≠ none
    simp [hview]
  exact fun n hn => htidy.isName hsome n (List.mem_append_right _ hn)

theorem filesIn_iff {es : Entry.Listing} (hdir : (Entry.dir es).Tidy)
    (hview : ∀ q, t.view (t.place root ++ q) = (Entry.dir es).view q) :
    (filesIn es []).Nodup ∧ ∀ q, q ∈ filesIn es [] ↔ q ∈ t.filesUnder root ∧ IsVisible q := by
  have hnodup : (files (.dir es) []).Nodup :=
    (pairwise_files hdir).imp fun {ns ms} (hlt : ns < ms) => by
      rintro rfl
      exact List.lt_irrefl ns hlt
  refine ⟨by simpa [files] using hnodup, fun q => ?_⟩
  have hmem : q ∈ files (.dir es) [] ↔ _ := mem_files hdir
  rw [files] at hmem
  rw [hmem]
  constructor
  · rintro ⟨q, bytes, rfl, hq, hvisible⟩
    refine ⟨⟨?_, bytes, by rw [hview, hq]⟩, hvisible⟩
    rintro rfl
    simp [Entry.shape] at hq
  · rintro ⟨⟨-, bytes, hq⟩, hvisible⟩
    exact ⟨q, bytes, by simp, by rw [← hview, hq], hvisible⟩

theorem filesBelow_ok (hfree : t.top.LinkFree) (htidy : t.top.Tidy) {fs : List (List String)}
    (h : filesBelow t root = .ok fs) :
    fs.Nodup ∧ ∀ q, q ∈ fs ↔ q ∈ t.filesUnder root ∧ IsVisible q := by
  unfold filesBelow at h
  split at h
  · cases h
  · next es he =>
    cases h
    obtain ⟨names, hreach, hat⟩ := (entry?_eq_ok_iff hfree).1 he
    have hdir := (htidy.at? hat).2
    have hview (q : List String) : t.view (t.place root ++ q) = (Entry.dir es).view q := by
      rw [← hreach.eq_place, view, Entry.view, Entry.at?_append, hat]
      rfl
    exact filesIn_iff hdir hview
  · next bytes he =>
    cases h
    obtain ⟨names, hreach, hat⟩ := (entry?_eq_ok_iff hfree).1 he
    refine ⟨List.nodup_nil, fun q => ⟨by simp, ?_⟩⟩
    rintro ⟨⟨hne, bytes', hq⟩, -⟩
    have hsome : t.top.view (t.place root ++ q) ≠ none := by
      change t.view (t.place root ++ q) ≠ none
      simp [hq]
    have hdir := Entry.view_eq_dir_of_append hne hsome
    rw [← hreach.eq_place, Entry.view, hat] at hdir
    cases hdir
  · next target he =>
    obtain ⟨names, -, hat⟩ := (entry?_eq_ok_iff hfree).1 he
    refine absurd ?_ (hfree names target)
    rw [Entry.view, hat]
    rfl

end FileTree

namespace Module

open Reroot.Path (IsName)

variable {l : Layout} {names front : List String} {m : Module}

theorem names?_map (names : List String) : names? (names.map .name) = some names := by
  induction names with
  | nil => rfl
  | cons s names ih => rw [List.map_cons, names?, ih, Option.map_some]

theorem fileName?_of_parts {p : Path} (h : p.parts = names.map .name) :
    p.fileName? = names.getLast? := by
  rw [Path.fileName?, h, List.getLast?_map]
  cases names.getLast? <;> rfl

theorem fileName?_ofNames (h : ∀ s ∈ names, IsName s) :
    (Path.ofNames names).fileName? = names.getLast? :=
  fileName?_of_parts (Path.parts_ofNames h)

theorem isSource_congr {p q : Path} (h : p.fileName? = q.fileName?) : l.isSource p = l.isSource q := by
  rw [Layout.isSource, Layout.isSource, Path.extension?, Path.extension?, h]

theorem isSource_append (hne : names ≠ []) (hfront : ∀ s ∈ front, IsName s)
    (h : ∀ s ∈ names, IsName s) :
    l.isSource (Path.ofNames (front ++ names)) = l.isSource (Path.ofNames names) := by
  have hall : ∀ s ∈ front ++ names, IsName s := fun s hs =>
    (List.mem_append.1 hs).elim (hfront s) (h s)
  exact isSource_congr (by
    rw [fileName?_ofNames hall, fileName?_ofNames h, List.getLast?_append_of_ne_nil _ hne])

theorem segments?_of_parts {p : Path} (h : p.parts = names.map .name) :
    segments? l p = names.getLast?.bind fun file =>
      if file = l.marker then some names.dropLast
      else (stem? file l.extension).map fun stem => names.dropLast ++ [stem] := by
  rw [segments?, h, names?_map]
  change (names.getLast?.bind fun file => _) = _
  congr 1
  funext file
  split
  · rfl
  · cases stem? file l.extension <;> rfl

theorem segments?_ofNames (h : ∀ s ∈ names, IsName s) :
    segments? l (Path.ofNames names) = names.getLast?.bind fun file =>
      if file = l.marker then some names.dropLast
      else (stem? file l.extension).map fun stem => names.dropLast ++ [stem] :=
  segments?_of_parts (Path.parts_ofNames h)

theorem segments?_append (hne : names ≠ []) (hfront : ∀ s ∈ front, IsName s)
    (h : ∀ s ∈ names, IsName s) :
    segments? l (Path.ofNames (front ++ names)) =
      (segments? l (Path.ofNames names)).map (front ++ ·) := by
  have hall : ∀ s ∈ front ++ names, IsName s := fun s hs =>
    (List.mem_append.1 hs).elim (hfront s) (h s)
  rw [segments?_ofNames hall, segments?_ofNames h, List.getLast?_append_of_ne_nil _ hne,
    List.dropLast_append_of_ne_nil hne]
  cases names.getLast? with
  | none => rfl
  | some file =>
    simp only [Option.bind_some]
    split
    · rfl
    · cases stem? file l.extension <;> simp

def IsAt (l : Layout) (names : List String) : Prop :=
  ∃ m, ofRelative? l (Path.ofNames names) = some m

theorem ofRelative?_eq_some_iff {p : Path} : ofRelative? l p = some m ↔ l.isSource p = true ∧
    ∃ segments, segments? l p = some segments ∧ segments ≠ [] ∧ m = ⟨dotted segments, p⟩ := by
  unfold ofRelative?
  constructor
  · intro h
    split at h
    · next hsource =>
      split at h
      · cases h
      · next segments hne hsegments =>
        cases h
        exact ⟨hsource, segments, hsegments, fun hnil => hne hnil, rfl⟩
      · cases h
    · cases h
  · rintro ⟨hsource, segments, hsegments, hne, rfl⟩
    obtain ⟨s, rest, rfl⟩ := List.exists_cons_of_ne_nil hne
    rw [if_pos hsource, hsegments]

theorem path_of_ofRelative? {p : Path} (h : ofRelative? l p = some m) : m.path = p := by
  obtain ⟨-, segments, -, -, rfl⟩ := ofRelative?_eq_some_iff.1 h
  rfl

theorem isAt_iff : IsAt l names ↔ l.isSource (Path.ofNames names) = true ∧
    ∃ segments, segments? l (Path.ofNames names) = some segments ∧ segments ≠ [] := by
  unfold IsAt
  simp only [ofRelative?_eq_some_iff]
  constructor
  · rintro ⟨m, hsource, segments, hsegments, hne, -⟩
    exact ⟨hsource, segments, hsegments, hne⟩
  · rintro ⟨hsource, segments, hsegments, hne⟩
    exact ⟨_, hsource, segments, hsegments, hne, rfl⟩

theorem IsAt.append (hne : names ≠ []) (hfront : ∀ s ∈ front, IsName s) (h : ∀ s ∈ names, IsName s)
    (hat : IsAt l names) : IsAt l (front ++ names) := by
  obtain ⟨hsource, segments, hsegments, hsne⟩ := isAt_iff.1 hat
  refine isAt_iff.2 ⟨by rw [isSource_append hne hfront h, hsource], front ++ segments, ?_, ?_⟩
  · rw [segments?_append hne hfront h, hsegments, Option.map_some]
  · exact fun hnil => hsne (List.append_eq_nil_iff.1 hnil).2

theorem eq_marker_of_segments? (h : ∀ s ∈ names, IsName s)
    (hnil : segments? l (Path.ofNames names) = some []) : names = [l.marker] := by
  rw [segments?_ofNames h] at hnil
  obtain ⟨file, hfile, hsome⟩ := Option.bind_eq_some_iff.1 hnil
  obtain ⟨init, rfl⟩ := List.getLast?_eq_some_iff.1 hfile
  split at hsome
  · next hmarker =>
    rw [List.dropLast_concat, Option.some.injEq] at hsome
    rw [hsome, hmarker, List.nil_append]
  · obtain ⟨stem, -, hstem⟩ := Option.map_eq_some_iff.1 hsome
    simp at hstem

theorem IsAt.of_append (hne : names ≠ []) (hfront : ∀ s ∈ front, IsName s)
    (h : ∀ s ∈ names, IsName s) (hat : IsAt l (front ++ names)) :
    IsAt l names ∨ names = [l.marker] := by
  obtain ⟨hsource, segments, hsegments, -⟩ := isAt_iff.1 hat
  rw [isSource_append hne hfront h] at hsource
  rw [segments?_append hne hfront h] at hsegments
  obtain ⟨inner, hinner, -⟩ := Option.map_eq_some_iff.1 hsegments
  by_cases hnil : inner = []
  · exact .inr (eq_marker_of_segments? h (hnil ▸ hinner))
  · exact .inl (isAt_iff.2 ⟨hsource, inner, hinner, hnil⟩)

theorem not_isAt_marker (hmarker : IsName l.marker) : ¬IsAt l [l.marker] := by
  rintro hat
  obtain ⟨-, segments, hsegments, hne⟩ := isAt_iff.1 hat
  rw [segments?_ofNames (by simpa using hmarker)] at hsegments
  simp at hsegments
  exact hne hsegments

end Module

namespace Snapshot

open Scan

variable {t : FileTree} {root : Path} {l : Layout} {s : Snapshot}

structure IsOf (s : Snapshot) (t : FileTree) (root : Path) (l : Layout) : Prop where
  root_eq : s.root = root
  layout_eq : s.layout = l
  excludes_eq : s.excludes = []
  mem_modules : ∀ m, m ∈ s.modules ↔ ∃ q, q ∈ t.filesUnder root ∧ IsVisible q ∧
    Module.ofRelative? l (Path.ofNames q) = some m
  nodup : (s.modules.map (·.path)).Nodup

theorem exists_of_mem_topLevelModules {m : TopLevelModule} (h : m ∈ s.topLevelModules) :
    m.name ∈ s.topLevelNames ∧ ∃ m₀ ∈ s.modules, m₀.topLevel = m.name ∧
      m.path = Path.ofParts (m₀.path.parts.take 1) := by
  obtain ⟨name, hname, h⟩ := List.mem_filterMap.1 h
  split at h
  · cases h
  next m₀ hfind =>
  cases h
  exact ⟨hname, m₀, List.mem_of_find?_eq_some hfind, by simpa using List.find?_some hfind, rfl⟩

theorem nodup_paths {fs : List (List String)} (h : fs.Nodup)
    (hnames : ∀ q ∈ fs, ∀ n ∈ q, Path.IsName n) :
    ((fs.filterMap fun q => Module.ofRelative? l (Path.ofNames q)).map (·.path)).Nodup := by
  refine List.pairwise_map.2 (List.pairwise_filterMap.2 (h.imp_of_mem ?_))
  intro a b ha hb hne m hm m' hm' hpath
  rw [Module.path_of_ofRelative? hm, Module.path_of_ofRelative? hm'] at hpath
  exact hne (Path.ofNames_inj (hnames a ha) (hnames b hb) hpath)

theorem isOf_of_capture (hfree : t.top.LinkFree) (htidy : t.top.Tidy)
    (h : capture t root l [] = .ok s) : s.IsOf t root l := by
  unfold capture at h
  split at h
  · next ms hms =>
    cases h
    unfold Scan.modules at hms
    split at hms
    · cases hms
    · next fs hfs =>
      cases hms
      obtain ⟨hnodup, hmem⟩ := FileTree.filesBelow_ok hfree htidy hfs
      have hkept : (fs.filter fun names =>
          !Glob.anyCovers [] (String.intercalate "/" names)) = fs :=
        List.filter_eq_self.2 fun names _ => rfl
      rw [hkept]
      refine ⟨rfl, rfl, rfl, fun m => ?_, ?_⟩
      · simp only [List.mem_filterMap, hmem, and_assoc]
      · exact nodup_paths hnodup fun q hq =>
          FileTree.isName_of_mem_filesUnder htidy ((hmem q).1 hq).1
  · cases h

end Snapshot

end Reroot

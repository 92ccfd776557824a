import Reroot.Proofs.Path.Order
import Reroot.Proofs.Project.Index

namespace Reroot

open FileTree
open Reroot.Path (IsName)

namespace Scan

variable {t : FileTree} {root : Path} {base : List String} {l : Layout} {excludes : List Glob}
  {fs : List (List String)} {m : Module}

theorem isVisible_iff {q : List String} : IsVisible q ↔
    ∀ name ∈ q.dropLast, name.toList.head? ≠ some '.' ∧ name ∉ skippedNames := by
  simp [IsVisible, isSkipped]

theorem modules_eq (h : filesBelow t root = .ok fs) (l : Layout) (excludes : List Glob) :
    modules t root l excludes =
      .ok ((fs.filter fun q => !Glob.anyCovers excludes (String.intercalate "/" q)).filterMap
        fun q => Module.ofRelative? l (Path.ofNames q)) := by
  rw [modules, h]

theorem filter_slashed (hnames : ∀ q ∈ fs, ∀ n ∈ q, IsName n) (l : Layout) (excludes : List Glob) :
    ((fs.filterMap fun q => Module.ofRelative? l (Path.ofNames q)).filter
        fun m => !Glob.anyCovers excludes m.path.slashed) =
      (fs.filter fun q => !Glob.anyCovers excludes (String.intercalate "/" q)).filterMap
        fun q => Module.ofRelative? l (Path.ofNames q) := by
  rw [List.filter_filterMap, List.filterMap_filter]
  refine List.filterMap_congr fun q hq => ?_
  cases hm : Module.ofRelative? l (Path.ofNames q) with
  | none => simp
  | some m =>
    rw [Option.filter_some, Module.path_of_ofRelative? hm, Path.slashed_ofNames (hnames q hq)]

theorem pairwise_path (hsorted : fs.Pairwise (· < ·)) (hnames : ∀ q ∈ fs, ∀ n ∈ q, IsName n) :
    (fs.filterMap fun q => Module.ofRelative? l (Path.ofNames q)).Pairwise
      fun a b => a.path.key < b.path.key := by
  refine List.pairwise_filterMap.2 (hsorted.imp_of_mem fun {q q'} hq hq' hlt m hm m' hm' => ?_)
  rw [Module.path_of_ofRelative? hm, Module.path_of_ofRelative? hm']
  exact (Path.key_ofNames_lt (hnames q hq) (hnames q' hq')).2 hlt

theorem mem_modules_iff (h : t.RootAt root base) (htidy : t.top.Tidy)
    (hfs : filesBelow t root = .ok fs) :
    m ∈ ((fs.filter fun q => !Glob.anyCovers excludes (String.intercalate "/" q)).filterMap
        fun q => Module.ofRelative? l (Path.ofNames q)) ↔
      ∃ q bytes, q ≠ [] ∧ t.view (base ++ q) = some (.file bytes) ∧ IsVisible q ∧
        Glob.anyCovers excludes (String.intercalate "/" q) = false ∧
        Module.ofRelative? l (Path.ofNames q) = some m := by
  obtain ⟨-, hmem⟩ := h.mem_filesBelow htidy hfs
  simp only [List.mem_filterMap, List.mem_filter, hmem, mem_filesUnder_ofPlace (h.isName htidy),
    Bool.not_eq_true']
  constructor
  · rintro ⟨q, ⟨⟨⟨hne, bytes, hview⟩, hvisible⟩, hincluded⟩, hm⟩
    exact ⟨q, bytes, hne, hview, hvisible, hincluded, hm⟩
  · rintro ⟨q, bytes, hne, hview, hvisible, hincluded, hm⟩
    exact ⟨q, ⟨⟨⟨hne, bytes, hview⟩, hvisible⟩, hincluded⟩, hm⟩

theorem modules_exact (htidy : t.top.Tidy) (hroot : t.RootAt root base) (l : Layout)
    (excludes : List Glob) :
    ∃ ms, modules t root l excludes = .ok ms ∧
      (∀ m, m ∈ ms ↔ ∃ q bytes, q ≠ [] ∧ t.view (base ++ q) = some (.file bytes) ∧
        (∀ name ∈ q.dropLast, name.toList.head? ≠ some '.' ∧ name ∉ skippedNames) ∧
        Glob.anyCovers excludes (String.intercalate "/" q) = false ∧
        Module.ofRelative? l (Path.ofNames q) = some m) ∧
      (ms.Pairwise fun a b => a.path.le b.path = true ∧ b.path.le a.path = false) ∧
      ∃ all, modules t root l [] = .ok all ∧
        ms = all.filter fun m => !Glob.anyCovers excludes m.path.slashed := by
  obtain ⟨es, hat, hfs⟩ := hroot.filesBelow
  have hdir := (htidy.at? hat).2
  have hsorted : (files (.dir es) []).Pairwise (· < ·) := pairwise_files hdir
  rw [files] at hsorted
  have hnames : ∀ q ∈ filesIn es [], ∀ n ∈ q, IsName n := fun q hq =>
    isName_of_mem_filesUnder htidy (((hroot.mem_filesBelow htidy hfs).2 q).1 hq).1
  have hall : (filesIn es []).filter (fun q => !Glob.anyCovers [] (String.intercalate "/" q)) =
      filesIn es [] :=
    List.filter_eq_self.2 fun q _ => rfl
  refine ⟨_, modules_eq hfs l excludes, fun m => ?_, ?_, _, modules_eq hfs l [], ?_⟩
  · simp only [mem_modules_iff hroot htidy hfs, isVisible_iff]
  · refine (pairwise_path (hsorted.filter _) fun q hq => hnames q (List.mem_of_mem_filter hq)).imp ?_
    intro a b hlt
    exact ⟨Path.le_iff.2 hlt.le, Bool.eq_false_iff.2 fun hle => hlt.not_ge (Path.le_iff.1 hle)⟩
  · rw [hall, filter_slashed hnames]

end Scan

namespace Crowded

def package : Entry :=
  .dir [("__init__.py", .file "".toUTF8), ("sub", .dir [("deep.py", .file "".toUTF8)]),
    ("venv", .dir [("x.py", .file "".toUTF8)])]

def tree : FileTree :=
  ⟨.dir [(".git", .dir [("hook.py", .file "".toUTF8)]), ("l.py", .link "m.py"),
    ("m.py", .file "".toUTF8), ("pkg", package)], []⟩

def patterns : List Glob :=
  ["pkg", "pkg/__init__.py"].filterMap fun pattern => (Glob.parse pattern).toOption

theorem tidy_single {name : String} (h : IsName name) (bytes : ByteArray) :
    (Entry.dir [(name, .file bytes)]).Tidy :=
  .dir (List.pairwise_singleton _ _) (by simpa using h) (by simp [Entry.Tidy.file])

theorem tidy_package : package.Tidy := by
  refine .dir (by decide) (by decide) ?_
  simp only [List.forall_mem_cons]
  exact ⟨.file _, tidy_single (by decide) _, tidy_single (by decide) _, by simp⟩

theorem tidy_tree : tree.top.Tidy := by
  refine .dir (by decide) (by decide) ?_
  simp only [List.forall_mem_cons]
  exact ⟨tidy_single (by decide) _, .link _, .file _, tidy_package, by simp⟩

theorem rootAt_tree : tree.RootAt ⟨"/"⟩ [] :=
  ⟨_, rfl⟩

end Crowded

namespace Scan

theorem modules_exact_crowded :
    ∃ ms, modules Crowded.tree ⟨"/"⟩ .standard Crowded.patterns = .ok ms ∧
      ⟨"m", ⟨"m.py"⟩⟩ ∈ ms ∧ ⟨"pkg.sub.deep", ⟨"pkg/sub/deep.py"⟩⟩ ∈ ms ∧
      ⟨"pkg", ⟨"pkg/__init__.py"⟩⟩ ∉ ms ∧
      (ms.Pairwise fun a b => a.path.le b.path = true ∧ b.path.le a.path = false) := by
  obtain ⟨ms, hms, hmem, hsorted, all, -, hfilter⟩ :=
    modules_exact Crowded.tidy_tree Crowded.rootAt_tree .standard Crowded.patterns
  refine ⟨ms, hms, (hmem _).2 ⟨["m.py"], "".toUTF8, by simp, rfl, by simp, by decide +kernel, rfl⟩,
    (hmem _).2 ⟨["pkg", "sub", "deep.py"], "".toUTF8, by simp, rfl, ?_, by decide +kernel, rfl⟩,
    fun hexcluded => ?_, hsorted⟩
  · simp [skippedNames]
  · rw [hfilter, List.mem_filter] at hexcluded
    exact absurd hexcluded.2 (by decide +kernel)

end Scan

end Reroot

import Reroot.Proofs.Project.Index
import Reroot.Proofs.Python.Planning

namespace Reroot

open Scan FileTree
open Reroot.Path (IsName)

variable {t : FileTree} {root p : Path} {l : Layout} {excludes : List Glob} {a : Snapshot}
  {names : List String}

namespace FileTree

theorem toUTF8_of_fromUTF8? {bytes : ByteArray} {text : String}
    (h : String.fromUTF8? bytes = some text) : text.toUTF8 = bytes := by
  unfold String.fromUTF8? at h
  split at h
  · cases h
    rfl
  · cases h

theorem readText_eq_ok_iff (hfree : t.top.LinkFree) {text : String} :
    t.readText p = .ok text ↔ ∃ names, t.Reaches p names ∧ t.view names = some (.file text.toUTF8) := by
  constructor
  · intro h
    obtain ⟨names, bytes, hreach, hview, hdecode⟩ := readText_ok hfree h
    exact ⟨names, hreach, by rw [hview, toUTF8_of_fromUTF8? hdecode]⟩
  · rintro ⟨names, hreach, hview⟩
    obtain ⟨e, he, hshape⟩ := Option.map_eq_some_iff.1 hview
    rw [readText, (entry?_eq_ok_iff hfree).2 ⟨names, hreach, he⟩]
    cases e with
    | link | dir => cases hshape
    | file bytes =>
      cases hshape
      simp only [fromUTF8?_toUTF8]

end FileTree

namespace Snapshot

variable (hfree : t.top.LinkFree)

include hfree

theorem reaches_of_capture (h : capture t root l excludes = .ok a) :
    t.Reaches root (t.place root) ∧ t.view (t.place root) ≠ none := by
  obtain ⟨fs, hfs, -⟩ := filesBelow_of_capture h
  obtain ⟨⟨names, entry⟩, hresolve, hentry⟩ := resolve_of_filesBelow hfs
  obtain ⟨hreach, hat⟩ := reaches_of_resolve hfree hresolve
  obtain ⟨e, rfl⟩ := Option.ne_none_iff_exists'.1 hentry
  refine ⟨hreach.eq_place ▸ hreach, ?_⟩
  rw [← hreach.eq_place, view_eq_of_entry hat.symm]
  simp

theorem exists_capture_of_reaches (hreach : t.Reaches root names) (hview : t.view names ≠ none)
    (l : Layout) (excludes : List Glob) : ∃ a, capture t root l excludes = .ok a := by
  obtain ⟨shape, hshape⟩ := Option.ne_none_iff_exists'.1 hview
  obtain ⟨e, he, -⟩ := Option.map_eq_some_iff.1 hshape
  have hentry : t.entry? root false = .ok e := (entry?_eq_ok_iff hfree).2 ⟨names, hreach, he⟩
  unfold capture Scan.modules filesBelow
  rw [hentry]
  cases e with
  | file | dir => exact ⟨_, rfl⟩
  | link target => exact absurd (view_eq_of_entry he) (hfree names target)

theorem rootAt_of_dir (h : capture t root l excludes = .ok a)
    (hdir : t.view (t.place root) = some .dir) : t.RootAt root (t.place root) := by
  obtain ⟨hreach, -⟩ := reaches_of_capture hfree h
  obtain ⟨es, hes⟩ := Entry.view_eq_some_dir_iff.1 hdir
  exact ⟨es, by rw [hreach.resolve hfree true, hes]⟩

theorem isName_place (htidy : t.top.Tidy) (h : capture t root l excludes = .ok a) :
    ∀ n ∈ t.place root, IsName n :=
  htidy.isName (reaches_of_capture hfree h).2

theorem filesUnder_place (htidy : t.top.Tidy) (h : capture t root l excludes = .ok a) :
    t.filesUnder (.ofPlace (t.place root)) = t.filesUnder root := by
  rw [filesUnder, place_ofPlace (isName_place hfree htidy h)]
  rfl

theorem indexes_of_unlinked (htidy : t.top.Tidy) (h : capture t root l excludes = .ok a) :
    a.Indexes t (t.place root) := by
  obtain ⟨-, rfl, rfl, -⟩ := capture_ok h
  obtain ⟨fs, hfs, hmodules⟩ := filesBelow_of_capture h
  obtain ⟨hnodup, hmem⟩ := filesBelow_ok hfree htidy hfs
  rw [← filesUnder_place hfree htidy h] at hmem
  exact indexes_of_files htidy hnodup hmem hmodules

end Snapshot

end Reroot

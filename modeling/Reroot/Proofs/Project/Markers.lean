import Reroot.Proofs.Change.Success
import Reroot.Proofs.Plan
import Reroot.Proofs.Project.Unlinked

namespace Reroot

open FileTree
open Reroot.Path (IsName)

namespace FileTree

variable {t t' : FileTree} {root : Path} {base ns : List String} {marker : String}
  {Q : List String → Prop}

structure Marked (t : FileTree) (root : Path) (marker : String) (ns : List String) : Prop where
  file : ns ++ [marker] ∈ t.filesUnder root
  short : ∀ n ∈ ns ++ [marker], n.utf8ByteSize ≤ 255

theorem Marked.gains (h : Marked t root marker ns) (hgains : Gains root Q t t') :
    Marked t' root marker ns :=
  ⟨hgains.subset h.file, h.short⟩

section Find

variable (hfree : t.top.LinkFree) (hnames : ∀ n ∈ ns ++ [marker], IsName n)

include hfree hnames

theorem marked_of_isFile (h : t.isFile (root.join (Path.ofNames (ns ++ [marker]))) = true) :
    Marked t root marker ns := by
  have hplain := Path.isPlain_ofNames (by simp) hnames
  obtain ⟨names, bytes, hreach, hview⟩ := (isFile_iff hfree).1 h
  rw [hreach.eq_place_append hplain, Path.pieces_ofNames hnames] at hview
  refine ⟨⟨by simp, bytes, hview⟩, fun n hn => hreach.leads.short n ?_⟩
  rw [steps_join hplain, Path.pieces_ofNames hnames]
  exact List.mem_append_right _ hn

theorem isFile_of_marked (hroot : t.RootAt root (t.place root)) (h : Marked t root marker ns) :
    t.isFile (root.join (Path.ofNames (ns ++ [marker]))) = true := by
  have hplain := Path.isPlain_ofNames (by simp) hnames
  have hpieces := Path.pieces_ofNames hnames
  obtain ⟨-, bytes, hview⟩ := h.file
  have hdir : t.view (t.place root ++ ns) = some .dir := by
    refine Entry.view_eq_dir_of_append (List.cons_ne_nil marker []) ?_
    rw [List.append_assoc]
    exact ne_of_eq_of_ne hview (by simp)
  have hresolve : t.resolve (root.join (Path.ofNames (ns ++ [marker]))) true = .ok _ :=
    hroot.resolve_of_spells hplain hpieces (fun _ target => hfree _ target) ⟨rfl, hdir, h.short⟩
  obtain ⟨e, he, hshape⟩ := Option.map_eq_some_iff.1 hview
  rw [he] at hresolve
  rw [isFile, entry?_of_resolve hresolve]
  cases e with
  | file => rfl
  | link | dir => cases hshape

theorem marked_of_perform {content : String} {n : Nat}
    (habsent : t.isPresent (root.join (Path.ofNames (ns ++ [marker]))) = false)
    (h : (Change.create (Path.ofNames (ns ++ [marker])) content).perform root t = .ok n t') :
    Marked t' root marker ns := by
  have hplain := Path.isPlain_ofNames (by simp) hnames
  obtain ⟨hpresent, -, -⟩ | ⟨-, -, t₁, hparents, hwrite⟩ := Change.perform_create_ok h
  · simp [habsent] at hpresent
  have hextends := (Change.widening_makeParents _).ok hparents
  obtain ⟨names, hreach, -, hputs⟩ := writeBytes_ok (hextends.linkFree hfree) hwrite
  have hplace := hreach.eq_place_append hplain
  rw [Path.pieces_ofNames hnames] at hplace
  refine ⟨⟨by simp, content.toUTF8, ?_⟩, fun n hn => hreach.leads.short n ?_⟩
  · rw [place_eq hputs.workdir, hputs.view, if_pos hplace.symm]
  · rw [steps_join hplain, Path.pieces_ofNames hnames]
    exact List.mem_append_right _ hn

end Find

end FileTree

namespace Snapshot

variable {t t' : FileTree} {a : Snapshot} {ns : List String} {n : Nat} (hne : ns ≠ [])
  (hnames : ∀ n ∈ ns ++ [a.layout.marker], IsName n)

include hne hnames

theorem hasMarker_eq : a.hasMarker t (Path.ofNames ns) =
    t.isFile (a.root.join (Path.ofNames (ns ++ [a.layout.marker]))) := by
  have hmarker : (⟨a.layout.marker⟩ : Path).isAbsolute = false := by
    have := Path.isAbsolute_ofNames fun n hn => hnames n (List.mem_append_right ns hn)
    simpa [Path.ofNames] using this
  rw [hasMarker, absolute, Path.join_join (Path.isAbsolute_ofNames fun n hn =>
    hnames n (List.mem_append_left _ hn)) hmarker, Plan.join_marker hne hnames]

theorem marked_of_planConversion (hfree : t.top.LinkFree)
    (h : (a.planConversion t [Path.ofNames ns]).apply a.root t = .ok n t') :
    t'.Marked a.root a.layout.marker ns := by
  cases hmarker : a.hasMarker t (Path.ofNames ns) with
  | true =>
    have hempty : (a.planConversion t [Path.ofNames ns]).changes = [] := by
      simp [planConversion, unmarked, hmarker, sortedPaths, List.eraseRepsBy]
    rw [ChangeSet.apply_of_empty _ _ hempty] at h
    cases h
    rw [hasMarker_eq hne hnames] at hmarker
    exact marked_of_isFile hfree hnames hmarker
  | false =>
    have hchanges : (a.planConversion t [Path.ofNames ns]).changes =
        [.create (Path.ofNames (ns ++ [a.layout.marker])) ""] := by
      rw [← Plan.join_marker hne hnames]
      simp [planConversion, unmarked, hmarker, sortedPaths, List.eraseRepsBy, List.eraseRepsBy.loop]
    rw [hasMarker_eq hne hnames] at hmarker
    obtain ⟨hcheck, hperform⟩ := ChangeSet.apply_ok h
    rw [ChangeSet.ordered, hchanges] at hperform
    rw [hchanges] at hcheck
    obtain ⟨m, t₁, k, hcreate, hnil⟩ := Change.performAll_cons_ok hperform
    cases hnil
    refine marked_of_perform hfree hnames ?_ hcreate
    by_contra hpresent
    rw [Bool.not_eq_false] at hpresent
    have hfits := Change.check_of_checkAll hcheck _ (List.mem_singleton_self _)
    rw [Change.check_create, if_pos hpresent] at hfits
    split at hfits
    · cases hfits
    · next hread => exact absurd (isFile_of_readText hread) (by simp [hmarker])

end Snapshot

theorem exists_mem_eraseRepsBy {α : Type} {r : α → α → Bool} {as : List α} {x : α} (h : x ∈ as) :
    ∃ y ∈ as.eraseRepsBy r, y = x ∨ r y x = true := by
  have hloop : ∀ (as acc : List α) (a : α),
      (∃ y ∈ a :: acc, y = x ∨ r y x = true) ∨ x ∈ as →
      ∃ y ∈ List.eraseRepsBy.loop r a as acc, y = x ∨ r y x = true := by
    intro as
    induction as with
    | nil =>
      intro acc a hx
      obtain ⟨y, hy, hyx⟩ := hx.resolve_right List.not_mem_nil
      exact ⟨y, List.mem_reverse.2 hy, hyx⟩
    | cons b as ih =>
      intro acc a hx
      rw [List.eraseRepsBy.loop]
      split
      · next hab =>
        refine ih acc a (hx.elim .inl fun hx => ?_)
        obtain rfl | hx := List.mem_cons.1 hx
        · exact .inl ⟨a, List.mem_cons_self, .inr hab⟩
        · exact .inr hx
      · refine ih (a :: acc) b ?_
        obtain ⟨y, hy, hyx⟩ | hx := hx
        · exact .inl ⟨y, List.mem_cons_of_mem b hy, hyx⟩
        · obtain rfl | hx := List.mem_cons.1 hx
          · exact .inl ⟨x, List.mem_cons_self, .inl rfl⟩
          · exact .inr hx
  cases as with
  | nil => cases h
  | cons a as =>
    obtain rfl | h := List.mem_cons.1 h
    · exact hloop as [] x (.inl ⟨x, List.mem_cons_self, .inl rfl⟩)
    · exact hloop as [] a (.inr h)

namespace Plan

variable {t : FileTree} {s : Snapshot} {package : QualifiedName} {ns ps : List String} {d : Path}
  {ds : List Path}

theorem mem_sortedPaths (hds : ∀ d ∈ ds, IsBelow d) : d ∈ Snapshot.sortedPaths ds ↔ d ∈ ds := by
  refine ⟨Snapshot.mem_of_mem_sortedPaths, fun hd => ?_⟩
  obtain ⟨d', hd', heq⟩ := exists_mem_eraseRepsBy (r := Path.samePlace) (List.mem_mergeSort.2 hd)
  suffices d' = d from this ▸ hd'
  refine heq.elim id fun hsame => ?_
  obtain ⟨ns', -, hnames', rfl⟩ := hds d' (Snapshot.mem_of_mem_sortedPaths hd')
  obtain ⟨ns, -, hnames, rfl⟩ := hds d hd
  have hparts := beq_iff_eq.1 hsame
  rw [Path.parts_ofNames hnames', Path.parts_ofNames hnames] at hparts
  rw [List.map_injective_iff.2 (fun _ _ => Path.Part.name.inj) hparts]

def IsWanted (s : Snapshot) (package : QualifiedName) (ns : List String) : Prop :=
  ns ≠ [] ∧ ((∃ m ∈ s.modules, ns <+: m.path.pieces ∧ ns ≠ m.path.pieces) ∨ ns <+: package.segments)

theorem IsWanted.of_isPrefix (h : IsWanted s package ns) (hpre : ps <+: ns) (hne : ps ≠ []) :
    IsWanted s package ps := by
  obtain ⟨-, ⟨m, hm, habove, hother⟩ | hpackage⟩ := h
  · refine ⟨hne, .inl ⟨m, hm, hpre.trans habove, ?_⟩⟩
    rintro rfl
    exact hother (habove.eq_of_length (habove.length_le.antisymm hpre.length_le))
  · exact ⟨hne, .inr (hpre.trans hpackage)⟩

theorem mem_directoriesAbove {q : List String} : d ∈ Snapshot.directoriesAbove q ↔
    ∃ ns, ns ≠ [] ∧ ns <+: q ∧ ns ≠ q ∧ d = Path.ofNames ns := by
  rw [Snapshot.directoriesAbove, List.mem_map, List.tail_range]
  constructor
  · rintro ⟨n, hn, rfl⟩
    obtain ⟨hpos, hlt⟩ := List.mem_range'_1.1 hn
    have hlength : (q.take n).length = n := List.length_take_of_le (by omega)
    refine ⟨q.take n, fun hnil => ?_, List.take_prefix n q, fun hall => ?_, rfl⟩
    · rw [hnil, List.length_nil] at hlength
      omega
    · rw [hall] at hlength
      omega
  · rintro ⟨ns, hne, hpre, hother, rfl⟩
    refine ⟨ns.length, List.mem_range'_1.2 ⟨List.length_pos_iff.2 hne, ?_⟩, ?_⟩
    · have hlt : ns.length < q.length :=
        lt_of_le_of_ne hpre.length_le fun hlength => hother (hpre.eq_of_length hlength)
      omega
    · rw [← List.prefix_iff_eq_take.1 hpre]

theorem mem_packageDirectories : d ∈ packageDirectories package ↔
    ∃ ns, ns ≠ [] ∧ ns <+: package.segments ∧ d = Path.ofNames ns := by
  rw [packageDirectories, List.mem_map]
  constructor
  · rintro ⟨n, -, rfl⟩
    exact ⟨_, by simp [package.nonempty], List.take_prefix _ _, rfl⟩
  · rintro ⟨ns, hne, hpre, rfl⟩
    obtain ⟨n, hn⟩ := Nat.exists_eq_succ_of_ne_zero (List.length_pos_iff.2 hne).ne'
    refine ⟨n, List.mem_range.2 ?_, ?_⟩
    · rw [QualifiedName.length]
      have hlength := hpre.length_le
      omega
    · rw [← Nat.succ_eq_add_one, ← hn, ← List.prefix_iff_eq_take.1 hpre]

section Directories

variable (hs : ∀ m ∈ s.modules, IsBelow m.path)

include hs

theorem IsWanted.isName (h : IsWanted s package ns) : ∀ n ∈ ns, IsName n := by
  intro n hn
  obtain ⟨-, ⟨m, hm, habove, -⟩ | hpackage⟩ := h
  · obtain ⟨q, -, hnames, hpath⟩ := hs m hm
    rw [hpath, Path.pieces_ofNames hnames] at habove
    exact hnames n (habove.subset hn)
  · exact package.isName n (hpackage.subset hn)

theorem mem_directoriesMissingMarker : d ∈ s.directoriesMissingMarker t ↔ s.hasMarker t d = false ∧
    ∃ m ∈ s.modules, ∃ ns, ns ≠ [] ∧ ns <+: m.path.pieces ∧ ns ≠ m.path.pieces ∧ d = Path.ofNames ns := by
  have hbelow : ∀ d ∈ s.modules.flatMap fun m => Snapshot.directoriesAbove m.path.pieces, IsBelow d := by
    intro d hd
    obtain ⟨m, hm, hd⟩ := List.mem_flatMap.1 hd
    obtain ⟨ns, hne, hpre, -, rfl⟩ := mem_directoriesAbove.1 hd
    obtain ⟨q, -, hnames, hpath⟩ := hs m hm
    rw [hpath, Path.pieces_ofNames hnames] at hpre
    exact ⟨ns, hne, fun n hn => hnames n (hpre.subset hn), rfl⟩
  rw [Snapshot.directoriesMissingMarker, List.mem_filter, mem_sortedPaths hbelow, Bool.not_eq_true',
    and_comm, List.mem_flatMap]
  simp only [mem_directoriesAbove]

theorem mem_directories : d ∈ directories t s package ↔
    s.hasMarker t d = false ∧ ∃ ns, IsWanted s package ns ∧ d = Path.ofNames ns := by
  have hmem (d : Path) : d ∈ s.directoriesMissingMarker t ++
      (packageDirectories package).filter (fun d => !s.hasMarker t d) ↔
      s.hasMarker t d = false ∧ ∃ ns, IsWanted s package ns ∧ d = Path.ofNames ns := by
    rw [List.mem_append, mem_directoriesMissingMarker hs, List.mem_filter, mem_packageDirectories,
      Bool.not_eq_true']
    constructor
    · rintro (⟨hmarker, m, hm, ns, hne, hpre, hother, rfl⟩ | ⟨⟨ns, hne, hpre, rfl⟩, hmarker⟩)
      · exact ⟨hmarker, ns, ⟨hne, .inl ⟨m, hm, hpre, hother⟩⟩, rfl⟩
      · exact ⟨hmarker, ns, ⟨hne, .inr hpre⟩, rfl⟩
    · rintro ⟨hmarker, ns, ⟨hne, ⟨m, hm, hpre, hother⟩ | hpre⟩, rfl⟩
      · exact .inl ⟨hmarker, m, hm, ns, hne, hpre, hother, rfl⟩
      · exact .inr ⟨⟨ns, hne, hpre, rfl⟩, hmarker⟩
  refine (mem_sortedPaths fun d hd => ?_).trans (hmem d)
  obtain ⟨-, ns, hns, rfl⟩ := (hmem d).1 hd
  exact ⟨ns, hns.1, hns.isName hs, rfl⟩

end Directories

end Plan

end Reroot

import Reroot.Proofs.Name
import Reroot.Proofs.Project.Relocation
import Mathlib.Data.List.Nodup

namespace Reroot

open Scan FileTree
open Reroot.Path (IsName)

def Path.ofPlace (names : List String) : Path :=
  (Path.mk "/").join (ofNames names)

namespace FileTree

variable {t : FileTree} {root : Path} {base : List String} {fs : List (List String)}

theorem place_ofPlace (h : ∀ n ∈ base, IsName n) : t.place (Path.ofPlace base) = base := by
  have hrelative := Path.isAbsolute_ofNames h
  have habsolute : (Path.ofPlace base).isAbsolute = true := Path.isAbsolute_join hrelative
  have hpieces : (Path.ofPlace base).pieces = base :=
    (Path.pieces_join hrelative).trans (Path.pieces_ofNames h)
  rw [place, FileTree.base, habsolute, hpieces]
  exact landing_of_names fun s hs => ⟨(h s hs).here, (h s hs).up⟩

theorem mem_filesUnder_ofPlace {q : List String} (hbase : ∀ n ∈ base, IsName n) :
    q ∈ t.filesUnder (.ofPlace base) ↔ q ≠ [] ∧ ∃ bytes, t.view (base ++ q) = some (.file bytes) := by
  rw [filesUnder, place_ofPlace hbase]
  rfl

theorem RootAt.isName (h : t.RootAt root base) (htidy : t.top.Tidy) : ∀ n ∈ base, IsName n := by
  obtain ⟨es, hes⟩ := h
  exact isName_of_resolve htidy hes

theorem entry?_ok {p : Path} {follow : Bool} {e : Entry} (h : t.entry? p follow = .ok e) :
    ∃ names, t.resolve p follow = .ok ⟨names, some e⟩ := by
  unfold entry? at h
  split at h
  · next names e' hresolve =>
    cases h
    exact ⟨names, hresolve⟩
  · cases h
  · cases h

theorem entry?_of_resolve {p : Path} {follow : Bool} {e : Entry} {names : List String}
    (h : t.resolve p follow = .ok ⟨names, some e⟩) : t.entry? p follow = .ok e := by
  unfold entry?
  rw [h]

theorem resolve_of_filesBelow (h : filesBelow t root = .ok fs) :
    ∃ place, t.resolve root true = .ok place ∧ place.entry ≠ none := by
  have stays {e : Entry} (he : t.entry? root false = .ok e) (hlink : ∀ target, e ≠ .link target) :
      ∃ place, t.resolve root true = .ok place ∧ place.entry ≠ none := by
    obtain ⟨names, hresolve⟩ := entry?_ok he
    obtain ⟨hroot, hwalks⟩ := walks_of_resolve hresolve
    exact ⟨_, resolve_of_walks hroot (hwalks.of_not_link fun target => by simpa using hlink target),
      by simp⟩
  unfold filesBelow at h
  split at h
  · cases h
  · next he => exact stays he nofun
  · next he => exact stays he nofun
  · split at h
    · cases h
    · next he =>
      obtain ⟨names, hresolve⟩ := entry?_ok he
      exact ⟨_, hresolve, by simp⟩
    · next he =>
      obtain ⟨names, hresolve⟩ := entry?_ok he
      exact ⟨_, hresolve, by simp⟩

theorem filesBelow_of_resolve {names : List String} {e : Entry}
    (h : t.resolve root true = .ok ⟨names, some e⟩) : ∃ fs, filesBelow t root = .ok fs := by
  obtain ⟨hroot, hwalks⟩ := walks_of_resolve h
  have hfollow := entry?_of_resolve h
  unfold Scan.filesBelow
  obtain hsame | ⟨names', target, hlink⟩ := hwalks.of_follow
  · rw [entry?_of_resolve (resolve_of_walks hroot hsame)]
    cases e with
    | file | dir => exact ⟨_, rfl⟩
    | link target => exact absurd rfl (not_link_of_resolve h target)
  · rw [entry?_of_resolve (resolve_of_walks hroot hlink), hfollow]
    cases e <;> exact ⟨_, rfl⟩

theorem RootAt.filesBelow (h : t.RootAt root base) :
    ∃ es, t.top.at? base = some (.dir es) ∧ filesBelow t root = .ok (filesIn es []) := by
  obtain ⟨es, hes⟩ := h
  refine ⟨es, (entry_of_resolve hes).symm, ?_⟩
  obtain ⟨hroot, hwalks⟩ := walks_of_resolve hes
  unfold Scan.filesBelow
  obtain hsame | ⟨names, target, hlink⟩ := hwalks.of_follow
  · rw [entry?_of_resolve (resolve_of_walks hroot hsame)]
  · rw [entry?_of_resolve (resolve_of_walks hroot hlink)]
    dsimp only
    rw [entry?_of_resolve hes]

theorem RootAt.mem_filesBelow (h : t.RootAt root base) (htidy : t.top.Tidy)
    (hfs : Scan.filesBelow t root = .ok fs) :
    fs.Nodup ∧ ∀ q, q ∈ fs ↔ q ∈ t.filesUnder (.ofPlace base) ∧ IsVisible q := by
  obtain ⟨es, hat, hfiles⟩ := h.filesBelow
  rw [hfs, Except.ok.injEq] at hfiles
  subst hfiles
  have hdir := (htidy.at? hat).2
  have hview (q : List String) : t.view (t.place (.ofPlace base) ++ q) = (Entry.dir es).view q := by
    rw [place_ofPlace (h.isName htidy), view, Entry.view, Entry.at?_append, hat]
    rfl
  exact filesIn_iff hdir hview

end FileTree

namespace Snapshot

variable {t : FileTree} {root : Path} {base : List String} {l : Layout} {excludes : List Glob}
  {s : Snapshot} {m : Module} {q : List String}

structure Lists (s : Snapshot) (q : List String) : Prop where
  visible : IsVisible q
  included : Glob.anyCovers s.excludes (String.intercalate "/" q) = false

structure Indexes (s : Snapshot) (t : FileTree) (base : List String) : Prop where
  mem_modules : ∀ m, m ∈ s.modules ↔ ∃ q ∈ t.filesUnder (.ofPlace base), s.Lists q ∧
    Module.ofRelative? s.layout (Path.ofNames q) = some m
  nodup : (s.modules.map (·.path)).Nodup

theorem capture_ok (h : capture t root l excludes = .ok s) :
    s.root = root ∧ s.layout = l ∧ s.excludes = excludes ∧
      Scan.modules t root l excludes = .ok s.modules := by
  unfold capture at h
  split at h
  · next ms hms =>
    cases h
    exact ⟨rfl, rfl, rfl, hms⟩
  · cases h

theorem filesBelow_of_capture (h : capture t root l excludes = .ok s) :
    ∃ fs, filesBelow t root = .ok fs ∧ s.modules =
      (fs.filter fun q => !Glob.anyCovers excludes (String.intercalate "/" q)).filterMap
        fun q => Module.ofRelative? l (Path.ofNames q) := by
  obtain ⟨-, -, -, hmodules⟩ := capture_ok h
  unfold Scan.modules at hmodules
  split at hmodules
  · cases hmodules
  · next fs hfs => exact ⟨fs, hfs, (Except.ok.inj hmodules).symm⟩

theorem indexes_of_files {fs : List (List String)} (htidy : t.top.Tidy) (hnodup : fs.Nodup)
    (hmem : ∀ q, q ∈ fs ↔ q ∈ t.filesUnder (.ofPlace base) ∧ IsVisible q)
    (hmodules : s.modules =
      (fs.filter fun q => !Glob.anyCovers s.excludes (String.intercalate "/" q)).filterMap
        fun q => Module.ofRelative? s.layout (Path.ofNames q)) : s.Indexes t base := by
  constructor
  · intro m
    rw [hmodules, List.mem_filterMap]
    refine exists_congr fun q => ?_
    rw [List.mem_filter, hmem, Bool.not_eq_true']
    constructor
    · rintro ⟨⟨⟨hq, hvisible⟩, hincluded⟩, hm⟩
      exact ⟨hq, ⟨hvisible, hincluded⟩, hm⟩
    · rintro ⟨hq, ⟨hvisible, hincluded⟩, hm⟩
      exact ⟨⟨⟨hq, hvisible⟩, hincluded⟩, hm⟩
  · rw [hmodules]
    exact nodup_paths (hnodup.filter _) fun q hq =>
      isName_of_mem_filesUnder htidy ((hmem q).1 (List.mem_filter.1 hq).1).1

theorem indexes_of_capture (htidy : t.top.Tidy) (hroot : t.RootAt root base)
    (h : capture t root l excludes = .ok s) : s.Indexes t base := by
  obtain ⟨-, rfl, rfl, -⟩ := capture_ok h
  obtain ⟨fs, hfs, hmodules⟩ := filesBelow_of_capture h
  obtain ⟨hnodup, hmem⟩ := hroot.mem_filesBelow htidy hfs
  exact indexes_of_files htidy hnodup hmem hmodules

theorem exists_capture (hroot : t.RootAt root base) (l : Layout) (excludes : List Glob) :
    ∃ s, capture t root l excludes = .ok s := by
  obtain ⟨es, -, hfiles⟩ := hroot.filesBelow
  unfold capture Scan.modules
  rw [hfiles]
  exact ⟨_, rfl⟩

theorem Indexes.exists_file (h : s.Indexes t base) (hm : m ∈ s.modules) :
    ∃ q ∈ t.filesUnder (.ofPlace base), s.Lists q ∧ m.path = Path.ofNames q := by
  obtain ⟨q, hq, hlists, hrelative⟩ := (h.mem_modules m).1 hm
  exact ⟨q, hq, hlists, Module.path_of_ofRelative? hrelative⟩

theorem Indexes.isPlain (h : s.Indexes t base) (htidy : t.top.Tidy) (hm : m ∈ s.modules) :
    m.path.IsPlain := by
  obtain ⟨q, hq, -, hpath⟩ := h.exists_file hm
  rw [hpath]
  exact Path.isPlain_ofNames hq.1 (isName_of_mem_filesUnder htidy hq)

end Snapshot

namespace Module

variable {l : Layout} {package : QualifiedName} {k : String} {q : List String} {m : Module}

theorem topLevel_eq_rootOf (m : Module) : m.topLevel = rootOf m.identifier := by
  obtain ⟨rest, h⟩ := segmentsOf_eq_cons m.identifier
  rw [topLevel, h, List.headD_cons]

theorem eq_of_stem? {name extension stem : String} (h : stem? name extension = some stem) :
    name = stem ++ "." ++ extension := by
  unfold stem? at h
  dsimp only at h
  split at h
  · next hsuffix =>
    cases h
    obtain ⟨front, hfront⟩ := List.isSuffixOf_iff_suffix.1 hsuffix
    have hlength : name.length - ('.' :: extension.toList).length = front.length := by
      rw [← String.length_toList, ← hfront, List.length_append, Nat.add_sub_cancel_right]
    apply String.toList_inj.1
    rw [hlength, ← hfront, List.take_left]
    simp
  · cases h

theorem rootOf_identifier (hq : ∀ n ∈ k :: q, IsName n)
    (h : ofRelative? l (Path.ofNames (k :: q)) = some m) : rootOf m.identifier = rootOf k := by
  obtain ⟨-, segments, hsegments, hne, rfl⟩ := ofRelative?_eq_some_iff.1 h
  rw [segments?_ofNames hq] at hsegments
  obtain ⟨file, hfile, hsegments⟩ := Option.bind_eq_some_iff.1 hsegments
  cases q with
  | nil =>
    rw [List.getLast?_singleton, Option.some.injEq] at hfile
    subst hfile
    split at hsegments
    · exact absurd (Option.some.inj hsegments).symm hne
    · obtain ⟨stem, hstem, rfl⟩ := Option.map_eq_some_iff.1 hsegments
      rw [eq_of_stem? hstem, rootOf_append, List.dropLast_singleton, List.nil_append, dotted,
        String.intercalate_singleton]
  | cons n q =>
    rw [List.dropLast_cons_cons] at hsegments
    split at hsegments
    · obtain rfl := Option.some.inj hsegments
      exact rootOf_dotted_cons k _
    · obtain ⟨stem, -, rfl⟩ := Option.map_eq_some_iff.1 hsegments
      exact rootOf_dotted_cons k _

def carried (package : QualifiedName) (k : String) (m : Module) : Module :=
  if m.path.pieces.head? = some k then
    ⟨package.text ++ "." ++ m.identifier, Path.ofNames (package.segments ++ m.path.pieces)⟩
  else m

section Carried

variable (hq : ∀ n ∈ q, IsName n)

include hq

theorem carried_eq (hm : m.path = Path.ofNames q) :
    m.carried package k = if q.head? = some k then
      ⟨package.text ++ "." ++ m.identifier, Path.ofNames (package.segments ++ q)⟩ else m := by
  rw [carried, hm, Path.pieces_ofNames hq]

theorem path_carried (hm : m.path = Path.ofNames q) :
    (m.carried package k).path = Path.ofNames (relocate package.segments [k] q) := by
  rw [carried_eq hq hm]
  cases q with
  | nil => simpa [relocate] using hm
  | cons k' q =>
    by_cases hk : k' = k
    · simp [relocate, hk]
    · simp [relocate, hk, hm]

theorem ofRelative?_relocate (hne : q ≠ []) (hmarker : k = l.marker → q ≠ [l.marker]) :
    ofRelative? l (Path.ofNames (relocate package.segments [k] q)) =
      (ofRelative? l (Path.ofNames q)).map (carried package k) := by
  obtain ⟨k', rest, hcons⟩ := List.exists_cons_of_ne_nil hne
  by_cases hk : k' = k
  · have hrelocate : relocate package.segments [k] q = package.segments ++ q := by
      rw [hcons, relocate, if_pos (by simp [hk])]
    have hhead : q.head? = some k := by rw [hcons, List.head?_cons, hk]
    rw [hrelocate, ofRelative?, ofRelative?, isSource_append hne package.isName hq,
      segments?_append hne package.isName hq]
    split
    · cases hsegments : segments? l (Path.ofNames q) with
      | none => rfl
      | some segments =>
        have hsome : segments ≠ [] := by
          rintro rfl
          have hroot := eq_marker_of_segments? hq hsegments
          rw [hroot, List.head?_cons, Option.some.injEq] at hhead
          exact hmarker hhead.symm hroot
        obtain ⟨s, segments, rfl⟩ := List.exists_cons_of_ne_nil hsome
        have happend : package.segments ++ s :: segments ≠ [] := by simp
        have hdotted := dotted_append package.nonempty hsome
        obtain ⟨f, front, hfront⟩ := List.exists_cons_of_ne_nil happend
        rw [hfront] at hdotted
        simp only [Option.map_some, hfront, carried_eq hq, hhead, if_true, hdotted, QualifiedName.text]
    · rfl
  · have hrelocate : relocate package.segments [k] q = q := by
      rw [hcons, relocate, if_neg (by simp [hk])]
    rw [hrelocate]
    cases hm : ofRelative? l (Path.ofNames q) with
    | none => rfl
    | some m =>
      rw [Option.map_some, carried_eq hq (path_of_ofRelative? hm), if_neg (by simp [hcons, hk])]

end Carried

end Module

theorem Path.slashed_ofNames {names : List String} (h : ∀ n ∈ names, IsName n) :
    (Path.ofNames names).slashed = String.intercalate "/" names := by
  rw [slashed, parts_ofNames h, List.filterMap_map]
  congr 1
  exact List.filterMap_some

namespace Snapshot

variable {t t' : FileTree} {base : List String} {package : QualifiedName} {k : String} {a b : Snapshot}

theorem Indexes.congr (h : a.Indexes t base)
    (hfiles : t'.filesUnder (.ofPlace base) = t.filesUnder (.ofPlace base)) : a.Indexes t' base :=
  ⟨fun m => by rw [hfiles, h.mem_modules], h.nodup⟩

theorem Indexes.exists_entry_of_mem_modules {m : Module} (h : a.Indexes t base) (htidy : t.top.Tidy)
    (hm : m ∈ a.modules) :
    ∃ k q, k :: q ∈ t.filesUnder (.ofPlace base) ∧ a.Lists (k :: q) ∧
      Module.ofRelative? a.layout (Path.ofNames (k :: q)) = some m ∧ m.path.pieces = k :: q ∧
      Path.ofParts (m.path.parts.take 1) = Path.ofNames [k] ∧ IsName k ∧ m.topLevel = rootOf k := by
  obtain ⟨q, hq, hlists, hrelative⟩ := (h.mem_modules m).1 hm
  have hnames := isName_of_mem_filesUnder htidy hq
  obtain ⟨k, q, rfl⟩ := List.exists_cons_of_ne_nil hq.1
  refine ⟨k, q, hq, hlists, hrelative, ?_, ?_, hnames k (by simp), ?_⟩
  · rw [Module.path_of_ofRelative? hrelative, Path.pieces_ofNames hnames]
  · rw [Module.path_of_ofRelative? hrelative, Path.parts_ofNames hnames, List.map_cons,
      List.take_succ_cons, List.take_zero]
    exact Path.ofParts_names [k]
  · rw [Module.topLevel_eq_rootOf, Module.rootOf_identifier hnames hrelative]

theorem Indexes.exists_entry {m : TopLevelModule} (h : a.Indexes t base) (htidy : t.top.Tidy)
    (hm : m ∈ a.topLevelModules) :
    m.name ∈ a.topLevelNames ∧ ∃ k q m₀, m₀ ∈ a.modules ∧ k :: q ∈ t.filesUnder (.ofPlace base) ∧
      Module.ofRelative? a.layout (Path.ofNames (k :: q)) = some m₀ ∧ m.path = Path.ofNames [k] ∧
      IsName k ∧ m.name = rootOf k := by
  obtain ⟨hname, m₀, hm₀, htop, hpath⟩ := exists_of_mem_topLevelModules hm
  obtain ⟨k, q, hq, -, hrelative, -, hentry, hk, hroot⟩ := h.exists_entry_of_mem_modules htidy hm₀
  exact ⟨hname, k, q, m₀, hm₀, hq, hrelative, hpath.trans hentry, hk, htop.symm.trans hroot⟩

structure Tolerates (s : Snapshot) (t : FileTree) (base : List String) (package : QualifiedName)
    (k : String) : Prop where
  visible : ∀ n ∈ package.segments, isSkipped n = false
  covers : ∀ q ∈ t.filesUnder (.ofPlace base), q.head? = some k →
    Glob.anyCovers s.excludes (String.intercalate "/" (package.segments ++ q)) =
      Glob.anyCovers s.excludes (String.intercalate "/" q)
  marker : k = s.layout.marker → [s.layout.marker] ∉ t.filesUnder (.ofPlace base)

theorem Tolerates.congr (h : a.Tolerates t base package k)
    (hfiles : t'.filesUnder (.ofPlace base) = t.filesUnder (.ofPlace base)) :
    a.Tolerates t' base package k := by
  obtain ⟨hvisible, hcovers, hmarker⟩ := h
  rw [← hfiles] at hcovers hmarker
  exact ⟨hvisible, hcovers, hmarker⟩

theorem Tolerates.lists_iff {q : List String} (h : a.Tolerates t base package k)
    (hb : b.excludes = a.excludes) (hq : q ∈ t.filesUnder (.ofPlace base)) :
    b.Lists (relocate package.segments [k] q) ↔ a.Lists q := by
  obtain ⟨k', rest, hcons⟩ := List.exists_cons_of_ne_nil hq.1
  by_cases hk : k' = k
  · have hrelocate : relocate package.segments [k] q = package.segments ++ q := by
      rw [hcons, relocate, if_pos (by simp [hk])]
    have hcovers := h.covers q hq (by rw [hcons, hk, List.head?_cons])
    rw [hrelocate]
    constructor
    · exact fun hlists => ⟨.of_append hq.1 hlists.visible, hcovers ▸ hb ▸ hlists.included⟩
    · exact fun hlists => ⟨hlists.visible.append h.visible, hb ▸ hcovers ▸ hlists.included⟩
  · have hrelocate : relocate package.segments [k] q = q := by
      rw [hcons, relocate, if_neg (by simp [hk])]
    rw [hrelocate]
    exact ⟨fun hlists => ⟨hlists.visible, hb ▸ hlists.included⟩,
      fun hlists => ⟨hlists.visible, hb ▸ hlists.included⟩⟩

theorem Indexes.perm_carried (ha : a.Indexes t base) (hb : b.Indexes t' base)
    (hlayout : b.layout = a.layout) (hexcludes : b.excludes = a.excludes) (htidy : t.top.Tidy)
    (hmove : t.Relocates (.ofPlace base) package.segments k t') (h : a.Tolerates t base package k) :
    b.modules.Perm (a.modules.map (Module.carried package k)) := by
  have hnames {q : List String} (hq : q ∈ t.filesUnder (.ofPlace base)) : ∀ n ∈ q, IsName n :=
    isName_of_mem_filesUnder htidy hq
  have hrelative {q : List String} (hq : q ∈ t.filesUnder (.ofPlace base)) :
      Module.ofRelative? a.layout (Path.ofNames (relocate package.segments [k] q)) =
        (Module.ofRelative? a.layout (Path.ofNames q)).map (Module.carried package k) :=
    Module.ofRelative?_relocate (hnames hq) hq.1 fun hk hroot => h.marker hk (hroot ▸ hq)
  have hnew {q : List String} (hq : q ∈ t.filesUnder (.ofPlace base)) :
      ∀ n ∈ relocate package.segments [k] q, IsName n := by
    intro n hn
    obtain heq | heq := relocate_eq package.segments [k] q
    · exact hnames hq n (heq ▸ hn)
    · exact (List.mem_append.1 (heq ▸ hn)).elim (package.isName n) (hnames hq n)
  have hinj : ∀ m₁ ∈ a.modules, ∀ m₂ ∈ a.modules,
      m₁.carried package k = m₂.carried package k → m₁ = m₂ := by
    intro m₁ hm₁ m₂ hm₂ heq
    obtain ⟨q₁, hq₁, -, h₁⟩ := (ha.mem_modules m₁).1 hm₁
    obtain ⟨q₂, hq₂, -, h₂⟩ := (ha.mem_modules m₂).1 hm₂
    have hpath := congrArg Module.path heq
    rw [Module.path_carried (hnames hq₁) (Module.path_of_ofRelative? h₁),
      Module.path_carried (hnames hq₂) (Module.path_of_ofRelative? h₂)] at hpath
    obtain rfl := hmove.injOn hq₁ hq₂ (Path.ofNames_inj (hnew hq₁) (hnew hq₂) hpath)
    exact Option.some.inj (h₁.symm.trans h₂)
  have hdistinct {s : Snapshot} {u : FileTree} (hs : s.Indexes u base) : s.modules.Nodup :=
    List.Nodup.of_map _ hs.nodup
  refine (List.perm_ext_iff_of_nodup (hdistinct hb) (List.Nodup.map_on hinj (hdistinct ha))).2 fun m => ?_
  rw [hb.mem_modules, List.mem_map, hlayout]
  constructor
  · rintro ⟨q', hq', hlists, hm⟩
    obtain ⟨q, hq, rfl⟩ := hmove.exists_of_mem hq'
    rw [hrelative hq] at hm
    obtain ⟨m₀, hm₀, rfl⟩ := Option.map_eq_some_iff.1 hm
    exact ⟨m₀, (ha.mem_modules m₀).2 ⟨q, hq, (h.lists_iff hexcludes hq).1 hlists, hm₀⟩, rfl⟩
  · rintro ⟨m₀, hm₀, rfl⟩
    obtain ⟨q, hq, hlists, hm⟩ := (ha.mem_modules m₀).1 hm₀
    refine ⟨_, hmove.bijOn.mapsTo hq, (h.lists_iff hexcludes hq).2 hlists, ?_⟩
    rw [hrelative hq, hm, Option.map_some]

end Snapshot

end Reroot

import Reroot.Proofs.Change.Success
import Reroot.Proofs.Run.Visibility
import Reroot.Proofs.Survey

namespace Reroot

open FileTree Scan Python Runner
open Reroot.Path (IsName)

namespace FileTree

variable {t t' : FileTree} {root : Path} {base here as names : List String} {top top' : Entry}

theorem Leads.transport (h : Leads top here as names)
    (hdirs : ∀ pre, pre <+: as → top.view (landing here pre) = some .dir →
      top'.view (landing here pre) = some .dir) : Leads top' here as names := by
  induction h with
  | done here => exact .done here
  | stay hdir _ ih =>
    refine .stay (hdirs [] List.nil_prefix hdir) (ih fun pre hpre hview => ?_)
    exact hdirs ("." :: pre) (by simpa using hpre) (by simpa [landing] using hview)
  | up hdir _ ih =>
    refine .up (hdirs [] List.nil_prefix hdir) (ih fun pre hpre hview => ?_)
    have := hdirs (".." :: pre) (by simpa using hpre)
    simp only [landing, show (".." == ".") = false from rfl] at this
    exact this hview
  | @down here rest names s hdir hdot hup hshort _ hrest ih =>
    have hland (pre : List String) : landing here (s :: pre) = landing (here ++ [s]) pre := by
      simp [landing, hdot, hup]
    refine .down (hdirs [] List.nil_prefix hdir) hdot hup hshort (fun hne => ?_)
      (ih fun pre hpre hview => ?_)
    · have hnext := hdirs [s] (by simp) ((congrArg top.view (hland [])).trans (hrest.start hne))
      rw [hland] at hnext
      exact ne_of_eq_of_ne hnext (by simp)
    · have hview' := hdirs (s :: pre) (by simpa using hpre)
      rw [hland] at hview'
      exact hview' hview

theorem RootAt.transport (hfree : t.top.LinkFree) (hfree' : t'.top.LinkFree) (h : t.RootAt root base)
    (hworkdir : t'.workdir = t.workdir)
    (hdirs : ∀ pre, pre <+: root.pieces → t.view (landing (t.base root) pre) = some .dir →
      t'.view (landing (t.base root) pre) = some .dir) : t'.RootAt root base := by
  have hdir := h.dir
  have hplace := h.eq_place hfree
  obtain ⟨es, hes⟩ := h
  obtain ⟨⟨htext, hleads⟩, -⟩ := reaches_of_resolve hfree hes
  have hbase : t'.base root = t.base root := by rw [FileTree.base, FileTree.base, hworkdir]
  have hreaches : t'.Reaches root base := by
    refine ⟨htext, ?_⟩
    rw [hbase]
    refine hleads.transport fun pre hpre hview => ?_
    rw [steps] at hpre
    split at hpre
    · obtain rfl | hpre := List.prefix_concat_iff.1 hpre
      · rw [landing_append] at hview ⊢
        exact hdirs _ List.prefix_rfl hview
      · exact hdirs pre hpre hview
    · exact hdirs pre hpre hview
  have hdir' : t'.view base = some .dir := by
    rw [hplace] at hdir ⊢
    exact hdirs root.pieces List.prefix_rfl hdir
  obtain ⟨es', hes'⟩ := Entry.view_eq_some_dir_iff.1 hdir'
  exact ⟨es', hes' ▸ hreaches.resolve hfree' true⟩

end FileTree

variable {t t' u : FileTree} {root : Path} {l : Layout} {a b : Snapshot} {m : TopLevelModule}
  {package : QualifiedName} {k : String} {cs : ChangeSet} {n : Nat}

structure Admits (t : FileTree) (root : Path) (a : Snapshot) (m : TopLevelModule)
    (package : QualifiedName) : Prop where
  single : ∀ y ∈ a.modules, y.topLevel = m.name → Path.ofParts (y.path.parts.take 1) = m.path
  visible : ∀ s ∈ package.segments, s ∉ skippedNames
  short : ∀ s ∈ package.segments, s.utf8ByteSize ≤ 255
  noFile : ∀ pre, pre ≠ [] → pre <+: package.segments → ∀ bytes,
    t.view (t.place root ++ pre) ≠ some (.file bytes)
  free : ∀ y ∈ a.modules, y.topLevel = m.name →
    package.text ++ "." ++ y.identifier ∉ a.modules.map (·.identifier)
  aside : ∀ pre, pre <+: root.pieces →
    ¬t.place root ++ m.path.pieces <+: landing (t.base root) pre

theorem rootAt_of_capture {excludes : List Glob} (hfree : t.top.LinkFree)
    (h : Snapshot.capture t root l excludes = .ok a) (hne : a.modules ≠ []) : t.RootAt root (t.place root) := by
  obtain ⟨fs, hfs, hmodules⟩ := Snapshot.filesBelow_of_capture h
  have hfsne : fs ≠ [] := by
    rintro rfl
    exact hne (by simpa using hmodules)
  rw [filesBelow] at hfs
  split at hfs
  · cases hfs
  · next es hentry =>
    obtain ⟨names, hresolve⟩ := entry?_ok hentry
    obtain ⟨hreaches, hat⟩ := reaches_of_resolve hfree hresolve
    rw [← hreaches.eq_place]
    exact ⟨es, by rw [hreaches.resolve hfree true, ← hat]⟩
  · cases hfs
    exact absurd rfl hfsne
  · next target hentry =>
    obtain ⟨names, hresolve⟩ := entry?_ok hentry
    exact absurd (view_eq_of_entry (entry_of_resolve hresolve).symm) (hfree names target)

section Names

variable (htidy : t.top.Tidy) (ha : a.IsOf t root l) (hpath : m.path = Path.ofNames [k]) (hk : IsName k)
  (hname : m.name = rootOf k) (hadmits : Admits t root a m package)

include htidy ha hpath hk hname hadmits

theorem identifier_carried {y : Module} (hy : y ∈ a.modules) : (y.carried package k).identifier =
    carry (some (m.name, package.text ++ "." ++ m.name)) y.identifier := by
  obtain ⟨q, hq, -, hrelative⟩ := (ha.mem_modules y).1 hy
  have hnames := isName_of_mem_filesUnder htidy hq
  obtain ⟨k', q, rfl⟩ := List.exists_cons_of_ne_nil hq.1
  have hroot : rootOf y.identifier = rootOf k' := Module.rootOf_identifier hnames hrelative
  have hplace := Module.path_of_ofRelative? hrelative
  rw [carry_into (hname ▸ not_mem_rootOf k), Module.carried_eq hnames hplace, hroot, hname]
  simp only [List.head?_cons, Option.some.injEq]
  by_cases hkk : k' = k
  · rw [if_pos hkk, if_pos (congrArg rootOf hkk)]
  · rw [if_neg hkk, if_neg fun heq => hkk ?_]
    have hentry := hadmits.single y hy (by rw [Module.topLevel_eq_rootOf, hroot, heq, hname])
    rw [hplace, Path.parts_ofNames hnames, List.map_cons, List.take_succ_cons, List.take_zero,
      hpath] at hentry
    have hinj : [k'] = [k] := Path.ofNames_inj (by simpa using hnames k' (by simp)) (by simpa using hk)
      ((Path.ofParts_names [k']).symm.trans hentry)
    simpa using hinj

theorem carries_of_perm (hperm : b.modules.Perm (a.modules.map (Module.carried package k))) :
    a.Carries (carry (some (m.name, package.text ++ "." ++ m.name))) b := by
  rw [Snapshot.Carries, Snapshot.identifiers, Snapshot.identifiers]
  refine (hperm.map _).trans (.of_eq ?_)
  rw [List.map_map, List.map_map]
  exact List.map_congr_left fun y hy => identifier_carried htidy ha hpath hk hname hadmits hy

end Names

theorem mem_importsOf {r : Analyzer} {s : Snapshot} {y : Module} {x : String} :
    x ∈ Survey.importsOf r t s y ↔ ∃ source names, s.readSource t y = .ok source ∧
      r.importedNames? source = some names ∧ x ∈ names := by
  delta Survey.importsOf
  cases s.readSource t y with
  | error => simp
  | ok source => cases h : r.importedNames? source <;> simp [h]

theorem exists_import_of_mem (hfree : t.top.LinkFree) (htidy : t.top.Tidy) (ha : a.IsOf t root l)
    (hm : IsMovable m package k) (hmarker : k = l.marker → [l.marker] ∉ t.filesUnder root)
    (hplan : planMove t a m package.text = .ok cs) (hlists : ListsMoved t a m package)
    (happly : cs.apply root t = .ok n t') (hb : b.IsOf t' root l) {x : String}
    (hx : x ∈ (Survey.capture Python.analyzer t' b).imports) :
    ∃ y ∈ (Survey.capture Python.analyzer t a).imports,
      x = carry (some (m.name, package.text ++ "." ++ m.name)) y := by
  obtain ⟨old, new, edits, t₁, u, hold, hnew, hplanned, hrewrites, hextends, hfiles, hrelocates,
    hsteady⟩ := relocates_of_apply_planMove hm hfree htidy ha hplan happly
  have hsteady' := (hrewrites.toSteady.trans hextends.steady).trans hsteady
  have hsegments := (hm.segments hold hnew).1
  have holdText := QualifiedName.text_of_parse hold
  have hnewText := QualifiedName.text_of_parse hnew
  obtain ⟨y', hy', hx⟩ := List.mem_flatMap.1 hx
  obtain ⟨source', names, hread', hnames, hx⟩ := mem_importsOf.1 hx
  obtain ⟨q', hq', hvisible', hat', hpath'⟩ := hb.exists_file hy'
  have htext' := hb.textAt (hsteady'.linkFree hfree) (hsteady'.tidy htidy) hq' hpath' hread'
  obtain ⟨q, hq, rfl⟩ := hrelocates.exists_of_mem hq'
  have hqt : q ∈ t.filesUnder root := by rwa [hfiles] at hq
  obtain ⟨hvisible, hat⟩ := isModule_of_relocate package.isName (isName_of_mem_filesUnder htidy hqt)
    (fun hk => by
      rintro rfl
      exact hmarker (List.mem_singleton.1 hk).symm hqt) hvisible' hat'
  have htext := hextends.textAt (hrelocates.textAt hq htext')
  obtain ⟨y, hy, hpath⟩ := ha.exists_module hqt hvisible hat
  obtain ⟨source, hread, -⟩ := hplanned.module y hy
  obtain ⟨source₀, htext₀, hrenamed⟩ :=
    hplanned.textAt_of_all hfree htidy ha hrewrites hqt hvisible hat htext
  obtain rfl := htext₀.eq (ha.textAt hfree htidy hqt hpath hread)
  obtain ⟨hnone, rfl⟩ | ⟨r, hr, rfl⟩ := hrenamed
  · refine ⟨x, List.mem_flatMap.2 ⟨y, hy, mem_importsOf.2 ⟨_, names, hread, hnames, hx⟩⟩, ?_⟩
    exact (carry_of_rootOf_ne hm.single (rootOf_ne_of_renameModule_none hsegments hnone hnames x hx)).symm
  · obtain ⟨names₀, hnames₀, rfl⟩ := hlists old new hold hnew y hy _ hread r names hr hnames
    obtain ⟨x₀, hx₀, rfl⟩ := List.mem_map.1 hx
    rw [holdText, hnewText]
    exact ⟨x₀, List.mem_flatMap.2 ⟨y, hy, mem_importsOf.2 ⟨_, names₀, hread, hnames₀, hx₀⟩⟩, rfl⟩

theorem FileTree.Relocates.view_dir {S : List String → Prop} {base front ns : List String}
    (hbase : ∀ s ∈ base, IsName s) (hvaries : Varies S t u)
    (h : u.Relocates (.ofPlace base) front k t') (hnone : t.view (base ++ (front ++ [k])) = none)
    (haside : ¬base ++ [k] <+: ns) (hdir : t.view ns = some .dir) : t'.view ns = some .dir := by
  obtain ⟨shape, hshape, hlike, -⟩ := hvaries.kept ns .dir hdir
  rw [hlike.eq_dir] at hshape
  rw [h.moves.view, place_ofPlace hbase, if_neg, if_neg haside, hshape]
  -- The new place was free, and so nothing was below it.
  rintro ⟨rest, rfl⟩
  by_cases hrest : rest = []
  · subst hrest
    rw [List.append_nil, hnone] at hdir
    cases hdir
  · rw [view_below_eq_none (by simp [hnone]) hrest] at hdir
    cases hdir

theorem exists_module_of_mem_topLevelModules (hm : m ∈ a.topLevelModules) : a.modules ≠ [] := by
  obtain ⟨-, m₀, hm₀, -⟩ := Snapshot.exists_of_mem_topLevelModules hm
  exact List.ne_nil_of_mem hm₀

theorem not_mem_filesUnder_marker {base q : List String} {m₀ : Module} (hk : IsName k)
    (hplace : t.place root = base) (hbase : ∀ s ∈ base, IsName s)
    (hq : k :: q ∈ t.filesUnder (.ofPlace base))
    (hmodule : Module.ofRelative? l (Path.ofNames (k :: q)) = some m₀) (hmarker : k = l.marker) :
    [l.marker] ∉ t.filesUnder root := by
  rintro ⟨-, bytes, hview⟩
  subst hmarker
  rw [hplace] at hview
  obtain ⟨-, bytes', hview'⟩ := (mem_filesUnder_ofPlace hbase).1 hq
  by_cases hnil : q = []
  · subst hnil
    exact Module.not_isAt_marker hk ⟨m₀, hmodule⟩
  · have hdir : t.view (base ++ [l.marker]) = some .dir := by
      refine Entry.view_eq_dir_of_append hnil ?_
      rw [List.append_assoc, List.singleton_append]
      exact ne_of_eq_of_ne hview' (by simp)
    rw [hview] at hdir
    cases hdir

theorem Admits.isOpen (hfree : t.top.LinkFree) (hadmits : Admits t root a m package)
    (hroot : t.RootAt root (t.place root)) : t.Open (t.place root) package.segments := by
  intro pre hpre
  cases hview : t.view (t.place root ++ pre) with
  | none => exact .inl rfl
  | some shape =>
    cases shape with
    | dir => exact .inr rfl
    | link target => exact absurd hview (hfree _ target)
    | file bytes =>
      refine absurd hview (hadmits.noFile pre ?_ hpre bytes)
      rintro rfl
      rw [List.append_nil, hroot.dir] at hview
      cases hview

structure IsEntry (t : FileTree) (root : Path) (l : Layout) (a : Snapshot) (m : TopLevelModule)
    (package : QualifiedName) (k : String) : Prop where
  rootAt : t.RootAt root (t.place root)
  indexes : a.Indexes t (t.place root)
  isOf : a.IsOf t root l
  movable : IsMovable m package k
  name : m.name = rootOf k
  marker : k = l.marker → [l.marker] ∉ t.filesUnder root
  watched : m.name ∈ a.topLevelNames

theorem exists_isEntry (hfree : t.top.LinkFree) (htidy : t.top.Tidy)
    (hcapture : Snapshot.capture t root l [] = .ok a) (hm : m ∈ a.topLevelModules)
    (hplan : planMove t a m package.text = .ok cs) : ∃ k, IsEntry t root l a m package k := by
  have hroot := rootAt_of_capture hfree hcapture (exists_module_of_mem_topLevelModules hm)
  have ha := Snapshot.indexes_of_capture htidy hroot hcapture
  obtain ⟨-, hlayout, -, -⟩ := Snapshot.capture_ok hcapture
  obtain ⟨hwatched, k, q, m₀, -, hq, hmodule, hpath, hk, hname⟩ := ha.exists_entry htidy hm
  rw [hlayout] at hmodule
  obtain ⟨houtside, -, -⟩ := of_moveFault? (exists_of_planMove hplan).1
  exact ⟨k, hroot, ha, Snapshot.isOf_of_capture hfree htidy hcapture,
    ⟨hpath, hk, hname ▸ not_mem_rootOf k, houtside⟩, hname,
    not_mem_filesUnder_marker hk rfl (hroot.isName htidy) hq hmodule, hwatched⟩

section Checks

variable (hentry : IsEntry t root l a m package k) (hfree : t.top.LinkFree) (htidy : t.top.Tidy)
  (hadmits : Admits t root a m package) (hplan : planMove t a m package.text = .ok cs)

include hentry in
theorem IsEntry.isName : ∀ s ∈ package.segments ++ [k], IsName s := fun s hs =>
  (List.mem_append.1 hs).elim (package.isName s) fun hs => List.mem_singleton.1 hs ▸ hentry.movable.entry

include hentry in
theorem IsEntry.not_isPrefix : ¬[k] <+: package.segments := by
  intro hprefix
  obtain ⟨s, rest, hs⟩ := List.exists_cons_of_ne_nil package.nonempty
  have hfirst : package.first = s := by simp [QualifiedName.first, hs]
  obtain rfl : k = s := by simpa [hs] using hprefix
  refine hentry.movable.outside ?_
  rw [hentry.name, rootOf_of_not_mem (package.not_mem_segment k (by simp [hs])), hfirst]

include hentry hplan in
theorem IsEntry.changes : t.isPresent (root.join (Path.ofNames [k])) = true ∧
    t.isPresent (root.join (Path.ofNames (package.segments ++ [k]))) = false ∧
    ∃ edits, (∀ c ∈ edits, c.EditsAt (fun _ => True) t (t.place root)) ∧
      (∀ p n expected updated, .edit p n expected updated ∈ edits →
        t.readText (root.join p) = .ok expected) ∧
      cs.changes = edits ++ [.move (Path.ofNames [k]) (Path.ofNames (package.segments ++ [k]))] := by
  obtain ⟨-, hpresent, hfree⟩ := of_moveFault? (exists_of_planMove hplan).1
  obtain ⟨old, new, edits, -, -, hplanned, -, hchanges⟩ := planMove_ok hplan
  have htarget : moveTarget package m = Path.ofNames (package.segments ++ [k]) := by
    rw [moveTarget, hentry.movable.path, Path.join_ofNames package.nonempty (by simp) package.isName
      (by simpa using hentry.movable.entry)]
  rw [Snapshot.absolute, hentry.isOf.root_eq, hentry.movable.path] at hpresent
  rw [Snapshot.absolute, hentry.isOf.root_eq, htarget] at hfree
  rw [htarget, hentry.movable.path] at hchanges
  refine ⟨hpresent, hfree, edits, hplanned.editsAt (fun _ hm => hm) hentry.indexes fun _ _ => trivial,
    fun p n expected updated hc => ?_, hchanges⟩
  obtain ⟨y, -, source, r, hread, -, heq⟩ := hplanned.edit _ hc
  cases heq
  rwa [Snapshot.readSource, Snapshot.absolute, hentry.isOf.root_eq] at hread

include hentry hfree htidy hplan in
theorem IsEntry.short (happly : cs.apply root t = .ok n t') :
    ∀ s ∈ package.segments, s.utf8ByteSize ≤ 255 := by
  obtain ⟨-, -, edits, hedits, -, hchanges⟩ := hentry.changes hplan
  obtain ⟨-, -, -, hshort⟩ := ChangeSet.moves_of_apply hentry.rootAt htidy hchanges hedits
    package.nonempty hentry.isName (clear_of_linkFree hfree) happly
  exact (List.forall_mem_append.1 hshort).1

include hentry hfree htidy hadmits hplan

theorem exists_apply_of_planMove : ∃ n t', cs.apply root t = .ok n t' := by
  obtain ⟨hsource, htarget, edits, hedits, hreads, hchanges⟩ := hentry.changes hplan
  exact ChangeSet.apply_of_open hfree htidy hentry.rootAt hchanges hedits hreads package.nonempty
    hentry.isName hadmits.short (hadmits.isOpen hfree hentry.rootAt) hentry.not_isPrefix hsource htarget

theorem IsEntry.exists_refresh (happly : cs.apply root t = .ok n t') :
    ∃ b, a.refresh t' = .ok b ∧ b.IsOf t' root l ∧ checkMoved t' b m = .ok () ∧
      a.Carries (carry (some (m.name, package.text ++ "." ++ m.name))) b := by
  obtain ⟨-, -, edits, hedits, -, hchanges⟩ := hentry.changes hplan
  have hbase := hentry.rootAt.isName htidy
  have hclear : Clear t.top (t.place root) (package.segments ++ [k]) := clear_of_linkFree hfree
  obtain ⟨u, hvaries, hrelocates, hnone⟩ := ChangeSet.relocates_of_apply hentry.rootAt htidy hchanges
    hedits package.nonempty hentry.isName hclear happly
  have hsteady : t.Steady t' := Change.steady_of_performAll hfree (ChangeSet.apply_ok happly).2
  have hfree' := hsteady.linkFree hfree
  have htidy' := hsteady.tidy htidy
  have hpieces : m.path.pieces = [k] := hentry.movable.isPlain.2
  have hroot : t'.RootAt root (t.place root) := by
    refine hentry.rootAt.transport hfree hfree' hsteady.workdir fun pre hpre hdir => ?_
    refine hrelocates.view_dir hbase hvaries hnone ?_ hdir
    rw [← hpieces]
    exact hadmits.aside pre hpre
  obtain ⟨b, hb⟩ := Snapshot.exists_capture hroot l []
  obtain ⟨hbroot, hblayout, hbexcludes, -⟩ := Snapshot.capture_ok hb
  have hrefresh : a.refresh t' = .ok b := by
    rw [Snapshot.refresh, hentry.isOf.root_eq, hentry.isOf.layout_eq, hentry.isOf.excludes_eq, hb]
  have habsent := hrelocates.view_source
  rw [place_ofPlace hbase] at habsent
  have hfiles : t.filesUnder (.ofPlace (t.place root)) = t.filesUnder root := by
    rw [filesUnder, place_ofPlace hbase, filesUnder]
  have htolerates : a.Tolerates t (t.place root) package k := by
    refine ⟨isSkipped_of_mem_segments hadmits.visible, fun q _ _ => ?_, fun hmarker => ?_⟩
    · rw [hentry.isOf.excludes_eq]
      rfl
    · rw [hfiles]
      rw [hentry.isOf.layout_eq] at hmarker ⊢
      exact hentry.marker hmarker
  have hperm := (hentry.indexes.congr hvaries.filesUnder_eq).perm_carried
    (Snapshot.indexes_of_capture htidy' hroot hb) (hblayout.trans hentry.isOf.layout_eq.symm)
    (hbexcludes.trans hentry.isOf.excludes_eq.symm) (hvaries.tidy htidy) hrelocates
    (htolerates.congr hvaries.filesUnder_eq)
  refine ⟨b, hrefresh, Snapshot.isOf_of_capture hfree' htidy' hb, ?_,
    carries_of_perm htidy hentry.isOf hentry.movable.path hentry.movable.entry hentry.name hadmits hperm⟩
  rw [checkMoved, Snapshot.absolute, hbroot, hentry.movable.path,
    not_isPresent_of_view hroot hentry.movable.entry habsent]
  rfl

theorem checkConsistency_of_planMove (hlists : ListsMoved t a m package)
    (happly : cs.apply root t = .ok n t') (hb : b.IsOf t' root l)
    (hcarries : a.Carries (carry (some (m.name, package.text ++ "." ++ m.name))) b) :
    checkConsistency t' [] (some (m.name, package.text ++ "." ++ m.name))
      ⟨a, Survey.capture Python.analyzer t a⟩ ⟨b, Survey.capture Python.analyzer t' b⟩ = .ok () := by
  have hsingle := hentry.movable.single
  have hnew : ∀ i ∈ a.identifiers, rootOf i = m.name → package.text ++ "." ++ i ∉ a.identifiers := by
    intro i hi hroot
    obtain ⟨y, hy, rfl⟩ := List.mem_map.1 hi
    exact hadmits.free y hy ((Module.topLevel_eq_rootOf y).trans hroot)
  exact checkConsistency_of_carries hsingle hentry.watched
    (hcarries.length_duplicates_le (Snapshot.carry_into_inj hsingle hnew))
    (fun x hx => exists_import_of_mem hfree htidy hentry.isOf hentry.movable hentry.marker hplan hlists
      happly hb hx) fun name hname => hcarries.holds hsingle hname

end Checks

variable {r : Runner} {s s₁ : Session}

theorem step_moveModule_applied (hfree : s.tree.top.LinkFree) (htidy : s.tree.top.Tidy)
    (hcapture : Snapshot.capture s.tree root l [] = .ok s.snapshot)
    (hm : m ∈ s.snapshot.topLevelModules) (hadmits : Admits s.tree root s.snapshot m package)
    (hlists : ListsMoved s.tree s.snapshot m package) (hr : r.analyzer = Python.analyzer)
    (hsearch : r.search = []) (hquiet : s.operator.Quiet)
    (hplan : planMove s.tree s.snapshot m package.text = .ok cs)
    (hdecide : r.decide cs (s.note (.planning (.moveModule m package.text) s.tree s.snapshot)) =
      .ok .apply s₁) :
    ∃ n t' b s', cs.apply root s.tree = .ok n t' ∧ s.snapshot.refresh t' = .ok b ∧
      checkMoved t' b m = .ok () ∧
      checkConsistency t' r.search (Transformation.moveModule m package.text).renamed?
        ⟨s.snapshot, Survey.capture r.analyzer s.tree s.snapshot⟩
        ⟨b, Survey.capture r.analyzer t' b⟩ = .ok () ∧
      r.step (.moveModule m package.text) s = .ok (.applied cs.description) s' ∧ s'.tree = t' := by
  obtain ⟨k, hentry⟩ := exists_isEntry hfree htidy hcapture hm hplan
  obtain ⟨n, t', happly⟩ := exists_apply_of_planMove hentry hfree htidy hadmits hplan
  obtain ⟨b, hrefresh, hb, hmoved, hcarries⟩ := hentry.exists_refresh hfree htidy hadmits hplan happly
  have hcheck := checkConsistency_of_planMove hentry hfree htidy hadmits hplan hlists happly hb hcarries
  rw [← hr, ← hsearch] at hcheck
  have hnoted := Session.follows_note hquiet (.planning (.moveModule m package.text) s.tree s.snapshot)
  have hfollows := follows_decide (r := r) hnoted.quiet cs
  rw [hdecide] at hfollows
  have htree : s₁.tree = s.tree := hfollows.tree
  have hsnapshot : s₁.snapshot = s.snapshot := hfollows.snapshot
  have hcarry : r.carryOut s₁.snapshot (.moveModule m package.text) cs s₁.tree = .ok () t' := by
    rw [htree, hsnapshot]
    rw [← hentry.isOf.root_eq] at happly
    exact carryOut_of_checks happly hrefresh hmoved hcheck
  have hchanges : (Transformation.moveModule m package.text).changes r.analyzer s.tree s.snapshot =
      .ok cs := by
    rw [hr]
    exact hplan
  exact ⟨n, t', b, _, happly, hrefresh, hmoved, hcheck, step_of_decide hchanges hdecide hcarry, rfl⟩

theorem admits_selfImport :
    Admits SelfImport.tree ⟨"/"⟩ SelfImport.snapshot SelfImport.module SelfImport.target where
  single := by decide +kernel
  visible := by decide
  short := by decide
  noFile pre hne hpre bytes := by
    obtain rfl : pre = ["p"] := by simpa [SelfImport.target, List.prefix_cons_iff, hne] using hpre
    simp [show SelfImport.tree.view (SelfImport.tree.place ⟨"/"⟩ ++ ["p"]) = some .dir from rfl]
  free := by decide +kernel
  aside pre hpre := by
    obtain rfl : pre = [] := List.prefix_nil.1 hpre
    decide

theorem step_moveModule_applied_selfImport : ∃ n t' b s',
    SelfImport.changes.apply ⟨"/"⟩ SelfImport.tree = .ok n t' ∧
      SelfImport.snapshot.refresh t' = .ok b ∧ checkMoved t' b SelfImport.module = .ok () ∧
      checkConsistency t' []
        (Transformation.moveModule SelfImport.module SelfImport.target.text).renamed?
        ⟨SelfImport.snapshot, Survey.capture Python.analyzer SelfImport.tree SelfImport.snapshot⟩
        ⟨b, Survey.capture Python.analyzer t' b⟩ = .ok () ∧
      SelfImport.runner.step (.moveModule SelfImport.module SelfImport.target.text)
        ⟨SelfImport.tree, SelfImport.snapshot, Operator.scripted [] [], []⟩ =
          .ok (.applied SelfImport.changes.description) s' ∧ s'.tree = t' := by
  have hstep := step_moveModule_applied (r := SelfImport.runner)
    (s := ⟨SelfImport.tree, SelfImport.snapshot, Operator.scripted [] [], []⟩) SelfImport.linkFree_tree
    SelfImport.tidy_tree SelfImport.capture_tree SelfImport.mem_topLevelModules admits_selfImport
    SelfImport.listsMoved rfl rfl (Operator.quiet_scripted [] []) SelfImport.planMove_tree rfl
  exact hstep

example :
    let t : FileTree := ⟨.dir [("m", .dir [("__init__.py", .file "".toUTF8)])], []⟩
    (match Snapshot.capture t ⟨"m/.."⟩ .standard [] with
      | .error _ => none
      | .ok a =>
        match planMove t a ⟨"m", ⟨"m"⟩, true⟩ "p" with
        | .error _ => none
        | .ok cs =>
          match cs.apply ⟨"m/.."⟩ t with
          | .error .. => none
          | .ok _ t' => some (a.refresh t').toOption.isSome) = some false := by
  decide +kernel

namespace LongName

def run (n : Nat) : String :=
  String.ofList (List.replicate n 'a')

theorem length_run (n : Nat) : (run n).length = n := by
  rw [run, String.length_ofList, List.length_replicate]

theorem isSegment_run {n : Nat} (hn : 8 < n) : isSegment (run n) = true := by
  have hword : isWord (run n) = true := by
    obtain ⟨k, rfl⟩ : ∃ k, n = k + 1 := ⟨n - 1, by omega⟩
    simp [run, isWord, List.replicate_succ, List.all_replicate]
  have hkeyword : isKeyword (run n) = false := by
    have hlength : ∀ w ∈ keywords, w.length ≤ 8 := by decide +kernel
    rw [isKeyword, ← Bool.not_eq_true, List.contains_iff_mem]
    intro hmem
    have hle := hlength (run n) hmem
    rw [length_run] at hle
    omega
  rw [isSegment, hkeyword, hword]
  rfl

def target : QualifiedName :=
  ⟨[run 256], by simp, by simpa using isSegment_run (by decide)⟩

theorem linkFree_tree : Hidden.tree.top.LinkFree :=
  Entry.linkFree_dir (by simp [Entry.linkFree_file])

theorem tidy_tree : Hidden.tree.top.Tidy :=
  .dir (List.pairwise_singleton _ _) (by simpa using ⟨by decide, by decide, by decide, by decide⟩)
    (by simp [Entry.Tidy.file])

theorem mem_topLevelModules : Hidden.module ∈ Hidden.snapshot.topLevelModules := by
  have hnames : Hidden.snapshot.topLevelNames = ["m"] := by
    change sortedNames ["m"] = ["m"]
    exact sortedNames_eq (List.pairwise_singleton _ _) fun _ => Iff.rfl
  simp only [Snapshot.topLevelModules, hnames]
  decide +kernel

theorem not_short : ¬(run 256).utf8ByteSize ≤ 255 := by
  decide +kernel

theorem planMove_tree : ∃ cs, planMove Hidden.tree Hidden.snapshot Hidden.module target.text = .ok cs := by
  have hmodule : (Path.ofNames ["m.py"]).IsPlain :=
    Path.isPlain_ofNames (by simp) (by simpa using ⟨by decide, by decide, by decide, by decide⟩)
  have hold : QualifiedName.parse "m" = .ok ⟨["m"], by decide, by decide⟩ := by decide +kernel
  have hnew : target.child "m" = .ok ⟨[run 256, "m"], by simp, by
      simpa using ⟨isSegment_run (by decide), by decide⟩⟩ := by
    rw [QualifiedName.child, ← QualifiedName.parse_text]
    rfl
  have hfault : moveFault? Hidden.tree Hidden.snapshot Hidden.module target = none := by
    have hfirst : target.first ≠ Hidden.module.name := by
      intro heq
      have hlength := (length_run 256).symm.trans (congrArg String.length heq)
      exact absurd hlength (by decide)
    have hfree : Hidden.tree.isPresent
        (Hidden.snapshot.absolute (moveTarget target Hidden.module)) = false := by
      rw [← Bool.not_eq_true]
      intro hpresent
      have hplain : (moveTarget target Hidden.module).IsPlain :=
        (Path.isPlain_ofNames target.nonempty target.isName).join hmodule
      refine not_short ((view_of_isPresent linkFree_tree hplain hpresent).2 (run 256) ?_)
      rw [moveTarget, Path.pieces_join (by decide), Path.pieces_ofNames target.isName]
      simp [target]
    rw [moveFault?, if_neg (by decide +kernel), if_neg hfirst, if_neg (by decide +kernel), hfree]
    rfl
  exact planMove_of_edits hold hnew hfault rfl

theorem listsMoved : ListsMoved Hidden.tree Hidden.snapshot Hidden.module target := by
  rintro old new hold - y hy source hsource r names hr -
  obtain rfl : old = ⟨["m"], by decide, by decide⟩ :=
    Except.ok.inj (hold.symm.trans (by decide +kernel))
  obtain rfl := List.mem_singleton.1 hy
  obtain rfl : source = "" := Except.ok.inj (hsource.symm.trans rfl)
  have hnone : renameModule "" ⟨["m"], by decide, by decide⟩ new = .ok none := rfl
  rw [hnone] at hr
  cases hr

end LongName

theorem not_apply_of_longName :
    Hidden.tree.top.LinkFree ∧ Snapshot.capture Hidden.tree ⟨"/"⟩ .standard [] = .ok Hidden.snapshot ∧
      Hidden.module ∈ Hidden.snapshot.topLevelModules ∧
      (∀ y ∈ Hidden.snapshot.modules, Path.ofParts (y.path.parts.take 1) = Hidden.module.path) ∧
      (∀ s ∈ LongName.target.segments, s ∉ skippedNames) ∧
      (∀ pre, pre ≠ [] → pre <+: LongName.target.segments → Hidden.tree.view pre = none) ∧
      (∀ y ∈ Hidden.snapshot.modules,
        LongName.target.text ++ "." ++ y.identifier ∉ Hidden.snapshot.modules.map (·.identifier)) ∧
      ListsMoved Hidden.tree Hidden.snapshot Hidden.module LongName.target ∧
      ∃ cs, planMove Hidden.tree Hidden.snapshot Hidden.module LongName.target.text = .ok cs ∧
        ∀ n t', cs.apply ⟨"/"⟩ Hidden.tree ≠ .ok n t' := by
  have hcapture : Snapshot.capture Hidden.tree ⟨"/"⟩ .standard [] = .ok Hidden.snapshot := rfl
  have hne : ∀ w : String, w.length ≤ 13 → w ≠ LongName.run 256 := by
    rintro w hw rfl
    rw [LongName.length_run] at hw
    omega
  have hvisible : ∀ s ∈ LongName.target.segments, s ∉ skippedNames := by
    have hlength : ∀ w ∈ skippedNames, w.length ≤ 13 := by decide +kernel
    intro s hs hmem
    exact hne s (hlength s hmem) (List.mem_singleton.1 hs)
  have hfree : ∀ pre, pre ≠ [] → pre <+: LongName.target.segments → Hidden.tree.view pre = none := by
    intro pre hpre hprefix
    obtain rfl : pre = [LongName.run 256] := by
      simpa [LongName.target, List.prefix_cons_iff, hpre] using hprefix
    have hentry := hne "m.py" (by decide)
    simp [FileTree.view, Hidden.tree, Entry.view_dir_cons, hentry, Entry.find?]
  have hnew : ∀ y ∈ Hidden.snapshot.modules, LongName.target.text ++ "." ++ y.identifier ∉
      Hidden.snapshot.modules.map (·.identifier) := by
    intro y hy hmem
    obtain rfl := List.mem_singleton.1 hy
    have hlength := congrArg String.length (List.mem_singleton.1 hmem)
    simp [String.length_append] at hlength
  obtain ⟨cs, hplan⟩ := LongName.planMove_tree
  refine ⟨LongName.linkFree_tree, hcapture, LongName.mem_topLevelModules, by decide +kernel, hvisible,
    hfree, hnew, LongName.listsMoved, cs, hplan, fun n t' happly => ?_⟩
  obtain ⟨k, hentry⟩ := exists_isEntry LongName.linkFree_tree LongName.tidy_tree hcapture
    LongName.mem_topLevelModules hplan
  exact LongName.not_short (hentry.short LongName.linkFree_tree LongName.tidy_tree hplan happly _
    List.mem_cons_self)

end Reroot

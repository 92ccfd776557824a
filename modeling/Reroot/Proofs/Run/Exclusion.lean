import Reroot.Proofs.Run.Visibility

namespace Reroot

open Reroot.Path (IsName)

namespace FileTree

variable {S : List String → Prop} {t t' t'' : FileTree} {root : Path} {base : List String}

structure Respects (S : List String → Prop) (t t' : FileTree) : Prop where
  kept : ∀ ns s, t.view ns = some s → ∃ s', t'.view ns = some s' ∧ Like s s' ∧ (¬S ns → s' = s)
  links : ∀ ns target, t'.view ns = some (.link target) → t.view ns = some (.link target)
  workdir : t'.workdir = t.workdir
  tidy : t.top.Tidy → t'.top.Tidy

theorem Varies.respects (h : Varies S t t') : Respects S t t' :=
  ⟨h.kept, fun _ _ => h.link_iff.1, h.workdir, h.tidy⟩

theorem Respects.trans (h : Respects S t t') (h' : Respects S t' t'') : Respects S t t'' := by
  refine ⟨fun ns s hs => ?_, fun ns target hlink => h.links ns target (h'.links ns target hlink),
    h'.workdir.trans h.workdir, fun htidy => h'.tidy (h.tidy htidy)⟩
  obtain ⟨s', hs', hlike, hsame⟩ := h.kept ns s hs
  obtain ⟨s'', hs'', hlike', hsame'⟩ := h'.kept ns s' hs'
  exact ⟨s'', hs'', hlike.trans hlike', fun hS => (hsame' hS).trans (hsame hS)⟩

theorem Respects.refl (t : FileTree) : Respects S t t :=
  (Varies.refl t).respects

theorem Respects.rootAt (h : Respects S t t') (hroot : t.RootAt root base) : t'.RootAt root base := by
  refine hroot.keeps (fun ns s hs => ?_) h.workdir
  obtain ⟨s', hs', hlike, -⟩ := h.kept ns s hs
  exact ⟨s', hs', hlike⟩

theorem Respects.clear (h : Respects S t t') {as : List String} (hclear : Clear t.top base as) :
    Clear t'.top base as :=
  fun ns hne hprefix target hlink => hclear ns hne hprefix target (h.links _ target hlink)

theorem Respects.subset (h : Respects S t t') :
    t.filesUnder (.ofPlace base) ⊆ t'.filesUnder (.ofPlace base) := by
  rintro q ⟨hne, bytes, hview⟩
  refine ⟨hne, ?_⟩
  rw [place_eq h.workdir]
  obtain ⟨s', hs', hlike, -⟩ := h.kept _ _ hview
  cases hlike with
  | refl => exact ⟨bytes, hs'⟩
  | file _ bytes' => exact ⟨bytes', hs'⟩

theorem Puts.respects {names : List String} {bytes : ByteArray} (h : t.Puts names (.file bytes) t')
    (hnames : t.top.Tidy → ∀ n ∈ names, IsName n) (hnone : t.view names = none) :
    Respects S t t' := by
  refine ⟨fun ns s hs => ⟨s, ?_, .refl s, fun _ => rfl⟩, fun ns target hlink => ?_, h.workdir,
    fun htidy => h.tidy htidy (hnames htidy)⟩
  · rw [h.view, if_neg, hs]
    rintro rfl
    rw [hnone] at hs
    cases hs
  · rw [h.view] at hlink
    split at hlink
    · cases hlink
    · exact hlink

end FileTree

namespace Change

open FileTree

variable {S : List String → Prop} {t t' : FileTree} {root : Path} {base : List String} {c : Change}
  {cs : List Change} {n : Nat}

def IsMild (S : List String → Prop) (t : FileTree) (base : List String) : Change → Prop
  | c@(.edit ..) => c.EditsAt S t base
  | .create p _ => p.IsPlain ∧ Clear t.top base p.pieces
  | .move .. => False

theorem IsMild.respects (h : c.IsMild S t base) (ht : Respects S t t') : c.IsMild S t' base := by
  cases c with
  | move => exact h.elim
  | create p content => exact ⟨h.1, ht.clear h.2⟩
  | edit p =>
    obtain ⟨q, hq, hp, hS⟩ := h
    exact ⟨q, ht.subset hq, hp, hS⟩

theorem respects_of_perform (hroot : t.RootAt root base) (htidy : t.top.Tidy)
    (hc : c.IsMild S t base) (h : c.perform root t = .ok n t') : Respects S t t' := by
  cases c with
  | move => exact hc.elim
  | edit p replacements expected updated =>
    have hedit : (edit p replacements expected updated).EditsAt S t base := hc
    exact (varies_of_perform hroot htidy hedit h).respects
  | create p content =>
    obtain ⟨hplain, hclear⟩ := hc
    obtain ⟨-, -, rfl⟩ | ⟨habsent, -, t₁, hparents, hwrite⟩ := perform_create_ok h
    · exact .refl _
    have hextends := (widening_makeParents _).ok hparents
    have hrespects : Respects S t t₁ := hextends.varies.respects
    obtain ⟨place, hresolve, hnot, hputs⟩ := writeBytes_resolve hwrite
    obtain ⟨as, s, hpieces⟩ := List.eq_nil_or_concat' p.pieces |>.resolve_left hplain.named
    have hclear₁ := hrespects.clear hclear
    have hspells := (hrespects.rootAt hroot).spells hplain hpieces (hpieces ▸ hclear₁).of_append
      (fun _ target => hclear₁ _ hplain.named List.prefix_rfl target) hresolve
    have hplace : place.names = base ++ p.pieces := by rw [hspells.place, hpieces]
    have hnone := view_eq_none_of_isPresent hroot hplain hclear (hpieces ▸ hspells.short)
      habsent
    refine hrespects.trans (hputs.respects (fun htidy => isName_of_resolve htidy hresolve) ?_)
    rw [hplace] at hnot ⊢
    exact (hextends.new _ hnone).resolve_right hnot

theorem respects_of_performAll (hroot : t.RootAt root base) (htidy : t.top.Tidy)
    (hcs : ∀ c ∈ cs, c.IsMild S t base) (h : performAll root cs t = .ok n t') : Respects S t t' := by
  refine related_of_performAll
    (J := fun cs t => t.RootAt root base ∧ t.top.Tidy ∧ ∀ c ∈ cs, c.IsMild S t base)
    .refl .trans (fun {c cs t u m} hinv hfirst => ?_) ⟨hroot, htidy, hcs⟩ h
  obtain ⟨hroot, htidy, hcs⟩ := hinv
  obtain ⟨hc, hcs⟩ := List.forall_mem_cons.1 hcs
  have hrespects := respects_of_perform hroot htidy hc hfirst
  exact ⟨hrespects, hrespects.rootAt hroot, hrespects.tidy htidy,
    fun d hd => (hcs d hd).respects hrespects⟩

theorem respects_of_performAll_error {e : IoError} (hroot : t.RootAt root base) (htidy : t.top.Tidy)
    (hcs : ∀ c ∈ cs, c.IsMild S t base) (h : performAll root cs t = .error e t') :
    Respects S t t' := by
  obtain ⟨pre, c, post, n, t₁, rfl, hpre, hc⟩ := exists_of_performAll_error h
  exact (respects_of_performAll hroot htidy (fun d hd => hcs d (by simp [hd])) hpre).trans
    (extends_of_perform_error hc).varies.respects

end Change

open FileTree Scan Python Runner Change

variable {S : List String → Prop} {t t' : FileTree} {root : Path} {base q : List String} {l : Layout}
  {excludes : List Glob} {a : Snapshot} {package : QualifiedName} {bytes : ByteArray} {cs : ChangeSet}

theorem respects_of_writes (hroot : t.RootAt root base) (htidy : t.top.Tidy)
    (hcs : ∀ c ∈ cs.changes, c.IsMild S t base) (h : Writes cs root t t') : Respects S t t' := by
  have hordered : ∀ c ∈ cs.ordered, c.IsMild S t base :=
    fun c hc => hcs c (ChangeSet.mem_changes_of_mem_ordered hc)
  obtain ⟨n, h⟩ | ⟨e, h⟩ := h
  · exact respects_of_performAll hroot htidy hordered (ChangeSet.apply_ok h).2
  · obtain ⟨-, rfl⟩ | ⟨-, io, h⟩ := ChangeSet.apply_error h
    · exact .refl t'
    · exact respects_of_performAll_error hroot htidy hordered h

def Snapshot.ListsAt (a : Snapshot) (base ns : List String) : Prop :=
  ∃ q, ns = base ++ q ∧ a.Lists q

namespace Transformation

def goal (l : Layout) (package : QualifiedName) : Transformation → List String
  | renameExternal .. => []
  | convertToPackage directory => directory.pieces ++ [l.marker]
  | moveModule m _ => package.segments ++ m.path.pieces

def Passes (package : QualifiedName) (q : List String) : Transformation → Prop
  | renameExternal .. => True
  | convertToPackage directory => Plan.IsBelow directory
  | moveModule m destination => destination = package.text ∧
      ∃ k, m.path = Path.ofNames [k] ∧ IsName k ∧ q.head? ≠ some k

def Precedes : Transformation → Transformation → Prop
  | moveModule m _, moveModule m' _ => m.path ≠ m'.path
  | moveModule .., _ => False
  | _, _ => True

theorem isMild_of_changes {x : Transformation} (hx : x.Prepares) (hmarker : IsName l.marker)
    (ha : a.Indexes t base) (hlayout : a.layout = l) (hclear : Clear t.top base (x.goal l package))
    (hS : ∀ q, a.Lists q → S (base ++ q)) (h : x.changes Python.analyzer t a = .ok cs) :
    ∀ c ∈ cs.changes, c.IsMild S t base := by
  cases x with
  | moveModule => exact hx.elim
  | convertToPackage d =>
    cases h
    intro c hc
    obtain ⟨d', hd', rfl⟩ := List.mem_map.1 hc
    obtain rfl : d' = d :=
      List.mem_singleton.1 (List.mem_filter.1 (Snapshot.mem_of_mem_sortedPaths hd')).1
    obtain ⟨ns, hne, hnames, rfl⟩ := hx
    have hsingle : ∀ n ∈ [l.marker], IsName n := by simpa using hmarker
    have hplain := Path.isPlain_ofNames (List.cons_ne_nil _ _) hsingle
    rw [hlayout, ← Path.ofNames_singleton l.marker]
    refine ⟨(Path.isPlain_ofNames hne hnames).join hplain, ?_⟩
    rw [Path.pieces_join hplain.relative, Path.pieces_ofNames hsingle]
    exact hclear
  | renameExternal oldName newName scope =>
    obtain ⟨glob, old, new, -, -, -, hedits⟩ := exists_of_renameExternal h
    intro c hc
    have hedit := (planned_of_planEdits hedits).editsAt (fun m hm => (List.mem_filter.1 hm).1) ha hS c hc
    cases c with
    | edit => exact hedit
    | create | move => exact hedit.elim

end Transformation

structure Guarded (root : Path) (base q : List String) (l : Layout) (excludes : List Glob)
    (package : QualifiedName) (bytes : ByteArray) (xs : List Transformation) (t : FileTree) : Prop where
  tidy : t.top.Tidy
  file : t.view (base ++ q) = some (.file bytes)
  rooted : ∀ a, Snapshot.capture t root l excludes = .ok a → t.RootAt root base
  passes : ∀ x ∈ xs, x.Passes package q
  order : xs.Pairwise Transformation.Precedes
  clear : ∀ x ∈ xs.tail, Clear t.top base (x.goal l package)
  head : ∀ x ∈ xs.head?, Clear t.top base (x.goal l package) ∨
    ∃ m destination, x = .moveModule m destination ∧ t.view (base ++ m.path.pieces) = none

section Guarded

variable {x : Transformation} {xs : List Transformation}

theorem Guarded.next (h : Guarded root base q l excludes package bytes (x :: xs) t) :
    Guarded root base q l excludes package bytes xs t where
  tidy := h.tidy
  file := h.file
  rooted := h.rooted
  passes := (List.forall_mem_cons.1 h.passes).2
  order := h.order.of_cons
  clear := fun y hy => h.clear y (List.mem_of_mem_tail hy)
  head := fun y hy => .inl (h.clear y (List.mem_of_mem_head? hy))

theorem Guarded.respects (h : Guarded root base q l excludes package bytes (x :: xs) t)
    (hroot : t.RootAt root base) (hclear : Clear t.top base (x.goal l package))
    (hS : ¬S (base ++ q)) (ht : Respects S t t') :
    Guarded root base q l excludes package bytes (x :: xs) t' where
  tidy := ht.tidy h.tidy
  file := by
    obtain ⟨s, hs, -, hsame⟩ := ht.kept _ _ h.file
    rw [hs, hsame hS]
  rooted := fun _ _ => ht.rootAt hroot
  passes := h.passes
  order := h.order
  clear := fun y hy => ht.clear (h.clear y hy)
  head := fun y hy => by
    obtain rfl : x = y := by simpa using hy
    exact .inl (ht.clear hclear)

theorem Guarded.relocates {m : TopLevelModule} {destination k : String} {u : FileTree}
    (h : Guarded root base q l excludes package bytes (.moveModule m destination :: xs) t)
    (hroot : t.RootAt root base) (hpath : m.path = Path.ofNames [k]) (hk : IsName k)
    (hhead : q.head? ≠ some k) (hS : ¬S (base ++ q)) (hu : Varies S t u)
    (hmove : u.Relocates (.ofPlace base) package.segments k t')
    (hnone : t.view (base ++ (package.segments ++ [k])) = none) :
    Guarded root base q l excludes package bytes (.moveModule m destination :: xs) t' := by
  have hbase := hroot.isName h.tidy
  have hview := hmove.moves.view
  rw [place_ofPlace hbase] at hview
  have hsingle : ∀ n ∈ [k], IsName n := by simpa using hk
  refine ⟨?_, ?_, fun a ha => ?_, h.passes, h.order, fun y hy ns hne hprefix target hlink => ?_,
    fun y hy => ?_⟩
  · refine hmove.moves.tidy (hu.tidy h.tidy) ?_
    rw [place_ofPlace hbase]
    simp only [List.forall_mem_append, List.forall_mem_singleton]
    exact ⟨hbase, package.isName, hk⟩
  · obtain ⟨s, hs, -, hsame⟩ := hu.kept _ _ h.file
    rw [hview, if_neg, if_neg, hs, hsame hS]
    · rw [List.prefix_append_right_inj]
      rintro ⟨rest, rfl⟩
      exact hhead rfl
    · rintro ⟨rest, hrest⟩
      have hfile := h.file
      rw [← hrest] at hfile
      cases rest with
      | nil => simp [hnone] at hfile
      | cons n rest =>
        rw [view_below_eq_none (by simp [hnone]) (by simp)] at hfile
        cases hfile
  · exact hroot.of_capture (hmove.retains hbase hu hnone) (hmove.moves.workdir.trans hu.workdir)
      (hmove.view_base hbase hu hroot.dir) ha
  · have hprecedes := (List.pairwise_cons.1 h.order).1 y hy
    cases y with
    | renameExternal | convertToPackage => exact hprecedes
    | moveModule m' destination' =>
    obtain ⟨-, k', hpath', hk', -⟩ := h.passes _ (List.mem_cons_of_mem _ hy)
    have hsingle' : ∀ n ∈ [k'], IsName n := by simpa using hk'
    have hpieces' := Path.pieces_ofNames hsingle'
    have hne' : k ≠ k' := by
      rintro rfl
      exact hprecedes (hpath.trans hpath'.symm)
    change t'.view (base ++ ns) = _ at hlink
    rw [hview] at hlink
    split at hlink
    · next htarget =>
      rw [List.prefix_append_right_inj] at htarget
      have hall := htarget.trans hprefix
      rw [Transformation.goal, hpath', hpieces', List.prefix_append_right_inj] at hall
      exact hne' (by simpa using hall)
    · split at hlink
      · cases hlink
      · exact h.clear _ hy ns hne hprefix target (hu.link_iff.1 hlink)
  · obtain rfl : _ = y := by simpa using hy
    refine .inr ⟨m, destination, rfl, ?_⟩
    have habsent := hmove.view_source
    rw [place_ofPlace hbase] at habsent
    rwa [hpath, Path.pieces_ofNames hsingle]

theorem Guarded.of_writes (h : Guarded root base q l excludes package bytes (x :: xs) t)
    (hmarker : IsName l.marker)
    (hexcluded : Glob.anyCovers excludes (String.intercalate "/" q) = true)
    (ha : Snapshot.capture t root l excludes = .ok a) (hchanges : x.changes Python.analyzer t a = .ok cs)
    (hw : Writes cs root t t') : Guarded root base q l excludes package bytes (x :: xs) t' := by
  have hroot := h.rooted a ha
  have hindexes := Snapshot.indexes_of_capture h.tidy hroot ha
  obtain ⟨haroot, hlayout, hexcludes, -⟩ := Snapshot.capture_ok ha
  obtain ⟨hx, -⟩ := List.forall_mem_cons.1 h.passes
  have hS : ¬a.ListsAt base (base ++ q) := by
    rintro ⟨q', heq, hlists⟩
    obtain rfl := List.append_cancel_left heq
    rw [← hexcludes, hlists.included] at hexcluded
    cases hexcluded
  have hlisted : ∀ q', a.Lists q' → a.ListsAt base (base ++ q') := fun q' hq' => ⟨q', rfl, hq'⟩
  have prepared (hprepares : x.Prepares) (hclear : Clear t.top base (x.goal l package)) :
      Guarded root base q l excludes package bytes (x :: xs) t' :=
    h.respects hroot hclear hS (respects_of_writes hroot h.tidy
      (x.isMild_of_changes hprepares hmarker hindexes hlayout hclear hlisted hchanges) hw)
  have hhead := h.head x rfl
  cases x with
  | renameExternal | convertToPackage => exact prepared hx (hhead.resolve_right (by simp))
  | moveModule m destination =>
    obtain ⟨rfl, k, hpath, hk, hother⟩ := hx
    have hsingle : ∀ n ∈ [k], IsName n := by simpa using hk
    obtain ⟨hpresent, edits, hedits, hcs⟩ := changes_of_planMove hpath hk hindexes hlisted hchanges
    rw [haroot] at hpresent
    have hclear : Clear t.top base (package.segments ++ [k]) := by
      obtain hclear | ⟨m', _, heq, hgone⟩ := hhead
      · rwa [Transformation.goal, hpath, Path.pieces_ofNames hsingle] at hclear
      · cases heq
        rw [hpath, Path.pieces_ofNames hsingle] at hgone
        rw [not_isPresent_of_view hroot hk hgone] at hpresent
        cases hpresent
    obtain ⟨n, hw⟩ | ⟨e, hw⟩ := hw
    · have hnames : ∀ n ∈ package.segments ++ [k], IsName n := by
        simp only [List.forall_mem_append, List.forall_mem_singleton]
        exact ⟨package.isName, hk⟩
      obtain ⟨u, hu, hmove, hnone⟩ := ChangeSet.relocates_of_apply hroot h.tidy hcs hedits
        package.nonempty hnames hclear hw
      exact h.relocates hroot hpath hk hother hS hu hmove hnone
    · have ht := (ChangeSet.varies_of_apply_error hroot h.tidy hcs hedits hw).respects
      refine h.respects hroot ?_ hS ht
      rwa [Transformation.goal, hpath, Path.pieces_ofNames hsingle]

end Guarded

theorem Snapshot.pairwise_topLevelModules (s : Snapshot) :
    s.topLevelModules.Pairwise fun m m' => m.name ≠ m'.name := by
  refine List.pairwise_filterMap.2 ((sorted_sortedNames _).1.imp ?_)
  intro name name' hlt m hm m' hm'
  split at hm
  · cases hm
  split at hm'
  · cases hm'
  cases hm
  cases hm'
  exact hlt.ne

section Plan

variable {requests : List RenameRequest} {xs : List Transformation} (htidy : t.top.Tidy)
  (ha : a.Indexes t base) (hplan : plan t a package.text requests = .ok xs)

include htidy ha hplan

theorem passes_of_plan (hexcluded : a.isExcluded (Path.ofNames q) = true)
    (hstays : q.length = 1 ∨ ∀ m ∈ Plan.modulesToMove a package, m.path ≠ Path.ofNames (q.take 1)) :
    ∀ x ∈ xs, x.Passes package q := by
  obtain rfl := plan_ok hplan
  intro x hx
  obtain hx | hx := List.mem_append.1 hx
  · obtain hx | hx := List.mem_append.1 hx
    · obtain ⟨request, -, rfl⟩ := List.mem_map.1 hx
      trivial
    · obtain ⟨d, hd, rfl⟩ := List.mem_map.1 hx
      refine Plan.isBelow_of_directories (fun m hm => ?_) d hd
      obtain ⟨q, hq, -, hpath⟩ := ha.exists_file hm
      exact ⟨q, hq.1, isName_of_mem_filesUnder htidy hq, hpath⟩
  · obtain ⟨m, hm, rfl⟩ := List.mem_map.1 hx
    obtain ⟨hlisted, hincluded⟩ := List.mem_filter.1 hm
    obtain ⟨-, k, -, -, -, -, -, hpath, hk, -⟩ := ha.exists_entry htidy (List.mem_filter.1 hlisted).1
    refine ⟨rfl, k, hpath, hk, fun hhead => ?_⟩
    obtain ⟨rest, rfl⟩ := List.head?_eq_some_iff.1 hhead
    obtain hlength | hother := hstays
    · obtain rfl : rest = [] := by simpa using hlength
      rw [← hpath] at hexcluded
      simp [hexcluded] at hincluded
    · exact hother m hm hpath

theorem precedes_of_plan : xs.Pairwise Transformation.Precedes := by
  obtain rfl := plan_ok hplan
  have hprepares : ∀ x ∈ Plan.renames requests ++ (Plan.directories t a package).map .convertToPackage,
      ∀ y, x.Precedes y := by
    intro x hx y
    obtain hx | hx := List.mem_append.1 hx
    · obtain ⟨request, -, rfl⟩ := List.mem_map.1 hx
      trivial
    · obtain ⟨d, -, rfl⟩ := List.mem_map.1 hx
      trivial
  refine List.pairwise_append.2 ⟨?_, ?_, fun x hx y _ => hprepares x hx y⟩
  · exact List.pairwise_of_forall_mem_list fun x hx y _ => hprepares x hx y
  · refine List.pairwise_map.2 (List.Pairwise.imp_of_mem ?_
      ((a.pairwise_topLevelModules.filter _).filter _))
    intro m m' hm hm' hne hpath
    have entry {m : TopLevelModule} (hm : m ∈ Plan.modulesToMove a package) :=
      ha.exists_entry htidy (List.mem_filter.1 (List.mem_filter.1 hm).1).1
    obtain ⟨-, k, -, -, -, -, -, hk, hkname, hname⟩ := entry hm
    obtain ⟨-, k', -, -, -, -, -, hk', hkname', hname'⟩ := entry hm'
    rw [hk, hk'] at hpath
    have heq := Path.ofNames_inj (by simpa using hkname) (by simpa using hkname') hpath
    rw [List.singleton_inj] at heq
    exact hne (by rw [hname, hname', heq])

end Plan

theorem excluded_file_stays {r : Runner} {requests : List RenameRequest} {xs : List Transformation}
    {operator? : Option Operator} (htidy : t.top.Tidy) (hroot : t.RootAt root base)
    (hcapture : Snapshot.capture t root l excludes = .ok a) (hmarker : IsName l.marker)
    (hplan : plan t a package.text requests = .ok xs)
    (hclear : ∀ x ∈ xs, Clear t.top base (x.goal l package)) (hr : r.analyzer = Python.analyzer)
    (hquiet : ∀ o ∈ operator?, o.Quiet) (hne : q ≠ [])
    (hfile : t.view (base ++ q) = some (.file bytes))
    (hexcluded : Glob.anyCovers excludes (String.intercalate "/" q) = true)
    (hstays : q.length = 1 ∨ ∀ m ∈ Plan.modulesToMove a package, m.path ≠ Path.ofNames (q.take 1)) :
    (Session.ending (r.run operator? t a xs)).tree.view (base ++ q) = some (.file bytes) := by
  have ha := Snapshot.indexes_of_capture htidy hroot hcapture
  obtain ⟨-, -, hexcludes, -⟩ := Snapshot.capture_ok hcapture
  have hnames : ∀ n ∈ q, IsName n :=
    isName_of_mem_filesUnder htidy ((mem_filesUnder_ofPlace (hroot.isName htidy)).2 ⟨hne, bytes, hfile⟩)
  have hcovered : a.isExcluded (Path.ofNames q) = true := by
    rw [Snapshot.isExcluded, hexcludes, Path.slashed_ofNames hnames, hexcluded]
  have hstart : Guarded root base q l excludes package bytes xs t :=
    ⟨htidy, hfile, fun _ _ => hroot, passes_of_plan htidy ha hplan hcovered hstays,
      precedes_of_plan htidy ha hplan, fun x hx => hclear x (List.mem_of_mem_tail hx),
      fun x hx => .inl (hclear x (List.mem_of_mem_head? hx))⟩
  have hsteps (o : Operator) (ho : o.Quiet) :
      (Session.ending (r.steps xs ⟨t, a, o, []⟩)).tree.view (base ++ q) = some (.file bytes) := by
    obtain ⟨ys, hys⟩ := kept_of_steps
      (P := fun xs t => Guarded root base q l excludes package bytes xs t)
      (J := fun t a => Snapshot.capture t root l excludes = .ok a)
      (fun xs t t' a b ha _ hb => by
        obtain ⟨rfl, rfl, rfl, -⟩ := Snapshot.capture_ok ha
        exact hb)
      (fun x xs t h => h.next)
      (fun x xs t a cs t' h ha hchanges hw => by
        obtain ⟨haroot, -, -, -⟩ := Snapshot.capture_ok ha
        rw [hr] at hchanges
        exact h.of_writes hmarker hexcluded ha hchanges (haroot ▸ hw))
      (s := ⟨t, a, o, []⟩) (r := r) ho hcapture hstart
    exact hys.file
  unfold Runner.run
  split
  · dsimp only
    split
    · exact hfile
    · exact hsteps _ (Operator.quiet_scripted [] [])
  · next o => exact hsteps o (hquiet o rfl)

namespace Excluded

def tree : FileTree :=
  ⟨.dir [("a.py", .file "".toUTF8), ("keep.py", .file "import a\n".toUTF8)], []⟩

def patterns : List Glob :=
  (Glob.parse "keep.py").toOption.toList

theorem tidy_tree : tree.top.Tidy := by
  refine .dir ?_ ?_ ?_
  · simpa using (by decide : "a.py" < "keep.py")
  · simpa using ⟨⟨by decide, by decide, by decide, by decide⟩,
      ⟨by decide, by decide, by decide, by decide⟩⟩
  · simp [Entry.Tidy.file]

theorem linkFree_tree : tree.top.LinkFree :=
  Entry.linkFree_dir (by simp [Entry.linkFree_file])

end Excluded

theorem excluded_file_stays_keep : ∃ a xs,
    Snapshot.capture Excluded.tree ⟨"/"⟩ .standard Excluded.patterns = .ok a ∧
      plan Excluded.tree a SelfImport.target.text [] = .ok xs ∧
      (Session.ending (SelfImport.runner.run none Excluded.tree a xs)).tree.view ["keep.py"] =
        some (.file "import a\n".toUTF8) := by
  have hroot : Excluded.tree.RootAt ⟨"/"⟩ [] := ⟨_, rfl⟩
  obtain ⟨a, ha⟩ := Snapshot.exists_capture hroot .standard Excluded.patterns
  obtain ⟨xs, hxs⟩ : ∃ xs, plan Excluded.tree a SelfImport.target.text [] = .ok xs := ⟨_, rfl⟩
  refine ⟨a, xs, ha, hxs, ?_⟩
  exact excluded_file_stays (q := ["keep.py"]) Excluded.tidy_tree hroot ha
    ⟨by decide, by decide, by decide, by decide⟩ hxs (fun _ _ => clear_of_linkFree Excluded.linkFree_tree) rfl (by simp) (by simp) rfl
    (by decide +kernel) (.inl rfl)

end Reroot

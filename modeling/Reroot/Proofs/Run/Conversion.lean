import Reroot.Proofs.Run.Contents

namespace Reroot

open FileTree Scan
open Reroot.Path (IsName)

namespace FileTree

variable {t t' t'' : FileTree}

theorem Keeps.refl (top : Entry) : Keeps top top :=
  fun _ s h => ⟨s, h, .refl s⟩

theorem Keeps.trans {a b c : Entry} (hab : Keeps a b) (hbc : Keeps b c) : Keeps a c := by
  intro ns s hs
  obtain ⟨s', hs', hlike⟩ := hab ns s hs
  obtain ⟨s'', hs'', hlike'⟩ := hbc ns s' hs'
  exact ⟨s'', hs'', hlike.trans hlike'⟩

theorem resolve_of_isPresent {p : Path} (h : t.isPresent p = true) :
    ∃ names e, t.resolve p true = .ok ⟨names, some e⟩ := by
  rw [isPresent] at h
  cases hentry : t.entry? p true with
  | error => simp [hentry, Except.toOption] at h
  | ok e =>
    obtain ⟨names, hresolve⟩ := entry?_ok hentry
    exact ⟨names, e, hresolve⟩

theorem keeps_of_writeText {p : Path} {text : String} (h : writeText p text t = .ok () t') :
    Keeps t.top t'.top := by
  obtain ⟨place, hresolve, hdir, hputs⟩ := writeBytes_resolve h
  intro ns s hs
  by_cases hns : ns = place.names
  · subst hns
    refine ⟨_, (hputs.view _).trans (if_pos rfl), ?_⟩
    cases s with
    | file bytes => exact .file ..
    | dir => exact absurd hs hdir
    | link target =>
      have hentry := entry_of_resolve hresolve
      rw [at?_of_view hs] at hentry
      exact absurd hentry (not_link_of_resolve hresolve target)
  · exact ⟨s, (hputs.view ns).trans ((if_neg hns).trans hs), .refl s⟩

theorem workdir_of_writeText {p : Path} {text : String} (h : writeText p text t = .ok () t') :
    t'.workdir = t.workdir := by
  obtain ⟨_, _, _, hputs⟩ := writeBytes_resolve h
  exact hputs.workdir

end FileTree

namespace Change

variable {t t' : FileTree} {root p q : Path} {content : String} {cs : List Change} {n : Nat}

theorem perform_create_of_isPresent (h : t.isPresent (root.join p) = true) :
    (create p content).perform root t = .ok 0 t := by
  refine (bind_of_ok rfl).trans ?_
  rw [if_pos h]
  rfl

theorem keeps_of_perform_create (h : (create p content).perform root t = .ok n t') :
    Keeps t.top t'.top ∧ t'.workdir = t.workdir := by
  obtain ⟨-, -, rfl⟩ | ⟨-, -, t₁, hparents, hwrite⟩ := perform_create_ok h
  · exact ⟨.refl _, rfl⟩
  · have hextends := (widening_makeParents _).ok hparents
    exact ⟨hextends.keeps.trans (keeps_of_writeText hwrite),
      (workdir_of_writeText hwrite).trans hextends.workdir⟩

theorem keeps_of_performAll_create (hcs : ∀ c ∈ cs, c.isCreate = true)
    (h : performAll root cs t = .ok n t') : Keeps t.top t'.top ∧ t'.workdir = t.workdir := by
  refine related_of_performAll (R := fun t t' => Keeps t.top t'.top ∧ t'.workdir = t.workdir)
    (J := fun cs _ => ∀ c ∈ cs, c.isCreate = true) (fun _ => ⟨.refl _, rfl⟩)
    (fun h h' => ⟨h.1.trans h'.1, h'.2.trans h.2⟩) (fun {c cs t u m} hcs hfirst => ?_) hcs h
  obtain ⟨hc, hrest⟩ := List.forall_mem_cons.1 hcs
  cases c with
  | edit | move => cases hc
  | create p content => exact ⟨keeps_of_perform_create hfirst, hrest⟩

theorem performAll_of_isPresent {ds : List Path} {f : Path → Path}
    (h : ∀ d ∈ ds, t.isPresent (root.join (f d)) = true) :
    performAll root (ds.map fun d => create (f d) content) t = .ok 0 t := by
  induction ds with
  | nil => rfl
  | cons d ds ih =>
    obtain ⟨hd, hds⟩ := List.forall_mem_cons.1 h
    exact (bind_of_ok (perform_create_of_isPresent hd)).trans (bind_of_ok (ih hds))

theorem rootAt_of_perform_create {base : List String} {e : Entry}
    (hroot : t.resolve root true = .ok ⟨base, some e⟩) (hp : p.IsPlain)
    (h : (create p content).perform root t = .ok n t') : t.RootAt root base := by
  obtain ⟨hpresent, -, -⟩ | ⟨-, -, u, hparents, hwrite⟩ := perform_create_ok h
  · obtain ⟨names, x, hresolve⟩ := resolve_of_isPresent hpresent
    exact rootAt_of_resolve_join hroot hp hresolve
  · have hextends := (widening_makeParents _).ok hparents
    have hkept := hextends.kept base (by simp [view_eq_of_entry (entry_of_resolve hroot).symm])
    have hroot' := resolve_of_keeps hroot hextends.keeps hextends.workdir
    obtain ⟨x, hx⟩ : ∃ x, u.top.at? base = some x := by
      rw [view_eq_of_entry (entry_of_resolve hroot).symm] at hkept
      obtain ⟨x, hx, -⟩ := Option.map_eq_some_iff.1 hkept
      exact ⟨x, hx⟩
    rw [hx] at hroot'
    obtain ⟨place, hresolve, -, -⟩ := writeBytes_resolve hwrite
    have hdir := (rootAt_of_resolve_join hroot' hp hresolve).dir
    rw [hkept] at hdir
    obtain ⟨es, hes⟩ := Entry.view_eq_some_dir_iff.1 hdir
    refine ⟨es, ?_⟩
    rw [hroot, ← hes, ← entry_of_resolve hroot]

theorem perform_create_congr (hparts : (root.join p).parts = (root.join q).parts)
    (hp : (root.join p).isSlashed = false) (hq : (root.join q).isSlashed = false)
    (hpn : (root.join p).isNamed = true) (hqn : (root.join q).isNamed = true) :
    (create p content).perform root = (create q content).perform root := by
  have hresolve (t : FileTree) : t.resolve (root.join p) true = t.resolve (root.join q) true :=
    resolve_congr hparts hp hq hpn hqn
  have hpresent (t : FileTree) : t.isPresent (root.join p) = t.isPresent (root.join q) := by
    rw [isPresent, isPresent, entry?, entry?, hresolve]
  have hparents : makeParents (root.join p) = makeParents (root.join q) := by
    rw [makeParents, makeParents, Path.parent?, Path.parent?, hparts]
  have hwrite : writeText (root.join p) content = writeText (root.join q) content := by
    simp only [writeText, writeBytes, Path.bare_of_isSlashed_eq_false hp,
      Path.bare_of_isSlashed_eq_false hq, hp, hq, Bool.not_false, hresolve]
  simp only [perform, hpresent, hparents, hwrite]

end Change

namespace FileTree

variable {t u u' : FileTree} {root : Path} {base e : List String} {es : List (List String)} {marker : String}
  {n : Nat}

structure Lays (t : FileTree) (base : List String) (marker : String) (es : List (List String))
    (u : FileTree) : Prop where
  kept : ∀ ns, t.view ns ≠ none → u.view ns = t.view ns
  laid : ∀ e ∈ es, u.view (base ++ (e ++ [marker])) = some (.file "".toUTF8) ∧
    ∀ a ∈ e ++ [marker], a.utf8ByteSize ≤ 255
  new : ∀ ns, t.view ns = none → u.view ns = none ∨ (∃ e ∈ es, ns = base ++ (e ++ [marker])) ∨
    u.view ns = some .dir ∧ ∃ e ∈ es, ns <+: base ++ e
  workdir : u.workdir = t.workdir
  tidy : t.top.Tidy → u.top.Tidy

theorem Lays.refl (t : FileTree) : Lays t base marker [] t :=
  ⟨fun _ _ => rfl, by simp, fun _ h => .inl h, rfl, fun h => h⟩

theorem Lays.keeps (h : Lays t base marker es u) : Keeps t.top u.top :=
  fun ns s hs => ⟨s, (h.kept ns (ne_of_eq_of_ne hs (by simp))).trans hs, .refl s⟩

theorem Lays.clear (h : Lays t base marker es u) {as : List String} (hclear : Clear t.top base as) :
    Clear u.top base as := by
  intro front hne hfront target hlink
  have hlink' : u.view (base ++ front) = some (.link target) := hlink
  by_cases hnone : t.view (base ++ front) = none
  · obtain h' | ⟨e, he, heq⟩ | ⟨h', -⟩ := h.new _ hnone
    · rw [hlink'] at h'
      cases h'
    · rw [heq, (h.laid e he).1] at hlink'
      cases hlink'
    · rw [hlink'] at h'
      cases h'
  · rw [h.kept _ hnone] at hlink'
    exact hclear front hne hfront target hlink'

section Step

variable (hroot : t.RootAt root base) (hnames : ∀ a ∈ e ++ [marker], IsName a)
  (hclear : Clear t.top base (e ++ [marker]))

include hroot hnames hclear

theorem spells_of_resolve {place : Place}
    (h : t.resolve (root.join (Path.ofNames (e ++ [marker]))) true = .ok place) :
    Spells t.top base e marker place := by
  have hpieces := Path.pieces_ofNames hnames
  refine hroot.spells (Path.isPlain_ofNames (by simp) hnames) hpieces hclear.of_append
    (fun _ target => ?_) h
  rw [hpieces]
  exact hclear _ (by simp) List.prefix_rfl target

theorem resolve_marker (hview : t.view (base ++ (e ++ [marker])) ≠ none)
    (hshort : ∀ a ∈ e ++ [marker], a.utf8ByteSize ≤ 255) :
    t.resolve (root.join (Path.ofNames (e ++ [marker]))) true =
      .ok ⟨base ++ (e ++ [marker]), t.top.at? (base ++ (e ++ [marker]))⟩ := by
  have hpieces := Path.pieces_ofNames hnames
  refine hroot.resolve_of_spells (Path.isPlain_ofNames (by simp) hnames) hpieces (fun _ target => ?_)
    ⟨rfl, ?_, hshort⟩
  · rw [hpieces]
    exact hclear _ (by simp) List.prefix_rfl target
  · refine Entry.view_eq_dir_of_append (List.cons_ne_nil marker []) ?_
    rwa [List.append_assoc]

theorem view_eq_none_of_fits (hmissing : t.isFile (root.join (Path.ofNames (e ++ [marker]))) = false)
    (hfits : t.isPresent (root.join (Path.ofNames (e ++ [marker]))) = true →
      t.readText (root.join (Path.ofNames (e ++ [marker]))) = .ok "")
    (hshort : ∀ a ∈ e ++ [marker], a.utf8ByteSize ≤ 255) : t.view (base ++ (e ++ [marker])) = none := by
  by_contra hview
  have hresolve := resolve_marker hroot hnames hclear hview hshort
  obtain ⟨shape, hshape⟩ := Option.ne_none_iff_exists'.1 hview
  obtain ⟨x, hx, rfl⟩ := Option.map_eq_some_iff.1 hshape
  rw [hx] at hresolve
  have hentry := entry?_of_resolve hresolve
  cases x with
  | file bytes => simp [isFile, hentry, Except.toOption, Entry.isFile] at hmissing
  | link target => exact hclear _ (by simp) List.prefix_rfl target hshape
  | dir es =>
    have hread := hfits (isPresent_of_resolve hresolve)
    rw [readText, hentry] at hread
    cases hread

theorem frame_of_makeParents (hne : e ≠ []) {ms : List String} (hms : ¬ms <+: base ++ e)
    (h : Change.makeParents (root.join (Path.ofNames (e ++ [marker]))) t = .ok () u) :
    u.view ms = t.view ms := by
  obtain ⟨henames, hmarker⟩ := List.forall_mem_append.1 hnames
  rw [Change.makeParents, Path.parent?_of_parts (Path.parts_join_snoc henames (hmarker marker (by simp)))] at h
  exact frame_of_makeDirsLoop hroot hne henames hclear.of_append h hms

theorem Lays.snoc (h : Lays t base marker es u) (hne : e ≠ [])
    (hmissing : t.isFile (root.join (Path.ofNames (e ++ [marker]))) = false)
    (hfits : t.isPresent (root.join (Path.ofNames (e ++ [marker]))) = true →
      t.readText (root.join (Path.ofNames (e ++ [marker]))) = .ok "")
    (hbefore : ∀ e' ∈ es, ¬e <+: e')
    (hperform : (Change.create (Path.ofNames (e ++ [marker])) "").perform root u = .ok n u') :
    Lays t base marker (es ++ [e]) u' := by
  have hroot' : u.RootAt root base := hroot.keeps h.keeps h.workdir
  have hclear' := h.clear hclear
  obtain ⟨hpresent, -, -⟩ | ⟨-, -, u₁, hparents, hwrite⟩ := Change.perform_create_ok hperform
  · exfalso
    obtain ⟨names, x, hresolve⟩ := resolve_of_isPresent hpresent
    have hspells := spells_of_resolve hroot' hnames hclear' hresolve
    obtain hnone | ⟨e', he', heq⟩ | ⟨-, e', he', hle⟩ :=
      h.new _ (view_eq_none_of_fits hroot hnames hclear hmissing hfits hspells.short)
    · have hplace := hspells.place
      rw [Place.mk.injEq] at hplace
      rw [view, Entry.view, ← hplace.2] at hnone
      cases hnone
    · obtain rfl := List.append_cancel_right (List.append_cancel_left heq)
      exact hbefore e he' List.prefix_rfl
    · rw [List.prefix_append_right_inj] at hle
      exact hbefore e' he' ((List.prefix_append e [marker]).trans hle)
  · have hextends := (Change.widening_makeParents _).ok hparents
    have hframe {ms : List String} (hms : ¬ms <+: base ++ e) : u₁.view ms = u.view ms :=
      frame_of_makeParents hroot' hnames hclear' hne hms hparents
    obtain ⟨place, hresolve, -, hputs⟩ := writeBytes_resolve hwrite
    have hspells := spells_of_resolve (hroot'.keeps hextends.keeps hextends.workdir) hnames
      (hextends.clear hclear') hresolve
    have hview (ms : List String) : u'.view ms =
        if ms = base ++ (e ++ [marker]) then some (.file "".toUTF8) else u₁.view ms := by
      rw [hputs.view, hspells.place]
    have hfree := view_eq_none_of_fits hroot hnames hclear hmissing hfits hspells.short
    refine ⟨fun ns hns => ?_, fun e' he' => ?_, fun ns hns => ?_, ?_, fun htidy => ?_⟩
    · have hsome : u.view ns ≠ none := by rwa [h.kept ns hns]
      rw [hview, if_neg, hextends.kept ns hsome, h.kept ns hns]
      rintro rfl
      exact hns hfree
    · obtain he' | he' := List.mem_append.1 he'
      · obtain ⟨hfile, hshort⟩ := h.laid e' he'
        refine ⟨?_, hshort⟩
        rw [hview]
        split
        · rfl
        · rw [hextends.kept _ (by simp [hfile]), hfile]
      · obtain rfl := List.mem_singleton.1 he'
        exact ⟨(hview _).trans (if_pos rfl), hspells.short⟩
    · rw [hview]
      split
      · next heq => exact .inr (.inl ⟨e, by simp, heq⟩)
      · obtain hnone | ⟨e', he', heq⟩ | ⟨hdir, e', he', hle⟩ := h.new ns hns
        · by_cases hms : ns <+: base ++ e
          · exact (hextends.new ns hnone).imp id fun hdir => .inr ⟨hdir, e, by simp, hms⟩
          · exact .inl ((hframe hms).trans hnone)
        · exact .inr (.inl ⟨e', by simp [he'], heq⟩)
        · exact .inr (.inr ⟨by rw [hextends.kept ns (by simp [hdir]), hdir], e', by simp [he'], hle⟩)
    · rw [hputs.workdir, hextends.workdir, h.workdir]
    · have htidy₁ := hextends.tidy (h.tidy htidy)
      exact hputs.tidy htidy₁ (isName_of_resolve htidy₁ hresolve)

end Step

end FileTree

namespace Snapshot

variable {t t' u u' : FileTree} {root : Path} {l : Layout} {excludes : List Glob} {a b : Snapshot}
  {d d' : Path} {ds : List Path} {base : List String} {n : Nat}

def markerPath (a : Snapshot) (d : Path) : Path :=
  a.root.join (d.join ⟨a.layout.marker⟩)

structure Settled (a b : Snapshot) (t t' : FileTree) (ds : List Path) : Prop where
  marked : ∀ d ∈ ds, b.hasMarker t' d = true
  planned : (b.planConversion t' ds).changes = []
  repeated : (a.planConversion t ds).apply a.root t' = .ok 0 t'

structure IsStraight (a : Snapshot) (t : FileTree) (d : Path) : Prop where
  below : d.normalPieces ≠ []
  names : ∀ m ∈ d.normalPieces, IsName m
  clear : ∀ base, t.RootAt a.root base → Clear t.top base (d.normalPieces ++ [a.layout.marker])

theorem hasMarker_congr (hroot : b.root = a.root) (hlayout : b.layout = a.layout) :
    b.hasMarker t d = a.hasMarker t d := by
  rw [hasMarker, hasMarker, absolute, absolute, hroot, hlayout]

theorem isPlain_of_isName {m : String} (hm : IsName m) : (⟨m⟩ : Path).IsPlain := by
  rw [← Path.ofNames_singleton m]
  exact Path.isPlain_ofNames (by simp) (by simpa using hm)

section Marker

variable (hmarker : IsName a.layout.marker) (hd : d.isAbsolute = false) (hd' : d'.isAbsolute = false)

include hmarker hd

theorem markerPath_eq : a.markerPath d = (a.root.join d).join ⟨a.layout.marker⟩ :=
  (Path.join_join hd (isPlain_of_isName hmarker).relative).symm

theorem hasMarker_eq_isFile : a.hasMarker t d = t.isFile (a.markerPath d) := by
  rw [hasMarker, absolute, markerPath_eq hmarker hd]

theorem isSlashed_markerPath : (a.markerPath d).isSlashed = false := by
  rw [markerPath_eq hmarker hd]
  exact (isPlain_of_isName hmarker).isSlashed_join

theorem isNamed_markerPath : (a.markerPath d).isNamed = true := by
  rw [markerPath_eq hmarker hd]
  exact (isPlain_of_isName hmarker).isNamed_join

include hd'

theorem parts_markerPath (hparts : d.parts = d'.parts) : (a.markerPath d).parts = (a.markerPath d').parts := by
  rw [markerPath_eq hmarker hd, markerPath_eq hmarker hd']
  exact Path.parts_join_right hmarker (Path.parts_join_left hd hd' hparts)

theorem resolve_markerPath (hparts : d.parts = d'.parts) (follow : Bool) :
    t.resolve (a.markerPath d) follow = t.resolve (a.markerPath d') follow :=
  resolve_congr (parts_markerPath hmarker hd hd' hparts) (isSlashed_markerPath hmarker hd)
    (isSlashed_markerPath hmarker hd') (isNamed_markerPath hmarker hd) (isNamed_markerPath hmarker hd')

end Marker

theorem mem_unmarked (h : d ∈ a.unmarked t ds) : d ∈ ds ∧ a.hasMarker t d = false := by
  obtain ⟨hd, hmissing⟩ := List.mem_filter.1 (mem_of_mem_sortedPaths h)
  exact ⟨hd, by simpa using hmissing⟩

theorem exists_mem_unmarked (hd : d ∈ ds) (hmissing : a.hasMarker t d = false) :
    ∃ d' ∈ a.unmarked t ds, d'.parts = d.parts := by
  have hmem : d ∈ (ds.filter fun d => !a.hasMarker t d).mergeSort Path.le :=
    List.mem_mergeSort.2 (List.mem_filter.2 ⟨hd, by simpa using hmissing⟩)
  obtain ⟨d', hd', heq⟩ := exists_mem_eraseRepsBy (r := Path.samePlace) hmem
  exact ⟨d', hd', heq.elim (congrArg Path.parts) beq_iff_eq.1⟩

theorem changes_planConversion : (a.planConversion t ds).changes =
    (a.unmarked t ds).map fun d => .create (d.join ⟨a.layout.marker⟩) "" := by
  rw [planConversion]

theorem ordered_planConversion : (a.planConversion t ds).ordered =
    (a.unmarked t ds).map fun d => .create (d.join ⟨a.layout.marker⟩) "" := by
  rw [ChangeSet.ordered, changes_planConversion, List.filter_map, List.filter_map, List.filter_map]
  simp [Function.comp_def, Change.isCreate, Change.isEdit, Change.isMove]

theorem planConversion_ok (h : (a.planConversion t ds).apply a.root u = .ok n u') :
    (∀ d ∈ a.unmarked t ds, u.isPresent (a.markerPath d) = true → u.readText (a.markerPath d) = .ok "") ∧
      Change.performAll a.root ((a.unmarked t ds).map fun d => .create (d.join ⟨a.layout.marker⟩) "") u =
        .ok n u' := by
  obtain ⟨hcheck, hperform⟩ := ChangeSet.apply_ok h
  rw [changes_planConversion] at hcheck
  rw [ordered_planConversion] at hperform
  exact ⟨fun d hd => Change.check_create_ok_iff.1 (Change.check_of_checkAll hcheck _ (List.mem_map_of_mem hd)),
    hperform⟩

theorem planConversion_again (h : ∀ d ∈ a.unmarked t ds, u.readText (a.markerPath d) = .ok "") :
    (a.planConversion t ds).apply a.root u = .ok 0 u := by
  have hpresent : ∀ d ∈ a.unmarked t ds, u.isPresent (a.markerPath d) = true := by
    intro d hd
    obtain ⟨names, bytes, hresolve⟩ := resolve_of_isFile (isFile_of_readText (h d hd))
    exact isPresent_of_resolve hresolve
  refine ChangeSet.apply_of_perform (Change.checkAll_of_check fun c hc => ?_) ?_
  · rw [changes_planConversion] at hc
    obtain ⟨d, hd, rfl⟩ := List.mem_map.1 hc
    exact Change.check_create_ok_iff.2 fun _ => h d hd
  · rw [ordered_planConversion]
    exact Change.performAll_of_isPresent hpresent

section Settled

variable (hmarker : IsName a.layout.marker) (hds : ∀ d ∈ ds, d.isAbsolute = false)
  (happly : (a.planConversion t ds).apply a.root t = .ok n t')

include hmarker hds happly

omit hmarker hds in
theorem exists_refresh (hcapture : capture t root l excludes = .ok a) : ∃ b, a.refresh t' = .ok b := by
  obtain ⟨hkeeps, hworkdir⟩ := Change.keeps_of_performAll_create (by simp [Change.isCreate])
    (planConversion_ok happly).2
  obtain ⟨hroot, -⟩ := capture_ok hcapture
  obtain ⟨fs, hfs, -⟩ := filesBelow_of_capture hcapture
  obtain ⟨⟨names, entry⟩, hresolve, hentry⟩ := resolve_of_filesBelow hfs
  obtain ⟨e, rfl⟩ := Option.ne_none_iff_exists'.1 hentry
  have hresolve' := resolve_of_keeps hresolve hkeeps hworkdir
  obtain ⟨shape, hshape, -⟩ := hkeeps _ _ (view_eq_of_entry (entry_of_resolve hresolve).symm)
  obtain ⟨e', he', -⟩ := Option.map_eq_some_iff.1 hshape
  rw [he'] at hresolve'
  obtain ⟨fs', hfs'⟩ := filesBelow_of_resolve hresolve'
  rw [refresh, hroot, capture, Scan.modules, hfs']
  exact ⟨_, rfl⟩

omit hds in
theorem hasMarker_of_apply (hd : d.isAbsolute = false) (h : a.hasMarker t d = true) :
    a.hasMarker t' d = true := by
  obtain ⟨hkeeps, hworkdir⟩ := Change.keeps_of_performAll_create (by simp [Change.isCreate])
    (planConversion_ok happly).2
  rw [hasMarker_eq_isFile hmarker hd] at h ⊢
  exact isFile_of_keeps h hkeeps hworkdir

theorem settled_iff (hroot : b.root = a.root) (hlayout : b.layout = a.layout) :
    Settled a b t t' ds ↔ ∀ d ∈ ds, a.hasMarker t d = false → t'.readText (a.markerPath d) = .ok "" := by
  have hsame (t : FileTree) (d : Path) : b.hasMarker t d = a.hasMarker t d := hasMarker_congr hroot hlayout
  constructor
  · rintro ⟨hmarked, -, hrepeated⟩ d hd hmissing
    obtain ⟨d', hd', hparts⟩ := exists_mem_unmarked hd hmissing
    have hmem := (mem_unmarked hd').1
    have hfile := hmarked d' hmem
    rw [hsame, hasMarker_eq_isFile hmarker (hds d' hmem)] at hfile
    obtain ⟨names, bytes, hresolve⟩ := resolve_of_isFile hfile
    have hread := (planConversion_ok hrepeated).1 d' hd' (isPresent_of_resolve hresolve)
    rwa [readText, entry?, resolve_markerPath hmarker (hds d' hmem) (hds d hd) hparts, ← entry?,
      ← readText] at hread
  · intro hread
    have hmarked : ∀ d ∈ ds, a.hasMarker t' d = true := by
      intro d hd
      cases hmissing : a.hasMarker t d with
      | true => exact hasMarker_of_apply hmarker happly (hds d hd) hmissing
      | false =>
        rw [hasMarker_eq_isFile hmarker (hds d hd)]
        exact isFile_of_readText (hread d hd hmissing)
    refine ⟨fun d hd => (hsame t' d).trans (hmarked d hd), ?_, planConversion_again fun d hd => ?_⟩
    · have hnone : ds.filter (fun d => !b.hasMarker t' d) = [] :=
        List.filter_eq_nil_iff.2 fun d hd => by simp [hsame, hmarked d hd]
      rw [changes_planConversion, unmarked, hnone]
      simp [sortedPaths, List.eraseRepsBy]
    · exact hread d (mem_unmarked hd).1 (mem_unmarked hd).2

end Settled

section Straight

variable (hmarker : IsName a.layout.marker) (hd : d.isAbsolute = false) (hstraight : a.IsStraight t d)

include hstraight

theorem IsStraight.parts_eq (hd : d.isAbsolute = false) : d.parts = (Path.ofNames d.normalPieces).parts := by
  rw [Path.parts_eq_iff, hd, Path.isAbsolute_ofNames hstraight.names,
    Path.normalPieces_ofNames hstraight.names]
  exact ⟨rfl, rfl⟩

include hmarker

theorem IsStraight.isName : ∀ m ∈ d.normalPieces ++ [a.layout.marker], IsName m := by
  simp only [List.forall_mem_append, List.forall_mem_singleton]
  exact ⟨hstraight.names, hmarker⟩

theorem IsStraight.markerPath_eq : a.markerPath (Path.ofNames d.normalPieces) =
    a.root.join (Path.ofNames (d.normalPieces ++ [a.layout.marker])) := by
  rw [markerPath, Plan.join_marker hstraight.below (hstraight.isName hmarker)]

include hd

theorem IsStraight.entry?_eq (u : FileTree) : u.entry? (a.markerPath d) true =
    u.entry? (a.root.join (Path.ofNames (d.normalPieces ++ [a.layout.marker]))) true := by
  rw [← hstraight.markerPath_eq hmarker, entry?, entry?, resolve_markerPath hmarker hd
    (Path.isAbsolute_ofNames hstraight.names) (hstraight.parts_eq hd)]

theorem IsStraight.perform_eq : (Change.create (d.join ⟨a.layout.marker⟩) "").perform a.root =
    (Change.create (Path.ofNames (d.normalPieces ++ [a.layout.marker])) "").perform a.root := by
  have hnames := Path.isAbsolute_ofNames hstraight.names
  rw [← Plan.join_marker hstraight.below (hstraight.isName hmarker)]
  exact Change.perform_create_congr (parts_markerPath hmarker hd hnames (hstraight.parts_eq hd))
    (isSlashed_markerPath hmarker hd) (isSlashed_markerPath hmarker hnames)
    (isNamed_markerPath hmarker hd) (isNamed_markerPath hmarker hnames)

end Straight

theorem lays_of_performAll {ps : List Path} {es : List (List String)} (hroot : t.RootAt a.root base)
    (hmarker : IsName a.layout.marker) (hps : ∀ d ∈ ps, d.isAbsolute = false ∧ a.IsStraight t d ∧
      a.hasMarker t d = false ∧ (t.isPresent (a.markerPath d) = true → t.readText (a.markerPath d) = .ok ""))
    (hsorted : (es ++ ps.map Path.normalPieces).Pairwise fun e later => ¬later <+: e)
    (hlays : Lays t base a.layout.marker es u)
    (h : Change.performAll a.root (ps.map fun d => .create (d.join ⟨a.layout.marker⟩) "") u = .ok n u') :
    Lays t base a.layout.marker (es ++ ps.map Path.normalPieces) u' := by
  induction ps generalizing es u n with
  | nil =>
    cases h
    simpa using hlays
  | cons d ps ih =>
    obtain ⟨⟨hd, hstraight, hmissing, hfits⟩, hps⟩ := List.forall_mem_cons.1 hps
    obtain ⟨_, v, _, hfirst, hrest⟩ := Change.performAll_cons_ok h
    have hentry := hstraight.entry?_eq hmarker hd t
    rw [hstraight.perform_eq hmarker hd] at hfirst
    rw [hasMarker_eq_isFile hmarker hd, isFile, hentry, ← isFile] at hmissing
    rw [isPresent, readText, hentry, ← isPresent, ← readText] at hfits
    rw [List.map_cons, List.append_cons] at hsorted ⊢
    have hbefore : ∀ e ∈ es, ¬d.normalPieces <+: e := by
      rw [List.append_assoc, List.pairwise_append] at hsorted
      exact fun e he => hsorted.2.2 e he _ (by simp)
    exact ih hps hsorted (Lays.snoc hroot (hstraight.isName hmarker) (hstraight.clear base hroot) hlays
      hstraight.below hmissing hfits hbefore hfirst) hrest

section Apply

variable (hcapture : capture t root l excludes = .ok a) (hmarker : IsName a.layout.marker)
  (hds : ∀ d ∈ ds, d.isAbsolute = false)
  (hstraight : ∀ d ∈ ds, a.hasMarker t d = false → a.IsStraight t d)
  (happly : (a.planConversion t ds).apply a.root t = .ok n t')

include hds hstraight in
theorem pairwise_unmarked : ((a.unmarked t ds).map Path.normalPieces).Pairwise fun e later => ¬later <+: e := by
  refine List.pairwise_map.2 ((pairwise_sortedPaths _).imp_of_mem fun {d d'} hd hd' hlt => ?_)
  have hspelled {d : Path} (hd : d ∈ a.unmarked t ds) : a.IsStraight t d ∧
      d.key = (Path.ofNames d.normalPieces).key := by
    obtain ⟨hmem, hmissing⟩ := mem_unmarked hd
    have hd := hstraight d hmem hmissing
    exact ⟨hd, congrArg (List.map Path.Part.key) (hd.parts_eq (hds d hmem))⟩
  obtain ⟨hstraight, hkey⟩ := hspelled hd
  obtain ⟨hstraight', hkey'⟩ := hspelled hd'
  rw [hkey, hkey', Path.key_ofNames_lt hstraight.names hstraight'.names] at hlt
  exact Plan.not_isPrefix_of_lt hlt

include hcapture hmarker hds hstraight happly

theorem exists_lays (hne : a.unmarked t ds ≠ []) : ∃ base, t.RootAt a.root base ∧
    Lays t base a.layout.marker ((a.unmarked t ds).map Path.normalPieces) t' := by
  obtain ⟨hfits, hperform⟩ := planConversion_ok happly
  have hall : ∀ d ∈ a.unmarked t ds, d.isAbsolute = false ∧ a.IsStraight t d ∧ a.hasMarker t d = false ∧
      (t.isPresent (a.markerPath d) = true → t.readText (a.markerPath d) = .ok "") := by
    intro d hd
    obtain ⟨hmem, hmissing⟩ := mem_unmarked hd
    exact ⟨hds d hmem, hstraight d hmem hmissing, hmissing, hfits d hd⟩
  obtain ⟨base, hroot⟩ : ∃ base, t.RootAt a.root base := by
    obtain ⟨hroot, -⟩ := capture_ok hcapture
    obtain ⟨fs, hfs, -⟩ := filesBelow_of_capture hcapture
    obtain ⟨⟨base, entry⟩, hresolve, hentry⟩ := resolve_of_filesBelow hfs
    obtain ⟨e, rfl⟩ := Option.ne_none_iff_exists'.1 hentry
    obtain ⟨d, ds', hcons⟩ := List.exists_cons_of_ne_nil hne
    obtain ⟨hd, hstraight, -⟩ := hall d (by simp [hcons])
    rw [hcons] at hperform
    obtain ⟨_, u, _, hfirst, -⟩ := Change.performAll_cons_ok hperform
    rw [hstraight.perform_eq hmarker hd, hroot] at hfirst
    exact ⟨base, hroot ▸ Change.rootAt_of_perform_create hresolve
      (Path.isPlain_ofNames (by simp) (hstraight.isName hmarker)) hfirst⟩
  refine ⟨base, hroot, ?_⟩
  exact lays_of_performAll hroot hmarker hall (pairwise_unmarked hds hstraight) (.refl t) hperform

theorem readText_of_straight (hd : d ∈ ds) (hmissing : a.hasMarker t d = false) :
    t'.readText (a.markerPath d) = .ok "" := by
  obtain ⟨d', hd', hparts⟩ := exists_mem_unmarked hd hmissing
  obtain ⟨base, hroot, hlays⟩ := exists_lays hcapture hmarker hds hstraight happly (List.ne_nil_of_mem hd')
  obtain ⟨hmem, hmissing'⟩ := mem_unmarked hd'
  have hstraight' := hstraight d' hmem hmissing'
  obtain ⟨hfile, hshort⟩ := hlays.laid _ (List.mem_map_of_mem hd')
  have hresolve := resolve_marker (hroot.keeps hlays.keeps hlays.workdir) (hstraight'.isName hmarker)
    (hlays.clear (hstraight'.clear base hroot)) (ne_of_eq_of_ne hfile (by simp)) hshort
  obtain ⟨e, he, hshape⟩ := Option.map_eq_some_iff.1 hfile
  rw [he] at hresolve
  have hentry := hstraight'.entry?_eq hmarker (hds d' hmem) t'
  rw [entry?_of_resolve hresolve, entry?, resolve_markerPath hmarker (hds d' hmem) (hds d hd) hparts,
    ← entry?] at hentry
  cases e with
  | link | dir => cases hshape
  | file bytes =>
    cases hshape
    rw [readText, hentry]
    simp only [fromUTF8?_toUTF8]

end Apply

def IsUnlinked (a : Snapshot) (t : FileTree) (d : Path) : Prop :=
  ∀ base target, t.RootAt a.root base → t.view (base ++ (d.pieces ++ [a.layout.marker])) ≠ some (.link target)

theorem Indexes.exists_view (ha : a.Indexes t base) (htidy : t.top.Tidy) (hroot : t.RootAt root base)
    {m : Module} (hm : m ∈ a.modules) : ∃ bytes, t.view (base ++ m.path.pieces) = some (.file bytes) := by
  obtain ⟨q, hq, -, hpath⟩ := ha.exists_file hm
  obtain ⟨-, bytes, hview⟩ := (mem_filesUnder_ofPlace (hroot.isName htidy)).1 hq
  exact ⟨bytes, by rwa [hpath, Path.pieces_ofNames (isName_of_mem_filesUnder htidy hq)]⟩

section Missing

variable (htidy : t.top.Tidy) (hcapture : capture t root l excludes = .ok a)

include htidy hcapture

theorem exists_of_mem_directoriesMissingMarker (hd : d ∈ a.directoriesMissingMarker t) :
    a.hasMarker t d = false ∧ ∃ m ∈ a.modules, ∃ ns, ns ≠ [] ∧ (∀ n ∈ ns, IsName n) ∧
      ns <+: m.path.pieces ∧ ns ≠ m.path.pieces ∧ d = Path.ofNames ns := by
  have hbelow := isBelow_of_capture htidy hcapture
  obtain ⟨hmissing, m, hm, ns, hne, habove, hother, hd⟩ := (Plan.mem_directoriesMissingMarker hbelow).1 hd
  refine ⟨hmissing, m, hm, ns, hne, fun n hn => ?_, habove, hother, hd⟩
  obtain ⟨q, -, hnames, hpath⟩ := hbelow m hm
  rw [hpath, Path.pieces_ofNames hnames] at habove
  exact hnames n (habove.subset hn)

theorem isStraight_of_mem_directoriesMissingMarker (hd : d ∈ a.directoriesMissingMarker t)
    (hlink : a.IsUnlinked t d) : a.IsStraight t d := by
  obtain ⟨-, m, hm, ns, hne, hns, habove, hother, rfl⟩ :=
    exists_of_mem_directoriesMissingMarker htidy hcapture hd
  have hpieces := Path.normalPieces_ofNames hns
  refine ⟨by rwa [hpieces], by rwa [hpieces], fun base hroot => ?_⟩
  rw [hpieces]
  intro front hfront hle target
  obtain rfl | hle := List.prefix_concat_iff.1 hle
  · have hfree := hlink base target hroot
    rwa [Path.pieces_ofNames hns] at hfree
  · obtain ⟨rfl, -⟩ := capture_ok hcapture
    obtain ⟨bytes, hview⟩ := (indexes_of_capture htidy hroot hcapture).exists_view htidy hroot hm
    obtain ⟨rest, hrest⟩ := habove
    have hmore : rest ≠ [] := by
      rintro rfl
      exact hother (by simpa using hrest)
    have hclear : Clear t.top base ns := clear_of_view hmore (by
      rw [hrest]
      exact ne_of_eq_of_ne hview (by simp))
    exact hclear front hfront hle target

theorem exists_above_of_lays {es : List (List String)} (htidy' : t'.top.Tidy) (hroot : t.RootAt a.root base)
    (hlays : Lays t base a.layout.marker es t') (hb : a.refresh t' = .ok b)
    (hes : ∀ e ∈ es, ∃ m ∈ a.modules, e <+: m.path.pieces ∧ e ≠ m.path.pieces) {m' : Module}
    (hm' : m' ∈ b.modules) {ns : List String} (habove : ns <+: m'.path.pieces) (hother : ns ≠ m'.path.pieces) :
    ∃ m ∈ a.modules, ns <+: m.path.pieces ∧ ns ≠ m.path.pieces := by
  obtain ⟨-, hlayout, hexcludes, -⟩ := capture_ok hb
  have hroot' := hroot.keeps hlays.keeps hlays.workdir
  obtain ⟨rfl, -⟩ := capture_ok hcapture
  obtain ⟨q, hq, hlists, hrelative⟩ := ((indexes_of_capture htidy' hroot' hb).mem_modules m').1 hm'
  have hpath : m'.path.pieces = q := by
    rw [Module.path_of_ofRelative? hrelative, Path.pieces_ofNames (isName_of_mem_filesUnder htidy' hq)]
  rw [hpath] at habove hother
  obtain ⟨hne, bytes, hview⟩ := (mem_filesUnder_ofPlace (hroot'.isName htidy')).1 hq
  by_cases hnone : t.view (base ++ q) = none
  · obtain hnone' | ⟨e, he, heq⟩ | ⟨hdir, -⟩ := hlays.new _ hnone
    · rw [hview] at hnone'
      cases hnone'
    · obtain rfl := List.append_cancel_left heq
      obtain ⟨m, hm, habove', hother'⟩ := hes e he
      have hle := (List.prefix_concat_iff.1 habove).resolve_left hother
      refine ⟨m, hm, hle.trans habove', ?_⟩
      rintro rfl
      exact hother' (habove'.eq_of_length (habove'.length_le.antisymm hle.length_le))
    · rw [hview] at hdir
      cases hdir
  · rw [hlays.kept _ hnone] at hview
    have hq' := (mem_filesUnder_ofPlace (hroot.isName htidy)).2 ⟨hne, bytes, hview⟩
    refine ⟨m', ((indexes_of_capture htidy hroot hcapture).mem_modules m').2 ⟨q, hq', ?_, ?_⟩, ?_⟩
    · exact ⟨hlists.visible, hexcludes ▸ hlists.included⟩
    · rwa [← hlayout]
    · rw [hpath]
      exact ⟨habove, hother⟩

theorem directoriesMissingMarker_eq_nil (hmarker : IsName a.layout.marker)
    (hlink : ∀ d ∈ a.directoriesMissingMarker t, a.IsUnlinked t d)
    (happly : (a.planConversion t (a.directoriesMissingMarker t)).apply a.root t = .ok n t')
    (hb : a.refresh t' = .ok b) (hsettled : Settled a b t t' (a.directoriesMissingMarker t)) :
    b.directoriesMissingMarker t' = [] := by
  have hstraight (d : Path) (hd : d ∈ a.directoriesMissingMarker t) (_ : a.hasMarker t d = false) :
      a.IsStraight t d := isStraight_of_mem_directoriesMissingMarker htidy hcapture hd (hlink d hd)
  have hrelative (d : Path) (hd : d ∈ a.directoriesMissingMarker t) : d.isAbsolute = false := by
    obtain ⟨-, m, hm, ns, hne, hns, habove, hother, rfl⟩ :=
      exists_of_mem_directoriesMissingMarker htidy hcapture hd
    exact Path.isAbsolute_ofNames hns
  rw [List.eq_nil_iff_forall_not_mem]
  intro d hd
  by_cases hnil : a.unmarked t (a.directoriesMissingMarker t) = []
  · obtain ⟨-, hperform⟩ := planConversion_ok happly
    rw [hnil] at hperform
    cases hperform
    obtain ⟨rfl, rfl, rfl, -⟩ := capture_ok hcapture
    obtain rfl : a = b := Except.ok.inj (hcapture.symm.trans hb)
    obtain ⟨hmissing, -⟩ := exists_of_mem_directoriesMissingMarker htidy hcapture hd
    obtain ⟨d', hd', -⟩ := exists_mem_unmarked hd hmissing
    simp [hnil] at hd'
  · obtain ⟨base, hroot, hlays⟩ := exists_lays hcapture hmarker hrelative hstraight happly hnil
    have htidy' := hlays.tidy htidy
    obtain ⟨hmissing, m', hm', ns, hne, hns, habove, hother, rfl⟩ :=
      exists_of_mem_directoriesMissingMarker htidy' hb hd
    obtain ⟨m, hm, habove', hother'⟩ := exists_above_of_lays htidy hcapture htidy' hroot hlays hb
      (fun e he => by
        obtain ⟨d', hd', rfl⟩ := List.mem_map.1 he
        obtain ⟨-, m, hm, ns, -, hns, habove, hother, rfl⟩ :=
          exists_of_mem_directoriesMissingMarker htidy hcapture (mem_unmarked hd').1
        rw [Path.normalPieces_ofNames hns]
        exact ⟨m, hm, habove, hother⟩) hm' habove hother
    cases hbefore : a.hasMarker t (Path.ofNames ns) with
    | true =>
      obtain ⟨hroot', hlayout, -⟩ := capture_ok hb
      rw [hasMarker_congr hroot' hlayout,
        hasMarker_of_apply hmarker happly (Path.isAbsolute_ofNames hns) hbefore] at hmissing
      cases hmissing
    | false =>
      have := hsettled.marked (Path.ofNames ns) ((Plan.mem_directoriesMissingMarker
        (isBelow_of_capture htidy hcapture)).2 ⟨hbefore, m, hm, ns, hne, habove', hother', rfl⟩)
      rw [hmissing] at this
      cases this

end Missing

end Snapshot

theorem planConversion_idempotent {t t' : FileTree} {root : Path} {l : Layout} {excludes : List Glob}
    {a : Snapshot} {ds : List Path} {n : Nat} (htidy : t.top.Tidy)
    (hcapture : Snapshot.capture t root l excludes = .ok a) (hmarker : IsName l.marker)
    (hds : ∀ d ∈ ds, d.isAbsolute = false)
    (happly : (a.planConversion t ds).apply root t = .ok n t') :
    ∃ b, a.refresh t' = .ok b ∧
      (Snapshot.Settled a b t t' ds ↔
        ∀ d ∈ ds, a.hasMarker t d = false → t'.readText (a.markerPath d) = .ok "") ∧
      ((∀ d ∈ ds, a.hasMarker t d = false → a.IsStraight t d) → Snapshot.Settled a b t t' ds) ∧
      (ds = a.directoriesMissingMarker t → (∀ d ∈ ds, a.IsUnlinked t d) →
        Snapshot.Settled a b t t' ds ∧ b.directoriesMissingMarker t' = []) := by
  obtain ⟨rfl, rfl, rfl, -⟩ := Snapshot.capture_ok hcapture
  obtain ⟨b, hb⟩ := Snapshot.exists_refresh happly hcapture
  obtain ⟨hroot, hlayout, -⟩ := Snapshot.capture_ok hb
  have hiff := Snapshot.settled_iff hmarker hds happly hroot hlayout
  have hstraight (h : ∀ d ∈ ds, a.hasMarker t d = false → a.IsStraight t d) :
      Snapshot.Settled a b t t' ds :=
    hiff.2 fun d hd => Snapshot.readText_of_straight hcapture hmarker hds h happly hd
  refine ⟨b, hb, hiff, hstraight, ?_⟩
  rintro rfl hlink
  have hsettled := hstraight fun d hd _ =>
    Snapshot.isStraight_of_mem_directoriesMissingMarker htidy hcapture hd (hlink d hd)
  exact ⟨hsettled, Snapshot.directoriesMissingMarker_eq_nil htidy hcapture hmarker hlink happly hb hsettled⟩

namespace SelfImport

def directories : List Path :=
  [⟨"q/r"⟩, ⟨"q/"⟩, ⟨"q"⟩]

theorem unmarked_directories : snapshot.unmarked tree directories = [⟨"q/"⟩, ⟨"q/r"⟩] := by
  have hmissing : directories.filter (fun d => !snapshot.hasMarker tree d) = directories := by
    decide +kernel
  have hsorted : directories.mergeSort Path.le = [⟨"q/"⟩, ⟨"q"⟩, ⟨"q/r"⟩] := by
    have h₁ : Path.le ⟨"q/r"⟩ ⟨"q/"⟩ = false := by decide +kernel
    have h₂ : Path.le ⟨"q/r"⟩ ⟨"q"⟩ = false := by decide +kernel
    have h₃ : Path.le ⟨"q/"⟩ ⟨"q"⟩ = true := by decide +kernel
    simp [directories, List.mergeSort, List.MergeSort.Internal.splitInTwo, h₁, h₂, h₃]
  rw [Snapshot.unmarked, hmissing, Snapshot.sortedPaths, hsorted]
  decide +kernel

theorem apply_directories : ∃ t', (snapshot.planConversion tree directories).apply ⟨"/"⟩ tree = .ok 2 t' := by
  have h : (match Change.performAll ⟨"/"⟩ [.create ⟨"q/__init__.py"⟩ "", .create ⟨"q/r/__init__.py"⟩ ""] tree with
      | .ok n _ => n == 2
      | .error .. => false) = true := by
    decide +kernel
  split at h
  · next t' hperform =>
    refine ⟨t', ?_⟩
    rw [beq_iff_eq.1 h] at hperform
    refine ChangeSet.apply_of_perform ?_ ?_
    · rw [Snapshot.changes_planConversion, unmarked_directories]
      rfl
    · rw [Snapshot.ordered_planConversion, unmarked_directories]
      exact hperform
  · cases h

end SelfImport

theorem planConversion_idempotent_nested : ∃ t' b,
    (SelfImport.snapshot.planConversion SelfImport.tree SelfImport.directories).apply ⟨"/"⟩ SelfImport.tree =
      .ok 2 t' ∧ SelfImport.snapshot.refresh t' = .ok b ∧
    Snapshot.Settled SelfImport.snapshot b SelfImport.tree t' SelfImport.directories := by
  obtain ⟨t', happly⟩ := SelfImport.apply_directories
  have hmarker : IsName Layout.standard.marker := ⟨by decide, by decide, by decide, by decide⟩
  obtain ⟨b, hb, -, hsettled, -⟩ := planConversion_idempotent SelfImport.tidy_tree SelfImport.capture_tree hmarker
    (by decide) happly
  refine ⟨t', b, happly, hb, hsettled fun d hd _ => ?_⟩
  have hname : ∀ m ∈ ["q", "r"], IsName m := by
    simp only [List.forall_mem_cons]
    exact ⟨⟨by decide, by decide, by decide, by decide⟩, ⟨by decide, by decide, by decide, by decide⟩, by simp⟩
  have hpieces : d.normalPieces ≠ [] ∧ ∀ m ∈ d.normalPieces, m ∈ ["q", "r"] := by
    revert d
    decide +kernel
  exact ⟨hpieces.1, fun m hm => hname m (hpieces.2 m hm), fun base _ => clear_of_linkFree SelfImport.linkFree_tree⟩

end Reroot

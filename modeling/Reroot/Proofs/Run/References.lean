import Reroot.Proofs.Survey
import Reroot.Proofs.Run.Trace

namespace Reroot

open FileTree Scan Python Runner

variable {t t' t₀ t₁ : FileTree} {root : Path} {l : Layout} {package : QualifiedName}

def Transformation.Prepares : Transformation → Prop
  | renameExternal .. => True
  | convertToPackage directory => Plan.IsBelow directory
  | moveModule .. => False

theorem putsAt_of_planEdits {s : Snapshot} {old new : QualifiedName} {ms : List Module}
    {edits : List Change} (htidy : t.top.Tidy) (hs : s.IsOf t root l) (hms : ∀ m ∈ ms, m ∈ s.modules)
    (h : planEdits t s old new ms = .ok edits) :
    ∀ c ∈ edits, c.PutsAt fun q => q ∈ t.filesUnder root := by
  intro c hc
  obtain ⟨m, hm, source, r, -, -, rfl⟩ := (planned_of_planEdits h).edit c hc
  obtain ⟨q, hq, -, -, hpath⟩ := hs.exists_file (hms m hm)
  have hnames := isName_of_mem_filesUnder htidy hq
  change m.path.IsPlain ∧ m.path.pieces ∈ t.filesUnder root
  rw [hpath, Path.pieces_ofNames hnames]
  exact ⟨Path.isPlain_ofNames hq.1 hnames, hq⟩

theorem gains_of_writes {cs : ChangeSet} {Q : List String → Prop} (hfree : t.top.LinkFree)
    (hcs : ∀ c ∈ cs.changes, c.PutsAt Q) (h : Runner.Writes cs root t t') : Gains root Q t t' := by
  obtain ⟨n, h⟩ | ⟨e, h⟩ := h
  · exact cs.gains_of_apply hfree hcs h
  · exact cs.gains_of_apply_error hfree hcs h

theorem Transformation.Prepares.gains {x : Transformation} {s : Snapshot} {cs : ChangeSet}
    (hx : x.Prepares) (hmarker : Path.IsName l.marker) (hfree : t.top.LinkFree) (htidy : t.top.Tidy)
    (hs : s.IsOf t root l) (hchanges : x.changes Python.analyzer t s = .ok cs)
    (h : Runner.Writes cs root t t') : Gains root (Plan.IsInnerMarker l.marker) t t' := by
  cases x with
  | moveModule => exact hx.elim
  | convertToPackage d =>
    cases hchanges
    have hputs : ∀ c ∈ (s.planConversion t [d]).changes, c.PutsAt (Plan.IsInnerMarker l.marker) :=
      hs.layout_eq ▸ Plan.putsAt_of_planConversion hx (hs.layout_eq ▸ hmarker)
    exact gains_of_writes hfree hputs h
  | renameExternal oldName newName scope =>
    obtain ⟨glob, old, new, -, -, -, hedits⟩ := exists_of_renameExternal hchanges
    have hputs := putsAt_of_planEdits htidy hs (fun m hm => (List.mem_filter.1 hm).1) hedits
    exact (gains_of_writes hfree hputs h).mono fun q hq => .inl hq

variable {r : Runner} {run : Run} {s s' : Session}

theorem gains_of_steps (hr : r.analyzer = Python.analyzer) (hmarker : Path.IsName l.marker)
    (hfree : s.tree.top.LinkFree) (htidy : s.tree.top.Tidy) (hfresh : Fresh s root l)
    {xs : List Transformation} (hxs : ∀ x ∈ xs, x.Prepares) (h : r.steps xs s = .ok run s')
    (happlied : ∀ o ∈ run.outcomes, o.isApplied = true) :
    Gains root (Plan.IsInnerMarker l.marker) s.tree s'.tree ∧ Fresh s' root l := by
  have hI : ∀ t, Gains root (Plan.IsInnerMarker l.marker) s.tree t → t.top.LinkFree ∧ t.top.Tidy :=
    fun t ht => ⟨ht.linkFree hfree, ht.tidy htidy⟩
  have hrun := steps_applied
    (P := fun xs t => (∀ x ∈ xs, x.Prepares) ∧ Gains root (Plan.IsInnerMarker l.marker) s.tree t)
    (fun xs t ht => hI t ht.2) hfresh ⟨hxs, .refl _⟩ h happlied ?_
  · exact ⟨hrun.1.2, hrun.2⟩
  intro x xs s₀ o s₁ hfresh₀ hP hstep ho _
  obtain ⟨hx, hxs⟩ := List.forall_mem_cons.1 hP.1
  have hkept : ∀ t snapshot cs t', Gains root (Plan.IsInnerMarker l.marker) s.tree t → snapshot.IsOf t root l →
      x.changes r.analyzer t snapshot = .ok cs → Runner.Writes cs root t t' →
      Gains root (Plan.IsInnerMarker l.marker) s.tree t' := by
    intro t snapshot cs t' ht hisOf hchanges hwrites
    rw [hr] at hchanges
    exact ht.trans (hx.gains hmarker (hI t ht).1 (hI t ht).2 hisOf hchanges hwrites)
  obtain ⟨hisOf, t, snapshot, cs, n, ht, hsnapshot, -, hchanges, happly⟩ :=
    step_applied hI hfresh₀ hP.2 hstep (fun t snapshot cs t' ht hs _ => hkept t snapshot cs t' ht hs) ho
  exact ⟨⟨hxs, hkept t snapshot cs _ ht hsnapshot hchanges (.inl ⟨n, happly⟩)⟩, hisOf⟩

structure Carried (t₁ : FileTree) (root : Path) (l : Layout) (package : QualifiedName)
    (done : List TopLevelModule) (t : FileTree) : Prop where
  steady : t₁.Steady t
  files : Set.BijOn (relocate package.segments (done.map (·.path.text))) (t₁.filesUnder root)
    (t.filesUnder root)
  front : package.first ∉ done.map (·.path.text)
  avoids : Avoids t root l (done.map (·.name))

theorem Carried.refl (t : FileTree) (root : Path) (l : Layout) (package : QualifiedName) :
    Carried t root l package [] t := by
  refine ⟨.refl t, ?_, List.not_mem_nil, fun _ _ _ _ _ _ _ _ _ _ => List.not_mem_nil⟩
  rw [List.map_nil, funext (relocate_nil_moved package.segments)]
  exact Set.bijOn_id _

section Move

variable {m : TopLevelModule} {done : List TopLevelModule} {snapshot : Snapshot} {cs : ChangeSet}
  (hm : IsMovable m package m.path.text) (hdone : ∀ d ∈ done, package.first ≠ d.name)
  (hfree : t.top.LinkFree) (htidy : t.top.Tidy) (hs : snapshot.IsOf t root l)
  (hplan : planMove t snapshot m package.text = .ok cs) (hlists : ListsMoved t snapshot m package)
  (hcarried : Carried t₁ root l package done t)

include hm hdone hfree htidy hs hplan hlists hcarried

theorem Carried.of_error {e : Error} (h : cs.apply root t = .error e t') :
    Carried t₁ root l package done t' := by
  obtain ⟨hsteady, hfiles, havoids⟩ := apply_planMove_error hm hfree htidy hs hplan hlists h
  refine ⟨hcarried.steady.trans hsteady, by rw [hfiles]; exact hcarried.files, hcarried.front,
    havoids _ ?_ hcarried.avoids⟩
  intro hmem
  obtain ⟨d, hd, heq⟩ := List.mem_map.1 hmem
  exact hdone d hd heq.symm

theorem Carried.of_ok {n : Nat} (hroot : m.path.text = l.marker → [l.marker] ∉ t₁.filesUnder root)
    (h : cs.apply root t = .ok n t') :
    Carried t₁ root l package (done ++ [m]) t' ∧
      t'.view (t'.place root ++ [m.path.text]) = none := by
  obtain ⟨u, hsteady, hsteady', hfiles, hrelocates, havoids⟩ :=
    apply_planMove_ok hm hfree htidy hs hplan hlists h
  have hutidy := hsteady.tidy htidy
  have hnotin : package.first ∉ done.map (·.name) := by
    intro hmem
    obtain ⟨d, hd, heq⟩ := List.mem_map.1 hmem
    exact hdone d hd heq.symm
  refine ⟨⟨hcarried.steady.trans (hsteady.trans hsteady'), ?_, ?_, ?_⟩, hrelocates.view_source⟩
  · have hbij := hrelocates.bijOn
    rw [hfiles] at hbij
    refine (hbij.comp hcarried.files).congr fun q hq => ?_
    rw [Function.comp_apply, relocate_relocate hrelocates.front_ne hrelocates.not_isPrefix,
      List.map_append]
    rfl
  · rw [List.map_append, List.mem_append, not_or]
    refine ⟨hcarried.front, fun hfirst => hrelocates.not_isPrefix ?_⟩
    obtain heq : package.first = m.path.text := List.mem_singleton.1 hfirst
    exact heq ▸ package.first_isPrefix
  · have hu := havoids _ hnotin hcarried.avoids
    refine fun q hq hvisible hat source htext =>
      (hu.relocates hutidy package.isName hrelocates ?_ q hq hvisible hat source htext).mono (by simp)
    intro hmarker hmem
    rw [hfiles] at hmem
    obtain ⟨q, hq, heq⟩ := hcarried.files.surjOn hmem
    obtain hq' | hq' := relocate_eq package.segments (done.map (·.path.text)) q
    · rw [heq] at hq'
      exact hroot hmarker (hq' ▸ hq)
    · rw [heq] at hq'
      have hlen := congrArg List.length hq'
      have := List.length_pos_iff.2 package.nonempty
      have := List.length_pos_iff.2 hq.1
      simp only [List.length_singleton, List.length_append] at hlen
      omega

end Move

theorem not_planMove_of_view_eq_none {m : TopLevelModule} {snapshot : Snapshot} {cs : ChangeSet}
    (hm : IsMovable m package m.path.text) (hfree : t.top.LinkFree) (hs : snapshot.IsOf t root l)
    (hgone : t.view (t.place root ++ [m.path.text]) = none) :
    planMove t snapshot m package.text ≠ .ok cs := by
  intro hplan
  obtain ⟨-, -, -, -, -, -, hpresent, -⟩ := planMove_ok hplan
  obtain ⟨hplain, hpieces⟩ := hm.isPlain
  rw [Snapshot.absolute, hs.root_eq] at hpresent
  obtain ⟨names, hreach, hview⟩ := (isPresent_iff hfree).1 hpresent
  rw [hreach.eq_place_append hplain, hpieces] at hview
  exact hview hgone

theorem carried_of_steps (hr : r.analyzer = Python.analyzer) (hfree : s.tree.top.LinkFree)
    (htidy : s.tree.top.Tidy) (hfresh : Fresh s root l) {ms : List TopLevelModule}
    (hms : ∀ m ∈ ms, IsMovable m package m.path.text ∧
      (m.path.text = l.marker → [l.marker] ∉ s.tree.filesUnder root))
    (h : r.steps (ms.map (.moveModule · package.text)) s = .ok run s')
    (happlied : ∀ o ∈ run.outcomes, o.isApplied = true)
    (hlists : ∀ m ∈ ms, ∀ t snapshot, .planning (.moveModule m package.text) t snapshot ∈ s'.journal →
      ListsMoved t snapshot m package) :
    Carried s.tree root l package ms s'.tree ∧ Fresh s' root l := by
  have hI : ∀ t, s.tree.Steady t → t.top.LinkFree ∧ t.top.Tidy :=
    fun t ht => ⟨ht.linkFree hfree, ht.tidy htidy⟩
  have hrun := steps_applied
    (P := fun xs t => ∃ done rest, ms = done ++ rest ∧ xs = rest.map (.moveModule · package.text) ∧
      Carried s.tree root l package done t)
    (fun xs t ⟨_, _, _, _, ht⟩ => hI t ht.steady) hfresh ⟨[], ms, rfl, rfl, .refl _ _ _ _⟩ h happlied ?_
  · obtain ⟨⟨done, rest, rfl, hrest, hcarried⟩, hfresh'⟩ := hrun
    rw [List.nil_eq, List.map_eq_nil_iff] at hrest
    rw [hrest, List.append_nil]
    exact ⟨hcarried, hfresh'⟩
  rintro x xs s₀ o s₁ hfresh₀ ⟨done, rest, hsplit, hrest, hcarried₀⟩ hstep ho hjournal
  obtain ⟨m, rest, rfl⟩ : ∃ m rest', rest = m :: rest' := by
    cases rest with
    | nil => cases hrest
    | cons m rest => exact ⟨m, rest, rfl⟩
  rw [List.map_cons, List.cons.injEq] at hrest
  obtain ⟨rfl, rfl⟩ := hrest
  have hmem : m ∈ ms := by simp [hsplit]
  obtain ⟨hm, hmarker⟩ := hms m hmem
  have hdone : ∀ d ∈ done, package.first ≠ d.name :=
    fun d hd => (hms d (by simp [hsplit, hd])).1.outside
  -- A retry finds the tree as before the move, or without the module.
  have hkept : ∀ t snapshot cs t', (s.tree.Steady t ∧ (Carried s.tree root l package done t ∨
        t.view (t.place root ++ [m.path.text]) = none)) → snapshot.IsOf t root l →
      .planning (.moveModule m package.text) t snapshot ∈ s₁.journal →
      Transformation.changes r.analyzer t snapshot (.moveModule m package.text) = .ok cs →
      Writes cs root t t' →
      s.tree.Steady t' ∧ (Carried s.tree root l package done t' ∨
        t'.view (t'.place root ++ [m.path.text]) = none) := by
    rintro t snapshot cs t' ⟨hsteady, ht⟩ hs hplanned hchanges hwrites
    obtain ⟨hfree', htidy'⟩ := hI t hsteady
    rw [hr] at hchanges
    have hcarried := ht.resolve_right fun hgone =>
      not_planMove_of_view_eq_none hm hfree' hs hgone hchanges
    have hlist := hlists m hmem t snapshot (hjournal _ hplanned)
    obtain ⟨n, happly⟩ | ⟨e, happly⟩ := hwrites
    · obtain ⟨hnext, hgone⟩ := hcarried.of_ok hm hdone hfree' htidy' hs hchanges hlist hmarker happly
      exact ⟨hnext.steady, .inr hgone⟩
    · have hnext := hcarried.of_error hm hdone hfree' htidy' hs hchanges hlist happly
      exact ⟨hnext.steady, .inl hnext⟩
  obtain ⟨hisOf, t, snapshot, cs, n, ht, hs, hplanned, hchanges, happly⟩ :=
    step_applied (fun t ht => hI t ht.1) hfresh₀ ⟨hcarried₀.steady, .inl hcarried₀⟩ hstep hkept ho
  obtain ⟨hfree', htidy'⟩ := hI t ht.1
  rw [hr] at hchanges
  have hcarried := ht.2.resolve_right fun hgone =>
    not_planMove_of_view_eq_none hm hfree' hs hgone hchanges
  have hlist := hlists m hmem t snapshot (hjournal _ hplanned)
  have hnext := hcarried.of_ok hm hdone hfree' htidy' hs hchanges hlist hmarker happly
  exact ⟨⟨done ++ [m], rest, by simp [hsplit], rfl, hnext.1⟩, hisOf⟩

structure Brought (package : QualifiedName) (a b : Snapshot) (f : Path → Path) : Prop where
  place : ∀ m ∈ a.modules, f m.path = m.path ∨
    f m.path = (Path.ofNames package.segments).join m.path ∧ m.path ∉ b.modules.map (·.path)
  once : ∀ m ∈ a.modules, (b.modules.map (·.path)).count (f m.path) = 1
  apart : ∀ m ∈ a.modules, ∀ m' ∈ a.modules, f m.path = f m'.path → m.path = m'.path
  only : ∀ m' ∈ b.modules, (∃ m ∈ a.modules, m'.path = f m.path) ∨
    m'.path.fileName? = some a.layout.marker

section Brought

variable {a b : Snapshot} {ms : List TopLevelModule}

def carriedPath (package : QualifiedName) (ms : List TopLevelModule) (p : Path) : Path :=
  Path.ofNames (relocate package.segments (ms.map (·.path.text)) p.pieces)

theorem carriedPath_ofNames {q : List String} (hq : ∀ n ∈ q, Path.IsName n) :
    carriedPath package ms (Path.ofNames q) =
      Path.ofNames (relocate package.segments (ms.map (·.path.text)) q) := by
  rw [carriedPath, Path.pieces_ofNames hq]

variable (hskip : ∀ n ∈ package.segments, isSkipped n = false) (htidy : t.top.Tidy)
  (ha : a.IsOf t root l) (hgains : Gains root (Plan.IsInnerMarker l.marker) t t₁)
  (hroot : ∀ m ∈ ms, m.path.text = l.marker → [l.marker] ∉ t.filesUnder root)
  (hcarried : Carried t₁ root l package ms t') (hb : b.IsOf t' root l)

include hskip htidy ha hgains hcarried hb in
theorem Carried.mem_paths {m : Module} (hm : m ∈ a.modules) :
    carriedPath package ms m.path ∈ b.modules.map (·.path) := by
  obtain ⟨q, hq, hvisible, hat, hpath⟩ := ha.exists_file hm
  have hnames := isName_of_mem_filesUnder htidy hq
  have hmodule : IsVisible (relocate package.segments (ms.map (·.path.text)) q) ∧
      Module.IsAt l (relocate package.segments (ms.map (·.path.text)) q) :=
    isModule_relocate hskip package.isName hq.1 hnames hvisible hat
  obtain ⟨m', hm', hpath'⟩ :=
    hb.exists_module (hcarried.files.mapsTo (hgains.subset hq)) hmodule.1 hmodule.2
  rw [hpath, carriedPath_ofNames hnames, ← hpath']
  exact List.mem_map_of_mem hm'

include htidy ha hgains hcarried hb in
theorem Carried.place {m : Module} (hm : m ∈ a.modules) :
    carriedPath package ms m.path = m.path ∨
      carriedPath package ms m.path = (Path.ofNames package.segments).join m.path ∧
        m.path ∉ b.modules.map (·.path) := by
  obtain ⟨q, hq, -, -, hpath⟩ := ha.exists_file hm
  have hnames := isName_of_mem_filesUnder htidy hq
  obtain ⟨k, q, rfl⟩ := List.exists_cons_of_ne_nil hq.1
  rw [hpath, carriedPath_ofNames hnames, relocate]
  split
  · next hk =>
    refine .inr ⟨(Path.join_ofNames package.nonempty hq.1 package.isName hnames).symm, fun hmem => ?_⟩
    obtain ⟨m', hm', hpath'⟩ := List.mem_map.1 hmem
    obtain ⟨q', hq', -, -, hplace⟩ := hb.exists_file hm'
    have htidy' := hcarried.steady.tidy (hgains.tidy htidy)
    have heq := Path.ofNames_inj (isName_of_mem_filesUnder htidy' hq') hnames (hplace ▸ hpath')
    obtain ⟨q₀, -, hq₀⟩ := hcarried.files.surjOn hq'
    obtain ⟨f, front, hfront⟩ := List.exists_cons_of_ne_nil package.nonempty
    have hf : f ∉ ms.map (·.path.text) := by
      have := hcarried.front
      simpa only [QualifiedName.first, hfront, List.head_cons] using this
    rw [hfront, heq] at hq₀
    exact relocate_ne_cons hf hk q₀ hq₀
  · exact .inl rfl

include htidy ha hgains hcarried in
theorem Carried.path_inj {m m' : Module} (hm : m ∈ a.modules) (hm' : m' ∈ a.modules)
    (heq : carriedPath package ms m.path = carriedPath package ms m'.path) : m.path = m'.path := by
  obtain ⟨q, hq, -, -, hpath⟩ := ha.exists_file hm
  obtain ⟨q', hq', -, -, hpath'⟩ := ha.exists_file hm'
  have hnames := isName_of_mem_filesUnder htidy hq
  have hnames' := isName_of_mem_filesUnder htidy hq'
  have htidy' := hcarried.steady.tidy (hgains.tidy htidy)
  have hmem := hcarried.files.mapsTo (hgains.subset hq)
  have hmem' := hcarried.files.mapsTo (hgains.subset hq')
  rw [hpath, hpath', carriedPath_ofNames hnames, carriedPath_ofNames hnames'] at heq
  have hrelocate := Path.ofNames_inj (isName_of_mem_filesUnder htidy' hmem)
    (isName_of_mem_filesUnder htidy' hmem') heq
  rw [hpath, hpath', hcarried.files.injOn (hgains.subset hq) (hgains.subset hq') hrelocate]

include htidy ha hgains hroot hcarried hb in
theorem Carried.exists_module {m' : Module} (hm' : m' ∈ b.modules) :
    (∃ m ∈ a.modules, m'.path = carriedPath package ms m.path) ∨
      m'.path.fileName? = some l.marker := by
  obtain ⟨q', hq', hvisible, hat, hpath⟩ := hb.exists_file hm'
  obtain ⟨q, hq, rfl⟩ := hcarried.files.surjOn hq'
  obtain hq | ⟨ns, -, rfl⟩ := hgains.fresh q hq
  · have hnames := isName_of_mem_filesUnder htidy hq
    have hmarker : l.marker ∈ ms.map (·.path.text) → q ≠ [l.marker] := by
      rintro hmem rfl
      obtain ⟨m, hm, heq⟩ := List.mem_map.1 hmem
      exact hroot m hm heq hq
    obtain ⟨hvisible, hat⟩ := isModule_of_relocate package.isName hnames hmarker hvisible hat
    obtain ⟨m, hm, hplace⟩ := ha.exists_module hq hvisible hat
    exact .inl ⟨m, hm, by rw [hpath, hplace, carriedPath_ofNames hnames]⟩
  · have htidy' := hcarried.steady.tidy (hgains.tidy htidy)
    refine .inr ?_
    rw [hpath, Module.fileName?_ofNames (isName_of_mem_filesUnder htidy' hq')]
    obtain h | h := relocate_eq package.segments (ms.map (·.path.text)) (ns ++ [l.marker])
    · rw [h, List.getLast?_concat]
    · rw [h, ← List.append_assoc, List.getLast?_concat]

include hskip htidy ha hgains hroot hcarried hb in
theorem brought_of_carried : Brought package a b (carriedPath package ms) where
  place _ hm := hcarried.place htidy ha hgains hb hm
  once _ hm := by rw [hb.nodup.count, if_pos (hcarried.mem_paths hskip htidy ha hgains hb hm)]
  apart _ hm _ hm' := hcarried.path_inj htidy ha hgains hm hm'
  only _ hm' := ha.layout_eq ▸ hcarried.exists_module htidy ha hgains hroot hb hm'

end Brought

theorem isSkipped_of_mem_segments (h : ∀ n ∈ package.segments, n ∉ skippedNames) :
    ∀ n ∈ package.segments, isSkipped n = false := by
  intro n hn
  have hdot := package.not_mem_segment n hn
  have hhead : n.toList.head? ≠ some '.' := fun hhead => hdot (List.mem_of_head? hhead)
  simp [isSkipped, hhead, h n hn]

theorem isMovable_of_mem_modulesToMove {s : Snapshot} (htidy : t.top.Tidy) (hs : s.IsOf t root l)
    (hmarker : Path.IsName l.marker) :
    ∀ m ∈ Plan.modulesToMove s package, IsMovable m package m.path.text ∧
      (m.path.text = l.marker → [l.marker] ∉ t.filesUnder root) := by
  intro m hm
  obtain ⟨k, hk, hroot⟩ := Plan.exists_entry_of_mem_modulesToMove htidy hs hmarker hm
  have htext : m.path.text = k := by
    rw [hk.path, Path.ofNames, String.intercalate_singleton]
  rw [htext]
  exact ⟨hk, hroot⟩

theorem not_mem_filesUnder_of_gains (hgains : Gains root (Plan.IsInnerMarker l.marker) t t₁)
    (h : [l.marker] ∉ t.filesUnder root) : [l.marker] ∉ t₁.filesUnder root := by
  intro hmem
  obtain hmem | ⟨ns, hne, heq⟩ := hgains.fresh _ hmem
  · exact h hmem
  · have hlen := congrArg List.length heq
    have := List.length_pos_iff.2 hne
    simp only [List.length_singleton, List.length_append] at hlen
    omega

theorem plan_ok {requests : List RenameRequest} {xs : List Transformation} {s : Snapshot}
    (h : plan t s package.text requests = .ok xs) :
    xs = (Plan.renames requests ++ (Plan.directories t s package).map .convertToPackage)
      ++ (Plan.modulesToMove s package).map (.moveModule · package.text) := by
  unfold plan at h
  split at h
  · cases h
  · next parsed hparsed =>
    rw [QualifiedName.eq_of_parse_text hparsed] at h
    exact (Except.ok.inj h).symm

theorem prepares_of_mem {requests : List RenameRequest} {s : Snapshot} (htidy : t.top.Tidy)
    (hs : s.IsOf t root l) :
    ∀ x ∈ Plan.renames requests ++ (Plan.directories t s package).map .convertToPackage,
      x.Prepares := by
  intro x hx
  obtain hx | hx := List.mem_append.1 hx
  · obtain ⟨request, -, rfl⟩ := List.mem_map.1 hx
    trivial
  · obtain ⟨d, hd, rfl⟩ := List.mem_map.1 hx
    exact Plan.isBelow_of_mem_directories htidy hs d hd

theorem run_ok {operator? : Option Operator} {snapshot : Snapshot} {xs : List Transformation}
    (hquiet : ∀ o ∈ operator?, o.Quiet) (h : r.run operator? t snapshot xs = .ok run s') :
    ∃ o : Operator, o.Quiet ∧ r.steps xs ⟨t, snapshot, o, []⟩ = .ok run s' := by
  unfold Runner.run at h
  split at h
  · dsimp only at h
    split at h
    · cases h
    · exact ⟨_, Operator.quiet_scripted [] [], h⟩
  · next o => exact ⟨o, hquiet o rfl, h⟩

theorem no_reference_left_of_run {a : Snapshot} {requests : List RenameRequest}
    {xs : List Transformation} {operator? : Option Operator} (hfree : t.top.LinkFree)
    (htidy : t.top.Tidy) (hcapture : Snapshot.capture t root .standard [] = .ok a)
    (hpackage : ∀ n ∈ package.segments, n ∉ skippedNames)
    (hplan : plan t a package.text requests = .ok xs) (hr : r.analyzer = Python.analyzer)
    (hquiet : ∀ o ∈ operator?, o.Quiet) (hrun : r.run operator? t a xs = .ok run s')
    (happlied : ∀ o ∈ run.outcomes, o.isApplied = true)
    (hlists : ∀ m t snapshot, .planning (.moveModule m package.text) t snapshot ∈ s'.journal →
      ListsMoved t snapshot m package) :
    (∀ m destination, .moveModule m destination ∈ xs → ∀ module ∈ s'.snapshot.modules,
      ∀ source names, s'.snapshot.readSource s'.tree module = .ok source →
        importedNames? source = some names → ∀ x ∈ names, rootOf x ≠ m.name) ∧
      ∃ f, Brought package a s'.snapshot f := by
  have hmarker : Path.IsName Layout.standard.marker := ⟨by decide, by decide, by decide, by decide⟩
  have ha := Snapshot.isOf_of_capture hfree htidy hcapture
  obtain rfl := plan_ok hplan
  obtain ⟨o, ho, hsteps⟩ := run_ok hquiet hrun
  obtain ⟨run₁, s₁, run₂, hprepare, happlied₁, hmove, happlied₂⟩ := steps_append_ok hsteps happlied
  obtain ⟨hgains, hfresh₁⟩ := gains_of_steps hr hmarker hfree htidy ⟨ho, ha⟩ (prepares_of_mem htidy ha)
    hprepare happlied₁
  have hms : ∀ m ∈ Plan.modulesToMove a package, _ := isMovable_of_mem_modulesToMove htidy ha hmarker
  obtain ⟨hcarried, hfresh⟩ := carried_of_steps hr (hgains.linkFree hfree) (hgains.tidy htidy) hfresh₁
    (fun m hm => ⟨(hms m hm).1, fun h => not_mem_filesUnder_of_gains hgains ((hms m hm).2 h)⟩)
    hmove happlied₂ fun m _ => hlists m
  constructor
  · intro m destination hm module hmodule source names hsource hnames x hx hroot
    have hmoved : m ∈ Plan.modulesToMove a package := by
      obtain hm | hm := List.mem_append.1 hm
      · exact absurd (prepares_of_mem htidy ha _ hm) id
      · obtain ⟨m', hm', heq⟩ := List.mem_map.1 hm
        cases heq
        exact hm'
    obtain ⟨q, hq, hvisible, hat, hpath⟩ := hfresh.isOf.exists_file hmodule
    have hfree' := hcarried.steady.linkFree (hgains.linkFree hfree)
    have htidy' := hcarried.steady.tidy (hgains.tidy htidy)
    have htext := hfresh.isOf.textAt hfree' htidy' hq hpath hsource
    exact hcarried.avoids q hq hvisible hat source htext names hnames x hx
      (hroot ▸ List.mem_map_of_mem hmoved)
  · exact ⟨_, brought_of_carried (isSkipped_of_mem_segments hpackage) htidy ha hgains
      (fun m hm => (hms m hm).2) hcarried hfresh.isOf⟩

theorem Snapshot.duplicates_eq_nil {a : Snapshot} (h : (a.modules.map (·.identifier)).Nodup) :
    a.duplicates = [] := by
  refine List.filterMap_eq_nil_iff.2 fun identifier _ => if_neg ?_
  have hcount : (a.modules.filter fun m => m.identifier == identifier).length ≤ 1 := by
    have hle := List.nodup_iff_count.1 h identifier
    rwa [List.count, List.countP_map, List.countP_eq_length_filter] at hle
  simpa using hcount

theorem checkConsistency_ok {search : SearchPath} {renamed? : Option (String × String)}
    {before after : Surveyed} (hduplicates : after.survey.duplicates ≤ before.survey.duplicates)
    (hresolve : ∀ name ∈ after.survey.imports, after.snapshot.resolves t search name = true) :
    checkConsistency t search renamed? before after = .ok () := by
  have hdangling (watched : List String) :
      after.survey.dangling t after.snapshot search watched = [] := by
    refine List.filter_eq_nil_iff.2 fun name hname => ?_
    simp [hresolve name (List.mem_filter.1 hname).1]
  exact checkConsistency_of_freshlyDangling_eq_nil hduplicates (by simp [freshlyDangling, hdangling])

theorem ofExcept_of_ok {α : Type} {x : Except Error α} {a : α} (h : x = .ok a) :
    TreeM.ofExcept x t = .ok a t := by
  rw [h]
  rfl

theorem carryOut_of_checks {a b : Snapshot} {m : TopLevelModule} {destination : String}
    {cs : ChangeSet} {n : Nat} (happly : cs.apply a.root t = .ok n t') (hb : a.refresh t' = .ok b)
    (hmoved : checkMoved t' b m = .ok ())
    (hcheck : checkConsistency t' r.search (Transformation.moveModule m destination).renamed?
      ⟨a, Survey.capture r.analyzer t a⟩ ⟨b, Survey.capture r.analyzer t' b⟩ = .ok ()) :
    r.carryOut a (.moveModule m destination) cs t = .ok () t' := by
  unfold carryOut
  refine (bind_of_ok rfl).trans ((bind_of_ok happly).trans ((bind_of_ok rfl).trans ?_))
  refine (bind_of_ok (ofExcept_of_ok hb)).trans ((bind_of_ok rfl).trans ?_)
  refine (bind_of_ok (ofExcept_of_ok hmoved)).trans ((bind_of_ok rfl).trans ?_)
  exact (bind_of_ok rfl).trans (ofExcept_of_ok hcheck)

theorem carryOut_of_resolves {a b : Snapshot} {m : TopLevelModule} {destination : String}
    {cs : ChangeSet} {n : Nat} (happly : cs.apply a.root t = .ok n t') (hb : a.refresh t' = .ok b)
    (hmoved : t'.isPresent (b.absolute m.path) = false)
    (hdistinct : (b.modules.map (·.identifier)).Nodup)
    (hresolve : ∀ name ∈ (Survey.capture r.analyzer t' b).imports,
      b.resolves t' r.search name = true) :
    r.carryOut a (.moveModule m destination) cs t = .ok () t' :=
  carryOut_of_checks happly hb (by simp [checkMoved, hmoved])
    (checkConsistency_ok (by simp [Survey.capture, Snapshot.duplicates_eq_nil hdistinct]) hresolve)

theorem step_of_decide {x : Transformation} {cs : ChangeSet} {s₁ : Session}
    (hchanges : x.changes r.analyzer s.tree s.snapshot = .ok cs)
    (hdecide : r.decide cs (s.note (.planning x s.tree s.snapshot)) = .ok .apply s₁)
    (hcarry : r.carryOut s₁.snapshot x cs s₁.tree = .ok () t') :
    r.step x s = .ok (.applied cs.description)
      { s₁ with tree := t', journal := s₁.journal ++ [.writing cs s₁.tree] } := by
  simp only [Session.note] at hdecide
  refine step_of_done ?_
  simp [Runner.attempt, Session.note, hchanges, hdecide, Runner.write, Session.work, hcarry]

theorem step_of_carryOut {x : Transformation} {cs : ChangeSet} (hmode : r.mode ≠ .interactive)
    (hchanges : x.changes r.analyzer s.tree s.snapshot = .ok cs)
    (hcarry : r.carryOut s.snapshot x cs s.tree = .ok () t') :
    r.step x s = .ok (.applied cs.description) { s with
      tree := t'
      journal := s.journal ++ [.planning x s.tree s.snapshot, .writing cs s.tree] } := by
  rw [step_of_decide hchanges (decide_of_ne hmode _ _) hcarry, Session.note, List.append_assoc]
  rfl

theorem eq_ok_of_toOption {ε α : Type} {x : Except ε α} {a : α} (h : x.toOption = some a) :
    x = .ok a := by
  cases x with
  | error e => cases h
  | ok b =>
    cases h
    rfl

def settles (t : FileTree) (a : Snapshot) (m : TopLevelModule) (cs : ChangeSet)
    (identifiers : List String) : Bool :=
  match cs.apply a.root t with
  | .error .. => false
  | .ok _ t' =>
    match a.refresh t' with
    | .error _ => false
    | .ok b => !t'.isPresent (b.absolute m.path) && b.modules.map (·.identifier) == identifiers
      && (Survey.capture Python.analyzer t' b).imports.all (b.resolves t' [])

theorem exists_of_settles {a : Snapshot} {m : TopLevelModule} {cs : ChangeSet}
    {identifiers : List String} (h : settles t a m cs identifiers = true) :
    ∃ n t' b, cs.apply a.root t = .ok n t' ∧ a.refresh t' = .ok b ∧
      t'.isPresent (b.absolute m.path) = false ∧ b.modules.map (·.identifier) = identifiers ∧
      ∀ name ∈ (Survey.capture Python.analyzer t' b).imports, b.resolves t' [] name = true := by
  unfold settles at h
  split at h
  · cases h
  next n t' happly =>
  split at h
  · cases h
  next b hb =>
  simp only [Bool.and_eq_true, Bool.not_eq_true', beq_iff_eq, List.all_eq_true] at h
  exact ⟨n, t', b, happly, hb, h.1.1, h.1.2, h.2⟩

namespace SelfImport

def tree : FileTree :=
  ⟨.dir [("a.py", .file "import a\n".toUTF8), ("p", .dir [("__init__.py", .file "".toUTF8)])], []⟩

def snapshot : Snapshot :=
  ⟨⟨"/"⟩, .standard, [], [⟨"a", ⟨"a.py"⟩⟩, ⟨"p", ⟨"p/__init__.py"⟩⟩]⟩

def target : QualifiedName :=
  ⟨["p"], by decide, by decide⟩

def module : TopLevelModule :=
  ⟨"a", ⟨"a.py"⟩, false⟩

def changes : ChangeSet :=
  ⟨"Move module <a> to <p.a>",
    [.edit ⟨"a.py"⟩ 1 "import a\n" "import p.a\n", .move ⟨"a.py"⟩ ⟨"p/a.py"⟩]⟩

def runner : Runner :=
  ⟨Python.analyzer, .firstError, [], true⟩

theorem linkFree_tree : tree.top.LinkFree :=
  Entry.linkFree_dir (by simp [Entry.linkFree_file, Entry.linkFree_dir])

theorem tidy_tree : tree.top.Tidy := by
  have hname : ∀ n ∈ ["a.py", "p", "__init__.py"], Path.IsName n := by
    simp only [List.forall_mem_cons]
    exact ⟨⟨by decide, by decide, by decide, by decide⟩, ⟨by decide, by decide, by decide, by decide⟩,
      ⟨by decide, by decide, by decide, by decide⟩, by simp⟩
  simp only [List.forall_mem_cons] at hname
  have hinner : (Entry.dir [("__init__.py", .file "".toUTF8)]).Tidy :=
    .dir (List.pairwise_singleton _ _) (by simpa using hname.2.2.1) (by simp [Entry.Tidy.file])
  refine .dir ?_ ?_ ?_
  · simpa using (by decide : "a.py" < "p")
  · simpa using ⟨hname.1, hname.2.1⟩
  · simpa using ⟨Entry.Tidy.file _, hinner⟩

theorem capture_tree : Snapshot.capture tree ⟨"/"⟩ .standard [] = .ok snapshot :=
  rfl

theorem topLevelNames_snapshot : snapshot.topLevelNames = ["a", "p"] :=
  show sortedNames ["a", "p"] = ["a", "p"] from sortedNames_eq (by decide) fun _ => Iff.rfl

theorem mem_topLevelModules : module ∈ snapshot.topLevelModules := by
  simp only [Snapshot.topLevelModules, topLevelNames_snapshot]
  decide +kernel

theorem plan_tree : plan tree snapshot target.text [] = .ok [.moveModule module target.text] := by
  apply eq_ok_of_toOption
  simp only [plan, Plan.modulesToMove, Snapshot.topLevelModules, topLevelNames_snapshot]
  decide +kernel

theorem planMove_tree : planMove tree snapshot module target.text = .ok changes :=
  eq_ok_of_toOption (by decide +kernel)

theorem apply_changes : ∃ n t' b, changes.apply ⟨"/"⟩ tree = .ok n t' ∧
    snapshot.refresh t' = .ok b ∧ t'.isPresent (b.absolute module.path) = false ∧
    b.modules.map (·.identifier) = ["p", "p.a"] ∧
    ∀ name ∈ (Survey.capture Python.analyzer t' b).imports, b.resolves t' [] name = true := by
  have h : settles tree snapshot module changes ["p", "p.a"] = true := by decide +kernel
  obtain ⟨n, t', b, hsettled⟩ := exists_of_settles h
  exact ⟨n, t', b, hsettled⟩

theorem renameModule_importer : renameModule "import a\n" ⟨["a"], by decide, by decide⟩
    ⟨["p", "a"], by decide, by decide⟩ = .ok (some ⟨"import p.a\n", 1⟩) := by
  decide +kernel

theorem listsMoved : ListsMoved tree snapshot module target := by
  rintro old new hold hnew m hm source hsource r names hr hnames
  obtain rfl : old = ⟨["a"], by decide, by decide⟩ :=
    Except.ok.inj (hold.symm.trans (by decide +kernel))
  obtain rfl : new = ⟨["p", "a"], by decide, by decide⟩ :=
    Except.ok.inj (hnew.symm.trans (by decide +kernel))
  simp only [snapshot, List.mem_cons, List.not_mem_nil, or_false] at hm
  obtain rfl | rfl := hm
  · obtain rfl : source = "import a\n" := Except.ok.inj (hsource.symm.trans rfl)
    obtain rfl : r = ⟨"import p.a\n", 1⟩ :=
      Option.some.inj (Except.ok.inj (hr.symm.trans renameModule_importer))
    obtain rfl : names = ["p.a"] := Option.some.inj (hnames.symm.trans (by decide +kernel))
    exact ⟨["a"], by decide +kernel, by decide +kernel⟩
  · obtain rfl : source = "" := Except.ok.inj (hsource.symm.trans rfl)
    have hnone : (.ok (some r) : Except _ _) = .ok none := hr.symm.trans (by decide +kernel)
    cases hnone

theorem step_tree : ∃ t' b, snapshot.refresh t' = .ok b ∧
    runner.step (.moveModule module target.text) ⟨tree, snapshot, Operator.scripted [] [], []⟩ =
      .ok (.applied changes.description) ⟨t', snapshot, Operator.scripted [] [],
        [.planning (.moveModule module target.text) tree snapshot, .writing changes tree]⟩ := by
  obtain ⟨n, t', b, happly, hb, hmoved, hidentifiers, hresolve⟩ := apply_changes
  have hdistinct : (b.modules.map (·.identifier)).Nodup := by
    rw [hidentifiers]
    decide
  exact ⟨t', b, hb, step_of_carryOut (by decide) planMove_tree
    (carryOut_of_resolves happly hb hmoved hdistinct hresolve)⟩

theorem run_tree : ∃ t' b, runner.run none tree snapshot [.moveModule module target.text] =
    .ok ⟨[.applied changes.description], none⟩ ⟨t', b, Operator.scripted [] [],
      [.planning (.moveModule module target.text) tree snapshot, .writing changes tree]⟩ := by
  obtain ⟨t', b, hb, hstep⟩ := step_tree
  refine ⟨t', b, ?_⟩
  have hmode : runner.mode = .firstError := rfl
  simp [Runner.run, Runner.steps, hstep, Session.refresh, hb, Outcome.onward, hmode]

end SelfImport

theorem no_reference_left_of_run_selfImport :
    ∃ xs run s', plan SelfImport.tree SelfImport.snapshot SelfImport.target.text [] = .ok xs ∧
      SelfImport.runner.run none SelfImport.tree SelfImport.snapshot xs = .ok run s' ∧
      (∀ m destination, .moveModule m destination ∈ xs → ∀ module ∈ s'.snapshot.modules,
        ∀ source names, s'.snapshot.readSource s'.tree module = .ok source →
          importedNames? source = some names → ∀ x ∈ names, rootOf x ≠ m.name) ∧
      ∃ f, Brought SelfImport.target SelfImport.snapshot s'.snapshot f := by
  obtain ⟨t', b, hrun⟩ := SelfImport.run_tree
  refine ⟨_, _, _, SelfImport.plan_tree, hrun, ?_⟩
  refine no_reference_left_of_run SelfImport.linkFree_tree SelfImport.tidy_tree SelfImport.capture_tree
    (by decide) SelfImport.plan_tree rfl (by simp) hrun (by simp [Outcome.isApplied]) ?_
  intro m t snapshot hplanned
  simp only [List.mem_cons, Event.planning.injEq, Transformation.moveModule.injEq, and_true, reduceCtorEq,
    List.not_mem_nil, or_false] at hplanned
  obtain ⟨rfl, rfl, rfl⟩ := hplanned
  exact SelfImport.listsMoved

end Reroot

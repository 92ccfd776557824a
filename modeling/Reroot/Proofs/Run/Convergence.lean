import Reroot.Proofs.Project.Markers
import Reroot.Proofs.Run.Agreement
import Reroot.Proofs.Run.Journal

namespace Reroot

open FileTree Scan Python Runner
open Reroot.Path (IsName)

variable {t t' t₁ : FileTree} {root : Path} {base : List String} {l : Layout} {excludes : List Glob}
  {a b : Snapshot} {package : QualifiedName} {r : Runner} {run : Run} {s s' : Session}

structure Session.Attends (root : Path) (l : Layout) (excludes : List Glob) (s : Session) : Prop where
  quiet : s.operator.Quiet
  capture : Snapshot.capture s.tree root l excludes = .ok s.snapshot

theorem Runner.attends_of_steps {P : List Transformation → FileTree → Prop} {xs : List Transformation}
    (hs : s.Attends root l excludes) (hstart : P xs s.tree) (h : r.steps xs s = .ok run s')
    (happlied : ∀ o ∈ run.outcomes, o.isApplied = true)
    (hstep : ∀ x xs t₀, P (x :: xs) t₀ → ∃ I : FileTree → Prop, I t₀ ∧ ∀ t a cs, I t →
      Snapshot.capture t root l excludes = .ok a → x.changes r.analyzer t a = .ok cs →
      (∀ t', Writes cs root t t' → I t') ∧
      ∀ n t' b, cs.apply root t = .ok n t' → Snapshot.capture t' root l excludes = .ok b → P xs t') :
    P [] s'.tree ∧ s'.Attends root l excludes := by
  induction xs generalizing s run with
  | nil =>
    cases h
    exact ⟨hstart, hs⟩
  | cons x xs ih =>
    obtain ⟨o, s₁, s₂, rest, hfirst, ho, hrefresh, hrest, hall⟩ := steps_cons_ok h happlied
    obtain ⟨htree, hoperator, -, hsnapshot⟩ := refresh_ok hrefresh
    obtain ⟨I, hI, hkept⟩ := hstep x xs s.tree hstart
    obtain ⟨t, cs, ht, ha, -, hchanges, hcarry⟩ := carryOut_of_step
      (J := fun t a => Snapshot.capture t root l excludes = .ok a)
      (fun t t' a b ha _ hb => refresh_of_capture ha t ▸ hb) hs.quiet hs.capture hI hfirst
      (fun t a cs t' ht ha _ hchanges hw => by
        obtain ⟨haroot, -⟩ := Snapshot.capture_ok ha
        exact (hkept t a cs ht ha hchanges).1 t' (haroot ▸ hw)) ho
    obtain ⟨haroot, -⟩ := Snapshot.capture_ok ha
    obtain ⟨n, happly⟩ := carryOut_ok hcarry
    rw [refresh_of_capture ha] at hsnapshot
    refine ih ⟨hoperator ▸ (step_ok hs.quiet hfirst).1, htree ▸ hsnapshot⟩ ?_ hrest hall
    rw [htree]
    exact (hkept t s₁.snapshot cs ht ha hchanges).2 n s₁.tree s₂.snapshot (haroot ▸ happly) hsnapshot

section Conversion

variable {W : List String → Prop}

theorem marked_of_steps (hr : r.analyzer = Python.analyzer) (hfree : s.tree.top.LinkFree)
    (hs : s.Attends root l excludes)
    (hW : ∀ ns, W ns → ns ≠ [] ∧ ∀ n ∈ ns ++ [l.marker], IsName n) {ds : List Path}
    (hds : ∀ d ∈ ds, ∃ ns, W ns ∧ d = Path.ofNames ns)
    (h : r.steps (ds.map .convertToPackage) s = .ok run s')
    (happlied : ∀ o ∈ run.outcomes, o.isApplied = true) :
    Gains root (Plan.IsMarkerIn W l.marker) s.tree s'.tree ∧
      (∀ ns, W ns → Path.ofNames ns ∈ ds → s'.tree.Marked root l.marker ns) ∧
      s'.Attends root l excludes := by
  have hrun := attends_of_steps
    (P := fun xs t => (∀ x ∈ xs, ∃ ns, W ns ∧ x = .convertToPackage (Path.ofNames ns)) ∧
      Gains root (Plan.IsMarkerIn W l.marker) s.tree t ∧ ∀ ns, W ns → Path.ofNames ns ∈ ds →
        .convertToPackage (Path.ofNames ns) ∈ xs ∨ t.Marked root l.marker ns)
    hs ?_ h happlied ?_
  · obtain ⟨⟨-, hgains, hmarked⟩, hs'⟩ := hrun
    exact ⟨hgains, fun ns hns hd => (hmarked ns hns hd).resolve_left List.not_mem_nil, hs'⟩
  · refine ⟨fun x hx => ?_, .refl _, fun ns _ hd => .inl (List.mem_map_of_mem hd)⟩
    obtain ⟨d, hd, rfl⟩ := List.mem_map.1 hx
    obtain ⟨ns, hns, rfl⟩ := hds d hd
    exact ⟨ns, hns, rfl⟩
  rintro x xs t₀ ⟨hxs, hgains₀, hmarked₀⟩
  obtain ⟨⟨ns, hns, rfl⟩, hrest⟩ := List.forall_mem_cons.1 hxs
  refine ⟨Gains root (Plan.IsMarkerIn W l.marker) t₀, .refl t₀, fun t a cs hgains ha hchanges => ?_⟩
  rw [hr] at hchanges
  cases hchanges
  obtain ⟨haroot, rfl, -, -⟩ := Snapshot.capture_ok ha
  obtain ⟨hne, hnames⟩ := hW ns hns
  have hfree' := hgains.linkFree (hgains₀.linkFree hfree)
  have hputs : ∀ c ∈ (a.planConversion t [Path.ofNames ns]).changes, _ :=
    Plan.putsAt_of_convert hne hnames hns
  refine ⟨fun t' hw => hgains.trans (gains_of_writes hfree' hputs hw), fun n t' b happly _ => ?_⟩
  have hgains' := hgains.trans (ChangeSet.gains_of_apply hfree' hputs happly)
  refine ⟨hrest, hgains₀.trans hgains', fun ns' hns' hd => ?_⟩
  obtain hmem | hmarked := hmarked₀ ns' hns' hd
  · obtain heq | hmem := List.mem_cons.1 hmem
    · have hsame : ns' = ns := Path.ofNames_inj
        (fun n hn => (hW ns' hns').2 n (List.mem_append_left _ hn))
        (fun n hn => hnames n (List.mem_append_left _ hn)) (Transformation.convertToPackage.inj heq)
      rw [hsame, ← haroot]
      exact .inr (Snapshot.marked_of_planConversion hne hnames hfree' (haroot ▸ happly))
    · exact .inl hmem
  · exact .inr (hmarked.gains hgains')

end Conversion

structure Rehoused (t₁ : FileTree) (root : Path) (base : List String) (package : QualifiedName)
    (moved : List String) (t : FileTree) : Prop where
  linkFree : t.top.LinkFree
  tidy : t.top.Tidy
  rootAt : t.RootAt root base
  files : Set.BijOn (relocate package.segments moved) (t₁.filesUnder (.ofPlace base))
    (t.filesUnder (.ofPlace base))

section Move

variable {m : TopLevelModule} {k : String} {moved : List String} {cs : ChangeSet} {n : Nat}

theorem Rehoused.refl (hfree : t.top.LinkFree) (htidy : t.top.Tidy) (hroot : t.RootAt root base) :
    Rehoused t root base package [] t := by
  refine ⟨hfree, htidy, hroot, ?_⟩
  rw [funext (relocate_nil_moved package.segments)]
  exact Set.bijOn_id _

theorem Rehoused.next (h : Rehoused t₁ root base package moved t) (hpath : m.path = Path.ofNames [k])
    (hk : IsName k) {u : FileTree} (hu : Varies (fun _ => True) t u)
    (ha : Snapshot.capture u root l excludes = .ok a)
    (hplan : planMove u a m package.text = .ok cs) (happly : cs.apply root u = .ok n t')
    (hb : Snapshot.capture t' root l excludes = .ok b) :
    Rehoused t₁ root base package (moved ++ [k]) t' := by
  obtain ⟨v, hv, hrelocates, hretains, hdir⟩ := relocates_of_planMove hpath hk h.rootAt
    (clear_of_linkFree h.linkFree) h.tidy hu ha hplan happly
  have hbase := h.rootAt.isName h.tidy
  have hfree : v.top.LinkFree := fun ns target hlink => h.linkFree ns target (hv.link_iff.1 hlink)
  refine ⟨hrelocates.moves.linkFree hfree, hrelocates.moves.tidy (hv.tidy h.tidy) ?_, ?_, ?_⟩
  · rw [place_ofPlace hbase]
    simp only [List.forall_mem_append, List.forall_mem_singleton]
    exact ⟨hbase, package.isName, hk⟩
  · exact h.rootAt.of_capture hretains (hrelocates.moves.workdir.trans hv.workdir) hdir hb
  · have hbij := hrelocates.bijOn
    rw [hv.filesUnder_eq] at hbij
    refine (hbij.comp h.files).congr fun q _ => ?_
    rw [Function.comp_apply, relocate_relocate hrelocates.front_ne hrelocates.not_isPrefix]

theorem rehoused_of_steps (hr : r.analyzer = Python.analyzer) (hfree : s.tree.top.LinkFree)
    (htidy : s.tree.top.Tidy) (hroot : s.tree.RootAt root base) (hs : s.Attends root l excludes)
    {ms : List TopLevelModule} (hms : ∀ m ∈ ms, IsMovable m package m.path.text)
    (h : r.steps (ms.map (.moveModule · package.text)) s = .ok run s')
    (happlied : ∀ o ∈ run.outcomes, o.isApplied = true) :
    Rehoused s.tree root base package (ms.map (·.path.text)) s'.tree ∧ s'.Attends root l excludes := by
  have hrun := attends_of_steps
    (P := fun xs t => ∃ done rest, ms = done ++ rest ∧ xs = rest.map (.moveModule · package.text) ∧
      Rehoused s.tree root base package (done.map (·.path.text)) t)
    hs ⟨[], ms, rfl, rfl, .refl hfree htidy hroot⟩ h happlied ?_
  · obtain ⟨⟨done, rest, rfl, hrest, hrehoused⟩, hs'⟩ := hrun
    rw [List.nil_eq, List.map_eq_nil_iff] at hrest
    rw [hrest, List.append_nil]
    exact ⟨hrehoused, hs'⟩
  rintro x xs t₀ ⟨done, rest, rfl, hrest, hrehoused⟩
  obtain ⟨m, rest, rfl⟩ : ∃ m rest', rest = m :: rest' := by
    cases rest with
    | nil => cases hrest
    | cons m rest => exact ⟨m, rest, rfl⟩
  rw [List.map_cons, List.cons.injEq] at hrest
  obtain ⟨rfl, rfl⟩ := hrest
  have hm := hms m (by simp)
  -- A retry finds the tree as before the move, or without the module.
  refine ⟨fun t => Varies (fun _ => True) t₀ t ∨ Gone t₀ base m.path.text t, .inl (.refl t₀),
    fun t a cs ht ha hchanges => ?_⟩
  rw [hr] at hchanges
  obtain ⟨haroot, -⟩ := Snapshot.capture_ok ha
  refine ⟨fun t' hw => ?_, fun n t' b happly hb => ?_⟩
  · exact varies_or_gone_of_writes hm.path hm.entry hrehoused.rootAt (clear_of_linkFree hrehoused.linkFree)
      hrehoused.tidy ht ha hchanges (haroot ▸ hw)
  · have hvaries := varies_of_planMove hm.path hm.entry hrehoused.rootAt ha hchanges ht
    refine ⟨done ++ [m], rest, by simp, rfl, ?_⟩
    rw [List.map_append]
    exact hrehoused.next hm.path hm.entry hvaries ha hchanges happly hb

end Move

theorem Snapshot.exists_topLevelModule {m₀ : Module} (h : m₀ ∈ a.modules) :
    ∃ m ∈ a.topLevelModules, m.name = m₀.topLevel := by
  have hname : m₀.topLevel ∈ a.topLevelNames :=
    (sorted_sortedNames _).2 _ |>.2 (List.mem_map_of_mem h)
  obtain ⟨m₁, hfind⟩ : ∃ m₁, a.modules.find? (fun m => m.topLevel == m₀.topLevel) = some m₁ := by
    rw [← Option.isSome_iff_exists, List.find?_isSome]
    exact ⟨m₀, h, by simp⟩
  exact ⟨⟨m₀.topLevel, _, _⟩, List.mem_filterMap.2 ⟨_, hname, by rw [hfind]⟩, rfl⟩

def Module.entry (m : Module) : Path :=
  Path.ofParts (m.path.parts.take 1)

def Snapshot.IsGathered (a : Snapshot) (package : QualifiedName) : Prop :=
  ∀ m ∈ a.modules, m.topLevel ≠ package.first → a.isExcluded m.entry = true

def Plan.IsComplete (a : Snapshot) (package : QualifiedName) : Prop :=
  ∀ m ∈ a.modules, m.topLevel ≠ package.first → a.isExcluded m.entry = false →
    m.entry ∈ (modulesToMove a package).map (·.path)

theorem Plan.isComplete_of_entry_eq (h : ∀ m ∈ a.modules, ∀ m' ∈ a.modules, m.topLevel = m'.topLevel →
    m.topLevel ≠ package.first → m.entry = m'.entry) : IsComplete a package := by
  intro m hm houtside hincluded
  obtain ⟨x, hx, hname⟩ := Snapshot.exists_topLevelModule hm
  obtain ⟨-, m₀, hm₀, hname₀, hpath⟩ := Snapshot.exists_of_mem_topLevelModules hx
  have hentry : x.path = m.entry :=
    hpath.trans (h m hm m₀ hm₀ (hname.symm.trans hname₀.symm) houtside).symm
  refine List.mem_map.2 ⟨x, List.mem_filter.2 ⟨List.mem_filter.2 ⟨hx, ?_⟩, ?_⟩, hentry⟩
  · rwa [hname, bne_iff_ne]
  · rw [hentry, hincluded]
    rfl

def Plan.Stems (a : Snapshot) (package : QualifiedName) (q : List String) : Prop :=
  (∃ m ∈ a.modules, m.path.pieces = q) ∨ IsMarkerIn (IsWanted a package) a.layout.marker q

namespace Plan

variable {q ps : List String} {k : String}

theorem Stems.isWanted (h : Stems a package q) (hpre : ps <+: q) (hother : ps ≠ q) (hne : ps ≠ []) :
    IsWanted a package ps := by
  obtain ⟨m, hm, rfl⟩ | ⟨ns, hns, rfl⟩ := h
  · exact ⟨hne, .inl ⟨m, hm, hpre, hother⟩⟩
  · exact hns.of_isPrefix ((List.prefix_concat_iff.1 hpre).resolve_left hother) hne

theorem Stems.head (h : Stems a package (k :: q)) :
    (∃ m ∈ a.modules, m.path.pieces.head? = some k) ∨ k = package.first := by
  obtain ⟨m, hm, hpieces⟩ | ⟨ns, ⟨hne, hns⟩, heq⟩ := h
  · exact .inl ⟨m, hm, by rw [hpieces, List.head?_cons]⟩
  obtain ⟨n, ns, rfl⟩ := List.exists_cons_of_ne_nil hne
  obtain rfl : k = n := (List.cons.inj heq).1
  obtain ⟨m, hm, hpre, -⟩ | hpre := hns
  · obtain ⟨rest, hrest⟩ := hpre
    exact .inl ⟨m, hm, by rw [← hrest]; rfl⟩
  · obtain ⟨rest, hrest⟩ := hpre
    refine .inr ?_
    simp [QualifiedName.first, ← hrest]

end Plan

theorem isBelow_of_indexes (htidy : t.top.Tidy) (ha : a.Indexes t base) :
    ∀ m ∈ a.modules, Plan.IsBelow m.path := by
  intro m hm
  obtain ⟨q, hq, -, hpath⟩ := ha.exists_file hm
  exact ⟨q, hq.1, isName_of_mem_filesUnder htidy hq, hpath⟩

structure Rearranged (t : FileTree) (base : List String) (a : Snapshot) (package : QualifiedName)
    (moved : List String) (t' : FileTree) (b : Snapshot) : Prop where
  tidy : t.top.Tidy
  tidyAfter : t'.top.Tidy
  before : a.Indexes t base
  after : b.Indexes t' base
  layout : b.layout = a.layout
  excludes : b.excludes = a.excludes
  kept : ∀ q ∈ t.filesUnder (.ofPlace base),
    relocate package.segments moved q ∈ t'.filesUnder (.ofPlace base)
  origin : ∀ q' ∈ t'.filesUnder (.ofPlace base), ∃ q, relocate package.segments moved q = q' ∧
    (q ∈ t.filesUnder (.ofPlace base) ∨ Plan.IsMarkerIn (Plan.IsWanted a package) a.layout.marker q)
  marked : ∀ ns, Plan.IsWanted a package ns →
    relocate package.segments moved (ns ++ [a.layout.marker]) ∈ t'.filesUnder (.ofPlace base) ∧
      ∀ n ∈ ns ++ [a.layout.marker], n.utf8ByteSize ≤ 255

structure Moveable (t : FileTree) (base : List String) (a : Snapshot) (package : QualifiedName)
    (moved : List String) : Prop where
  covers : ∀ k ∈ moved, ∀ q ∈ t.filesUnder (.ofPlace base), q.head? = some k → IsVisible q →
    Module.IsAt a.layout q → Glob.anyCovers a.excludes (String.intercalate "/" q) = true →
    Glob.anyCovers a.excludes (String.intercalate "/" (package.segments ++ q)) = true
  marker : a.layout.marker ∈ moved → [a.layout.marker] ∉ t.filesUnder (.ofPlace base)
  first : package.first ∉ moved

section Rearranged

variable {moved : List String} {m' : Module} {ps : List String}
  (h : Rearranged t base a package moved t' b) (hmoveable : Moveable t base a package moved)

include h hmoveable

theorem Rearranged.stems (hm' : m' ∈ b.modules) :
    ∃ q, Plan.Stems a package q ∧ m'.path.pieces = relocate package.segments moved q := by
  obtain ⟨q', hq', hlists, hrelative⟩ := (h.after.mem_modules m').1 hm'
  have hpieces : m'.path.pieces = q' := by
    rw [Module.path_of_ofRelative? hrelative,
      Path.pieces_ofNames (isName_of_mem_filesUnder h.tidyAfter hq')]
  rw [h.layout] at hrelative
  obtain ⟨q, rfl, hq | hq⟩ := h.origin q' hq'
  · refine ⟨q, .inl ?_, hpieces⟩
    have hnames := isName_of_mem_filesUnder h.tidy hq
    obtain ⟨hvisible, hat⟩ := isModule_of_relocate package.isName hnames
      (fun hmem heq => hmoveable.marker hmem (heq ▸ hq)) hlists.visible ⟨m', hrelative⟩
    have hlisted : a.Lists q := by
      refine ⟨hvisible, ?_⟩
      have hincluded := hlists.included
      rw [h.excludes] at hincluded
      obtain ⟨k, q, rfl⟩ := List.exists_cons_of_ne_nil hq.1
      by_cases hk : k ∈ moved
      · rw [relocate, if_pos hk] at hincluded
        by_contra hcovered
        rw [hmoveable.covers k hk _ hq rfl hvisible hat (by simpa using hcovered)] at hincluded
        cases hincluded
      · rwa [relocate, if_neg hk] at hincluded
    obtain ⟨m, hm⟩ := hat
    refine ⟨m, (h.before.mem_modules m).2 ⟨q, hq, hlisted, hm⟩, ?_⟩
    rw [Module.path_of_ofRelative? hm, Path.pieces_ofNames hnames]
  · exact ⟨q, .inr hq, hpieces⟩

omit hmoveable in
theorem Rearranged.marked_relocate (hns : Plan.IsWanted a package ps) :
    t'.Marked (.ofPlace base) a.layout.marker (relocate package.segments moved ps) := by
  obtain ⟨hfile, hshort⟩ := h.marked ps hns
  obtain ⟨-, hpackage⟩ := h.marked package.segments ⟨package.nonempty, .inr List.prefix_rfl⟩
  rw [relocate_append hns.1] at hfile
  refine ⟨hfile, ?_⟩
  obtain heq | heq := relocate_eq package.segments moved ps
  · rwa [heq]
  · rw [heq]
    simp only [List.forall_mem_append] at hshort hpackage ⊢
    exact ⟨⟨hpackage.1, hshort.1⟩, hshort.2⟩

theorem Rearranged.marked_of_isWanted (hps : Plan.IsWanted b package ps) :
    t'.Marked (.ofPlace base) a.layout.marker ps := by
  have inside (hpre : ps <+: package.segments) : t'.Marked (.ofPlace base) a.layout.marker ps := by
    have hmarked := h.marked_relocate ⟨hps.1, .inr hpre⟩
    rwa [relocate_of_isPrefix hmoveable.first hpre] at hmarked
  obtain ⟨hne, ⟨m', hm', hpre, hother⟩ | hpre⟩ := hps
  · obtain ⟨q, hstems, hpieces⟩ := h.stems hmoveable hm'
    rw [hpieces] at hpre hother
    obtain hfront | ⟨p, hp, habove, hbelow, rfl⟩ := prefix_relocate hpre hother hne
    · exact inside hfront
    · exact h.marked_relocate (hstems.isWanted habove hbelow hp)
  · exact inside hpre

theorem Rearranged.directories_eq_nil (hfree : t'.top.LinkFree) (hroot : t'.RootAt b.root base)
    (hmarker : IsName a.layout.marker) : Plan.directories t' b package = [] := by
  have hbelow := isBelow_of_indexes h.tidyAfter h.after
  refine List.eq_nil_iff_forall_not_mem.2 fun d hd => ?_
  obtain ⟨hmissing, ns, hns, rfl⟩ := (Plan.mem_directories hbelow).1 hd
  have hnames : ∀ n ∈ ns ++ [b.layout.marker], IsName n := by
    simp only [List.forall_mem_append, List.forall_mem_singleton]
    exact ⟨hns.isName hbelow, h.layout ▸ hmarker⟩
  obtain ⟨hfile, hshort⟩ := h.marked_of_isWanted hmoveable hns
  rw [filesUnder, place_ofPlace (hroot.isName h.tidyAfter), hroot.eq_place hfree] at hfile
  rw [hroot.eq_place hfree] at hroot
  rw [← h.layout] at hfile hshort
  rw [Snapshot.hasMarker_eq hns.1 hnames, isFile_of_marked hfree hnames hroot ⟨hfile, hshort⟩] at hmissing
  cases hmissing

theorem Rearranged.exists_module (hm' : m' ∈ b.modules) (houtside : m'.topLevel ≠ package.first) :
    ∃ m ∈ a.modules, ∃ k ∉ moved, m.topLevel = m'.topLevel ∧ m.entry = Path.ofNames [k] ∧
      m'.entry = Path.ofNames [k] := by
  obtain ⟨k', q', -, -, -, hpieces', hentry', -, htop'⟩ :=
    h.after.exists_entry_of_mem_modules h.tidyAfter hm'
  have hinside : k' ≠ package.first := by
    rintro rfl
    exact houtside (htop'.trans (rootOf_of_not_mem
      (package.not_mem_segment _ (List.head_mem package.nonempty))))
  obtain ⟨q, hstems, hpieces⟩ := h.stems hmoveable hm'
  have hhead' : (relocate package.segments moved q).head? = some k' := by
    rw [← hpieces, hpieces', List.head?_cons]
  obtain ⟨hk, q, rfl⟩ : k' ∉ moved ∧ ∃ rest, q = k' :: rest := by
    cases q with
    | nil => cases hhead'
    | cons k q =>
      by_cases hk : k ∈ moved
      · rw [relocate, if_pos hk, List.head?_append_of_ne_nil _ package.nonempty,
          List.head?_eq_some_head package.nonempty] at hhead'
        exact absurd (Option.some.inj hhead').symm hinside
      · rw [relocate, if_neg hk, List.head?_cons] at hhead'
        obtain rfl := Option.some.inj hhead'
        exact ⟨hk, q, rfl⟩
  obtain ⟨m, hm, hhead⟩ := hstems.head.resolve_right hinside
  obtain ⟨k, q₀, -, -, -, hpieces₀, hentry, -, htop⟩ := h.before.exists_entry_of_mem_modules h.tidy hm
  obtain rfl : k = k' := by rwa [hpieces₀, List.head?_cons, Option.some.injEq] at hhead
  exact ⟨m, hm, k, hk, htop.trans htop'.symm, hentry, hentry'⟩

omit hmoveable in
theorem Rearranged.exists_entry {m : Module} (hm : m ∈ a.modules) :
    ∃ k, m.entry = Path.ofNames [k] ∧ (k ∉ moved → m ∈ b.modules) := by
  obtain ⟨k, q, hq, ⟨hvisible, hincluded⟩, hrelative, -, hentry, -⟩ :=
    h.before.exists_entry_of_mem_modules h.tidy hm
  refine ⟨k, hentry, fun hk => ?_⟩
  have hfile := h.kept _ hq
  rw [relocate, if_neg hk] at hfile
  rw [← h.excludes] at hincluded
  rw [← h.layout] at hrelative
  exact (h.after.mem_modules m).2 ⟨k :: q, hfile, ⟨hvisible, hincluded⟩, hrelative⟩

theorem Rearranged.isGathered_iff (hmoved : moved = (Plan.modulesToMove a package).map (·.path.text)) :
    b.IsGathered package ↔ Plan.IsComplete a package := by
  have hmem (k : String) : Path.ofNames [k] ∈ (Plan.modulesToMove a package).map (·.path) ↔ k ∈ moved := by
    rw [hmoved, List.mem_map, List.mem_map, Path.ofNames, String.intercalate_singleton]
    refine exists_congr fun x => and_congr_right fun _ => ⟨congrArg Path.text, fun htext => ?_⟩
    rw [← htext]
  have hexcluded (p : Path) : b.isExcluded p = a.isExcluded p := by
    rw [Snapshot.isExcluded, Snapshot.isExcluded, h.excludes]
  constructor
  · intro hgathered m hm houtside hincluded
    obtain ⟨k, hentry, hkept⟩ := h.exists_entry hm
    rw [hentry, hmem]
    by_contra hk
    rw [← hexcluded, hgathered m (hkept hk) houtside] at hincluded
    cases hincluded
  · intro hcomplete m' hm' houtside
    obtain ⟨m, hm, k, hk, htop, hentry, hentry'⟩ := h.exists_module hmoveable hm' houtside
    rw [hentry', ← hentry, hexcluded, ← Bool.not_eq_false]
    intro hincluded
    have hmoves := hcomplete m hm (htop ▸ houtside) hincluded
    rw [hentry, hmem] at hmoves
    exact hk hmoves

end Rearranged

theorem Snapshot.IsGathered.modulesToMove_eq_nil (h : a.IsGathered package) :
    Plan.modulesToMove a package = [] := by
  refine List.eq_nil_iff_forall_not_mem.2 fun m hm => ?_
  obtain ⟨hm, hincluded⟩ := List.mem_filter.1 hm
  obtain ⟨hm, houtside⟩ := List.mem_filter.1 hm
  obtain ⟨-, m₀, hm₀, hname, hpath⟩ := Snapshot.exists_of_mem_topLevelModules hm
  have hexcluded := h m₀ hm₀ (by simpa [hname] using houtside)
  rw [Module.entry, ← hpath] at hexcluded
  simp [hexcluded] at hincluded

theorem isMovable_of_indexes (htidy : t.top.Tidy) (ha : a.Indexes t base) :
    ∀ m ∈ Plan.modulesToMove a package, IsMovable m package m.path.text := by
  intro m hm
  obtain ⟨hm, houtside⟩ := List.mem_filter.1 (List.mem_filter.1 hm).1
  obtain ⟨-, k, -, -, -, -, -, hpath, hk, hname⟩ := ha.exists_entry htidy hm
  rw [hpath, Path.ofNames, String.intercalate_singleton]
  exact ⟨hpath, hk, hname ▸ not_mem_rootOf k, fun heq => by simp [heq] at houtside⟩

theorem moveable_of_indexes (htidy : t.top.Tidy) (hbase : ∀ n ∈ base, IsName n) (ha : a.Indexes t base)
    (hcovers : ∀ m ∈ Plan.modulesToMove a package, ∀ q ∈ t.filesUnder (.ofPlace base),
      q.head? = some m.path.text → IsVisible q → Module.IsAt a.layout q →
      Glob.anyCovers a.excludes (String.intercalate "/" q) = true →
      Glob.anyCovers a.excludes (String.intercalate "/" (package.segments ++ q)) = true) :
    Moveable t base a package ((Plan.modulesToMove a package).map (·.path.text)) := by
  have hentry : ∀ k ∈ (Plan.modulesToMove a package).map (·.path.text), IsName k ∧
      rootOf k ≠ package.first ∧ ∃ q m₀, k :: q ∈ t.filesUnder (.ofPlace base) ∧
        Module.ofRelative? a.layout (Path.ofNames (k :: q)) = some m₀ := by
    intro k hk
    obtain ⟨m, hm, rfl⟩ := List.mem_map.1 hk
    obtain ⟨hm, houtside⟩ := List.mem_filter.1 (List.mem_filter.1 hm).1
    obtain ⟨-, k, q, m₀, -, hq, hrelative, hpath, hk, hname⟩ := ha.exists_entry htidy hm
    rw [hpath, Path.ofNames, String.intercalate_singleton]
    exact ⟨hk, hname ▸ bne_iff_ne.1 houtside, q, m₀, hq, hrelative⟩
  refine ⟨fun k hk => ?_, fun hmem => ?_, fun hmem => ?_⟩
  · obtain ⟨m, hm, rfl⟩ := List.mem_map.1 hk
    exact hcovers m hm
  · obtain ⟨hk, -, q, m₀, hq, hrelative⟩ := hentry _ hmem
    exact not_mem_filesUnder_marker hk (place_ofPlace hbase) hbase hq hrelative rfl
  · exact (hentry _ hmem).2.1
      (rootOf_of_not_mem (package.not_mem_segment _ (List.head_mem package.nonempty)))

section Run

variable {o : Operator} (hfree : t.top.LinkFree) (htidy : t.top.Tidy)
  (hcapture : Snapshot.capture t root l excludes = .ok a) (hmarker : IsName l.marker)
  (hr : r.analyzer = Python.analyzer)

include hfree htidy hcapture hmarker hr

theorem marked_of_conversions (ho : o.Quiet)
    (h : r.steps ((Plan.directories t a package).map .convertToPackage) ⟨t, a, o, []⟩ = .ok run s')
    (happlied : ∀ o ∈ run.outcomes, o.isApplied = true) :
    Gains root (Plan.IsMarkerIn (Plan.IsWanted a package) l.marker) t s'.tree ∧
      (∀ ns, Plan.IsWanted a package ns → s'.tree.Marked root l.marker ns) ∧
      s'.tree.RootAt root (t.place root) ∧ s'.Attends root l excludes := by
  obtain ⟨haroot, rfl, -, -⟩ := Snapshot.capture_ok hcapture
  have hbelow := isBelow_of_indexes htidy (Snapshot.indexes_of_unlinked hfree htidy hcapture)
  have hW (ns : List String) (hns : Plan.IsWanted a package ns) :
      ns ≠ [] ∧ ∀ n ∈ ns ++ [a.layout.marker], IsName n := by
    simp only [List.forall_mem_append, List.forall_mem_singleton]
    exact ⟨hns.1, hns.isName hbelow, hmarker⟩
  obtain ⟨hgains, hmarked, hs'⟩ := marked_of_steps hr hfree ⟨ho, hcapture⟩ hW
    (fun d hd => ((Plan.mem_directories hbelow).1 hd).2) h happlied
  have hall (ns : List String) (hns : Plan.IsWanted a package ns) :
      s'.tree.Marked root a.layout.marker ns := by
    obtain ⟨hne, hnames⟩ := hW ns hns
    cases hhas : a.hasMarker t (Path.ofNames ns) with
    | false => exact hmarked ns hns ((Plan.mem_directories hbelow).2 ⟨hhas, ns, hns, rfl⟩)
    | true =>
      rw [Snapshot.hasMarker_eq hne hnames, haroot] at hhas
      exact (marked_of_isFile hfree hnames hhas).gains hgains
  refine ⟨hgains, hall, ?_, hs'⟩
  obtain ⟨-, bytes, hview⟩ := (hall [package.first] ⟨by simp, .inr package.first_isPrefix⟩).file
  rw [← place_eq hgains.workdir]
  refine Snapshot.rootAt_of_dir (hgains.linkFree hfree) hs'.capture ?_
  exact Entry.view_eq_dir_of_append (by simp) (ne_of_eq_of_ne hview (by simp))

theorem rearranged_of_run {xs : List Transformation} (ho : o.Quiet)
    (hplan : plan t a package.text [] = .ok xs) (h : r.steps xs ⟨t, a, o, []⟩ = .ok run s')
    (happlied : ∀ o ∈ run.outcomes, o.isApplied = true) :
    Rearranged t (t.place root) a package ((Plan.modulesToMove a package).map (·.path.text)) s'.tree
        s'.snapshot ∧
      s'.tree.RootAt root (t.place root) ∧ s'.tree.top.LinkFree ∧ s'.Attends root l excludes := by
  have ha := Snapshot.indexes_of_unlinked hfree htidy hcapture
  obtain rfl := plan_ok hplan
  obtain ⟨run₁, s₁, run₂, hconvert, happlied₁, hmove, happlied₂⟩ := steps_append_ok h happlied
  obtain ⟨hgains, hmarked, hroot, hs₁⟩ :=
    marked_of_conversions hfree htidy hcapture hmarker hr ho hconvert happlied₁
  obtain ⟨hrehoused, hs'⟩ := rehoused_of_steps hr (hgains.linkFree hfree) (hgains.tidy htidy) hroot hs₁
    (isMovable_of_indexes htidy ha) hmove happlied₂
  obtain ⟨-, rfl, hexcludes, -⟩ := Snapshot.capture_ok hcapture
  obtain ⟨-, hlayout', hexcludes', -⟩ := Snapshot.capture_ok hs'.capture
  have hfiles : s₁.tree.filesUnder (.ofPlace (t.place root)) = s₁.tree.filesUnder root := by
    rw [← place_eq hgains.workdir]
    exact Snapshot.filesUnder_place (hgains.linkFree hfree) (hgains.tidy htidy) hs₁.capture
  refine ⟨⟨htidy, hrehoused.tidy, ha,
    Snapshot.indexes_of_capture hrehoused.tidy hrehoused.rootAt hs'.capture, hlayout',
    hexcludes'.trans hexcludes.symm, fun q hq => ?_, fun q' hq' => ?_, fun ns hns => ?_⟩,
    hrehoused.rootAt, hrehoused.linkFree, hs'⟩
  · rw [Snapshot.filesUnder_place hfree htidy hcapture] at hq
    have hfile := hgains.subset hq
    rw [← hfiles] at hfile
    exact hrehoused.files.mapsTo hfile
  · obtain ⟨q, hq, rfl⟩ := hrehoused.files.surjOn hq'
    rw [hfiles] at hq
    rw [Snapshot.filesUnder_place hfree htidy hcapture]
    exact ⟨q, rfl, hgains.fresh q hq⟩
  · obtain ⟨hfile, hshort⟩ := hmarked ns hns
    rw [← hfiles] at hfile
    exact ⟨hrehoused.files.mapsTo hfile, hshort⟩

end Run

theorem plan_eq_nil_of_run {xs : List Transformation} {operator? : Option Operator}
    (hfree : t.top.LinkFree) (htidy : t.top.Tidy)
    (hcapture : Snapshot.capture t root l excludes = .ok a) (hmarker : IsName l.marker)
    (hplan : plan t a package.text [] = .ok xs) (hr : r.analyzer = Python.analyzer)
    (hquiet : ∀ o ∈ operator?, o.Quiet) (hrun : r.run operator? t a xs = .ok run s')
    (happlied : ∀ o ∈ run.outcomes, o.isApplied = true)
    (hcovers : ∀ m ∈ Plan.modulesToMove a package, ∀ q ∈ t.filesUnder root,
      q.head? = some m.path.text → IsVisible q → Module.IsAt l q →
      Glob.anyCovers excludes (String.intercalate "/" q) = true →
      Glob.anyCovers excludes (String.intercalate "/" (package.segments ++ q)) = true) :
    Snapshot.capture s'.tree root l excludes = .ok s'.snapshot ∧
      (s'.snapshot.IsGathered package ↔ Plan.IsComplete a package) ∧
      (Plan.IsComplete a package → plan s'.tree s'.snapshot package.text [] = .ok []) := by
  obtain ⟨o, ho, hsteps⟩ := run_ok hquiet hrun
  obtain ⟨hrearranged, hroot, hfree', hs'⟩ :=
    rearranged_of_run hfree htidy hcapture hmarker hr ho hplan hsteps happlied
  obtain ⟨-, hlayout, hexcludes, -⟩ := Snapshot.capture_ok hcapture
  have hmoveable : Moveable t (t.place root) a package
      ((Plan.modulesToMove a package).map (·.path.text)) := by
    simp only [← Snapshot.filesUnder_place hfree htidy hcapture, ← hlayout, ← hexcludes] at hcovers
    exact moveable_of_indexes htidy (Snapshot.isName_place hfree htidy hcapture) hrearranged.before hcovers
  have hgathered := hrearranged.isGathered_iff hmoveable rfl
  refine ⟨hs'.capture, hgathered, fun hcomplete => ?_⟩
  obtain ⟨hroot', -⟩ := Snapshot.capture_ok hs'.capture
  have hdirectories := hrearranged.directories_eq_nil hmoveable hfree' (hroot' ▸ hroot) (hlayout ▸ hmarker)
  have hmodules := (hgathered.2 hcomplete).modulesToMove_eq_nil
  simp [plan, QualifiedName.parse_text, hdirectories, hmodules, Plan.renames]

theorem plan_eq_nil_of_run_selfImport :
    ∃ xs run s', plan SelfImport.tree SelfImport.snapshot SelfImport.target.text [] = .ok xs ∧
      SelfImport.runner.run none SelfImport.tree SelfImport.snapshot xs = .ok run s' ∧
      Snapshot.capture s'.tree ⟨"/"⟩ .standard [] = .ok s'.snapshot ∧
      s'.snapshot.IsGathered SelfImport.target ∧
      plan s'.tree s'.snapshot SelfImport.target.text [] = .ok [] := by
  obtain ⟨t', b, hrun⟩ := SelfImport.run_tree
  have hdistinct : (SelfImport.snapshot.modules.map (·.topLevel)).Nodup := by decide +kernel
  have hcomplete : Plan.IsComplete SelfImport.snapshot SelfImport.target :=
    Plan.isComplete_of_entry_eq fun m hm m' hm' heq _ => by
      rw [List.inj_on_of_nodup_map hdistinct hm hm' heq]
  obtain ⟨hcapture, hgathered, hplan⟩ := plan_eq_nil_of_run SelfImport.linkFree_tree SelfImport.tidy_tree
    SelfImport.capture_tree ⟨by decide, by decide, by decide, by decide⟩ SelfImport.plan_tree rfl (by simp)
    hrun (by simp [Outcome.isApplied]) (fun _ _ _ _ _ _ _ h => by cases h)
  exact ⟨_, _, _, SelfImport.plan_tree, hrun, hcapture, hgathered.2 hcomplete, hplan hcomplete⟩

end Reroot

import Reroot.Plan
import Reroot.Proofs.Change.Edits
import Reroot.Proofs.Project.Relocation
import Reroot.Proofs.Python.Imports
import Reroot.Python.Analyzer

namespace Reroot

namespace FileTree

variable {t t' : FileTree} {root : Path} {q : List String} {source : String}

def TextAt (t : FileTree) (root : Path) (q : List String) (source : String) : Prop :=
  ∃ bytes, t.view (t.place root ++ q) = some (.file bytes) ∧ String.fromUTF8? bytes = some source

theorem TextAt.eq {source' : String} (h : t.TextAt root q source) (h' : t.TextAt root q source') :
    source = source' := by
  obtain ⟨bytes, hview, hdecode⟩ := h
  obtain ⟨bytes', hview', hdecode'⟩ := h'
  rw [hview, Option.some.injEq, Shape.file.injEq] at hview'
  rw [hview', hdecode'] at hdecode
  exact (Option.some.inj hdecode).symm

theorem fromUTF8?_toUTF8 (text : String) : String.fromUTF8? text.toUTF8 = some text := by
  unfold String.fromUTF8?
  rw [dif_pos]
  rfl

theorem Extends.filesUnder_eq (h : t.Extends t') : t'.filesUnder root = t.filesUnder root := by
  ext q
  refine and_congr_right fun _ => exists_congr fun bytes => ?_
  rw [place_eq h.workdir]
  by_cases hnone : t.view (t.place root ++ q) = none
  · obtain h' | h' := h.new _ hnone <;> simp [hnone, h']
  · rw [h.kept _ hnone]

theorem Extends.textAt (h : t.Extends t') (htext : t'.TextAt root q source) :
    t.TextAt root q source := by
  obtain ⟨bytes, hview, hdecode⟩ := htext
  rw [place_eq h.workdir] at hview
  by_cases hnone : t.view (t.place root ++ q) = none
  · obtain h' | h' := h.new _ hnone <;> simp [h'] at hview
  · exact ⟨bytes, by rw [← h.kept _ hnone, hview], hdecode⟩

theorem Relocates.textAt {front : List String} {k : String} (h : t.Relocates root front k t')
    (hq : q ∈ t.filesUnder root) (htext : t'.TextAt root (relocate front [k] q) source) :
    t.TextAt root q source := by
  obtain ⟨bytes, hview, hdecode⟩ := htext
  exact ⟨bytes, by rw [← h.view hq, hview], hdecode⟩

end FileTree

namespace Snapshot.IsOf

open FileTree Scan

variable {t : FileTree} {root : Path} {l : Layout} {s : Snapshot} {m : Module} {q : List String}
  {source : String}

theorem exists_file (h : s.IsOf t root l) (hm : m ∈ s.modules) :
    ∃ q ∈ t.filesUnder root, IsVisible q ∧ Module.IsAt l q ∧ m.path = Path.ofNames q := by
  obtain ⟨q, hq, hvisible, hrelative⟩ := (h.mem_modules m).1 hm
  exact ⟨q, hq, hvisible, ⟨m, hrelative⟩, Module.path_of_ofRelative? hrelative⟩

theorem exists_module (h : s.IsOf t root l) (hq : q ∈ t.filesUnder root) (hvisible : IsVisible q)
    (hat : Module.IsAt l q) : ∃ m ∈ s.modules, m.path = Path.ofNames q := by
  obtain ⟨m, hm⟩ := hat
  exact ⟨m, (h.mem_modules m).2 ⟨q, hq, hvisible, hm⟩, Module.path_of_ofRelative? hm⟩

theorem textAt (h : s.IsOf t root l) (hfree : t.top.LinkFree) (htidy : t.top.Tidy)
    (hq : q ∈ t.filesUnder root) (hpath : m.path = Path.ofNames q)
    (hsource : s.readSource t m = .ok source) : t.TextAt root q source := by
  have hnames := isName_of_mem_filesUnder htidy hq
  rw [readSource, absolute, h.root_eq, hpath] at hsource
  obtain ⟨names, bytes, hreach, hview, hdecode⟩ := readText_ok hfree hsource
  have hplace := hreach.eq_place_append (Path.isPlain_ofNames hq.1 hnames)
  rw [Path.pieces_ofNames hnames] at hplace
  exact ⟨bytes, hplace ▸ hview, hdecode⟩

end Snapshot.IsOf

namespace Python

open FileTree Scan

variable {t t' : FileTree} {s : Snapshot} {root : Path} {l : Reroot.Layout} {old new : QualifiedName}
  {ms : List Module} {edits pre : List Change} {q : List String} {source : String}

structure Planned (t : FileTree) (s : Snapshot) (old new : QualifiedName) (ms : List Module)
    (edits : List Change) : Prop where
  edit : ∀ c ∈ edits, ∃ m ∈ ms, ∃ source r, s.readSource t m = .ok source ∧
    renameModule source old new = .ok (some r) ∧ c = .edit m.path r.replacements source r.content
  module : ∀ m ∈ ms, ∃ source, s.readSource t m = .ok source ∧
    (renameModule source old new = .ok none ∨ ∃ r, renameModule source old new = .ok (some r) ∧
      .edit m.path r.replacements source r.content ∈ edits)

theorem planEdit?_ok {m : Module} {change? : Option Change}
    (h : planEdit? t s old new m = .ok change?) :
    ∃ source, s.readSource t m = .ok source ∧
      (renameModule source old new = .ok none ∧ change? = none ∨
        ∃ r, renameModule source old new = .ok (some r) ∧
          change? = some (.edit m.path r.replacements source r.content)) := by
  unfold planEdit? at h
  split at h
  · cases h
  · next source hsource =>
    refine ⟨source, hsource, ?_⟩
    split at h
    · cases h
    · next hr =>
      cases h
      exact .inl ⟨hr, rfl⟩
    · next r hr =>
      cases h
      exact .inr ⟨r, hr, rfl⟩

theorem planEdits_cons_ok {m : Module} (h : planEdits t s old new (m :: ms) = .ok edits) :
    ∃ change? rest, planEdit? t s old new m = .ok change? ∧ planEdits t s old new ms = .ok rest ∧
      edits = change?.toList ++ rest := by
  unfold planEdits at h
  cases hchange : planEdit? t s old new m with
  | error e =>
    rw [hchange] at h
    cases h
  | ok change? =>
    cases hrest : planEdits t s old new ms with
    | error e =>
      rw [hchange, hrest] at h
      cases h
    | ok rest =>
      rw [hchange, hrest] at h
      cases h
      exact ⟨change?, rest, rfl, rfl, rfl⟩

theorem planned_of_planEdits (h : planEdits t s old new ms = .ok edits) :
    Planned t s old new ms edits := by
  induction ms generalizing edits with
  | nil =>
    cases h
    exact ⟨by simp, by simp⟩
  | cons m ms ih =>
    obtain ⟨change?, rest, hchange, hrest, rfl⟩ := planEdits_cons_ok h
    obtain ⟨source, hsource, hcases⟩ := planEdit?_ok hchange
    refine ⟨fun c hc => ?_, List.forall_mem_cons.2 ⟨⟨source, hsource, ?_⟩, fun m' hm' => ?_⟩⟩
    · obtain hc | hc := List.mem_append.1 hc
      · obtain ⟨-, rfl⟩ | ⟨r, hr, rfl⟩ := hcases
        · cases hc
        · exact ⟨m, by simp, source, r, hsource, hr, by simpa using hc⟩
      · obtain ⟨m', hm', hrest⟩ := (ih hrest).edit c hc
        exact ⟨m', by simp [hm'], hrest⟩
    · obtain ⟨hr, -⟩ | ⟨r, hr, rfl⟩ := hcases
      · exact .inl hr
      · exact .inr ⟨r, hr, by simp⟩
    · obtain ⟨source', hsource', hcases'⟩ := (ih hrest).module m' hm'
      refine ⟨source', hsource', hcases'.imp_right ?_⟩
      rintro ⟨r, hr, hmem⟩
      exact ⟨r, hr, by simp [hmem]⟩

section Sources

variable (hfree : t.top.LinkFree) (htidy : t.top.Tidy) (hs : s.IsOf t root l)
  (hplanned : Planned t s old new s.modules edits)

include htidy hs hplanned in
theorem Planned.isPlainEdit : ∀ c ∈ edits, c.IsPlainEdit := by
  intro c hc
  obtain ⟨m, hm, source, r, -, -, rfl⟩ := hplanned.edit c hc
  obtain ⟨q, hq, -, -, hpath⟩ := hs.exists_file hm
  change m.path.IsPlain
  rw [hpath]
  exact Path.isPlain_ofNames hq.1 (isName_of_mem_filesUnder htidy hq)

include hfree htidy hs hplanned in
theorem Planned.of_writes {c : Change} {ns : List String} {text : String} (hc : c ∈ edits)
    (hwrites : c.Writes (t.place root) ns text) :
    ∃ q ∈ t.filesUnder root, ns = t.place root ++ q ∧ ∃ source r, t.TextAt root q source ∧
      renameModule source old new = .ok (some r) ∧ text = r.content := by
  obtain ⟨m, hm, source, r, hsource, hr, rfl⟩ := hplanned.edit c hc
  obtain ⟨q, hq, -, -, hpath⟩ := hs.exists_file hm
  obtain ⟨hns, htext⟩ := hwrites
  rw [hpath, Path.pieces_ofNames (isName_of_mem_filesUnder htidy hq)] at hns
  exact ⟨q, hq, hns, source, r, hs.textAt hfree htidy hq hpath hsource, hr, htext.symm⟩

include hfree htidy hs hplanned in
theorem Planned.filesUnder_eq (hpre : ∀ c ∈ pre, c ∈ edits) (h : t.Rewrites root pre t') :
    t'.filesUnder root = t.filesUnder root := by
  ext q
  refine and_congr_right fun _ => ?_
  rw [place_eq h.workdir]
  obtain ⟨c, hc, text, hwrites, hview⟩ | ⟨-, hview⟩ := h.view (t.place root ++ q)
  · obtain ⟨q', hq', hns, -⟩ := hplanned.of_writes hfree htidy hs (hpre c hc) hwrites
    obtain rfl := List.append_cancel_left hns
    exact iff_of_true ⟨_, hview⟩ hq'.2
  · rw [hview]

include hfree htidy hs hplanned in
theorem Planned.textAt (hpre : ∀ c ∈ pre, c ∈ edits) (h : t.Rewrites root pre t')
    {source' : String} (htext : t'.TextAt root q source') :
    ∃ source, t.TextAt root q source ∧
      (source' = source ∧ (∀ c ∈ pre, ∀ text, ¬c.Writes (t.place root) (t.place root ++ q) text) ∨
        ∃ r, renameModule source old new = .ok (some r) ∧ source' = r.content) := by
  obtain ⟨bytes, hview', hdecode⟩ := htext
  rw [place_eq h.workdir] at hview'
  obtain ⟨c, hc, text, hwrites, hview⟩ | ⟨hnone, hview⟩ := h.view (t.place root ++ q)
  · obtain ⟨q', -, hns, source, r, hsource, hr, rfl⟩ :=
      hplanned.of_writes hfree htidy hs (hpre c hc) hwrites
    obtain rfl := List.append_cancel_left hns
    rw [hview, Option.some.injEq, Shape.file.injEq] at hview'
    rw [← hview', fromUTF8?_toUTF8, Option.some.injEq] at hdecode
    exact ⟨source, hsource, .inr ⟨r, hr, hdecode.symm⟩⟩
  · exact ⟨source', ⟨bytes, by rw [← hview, hview'], hdecode⟩, .inl ⟨rfl, hnone⟩⟩

include hfree htidy hs hplanned in
theorem Planned.textAt_of_all (h : t.Rewrites root edits t') (hq : q ∈ t.filesUnder root)
    (hvisible : IsVisible q) (hat : Module.IsAt l q) {source' : String}
    (htext : t'.TextAt root q source') :
    ∃ source, t.TextAt root q source ∧
      (renameModule source old new = .ok none ∧ source' = source ∨
        ∃ r, renameModule source old new = .ok (some r) ∧ source' = r.content) := by
  obtain ⟨source, hsource, ⟨rfl, hnone⟩ | hrenamed⟩ :=
    hplanned.textAt hfree htidy hs (fun c hc => hc) h htext
  · refine ⟨source', hsource, .inl ⟨?_, rfl⟩⟩
    obtain ⟨m, hm, hpath⟩ := hs.exists_module hq hvisible hat
    obtain ⟨source, hread, hr | ⟨r, hr, hmem⟩⟩ := hplanned.module m hm
    · obtain rfl := (hs.textAt hfree htidy hq hpath hread).eq hsource
      exact hr
    · refine absurd ⟨?_, rfl⟩ (hnone _ hmem r.content)
      rw [hpath, Path.pieces_ofNames (isName_of_mem_filesUnder htidy hq)]
  · exact ⟨source, hsource, .inr hrenamed⟩

def Avoids (t : FileTree) (root : Path) (l : Reroot.Layout) (N : List String) : Prop :=
  ∀ q ∈ t.filesUnder root, IsVisible q → Module.IsAt l q → ∀ source, t.TextAt root q source →
    Spares N source

variable {N : List String} {w : String} (hold : old.segments = [w]) (hnew : new.first ∉ w :: N)
  (hlists : ∀ m ∈ s.modules, ∀ source, s.readSource t m = .ok source → ListsRenamed old new source)

include hfree htidy hs hplanned hlists in
theorem Planned.listsRenamed (hq : q ∈ t.filesUnder root) (hvisible : IsVisible q)
    (hat : Module.IsAt l q) (htext : t.TextAt root q source) : ListsRenamed old new source := by
  obtain ⟨m, hm, hpath⟩ := hs.exists_module hq hvisible hat
  obtain ⟨source₀, hread, -⟩ := hplanned.module m hm
  obtain rfl := (hs.textAt hfree htidy hq hpath hread).eq htext
  exact hlists m hm source₀ hread

include hfree htidy hs hplanned hold hnew hlists in
theorem Planned.avoids_of_some (hpre : ∀ c ∈ pre, c ∈ edits) (h : t.Rewrites root pre t')
    (havoids : Avoids t root l N) : Avoids t' root l N := by
  intro q hq hvisible hat source' htext
  rw [hplanned.filesUnder_eq hfree htidy hs hpre h] at hq
  obtain ⟨source, hsource, ⟨rfl, -⟩ | ⟨r, hr, rfl⟩⟩ := hplanned.textAt hfree htidy hs hpre h htext
  · exact havoids q hq hvisible hat source' hsource
  · have hlisted := hplanned.listsRenamed hfree htidy hs hlists hq hvisible hat hsource
    have hspares := havoids q hq hvisible hat source hsource
    exact (hspares.of_renameModule_some hold hnew hlisted hr).mono (List.subset_cons_self w N)

include hfree htidy hs hplanned hold hnew hlists in
theorem Planned.avoids_of_all (h : t.Rewrites root edits t') (havoids : Avoids t root l N) :
    Avoids t' root l (w :: N) := by
  intro q hq hvisible hat source' htext
  rw [hplanned.filesUnder_eq hfree htidy hs (fun c hc => hc) h] at hq
  obtain ⟨source, hsource, ⟨hr, rfl⟩ | ⟨r, hr, rfl⟩⟩ :=
    hplanned.textAt_of_all hfree htidy hs h hq hvisible hat htext
  · exact (havoids q hq hvisible hat source' hsource).of_renameModule_none hold hr
  · have hlisted := hplanned.listsRenamed hfree htidy hs hlists hq hvisible hat hsource
    exact (havoids q hq hvisible hat source hsource).of_renameModule_some hold hnew hlisted hr

end Sources

theorem Avoids.extends {N : List String} (h : Avoids t root l N) (ht : t.Extends t') :
    Avoids t' root l N := by
  intro q hq hvisible hat source htext
  rw [ht.filesUnder_eq] at hq
  exact h q hq hvisible hat source (ht.textAt htext)

theorem Avoids.relocates {N front : List String} {k : String} (h : Avoids t root l N)
    (htidy : t.top.Tidy) (hfront : ∀ n ∈ front, Path.IsName n) (ht : t.Relocates root front k t')
    (hmarker : k = l.marker → [l.marker] ∉ t.filesUnder root) : Avoids t' root l N := by
  intro q' hq' hvisible hat source htext
  obtain ⟨q, hq, rfl⟩ := ht.exists_of_mem hq'
  have hroot : l.marker ∈ [k] → q ≠ [l.marker] := by
    rintro hk rfl
    exact hmarker (List.mem_singleton.1 hk).symm hq
  obtain ⟨hvisible, hat⟩ :=
    isModule_of_relocate hfront (isName_of_mem_filesUnder htidy hq) hroot hvisible hat
  exact h q hq hvisible hat source (ht.textAt hq htext)

variable {m : TopLevelModule} {package : QualifiedName} {cs : ChangeSet}

theorem mapError_ok {ε ε' α : Type} {f : ε → ε'} {x : Except ε α} {a : α}
    (h : x.mapError f = .ok a) : x = .ok a := by
  cases x with
  | error e => cases h
  | ok b =>
    cases h
    rfl

theorem exists_of_renameExternal {oldName newName scope : String}
    (h : (Transformation.renameExternal oldName newName scope).changes analyzer t s = .ok cs) :
    ∃ glob old new, Glob.parse scope = .ok glob ∧ QualifiedName.parse oldName = .ok old ∧
      QualifiedName.parse newName = .ok new ∧
      planEdits t s old new (s.inScope [glob]) = .ok cs.changes := by
  cases hglob : Glob.parse scope with
  | error fault => simp [Transformation.changes, hglob] at h
  | ok glob =>
    simp only [Transformation.changes, hglob] at h
    obtain ⟨old, hold, h⟩ := exists_of_bind_eq_ok h
    obtain ⟨new, hnew, h⟩ := exists_of_bind_eq_ok h
    obtain ⟨edits, hedits, h⟩ := exists_of_bind_eq_ok h
    cases h
    exact ⟨glob, old, new, rfl, mapError_ok hold, mapError_ok hnew, hedits⟩

theorem exists_package_of_planMove {destination : String} (h : planMove t s m destination = .ok cs) :
    ∃ package : QualifiedName, package.text = destination := by
  obtain ⟨package, hpackage, -⟩ := exists_of_bind_eq_ok h
  exact ⟨package, QualifiedName.text_of_parse (mapError_ok hpackage)⟩

theorem of_moveFault? (h : moveFault? t s m package = none) :
    package.first ≠ m.name ∧ t.isPresent (s.absolute m.path) = true ∧
      t.isPresent (s.absolute (moveTarget package m)) = false := by
  unfold moveFault? at h
  dsimp only at h
  split at h
  · cases h
  split at h
  · cases h
  next hfirst =>
  split at h
  · cases h
  next hpresent =>
  split at h
  · cases h
  next htarget =>
  exact ⟨hfirst, by simpa using hpresent, by simpa using htarget⟩

theorem exists_of_planMove (h : planMove t s m package.text = .ok cs) :
    moveFault? t s m package = none ∧ ∃ old new edits, QualifiedName.parse m.name = .ok old ∧
      package.child m.name = .ok new ∧ planEdits t s old new s.modules = .ok edits ∧
      cs.changes = edits ++ [.move m.path (moveTarget package m)] := by
  obtain ⟨destination, hdestination, hrest⟩ := exists_of_bind_eq_ok h
  have hpackage : destination = package := QualifiedName.eq_of_parse_text (mapError_ok hdestination)
  rw [hpackage] at hrest
  obtain ⟨old, hold, hrest⟩ := exists_of_bind_eq_ok hrest
  obtain ⟨new, hnew, hrest⟩ := exists_of_bind_eq_ok hrest
  split at hrest
  · cases hrest
  · next hfault =>
    obtain ⟨edits, hedits, hrest⟩ := exists_of_bind_eq_ok hrest
    cases hrest
    exact ⟨hfault, old, new, edits, mapError_ok hold, mapError_ok hnew, hedits, rfl⟩

theorem planMove_of_edits {edits : List Change} (hold : QualifiedName.parse m.name = .ok old)
    (hnew : package.child m.name = .ok new) (hfault : moveFault? t s m package = none)
    (hedits : planEdits t s old new s.modules = .ok edits) :
    ∃ cs, planMove t s m package.text = .ok cs := by
  refine ⟨⟨"Move module <" ++ old.text ++ "> to <" ++ new.text ++ ">",
    edits ++ [.move m.path (moveTarget package m)]⟩, ?_⟩
  have hdestination : parseName package.text = .ok package := by
    rw [parseName, QualifiedName.parse_text]
    rfl
  have hold' : parseName m.name = .ok old := by
    rw [parseName, hold]
    rfl
  simp only [planMove, hdestination, hold', bind, Except.bind, hnew, Except.mapError, hfault, hedits]
  rfl

theorem planMove_ok (h : planMove t s m package.text = .ok cs) :
    ∃ old new edits, QualifiedName.parse m.name = .ok old ∧ package.child m.name = .ok new ∧
      Planned t s old new s.modules edits ∧ t.isPresent (s.absolute m.path) = true ∧
      cs.changes = edits ++ [.move m.path (moveTarget package m)] := by
  obtain ⟨hfault, old, new, edits, hold, hnew, hedits, hchanges⟩ := exists_of_planMove h
  exact ⟨old, new, edits, hold, hnew, planned_of_planEdits hedits, (of_moveFault? hfault).2.1, hchanges⟩

structure IsMovable (m : TopLevelModule) (package : QualifiedName) (k : String) : Prop where
  path : m.path = Path.ofNames [k]
  entry : Path.IsName k
  single : '.' ∉ m.name.toList
  outside : package.first ≠ m.name

def ListsMoved (t : FileTree) (s : Snapshot) (m : TopLevelModule) (package : QualifiedName) : Prop :=
  ∀ old new, QualifiedName.parse m.name = .ok old → package.child m.name = .ok new →
    ∀ module ∈ s.modules, ∀ source, s.readSource t module = .ok source → ListsRenamed old new source

section Move

variable {k : String} (hm : IsMovable m package k)

include hm in
theorem IsMovable.isPlain : m.path.IsPlain ∧ m.path.pieces = [k] := by
  have hk : ∀ n ∈ [k], Path.IsName n := by simpa using hm.entry
  rw [hm.path]
  exact ⟨Path.isPlain_ofNames (by simp) hk, Path.pieces_ofNames hk⟩

include hm in
theorem IsMovable.moveTarget :
    (moveTarget package m).IsPlain ∧ (moveTarget package m).pieces = package.segments ++ [k] := by
  obtain ⟨hplain, hpieces⟩ := hm.isPlain
  have hpackage := package.isName
  constructor
  · exact (Path.isPlain_ofNames package.nonempty hpackage).join hplain
  · rw [Python.moveTarget, Path.pieces_join hplain.relative, Path.pieces_ofNames hpackage, hpieces]

include hm in
theorem IsMovable.segments (hold : QualifiedName.parse m.name = .ok old)
    (hnew : package.child m.name = .ok new) : old.segments = [m.name] ∧ new.first = package.first := by
  constructor
  · rw [QualifiedName.segments_of_parse hold, segmentsOf_of_not_mem hm.single]
  · obtain ⟨s, rest, hs⟩ := List.exists_cons_of_ne_nil package.nonempty
    simp [QualifiedName.first, QualifiedName.segments_of_child hnew, hs]

variable (hfree : t.top.LinkFree) (htidy : t.top.Tidy) (hs : s.IsOf t root l)
  (hplan : planMove t s m package.text = .ok cs) (hlists : ListsMoved t s m package)

include hm hfree htidy hs hplan hlists in
theorem apply_planMove_error {e : Error} (h : cs.apply root t = .error e t') :
    t.Steady t' ∧ t'.filesUnder root = t.filesUnder root ∧
      ∀ N, package.first ∉ N → Avoids t root l N → Avoids t' root l N := by
  obtain ⟨old, new, edits, hold, hnew, hplanned, -, hchanges⟩ := planMove_ok hplan
  obtain ⟨hsegments, hfirst⟩ := hm.segments hold hnew
  obtain ⟨pre, t₁, hpre, hrewrites, hextends⟩ :=
    ChangeSet.apply_edits_error hfree hchanges (hplanned.isPlainEdit htidy hs) h
  refine ⟨hrewrites.toSteady.trans hextends.steady, ?_, fun N hN havoids => ?_⟩
  · rw [hextends.filesUnder_eq, hplanned.filesUnder_eq hfree htidy hs hpre hrewrites]
  · have hnotin : new.first ∉ m.name :: N := by simp [hfirst, hN, hm.outside]
    exact (hplanned.avoids_of_some hfree htidy hs hsegments hnotin (hlists old new hold hnew) hpre
      hrewrites havoids).extends hextends

include hm hfree htidy hs hplan in
theorem relocates_of_apply_planMove {n : Nat} (h : cs.apply root t = .ok n t') :
    ∃ old new edits t₁ u, QualifiedName.parse m.name = .ok old ∧ package.child m.name = .ok new ∧
      Planned t s old new s.modules edits ∧ t.Rewrites root edits t₁ ∧ t₁.Extends u ∧
      u.filesUnder root = t.filesUnder root ∧ u.Relocates root package.segments k t' ∧ u.Steady t' := by
  obtain ⟨old, new, edits, hold, hnew, hplanned, -, hchanges⟩ := planMove_ok hplan
  obtain ⟨hplain, hpieces⟩ := hm.isPlain
  obtain ⟨htarget, htargetPieces⟩ := hm.moveTarget
  obtain ⟨t₁, u, hrewrites, hextends, hnone, hmoves⟩ := ChangeSet.apply_edits_ok hfree hchanges
    (hplanned.isPlainEdit htidy hs) hplain htarget h
  rw [htargetPieces] at hnone hmoves
  rw [hpieces] at hmoves
  have hfiles : u.filesUnder root = t.filesUnder root := by
    rw [hextends.filesUnder_eq, hplanned.filesUnder_eq hfree htidy hs (fun c hc => hc) hrewrites]
  obtain heq | ⟨hmoves, hsteady⟩ := hmoves
  · exact absurd heq (by simpa using package.nonempty)
  refine ⟨old, new, edits, t₁, u, hold, hnew, hplanned, hrewrites, hextends, hfiles,
    ⟨?_, fun rest bytes hview => ?_⟩, hsteady⟩
  · rw [place_eq (hrewrites.toSteady.trans hextends.steady).workdir]
    exact hmoves
  · have hmem : package.segments ++ [k] ++ rest ∈ u.filesUnder root := ⟨by simp, bytes, hview⟩
    rw [hfiles] at hmem
    obtain ⟨-, bytes', hview'⟩ := hmem
    rw [← List.append_assoc] at hview'
    have hbelow : rest ≠ [] → t.view (t.place root ++ (package.segments ++ [k]) ++ rest) = none :=
      view_below_eq_none (by simp [hnone])
    cases rest with
    | nil => simp [hnone] at hview'
    | cons n rest =>
      rw [hbelow (by simp)] at hview'
      cases hview'

include hm hfree htidy hs hplan hlists in
theorem apply_planMove_ok {n : Nat} (h : cs.apply root t = .ok n t') :
    ∃ u, t.Steady u ∧ u.Steady t' ∧ u.filesUnder root = t.filesUnder root ∧
      u.Relocates root package.segments k t' ∧
      ∀ N, package.first ∉ N → Avoids t root l N → Avoids u root l (m.name :: N) := by
  obtain ⟨old, new, edits, t₁, u, hold, hnew, hplanned, hrewrites, hextends, hfiles, hrelocates,
    hsteady⟩ := relocates_of_apply_planMove hm hfree htidy hs hplan h
  obtain ⟨hsegments, hfirst⟩ := hm.segments hold hnew
  refine ⟨u, hrewrites.toSteady.trans hextends.steady, hsteady, hfiles, hrelocates,
    fun N hN havoids => ?_⟩
  have hnotin : new.first ∉ m.name :: N := by simp [hfirst, hN, hm.outside]
  exact (hplanned.avoids_of_all hfree htidy hs hsegments hnotin (hlists old new hold hnew)
    hrewrites havoids).extends hextends

end Move

end Python

end Reroot

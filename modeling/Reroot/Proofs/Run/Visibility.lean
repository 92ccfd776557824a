import Reroot.Proofs.Change.Variation
import Reroot.Proofs.Run.References

namespace Reroot

open FileTree Scan Python Runner
open Reroot.Path (IsName)

variable {S : List String → Prop} {t t' t₀ : FileTree} {root : Path} {base : List String} {l : Layout}
  {excludes : List Glob} {a : Snapshot} {m : TopLevelModule} {package : QualifiedName} {k : String}
  {cs : ChangeSet}

theorem Python.Planned.editsAt {old new : QualifiedName} {ms : List Module} {edits : List Change}
    (h : Planned t a old new ms edits) (hms : ∀ m ∈ ms, m ∈ a.modules) (ha : a.Indexes t base)
    (hS : ∀ q, a.Lists q → S (base ++ q)) : ∀ c ∈ edits, c.EditsAt S t base := by
  intro c hc
  obtain ⟨m, hm, source, r, -, -, rfl⟩ := h.edit c hc
  obtain ⟨q, hq, hlists, hpath⟩ := ha.exists_file (hms m hm)
  exact ⟨q, hq, hpath, hS q hlists⟩

theorem changes_of_planMove (hpath : m.path = Path.ofNames [k]) (hk : IsName k)
    (ha : a.Indexes t base) (hS : ∀ q, a.Lists q → S (base ++ q))
    (h : planMove t a m package.text = .ok cs) :
    t.isPresent (a.root.join (Path.ofNames [k])) = true ∧
      ∃ edits, (∀ c ∈ edits, c.EditsAt S t base) ∧
        cs.changes = edits ++ [.move (Path.ofNames [k]) (Path.ofNames (package.segments ++ [k]))] := by
  obtain ⟨old, new, edits, -, -, hplanned, hpresent, hchanges⟩ := planMove_ok h
  refine ⟨hpath ▸ hpresent, edits, hplanned.editsAt (fun _ hm => hm) ha hS, ?_⟩
  rw [hchanges, moveTarget, hpath,
    Path.join_ofNames package.nonempty (List.cons_ne_nil k []) package.isName (by simpa using hk)]

structure Gone (t₀ : FileTree) (base : List String) (k : String) (t : FileTree) : Prop where
  retains : Retains t₀.top t.top
  workdir : t.workdir = t₀.workdir
  dir : t.view base = some .dir
  absent : t.view (base ++ [k]) = none

theorem not_isPresent_of_view (hroot : t.RootAt root base) (hk : IsName k)
    (habsent : t.view (base ++ [k]) = none) : t.isPresent (root.join (Path.ofNames [k])) = false := by
  have hnames : ∀ n ∈ [k], IsName n := by simpa using hk
  have hpieces := Path.pieces_ofNames hnames
  by_contra hpresent
  rw [Bool.not_eq_false, isPresent, Option.isSome_iff_exists] at hpresent
  obtain ⟨e, he⟩ := hpresent
  obtain ⟨names, hresolve⟩ := entry?_ok (eq_ok_of_toOption he)
  have hspells : Spells t.top base [] k _ := hroot.spells (Path.isPlain_ofNames (by simp) hnames)
    hpieces .nil (fun _ target => by simp [hpieces, habsent]) hresolve
  have hat : t.top.at? (base ++ [k]) = none := Option.map_eq_none_iff.1 habsent
  have hplace := congrArg Place.entry hspells.place
  rw [List.nil_append, hat] at hplace
  cases hplace

theorem varies_of_planMove (hpath : m.path = Path.ofNames [k]) (hk : IsName k)
    (hroot : t₀.RootAt root base) (hcapture : Snapshot.capture t root l excludes = .ok a)
    (hplan : planMove t a m package.text = .ok cs)
    (ht : Varies (fun _ => True) t₀ t ∨ Gone t₀ base k t) : Varies (fun _ => True) t₀ t := by
  obtain ⟨-, -, -, -, -, -, hpresent, -⟩ := planMove_ok hplan
  obtain ⟨rfl, -, -, -⟩ := Snapshot.capture_ok hcapture
  refine ht.resolve_right fun hgone => ?_
  have hroot' := hroot.of_capture hgone.retains hgone.workdir hgone.dir hcapture
  rw [Snapshot.absolute, hpath, not_isPresent_of_view hroot' hk hgone.absent] at hpresent
  cases hpresent

section Move

variable (hpath : m.path = Path.ofNames [k]) (hk : IsName k) (hroot : t₀.RootAt root base)
  (hclear : Clear t₀.top base (package.segments ++ [k]))

include hpath hk hroot hclear

theorem relocates_of_planMove (htidy : t₀.top.Tidy) (hvaries : Varies (fun _ => True) t₀ t)
    (hcapture : Snapshot.capture t root l excludes = .ok a)
    (hplan : planMove t a m package.text = .ok cs) {n : Nat} (h : cs.apply root t = .ok n t') :
    ∃ u, Varies (fun _ => True) t₀ u ∧ u.Relocates (.ofPlace base) package.segments k t' ∧
      Retains t₀.top t'.top ∧ t'.view base = some .dir := by
  have hnames : ∀ m ∈ package.segments ++ [k], IsName m := fun m hm =>
    (List.mem_append.1 hm).elim (package.isName m) fun hm => List.mem_singleton.1 hm ▸ hk
  have hroot' := hroot.keeps hvaries.keeps hvaries.workdir
  have htidy' := hvaries.tidy htidy
  have ha := Snapshot.indexes_of_capture htidy' hroot' hcapture
  obtain ⟨-, edits, hedits, hchanges⟩ := changes_of_planMove (S := fun _ => True) hpath hk ha
    (fun _ _ => trivial) hplan
  obtain ⟨u, hu, hrelocates, hnone⟩ := ChangeSet.relocates_of_apply hroot' htidy' hchanges hedits
    package.nonempty hnames (hvaries.clear hclear) h
  have hbase := hroot.isName htidy
  have hall := hvaries.trans hu
  have hnone₀ : t₀.view (base ++ (package.segments ++ [k])) = none := by
    by_contra hsome
    obtain ⟨s, hs⟩ := Option.ne_none_iff_exists'.1 hsome
    obtain ⟨s', hs', -⟩ := hvaries.kept _ s hs
    rw [hnone] at hs'
    cases hs'
  exact ⟨u, hall, hrelocates, hrelocates.retains hbase hall hnone₀,
    hrelocates.view_base hbase hall hroot.dir⟩

theorem varies_or_gone_of_writes (htidy : t₀.top.Tidy)
    (ht : Varies (fun _ => True) t₀ t ∨ Gone t₀ base k t)
    (hcapture : Snapshot.capture t root l excludes = .ok a)
    (hplan : planMove t a m package.text = .ok cs) (h : Writes cs a.root t t') :
    Varies (fun _ => True) t₀ t' ∨ Gone t₀ base k t' := by
  obtain ⟨haroot, -, -, -⟩ := Snapshot.capture_ok hcapture
  have hvaries := varies_of_planMove hpath hk hroot hcapture hplan ht
  have hroot' := hroot.keeps hvaries.keeps hvaries.workdir
  rw [haroot] at h
  obtain ⟨n, h⟩ | ⟨e, h⟩ := h
  · obtain ⟨u, hu, hrelocates, hretains, hdir⟩ :=
      relocates_of_planMove hpath hk hroot hclear htidy hvaries hcapture hplan h
    have habsent := hrelocates.view_source
    rw [place_ofPlace (hroot.isName htidy)] at habsent
    exact .inr ⟨hretains, hrelocates.moves.workdir.trans hu.workdir, hdir, habsent⟩
  · have ha := Snapshot.indexes_of_capture (hvaries.tidy htidy) hroot' hcapture
    obtain ⟨-, edits, hedits, hchanges⟩ := changes_of_planMove (S := fun _ => True) hpath hk ha
      (fun _ _ => trivial) hplan
    exact .inl (hvaries.trans
      (ChangeSet.varies_of_apply_error hroot' (hvaries.tidy htidy) hchanges hedits h))

end Move

theorem refresh_of_carryOut {r : Runner} {x : Transformation} (h : r.carryOut a x cs t = .ok () t') :
    ∃ b, a.refresh t' = .ok b := by
  obtain ⟨n, happly⟩ := carryOut_ok h
  obtain ⟨_, _, hget, h⟩ := exists_of_bind_ok h
  cases hget
  obtain ⟨n', t₁, happly', h⟩ := exists_of_bind_ok h
  obtain ⟨rfl, rfl⟩ : n' = n ∧ t₁ = t' := by
    rw [happly] at happly'
    cases happly'
    exact ⟨rfl, rfl⟩
  obtain ⟨_, _, hget, h⟩ := exists_of_bind_ok h
  cases hget
  obtain ⟨b, _, hb, -⟩ := exists_of_bind_ok h
  cases hrefresh : a.refresh t₁ with
  | ok b => exact ⟨b, rfl⟩
  | error e =>
    rw [hrefresh] at hb
    cases hb

variable {r : Runner} {s s' : Session} {o : Outcome}

theorem modules_of_step_moveModule (htidy : s.tree.top.Tidy) (hroot : s.tree.RootAt root base)
    (hcapture : Snapshot.capture s.tree root l excludes = .ok s.snapshot)
    (hpath : m.path = Path.ofNames [k]) (hk : IsName k)
    (hclear : Clear s.tree.top base (package.segments ++ [k]))
    (htolerates : s.snapshot.Tolerates s.tree base package k) (hr : r.analyzer = Python.analyzer)
    (hquiet : s.operator.Quiet) (hstep : r.step (.moveModule m package.text) s = .ok o s')
    (happlied : o.isApplied = true) :
    ∃ later, s'.snapshot.refresh s'.tree = .ok later ∧
      later.modules.Perm (s.snapshot.modules.map (Module.carried package k)) := by
  have hJ : ∀ t t' a b, Snapshot.capture t' root l excludes = .ok a →
      (Varies (fun _ => True) s.tree t ∨ Gone s.tree base k t) → a.refresh t = .ok b →
      Snapshot.capture t root l excludes = .ok b := by
    intro t t' a b ha _ hb
    obtain ⟨rfl, rfl, rfl, -⟩ := Snapshot.capture_ok ha
    exact hb
  obtain ⟨t, cs, ht, ha, -, hchanges, hcarry⟩ := carryOut_of_step hJ hquiet hcapture
    (.inl (.refl s.tree)) hstep (fun t a cs t' ht ha _ hchanges hw => by
      rw [hr] at hchanges
      exact varies_or_gone_of_writes hpath hk hroot hclear htidy ht ha hchanges hw) happlied
  rw [hr] at hchanges
  obtain ⟨hsroot, hslayout, hsexcludes, -⟩ := Snapshot.capture_ok hcapture
  obtain ⟨haroot, halayout, haexcludes, -⟩ := Snapshot.capture_ok ha
  have hvaries := varies_of_planMove hpath hk hroot ha hchanges ht
  obtain ⟨n, happly⟩ := carryOut_ok hcarry
  rw [haroot] at happly
  obtain ⟨u, hu, hrelocates, hretains, hdir⟩ :=
    relocates_of_planMove hpath hk hroot hclear htidy hvaries ha hchanges happly
  obtain ⟨later, hlater⟩ := refresh_of_carryOut hcarry
  have hcapture' := hlater
  rw [Snapshot.refresh, haroot, halayout, haexcludes] at hcapture'
  obtain ⟨-, hlayout, hexcludes, -⟩ := Snapshot.capture_ok hcapture'
  have hbase := hroot.isName htidy
  have htidy' : s'.tree.top.Tidy := by
    refine hrelocates.moves.tidy (hu.tidy htidy) ?_
    rw [place_ofPlace hbase]
    simp only [List.forall_mem_append, List.forall_mem_singleton]
    exact ⟨hbase, package.isName, hk⟩
  have hroot' := hroot.of_capture hretains (hrelocates.moves.workdir.trans hu.workdir) hdir hcapture'
  have hindexes := (Snapshot.indexes_of_capture htidy hroot hcapture).congr hu.filesUnder_eq
  exact ⟨later, hlater, hindexes.perm_carried (Snapshot.indexes_of_capture htidy' hroot' hcapture')
    (hlayout.trans hslayout.symm) (hexcludes.trans hsexcludes.symm) (hu.tidy htidy) hrelocates
    (htolerates.congr hu.filesUnder_eq)⟩

theorem modules_of_step_selfImport :
    ∃ s' later, SelfImport.runner.step (.moveModule SelfImport.module SelfImport.target.text)
        ⟨SelfImport.tree, SelfImport.snapshot, Operator.scripted [] [], []⟩ =
          .ok (.applied SelfImport.changes.description) s' ∧
      s'.snapshot.refresh s'.tree = .ok later ∧
      later.modules.Perm [⟨"p.a", ⟨"p/a.py"⟩⟩, ⟨"p", ⟨"p/__init__.py"⟩⟩] := by
  obtain ⟨t', b, -, hstep⟩ := SelfImport.step_tree
  have htolerates : SelfImport.snapshot.Tolerates SelfImport.tree [] SelfImport.target "a.py" :=
    ⟨by decide, fun _ _ _ => rfl, fun hk => absurd hk (by decide)⟩
  obtain ⟨later, hlater, hperm⟩ := modules_of_step_moveModule SelfImport.tidy_tree ⟨_, rfl⟩
    SelfImport.capture_tree rfl ⟨by decide, by decide, by decide, by decide⟩
    (clear_of_linkFree SelfImport.linkFree_tree) htolerates rfl (Operator.quiet_scripted [] []) hstep rfl
  refine ⟨_, later, hstep, hlater, ?_⟩
  have hmodules : SelfImport.snapshot.modules.map (Module.carried SelfImport.target "a.py") =
      [⟨"p.a", ⟨"p/a.py"⟩⟩, ⟨"p", ⟨"p/__init__.py"⟩⟩] := by decide +kernel
  exact hperm.trans (.of_eq hmodules)

namespace Hidden

def tree : FileTree :=
  ⟨.dir [("m.py", .file "".toUTF8)], []⟩

def snapshot : Snapshot :=
  ⟨⟨"/"⟩, .standard, [], [⟨"m", ⟨"m.py"⟩⟩]⟩

def module : TopLevelModule :=
  ⟨"m", ⟨"m.py"⟩, false⟩

def changes : ChangeSet :=
  ⟨"Move module <m> to <venv.m>", [.move ⟨"m.py"⟩ ⟨"venv/m.py"⟩]⟩

end Hidden

theorem modules_eq_nil_of_step_venv :
    ∃ s' later, Snapshot.capture Hidden.tree ⟨"/"⟩ .standard [] = .ok Hidden.snapshot ∧
      SelfImport.runner.step (.moveModule Hidden.module "venv")
        ⟨Hidden.tree, Hidden.snapshot, Operator.scripted [] [], []⟩ =
          .ok (.applied Hidden.changes.description) s' ∧
      s'.snapshot.refresh s'.tree = .ok later ∧
      Hidden.snapshot.modules.map (·.identifier) = ["m"] ∧
      later.modules.map (·.identifier) = [] := by
  have hplan : planMove Hidden.tree Hidden.snapshot Hidden.module "venv" = .ok Hidden.changes :=
    eq_ok_of_toOption (by decide +kernel)
  have hsettles : settles Hidden.tree Hidden.snapshot Hidden.module Hidden.changes [] = true := by
    decide +kernel
  obtain ⟨n, t', b, happly, hb, hmoved, hidentifiers, hresolve⟩ := exists_of_settles hsettles
  have hcarry : SelfImport.runner.carryOut Hidden.snapshot (.moveModule Hidden.module "venv")
      Hidden.changes Hidden.tree = .ok () t' :=
    carryOut_of_resolves happly hb hmoved (by simp [hidentifiers]) hresolve
  exact ⟨_, b, rfl, step_of_carryOut (by decide) hplan hcarry, hb, rfl, hidentifiers⟩

end Reroot

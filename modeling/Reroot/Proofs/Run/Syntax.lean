import Reroot.Proofs.Change.Conservation
import Reroot.Proofs.Project.Unlinked
import Reroot.Proofs.Python.Rewording
import Reroot.Proofs.Run.Modes
import Reroot.Proofs.Run.Transfer

namespace Reroot

open FileTree Python Runner

variable {t t' : FileTree} {root : Path} {l : Layout} {excludes : List Glob} {a : Snapshot} {y : Module}
  {ms : List Module} {old new : QualifiedName} {edits : List Change} {source source' k : String}
  {base front q : List String} {bytes : ByteArray} {cs : ChangeSet} {x : Transformation} {n : Nat}

inductive Retold (covered : Prop) (old new : QualifiedName) (source : String) : String → Prop
  | renamed {r : Renamed} (hcovered : covered) (h : renameModule source old new = .ok (some r)) :
    Retold covered old new source r.content
  | kept (h : covered → renameModule source old new = .ok none) : Retold covered old new source source

theorem Retold.parse?_eq_none_iff {covered : Prop} (h : Retold covered old new source source')
    (hparse : parse? source ≠ none) : parse? source' = none ↔
      covered ∧ ∃ r, renameModule source old new = .ok (some r) ∧ parse? r.content = none := by
  cases h with
  | @renamed r hcovered hr =>
    constructor
    · exact fun hbroken => ⟨hcovered, r, hr, hbroken⟩
    · rintro ⟨-, r', hr', hbroken⟩
      rw [hr] at hr'
      cases hr'
      exact hbroken
  | kept hkept =>
    constructor
    · exact fun hbroken => absurd hbroken hparse
    · rintro ⟨hcovered, r, hr, -⟩
      cases hr.symm.trans (hkept hcovered)

section Places

variable (hfree : t.top.LinkFree) (htidy : t.top.Tidy) (ha : a.Indexes t (t.place a.root))
  (hy : y ∈ a.modules) (hsource : a.readSource t y = .ok source)

include hfree htidy ha hy hsource

theorem Snapshot.view_of_readSource :
    t.view (t.place a.root ++ y.path.pieces) = some (.file source.toUTF8) := by
  obtain ⟨names, hreach, hview⟩ := (readText_eq_ok_iff hfree).1 hsource
  rwa [hreach.eq_place_append (ha.isPlain htidy hy)] at hview

theorem Python.Planned.exists_retold (hms : ∀ m ∈ ms, m ∈ a.modules)
    (h : Planned t a old new ms edits) (hrewrites : t.Rewrites a.root edits t') :
    ∃ source', Retold (y ∈ ms) old new source source' ∧
      t'.view (t.place a.root ++ y.path.pieces) = some (.file source'.toUTF8) := by
  have hview := Snapshot.view_of_readSource hfree htidy ha hy hsource
  obtain ⟨c, hc, text, hwrites, hnew⟩ | ⟨hnone, hsame⟩ :=
    hrewrites.view (t.place a.root ++ y.path.pieces)
  · obtain ⟨m, hm, source₀, r, hread, hr, rfl⟩ := h.edit c hc
    obtain ⟨hplace, rfl⟩ := hwrites
    obtain rfl := ha.eq_of_pieces_eq htidy (hms m hm) hy (List.append_cancel_left hplace)
    obtain rfl := Except.ok.inj (hsource.symm.trans hread)
    exact ⟨r.content, .renamed hm hr, hnew⟩
  · refine ⟨source, .kept fun hcovered => ?_, hsame.trans hview⟩
    obtain ⟨source₀, hread, hr | ⟨r, -, hmem⟩⟩ := h.module y hcovered
    · obtain rfl := Except.ok.inj (hsource.symm.trans hread)
      exact hr
    · exact absurd ⟨rfl, rfl⟩ (hnone _ hmem r.content)

theorem Snapshot.exists_retold (h : Planned t a old new a.modules edits) :
    ∃ source', Retold (y ∈ a.modules) old new source source' ∧
      a.revised t old new (t.place a.root ++ y.path.pieces) = some (.file source'.toUTF8) := by
  obtain ⟨source₀, hread, hnone | ⟨r, hr, -⟩⟩ := h.module y hy
  all_goals obtain rfl := Except.ok.inj (hsource.symm.trans hread)
  · refine ⟨source, .kept fun _ => hnone, ?_⟩
    rw [a.revised_eq_view, view_of_readSource hfree htidy ha hy hsource]
    intro m hm hplace source' hsource' r hr
    obtain rfl := ha.eq_of_pieces_eq htidy hy hm (List.append_cancel_left hplace)
    obtain rfl := Except.ok.inj (hsource'.symm.trans hsource)
    cases hnone.symm.trans hr
  · exact ⟨r.content, .renamed hy hr, revised_of_module ha htidy hy hsource hr⟩

end Places

theorem Transfers.view_rebase (h : Transfers t a old new base front k t') (hopen : t.Open base front)
    (hfile : t.view (base ++ q) = some (.file bytes)) :
    t'.view (rebase (base ++ [k]) (base ++ (front ++ [k])) (base ++ q)) =
      a.revised t old new (base ++ q) := by
  by_cases hbelow : [k] <+: q
  · obtain ⟨rest, rfl⟩ := hbelow
    rw [← List.append_assoc base [k] rest, rebase_append]
    exact h.moved rest
  have hstays : ¬base ++ [k] <+: base ++ q := (List.prefix_append_right_inj base).not.2 hbelow
  rw [rebase, if_neg hstays]
  refine h.frame _ ?_ hstays fun habove => ?_
  · rintro ⟨rest, hrest⟩
    rw [← hrest, h.free] at hfile
    cases hfile
  · obtain hnone | hdir := hopen q ((List.prefix_append_right_inj base).1 habove)
    · cases hnone.symm.trans hfile
    · cases hdir.symm.trans hfile

namespace Transformation

def covered (a : Snapshot) : Transformation → List Module
  | renameExternal _ _ scope =>
    match Glob.parse scope with
    | .ok glob => a.inScope [glob]
    | .error _ => []
  | convertToPackage _ => []
  | moveModule .. => a.modules

def follow (base : List String) : Transformation → List String → List String
  | moveModule m destination =>
    rebase (base ++ m.path.pieces) (base ++ (segmentsOf destination ++ m.path.pieces))
  | _ => id

variable {oldName newName : String}

theorem retold_of_apply (hfree : t.top.LinkFree) (htidy : t.top.Tidy)
    (hcapture : Snapshot.capture t root l excludes = .ok a)
    (hx : ∀ m destination, x = .moveModule m destination → m ∈ a.topLevelModules)
    (hrenamed : x.renamed? = some (oldName, newName)) (hchanges : x.changes Python.analyzer t a = .ok cs)
    (happly : cs.apply a.root t = .ok n t') :
    ∃ old new, QualifiedName.parse oldName = .ok old ∧ QualifiedName.parse newName = .ok new ∧
      ∀ y ∈ a.modules, ∀ source, a.readSource t y = .ok source →
        ∃ source', Retold (y ∈ x.covered a) old new source source' ∧
          t'.view (x.follow (t.place a.root) (t.place a.root ++ y.path.pieces)) =
            some (.file source'.toUTF8) := by
  have hindexes := Snapshot.indexes_of_unlinked hfree htidy hcapture
  obtain ⟨rfl, -, -, -⟩ := Snapshot.capture_ok hcapture
  cases x with
  | convertToPackage => cases hrenamed
  | renameExternal oldName newName scope =>
    cases hrenamed
    obtain ⟨glob, old, new, hglob, hold, hnew, hedits⟩ := exists_of_renameExternal hchanges
    have hplanned := planned_of_planEdits hedits
    have hscope : ∀ m ∈ a.inScope [glob], m ∈ a.modules := fun m hm => (List.mem_filter.1 hm).1
    have hplain : ∀ c ∈ cs.changes, c.IsPlainEdit := fun c hc =>
      ((hplanned.editsAt (S := fun _ => True) hscope hindexes fun _ _ => trivial) c hc).isPlainEdit htidy
    have hperform := (ChangeSet.apply_ok happly).2
    rw [ChangeSet.ordered_of_isEdit fun c hc => (hplain c hc).isEdit] at hperform
    have hrewrites := rewrites_of_performAll hfree hplain hperform
    refine ⟨old, new, hold, hnew, fun y hy source hsource => ?_⟩
    simp only [covered, hglob, follow, id]
    exact hplanned.exists_retold hfree htidy hindexes hy hsource hscope hrewrites
  | moveModule m destination =>
    cases hrenamed
    have hm := hx m destination rfl
    obtain ⟨package, rfl⟩ := exists_package_of_planMove hchanges
    obtain ⟨k, old, new, edits, hplans⟩ := plansMove_of_planMove hfree htidy hcapture hm hchanges
    obtain ⟨hopen, htransfers⟩ := hplans.transfers_of_apply hfree htidy happly
    refine ⟨old, new, hplans.parsed, hplans.child, fun y hy source hsource => ?_⟩
    have hview := Snapshot.view_of_readSource hfree htidy hindexes hy hsource
    obtain ⟨source', hretold, hrevised⟩ :=
      Snapshot.exists_retold hfree htidy hindexes hy hsource hplans.planned
    have hpieces : m.path.pieces = [k] := by
      rw [hplans.path, Path.pieces_ofNames fun s hs => hplans.isName s (List.mem_append_right _ hs)]
    refine ⟨source', hretold, ?_⟩
    rw [follow, hpieces, QualifiedName.segmentsOf_text, htransfers.view_rebase hopen hview, hrevised]

end Transformation

theorem Runner.Writes.steady (hfree : t.top.LinkFree) (h : Writes cs root t t') : t.Steady t' := by
  obtain ⟨n, h⟩ | ⟨e, h⟩ := h
  · exact Change.steady_of_performAll hfree (ChangeSet.apply_ok h).2
  obtain ⟨-, rfl⟩ | ⟨-, io, h⟩ := ChangeSet.apply_error h
  · exact .refl t'
  obtain ⟨pre, c, post, n, t₁, -, hpre, hc⟩ := Change.exists_of_performAll_error h
  exact (Change.steady_of_performAll hfree hpre).trans (Change.extends_of_perform_error hc).steady

section Steps

variable {r : Runner} {s s' : Session} {o : Outcome} {oldName newName : String}
    (hr : r.analyzer = Python.analyzer) (hfree : s.tree.top.LinkFree) (htidy : s.tree.top.Tidy)
    (hcapture : Snapshot.capture s.tree root l excludes = .ok s.snapshot) (hquiet : s.operator.Quiet)
    (hx : ∀ m destination, x = .moveModule m destination → m ∈ s'.snapshot.topLevelModules)
    (hrenamed : x.renamed? = some (oldName, newName)) (hstep : r.step x s = .ok o s')
    (happlied : o.isApplied = true)

include hr hfree htidy hcapture hquiet hx hrenamed hstep happlied

theorem retold_of_step :
    ∃ s₀ old new, r.attempt x s₀ = .ok (.done o) s' ∧
      (s₀ = s ∨ r.mode = .interactive ∧ ∃ s₁, r.attempt x s = .ok .again s₁) ∧
      QualifiedName.parse oldName = .ok old ∧ QualifiedName.parse newName = .ok new ∧
      s₀.snapshot = s'.snapshot ∧
      ∀ y ∈ s'.snapshot.modules, ∀ source, s'.snapshot.readSource s₀.tree y = .ok source →
        ∃ source', Retold (y ∈ x.covered s'.snapshot) old new source source' ∧
          s'.tree.view (x.follow (s₀.tree.place root) (s₀.tree.place root ++ y.path.pieces)) =
            some (.file source'.toUTF8) := by
  obtain ⟨s₀, hfirst, hquiet, ⟨hfree, htidy⟩, ha, hattempt⟩ :=
    attempt_of_step (I := fun t => t.top.LinkFree ∧ t.top.Tidy)
      (J := fun t a => Snapshot.capture t root l excludes = .ok a)
      (fun t t' a b ha _ hb => (refresh_of_capture ha t).symm.trans hb) hquiet hcapture
      ⟨hfree, htidy⟩ hstep
      (fun t a cs t' ht _ _ _ hw => ⟨(hw.steady ht.1).linkFree ht.1, (hw.steady ht.1).tidy ht.2⟩)
  have htries : r.Tries x s₀ s' := tries_of_attempt hquiet hattempt
  have hsnapshot : s₀.snapshot = s'.snapshot := htries.snapshot.symm
  obtain ⟨cs, hchanges, hcarry⟩ := carryOut_of_attempt hquiet hattempt happlied
  rw [hsnapshot] at ha hchanges hcarry
  rw [hr] at hchanges
  obtain ⟨n, happly⟩ := carryOut_ok hcarry
  obtain ⟨hroot, -, -, -⟩ := Snapshot.capture_ok ha
  obtain ⟨old, new, hold, hnew, hretold⟩ :=
    Transformation.retold_of_apply hfree htidy ha hx hrenamed hchanges happly
  have hretry : s₀ = s ∨ r.mode = .interactive ∧ ∃ s₁, r.attempt x s = .ok .again s₁ :=
    hfirst.imp_right fun ⟨s₁, ha⟩ => ⟨by_contra fun hmode => attempt_ne_again hmode x s s₁ ha, s₁, ha⟩
  refine ⟨s₀, old, new, hattempt, hretry, hold, hnew, hsnapshot, fun y hy source hsource => ?_⟩
  exact hroot ▸ hretold y hy source hsource

theorem exists_edit_of_unparsable_step :
    ∃ s₀ old new, r.attempt x s₀ = .ok (.done o) s' ∧ s₀.snapshot = s'.snapshot ∧
      QualifiedName.parse oldName = .ok old ∧ QualifiedName.parse newName = .ok new ∧
      ∀ y ∈ s'.snapshot.modules, ∀ source, s'.snapshot.readSource s₀.tree y = .ok source →
        parse? source ≠ none →
          ∃ source', s'.tree.view
              (x.follow (s₀.tree.place root) (s₀.tree.place root ++ y.path.pieces)) =
                some (.file source'.toUTF8) ∧
            (parse? source' = none → y ∈ x.covered s'.snapshot ∧
              ∃ tree edits, parse? source = some tree ∧
                renameEdits tree source.toList old new = .ok edits ∧
                ∃ e ∈ edits, Licensed tree source.toList old new e ∧ ¬e.Rewords source.toList) := by
  obtain ⟨s₀, old, new, hattempt, -, hold, hnew, hsnapshot, hretold⟩ :=
    retold_of_step hr hfree htidy hcapture hquiet hx hrenamed hstep happlied
  refine ⟨s₀, old, new, hattempt, hsnapshot, hold, hnew, ?_⟩
  intro y hy source hsource hparse
  obtain ⟨source', hkind, hview⟩ := hretold y hy source hsource
  refine ⟨source', hview, fun hbroken => ?_⟩
  obtain ⟨hcovered, r, hr, hbroken⟩ := (hkind.parse?_eq_none_iff hparse).1 hbroken
  exact ⟨hcovered, exists_edit_of_unparsable hr hbroken⟩

theorem unparsable_iff_of_step :
    ∃ s₀ old new, r.attempt x s₀ = .ok (.done o) s' ∧
      (s₀ = s ∨ r.mode = .interactive ∧ ∃ s₁, r.attempt x s = .ok .again s₁) ∧
      QualifiedName.parse oldName = .ok old ∧ QualifiedName.parse newName = .ok new ∧
      s₀.snapshot = s'.snapshot ∧
      ∀ y ∈ s'.snapshot.modules, ∀ source, s'.snapshot.readSource s₀.tree y = .ok source →
        parse? source ≠ none →
          ∃ source', s'.tree.view
              (x.follow (s₀.tree.place root) (s₀.tree.place root ++ y.path.pieces)) =
                some (.file source'.toUTF8) ∧
            (parse? source' = none ↔ y ∈ x.covered s'.snapshot ∧
              ∃ r, renameModule source old new = .ok (some r) ∧ parse? r.content = none) := by
  obtain ⟨s₀, old, new, hattempt, hretry, hold, hnew, hsnapshot, hretold⟩ :=
    retold_of_step hr hfree htidy hcapture hquiet hx hrenamed hstep happlied
  refine ⟨s₀, old, new, hattempt, hretry, hold, hnew, hsnapshot, ?_⟩
  intro y hy source hsource hparse
  obtain ⟨source', hkind, hview⟩ := hretold y hy source hsource
  exact ⟨source', hview, hkind.parse?_eq_none_iff hparse⟩

end Steps

theorem unparsable_iff_of_step_selfImport :
    ∃ s' source', SelfImport.runner.step (.moveModule SelfImport.module SelfImport.target.text)
        ⟨SelfImport.tree, SelfImport.snapshot, Operator.scripted [] [], []⟩ =
          .ok (.applied SelfImport.changes.description) s' ∧
      s'.tree.view ["p", "a.py"] = some (.file source'.toUTF8) ∧ parse? source' ≠ none := by
  obtain ⟨t', b, -, hstep⟩ := SelfImport.step_tree
  obtain ⟨s₀, old, new, -, hretry, hold, hnew, -, htexts⟩ := unparsable_iff_of_step
    (x := .moveModule SelfImport.module SelfImport.target.text) rfl SelfImport.linkFree_tree
    SelfImport.tidy_tree SelfImport.capture_tree (Operator.quiet_scripted [] [])
    (fun m destination h => by cases h; exact SelfImport.mem_topLevelModules) rfl hstep rfl
  obtain rfl := hretry.resolve_right fun h => by cases h.1
  obtain rfl : old = ⟨["a"], by decide, by decide⟩ :=
    Except.ok.inj (hold.symm.trans (by decide +kernel))
  obtain rfl : new = ⟨["p", "a"], by decide, by decide⟩ :=
    Except.ok.inj (hnew.symm.trans (by decide +kernel))
  have himporter : (⟨"a", ⟨"a.py"⟩⟩ : Module) ∈ SelfImport.snapshot.modules := by
    simp [SelfImport.snapshot]
  have hsource : SelfImport.snapshot.readSource SelfImport.tree ⟨"a", ⟨"a.py"⟩⟩ = .ok "import a\n" := rfl
  have hparse : (parse? "import a\n").isSome = true := by decide +kernel
  have hparse' : (parse? "import p.a\n").isSome = true := by decide +kernel
  obtain ⟨source', hview, hbroken⟩ :=
    htexts _ himporter "import a\n" hsource (Option.isSome_iff_ne_none.1 hparse)
  refine ⟨_, source', hstep, hview, fun hnone => ?_⟩
  obtain ⟨-, r, hr, hnone⟩ := hbroken.1 hnone
  obtain rfl := Option.some.inj (Except.ok.inj (SelfImport.renameModule_importer.symm.trans hr))
  exact Option.isSome_iff_ne_none.1 hparse' hnone

end Reroot

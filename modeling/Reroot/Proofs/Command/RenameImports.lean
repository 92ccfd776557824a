import Reroot.Command.RenameImports
import Reroot.Proofs.Project.Unlinked
import Reroot.Proofs.Run.Accounting
import Reroot.Proofs.Run.Agreement
import Reroot.Proofs.Run.Checks
import Reroot.Proofs.Run.Syntax

namespace Reroot

open FileTree Scan Python Session Runner
open Reroot.Path (IsName)

namespace Glob

theorem getLastD_spreadComponents (slash d : Bool) {cs : List Char} {marks : List Bool}
    (h : marks.length = cs.length + 1) : (spreadComponents true slash cs marks).getLastD d = true := by
  induction cs generalizing slash d marks with
  | nil =>
    obtain ⟨m, rfl⟩ := List.length_eq_one_iff.1 h
    rfl
  | cons c cs ih =>
    cases marks with
    | nil => cases h
    | cons m marks =>
      rw [spreadComponents, Bool.true_or, List.getLastD_cons]
      exact ih _ _ (Nat.succ.inj h)

theorem covers_anyComponents (cs : List Char) : covers [.anyComponents] cs = true := by
  change (spreadComponents false false cs (true :: cs.map fun _ => false)).getLastD false = true
  cases cs with
  | nil => rfl
  | cons c cs =>
    rw [spreadComponents, Bool.false_or, List.getLastD_cons]
    exact getLastD_spreadComponents _ _ (by simp)

end Glob

theorem Snapshot.inScope_everyFile (a : Snapshot) : a.inScope [⟨[.anyComponents]⟩] = a.modules := by
  refine List.filter_eq_self.2 fun m _ => ?_
  simp [Glob.anyCovers, Glob.matchesPath, Glob.covers_anyComponents]

namespace FileTree

variable {a b : Snapshot} {t t' t'' : FileTree} {root p : Path} {l : Layout} {excludes : List Glob}
  {ns names : List String}

structure Retexts (a : Snapshot) (t t' : FileTree) : Prop where
  view : ∀ ns, t'.view ns = t.view ns ∨ ∃ m ∈ a.modules, ∃ text text' : String,
    ns = t.place a.root ++ m.path.pieces ∧ t.view ns = some (.file text.toUTF8) ∧
      t'.view ns = some (.file text'.toUTF8)
  workdir : t'.workdir = t.workdir
  tidy : t.top.Tidy → t'.top.Tidy

namespace Retexts

theorem refl (a : Snapshot) (t : FileTree) : Retexts a t t :=
  ⟨fun _ => .inl rfl, rfl, id⟩

theorem trans (h : Retexts a t t') (h' : Retexts a t' t'') : Retexts a t t'' := by
  refine ⟨fun ns => ?_, h'.workdir.trans h.workdir, fun htidy => h'.tidy (h.tidy htidy)⟩
  obtain hsame | ⟨m, hm, text, text', hns, htext, htext'⟩ := h.view ns
  · rw [← hsame, ← place_eq h.workdir]
    exact h'.view ns
  · obtain hsame' | ⟨-, -, -, text'', -, -, htext''⟩ := h'.view ns
    · exact .inr ⟨m, hm, text, text', hns, htext, hsame'.trans htext'⟩
    · exact .inr ⟨m, hm, text, text'', hns, htext, htext''⟩

theorem mono (h : Retexts b t t') (hroot : b.root = a.root)
    (hmodules : ∀ m ∈ b.modules, m ∈ a.modules) : Retexts a t t' := by
  refine ⟨fun ns => (h.view ns).imp_right ?_, h.workdir, h.tidy⟩
  rintro ⟨m, hm, hrest⟩
  exact ⟨m, hmodules m hm, hroot ▸ hrest⟩

theorem dir_iff (h : Retexts a t t') : t'.view ns = some .dir ↔ t.view ns = some .dir := by
  obtain hsame | ⟨-, -, text, text', -, htext, htext'⟩ := h.view ns
  · rw [hsame]
  · simp [htext, htext']

theorem file_iff (h : Retexts a t t') :
    (∃ bytes, t'.view ns = some (.file bytes)) ↔ ∃ bytes, t.view ns = some (.file bytes) := by
  obtain hsame | ⟨-, -, text, text', -, htext, htext'⟩ := h.view ns
  · rw [hsame]
  · simp [htext, htext']

theorem none_iff (h : Retexts a t t') : t'.view ns = none ↔ t.view ns = none := by
  obtain hsame | ⟨-, -, text, text', -, htext, htext'⟩ := h.view ns
  · rw [hsame]
  · simp [htext, htext']

theorem linkFree (h : Retexts a t t') (hfree : t.top.LinkFree) : t'.top.LinkFree := by
  intro ns target hlink
  obtain hsame | ⟨-, -, -, text', -, -, htext'⟩ := h.view ns
  · exact hfree ns target (hsame.symm.trans hlink)
  · cases htext'.symm.trans hlink

theorem reaches_iff (h : Retexts a t t') : t'.Reaches p names ↔ t.Reaches p names := by
  have hbase : t'.base p = t.base p := by rw [base, base, h.workdir]
  constructor
  · rintro ⟨htext, hleads⟩
    exact ⟨htext, hbase ▸ hleads.transport fun _ _ hdir => h.dir_iff.1 hdir⟩
  · rintro ⟨htext, hleads⟩
    exact ⟨htext, hbase ▸ hleads.transport fun _ _ hdir => h.dir_iff.2 hdir⟩

theorem exists_capture (h : Retexts a t t') (hfree : t.top.LinkFree) (htidy : t.top.Tidy)
    (hb : Snapshot.capture t root l excludes = .ok b) :
    ∃ b', Snapshot.capture t' root l excludes = .ok b' ∧ ∀ m, m ∈ b'.modules ↔ m ∈ b.modules := by
  obtain ⟨hreach, hview⟩ := Snapshot.reaches_of_capture hfree hb
  obtain ⟨b', hb'⟩ := Snapshot.exists_capture_of_reaches (h.linkFree hfree) (h.reaches_iff.2 hreach)
    (h.none_iff.not.2 hview) l excludes
  refine ⟨b', hb', fun m => ?_⟩
  obtain ⟨-, hlayout, hexcludes, -⟩ := Snapshot.capture_ok hb
  obtain ⟨-, hlayout', hexcludes', -⟩ := Snapshot.capture_ok hb'
  have hfiles : t'.filesUnder root = t.filesUnder root := by
    ext q
    refine and_congr_right fun _ => ?_
    rw [place_eq h.workdir, h.file_iff]
  rw [(Snapshot.indexes_of_unlinked hfree htidy hb).mem_modules,
    (Snapshot.indexes_of_unlinked (h.linkFree hfree) (h.tidy htidy) hb').mem_modules,
    Snapshot.filesUnder_place hfree htidy hb,
    Snapshot.filesUnder_place (h.linkFree hfree) (h.tidy htidy) hb', hfiles, hlayout', hlayout]
  have hlists (q : List String) : b'.Lists q ↔ b.Lists q := by
    constructor
    · exact fun hq => ⟨hq.visible, hexcludes ▸ hexcludes' ▸ hq.included⟩
    · exact fun hq => ⟨hq.visible, hexcludes' ▸ hexcludes ▸ hq.included⟩
  simp only [hlists]

end Retexts

end FileTree

def renamedText? (old new : QualifiedName) (text? : Option String) : Option String :=
  text?.bind fun text =>
    match renameModule text old new with
    | .error _ => none
    | .ok none => some text
    | .ok (some r) => some r.content

def renameTexts (texts : List (Option String)) (pair : String × String) : List (Option String) :=
  match QualifiedName.parse pair.1, QualifiedName.parse pair.2 with
  | .ok old, .ok new =>
    if texts.all fun text? => (renamedText? old new text?).isSome then
      texts.map (renamedText? old new)
    else texts
  | _, _ => texts

def Snapshot.texts (a : Snapshot) (t : FileTree) : List (Option String) :=
  a.modules.map fun m => (a.readSource t m).toOption

section Planning

variable {t t' : FileTree} {a b : Snapshot} {old new : QualifiedName} {ms : List Module}
  {edits : List Change} {root : Path} {l : Layout} {excludes : List Glob} {m : Module}

theorem isSome_renamedText?_iff : (renamedText? old new (b.readSource t m).toOption).isSome = true ↔
    ∃ change?, planEdit? t b old new m = .ok change? := by
  unfold planEdit? renamedText?
  cases b.readSource t m with
  | error e => simp [Except.toOption]
  | ok text =>
    simp only [Except.toOption, Option.bind_some]
    generalize renameModule text old new = result
    cases result with
    | error e => simp
    | ok r? => cases r? <;> simp

theorem renamedText?_of_none {text : String} (h : renameModule text old new = .ok none) :
    renamedText? old new (some text) = some text := by
  simp only [renamedText?, Option.bind_some, h]

theorem renamedText?_of_some {text : String} {r : Renamed} (h : renameModule text old new = .ok (some r)) :
    renamedText? old new (some text) = some r.content := by
  simp only [renamedText?, Option.bind_some, h]

theorem exists_planEdits_iff : (∃ edits, planEdits t b old new ms = .ok edits) ↔
    ∀ m ∈ ms, (renamedText? old new (b.readSource t m).toOption).isSome = true := by
  induction ms with
  | nil => exact ⟨fun _ _ hm => absurd hm List.not_mem_nil, fun _ => ⟨[], rfl⟩⟩
  | cons m ms ih =>
    rw [List.forall_mem_cons, ← ih, isSome_renamedText?_iff]
    constructor
    · rintro ⟨edits, h⟩
      obtain ⟨change?, rest, hchange, hrest, -⟩ := planEdits_cons_ok h
      exact ⟨⟨change?, hchange⟩, rest, hrest⟩
    · rintro ⟨⟨change?, hchange⟩, rest, hrest⟩
      refine ⟨change?.toList ++ rest, ?_⟩
      unfold planEdits
      rw [hchange, hrest]

section Written

variable (hfree : t.top.LinkFree) (htidy : t.top.Tidy)
  (hb : Snapshot.capture t root l excludes = .ok b)
  (hedits : planEdits t b old new b.modules = .ok edits)

include hfree htidy hb

theorem exists_apply_of_planEdits (d : String) (hedits : planEdits t b old new b.modules = .ok edits) :
    ∃ n t', (⟨d, edits⟩ : ChangeSet).apply b.root t = .ok n t' ∧ t.Rewrites b.root edits t' := by
  have hplanned := planned_of_planEdits hedits
  have hindexes := Snapshot.indexes_of_unlinked hfree htidy hb
  obtain ⟨rfl, -, -, -⟩ := Snapshot.capture_ok hb
  by_cases hnil : edits = []
  · subst hnil
    exact ⟨0, t, ChangeSet.apply_of_empty _ t rfl, .nil t _⟩
  obtain ⟨c, hc⟩ := List.exists_mem_of_ne_nil edits hnil
  obtain ⟨m, hm, source, -, hread, -⟩ := hplanned.edit c hc
  have hview := Snapshot.view_of_readSource hfree htidy hindexes hm hread
  have hdir : t.view (t.place b.root) = some .dir := by
    refine Entry.view_eq_dir_of_append (hindexes.isPlain htidy hm).named ?_
    change t.view _ ≠ none
    simp [hview]
  have hrootAt := Snapshot.rootAt_of_dir hfree hb hdir
  have hat := hplanned.editsAt (S := fun _ => True) (fun _ hm => hm) hindexes fun _ _ => trivial
  have hplainEdits : ∀ c ∈ edits, c.IsPlainEdit := fun c hc => (hat c hc).isPlainEdit htidy
  have hreads : ∀ p n expected updated, .edit p n expected updated ∈ edits →
      t.readText (b.root.join p) = .ok expected := by
    intro p n expected updated hc
    obtain ⟨m, -, source, r, hread, -, heq⟩ := hplanned.edit _ hc
    cases heq
    exact hread
  have hcheck : Change.checkAll t b.root edits = .ok () := by
    refine Change.checkAll_of_check fun c hc => ?_
    have hedit := hat c hc
    cases c with
    | create | move => exact hedit.elim
    | edit p n expected updated => exact Change.check_edit_of_readText (hreads p n expected updated hc)
  obtain ⟨n, t', hperform⟩ := Change.performAll_of_isFile hrootAt htidy hat
    fun p n expected updated hc => isFile_of_readText (hreads p n expected updated hc)
  refine ⟨n, t', ChangeSet.apply_of_perform hcheck ?_, rewrites_of_performAll hfree hplainEdits hperform⟩
  rwa [ChangeSet.ordered_of_isEdit fun c hc => (hplainEdits c hc).isEdit]

include hedits

theorem retexts_of_rewrites (h : t.Rewrites b.root edits t') : Retexts b t t' := by
  have hindexes := Snapshot.indexes_of_unlinked hfree htidy hb
  obtain ⟨rfl, -, -, -⟩ := Snapshot.capture_ok hb
  refine ⟨fun ns => ?_, h.workdir, h.toSteady.tidy⟩
  obtain ⟨c, hc, text, hwrites, hview⟩ | ⟨-, hview⟩ := h.view ns
  · obtain ⟨m, hm, source, r, hread, -, rfl⟩ := (planned_of_planEdits hedits).edit c hc
    obtain ⟨rfl, rfl⟩ := hwrites
    exact .inr ⟨m, hm, source, r.content, rfl,
      Snapshot.view_of_readSource hfree htidy hindexes hm hread, hview⟩
  · exact .inl hview

theorem text_of_rewrites (h : t.Rewrites b.root edits t') (hm : m ∈ b.modules) :
    (b.readSource t' m).toOption = renamedText? old new (b.readSource t m).toOption := by
  have hretexts := retexts_of_rewrites hfree htidy hb hedits h
  have hplanned := planned_of_planEdits hedits
  have hindexes := Snapshot.indexes_of_unlinked hfree htidy hb
  obtain ⟨rfl, -, -, -⟩ := Snapshot.capture_ok hb
  obtain ⟨source, hread, -⟩ := hplanned.module m hm
  obtain ⟨source', hretold, hview⟩ :=
    hplanned.exists_retold hfree htidy hindexes hm hread (fun _ hm => hm) h
  obtain ⟨names, hreach, -⟩ := (readText_eq_ok_iff hfree).1 hread
  rw [← hreach.eq_place_append (hindexes.isPlain htidy hm)] at hview
  have hread' : b.readSource t' m = .ok source' :=
    (readText_eq_ok_iff (hretexts.linkFree hfree)).2 ⟨names, hretexts.reaches_iff.2 hreach, hview⟩
  rw [hread, hread']
  cases hretold with
  | renamed _ hr => exact (renamedText?_of_some hr).symm
  | kept hnone => exact (renamedText?_of_none (hnone hm)).symm

end Written

end Planning

namespace Command.RenameImports

variable {t : FileTree} {a b : Snapshot} {root : Path} {l : Layout} {excludes : List Glob}
  {pair : String × String} {pairs : List (String × String)} {s : Session}

def rename (pair : String × String) : Transformation :=
  .renameExternal pair.1 pair.2 everyFile

def Tells (pair : String × String) : Outcome → Prop
  | .applied d => d = "Rename module <" ++ pair.1 ++ "> to <" ++ pair.2 ++ ">"
  | .failed d .fatal _ w => d = "Rename module <" ++ pair.1 ++ "> to <" ++ pair.2 ++ ">" ∧ w = .next
  | .failed d .rejected _ w => d = (rename pair).label ∧ w = .next
  | _ => False

theorem Tells.onward {o : Outcome} (h : Tells pair o) : o.onward = .next := by
  match o, h with
  | .applied _, _ => rfl
  | .failed _ .fatal _ _, ⟨_, hw⟩ => exact hw
  | .failed _ .rejected _ _, ⟨_, hw⟩ => exact hw

theorem changes_rename (pair : String × String) (t : FileTree) (b : Snapshot) :
    (rename pair).changes runner.analyzer t b = planRename t b pair.1 pair.2 b.modules := by
  rw [← b.inScope_everyFile]
  rfl

structure Alike (a b : Snapshot) : Prop where
  root : b.root = a.root
  modules : ∀ m, m ∈ b.modules ↔ m ∈ a.modules

theorem Alike.readSource (h : Alike a b) (t : FileTree) (m : Module) :
    b.readSource t m = a.readSource t m := by
  rw [Snapshot.readSource, Snapshot.readSource, Snapshot.absolute, Snapshot.absolute, h.root]

theorem changes_rename_cases (h : Alike a b) (t : FileTree) (pair : String × String) :
    (∃ e, (rename pair).changes runner.analyzer t b = .error e ∧
      renameTexts (a.texts t) pair = a.texts t) ∨
    ∃ old new edits, (rename pair).changes runner.analyzer t b =
        .ok ⟨"Rename module <" ++ pair.1 ++ "> to <" ++ pair.2 ++ ">", edits⟩ ∧
      planEdits t b old new b.modules = .ok edits ∧
      renameTexts (a.texts t) pair = (a.texts t).map (renamedText? old new) := by
  rw [changes_rename, planRename, parseName, parseName, renameTexts]
  cases hold : QualifiedName.parse pair.1 with
  | error e => exact .inl ⟨_, rfl, rfl⟩
  | ok old =>
    cases hnew : QualifiedName.parse pair.2 with
    | error e => exact .inl ⟨_, rfl, rfl⟩
    | ok new =>
      rw [← QualifiedName.text_of_parse hold, ← QualifiedName.text_of_parse hnew]
      have hall : ((a.texts t).all fun text? => (renamedText? old new text?).isSome) = true ↔
          ∃ edits, planEdits t b old new b.modules = .ok edits := by
        simp only [exists_planEdits_iff, h.readSource, h.modules, Snapshot.texts, List.all_map,
          List.all_eq_true, Function.comp_apply]
      cases hedits : planEdits t b old new b.modules with
      | error e =>
        refine .inl ⟨e, ?_, if_neg fun hyes => ?_⟩
        · change (planEdits t b old new b.modules >>= fun edits => pure (⟨_, edits⟩ : ChangeSet)) = _
          rw [hedits]
          rfl
        · obtain ⟨edits, hok⟩ := hall.1 hyes
          cases hedits.symm.trans hok
      | ok edits =>
        refine .inr ⟨old, new, edits, ?_, hedits, if_pos (hall.2 ⟨edits, hedits⟩)⟩
        change (planEdits t b old new b.modules >>= fun edits => pure (⟨_, edits⟩ : ChangeSet)) = _
        rw [hedits]
        rfl

theorem exists_step (x : Transformation) (s : Session) :
    ∃ o s', runner.step x s = .ok o s' ∧ s'.snapshot = s.snapshot ∧
      ((∃ d, runner.trial x s.tree s.snapshot = .ok d s'.tree ∧ o = .applied d) ∨
        ∃ d g e, runner.trial x s.tree s.snapshot = .error (d, g, e) s'.tree ∧
          o = .failed d g e .next) := by
  obtain ⟨s', hkept, hattempt⟩ := runner.attempt_unasked x s
  cases htrial : runner.trial x s.tree s.snapshot with
  | ok d t' =>
    simp only [htrial] at hattempt
    obtain ⟨rfl, hdone⟩ := hattempt
    exact ⟨_, s', step_of_done (hdone .keepGoing (by simp) true), hkept, .inl ⟨d, rfl, rfl⟩⟩
  | error f t' =>
    obtain ⟨d, g, e⟩ := f
    simp only [htrial] at hattempt
    obtain ⟨rfl, hfail⟩ := hattempt
    refine ⟨.failed d g e .next, s', step_of_done ?_, hkept, .inr ⟨d, g, e, rfl, rfl⟩⟩
    exact (hfail .keepGoing (by simp) true).trans (fail_of_ne (by simp [inMode]) d g e s')

theorem trial_of_apply {r : Runner} {x : Transformation} {cs : ChangeSet} {n : Nat} {t' : FileTree}
    (hchanges : x.changes r.analyzer t a = .ok cs) (happly : cs.apply a.root t = .ok n t')
    (hb : a.refresh t' = .ok b) : r.trial x t a = .ok cs.description t' ∨
      ∃ e, r.trial x t a = .error (cs.description, .fatal, e) t' := by
  simp only [trial, hchanges, carryOut_of_apply happly hb]
  cases r.verdict x t t' a b with
  | ok => exact .inl rfl
  | error e => exact .inr ⟨e, rfl⟩

theorem trial_of_error {r : Runner} {x : Transformation} {e : Error}
    (h : x.changes r.analyzer t a = .error e) : r.trial x t a = .error (x.label, .rejected, e) t := by
  simp only [trial, h]

theorem exists_step_rename (halike : Alike a s.snapshot) (hfree : s.tree.top.LinkFree)
    (htidy : s.tree.top.Tidy) (hb : Snapshot.capture s.tree root l excludes = .ok s.snapshot)
    (pair : String × String) :
    ∃ o s', runner.step (rename pair) s = .ok o s' ∧ s'.snapshot = s.snapshot ∧ Tells pair o ∧
      Retexts a s.tree s'.tree ∧ a.texts s'.tree = renameTexts (a.texts s.tree) pair := by
  obtain ⟨o, s', hstep, hkept, hcases⟩ := exists_step (rename pair) s
  refine ⟨o, s', hstep, hkept, ?_⟩
  obtain ⟨e, hchanges, htexts⟩ | ⟨old, new, edits, hchanges, hedits, htexts⟩ :=
    changes_rename_cases halike s.tree pair
  · rw [trial_of_error hchanges] at hcases
    obtain ⟨d, htrial, -⟩ | ⟨d, g, e', htrial, rfl⟩ := hcases
    · cases htrial
    · obtain ⟨⟨rfl, rfl, rfl⟩, htree⟩ : ((rename pair).label = d ∧ Stage.rejected = g ∧ e = e') ∧
          s.tree = s'.tree := by simpa using htrial
      rw [← htree]
      exact ⟨⟨rfl, rfl⟩, .refl a s.tree, htexts.symm⟩
  · obtain ⟨n, t', happly, hrewrites⟩ := exists_apply_of_planEdits hfree htidy hb _ hedits
    have hretexts := retexts_of_rewrites hfree htidy hb hedits hrewrites
    obtain ⟨b', hb', -⟩ := hretexts.exists_capture hfree htidy hb
    rw [← refresh_of_capture hb] at hb'
    have htree : s'.tree = t' ∧ Tells pair o := by
      obtain htrial | ⟨e, htrial⟩ := trial_of_apply hchanges happly hb'
      all_goals rw [htrial] at hcases
      · obtain ⟨d, htrial', rfl⟩ | ⟨d, g, e', htrial', -⟩ := hcases
        · cases htrial'
          exact ⟨rfl, rfl⟩
        · cases htrial'
      · obtain ⟨d, htrial', -⟩ | ⟨d, g, e', htrial', rfl⟩ := hcases
        · cases htrial'
        · cases htrial'
          exact ⟨rfl, rfl, rfl⟩
    obtain ⟨rfl, htells⟩ := htree
    refine ⟨htells, hretexts.mono halike.root fun m hm => (halike.modules m).1 hm, ?_⟩
    rw [htexts, Snapshot.texts, Snapshot.texts, List.map_map]
    refine List.map_congr_left fun m hm => ?_
    have htext := text_of_rewrites hfree htidy hb hedits hrewrites ((halike.modules m).2 hm)
    rwa [halike.readSource, halike.readSource] at htext

structure Current (root : Path) (l : Layout) (excludes : List Glob) (a : Snapshot) (s : Session) :
    Prop where
  alike : Alike a s.snapshot
  linkFree : s.tree.top.LinkFree
  tidy : s.tree.top.Tidy
  capture : Snapshot.capture s.tree root l excludes = .ok s.snapshot

theorem Current.refresh (h : Current root l excludes a s) {s' : Session}
    (hsnapshot : s'.snapshot = s.snapshot) (hretexts : Retexts a s.tree s'.tree) :
    ∃ s'', Session.refresh s' = .ok () s'' ∧ s''.tree = s'.tree ∧ Current root l excludes a s'' := by
  obtain ⟨b', hb', hmodules⟩ := hretexts.exists_capture h.linkFree h.tidy h.capture
  have hrefresh : s'.snapshot.refresh s'.tree = .ok b' := by
    rw [hsnapshot, refresh_of_capture h.capture, hb']
  refine ⟨{ s' with snapshot := b' }, by simp only [Session.refresh, hrefresh], rfl,
    ⟨?_, fun m => (hmodules m).trans (h.alike.modules m)⟩, hretexts.linkFree h.linkFree,
    hretexts.tidy h.tidy, hb'⟩
  obtain ⟨hroot, -⟩ := Snapshot.capture_ok h.capture
  obtain ⟨hroot', -⟩ := Snapshot.capture_ok hb'
  exact hroot'.trans (hroot.symm.trans h.alike.root)

theorem exists_steps (h : Current root l excludes a s) (pairs : List (String × String)) :
    ∃ os s', runner.steps (pairs.map rename) s = .ok ⟨os, none⟩ s' ∧ List.Forall₂ Tells pairs os ∧
      Current root l excludes a s' ∧ Retexts a s.tree s'.tree ∧
      a.texts s'.tree = pairs.foldl renameTexts (a.texts s.tree) := by
  induction pairs generalizing s with
  | nil => exact ⟨[], s, rfl, .nil, h, .refl a s.tree, rfl⟩
  | cons pair pairs ih =>
    obtain ⟨o, s₁, hstep, hsnapshot, htells, hretexts, htexts⟩ :=
      exists_step_rename h.alike h.linkFree h.tidy h.capture pair
    obtain ⟨s₂, hrefresh, htree, hcurrent⟩ := h.refresh hsnapshot hretexts
    obtain ⟨os, s', hsteps, hall, hcurrent', hretexts', htexts'⟩ := ih hcurrent
    rw [htree] at hretexts' htexts'
    refine ⟨o :: os, s', steps_of_next hstep hrefresh htells.onward hsteps, .cons htells hall, hcurrent',
      hretexts.trans hretexts', ?_⟩
    rw [htexts', htexts, List.foldl_cons]

theorem skipped_of_tells {os : List Outcome} (h : List.Forall₂ Tells pairs os) (aborted : Option Nat) :
    (Report.ofOutcomes os aborted).skipped = [] := by
  induction h with
  | nil => rfl
  | @cons pair o pairs os htells _ ih =>
    match o, htells with
    | .applied _, _ => exact ih
    | .failed _ .fatal _ _, _ => exact ih
    | .failed _ .rejected _ _, _ => exact ih

section Run

variable {o : Options} {c c' : Console} {e : Error} {run' : Run}

theorem run_of_parseGlobs (h : parseGlobs o.excludes = .error e) : run o c = .error e c := by
  rw [run, h]
  exact bind_of_error rfl

theorem run_of_capture_error (hglobs : parseGlobs o.excludes = .ok excludes)
    (h : Snapshot.capture c.tree o.root .standard excludes = .error e) : run o c = .error e c := by
  rw [run, hglobs]
  refine (bind_of_ok rfl).trans ((bind_of_ok rfl).trans (bind_of_error ?_))
  rw [h]
  rfl

theorem run_of_carryOut (hglobs : parseGlobs o.excludes = .ok excludes)
    (ha : Snapshot.capture c.tree o.root .standard excludes = .ok a)
    (h : carryOut runner none a (planned o) c = .ok run' c') :
    run o c = .ok (Report.ofRun run') c' := by
  rw [run, hglobs]
  refine (bind_of_ok rfl).trans ((bind_of_ok rfl).trans ((bind_of_ok ?_).trans (bind_of_ok h)))
  rw [ha]
  rfl

theorem tree_of_run {r : Runner} {operator? : Option Operator} {xs : List Transformation} {s' : Session}
    (h : r.run operator? c.tree a xs = .ok run' s') :
    ∃ c', carryOut r operator? a xs c = .ok run' c' ∧ c'.tree = s'.tree := by
  unfold carryOut
  rw [h]
  exact ⟨_, rfl, rfl⟩

theorem exists_carryOut (hfree : c.tree.top.LinkFree) (htidy : c.tree.top.Tidy)
    (ha : Snapshot.capture c.tree root l excludes = .ok a) (pairs : List (String × String)) :
    ∃ os c', carryOut runner none a (pairs.map rename) c = .ok ⟨os, none⟩ c' ∧
      List.Forall₂ Tells pairs os ∧ Retexts a c.tree c'.tree ∧
      a.texts c'.tree = pairs.foldl renameTexts (a.texts c.tree) := by
  have hcurrent : Current root l excludes a (start none c.tree a) :=
    ⟨⟨rfl, fun _ => Iff.rfl⟩, hfree, htidy, ha⟩
  obtain ⟨os, s', hsteps, htells, -, hretexts, htexts⟩ := exists_steps hcurrent pairs
  have hrun : runner.run none c.tree a (pairs.map rename) = .ok ⟨os, none⟩ s' :=
    (run_eq (by simp [runner]) c.tree a _).trans hsteps
  obtain ⟨c', hcarry, htree⟩ := tree_of_run hrun
  rw [← htree] at hretexts htexts
  exact ⟨os, c', hcarry, htells, hretexts, htexts⟩

theorem run_folds (o : Options) (c : Console) (hfree : c.tree.top.LinkFree) (htidy : c.tree.top.Tidy) :
    match parseGlobs o.excludes with
    | .error e => run o c = .error e c
    | .ok excludes =>
      match Snapshot.capture c.tree o.root .standard excludes with
      | .error e => run o c = .error e c
      | .ok a => ∃ os report c', run o c = .ok report c' ∧ Retexts a c.tree c'.tree ∧
          a.texts c'.tree = o.replacements.foldl renameTexts (a.texts c.tree) ∧
          List.Forall₂ Tells o.replacements os ∧ Sorts os report.successes report.failures [] ∧
          report.skipped = [] ∧ report.aborted = none := by
  cases hglobs : parseGlobs o.excludes with
  | error e => exact run_of_parseGlobs hglobs
  | ok excludes =>
    dsimp only
    cases ha : Snapshot.capture c.tree o.root .standard excludes with
    | error e => exact run_of_capture_error hglobs ha
    | ok a =>
      obtain ⟨os, c', hcarry, htells, hretexts, htexts⟩ := exists_carryOut hfree htidy ha o.replacements
      have hskipped := skipped_of_tells htells none
      have hsorts := Report.sorts_ofOutcomes os none
      rw [hskipped] at hsorts
      exact ⟨os, Report.ofOutcomes os none, c', run_of_carryOut hglobs ha hcarry, hretexts, htexts,
        htells, hsorts, hskipped, rfl⟩

end Run

namespace Broken

def tree : FileTree :=
  ⟨.dir [("a.py", .file "import x\n".toUTF8), ("b.py", .file "import q, y\n".toUTF8),
    ("c.py", .file "def (q\n".toUTF8), ("notes", .file "import x\n".toUTF8)], []⟩

def snapshot : Snapshot :=
  ⟨⟨"/"⟩, .standard, [], [⟨"a", ⟨"a.py"⟩⟩, ⟨"b", ⟨"b.py"⟩⟩, ⟨"c", ⟨"c.py"⟩⟩]⟩

def options : Options :=
  ⟨⟨"/"⟩, [("x", "z"), ("q", "r"), ("y", "w")], []⟩

theorem linkFree_tree : tree.top.LinkFree :=
  Entry.linkFree_dir (by simp [Entry.linkFree_file])

theorem tidy_tree : tree.top.Tidy := by
  refine .dir ?_ ?_ (by simp [Entry.Tidy.file])
  · simpa using (by decide : ("a.py" < "b.py" ∧ "a.py" < "c.py" ∧ "a.py" < "notes") ∧
      ("b.py" < "c.py" ∧ "b.py" < "notes") ∧ "c.py" < "notes")
  · simp only [List.forall_mem_cons]
    exact ⟨⟨by decide, by decide, by decide, by decide⟩, ⟨by decide, by decide, by decide, by decide⟩,
      ⟨by decide, by decide, by decide, by decide⟩, ⟨by decide, by decide, by decide, by decide⟩, by simp⟩

theorem texts_tree : options.replacements.foldl renameTexts (snapshot.texts tree) =
    [some "import z\n", some "import q, w\n", some "def (q\n"] := by
  decide +kernel

end Broken

theorem run_folds_broken :
    Broken.tree.top.LinkFree ∧ Broken.tree.top.Tidy ∧
      ∃ report c', run Broken.options ⟨Broken.tree, "", []⟩ = .ok report c' ∧
        Retexts Broken.snapshot Broken.tree c'.tree ∧
        Broken.snapshot.texts c'.tree =
          [some "import z\n", some "import q, w\n", some "def (q\n"] ∧
        report.skipped = [] := by
  refine ⟨Broken.linkFree_tree, Broken.tidy_tree, ?_⟩
  obtain ⟨os, report, c', hrun, hretexts, htexts, -, -, hskipped, -⟩ :=
    run_folds Broken.options ⟨Broken.tree, "", []⟩ Broken.linkFree_tree Broken.tidy_tree
  exact ⟨report, c', hrun, hretexts, htexts.trans Broken.texts_tree, hskipped⟩

end Command.RenameImports

end Reroot

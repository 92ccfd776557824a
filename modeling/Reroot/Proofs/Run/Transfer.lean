import Reroot.Proofs.Run.Agreement

namespace Reroot

open FileTree Scan Python
open Reroot.Path (IsName)

namespace Change

variable {S : List String → Prop} {t u t' : FileTree} {root : Path} {base front : List String}
  {k : String} {n : Nat}

theorem open_of_moves (hvaries : Varies S t u)
    (h : u.Moves (base ++ [k]) (base ++ (front ++ [k])) t') : t.Open base front := by
  rintro pre ⟨rest, rfl⟩
  have harrived : t'.view (base ++ pre ++ (rest ++ [k])) ≠ none := by
    have hview := h.view (base ++ (pre ++ rest ++ [k]))
    rw [if_pos List.prefix_rfl, List.drop_length, List.append_nil] at hview
    simpa [← hview] using h.taken
  have hdir : t'.view (base ++ pre) = some .dir := Entry.view_eq_dir_of_append (by simp) harrived
  have habove : ¬base ++ (pre ++ rest ++ [k]) <+: base ++ pre := fun hprefix => by
    simpa using hprefix.length_le
  rw [h.view, if_neg habove] at hdir
  split at hdir
  · cases hdir
  cases hnow : t.view (base ++ pre) with
  | none => exact .inl rfl
  | some s =>
    obtain ⟨s', hs', hlike, -⟩ := hvaries.kept _ s hnow
    rw [hdir] at hs'
    cases hs'
    cases hlike
    exact .inr rfl

theorem makesTo_of_perform_move (hfree : t.top.LinkFree) (hroot : t.RootAt root base)
    (hfront : front ≠ []) (hnames : ∀ m ∈ front ++ [k], IsName m)
    (h : (move (Path.ofNames [k]) (Path.ofNames (front ++ [k]))).perform root t = .ok n t') :
    ∃ u, t.Extends u ∧ t.MakesTo (base ++ front) u ∧
      u.Moves (base ++ [k]) (base ++ (front ++ [k])) t' := by
  obtain ⟨u, hparents, hextends, hmoves, hshort⟩ :=
    ChangeSet.moves_of_perform hroot hfront hnames (clear_of_linkFree hfree) h
  have hopen : t.Open base front := open_of_moves (S := fun _ => False) hextends.varies hmoves
  obtain ⟨u', hparents', hmakes⟩ := makeParents_of_open hfree hroot hfront hnames
    (List.forall_mem_append.1 hshort).1 hopen
  obtain rfl : u = u' := by
    rw [hparents] at hparents'
    cases hparents'
    rfl
  exact ⟨u, hextends, hmakes, hmoves⟩

end Change

namespace Snapshot

variable {t t' : FileTree} {root : Path} {base ns : List String} {a : Snapshot} {m : Module}
  {old new : QualifiedName} {edits : List Change} {source : String}

def revised (s : Snapshot) (t : FileTree) (old new : QualifiedName) (ns : List String) :
    Option Shape :=
  match s.modules.find? fun m => t.place s.root ++ m.path.pieces == ns with
  | none => t.view ns
  | some m =>
    match s.readSource t m with
    | .error _ => t.view ns
    | .ok source =>
      match renameModule source old new with
      | .ok (some r) => some (.file r.content.toUTF8)
      | _ => t.view ns

theorem Indexes.eq_of_pieces_eq {m' : Module} (ha : a.Indexes t base) (htidy : t.top.Tidy)
    (hm : m ∈ a.modules) (hm' : m' ∈ a.modules) (h : m'.path.pieces = m.path.pieces) : m' = m := by
  obtain ⟨q, hq, -, hpath⟩ := ha.exists_file hm
  obtain ⟨q', hq', -, hpath'⟩ := ha.exists_file hm'
  have hsame : m'.path = m.path := by
    rw [hpath, hpath', Path.pieces_ofNames (isName_of_mem_filesUnder htidy hq),
      Path.pieces_ofNames (isName_of_mem_filesUnder htidy hq')] at h
    rw [hpath, hpath', h]
  exact List.inj_on_of_nodup_map ha.nodup hm' hm hsame

theorem Indexes.find?_eq (ha : a.Indexes t base) (htidy : t.top.Tidy) (hm : m ∈ a.modules) :
    (a.modules.find? fun m' => t.place a.root ++ m'.path.pieces == t.place a.root ++ m.path.pieces) =
      some m := by
  cases hfind : a.modules.find? fun m' =>
      t.place a.root ++ m'.path.pieces == t.place a.root ++ m.path.pieces with
  | none => exact absurd (List.find?_eq_none.1 hfind m hm) (by simp)
  | some m' =>
    have hplace := List.find?_some hfind
    rw [beq_iff_eq, List.append_cancel_left_eq] at hplace
    rw [ha.eq_of_pieces_eq htidy hm (List.mem_of_find?_eq_some hfind) hplace]

theorem revised_of_module (ha : a.Indexes t base) (htidy : t.top.Tidy) (hm : m ∈ a.modules)
    (hsource : a.readSource t m = .ok source) {r : Renamed}
    (hr : renameModule source old new = .ok (some r)) :
    a.revised t old new (t.place a.root ++ m.path.pieces) = some (.file r.content.toUTF8) := by
  simp only [revised, ha.find?_eq htidy hm, hsource, hr]

theorem revised_eq_view (h : ∀ m ∈ a.modules, t.place a.root ++ m.path.pieces = ns →
      ∀ source, a.readSource t m = .ok source → ∀ r, renameModule source old new ≠ .ok (some r)) :
    a.revised t old new ns = t.view ns := by
  unfold revised
  split
  · rfl
  next m hfind =>
  split
  · rfl
  next source hsource =>
  split
  · next r hr =>
    exact absurd hr (h m (List.mem_of_find?_eq_some hfind) (by simpa using List.find?_some hfind) source
      hsource r)
  · rfl

theorem view_of_rewrites (ha : a.Indexes t base) (htidy : t.top.Tidy)
    (hplanned : Planned t a old new a.modules edits) (h : t.Rewrites a.root edits t')
    (ns : List String) : t'.view ns = a.revised t old new ns := by
  obtain ⟨c, hc, text, hwrites, hview⟩ | ⟨hnone, hview⟩ := h.view ns
  · obtain ⟨m, hm, source, r, hsource, hr, rfl⟩ := hplanned.edit c hc
    obtain ⟨rfl, rfl⟩ := hwrites
    rw [hview, revised_of_module ha htidy hm hsource hr]
  · rw [hview, revised_eq_view]
    rintro m hm rfl source hsource r hr
    obtain ⟨source', hsource', hkept | ⟨r', hr', hmem⟩⟩ := hplanned.module m hm
    · rw [hsource] at hsource'
      cases hsource'
      rw [hr] at hkept
      cases hkept
    · exact hnone _ hmem r'.content ⟨rfl, rfl⟩

end Snapshot

variable {t t' : FileTree} {root : Path} {l : Layout} {excludes : List Glob} {a : Snapshot}
  {m : TopLevelModule} {package old new : QualifiedName} {cs : ChangeSet} {k : String} {n : Nat}
  {base front : List String} {edits : List Change}

structure Transfers (t : FileTree) (a : Snapshot) (old new : QualifiedName) (base front : List String)
    (k : String) (t' : FileTree) : Prop where
  free : ∀ rest, t.view (base ++ (front ++ [k]) ++ rest) = none
  moved : ∀ rest, t'.view (base ++ (front ++ [k]) ++ rest) = a.revised t old new (base ++ [k] ++ rest)
  gone : ∀ rest, t'.view (base ++ [k] ++ rest) = none
  directories : ∀ ns, ns <+: base ++ front → t'.view ns = some .dir
  frame : ∀ ns, ¬base ++ (front ++ [k]) <+: ns → ¬base ++ [k] <+: ns → ¬ns <+: base ++ front →
    t'.view ns = a.revised t old new ns
  workdir : t'.workdir = t.workdir

theorem transfers_of_moves {t₁ u : FileTree} (hview : ∀ ns, t₁.view ns = a.revised t old new ns)
    (hmakes : t₁.MakesTo (base ++ front) u) (hmoves : u.Moves (base ++ [k]) (base ++ (front ++ [k])) t')
    (hworkdir : u.workdir = t.workdir) (hfront : front ≠ []) (houtside : ¬[k] <+: front)
    (hnone : t.view (base ++ (front ++ [k])) = none) : Transfers t a old new base front k t' := by
  have haside (rest : List String) : ¬base ++ (front ++ [k]) <+: base ++ [k] ++ rest := by
    rw [List.append_assoc, List.prefix_append_right_inj]
    intro hprefix
    refine houtside (List.prefix_of_prefix_length_le (List.prefix_append [k] rest)
      ((List.prefix_append front [k]).trans hprefix) (List.length_pos_iff.2 hfront))
  have habove (ns : List String) (hns : ns <+: base ++ front) : ¬base ++ [k] <+: ns := fun hlies =>
    houtside ((List.prefix_append_right_inj base).1 (hlies.trans hns))
  refine ⟨fun rest => ?_, fun rest => ?_, fun rest => ?_, fun ns hns => ?_,
    fun ns htarget hsource hns => ?_, hmoves.workdir.trans hworkdir⟩
  · cases rest with
    | nil => rw [List.append_nil, hnone]
    | cons s rest => exact view_below_eq_none (by simp [hnone]) (by simp)
  · rw [hmoves.view, if_pos (List.prefix_append _ rest), List.drop_left, hmakes.frame, hview]
    exact fun hprefix => habove _ hprefix (List.prefix_append _ rest)
  · rw [hmoves.view, if_neg (haside rest), if_pos (List.prefix_append _ rest)]
  · have hbelow : ¬base ++ (front ++ [k]) <+: ns := fun hlies => by
      simpa using (hlies.trans hns).length_le
    rw [hmoves.view, if_neg hbelow, if_neg (habove ns hns)]
    obtain ⟨rest, hrest⟩ := hns
    by_cases hnil : rest = []
    · rw [hnil, List.append_nil] at hrest
      rw [hrest, hmakes.view]
    · exact Entry.view_eq_dir_of_append hnil (by rw [hrest]; exact ne_of_eq_of_ne hmakes.view (by simp))
  · rw [hmoves.view, if_neg htarget, if_neg hsource, hmakes.frame ns hns, hview]

structure PlansMove (t : FileTree) (root : Path) (a : Snapshot) (m : TopLevelModule)
    (package old new : QualifiedName) (k : String) (edits : List Change) (cs : ChangeSet) : Prop where
  rootAt : t.RootAt root (t.place root)
  root_eq : a.root = root
  indexes : a.Indexes t (t.place root)
  path : m.path = Path.ofNames [k]
  isName : ∀ s ∈ package.segments ++ [k], IsName s
  outside : ¬[k] <+: package.segments
  parsed : QualifiedName.parse m.name = .ok old
  child : package.child m.name = .ok new
  planned : Planned t a old new a.modules edits
  changes : cs.changes =
    edits ++ [.move (Path.ofNames [k]) (Path.ofNames (package.segments ++ [k]))]
  source : t.isPresent (root.join (Path.ofNames [k])) = true
  target : t.isPresent (root.join (Path.ofNames (package.segments ++ [k]))) = false

theorem plansMove_of_planMove (hfree : t.top.LinkFree) (htidy : t.top.Tidy)
    (hcapture : Snapshot.capture t root l excludes = .ok a) (hm : m ∈ a.topLevelModules)
    (hplan : planMove t a m package.text = .ok cs) :
    ∃ k old new edits, PlansMove t root a m package old new k edits cs := by
  have hroot := rootAt_of_capture hfree hcapture (exists_module_of_mem_topLevelModules hm)
  have ha := Snapshot.indexes_of_capture htidy hroot hcapture
  obtain ⟨rfl, -, -, -⟩ := Snapshot.capture_ok hcapture
  obtain ⟨-, k, -, -, -, -, -, hpath, hk, hname⟩ := ha.exists_entry htidy hm
  obtain ⟨hfault, old, new, edits, hold, hnew, hedits, hchanges⟩ := exists_of_planMove hplan
  obtain ⟨hfirst, hsource, htarget⟩ := of_moveFault? hfault
  have htargetPath : moveTarget package m = Path.ofNames (package.segments ++ [k]) := by
    rw [moveTarget, hpath, Path.join_ofNames package.nonempty (by simp) package.isName (by simpa using hk)]
  rw [htargetPath] at hchanges htarget
  rw [hpath] at hchanges hsource
  refine ⟨k, old, new, edits, hroot, rfl, ha, hpath, ?_, fun hprefix => hfirst ?_, hold, hnew,
    planned_of_planEdits hedits, hchanges, hsource, htarget⟩
  · exact List.forall_mem_append.2 ⟨package.isName, by simpa using hk⟩
  · obtain ⟨s, rest, hs⟩ := List.exists_cons_of_ne_nil package.nonempty
    obtain rfl : k = s := by simpa [hs] using hprefix
    rw [hname, rootOf_of_not_mem (package.not_mem_segment k (by simp [hs]))]
    simp [QualifiedName.first, hs]

namespace PlansMove

variable (h : PlansMove t root a m package old new k edits cs)

include h

theorem editsAt : ∀ c ∈ edits, c.EditsAt (fun _ => True) t (t.place root) :=
  h.planned.editsAt (fun _ hm => hm) h.indexes fun _ _ => trivial

theorem reads {p : Path} {j : Nat} {expected updated : String}
    (hmem : .edit p j expected updated ∈ edits) : t.readText (root.join p) = .ok expected := by
  obtain ⟨y, -, source, r, hsource, -, heq⟩ := h.planned.edit _ hmem
  cases heq
  rw [← h.root_eq]
  exact hsource

theorem exists_apply (hfree : t.top.LinkFree) (htidy : t.top.Tidy)
    (hshort : ∀ s ∈ package.segments, s.utf8ByteSize ≤ 255)
    (hopen : t.Open (t.place root) package.segments) : ∃ n t', cs.apply root t = .ok n t' :=
  ChangeSet.apply_of_open hfree htidy h.rootAt h.changes h.editsAt (fun _ _ _ _ hmem => h.reads hmem)
    package.nonempty h.isName hshort hopen h.outside h.source h.target

theorem transfers_of_apply (hfree : t.top.LinkFree) (htidy : t.top.Tidy)
    (happly : cs.apply root t = .ok n t') :
    t.Open (t.place root) package.segments ∧
      Transfers t a old new (t.place root) package.segments k t' := by
  have hplain : ∀ c ∈ edits, c.IsPlainEdit := fun c hc => (h.editsAt c hc).isPlainEdit htidy
  have hperform := (ChangeSet.apply_ok happly).2
  rw [ChangeSet.ordered_of_edits h.changes hplain] at hperform
  obtain ⟨_, t₁, _, hpre, hmove⟩ := Change.performAll_append_ok hperform
  obtain ⟨_, t₂, _, hmove, hnil⟩ := Change.performAll_cons_ok hmove
  cases hnil
  have hrewrites := rewrites_of_performAll hfree hplain hpre
  have hvaries := Change.varies_of_performAll h.rootAt htidy h.editsAt hpre
  obtain ⟨u, hextends, hmakes, hmoves⟩ := Change.makesTo_of_perform_move
    (hrewrites.linkFree hfree) (h.rootAt.keeps hvaries.keeps hvaries.workdir) package.nonempty h.isName
    hmove
  have hrevised (ns : List String) : t₁.view ns = a.revised t old new ns :=
    Snapshot.view_of_rewrites h.indexes htidy h.planned (h.root_eq ▸ hrewrites) ns
  obtain ⟨-, -, -, hnone⟩ := ChangeSet.relocates_of_apply h.rootAt htidy h.changes h.editsAt
    package.nonempty h.isName (clear_of_linkFree hfree) happly
  exact ⟨Change.open_of_moves (hvaries.trans hextends.varies) hmoves, transfers_of_moves hrevised hmakes
    hmoves (hextends.workdir.trans hrewrites.workdir) package.nonempty h.outside hnone⟩

end PlansMove

theorem transfers_of_planMove (hfree : t.top.LinkFree) (htidy : t.top.Tidy)
    (hcapture : Snapshot.capture t root l excludes = .ok a) (hm : m ∈ a.topLevelModules)
    {destination : String} (hplan : planMove t a m destination = .ok cs) :
    ∃ (package old new : QualifiedName) (k : String), package.text = destination ∧
      m.path = Path.ofNames [k] ∧ IsName k ∧ QualifiedName.parse m.name = .ok old ∧
      package.child m.name = .ok new ∧
      ((∀ s ∈ package.segments, s.utf8ByteSize ≤ 255) →
        ((∃ n t', cs.apply root t = .ok n t') ↔ t.Open (t.place root) package.segments)) ∧
      ∀ n t', cs.apply root t = .ok n t' →
        Transfers t a old new (t.place root) package.segments k t' := by
  obtain ⟨package, rfl⟩ := exists_package_of_planMove hplan
  obtain ⟨k, old, new, edits, h⟩ := plansMove_of_planMove hfree htidy hcapture hm hplan
  refine ⟨package, old, new, k, rfl, h.path, h.isName k (by simp), h.parsed, h.child,
    fun hshort => ⟨?_, ?_⟩, ?_⟩
  · rintro ⟨n, t', happly⟩
    exact (h.transfers_of_apply hfree htidy happly).1
  · exact h.exists_apply hfree htidy hshort
  · intro n t' happly
    exact (h.transfers_of_apply hfree htidy happly).2

theorem transfers_of_planMove_selfImport :
    ∃ n t', SelfImport.changes.apply ⟨"/"⟩ SelfImport.tree = .ok n t' ∧
      t'.view ["p", "a.py"] = some (.file "import p.a\n".toUTF8) ∧ t'.view ["a.py"] = none ∧
      t'.view ["p", "__init__.py"] = some (.file "".toUTF8) := by
  obtain ⟨package, old, new, k, htext, hpath, hk, hold, hnew, hiff, htransfers⟩ :=
    transfers_of_planMove SelfImport.linkFree_tree SelfImport.tidy_tree SelfImport.capture_tree
      SelfImport.mem_topLevelModules SelfImport.planMove_tree
  obtain rfl : package = SelfImport.target := by
    have hparse := package.parse_text
    rw [htext, SelfImport.target.parse_text] at hparse
    exact (Except.ok.inj hparse).symm
  obtain rfl : old = ⟨["a"], by decide, by decide⟩ :=
    Except.ok.inj (hold.symm.trans (by decide +kernel))
  obtain rfl : new = ⟨["p", "a"], by decide, by decide⟩ :=
    Except.ok.inj (hnew.symm.trans (by decide +kernel))
  obtain rfl : "a.py" = k := by
    have hentry : ["a.py"] = [k] := Path.ofNames_inj
      (by simpa using ⟨by decide, by decide, by decide, by decide⟩) (by simpa using hk) hpath
    simpa using hentry
  obtain ⟨n, t', happly⟩ := (hiff (by decide)).2 fun pre hpre => by
    obtain rfl | rfl : pre = [] ∨ pre = ["p"] := by
      simpa [SelfImport.target, List.prefix_cons_iff] using hpre
    · exact .inr rfl
    · exact .inr rfl
  have h := htransfers n t' happly
  have hindexes : SelfImport.snapshot.Indexes SelfImport.tree [] :=
    Snapshot.indexes_of_capture SelfImport.tidy_tree ⟨_, rfl⟩ SelfImport.capture_tree
  have himporter : (⟨"a", ⟨"a.py"⟩⟩ : Module) ∈ SelfImport.snapshot.modules := by
    simp [SelfImport.snapshot]
  have hrevised := Snapshot.revised_of_module hindexes SelfImport.tidy_tree himporter rfl
    SelfImport.renameModule_importer
  refine ⟨n, t', happly, ?_, h.gone [], ?_⟩
  · exact (h.moved []).trans hrevised
  · refine (h.frame ["p", "__init__.py"] (by decide) (by decide) (by decide)).trans ?_
    refine (Snapshot.revised_eq_view fun y hy hplace source hsource r hr => ?_).trans rfl
    simp only [SelfImport.snapshot, List.mem_cons, List.not_mem_nil, or_false] at hy
    obtain rfl | rfl := hy
    · revert hplace
      decide
    · obtain rfl : source = "" := Except.ok.inj (hsource.symm.trans rfl)
      have hnone : (.ok (some r) : Except _ _) = .ok none := hr.symm.trans rfl
      cases hnone

end Reroot

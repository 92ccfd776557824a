import Reroot.Proofs.Change.Edits
import Reroot.Proofs.Project.Index

namespace Reroot

namespace FileTree

open Reroot.Path (IsName)

variable {S S' : List String → Prop} {t t' t'' : FileTree} {root : Path} {base front q : List String}
  {k : String}

structure Varies (S : List String → Prop) (t t' : FileTree) : Prop where
  kept : ∀ ns s, t.view ns = some s → ∃ s', t'.view ns = some s' ∧ Like s s' ∧ (¬S ns → s' = s)
  new : ∀ ns, t.view ns = none → t'.view ns = none ∨ t'.view ns = some .dir
  workdir : t'.workdir = t.workdir
  tidy : t.top.Tidy → t'.top.Tidy

theorem Varies.refl (t : FileTree) : Varies S t t :=
  ⟨fun _ s h => ⟨s, h, .refl s, fun _ => rfl⟩, fun _ h => .inl h, rfl, fun h => h⟩

theorem Varies.trans (h : Varies S t t') (h' : Varies S t' t'') : Varies S t t'' := by
  refine ⟨fun ns s hs => ?_, fun ns hns => ?_, h'.workdir.trans h.workdir,
    fun htidy => h'.tidy (h.tidy htidy)⟩
  · obtain ⟨s', hs', hlike, hsame⟩ := h.kept ns s hs
    obtain ⟨s'', hs'', hlike', hsame'⟩ := h'.kept ns s' hs'
    exact ⟨s'', hs'', hlike.trans hlike', fun hS => (hsame' hS).trans (hsame hS)⟩
  · obtain hns' | hns' := h.new ns hns
    · exact h'.new ns hns'
    · obtain ⟨s, hs, hlike, -⟩ := h'.kept ns _ hns'
      exact .inr (hlike.eq_dir ▸ hs)

theorem Extends.varies (h : t.Extends t') : Varies S t t' :=
  ⟨fun ns s hs => ⟨s, by rw [h.kept ns (by simp [hs]), hs], .refl s, fun _ => rfl⟩, h.new, h.workdir,
    h.tidy⟩

theorem Varies.keeps (h : Varies S t t') : Keeps t.top t'.top := by
  intro ns s hs
  obtain ⟨s', hs', hlike, -⟩ := h.kept ns s hs
  exact ⟨s', hs', hlike⟩

theorem Varies.link_iff (h : Varies S t t') {ns : List String} {target : String} :
    t'.view ns = some (.link target) ↔ t.view ns = some (.link target) := by
  cases hns : t.view ns with
  | none => obtain hns' | hns' := h.new ns hns <;> simp [hns']
  | some s =>
    obtain ⟨s', hs', hlike, -⟩ := h.kept ns s hns
    rw [hs', Option.some.injEq, Option.some.injEq, hlike.link_iff]

theorem Varies.clear (h : Varies S t t') {as : List String} (hclear : Clear t.top base as) :
    Clear t'.top base as := by
  intro ns hne hprefix target hlink
  exact hclear ns hne hprefix target (h.link_iff.1 hlink)

theorem Varies.file_iff (h : Varies S t t') {ns : List String} :
    (∃ bytes, t'.view ns = some (.file bytes)) ↔ ∃ bytes, t.view ns = some (.file bytes) := by
  cases hns : t.view ns with
  | none => obtain hns' | hns' := h.new ns hns <;> simp [hns']
  | some s =>
    obtain ⟨s', hs', hlike, -⟩ := h.kept ns s hns
    rw [hs']
    cases hlike <;> simp

theorem Varies.filesUnder_eq (h : Varies S t t') : t'.filesUnder root = t.filesUnder root := by
  ext q
  refine and_congr_right fun _ => ?_
  rw [place_eq h.workdir, h.file_iff]

theorem varies_of_writeText {text : String} (hroot : t.RootAt root base) (htidy : t.top.Tidy)
    (hq : q ∈ t.filesUnder (.ofPlace base)) (hS : S (base ++ q))
    (h : writeText (root.join (Path.ofNames q)) text t = .ok () t') : Varies S t t' := by
  have hnames := isName_of_mem_filesUnder htidy hq
  obtain ⟨hne, bytes, hview⟩ := (mem_filesUnder_ofPlace (hroot.isName htidy)).1 hq
  obtain ⟨place, hresolve, -, hputs⟩ := writeBytes_resolve h
  have hplace : place.names = base ++ q := by
    obtain ⟨as, s, rfl⟩ := List.eq_nil_or_concat' q |>.resolve_left hne
    have hpieces := Path.pieces_ofNames hnames
    have hclear : Clear t.top base as := by
      refine clear_of_view (List.cons_ne_nil s []) ?_
      change t.view _ ≠ none
      simp [hview]
    have hspells := hroot.spells (Path.isPlain_ofNames hne hnames) hpieces hclear
      (fun _ target => by simp [hpieces, hview]) hresolve
    rw [hspells.place]
  refine ⟨fun ns s hs => ?_, fun ns hns => .inl ?_, hputs.workdir,
    fun htidy => hputs.tidy htidy (isName_of_resolve htidy hresolve)⟩
  · by_cases hns : ns = base ++ q
    · subst hns
      rw [hview] at hs
      cases hs
      exact ⟨_, by rw [hputs.view, if_pos hplace.symm], .file _ _, fun hnot => absurd hS hnot⟩
    · exact ⟨s, by rw [hputs.view, if_neg (hplace ▸ hns), hs], .refl s, fun _ => rfl⟩
  · rw [hputs.view, if_neg, hns]
    rintro rfl
    rw [hplace, hview] at hns
    cases hns

end FileTree

namespace Change

open FileTree

variable {S : List String → Prop} {t t' : FileTree} {root : Path} {base : List String}
  {cs edits : List Change} {n : Nat}

def EditsAt (S : List String → Prop) (t : FileTree) (base : List String) : Change → Prop
  | .edit p _ _ _ => ∃ q ∈ t.filesUnder (.ofPlace base), p = Path.ofNames q ∧ S (base ++ q)
  | _ => False

theorem EditsAt.isPlainEdit {c : Change} (htidy : t.top.Tidy) (h : c.EditsAt S t base) :
    c.IsPlainEdit := by
  cases c with
  | create | move => exact h.elim
  | edit p =>
    obtain ⟨q, hq, rfl, -⟩ := h
    exact Path.isPlain_ofNames hq.1 (isName_of_mem_filesUnder htidy hq)

theorem EditsAt.varies {c : Change} (h : c.EditsAt S t base) (ht : Varies S t t') :
    c.EditsAt S t' base := by
  cases c with
  | create | move => exact h.elim
  | edit p =>
    obtain ⟨q, hq, hp, hS⟩ := h
    rw [← ht.filesUnder_eq] at hq
    exact ⟨q, hq, hp, hS⟩

theorem varies_of_perform {c : Change} (hroot : t.RootAt root base) (htidy : t.top.Tidy)
    (hc : c.EditsAt S t base) (h : c.perform root t = .ok n t') : Varies S t t' := by
  cases c with
  | create | move => exact hc.elim
  | edit p k expected updated =>
    obtain ⟨q, hq, rfl, hS⟩ := hc
    obtain ⟨_, t₁, hwrite, h⟩ := exists_of_bind_ok h
    cases h
    exact varies_of_writeText hroot htidy hq hS hwrite

theorem varies_of_performAll (hroot : t.RootAt root base) (htidy : t.top.Tidy)
    (hcs : ∀ c ∈ cs, c.EditsAt S t base) (h : performAll root cs t = .ok n t') : Varies S t t' := by
  refine related_of_performAll
    (J := fun cs t => t.RootAt root base ∧ t.top.Tidy ∧ ∀ c ∈ cs, c.EditsAt S t base)
    .refl .trans (fun {c cs t u m} hinv hfirst => ?_) ⟨hroot, htidy, hcs⟩ h
  obtain ⟨hroot, htidy, hcs⟩ := hinv
  obtain ⟨hc, hcs⟩ := List.forall_mem_cons.1 hcs
  have hvaries := varies_of_perform hroot htidy hc hfirst
  exact ⟨hvaries, hroot.keeps hvaries.keeps hvaries.workdir, hvaries.tidy htidy,
    fun d hd => (hcs d hd).varies hvaries⟩

theorem varies_of_performAll_error {source target : Path} {e : IoError} (hroot : t.RootAt root base)
    (htidy : t.top.Tidy) (hedits : ∀ c ∈ edits, c.EditsAt S t base)
    (h : performAll root (edits ++ [.move source target]) t = .error e t') : Varies S t t' := by
  obtain ⟨pre, c, post, n, t₁, hsplit, hpre, hc⟩ := exists_of_performAll_error h
  have hsub := ChangeSet.mem_of_append_eq hsplit
  exact (varies_of_performAll hroot htidy (fun d hd => hedits d (hsub d hd)) hpre).trans
    (extends_of_perform_error hc).varies

end Change

namespace FileTree

variable {t : FileTree} {root p : Path} {base names : List String}

theorem isPresent_of_resolve {e : Entry} (h : t.resolve p true = .ok ⟨names, some e⟩) :
    t.isPresent p = true := by
  rw [isPresent, entry?_of_resolve h]
  rfl

theorem view_eq_none_of_isPresent (hroot : t.RootAt root base) (hp : p.IsPlain)
    (hclear : Clear t.top base p.pieces) (hshort : ∀ a ∈ p.pieces, a.utf8ByteSize ≤ 255)
    (h : t.isPresent (root.join p) = false) : t.view (base ++ p.pieces) = none := by
  by_contra hview
  obtain ⟨as, s, hpieces⟩ := List.eq_nil_or_concat' p.pieces |>.resolve_left hp.named
  obtain ⟨e, he⟩ : ∃ e, t.top.at? (base ++ p.pieces) = some e := by
    obtain ⟨shape, hshape⟩ := Option.ne_none_iff_exists'.1 hview
    obtain ⟨e, he, -⟩ := Option.map_eq_some_iff.1 hshape
    exact ⟨e, he⟩
  have hdir : t.view (base ++ as) = some .dir := by
    refine Entry.view_eq_dir_of_append (List.cons_ne_nil s []) ?_
    rw [List.append_assoc, ← hpieces]
    exact hview
  have hspells : Spells t.top base as s ⟨base ++ (as ++ [s]), t.top.at? (base ++ (as ++ [s]))⟩ :=
    ⟨rfl, hdir, hpieces ▸ hshort⟩
  have hresolve : t.resolve (root.join p) true = .ok _ := hroot.resolve_of_spells hp hpieces
    (fun _ target => hclear _ hp.named List.prefix_rfl target) hspells
  rw [← hpieces, he] at hresolve
  rw [isPresent_of_resolve hresolve] at h
  cases h

end FileTree

namespace ChangeSet

open FileTree Change
open Reroot.Path (IsName)

variable {S : List String → Prop} {t t' : FileTree} {root : Path} {base front : List String}
  {k : String} {cs : ChangeSet} {edits : List Change}

theorem moves_of_perform {n : Nat} (hroot : t.RootAt root base) (hfront : front ≠ [])
    (hnames : ∀ m ∈ front ++ [k], IsName m) (hclear : Clear t.top base front)
    (h : (move (Path.ofNames [k]) (Path.ofNames (front ++ [k]))).perform root t = .ok n t') :
    ∃ u, makeParents (root.join (Path.ofNames (front ++ [k]))) t = .ok () u ∧ t.Extends u ∧
      u.Moves (base ++ [k]) (base ++ (front ++ [k])) t' ∧
      ∀ m ∈ front ++ [k], m.utf8ByteSize ≤ 255 := by
  have hk : ∀ m ∈ [k], IsName m := by simpa using hnames k (by simp)
  have hs : (Path.ofNames [k]).IsPlain := Path.isPlain_ofNames (by simp) hk
  have hd : (Path.ofNames (front ++ [k])).IsPlain := Path.isPlain_ofNames (by simp) hnames
  obtain ⟨_, u, hparents, h⟩ := exists_of_bind_ok h
  obtain ⟨_, _, hrename, h⟩ := exists_of_bind_ok h
  cases h
  have hextends := (widening_makeParents _).ok hparents
  have hvaries : Varies (fun _ => False) t u := hextends.varies
  have hroot' := hroot.keeps hvaries.keeps hvaries.workdir
  obtain ⟨a, b, ha, hb, hmoves⟩ := rename_resolve hrename
  rw [hs.bare_join] at ha
  rw [hd.bare_join] at hb
  have hsource : Spells u.top base [] k a :=
    hroot'.spells hs (Path.pieces_ofNames hk) .nil (by simp) ha
  have htarget := hroot'.spells hd (Path.pieces_ofNames hnames) (hvaries.clear hclear)
    (by simp) hb
  rw [hsource.place, htarget.place] at hmoves
  refine ⟨u, hparents, hextends, hmoves.resolve_left fun heq => ?_, htarget.short⟩
  simpa [hfront] using heq.1

section Apply

variable (hroot : t.RootAt root base) (htidy : t.top.Tidy)
  (hchanges : cs.changes = edits ++ [.move (Path.ofNames [k]) (Path.ofNames (front ++ [k]))])
  (hedits : ∀ c ∈ edits, c.EditsAt S t base)

include hroot htidy hchanges hedits

theorem varies_of_apply_error {e : Error} (h : cs.apply root t = .error e t') : Varies S t t' := by
  obtain ⟨-, rfl⟩ | ⟨-, io, hperform⟩ := apply_error h
  · exact .refl t'
  rw [ordered_of_edits hchanges fun c hc => (hedits c hc).isPlainEdit htidy] at hperform
  exact varies_of_performAll_error hroot htidy hedits hperform

theorem moves_of_apply {n : Nat} (hfront : front ≠ []) (hnames : ∀ m ∈ front ++ [k], IsName m)
    (hclear : Clear t.top base front) (h : cs.apply root t = .ok n t') :
    ∃ u, Varies S t u ∧ u.Moves (base ++ [k]) (base ++ (front ++ [k])) t' ∧
      ∀ m ∈ front ++ [k], m.utf8ByteSize ≤ 255 := by
  obtain ⟨-, hperform⟩ := apply_ok h
  rw [ordered_of_edits hchanges fun c hc => (hedits c hc).isPlainEdit htidy] at hperform
  obtain ⟨m, t₁, _, hpre, hmove⟩ := performAll_append_ok hperform
  obtain ⟨_, t₂, _, hmove, hnil⟩ := performAll_cons_ok hmove
  cases hnil
  have hvaries := varies_of_performAll hroot htidy hedits hpre
  have hroot₁ := hroot.keeps hvaries.keeps hvaries.workdir
  obtain ⟨u, -, hextends, hmoves, hshort⟩ :=
    moves_of_perform hroot₁ hfront hnames (hvaries.clear hclear) hmove
  exact ⟨u, hvaries.trans hextends.varies, hmoves, hshort⟩

theorem relocates_of_apply {n : Nat} (hfront : front ≠ []) (hnames : ∀ m ∈ front ++ [k], IsName m)
    (hclear : Clear t.top base (front ++ [k])) (h : cs.apply root t = .ok n t') :
    ∃ u, Varies S t u ∧ u.Relocates (.ofPlace base) front k t' ∧
      t.view (base ++ (front ++ [k])) = none := by
  obtain ⟨u, hall, hmoves, hshort⟩ :=
    moves_of_apply hroot htidy hchanges hedits hfront hnames hclear.of_append h
  obtain ⟨-, htarget⟩ := check_move_ok (check_of_checkAll (apply_ok h).1
    (.move (Path.ofNames [k]) (Path.ofNames (front ++ [k]))) (by simp [hchanges]))
  have hpieces := Path.pieces_ofNames hnames
  have hnone := view_eq_none_of_isPresent hroot (Path.isPlain_ofNames (by simp) hnames)
    (by rwa [hpieces]) (by rwa [hpieces]) htarget
  rw [hpieces] at hnone
  refine ⟨u, hall, ⟨?_, fun rest bytes hview => ?_⟩, hnone⟩
  · rw [place_ofPlace (hroot.isName htidy)]
    exact hmoves
  · rw [place_ofPlace (hroot.isName htidy)] at hview
    obtain ⟨bytes', hview'⟩ := hall.file_iff.1 ⟨bytes, hview⟩
    rw [← List.append_assoc] at hview'
    cases rest with
    | nil => simp [hnone] at hview'
    | cons a rest =>
      rw [view_below_eq_none (by simp [hnone]) (by simp)] at hview'
      cases hview'

end Apply

end ChangeSet

namespace FileTree

variable {S : List String → Prop} {t u t' : FileTree} {root : Path} {base front : List String}
  {k : String}

theorem Relocates.retains (hbase : ∀ n ∈ base, Path.IsName n) (hvaries : Varies S t u)
    (hmove : u.Relocates (.ofPlace base) front k t') (hnone : t.view (base ++ (front ++ [k])) = none) :
    Retains t.top t'.top := by
  have hview := hmove.moves.view
  rw [place_ofPlace hbase] at hview
  intro ns s hs s' hs'
  change t'.view ns = some s' at hs'
  rw [hview] at hs'
  split at hs'
  · next hprefix =>
    obtain ⟨rest, rfl⟩ := hprefix
    have hsome : t.view (base ++ (front ++ [k]) ++ rest) = some s := hs
    cases rest with
    | nil => simp [hnone] at hsome
    | cons a rest =>
      rw [view_below_eq_none (by simp [hnone]) (by simp)] at hsome
      cases hsome
  · split at hs'
    · cases hs'
    · obtain ⟨s₁, hs₁, hlike, -⟩ := hvaries.kept ns s hs
      rw [hs', Option.some.injEq] at hs₁
      exact hs₁ ▸ hlike

theorem Relocates.view_base (hbase : ∀ n ∈ base, Path.IsName n) (hvaries : Varies S t u)
    (hmove : u.Relocates (.ofPlace base) front k t') (hdir : t.view base = some .dir) :
    t'.view base = some .dir := by
  have hview := hmove.moves.view
  rw [place_ofPlace hbase] at hview
  have hlonger {ns : List String} (hns : ns ≠ []) : ¬base ++ ns <+: base := by
    intro hprefix
    have hlen := hprefix.length_le
    have := List.length_pos_iff.2 hns
    rw [List.length_append] at hlen
    omega
  obtain ⟨s, hs, hlike, -⟩ := hvaries.kept base _ hdir
  rw [hview, if_neg (hlonger (by simp)), if_neg (hlonger (by simp)), hs, hlike.eq_dir]

theorem RootAt.of_capture {l : Layout} {excludes : List Glob} {a : Snapshot}
    (h : t.RootAt root base) (hretains : Retains t.top t'.top) (hworkdir : t'.workdir = t.workdir)
    (hdir : t'.view base = some .dir) (hcapture : Snapshot.capture t' root l excludes = .ok a) :
    t'.RootAt root base := by
  obtain ⟨fs, hfs, -⟩ := Snapshot.filesBelow_of_capture hcapture
  obtain ⟨⟨names, entry⟩, hresolve, hentry⟩ := resolve_of_filesBelow hfs
  obtain rfl : names = base := h.names_eq hretains hworkdir hresolve hentry
  obtain ⟨es, hes⟩ := Entry.view_eq_some_dir_iff.1 hdir
  refine ⟨es, ?_⟩
  rw [hresolve, ← hes, ← entry_of_resolve hresolve]

end FileTree

end Reroot

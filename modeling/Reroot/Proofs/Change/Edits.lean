import Reroot.Proofs.Change.Perform

namespace Reroot

namespace Change

def Writes (base ns : List String) (text : String) : Change → Prop
  | .edit p _ _ updated => ns = base ++ p.pieces ∧ updated = text
  | _ => False

def IsPlainEdit : Change → Prop
  | .edit p _ _ _ => p.IsPlain
  | _ => False

theorem IsPlainEdit.isEdit {c : Change} (h : c.IsPlainEdit) : c.isEdit = true := by
  cases c with
  | edit => rfl
  | create | move => cases h

end Change

namespace FileTree

open Change

variable {t t' t'' : FileTree} {root : Path} {c : Change} {cs : List Change} {n : Nat}

structure Rewrites (t : FileTree) (root : Path) (cs : List Change) (t' : FileTree) : Prop
    extends Steady t t' where
  view : ∀ ns,
    (∃ c ∈ cs, ∃ text, c.Writes (t.place root) ns text ∧ t'.view ns = some (.file text.toUTF8)) ∨
      (∀ c ∈ cs, ∀ text, ¬c.Writes (t.place root) ns text) ∧ t'.view ns = t.view ns

theorem Rewrites.nil (t : FileTree) (root : Path) : t.Rewrites root [] t :=
  ⟨.refl t, fun _ => .inr ⟨by simp, rfl⟩⟩

theorem Rewrites.cons (h : t.Rewrites root [c] t') (h' : t'.Rewrites root cs t'') :
    t.Rewrites root (c :: cs) t'' := by
  refine ⟨h.toSteady.trans h'.toSteady, fun ns => ?_⟩
  have hplace : t'.place root = t.place root := place_eq h.workdir
  obtain ⟨d, hd, text, hwrites, hview⟩ | ⟨hnone, hview⟩ := h'.view ns
  · exact .inl ⟨d, by simp [hd], text, hplace ▸ hwrites, hview⟩
  rw [hplace] at hnone
  obtain ⟨d, hd, text, hwrites, hview'⟩ | ⟨hnone', hview'⟩ := h.view ns
  · obtain rfl := List.mem_singleton.1 hd
    exact .inl ⟨d, by simp, text, hwrites, hview.trans hview'⟩
  · exact .inr ⟨List.forall_mem_cons.2 ⟨hnone' c (by simp), hnone⟩, hview.trans hview'⟩

theorem rewrites_of_perform (hfree : t.top.LinkFree) (hc : c.IsPlainEdit)
    (h : c.perform root t = .ok n t') : t.Rewrites root [c] t' := by
  cases c with
  | create | move => cases hc
  | edit p k expected updated =>
    obtain ⟨_, t₁, hwrite, h⟩ := exists_of_bind_ok h
    cases h
    obtain ⟨names, hreach, -, hputs⟩ := writeBytes_ok hfree hwrite
    have hnames := hreach.eq_place_append hc
    refine ⟨hputs.steady hreach, fun ns => ?_⟩
    rw [hputs.view]
    by_cases hns : ns = names
    · refine .inl ⟨_, List.mem_singleton_self _, updated, ⟨hns.trans hnames, rfl⟩, ?_⟩
      rw [if_pos hns]
    · rw [if_neg hns]
      refine .inr ⟨?_, rfl⟩
      rintro d hd text hwrites
      obtain rfl := List.mem_singleton.1 hd
      exact hns (hwrites.1.trans hnames.symm)

theorem rewrites_of_performAll (hfree : t.top.LinkFree) (hcs : ∀ c ∈ cs, c.IsPlainEdit)
    (h : performAll root cs t = .ok n t') : t.Rewrites root cs t' := by
  induction cs generalizing t n with
  | nil =>
    cases h
    exact .nil _ root
  | cons c cs ih =>
    obtain ⟨hc, hcs⟩ := List.forall_mem_cons.1 hcs
    obtain ⟨m, t₁, k, hfirst, hrest⟩ := performAll_cons_ok h
    have hrewrites := rewrites_of_perform hfree hc hfirst
    exact hrewrites.cons (ih (hrewrites.linkFree hfree) hcs hrest)

end FileTree

namespace ChangeSet

open FileTree Change

variable {t t' : FileTree} {root source target : Path} {cs : ChangeSet} {edits : List Change}

theorem filter_of_isEdit (h : ∀ c ∈ edits, c.isEdit = true) :
    edits.filter isCreate = [] ∧ edits.filter isEdit = edits ∧ edits.filter isMove = [] := by
  refine ⟨List.filter_eq_nil_iff.2 fun c hc => ?_, List.filter_eq_self.2 h,
    List.filter_eq_nil_iff.2 fun c hc => ?_⟩ <;>
  · have hedit := h c hc
    cases c with
    | edit => exact Bool.false_ne_true
    | create | move => cases hedit

theorem ordered_of_isEdit (h : ∀ c ∈ cs.changes, c.isEdit = true) : cs.ordered = cs.changes := by
  obtain ⟨hcreate, hall, hmove⟩ := filter_of_isEdit h
  rw [ordered, hcreate, hall, hmove, List.nil_append, List.append_nil]

theorem ordered_of_edits (hchanges : cs.changes = edits ++ [.move source target])
    (hedits : ∀ c ∈ edits, c.IsPlainEdit) : cs.ordered = edits ++ [.move source target] := by
  obtain ⟨hcreate, hall, hmove⟩ := filter_of_isEdit fun c hc => (hedits c hc).isEdit
  rw [ordered, hchanges, List.filter_append, List.filter_append, List.filter_append, hall, hcreate,
    hmove]
  simp [isCreate, isEdit, isMove]

theorem apply_edits_ok (hfree : t.top.LinkFree) (hchanges : cs.changes = edits ++ [.move source target])
    (hedits : ∀ c ∈ edits, c.IsPlainEdit) (hs : source.IsPlain) (hd : target.IsPlain) {n : Nat}
    (h : cs.apply root t = .ok n t') :
    ∃ t₁ t₂, t.Rewrites root edits t₁ ∧ t₁.Extends t₂ ∧
      t.view (t.place root ++ target.pieces) = none ∧
      (source.pieces = target.pieces ∨
        t₂.Moves (t.place root ++ source.pieces) (t.place root ++ target.pieces) t' ∧
          t₂.Steady t') := by
  obtain ⟨hcheck, hperform⟩ := apply_ok h
  rw [ordered_of_edits hchanges hedits] at hperform
  obtain ⟨m, t₁, k, hpre, hmove⟩ := performAll_append_ok hperform
  obtain ⟨_, t₃, _, hmove, hnil⟩ := performAll_cons_ok hmove
  cases hnil
  have hrewrites := rewrites_of_performAll hfree hedits hpre
  obtain ⟨t₂, a, b, hextends, ha, hb, hmoves⟩ := perform_move_ok (hrewrites.linkFree hfree) hmove
  have hworkdir : t₂.workdir = t.workdir := hextends.workdir.trans hrewrites.workdir
  rw [hs.bare_join] at ha
  rw [hd.bare_join] at hb
  obtain ⟨hsource, htarget⟩ :=
    check_move_ok (check_of_checkAll hcheck (.move source target) (by simp [hchanges]))
  have hfreeTarget := view_eq_none_of_not_isPresent hfree hs hd hsource htarget hb hworkdir
  have ha' := ha.eq_place_append hs
  have hb' := hb.eq_place_append hd
  rw [place_eq hworkdir] at ha' hb'
  refine ⟨t₁, t₂, hrewrites, hextends, hb' ▸ hfreeTarget, ?_⟩
  obtain ⟨heq, -, -⟩ | hmoves := hmoves
  · rw [ha', hb'] at heq
    exact .inl (List.append_cancel_left heq)
  · refine .inr ⟨?_, hmoves.steady hb⟩
    rw [← ha', ← hb']
    exact hmoves

theorem mem_of_append_eq {α : Type} {xs pre post : List α} {x c : α}
    (h : xs ++ [x] = pre ++ c :: post) : ∀ d ∈ pre, d ∈ xs := by
  obtain ⟨rest, rfl, hrest⟩ | ⟨rest, rfl, -⟩ := List.append_eq_append_iff.1 h
  · obtain rfl : rest = [] := by
      cases rest with
      | nil => rfl
      | cons r rest => simp at hrest
    simp
  · exact fun d hd => List.mem_append_left _ hd

theorem apply_edits_error (hfree : t.top.LinkFree)
    (hchanges : cs.changes = edits ++ [.move source target])
    (hedits : ∀ c ∈ edits, c.IsPlainEdit) {e : Error} (h : cs.apply root t = .error e t') :
    ∃ pre t₁, (∀ c ∈ pre, c ∈ edits) ∧ t.Rewrites root pre t₁ ∧ t₁.Extends t' := by
  obtain ⟨-, rfl⟩ | ⟨-, io, hperform⟩ := apply_error h
  · exact ⟨[], t', by simp, .nil t' root, .refl t'⟩
  rw [ordered_of_edits hchanges hedits] at hperform
  obtain ⟨pre, c, post, n, t₁, hsplit, hpre, hc⟩ := exists_of_performAll_error hperform
  have hsub := mem_of_append_eq hsplit
  have hrewrites := rewrites_of_performAll hfree (fun d hd => hedits d (hsub d hd)) hpre
  exact ⟨pre, t₁, hsub, hrewrites, extends_of_perform_error hc⟩

end ChangeSet

end Reroot

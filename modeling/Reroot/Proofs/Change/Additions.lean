import Reroot.Proofs.Change.Perform
import Reroot.Proofs.Project.Scan

namespace Reroot

namespace FileTree

variable {t t' t'' : FileTree} {root : Path} {Q : List String → Prop}

structure Gains (root : Path) (Q : List String → Prop) (t t' : FileTree) : Prop
    extends Grows t t' where
  fresh : ∀ q ∈ t'.filesUnder root, q ∈ t.filesUnder root ∨ Q q

theorem Gains.refl (t : FileTree) : Gains root Q t t :=
  ⟨.refl t, fun _ hq => .inl hq⟩

theorem Gains.trans (h : Gains root Q t t') (h' : Gains root Q t' t'') : Gains root Q t t'' :=
  ⟨h.toGrows.trans h'.toGrows, fun q hq => (h'.fresh q hq).elim (h.fresh q) .inr⟩

theorem Gains.mono {Q' : List String → Prop} (h : Gains root Q t t')
    (hQ : ∀ q, Q q → q ∈ t.filesUnder root ∨ Q' q) : Gains root Q' t t' :=
  ⟨h.toGrows, fun q hq => (h.fresh q hq).elim .inl (hQ q)⟩

theorem Gains.subset (h : Gains root Q t t') : t.filesUnder root ⊆ t'.filesUnder root := by
  rintro q ⟨hne, bytes, hview⟩
  rw [← place_eq h.workdir] at hview
  exact ⟨hne, h.file _ bytes hview⟩

theorem Extends.gains (h : t.Extends t') : Gains root Q t t' := by
  refine ⟨h.grows, ?_⟩
  rintro q ⟨hne, bytes, hview⟩
  rw [place_eq h.workdir] at hview
  by_cases hnone : t.view (t.place root ++ q) = none
  · obtain h' | h' := h.new _ hnone <;> rw [hview] at h' <;> cases h'
  · exact .inl ⟨hne, bytes, by rw [← h.kept _ hnone, hview]⟩

theorem gains_of_writeText {p : Path} {text : String} (hfree : t.top.LinkFree) (hp : p.IsPlain)
    (hQ : Q p.pieces) (h : writeText (root.join p) text t = .ok () t') : Gains root Q t t' := by
  obtain ⟨names, hreach, -, hputs⟩ := writeBytes_ok hfree h
  refine ⟨hputs.grows hreach, ?_⟩
  rintro q ⟨hne, bytes, hview⟩
  rw [place_eq hputs.workdir, hputs.view] at hview
  split at hview
  · next heq =>
    rw [hreach.eq_place_append hp] at heq
    exact .inr (List.append_cancel_left heq ▸ hQ)
  · exact .inl ⟨hne, bytes, hview⟩

end FileTree

namespace Change

open FileTree

variable {t t' : FileTree} {root : Path} {c : Change} {cs : List Change} {n : Nat}
  {Q : List String → Prop}

def PutsAt (Q : List String → Prop) : Change → Prop
  | .create p _ => p.IsPlain ∧ Q p.pieces
  | .edit p _ _ _ => p.IsPlain ∧ Q p.pieces
  | .move .. => False

theorem gains_of_perform (hfree : t.top.LinkFree) (hc : c.PutsAt Q)
    (h : c.perform root t = .ok n t') : Gains root Q t t' := by
  cases c with
  | move => exact hc.elim
  | edit p k expected updated =>
    obtain ⟨_, t₁, hwrite, h⟩ := exists_of_bind_ok h
    cases h
    exact gains_of_writeText hfree hc.1 hc.2 hwrite
  | create p content =>
    obtain ⟨-, -, rfl⟩ | ⟨-, -, u, hparents, hwrite⟩ := perform_create_ok h
    · exact .refl _
    · have hextends := (widening_makeParents _).ok hparents
      exact hextends.gains.trans
        (gains_of_writeText (hextends.linkFree hfree) hc.1 hc.2 hwrite)

theorem gains_of_performAll (hfree : t.top.LinkFree) (hcs : ∀ c ∈ cs, c.PutsAt Q)
    (h : performAll root cs t = .ok n t') : Gains root Q t t' := by
  refine related_of_performAll (J := fun cs t => t.top.LinkFree ∧ ∀ c ∈ cs, c.PutsAt Q)
    .refl .trans (fun {c cs t u m} hinv hfirst => ?_) ⟨hfree, hcs⟩ h
  obtain ⟨hfree, hcs⟩ := hinv
  obtain ⟨hc, hcs⟩ := List.forall_mem_cons.1 hcs
  have hgains := gains_of_perform hfree hc hfirst
  exact ⟨hgains, hgains.linkFree hfree, hcs⟩

end Change

namespace ChangeSet

open FileTree Change

variable {t t' : FileTree} {root : Path} {cs : ChangeSet} {Q : List String → Prop}

theorem gains_of_apply {n : Nat} (hfree : t.top.LinkFree) (hcs : ∀ c ∈ cs.changes, c.PutsAt Q)
    (h : cs.apply root t = .ok n t') : Gains root Q t t' :=
  gains_of_performAll hfree (fun c hc => hcs c (mem_changes_of_mem_ordered hc)) (apply_ok h).2

theorem gains_of_apply_error {e : Error} (hfree : t.top.LinkFree)
    (hcs : ∀ c ∈ cs.changes, c.PutsAt Q) (h : cs.apply root t = .error e t') :
    Gains root Q t t' := by
  obtain ⟨-, rfl⟩ | ⟨-, io, hperform⟩ := apply_error h
  · exact .refl _
  obtain ⟨pre, c, post, n, t₁, hordered, hpre, hc⟩ := exists_of_performAll_error hperform
  have hmem : ∀ d ∈ pre, d.PutsAt Q := fun d hd =>
    hcs d (mem_changes_of_mem_ordered (by simp [hordered, hd]))
  have hgains := gains_of_performAll hfree hmem hpre
  exact hgains.trans (extends_of_perform_error hc).gains

end ChangeSet

end Reroot

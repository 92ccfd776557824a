import Reroot.Change.Apply
import Reroot.Proofs.Files.Operations

namespace Reroot

namespace FileTree

variable {t t' t'' : FileTree}

structure Steady (t t' : FileTree) : Prop where
  linkFree : t.top.LinkFree → t'.top.LinkFree
  tidy : t.top.Tidy → t'.top.Tidy
  workdir : t'.workdir = t.workdir

theorem Steady.refl (t : FileTree) : t.Steady t :=
  ⟨fun h => h, fun h => h, rfl⟩

theorem Steady.trans (h : t.Steady t') (h' : t'.Steady t'') : t.Steady t'' :=
  ⟨fun hfree => h'.linkFree (h.linkFree hfree), fun htidy => h'.tidy (h.tidy htidy),
    h'.workdir.trans h.workdir⟩

theorem Extends.steady (h : t.Extends t') : t.Steady t' :=
  ⟨h.linkFree, h.tidy, h.workdir⟩

theorem Puts.steady {names : List String} {bytes : ByteArray} {p : Path}
    (h : t.Puts names (.file bytes) t') (hreach : t.Reaches p names) : t.Steady t' :=
  ⟨fun hfree => h.linkFree hfree (by simp), fun htidy => h.tidy htidy (hreach.isName htidy),
    h.workdir⟩

theorem Moves.linkFree {a b : List String} (h : t.Moves a b t') (hfree : t.top.LinkFree) :
    t'.top.LinkFree := by
  intro ns target hlink
  have hview : t'.view ns = some (.link target) := hlink
  rw [h.view] at hview
  split at hview
  · exact hfree _ target hview
  · split at hview
    · cases hview
    · exact hfree _ target hview

theorem Moves.steady {a b : List String} {p : Path} (h : t.Moves a b t') (hreach : t.Reaches p b) :
    t.Steady t' :=
  ⟨h.linkFree, fun htidy => h.tidy htidy (hreach.isName htidy), h.workdir⟩

structure Grows (t t' : FileTree) : Prop extends Steady t t' where
  kept : ∀ ns, t.view ns ≠ none → t'.view ns ≠ none
  file : ∀ ns bytes, t.view ns = some (.file bytes) → ∃ bytes', t'.view ns = some (.file bytes')

theorem Grows.refl (t : FileTree) : t.Grows t :=
  ⟨.refl t, fun _ h => h, fun _ bytes h => ⟨bytes, h⟩⟩

theorem Grows.trans (h : t.Grows t') (h' : t'.Grows t'') : t.Grows t'' := by
  refine ⟨h.toSteady.trans h'.toSteady, fun ns hns => h'.kept ns (h.kept ns hns), ?_⟩
  intro ns bytes hns
  obtain ⟨bytes', hns'⟩ := h.file ns bytes hns
  exact h'.file ns bytes' hns'

theorem Extends.grows (h : t.Extends t') : t.Grows t' :=
  ⟨h.steady, fun ns hns => by rwa [h.kept ns hns],
    fun ns bytes hns => ⟨bytes, by rw [h.kept ns (by simp [hns]), hns]⟩⟩

theorem Puts.grows {names : List String} {bytes : ByteArray} {p : Path}
    (h : t.Puts names (.file bytes) t') (hreach : t.Reaches p names) : t.Grows t' := by
  refine ⟨h.steady hreach, fun ns hns => ?_, fun ns bytes' hns => ?_⟩
  · rw [h.view]
    split
    · simp
    · exact hns
  · rw [h.view]
    split
    · exact ⟨bytes, rfl⟩
    · exact ⟨bytes', hns⟩

end FileTree

namespace Change

open FileTree

variable {t t' : FileTree} {root : Path} {c : Change} {e : IoError} {n : Nat}

theorem widening_makeParents (p : Path) : Widening (makeParents p) := by
  unfold makeParents
  split
  · exact widening_makeDirs _
  · exact widening_pure ()

theorem perform_create_ok {p : Path} {content : String} (h : (create p content).perform root t = .ok n t') :
    t.isPresent (root.join p) = true ∧ n = 0 ∧ t' = t ∨ t.isPresent (root.join p) = false ∧ n = 1 ∧
      ∃ u, makeParents (root.join p) t = .ok () u ∧ writeText (root.join p) content u = .ok () t' := by
  obtain ⟨_, _, hget, h⟩ := exists_of_bind_ok h
  cases hget
  by_cases hpresent : t.isPresent (root.join p) = true
  · rw [if_pos hpresent] at h
    cases h
    exact .inl ⟨hpresent, rfl, rfl⟩
  · rw [if_neg hpresent] at h
    obtain ⟨_, u, hparents, h⟩ := exists_of_bind_ok h
    obtain ⟨_, _, hwrite, h⟩ := exists_of_bind_ok h
    cases h
    exact .inr ⟨by simpa using hpresent, rfl, u, hparents, hwrite⟩

theorem extends_of_perform_error (h : c.perform root t = .error e t') :
    t.Extends t' := by
  cases c with
  | create path content =>
    obtain h | ⟨_, _, hget, h⟩ := of_bind_error h
    · cases h
    cases hget
    by_cases hpresent : t.isPresent (root.join path) = true
    · rw [if_pos hpresent] at h
      cases h
    · rw [if_neg hpresent] at h
      obtain h | ⟨_, t₁, hparents, h⟩ := of_bind_error h
      · exact (widening_makeParents _).error h
      obtain h | ⟨_, _, -, h⟩ := of_bind_error h
      · rw [writeBytes_error h]
        exact (widening_makeParents _).ok hparents
      · cases h
  | edit path replacements expected updated =>
    obtain h | ⟨_, _, -, h⟩ := of_bind_error h
    · rw [writeBytes_error h]
      exact .refl t
    · cases h
  | move source target =>
    obtain h | ⟨_, t₁, hparents, h⟩ := of_bind_error h
    · exact (widening_makeParents _).error h
    obtain h | ⟨_, _, -, h⟩ := of_bind_error h
    · rw [rename_error h]
      exact (widening_makeParents _).ok hparents
    · cases h

theorem grows_of_writeText {p : Path} {text : String} (hfree : t.top.LinkFree)
    (h : writeText p text t = .ok () t') : t.Grows t' := by
  obtain ⟨names, hreach, -, hputs⟩ := writeBytes_ok hfree h
  exact hputs.grows hreach

theorem grows_of_perform (hfree : t.top.LinkFree) (hc : c.isMove = false)
    (h : c.perform root t = .ok n t') : t.Grows t' := by
  cases c with
  | create path content =>
    obtain ⟨-, -, rfl⟩ | ⟨-, -, u, hparents, hwrite⟩ := perform_create_ok h
    · exact .refl _
    · have hgrows := ((widening_makeParents _).ok hparents).grows
      exact hgrows.trans (grows_of_writeText (hgrows.linkFree hfree) hwrite)
  | edit path replacements expected updated =>
    obtain ⟨_, t₁, hwrite, h⟩ := exists_of_bind_ok h
    cases h
    exact grows_of_writeText hfree hwrite
  | move source target => cases hc

theorem perform_move_ok {source target : Path} (hfree : t.top.LinkFree)
    (h : (move source target).perform root t = .ok n t') :
    ∃ t₁ a b, t.Extends t₁ ∧ t₁.Reaches (root.join source).bare a ∧
      t₁.Reaches (root.join target).bare b ∧
      (a = b ∧ t₁.view a ≠ none ∧ t' = t₁ ∨ t₁.Moves a b t') := by
  obtain ⟨_, t₁, hparents, h⟩ := exists_of_bind_ok h
  obtain ⟨_, t₂, hrename, h⟩ := exists_of_bind_ok h
  cases h
  have hextends := (widening_makeParents _).ok hparents
  obtain ⟨a, b, ha, hb, hmoves⟩ := rename_ok (hextends.linkFree hfree) hrename
  exact ⟨t₁, a, b, hextends, ha, hb, hmoves⟩

theorem steady_of_perform (hfree : t.top.LinkFree) (h : c.perform root t = .ok n t') :
    t.Steady t' := by
  by_cases hc : c.isMove = false
  · exact (grows_of_perform hfree hc h).toSteady
  · cases c with
    | create | edit => exact absurd rfl hc
    | move source target =>
      obtain ⟨t₁, a, b, hextends, -, hb, ⟨-, -, rfl⟩ | hmoves⟩ := perform_move_ok hfree h
      · exact hextends.steady
      · exact hextends.steady.trans (hmoves.steady hb)

variable {cs pre post : List Change}

theorem performAll_cons_ok (h : performAll root (c :: cs) t = .ok n t') :
    ∃ m t₁ k, c.perform root t = .ok m t₁ ∧ performAll root cs t₁ = .ok k t' := by
  obtain ⟨m, t₁, hc, h⟩ := exists_of_bind_ok h
  obtain ⟨k, t₂, hcs, h⟩ := exists_of_bind_ok h
  cases h
  exact ⟨m, t₁, k, hc, hcs⟩

theorem related_of_performAll {R : FileTree → FileTree → Prop} {J : List Change → FileTree → Prop}
    (hrefl : ∀ t, R t t) (htrans : ∀ {t u v}, R t u → R u v → R t v)
    (hstep : ∀ {c cs t u m}, J (c :: cs) t → c.perform root t = .ok m u → R t u ∧ J cs u)
    (hcs : J cs t) (h : performAll root cs t = .ok n t') : R t t' := by
  induction cs generalizing t n with
  | nil =>
    cases h
    exact hrefl _
  | cons c cs ih =>
    obtain ⟨m, t₁, k, hfirst, hrest⟩ := performAll_cons_ok h
    obtain ⟨hrelated, hcs⟩ := hstep hcs hfirst
    exact htrans hrelated (ih hcs hrest)

theorem performAll_append_ok (h : performAll root (pre ++ cs) t = .ok n t') :
    ∃ m t₁ k, performAll root pre t = .ok m t₁ ∧ performAll root cs t₁ = .ok k t' := by
  induction pre generalizing t n with
  | nil => exact ⟨0, t, n, rfl, h⟩
  | cons c pre ih =>
    obtain ⟨m, t₁, k, hc, hrest⟩ := performAll_cons_ok h
    obtain ⟨m', t₂, k', hpre, hcs⟩ := ih hrest
    refine ⟨m + m', t₂, k', ?_, hcs⟩
    rw [performAll, bind_of_ok hc, bind_of_ok hpre]
    rfl

theorem performAll_append_error (hpre : performAll root pre t = .ok n t') {t'' : FileTree}
    (hc : c.perform root t' = .error e t'') :
    performAll root (pre ++ c :: post) t = .error e t'' := by
  induction pre generalizing t n with
  | nil =>
    cases hpre
    rw [List.nil_append, performAll, bind_of_error hc]
  | cons d pre ih =>
    obtain ⟨m, t₁, k, hd, hrest⟩ := performAll_cons_ok hpre
    rw [List.cons_append, performAll, bind_of_ok hd, bind_of_error (ih hrest)]

theorem exists_of_performAll_error (h : performAll root cs t = .error e t') :
    ∃ pre c post n t₁, cs = pre ++ c :: post ∧ performAll root pre t = .ok n t₁ ∧
      c.perform root t₁ = .error e t' := by
  induction cs generalizing t with
  | nil => cases h
  | cons c cs ih =>
    obtain h | ⟨m, t₁, hc, h⟩ := of_bind_error h
    · exact ⟨[], c, cs, 0, t, rfl, rfl, h⟩
    obtain h | ⟨k, t₂, -, h⟩ := of_bind_error h
    · obtain ⟨pre, d, post, n, t₂, rfl, hpre, hd⟩ := ih h
      refine ⟨c :: pre, d, post, m + n, t₂, rfl, ?_, hd⟩
      rw [performAll, bind_of_ok hc, bind_of_ok hpre]
      rfl
    · cases h

theorem grows_of_performAll (hfree : t.top.LinkFree) (hcs : ∀ c ∈ cs, c.isMove = false)
    (h : performAll root cs t = .ok n t') : t.Grows t' := by
  refine related_of_performAll (J := fun cs t => t.top.LinkFree ∧ ∀ c ∈ cs, c.isMove = false)
    .refl .trans (fun {c cs t u m} hinv hfirst => ?_) ⟨hfree, hcs⟩ h
  obtain ⟨hfree, hcs⟩ := hinv
  obtain ⟨hc, hcs⟩ := List.forall_mem_cons.1 hcs
  have hgrows := grows_of_perform hfree hc hfirst
  exact ⟨hgrows, hgrows.linkFree hfree, hcs⟩

theorem steady_of_performAll (hfree : t.top.LinkFree) (h : performAll root cs t = .ok n t') :
    t.Steady t' := by
  refine related_of_performAll (J := fun _ t => t.top.LinkFree) .refl .trans
    (fun {c cs t u m} hfree hfirst => ?_) hfree h
  have hsteady := steady_of_perform hfree hfirst
  exact ⟨hsteady, hsteady.linkFree hfree⟩

theorem check_of_checkAll (h : checkAll t root cs = .ok ()) : ∀ c ∈ cs, c.check t root = .ok () := by
  induction cs with
  | nil => simp
  | cons c cs ih =>
    rw [checkAll] at h
    split at h
    · next hc => exact List.forall_mem_cons.2 ⟨hc, ih h⟩
    · cases h

theorem check_create {path : Path} {content : String} : (create path content).check t root =
    if t.isPresent (root.join path) then
      match t.readText (root.join path) with
      | .error e => .error (.io e)
      | .ok text => if text = content then .ok () else .error (.apply (.differs path))
    else .ok () :=
  (rfl)

theorem check_create_ok_iff {p : Path} {content : String} : (create p content).check t root = .ok () ↔
    (t.isPresent (root.join p) = true → t.readText (root.join p) = .ok content) := by
  rw [check_create]
  split
  · next hpresent =>
    cases t.readText (root.join p) with
    | error => simp [hpresent]
    | ok text => by_cases htext : text = content <;> simp [hpresent, htext]
  · next habsent => simp [habsent]

theorem check_edit {path : Path} {k : Nat} {expected updated : String} :
    (edit path k expected updated).check t root =
      match t.readText (root.join path) with
      | .error e => .error (.apply (.unreadable path e))
      | .ok text => if text = expected then .ok () else .error (.apply (.modified path)) :=
  (rfl)

theorem check_move {source target : Path} : (move source target).check t root =
    if !t.isPresent (root.join source) then .error (.apply (.sourceAbsent source))
    else if t.isPresent (root.join target) then .error (.apply (.targetPresent target))
    else .ok () :=
  (rfl)

theorem check_move_ok {source target : Path} (h : (move source target).check t root = .ok ()) :
    t.isPresent (root.join source) = true ∧ t.isPresent (root.join target) = false := by
  rw [check_move] at h
  split at h
  · cases h
  · next hsource =>
    split at h
    · cases h
    · next htarget => exact ⟨by simpa using hsource, by simpa using htarget⟩

theorem view_eq_none_of_not_isPresent {source target : Path} {b : List String}
    (hfree : t.top.LinkFree) (hs : source.IsPlain) (hd : target.IsPlain)
    (hsource : t.isPresent (root.join source) = true)
    (htarget : t.isPresent (root.join target) = false)
    (hb : t'.Reaches (root.join target) b) (hw : t'.workdir = t.workdir) : t.view b = none := by
  by_contra hview
  obtain ⟨a, ha, -⟩ := (isPresent_iff hfree).1 hsource
  have hlead := ha.leads
  rw [steps_join hs, base_join hs] at hlead
  have hb' : b = t.place root ++ target.pieces := by
    rw [hb.eq_place_append hd, place_eq hw]
  have hshort : ∀ s ∈ target.pieces, s.utf8ByteSize ≤ 255 :=
    fun s hs => hb.leads.short s (by simp [steps_join hd, hs])
  have hreach : t.Reaches (root.join target) b := by
    refine ⟨hb.text_ne, ?_⟩
    rw [steps_join hd, base_join hd]
    refine hlead.append hs.named ?_
    rw [hb'] at hview ⊢
    exact .of_names hd.names hshort hview
  have := (isPresent_iff hfree).2 ⟨b, hreach, hview⟩
  rw [htarget] at this
  cases this

end Change

namespace ChangeSet

open FileTree Change

variable {t t' : FileTree} {root : Path} {cs : ChangeSet}

theorem mem_changes_of_mem_ordered {c : Change} (h : c ∈ cs.ordered) : c ∈ cs.changes := by
  simp only [ordered, List.mem_append, List.mem_filter] at h
  tauto

theorem apply_ok {n : Nat} (h : cs.apply root t = .ok n t') :
    checkAll t root cs.changes = .ok () ∧ performAll root cs.ordered t = .ok n t' := by
  obtain ⟨_, _, hget, h⟩ := exists_of_bind_ok h
  cases hget
  cases hcheck : checkAll t root cs.changes with
  | error e' =>
    rw [hcheck] at h
    cases h
  | ok u =>
    rw [hcheck] at h
    obtain ⟨_, _, hpure, h⟩ := exists_of_bind_ok h
    cases hpure
    rw [TreeM.ofFile] at h
    cases hp : performAll root cs.ordered t with
    | ok k t₁ =>
      rw [hp] at h
      cases h
      exact ⟨rfl, rfl⟩
    | error io t₁ =>
      rw [hp] at h
      cases h

theorem apply_error {e : Error} (h : cs.apply root t = .error e t') :
    (∃ e', checkAll t root cs.changes = .error e') ∧ t' = t ∨
      checkAll t root cs.changes = .ok () ∧ ∃ io, performAll root cs.ordered t = .error io t' := by
  obtain h | ⟨_, _, hget, h⟩ := of_bind_error h
  · cases h
  cases hget
  cases hcheck : checkAll t root cs.changes with
  | error e' =>
    rw [hcheck] at h
    cases h
    exact .inl ⟨⟨_, rfl⟩, rfl⟩
  | ok u =>
    rw [hcheck] at h
    refine .inr ⟨rfl, ?_⟩
    obtain h | ⟨_, _, hpure, h⟩ := of_bind_error h
    · cases h
    cases hpure
    rw [TreeM.ofFile] at h
    cases hp : performAll root cs.ordered t with
    | ok n t₁ =>
      rw [hp] at h
      cases h
    | error io t₁ =>
      rw [hp] at h
      cases h
      exact ⟨io, rfl⟩

end ChangeSet

end Reroot

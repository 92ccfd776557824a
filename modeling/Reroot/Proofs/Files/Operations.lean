import Reroot.Proofs.Files.Links

namespace Reroot

section Steps

variable {ε σ α β : Type} {x : EStateM ε σ α} {f : α → EStateM ε σ β} {s s' : σ} {a : α} {b : β}
  {e : ε}

theorem bind_of_ok (h : x s = .ok a s') : (x >>= f) s = f a s' := by
  change EStateM.bind x f s = _
  rw [EStateM.bind, h]

theorem bind_of_error (h : x s = .error e s') : (x >>= f) s = .error e s' := by
  change EStateM.bind x f s = _
  rw [EStateM.bind, h]

theorem exists_of_bind_ok (h : (x >>= f) s = .ok b s') :
    ∃ a s₁, x s = .ok a s₁ ∧ f a s₁ = .ok b s' := by
  change EStateM.bind x f s = _ at h
  unfold EStateM.bind at h
  split at h
  · next a s₁ hx => exact ⟨a, s₁, hx, h⟩
  · cases h

theorem of_bind_error (h : (x >>= f) s = .error e s') :
    x s = .error e s' ∨ ∃ a s₁, x s = .ok a s₁ ∧ f a s₁ = .error e s' := by
  change EStateM.bind x f s = _ at h
  unfold EStateM.bind at h
  split at h
  · next a s₁ hx => exact .inr ⟨a, s₁, hx, h⟩
  · next e' s₁ hx =>
    cases h
    exact .inl hx

end Steps

namespace FileTree

open Reroot.Path (IsName)

variable {t t' : FileTree} {p : Path} {e : IoError}

theorem orThrow_ok {α : Type} {x : Except OsError α} {a : α} (h : orThrow x t = .ok a t') :
    x = .ok a ∧ t = t' := by
  cases x with
  | error cause => cases h
  | ok a' =>
    cases h
    exact ⟨rfl, rfl⟩

theorem orThrow_error {α : Type} {x : Except OsError α} (h : orThrow x t = .error e t') : t' = t := by
  cases x with
  | error cause =>
    cases h
    rfl
  | ok a' => cases h

structure Puts (t : FileTree) (names : List String) (s : Shape) (t' : FileTree) : Prop where
  view : ∀ ms, t'.view ms = if ms = names then some s else t.view ms
  workdir : t'.workdir = t.workdir
  tidy : t.top.Tidy → (∀ n ∈ names, IsName n) → t'.top.Tidy

theorem Puts.linkFree {names : List String} {s : Shape} (h : t.Puts names s t')
    (hfree : t.top.LinkFree) (hs : ∀ target, s ≠ .link target) : t'.top.LinkFree := by
  intro ns target hlink
  have hview : t'.view ns = some (.link target) := hlink
  rw [h.view] at hview
  split at hview
  · exact hs target (Option.some.inj hview)
  · exact hfree ns target hview

theorem view_below_eq_none {names rest : List String} (h : t.view names ≠ some .dir)
    (hrest : rest ≠ []) : t.view (names ++ rest) = none := by
  by_contra hne
  exact h (Entry.view_eq_dir_of_append hrest hne)

theorem puts_of_put {names : List String} {x : Entry} (hx : ∀ n ns, x.view (n :: ns) = none)
    (htidy : x.Tidy)
    (hroom : t.view names = none → names ≠ [] ∧ t.view names.dropLast = some .dir)
    (hdir : t.view names ≠ some .dir) :
    t.Puts names x.shape (t.setTop (t.top.put names x)) := by
  refine ⟨fun ms => ?_, rfl, fun h hnames => h.put htidy hnames⟩
  have hroom' : names = [] ∨ t.top.view names.dropLast = some .dir := by
    by_cases hnone : t.view names = none
    · exact .inr (hroom hnone).2
    · by_cases hnil : names = []
      · exact .inl hnil
      · refine .inr (Entry.view_eq_dir_of_append (List.cons_ne_nil (names.getLast hnil) []) ?_)
        rwa [List.dropLast_append_getLast hnil]
  rw [view, setTop, Entry.view_put hroom']
  split
  · next hprefix =>
    obtain ⟨rest, rfl⟩ := hprefix
    rw [List.drop_left]
    cases rest with
    | nil => simp
    | cons n ns =>
      rw [hx, if_neg (by simp), view_below_eq_none hdir (by simp)]
  · next hprefix =>
    rw [if_neg]
    · rfl
    · rintro rfl
      exact hprefix List.prefix_rfl

theorem view_eq_of_entry {names : List String} {x : Entry} (h : t.top.at? names = some x) :
    t.view names = some x.shape := by
  rw [view, Entry.view, h]
  rfl

theorem writeBytes_error {bytes : ByteArray} (h : writeBytes p bytes t = .error e t') : t' = t := by
  obtain h | ⟨_, _, hget, h⟩ := of_bind_error h
  · cases h
  cases hget
  obtain h | ⟨⟨names, entry⟩, _, hplace, h⟩ := of_bind_error h
  · exact orThrow_error h
  obtain ⟨-, rfl⟩ := orThrow_ok hplace
  by_cases hslashed : p.isSlashed = true
  · rw [if_pos hslashed] at h
    cases h
    rfl
  · rw [if_neg hslashed] at h
    cases entry with
    | none => cases h
    | some x =>
      cases x with
      | file | link => cases h
      | dir es =>
        cases h
        rfl

theorem writeBytes_resolve {bytes : ByteArray} (h : writeBytes p bytes t = .ok () t') :
    ∃ place, t.resolve p true = .ok place ∧ t.view place.names ≠ some .dir ∧
      t.Puts place.names (.file bytes) t' := by
  obtain ⟨_, _, hget, h⟩ := exists_of_bind_ok h
  cases hget
  obtain ⟨⟨names, entry⟩, _, hplace, h⟩ := exists_of_bind_ok h
  obtain ⟨hresolve, rfl⟩ := orThrow_ok hplace
  by_cases hslashed : p.isSlashed = true
  · rw [if_pos hslashed] at h
    cases h
  rw [if_neg hslashed] at h
  rw [Bool.not_eq_true] at hslashed
  rw [Path.bare_of_isSlashed_eq_false hslashed, hslashed] at hresolve
  have hview : FileTree.view t names = entry.map Entry.shape := by
    rw [view, Entry.view, ← entry_of_resolve hresolve]
  have hputs (hdir : FileTree.view t names ≠ some .dir) :=
    puts_of_put (t := t) (x := .file bytes) (fun n ns => rfl) (.file bytes)
      (fun hnone => room_of_resolve hresolve (Option.map_eq_none_iff.1 (hview ▸ hnone))) hdir
  refine ⟨⟨names, entry⟩, hresolve, ?_⟩
  cases entry with
  | none =>
    cases h
    exact ⟨by simp [hview], hputs (by simp [hview])⟩
  | some x =>
    cases x with
    | file bytes' =>
      cases h
      exact ⟨by simp [hview, Entry.shape], hputs (by simp [hview, Entry.shape])⟩
    | link target => exact absurd rfl (not_link_of_resolve hresolve target)
    | dir es => cases h

theorem writeBytes_ok {bytes : ByteArray} (hfree : t.top.LinkFree)
    (h : writeBytes p bytes t = .ok () t') :
    ∃ names, t.Reaches p names ∧ t.view names ≠ some .dir ∧ t.Puts names (.file bytes) t' := by
  obtain ⟨place, hresolve, hdir, hputs⟩ := writeBytes_resolve h
  exact ⟨place.names, (reaches_of_resolve hfree hresolve).1, hdir, hputs⟩

theorem makeDir_error (h : makeDir p t = .error e t') : t' = t := by
  obtain h | ⟨_, _, hget, h⟩ := of_bind_error h
  · cases h
  cases hget
  obtain h | ⟨⟨names, entry⟩, _, hplace, h⟩ := of_bind_error h
  · exact orThrow_error h
  obtain ⟨-, rfl⟩ := orThrow_ok hplace
  cases entry with
  | none => cases h
  | some x =>
    cases h
    rfl

theorem makeDir_ok (h : makeDir p t = .ok () t') :
    ∃ place, t.resolve p.bare false = .ok place ∧ t.view place.names = none ∧
      t.Puts place.names .dir t' := by
  obtain ⟨_, _, hget, h⟩ := exists_of_bind_ok h
  cases hget
  obtain ⟨⟨names, entry⟩, _, hplace, h⟩ := exists_of_bind_ok h
  obtain ⟨hresolve, rfl⟩ := orThrow_ok hplace
  cases entry with
  | some x => cases h
  | none =>
    cases h
    have hview : FileTree.view t names = none := by
      rw [view, Entry.view, ← entry_of_resolve hresolve]
      rfl
    exact ⟨⟨names, none⟩, hresolve, hview, puts_of_put (x := .dir []) (fun n ns => rfl)
      Entry.tidy_empty (fun _ => room_of_resolve hresolve rfl) (by simp [hview])⟩

structure Extends (t t' : FileTree) : Prop where
  kept : ∀ ns, t.view ns ≠ none → t'.view ns = t.view ns
  new : ∀ ns, t.view ns = none → t'.view ns = none ∨ t'.view ns = some .dir
  workdir : t'.workdir = t.workdir
  tidy : t.top.Tidy → t'.top.Tidy
  same : (∀ ns, t.view ns = none → t'.view ns = none) → t' = t

theorem Extends.refl (t : FileTree) : t.Extends t :=
  ⟨fun _ _ => rfl, fun _ h => .inl h, rfl, fun h => h, fun _ => rfl⟩

theorem Extends.trans {a b c : FileTree} (hab : a.Extends b) (hbc : b.Extends c) : a.Extends c := by
  refine ⟨fun ns h => ?_, fun ns h => ?_, hbc.workdir.trans hab.workdir,
    fun h => hbc.tidy (hab.tidy h), fun h => ?_⟩
  · have hb := hab.kept ns h
    rw [hbc.kept ns (hb ▸ h), hb]
  · obtain hb | hb := hab.new ns h
    · exact hbc.new ns hb
    · exact .inr (by rw [hbc.kept ns (by simp [hb]), hb])
  · have hb : b = a := hab.same fun ns hns => by
      by_contra hne
      exact hne (by rw [← hbc.kept ns hne]; exact h ns hns)
    subst hb
    exact hbc.same h

theorem Extends.linkFree (h : t.Extends t') (hfree : t.top.LinkFree) : t'.top.LinkFree := by
  intro ns target hlink
  have hview : t'.view ns = some (.link target) := hlink
  by_cases hns : t.view ns = none
  · obtain hn | hn := h.new ns hns <;> rw [hview] at hn <;> cases hn
  · rw [h.kept ns hns] at hview
    exact hfree ns target hview

theorem Puts.extends {names : List String} (h : t.Puts names .dir t')
    (hnames : t.top.Tidy → ∀ n ∈ names, IsName n) (hnone : t.view names = none) : t.Extends t' := by
  refine ⟨fun ns hns => ?_, fun ns hns => ?_, h.workdir, fun htidy => h.tidy htidy (hnames htidy),
    fun hsame => ?_⟩
  · rw [h.view, if_neg]
    rintro rfl
    exact hns hnone
  · rw [h.view]
    split
    · exact .inr rfl
    · exact .inl hns
  · have := hsame names hnone
    rw [h.view, if_pos rfl] at this
    cases this

def Widening {α : Type} (x : FileM α) : Prop :=
  ∀ t : FileTree,
    match x t with
    | .ok _ t' => t.Extends t'
    | .error _ t' => t.Extends t'

section Widening

variable {α β : Type} {x : FileM α} {f : α → FileM β}

theorem Widening.ok (h : Widening x) {a : α} (hx : x t = .ok a t') : t.Extends t' := by
  have := h t
  rwa [hx] at this

theorem Widening.error (h : Widening x) (hx : x t = .error e t') : t.Extends t' := by
  have := h t
  rwa [hx] at this

theorem widening_pure (a : α) : Widening (pure a : FileM α) :=
  fun t => .refl t

theorem widening_throw (e : IoError) : Widening (throw e : FileM α) :=
  fun t => .refl t

theorem widening_get : Widening (get : FileM FileTree) :=
  fun t => .refl t

theorem Widening.bind (hx : Widening x) (hf : ∀ a, Widening (f a)) : Widening (x >>= f) := by
  intro t
  cases hr : (x >>= f) t with
  | ok b t' =>
    obtain ⟨a, t₁, h₁, h₂⟩ := exists_of_bind_ok hr
    exact (hx.ok h₁).trans ((hf a).ok h₂)
  | error e t' =>
    obtain h₁ | ⟨a, t₁, h₁, h₂⟩ := of_bind_error hr
    · exact hx.error h₁
    · exact (hx.ok h₁).trans ((hf a).error h₂)

theorem Widening.tryCatch {g : IoError → FileM α} (hx : Widening x) (hg : ∀ e, Widening (g e)) :
    Widening (MonadExcept.tryCatch x g) := by
  intro t
  have hcatch : (MonadExcept.tryCatch x g : FileM α) t =
      match x t with
      | .error e t' => g e t'
      | .ok a t' => .ok a t' := by
    change EStateM.tryCatch x g t = _
    unfold EStateM.tryCatch
    cases x t <;> rfl
  rw [hcatch]
  cases h₁ : x t with
  | ok a t' => exact hx.ok h₁
  | error e t' =>
    have h := hx.error h₁
    have h' := hg e t'
    dsimp only
    cases h₂ : g e t' with
    | ok a t'' =>
      rw [h₂] at h'
      exact h.trans h'
    | error e' t'' =>
      rw [h₂] at h'
      exact h.trans h'

theorem widening_makeDir (p : Path) : Widening (makeDir p) := by
  intro t
  cases h : makeDir p t with
  | ok u t' =>
    obtain ⟨place, hresolve, hnone, hputs⟩ := makeDir_ok h
    exact hputs.extends (fun htidy => isName_of_resolve htidy hresolve) hnone
  | error e t' =>
    rw [makeDir_error h]
    exact .refl t

theorem widening_makeDirsLoop (fuel : Nat) (p : Path) : Widening (makeDirsLoop fuel p) := by
  induction fuel generalizing p with
  | zero =>
    unfold makeDirsLoop
    split
    · exact widening_pure ()
    · exact widening_makeDir p
  | succ fuel ih =>
    have again (e : IoError) :
        Widening (do if (← get).isDir p then pure () else throw e : FileM Unit) := by
      refine widening_get.bind fun t => ?_
      split
      · exact widening_pure ()
      · exact widening_throw e
    unfold makeDirsLoop
    split
    · exact widening_pure ()
    · refine (widening_makeDir p).tryCatch fun e => ?_
      split
      · split
        · exact (ih _).bind fun _ => (widening_makeDir p).tryCatch again
        · exact widening_throw _
      · exact again _

theorem widening_makeDirs (p : Path) : Widening (makeDirs p) :=
  widening_makeDirsLoop _ p

end Widening

structure Moves (t : FileTree) (a b : List String) (t' : FileTree) : Prop where
  apart : ¬a <+: b ∧ ¬b <+: a
  taken : t.view a ≠ none
  clear : ∀ rest, rest ≠ [] → t.view (b ++ rest) = none
  view : ∀ ms, t'.view ms =
    if b <+: ms then t.view (a ++ ms.drop b.length) else if a <+: ms then none else t.view ms
  workdir : t'.workdir = t.workdir
  tidy : t.top.Tidy → (∀ n ∈ b, IsName n) → t'.top.Tidy

theorem moves_of_put {a b : List String} {x : Entry} (ha : t.top.at? a = some x)
    (hab : ¬a <+: b) (hba : ¬b <+: a) (hclear : ∀ rest, rest ≠ [] → t.view (b ++ rest) = none)
    (hroom : t.view b = none → b ≠ [] ∧ t.view b.dropLast = some .dir) :
    t.Moves a b (t.setTop ((t.top.remove a).put b x)) := by
  have hane : a ≠ [] := by
    rintro rfl
    exact hab List.nil_prefix
  have hbne : b ≠ [] := by
    rintro rfl
    exact hba List.nil_prefix
  have hparent : t.top.view b.dropLast = some .dir := by
    by_cases hnone : t.view b = none
    · exact (hroom hnone).2
    · refine Entry.view_eq_dir_of_append (List.cons_ne_nil (b.getLast hbne) []) ?_
      rwa [List.dropLast_append_getLast hbne]
  -- The directory above the target is not taken away with the source.
  have hroom' : (t.top.remove a).view b.dropLast = some .dir := by
    rw [Entry.view_remove hane, if_neg, hparent]
    exact fun h => hab (h.trans (List.dropLast_prefix b))
  refine ⟨⟨hab, hba⟩, by simp [view_eq_of_entry ha], hclear, fun ms => ?_, rfl,
    fun h hb => (h.remove a).put (h.at? ha).2 hb⟩
  rw [view, setTop, Entry.view_put (.inr hroom'), Entry.view_remove hane]
  split
  · rw [Entry.view, view, Entry.view, Entry.at?_append, ha, Option.bind_some]
  · rfl

theorem view_cons_of_fits {x y : Entry} (h : fits x (some y) = .ok ()) (n : String)
    (ns : List String) : y.view (n :: ns) = none := by
  cases y with
  | file | link => rfl
  | dir es =>
    cases es with
    | nil => rfl
    | cons p es => cases x <;> cases h

theorem renamed_ok {source target : Path} {a b : Place}
    (ha : a.entry = t.top.at? a.names) (hb : b.entry = t.top.at? b.names)
    (hroom : t.view b.names = none → b.names ≠ [] ∧ t.view b.names.dropLast = some .dir)
    (h : t.renamed source target a b = .ok t') :
    a.names = b.names ∧ t.view a.names ≠ none ∧ t' = t ∨ t.Moves a.names b.names t' := by
  unfold renamed at h
  split at h
  · cases h
  split at h
  · cases h
  next x hx =>
  have hx := ha ▸ hx
  split at h
  · cases h
  split at h
  · next heq =>
    cases h
    exact .inl ⟨heq, by simp [view_eq_of_entry hx], rfl⟩
  split at h
  · cases h
  next hab =>
  split at h
  · cases h
  next hba =>
  split at h
  · cases h
  next hfits =>
  cases h
  refine .inr (moves_of_put hx (by simpa using hab) (by simpa using hba) (fun rest hrest => ?_) hroom)
  obtain ⟨n, ns, rfl⟩ := List.exists_cons_of_ne_nil hrest
  rw [view, Entry.view, Entry.at?_append, ← hb]
  cases hy : b.entry with
  | none => rfl
  | some y =>
    rw [hy] at hfits
    exact view_cons_of_fits hfits n ns

theorem rename_error {source target : Path} (h : rename source target t = .error e t') : t' = t := by
  obtain h | ⟨_, _, hget, h⟩ := of_bind_error h
  · cases h
  cases hget
  obtain h | ⟨a, _, hplace, h⟩ := of_bind_error h
  · exact orThrow_error h
  obtain ⟨-, rfl⟩ := orThrow_ok hplace
  obtain h | ⟨b, _, hplace, h⟩ := of_bind_error h
  · exact orThrow_error h
  obtain ⟨-, rfl⟩ := orThrow_ok hplace
  obtain h | ⟨_, _, -, h⟩ := of_bind_error h
  · exact orThrow_error h
  · cases h

theorem rename_resolve {source target : Path} (h : rename source target t = .ok () t') :
    ∃ a b, t.resolve source.bare false = .ok a ∧ t.resolve target.bare false = .ok b ∧
      (a.names = b.names ∧ t.view a.names ≠ none ∧ t' = t ∨ t.Moves a.names b.names t') := by
  obtain ⟨_, _, hget, h⟩ := exists_of_bind_ok h
  cases hget
  obtain ⟨a, _, hplace, h⟩ := exists_of_bind_ok h
  obtain ⟨hsource, rfl⟩ := orThrow_ok hplace
  obtain ⟨b, _, hplace, h⟩ := exists_of_bind_ok h
  obtain ⟨htarget, rfl⟩ := orThrow_ok hplace
  obtain ⟨t₁, _, hplace, h⟩ := exists_of_bind_ok h
  obtain ⟨hrenamed, rfl⟩ := orThrow_ok hplace
  cases h
  have hentry := entry_of_resolve htarget
  refine ⟨a, b, hsource, htarget, renamed_ok (entry_of_resolve hsource) hentry (fun hnone => ?_) hrenamed⟩
  exact room_of_resolve htarget (hentry.trans (Option.map_eq_none_iff.1 hnone))

theorem rename_ok (hfree : t.top.LinkFree) {source target : Path}
    (h : rename source target t = .ok () t') :
    ∃ a b, t.Reaches source.bare a ∧ t.Reaches target.bare b ∧
      (a = b ∧ t.view a ≠ none ∧ t' = t ∨ t.Moves a b t') := by
  obtain ⟨a, b, hsource, htarget, hmoves⟩ := rename_resolve h
  exact ⟨a.names, b.names, (reaches_of_resolve hfree hsource).1, (reaches_of_resolve hfree htarget).1,
    hmoves⟩

end FileTree

end Reroot

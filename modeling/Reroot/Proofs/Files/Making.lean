import Reroot.Proofs.Files.Operations

namespace Reroot

section Steps

variable {ε σ α : Type} {x : EStateM ε σ α} {g : ε → EStateM ε σ α} {s s' : σ} {a : α} {e : ε}

theorem tryCatch_of_ok (h : x s = .ok a s') : (MonadExcept.tryCatch x g : EStateM ε σ α) s = .ok a s' := by
  change EStateM.tryCatch x g s = _
  unfold EStateM.tryCatch
  rw [h]

theorem tryCatch_of_error (h : x s = .error e s') :
    (MonadExcept.tryCatch x g : EStateM ε σ α) s = g e s' := by
  change EStateM.tryCatch x g s = _
  unfold EStateM.tryCatch
  rw [h]
  rfl

theorem of_tryCatch_ok (h : (MonadExcept.tryCatch x g : EStateM ε σ α) s = .ok a s') :
    x s = .ok a s' ∨ ∃ e s₁, x s = .error e s₁ ∧ g e s₁ = .ok a s' := by
  cases hx : x s with
  | ok b s₁ => exact .inl ((tryCatch_of_ok hx).symm.trans h)
  | error e s₁ => exact .inr ⟨e, s₁, rfl, (tryCatch_of_error hx).symm.trans h⟩

end Steps

namespace FileTree

open Reroot.Path (IsName)

section Normal

variable {t : FileTree} {root p q : Path} {base ns : List String} {top : Entry} {follow : Bool} {n : Nat}
  {here as bs : List String}

theorem resolveWith_filter {onLink : List String → List String → Except OsError Place} {s : String}
    (hlink : ∀ start as, onLink start (as.filter (· != ".") ++ s :: bs) = onLink start (as ++ s :: bs)) :
    resolveWith top follow onLink here (as.filter (· != ".") ++ s :: bs) =
      resolveWith top follow onLink here (as ++ s :: bs) := by
  induction as generalizing here with
  | nil => rfl
  | cons a as ih =>
    by_cases hdot : a = "."
    · subst hdot
      rw [List.filter_cons_of_neg (by simp), ih, List.cons_append]
      cases hat : top.at? here with
      | none => cases as <;> simp [resolveWith, hat]
      | some e =>
        cases e with
        | dir es => simp [resolveWith, hat]
        | file | link => cases as <;> simp [resolveWith, hat]
    · have honward (target : String) (start : List String) :
          onLink start (steps target ++ (as.filter (· != ".") ++ s :: bs)) =
            onLink start (steps target ++ (as ++ s :: bs)) := by
        rw [← List.append_assoc, ← List.append_assoc, ← hlink, List.filter_append, List.filter_filter,
          ← hlink start (steps target ++ as), List.filter_append]
        simp
      have hmore (as : List String) : (as ++ s :: bs).isEmpty = false := by cases as <;> rfl
      rw [List.filter_cons_of_pos (by simpa using hdot), List.cons_append, List.cons_append, resolveWith,
        resolveWith]
      simp only [ih, honward, hmore]

theorem resolveSteps_filter {s : String} : resolveSteps top follow n here (as.filter (· != ".") ++ s :: bs) =
    resolveSteps top follow n here (as ++ s :: bs) := by
  induction n generalizing here as with
  | zero => exact resolveWith_filter fun _ _ => rfl
  | succ n ih => exact resolveWith_filter fun _ _ => ih

theorem resolve_of_isNamed (hp : p.isSlashed = false) (hnamed : p.isNamed = true) :
    t.resolve p follow = resolveSteps t.top follow 40 (t.base p) (p.pieces.filter (· != ".")) := by
  obtain ⟨as, s, hpieces⟩ : ∃ as s, p.pieces = as ++ [s] := by
    refine (List.eq_nil_or_concat' p.pieces).resolve_left fun hnil => ?_
    simp [Path.isNamed, hnil] at hnamed
  have hs : s ≠ "." := by
    simp only [Path.isNamed, hpieces, List.getLast?_concat, Bool.and_eq_true, bne_iff_ne] at hnamed
    exact hnamed.1
  have htext : p.text ≠ "" := by
    intro htext
    rw [Path.pieces, htext] at hpieces
    exact absurd hpieces.symm (by simp [Text.split, Text.splitAt])
  have hsteps : steps p.text = as ++ [s] := by
    rw [steps, if_neg (by simp [hp]), hpieces]
  have hlast : [s].filter (· != ".") = [s] := List.filter_eq_self.2 (by simpa using hs)
  rw [resolve, if_neg (by simpa using htext), hsteps, hpieces, List.filter_append, hlast,
    resolveSteps_filter]
  rfl

theorem resolve_congr (hparts : p.parts = q.parts) (hp : p.isSlashed = false) (hq : q.isSlashed = false)
    (hpn : p.isNamed = true) (hqn : q.isNamed = true) : t.resolve p follow = t.resolve q follow := by
  obtain ⟨habsolute, hsame⟩ := Path.parts_eq_iff.1 hparts
  rw [resolve_of_isNamed hp hpn, resolve_of_isNamed hq hqn, ← Path.filter_normalPieces, hsame,
    Path.filter_normalPieces, base, base, habsolute]

theorem resolve_normal (h : t.RootAt root base) (hne : ns ≠ []) (hns : ∀ n ∈ ns, IsName n)
    (follow : Bool) : ∃ n, t.resolve (root.join (Path.ofNames ns)).normal follow =
      resolveSteps t.top follow n base ns := by
  have hplain := Path.isPlain_ofNames hne hns
  have hpieces : (root.join (Path.ofNames ns)).normalPieces ≠ [] := by
    simp [Path.normalPieces_join hns, hne]
  obtain ⟨n, hn⟩ := h.resolve_join hplain follow
  refine ⟨n, ?_⟩
  rw [resolve_congr (Path.parts_normal _) (Path.isSlashed_normal hpieces) hplain.isSlashed_join
    (Path.isNamed_normal_join hne hns) hplain.isNamed_join, hn, Path.pieces_ofNames hns]

theorem bare_normal (hne : ns ≠ []) (hns : ∀ n ∈ ns, IsName n) :
    (root.join (Path.ofNames ns)).normal.bare = (root.join (Path.ofNames ns)).normal :=
  Path.bare_of_isSlashed_eq_false
    (Path.isSlashed_normal (by simp [Path.normalPieces_join hns, hne]))

end Normal

section Directories

variable {t : FileTree} {p root : Path} {base ns : List String}

theorem orThrow_of_ok {α : Type} {x : Except OsError α} {a : α} (h : x = .ok a) :
    orThrow x t = .ok a t := by
  rw [h]
  rfl

theorem orThrow_of_error {α : Type} {x : Except OsError α} {cause : OsError} (h : x = .error cause) :
    orThrow x t = .error (.os cause) t := by
  rw [h]
  rfl

theorem makeDir_of_free {names : List String} (h : t.resolve p.bare false = .ok ⟨names, none⟩) :
    ∃ t', makeDir p t = .ok () t' :=
  ⟨_, (bind_of_ok rfl).trans (bind_of_ok (orThrow_of_ok h))⟩

theorem makeDir_of_taken {names : List String} {e : Entry}
    (h : t.resolve p.bare false = .ok ⟨names, some e⟩) :
    makeDir p t = .error (.os .alreadyExists) t :=
  (bind_of_ok rfl).trans (bind_of_ok (orThrow_of_ok h))

theorem makeDir_of_error {cause : OsError} (h : t.resolve p.bare false = .error cause) :
    makeDir p t = .error (.os cause) t :=
  (bind_of_ok rfl).trans (bind_of_error (orThrow_of_error h))

theorem isDir_of_resolve {names : List String} {es : Entry.Listing}
    (h : t.resolve p true = .ok ⟨names, some (.dir es)⟩) : t.isDir p = true := by
  rw [isDir, entry?, h]
  rfl

def Open (t : FileTree) (base ns : List String) : Prop :=
  ∀ pre, pre <+: ns → t.view (base ++ pre) = none ∨ t.view (base ++ pre) = some .dir

theorem resolveSteps_notFound {top : Entry} {follow : Bool} {n : Nat} {here : List String}
    (hnames : ∀ a ∈ ns, a ≠ "." ∧ a ≠ "..") (hshort : ∀ a ∈ ns, a.utf8ByteSize ≤ 255)
    (hhere : top.view here = some .dir)
    (hopen : ∀ pre, pre <+: ns → top.view (here ++ pre) = none ∨ top.view (here ++ pre) = some .dir)
    (hmissing : top.view (here ++ ns.dropLast) = none) :
    resolveSteps top follow n here ns = .error .notFound := by
  induction ns generalizing here with
  | nil => simp [hhere] at hmissing
  | cons s rest ih =>
    obtain ⟨hs, hnames⟩ := List.forall_mem_cons.1 hnames
    obtain ⟨hsshort, hshort⟩ := List.forall_mem_cons.1 hshort
    have henters : Enters top here s := ⟨hhere, hs.1, hs.2, hsshort⟩
    have hrest : rest ≠ [] := by
      rintro rfl
      simp [hhere] at hmissing
    obtain hnone | hdir := hopen [s] (by simp)
    · rw [resolveSteps_free henters hnone, if_neg (by simpa using hrest)]
    · rw [resolveSteps_down henters (by simp [hdir]) (by simp [hdir])]
      refine ih hnames hshort hdir (fun pre hpre => ?_) ?_
      · simpa using hopen (s :: pre) (by simpa using hpre)
      · rw [List.append_assoc, List.singleton_append, ← List.dropLast_cons_of_ne_nil hrest]
        exact hmissing

structure MakesTo (t : FileTree) (names : List String) (t' : FileTree) : Prop where
  view : t'.view names = some .dir
  frame : ∀ ms, ¬ms <+: names → t'.view ms = t.view ms

section Loop

variable {fuel : Nat} {u : FileTree} (hp : p.text ≠ "")

include hp

theorem makeDirsLoop_of_ok (h : makeDir p t = .ok () u) : makeDirsLoop (fuel + 1) p t = .ok () u := by
  rw [makeDirsLoop, if_neg (by simpa using hp)]
  exact tryCatch_of_ok h

theorem makeDirsLoop_of_taken (h : makeDir p t = .error (.os .alreadyExists) t)
    (hdir : t.isDir p = true) : makeDirsLoop (fuel + 1) p t = .ok () t := by
  rw [makeDirsLoop, if_neg (by simpa using hp)]
  refine (tryCatch_of_error h).trans ((bind_of_ok rfl).trans ?_)
  rw [if_pos hdir]
  rfl

theorem makeDirsLoop_of_parent {parent : Path} {t₁ : FileTree}
    (h : makeDir p t = .error (.os .notFound) t) (hparent : p.parent? = some parent)
    (hloop : makeDirsLoop fuel parent t = .ok () t₁) (hmake : makeDir p t₁ = .ok () u) :
    makeDirsLoop (fuel + 1) p t = .ok () u := by
  rw [makeDirsLoop, if_neg (by simpa using hp)]
  refine (tryCatch_of_error h).trans ?_
  simp only [hparent]
  exact (bind_of_ok hloop).trans (tryCatch_of_ok hmake)

end Loop

theorem Extends.keeps {t' : FileTree} (h : t.Extends t') : Keeps t.top t'.top :=
  fun ns s hs => ⟨s, (h.kept ns (by simp [view, hs])).trans hs, .refl s⟩

theorem Extends.clear {t' : FileTree} {as : List String} (h : t.Extends t') (hclear : Clear t.top base as) :
    Clear t'.top base as := by
  intro front hne hpre target hlink
  have hlink' : t'.view (base ++ front) = some (.link target) := hlink
  by_cases hnone : t.view (base ++ front) = none
  · obtain h' | h' := h.new _ hnone <;> rw [hlink'] at h' <;> cases h'
  · rw [h.kept _ hnone] at hlink'
    exact hclear front hne hpre target hlink'

theorem normal_text_ne (root : Path) (hne : ns ≠ []) (hns : ∀ n ∈ ns, IsName n) :
    (root.join (Path.ofNames ns)).normal.text ≠ "" := by
  intro htext
  have hpieces := Path.pieces_normal (root.join (Path.ofNames ns))
  rw [Path.pieces, htext, Path.normalPieces_join hns] at hpieces
  exact hne (List.append_eq_nil_iff.1 hpieces.symm).2

section Snoc

variable {as : List String} {s : String} (hfree : t.top.LinkFree) (hroot : t.RootAt root base)
  (hns : ∀ n ∈ as ++ [s], IsName n) (hshort : ∀ n ∈ as ++ [s], n.utf8ByteSize ≤ 255)
  (hdir : t.view (base ++ as) = some .dir)

include hfree hroot hns hshort hdir

theorem resolve_normal_of_dir (follow : Bool) :
    t.resolve (root.join (Path.ofNames (as ++ [s]))).normal follow =
      .ok ⟨base ++ (as ++ [s]), t.top.at? (base ++ (as ++ [s]))⟩ := by
  obtain ⟨n, hn⟩ := resolve_normal hroot (by simp) hns follow
  rw [hn]
  exact Spells.resolves ⟨rfl, hdir, hshort⟩ (fun n hn => ⟨(hns n hn).here, (hns n hn).up⟩)
    fun _ target => hfree _ target

theorem makeDir_normal (hnone : t.view (base ++ (as ++ [s])) = none) :
    ∃ t', makeDir (root.join (Path.ofNames (as ++ [s]))).normal t = .ok () t' ∧
      t.Puts (base ++ (as ++ [s])) .dir t' := by
  have hresolve := resolve_normal_of_dir hfree hroot hns hshort hdir false
  rw [show t.top.at? (base ++ (as ++ [s])) = none from Option.map_eq_none_iff.1 hnone,
    ← bare_normal (by simp) hns] at hresolve
  obtain ⟨t', ht'⟩ := makeDir_of_free hresolve
  obtain ⟨place, hplace, -, hputs⟩ := makeDir_ok ht'
  rw [hresolve] at hplace
  cases hplace
  exact ⟨t', ht', hputs⟩

end Snoc

section Frame

variable {t' : FileTree} {as ms : List String} {s : String}

theorem Puts.frame {names : List String} {shape : Shape} (h : t.Puts names shape t') (hms : ¬ms <+: names) :
    t'.view ms = t.view ms := by
  rw [h.view, if_neg]
  rintro rfl
  exact hms List.prefix_rfl

theorem puts_of_makeDir (hroot : t.RootAt root base) (hns : ∀ n ∈ as ++ [s], IsName n)
    (hclear : Clear t.top base as)
    (h : makeDir (root.join (Path.ofNames (as ++ [s]))).normal t = .ok () t') :
    t.Puts (base ++ (as ++ [s])) .dir t' := by
  obtain ⟨place, hplace, -, hputs⟩ := makeDir_ok h
  obtain ⟨n, hn⟩ := resolve_normal hroot (by simp) hns false
  rw [bare_normal (by simp) hns, hn] at hplace
  have hspells := (walks_of_resolveSteps hplace).spells (fun n hn => ⟨(hns n hn).here, (hns n hn).up⟩)
    hclear (by simp)
  rwa [hspells.place] at hputs

theorem resolveSteps_ne_notFound {top : Entry} {n : Nat} {here : List String} (hdir : top.view here = some .dir)
    (hs : IsName s) : resolveSteps top false n here [s] ≠ .error .notFound := by
  by_cases hshort : s.utf8ByteSize ≤ 255
  · have hspells : Spells top here [] s ⟨here ++ [s], top.at? (here ++ [s])⟩ :=
      ⟨rfl, by simpa using hdir, by simpa using hshort⟩
    rw [← List.nil_append [s], hspells.resolves (by simpa using ⟨hs.here, hs.up⟩) (by simp)]
    simp
  · obtain ⟨onLink, hsteps⟩ := resolveSteps_eq top false n
    obtain ⟨es, hes⟩ := Entry.view_eq_some_dir_iff.1 hdir
    rw [hsteps, resolveWith, hes]
    simp [hs.here, hs.up, Nat.not_le.1 hshort]

theorem resolve_of_makeDir_notFound {u : FileTree} (h : makeDir p t = .error (.os .notFound) u) :
    t.resolve p.bare false = .error .notFound := by
  cases hresolve : t.resolve p.bare false with
  | error cause =>
    rw [makeDir_of_error hresolve] at h
    cases h
    rfl
  | ok place =>
    obtain ⟨names, entry⟩ := place
    cases entry with
    | none =>
      obtain ⟨v, hv⟩ := makeDir_of_free hresolve
      rw [hv] at h
      cases h
    | some e =>
      rw [makeDir_of_taken hresolve] at h
      cases h

theorem makeDirsLoop_ok {fuel : Nat} (hp : p.text ≠ "") (h : makeDirsLoop (fuel + 1) p t = .ok () t') :
    makeDir p t = .ok () t' ∨ t' = t ∨ ∃ parent t₁, makeDir p t = .error (.os .notFound) t ∧
      p.parent? = some parent ∧ makeDirsLoop fuel parent t = .ok () t₁ ∧
      (makeDir p t₁ = .ok () t' ∨ t' = t₁) := by
  have again {e : IoError} {t t' : FileTree}
      (h : (do if (← get).isDir p then pure () else throw e : FileM Unit) t = .ok () t') : t' = t := by
    obtain ⟨_, _, hget, h⟩ := exists_of_bind_ok h
    cases hget
    split at h
    · cases h
      rfl
    · cases h
  rw [makeDirsLoop, if_neg (by simpa using hp)] at h
  obtain hmake | ⟨e, t₁, hmake, hcatch⟩ := of_tryCatch_ok h
  · exact .inl hmake
  obtain rfl := makeDir_error hmake
  by_cases he : e = .os .notFound
  · subst he
    cases hparent : p.parent? with
    | none =>
      simp only [hparent] at hcatch
      cases hcatch
    | some parent =>
      simp only [hparent] at hcatch
      obtain ⟨_, t₂, hloop, hlast⟩ := exists_of_bind_ok hcatch
      refine .inr (.inr ⟨parent, t₂, hmake, rfl, hloop, ?_⟩)
      obtain hmake' | ⟨e, t₃, hmake', hcatch'⟩ := of_tryCatch_ok hlast
      · exact .inl hmake'
      · exact .inr ((again hcatch').trans (makeDir_error hmake'))
  · refine .inr (.inl ?_)
    split at hcatch
    · exact absurd rfl he
    · exact again hcatch

theorem frame_of_makeDirsLoop {fuel : Nat} (hroot : t.RootAt root base) (hne : ns ≠ [])
    (hns : ∀ n ∈ ns, IsName n) (hclear : Clear t.top base ns)
    (h : makeDirsLoop fuel (root.join (Path.ofNames ns)).normal t = .ok () t') (hms : ¬ms <+: base ++ ns) :
    t'.view ms = t.view ms := by
  induction fuel generalizing ns t t' with
  | zero =>
    obtain ⟨as, s, rfl⟩ := List.eq_nil_or_concat' ns |>.resolve_left hne
    rw [makeDirsLoop, if_neg (by simpa using normal_text_ne root hne hns)] at h
    exact (puts_of_makeDir hroot hns hclear.of_append h).frame hms
  | succ fuel ih =>
    obtain ⟨as, s, rfl⟩ := List.eq_nil_or_concat' ns |>.resolve_left hne
    obtain ⟨hasns, hs⟩ := List.forall_mem_append.1 hns
    have hs := hs s (by simp)
    obtain hmake | rfl | ⟨parent, t₁, hmissing, hparent, hloop, hmake⟩ :=
      makeDirsLoop_ok (normal_text_ne root hne hns) h
    · exact (puts_of_makeDir hroot hns hclear.of_append hmake).frame hms
    · rfl
    have has : as ≠ [] := by
      rintro rfl
      have hresolve := resolve_of_makeDir_notFound hmissing
      obtain ⟨n, hn⟩ := resolve_normal hroot hne hns false
      rw [bare_normal hne hns, hn] at hresolve
      exact resolveSteps_ne_notFound hroot.dir hs hresolve
    have hparent? : (root.join (Path.ofNames (as ++ [s]))).normal.parent? =
        some (root.join (Path.ofNames as)).normal :=
      Path.parent?_of_parts (by rw [Path.parts_normal, Path.parts_join_snoc hasns hs])
    rw [hparent?, Option.some.injEq] at hparent
    subst hparent
    have hextends := (widening_makeDirsLoop fuel _).ok hloop
    have hbefore : t₁.view ms = t.view ms :=
      ih hroot has hasns hclear.of_append hloop fun hpre => hms (hpre.trans (by simp))
    obtain hmake | rfl := hmake
    · have hputs := puts_of_makeDir (hroot.keeps hextends.keeps hextends.workdir) hns
        (hextends.clear hclear.of_append) hmake
      rw [hputs.frame hms, hbefore]
    · exact hbefore

end Frame

theorem makeDirsLoop_normal {fuel : Nat} (hfree : t.top.LinkFree) (hroot : t.RootAt root base)
    (hne : ns ≠ []) (hfuel : ns.length ≤ fuel) (hns : ∀ n ∈ ns, IsName n)
    (hshort : ∀ n ∈ ns, n.utf8ByteSize ≤ 255) (hopen : t.Open base ns) :
    ∃ t', makeDirsLoop fuel (root.join (Path.ofNames ns)).normal t = .ok () t' ∧
      t.MakesTo (base ++ ns) t' := by
  induction fuel generalizing ns with
  | zero => exact absurd (List.length_eq_zero_iff.1 (Nat.le_zero.1 hfuel)) hne
  | succ fuel ih =>
    have htext := normal_text_ne root hne hns
    obtain ⟨as, s, rfl⟩ := List.eq_nil_or_concat' ns |>.resolve_left hne
    have hparent : t.view (base ++ as) = none ∨ t.view (base ++ as) = some .dir :=
      hopen as (List.prefix_append as [s])
    obtain hmissing | hdir := hparent
    · have hasne : as ≠ [] := by
        rintro rfl
        simp [hroot.dir] at hmissing
      have hnone : t.view (base ++ (as ++ [s])) = none := by
        rw [← List.append_assoc]
        exact view_below_eq_none (by simp [hmissing]) (by simp)
      have hbefore : makeDir (root.join (Path.ofNames (as ++ [s]))).normal t = .error (.os .notFound) t := by
        obtain ⟨n, hn⟩ := resolve_normal hroot hne hns false
        refine makeDir_of_error ?_
        rw [bare_normal hne hns, hn]
        exact resolveSteps_notFound (fun n hn => ⟨(hns n hn).here, (hns n hn).up⟩) hshort hroot.dir hopen
          (by rwa [List.dropLast_concat])
      obtain ⟨hasns, hs⟩ := List.forall_mem_append.1 hns
      obtain ⟨t₁, hloop, hmakes⟩ := ih hasne (by simpa using hfuel) hasns
        (List.forall_mem_append.1 hshort).1 fun pre hpre => hopen pre (hpre.trans (List.prefix_append as [s]))
      have hextends := (widening_makeDirsLoop fuel _).ok hloop
      have happart : ¬base ++ (as ++ [s]) <+: base ++ as := fun h => by
        simpa using h.length_le
      obtain ⟨t', hmake, hputs⟩ := makeDir_normal (hextends.linkFree hfree)
        (hroot.keeps hextends.keeps hextends.workdir) hns hshort hmakes.view
        ((hmakes.frame _ happart).trans hnone)
      have hparent? : (root.join (Path.ofNames (as ++ [s]))).normal.parent? =
          some (root.join (Path.ofNames as)).normal :=
        Path.parent?_of_parts (by rw [Path.parts_normal, Path.parts_join_snoc hasns (hs s (by simp))])
      refine ⟨t', makeDirsLoop_of_parent htext hbefore hparent? hloop hmake, ?_, fun ms hms => ?_⟩
      · rw [hputs.view, if_pos rfl]
      · rw [hputs.view, if_neg (by rintro rfl; exact hms List.prefix_rfl), hmakes.frame ms]
        exact fun h => hms (h.trans (by simp))
    · obtain hnone | htaken := hopen (as ++ [s]) List.prefix_rfl
      · obtain ⟨t', hmake, hputs⟩ := makeDir_normal hfree hroot hns hshort hdir hnone
        refine ⟨t', makeDirsLoop_of_ok htext hmake, ?_, fun ms hms => ?_⟩
        · rw [hputs.view, if_pos rfl]
        · rw [hputs.view, if_neg (by rintro rfl; exact hms List.prefix_rfl)]
      · obtain ⟨es, hes⟩ := Entry.view_eq_some_dir_iff.1 htaken
        have hresolve := resolve_normal_of_dir hfree hroot hns hshort hdir
        rw [hes] at hresolve
        have hmake := makeDir_of_taken ((bare_normal hne hns).symm ▸ hresolve false)
        exact ⟨t, makeDirsLoop_of_taken htext hmake (isDir_of_resolve (hresolve true)), htaken,
          fun _ _ => rfl⟩

end Directories

section Write

variable {t : FileTree} {p source target : Path} {a b : List String} {e : Entry}

theorem resolve_of_isFile (h : t.isFile p = true) :
    ∃ names bytes, t.resolve p true = .ok ⟨names, some (.file bytes)⟩ := by
  rw [isFile, entry?] at h
  split at h
  · next names e hresolve =>
    cases e with
    | file bytes => exact ⟨names, bytes, hresolve⟩
    | link | dir => cases h
  · cases h
  · cases h

theorem isFile_of_readText {text : String} (h : t.readText p = .ok text) : t.isFile p = true := by
  rw [readText] at h
  rw [isFile]
  split at h
  · cases h
  · next he => rw [he]; rfl
  · cases h

theorem writeText_of_isFile {text : String} (hp : p.isSlashed = false) (h : t.isFile p = true) :
    ∃ t', writeText p text t = .ok () t' := by
  obtain ⟨names, bytes, hresolve⟩ := resolve_of_isFile h
  have hplace : t.resolve p.bare (!p.isSlashed) = .ok ⟨names, some (.file bytes)⟩ := by
    rw [Path.bare_of_isSlashed_eq_false hp, hp]
    exact hresolve
  refine ⟨t.setTop (t.top.put names (.file text.toUTF8)),
    (bind_of_ok rfl).trans ((bind_of_ok (orThrow_of_ok hplace)).trans ?_)⟩
  rw [if_neg (by simp [hp])]
  rfl

theorem isFile_of_keeps {t' : FileTree} (h : t.isFile p = true) (hkeeps : Keeps t.top t'.top)
    (hworkdir : t'.workdir = t.workdir) : t'.isFile p = true := by
  obtain ⟨names, bytes, hresolve⟩ := resolve_of_isFile h
  have hat : t.top.at? names = some (.file bytes) := (entry_of_resolve hresolve).symm
  obtain ⟨s', hs', hlike⟩ := hkeeps names (.file bytes) (view_eq_of_entry hat)
  have hresolve' := resolve_of_keeps hresolve hkeeps hworkdir
  obtain ⟨bytes', hat'⟩ : ∃ bytes', t'.top.at? names = some (.file bytes') := by
    obtain ⟨e', he', hshape⟩ := Option.map_eq_some_iff.1 hs'
    cases e' with
    | file bytes' => exact ⟨bytes', he'⟩
    | link | dir =>
      rw [← hshape] at hlike
      cases hlike
  rw [hat'] at hresolve'
  rw [isFile, entry?, hresolve']
  rfl

theorem rename_of_free (hsource : source.isSlashed = false) (htarget : target.isSlashed = false)
    (hnamed : source.isNamed = true) (hnamed' : target.isNamed = true)
    (ha : t.resolve source false = .ok ⟨a, some e⟩) (hb : t.resolve target false = .ok ⟨b, none⟩)
    (hab : ¬a <+: b) (hba : ¬b <+: a) : ∃ t', rename source target t = .ok () t' := by
  have hne : a ≠ b := by
    rintro rfl
    exact hab List.prefix_rfl
  have hrenamed : t.renamed source target ⟨a, some e⟩ ⟨b, none⟩ =
      .ok (t.setTop ((t.top.remove a).put b e)) := by
    have hfits : fits e none = .ok () := by cases e <;> rfl
    simp [renamed, hnamed, hnamed', hsource, htarget, hne, hab, hba, hfits]
  rw [← Path.bare_of_isSlashed_eq_false hsource] at ha
  rw [← Path.bare_of_isSlashed_eq_false htarget] at hb
  exact ⟨_, (bind_of_ok rfl).trans ((bind_of_ok (orThrow_of_ok ha)).trans
    ((bind_of_ok (orThrow_of_ok hb)).trans (bind_of_ok (orThrow_of_ok hrenamed))))⟩

end Write

end FileTree

end Reroot

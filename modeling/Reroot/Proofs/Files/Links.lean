import Reroot.Proofs.Files.Tidy

/-!
Where paths lead in a tree with links. A path below a root leads to the place that its names spell
below the place of the root, unless there is a link on the way.
-/

namespace Reroot.FileTree

open Reroot.Path (IsName)

theorem Enters.start_dir {top : Entry} {here : List String} {s : String} (hs : Enters top here s)
    (absolute : Bool) : top.view (if absolute then [] else here) = some .dir := by
  split
  · by_cases hnil : here = []
    · exact hnil ▸ hs.dir
    · exact Entry.view_eq_dir_of_append hnil (by simp [hs.dir])
  · exact hs.dir

section Walks

variable {top : Entry} {follow : Bool} {n : Nat} {here as bs rest : List String} {place : Place}

theorem at?_of_view {ns : List String} {target : String} (h : top.view ns = some (.link target)) :
    top.at? ns = some (.link target) := by
  obtain ⟨x, hx, hshape⟩ := Option.map_eq_some_iff.1 h
  cases x with
  | link => rw [hx, ← Shape.link.inj hshape]
  | file | dir => cases hshape

theorem resolveSteps_nil : resolveSteps top follow n here [] = .ok ⟨here, top.at? here⟩ := by
  obtain ⟨onLink, hsteps⟩ := resolveSteps_eq top follow n
  rw [hsteps, resolveWith]

theorem resolveSteps_stay (hdir : top.view here = some .dir) :
    resolveSteps top follow n here ("." :: rest) = resolveSteps top follow n here rest := by
  obtain ⟨onLink, hsteps⟩ := resolveSteps_eq top follow n
  obtain ⟨es, hes⟩ := Entry.view_eq_some_dir_iff.1 hdir
  rw [hsteps, resolveWith, hes]
  rfl

theorem resolveSteps_up (hdir : top.view here = some .dir) :
    resolveSteps top follow n here (".." :: rest) = resolveSteps top follow n here.dropLast rest := by
  obtain ⟨onLink, hsteps⟩ := resolveSteps_eq top follow n
  obtain ⟨es, hes⟩ := Entry.view_eq_some_dir_iff.1 hdir
  rw [hsteps, resolveWith, hes]
  rfl

section Names

variable {s : String} (hs : Enters top here s)

include hs

theorem resolveSteps_free (hnone : top.view (here ++ [s]) = none) :
    resolveSteps top follow n here (s :: rest) =
      if rest.isEmpty then .ok ⟨here ++ [s], none⟩ else .error .notFound := by
  obtain ⟨onLink, hsteps⟩ := resolveSteps_eq top follow n
  rw [hsteps, resolveWith_cons hs, Option.map_eq_none_iff.1 hnone]

theorem resolveSteps_keep {target : String} (hlink : top.view (here ++ [s]) = some (.link target)) :
    resolveSteps top false n here [s] = .ok ⟨here ++ [s], some (.link target)⟩ := by
  obtain ⟨onLink, hsteps⟩ := resolveSteps_eq top false n
  rw [hsteps, resolveWith_cons hs, at?_of_view hlink]
  rfl

theorem resolveSteps_link {target : String} (hlink : top.view (here ++ [s]) = some (.link target))
    (hfollow : rest ≠ [] ∨ follow = true) :
    resolveSteps top follow (n + 1) here (s :: rest) =
      resolveSteps top follow n (if (Path.mk target).isAbsolute then [] else here)
        (steps target ++ rest) := by
  have hgo : (rest.isEmpty && !follow) = false := by
    obtain hrest | rfl := hfollow
    · simp [hrest]
    · simp
  rw [resolveSteps, resolveWith_cons hs, at?_of_view hlink]
  simp only [hgo, Bool.false_eq_true, if_false]

theorem resolveSteps_down (hsome : top.view (here ++ [s]) ≠ none)
    (hlink : ∀ target, top.view (here ++ [s]) ≠ some (.link target)) :
    resolveSteps top follow n here (s :: rest) = resolveSteps top follow n (here ++ [s]) rest := by
  obtain ⟨onLink, hsteps⟩ := resolveSteps_eq top follow n
  rw [hsteps, resolveWith_cons hs]
  cases hx : top.at? (here ++ [s]) with
  | none => exact absurd (by rw [Entry.view, hx]; rfl) hsome
  | some x =>
    cases x with
    | link target => exact absurd (by rw [Entry.view, hx]; rfl) (hlink target)
    | file | dir => rfl

end Names

theorem Walks.resolves (h : Walks top follow n here as place) :
    resolveSteps top follow n here as = .ok place := by
  induction h with
  | done => exact resolveSteps_nil
  | stay hdir _ ih => rw [resolveSteps_stay hdir, ih]
  | up hdir _ ih => rw [resolveSteps_up hdir, ih]
  | free hs hnone => exact resolveSteps_free hs hnone
  | keep hs hlink hfollow =>
    subst hfollow
    exact resolveSteps_keep hs hlink
  | link hs hlink hfollow _ ih => rw [resolveSteps_link hs hlink hfollow, ih]
  | down hs hsome hlink _ ih => rw [resolveSteps_down hs hsome hlink, ih]

theorem Walks.start (h : Walks top follow n here as place) (has : as ≠ []) :
    top.view here = some .dir := by
  cases h with
  | done => exact absurd rfl has
  | stay hdir | up hdir => exact hdir
  | free hs | keep hs | link hs | down hs => exact hs.dir

theorem Walks.entry_eq (h : Walks top follow n here as place) : place.entry = top.at? place.names := by
  induction h with
  | done => rfl
  | stay _ _ ih | up _ _ ih | link _ _ _ _ ih | down _ _ _ _ ih => exact ih
  | free _ hnone => exact (Option.map_eq_none_iff.1 hnone).symm
  | keep _ hlink => exact (at?_of_view hlink).symm

theorem Walks.room (h : Walks top follow n here as place)
    (hhere : as = [] → top.view here ≠ none) (hnone : place.entry = none) :
    place.names ≠ [] ∧ top.view place.names.dropLast = some .dir := by
  induction h with
  | done n here => exact absurd (Option.map_eq_none_iff.2 hnone) (hhere rfl)
  | stay hdir _ ih => exact ih (fun _ => by simp [hdir]) hnone
  | up hdir _ ih => exact ih (fun _ => by simp [view_dropLast hdir]) hnone
  | free hs => exact ⟨by simp, by simpa using hs.dir⟩
  | keep => cases hnone
  | link hs _ _ _ ih =>
    refine ih (fun _ => ?_) hnone
    rw [hs.start_dir]
    simp
  | down _ hsome _ _ ih => exact ih (fun _ => hsome) hnone

theorem Walks.not_link (h : Walks top true n here as place)
    (hhere : as = [] → ∀ target, top.view here ≠ some (.link target)) (target : String) :
    place.entry ≠ some (.link target) := by
  induction h with
  | done n here => exact fun hlink => hhere rfl target (Option.map_eq_some_iff.2 ⟨_, hlink, rfl⟩)
  | stay hdir _ ih => exact ih fun _ => by simp [hdir]
  | up hdir _ ih => exact ih fun _ => by simp [view_dropLast hdir]
  | free => exact nofun
  | keep _ _ hfollow => cases hfollow
  | link hs _ _ _ ih => exact ih fun _ => by simp [hs.start_dir]
  | down _ _ hlink _ ih => exact ih fun _ => hlink

theorem Walks.isName (h : Walks top follow n here as place) (hhere : ∀ m ∈ here, IsName m)
    (has : ∀ s ∈ as, s ≠ "" ∧ '/' ∉ s.toList) : ∀ m ∈ place.names, IsName m := by
  have snoc {here : List String} {s : String} (hs : Enters top here s) (hhere : ∀ m ∈ here, IsName m)
      (hproper : s ≠ "" ∧ '/' ∉ s.toList) : ∀ m ∈ here ++ [s], IsName m := by
    intro m hm
    obtain hm | hm := List.mem_append.1 hm
    · exact hhere m hm
    · obtain rfl := List.mem_singleton.1 hm
      exact ⟨hproper.1, hs.notHere, hs.notUp, hproper.2⟩
  induction h with
  | done => exact hhere
  | stay _ _ ih => exact ih hhere (List.forall_mem_cons.1 has).2
  | up _ _ ih =>
    exact ih (fun m hm => hhere m (List.dropLast_subset _ hm)) (List.forall_mem_cons.1 has).2
  | free hs | keep hs => exact snoc hs hhere (List.forall_mem_cons.1 has).1
  | link hs _ _ _ ih =>
    refine ih ?_ fun s hs => ?_
    · split
      · simp
      · exact hhere
    · obtain hs | hs := List.mem_append.1 hs
      · exact steps_proper ⟨_⟩ s hs
      · exact (List.forall_mem_cons.1 has).2 s hs
  | down hs _ _ _ ih =>
    obtain ⟨hproper, has⟩ := List.forall_mem_cons.1 has
    exact ih (snoc hs hhere hproper) has

theorem Walks.of_not_link (h : Walks top false n here as place)
    (hlink : ∀ target, place.entry ≠ some (.link target)) : Walks top true n here as place := by
  induction h with
  | done n here => exact .done n here
  | stay hdir _ ih => exact .stay hdir (ih hlink)
  | up hdir _ ih => exact .up hdir (ih hlink)
  | free hs hnone => exact .free hs hnone
  | keep => exact absurd rfl (hlink _)
  | link hs hlinked _ _ ih => exact .link hs hlinked (.inr rfl) (ih hlink)
  | down hs hsome hnot _ ih => exact .down hs hsome hnot (ih hlink)

theorem Walks.of_follow (h : Walks top true n here as place) :
    Walks top false n here as place ∨
      ∃ names target, Walks top false n here as ⟨names, some (.link target)⟩ := by
  induction h with
  | done n here => exact .inl (.done n here)
  | stay hdir _ ih => exact ih.imp (.stay hdir) fun ⟨_, _, h⟩ => ⟨_, _, .stay hdir h⟩
  | up hdir _ ih => exact ih.imp (.up hdir) fun ⟨_, _, h⟩ => ⟨_, _, .up hdir h⟩
  | free hs hnone => exact .inl (.free hs hnone)
  | keep _ _ hfollow => cases hfollow
  | @link n here rest s target place hs hlink _ _ ih =>
    by_cases hrest : rest = []
    · subst hrest
      exact .inr ⟨_, _, .keep hs hlink rfl⟩
    · exact ih.imp (.link hs hlink (.inl hrest)) fun ⟨_, _, h⟩ => ⟨_, _, .link hs hlink (.inl hrest) h⟩
  | down hs hsome hnot _ ih =>
    exact ih.imp (.down hs hsome hnot) fun ⟨_, _, h⟩ => ⟨_, _, .down hs hsome hnot h⟩

theorem Walks.resolveSteps_append {tail : List String} (h : Walks top true n here (as ++ tail) place)
    (htail : tail = [] ∨ tail = ["."]) (hentry : place.entry ≠ none) :
    ∃ m, ∀ bs ≠ [], resolveSteps top follow n here (as ++ bs) =
      resolveSteps top follow m place.names bs := by
  generalize hsteps : as ++ tail = steps at h
  -- The steps that are left belong to the way, unless they are the dot behind it.
  have split {s : String} {rest : List String} {as : List String} (hsteps : as ++ tail = s :: rest)
      (hs : s ≠ ".") : ∃ as', as = s :: as' ∧ as' ++ tail = rest := by
    cases as with
    | nil =>
      obtain rfl | rfl := htail
      · cases hsteps
      · exact absurd (List.cons.inj hsteps).1.symm hs
    | cons s' as => exact ⟨as, by rw [(List.cons.inj hsteps).1], (List.cons.inj hsteps).2⟩
  induction h generalizing as with
  | done n here =>
    obtain rfl := (List.append_eq_nil_iff.1 hsteps).1
    exact ⟨n, fun bs _ => rfl⟩
  | @stay n here rest place hdir h ih =>
    cases as with
    | nil =>
      obtain rfl | rfl := htail
      · cases hsteps
      · obtain rfl := (List.cons.inj hsteps).2
        cases h
        exact ⟨n, fun bs _ => rfl⟩
    | cons s as =>
      obtain ⟨rfl, hrest⟩ := List.cons.inj hsteps
      obtain ⟨m, hm⟩ := ih hentry hrest
      exact ⟨m, fun bs hbs => (resolveSteps_stay hdir).trans (hm bs hbs)⟩
  | up hdir h ih =>
    obtain ⟨as, rfl, hrest⟩ := split hsteps (by decide)
    obtain ⟨m, hm⟩ := ih hentry hrest
    exact ⟨m, fun bs hbs => (resolveSteps_up hdir).trans (hm bs hbs)⟩
  | free => exact absurd rfl hentry
  | keep _ _ hfollow => cases hfollow
  | link hs hlink _ h ih =>
    obtain ⟨as, rfl, rfl⟩ := split hsteps hs.notHere
    obtain ⟨m, hm⟩ := ih hentry (List.append_assoc _ _ _)
    refine ⟨m, fun bs hbs => ?_⟩
    rw [List.cons_append, resolveSteps_link hs hlink (.inl (by simp [hbs])), ← List.append_assoc]
    exact hm bs hbs
  | down hs hsome hlink h ih =>
    obtain ⟨as, rfl, hrest⟩ := split hsteps hs.notHere
    obtain ⟨m, hm⟩ := ih hentry hrest
    exact ⟨m, fun bs hbs => (resolveSteps_down hs hsome hlink).trans (hm bs hbs)⟩

def Clear (top : Entry) (here names : List String) : Prop :=
  ∀ front, front ≠ [] → front <+: names → ∀ target, top.view (here ++ front) ≠ some (.link target)

theorem Clear.nil : Clear top here [] :=
  fun _ hne hprefix => absurd (List.prefix_nil.1 hprefix) hne

theorem clear_of_linkFree (h : top.LinkFree) : Clear top here as :=
  fun front _ _ target => h (here ++ front) target

theorem Clear.head {s : String} (h : Clear top here (s :: as)) (target : String) :
    top.view (here ++ [s]) ≠ some (.link target) :=
  h [s] (by simp) (by simp) target

theorem Clear.tail {s : String} (h : Clear top here (s :: as)) : Clear top (here ++ [s]) as := by
  intro front hne hfront target
  have := h (s :: front) (by simp) (by simpa using hfront) target
  simpa using this

theorem Clear.of_append (h : Clear top here (as ++ bs)) : Clear top here as :=
  fun front hne hfront => h front hne (hfront.trans (List.prefix_append as bs))

structure Spells (top : Entry) (here as : List String) (s : String) (place : Place) : Prop where
  place : place = ⟨here ++ (as ++ [s]), top.at? (here ++ (as ++ [s]))⟩
  dir : top.view (here ++ as) = some .dir
  short : ∀ a ∈ as ++ [s], a.utf8ByteSize ≤ 255

theorem Walks.spells {s : String} (h : Walks top follow n here (as ++ [s]) place)
    (hnames : ∀ a ∈ as ++ [s], a ≠ "." ∧ a ≠ "..") (hclear : Clear top here as)
    (hlink : follow = true → ∀ target, top.view (here ++ (as ++ [s])) ≠ some (.link target)) :
    Spells top here as s place := by
  induction as generalizing here with
  | nil =>
    have hs := hnames s (by simp)
    simp only [List.nil_append] at h hlink
    have last {place : Place} (hs : Enters top here s) (hplace : place = ⟨here ++ [s], top.at? (here ++ [s])⟩) :
        Spells top here [] s place :=
      ⟨hplace, by simpa using hs.dir, by simpa using hs.short⟩
    cases h with
    | stay => exact absurd rfl hs.1
    | up => exact absurd rfl hs.2
    | free hs hnone => exact last hs (by rw [Option.map_eq_none_iff.1 hnone])
    | keep hs hlinked => exact last hs (by rw [at?_of_view hlinked])
    | link _ hlinked hfollow => exact absurd hlinked (hlink (hfollow.resolve_left (by simp)) _)
    | down hs _ _ h =>
      cases h
      exact last hs rfl
  | cons a as ih =>
    obtain ⟨ha, hnames⟩ := List.forall_mem_cons.1 hnames
    rw [List.cons_append] at h
    generalize hrest : as ++ [s] = rest at h
    cases h with
    | stay => exact absurd rfl ha.1
    | up => exact absurd rfl ha.2
    | free => simp at hrest
    | keep => simp at hrest
    | link _ hlinked => exact absurd hlinked (hclear.head _)
    | down ha' _ _ h =>
      subst hrest
      obtain ⟨hplace, hdir, hshort⟩ := ih h hnames hclear.tail (by simpa using hlink)
      refine ⟨by simpa using hplace, by simpa using hdir, ?_⟩
      exact List.forall_mem_cons.2 ⟨ha'.short, hshort⟩

theorem Spells.resolves {s : String} (h : Spells top here as s place)
    (hnames : ∀ a ∈ as ++ [s], a ≠ "." ∧ a ≠ "..")
    (hlink : follow = true → ∀ target, top.view (here ++ (as ++ [s])) ≠ some (.link target)) :
    resolveSteps top follow n here (as ++ [s]) = .ok place := by
  obtain ⟨rfl, hdir, hshort⟩ := h
  induction as generalizing here with
  | nil =>
    simp only [List.nil_append, List.append_nil, List.mem_singleton, forall_eq] at *
    have hs : Enters top here s := ⟨hdir, hnames.1, hnames.2, hshort⟩
    cases hx : top.view (here ++ [s]) with
    | none =>
      rw [resolveSteps_free hs hx, Option.map_eq_none_iff.1 hx]
      rfl
    | some x =>
      cases x with
      | link target =>
        obtain rfl : follow = false := by
          by_contra hfollow
          exact hlink (by simpa using hfollow) target hx
        rw [resolveSteps_keep hs hx, at?_of_view hx]
      | file | dir => rw [resolveSteps_down hs (by simp [hx]) (by simp [hx]), resolveSteps_nil]
  | cons a as ih =>
    obtain ⟨ha, hnames⟩ := List.forall_mem_cons.1 hnames
    obtain ⟨hashort, hshort⟩ := List.forall_mem_cons.1 hshort
    have hsplit : here ++ a :: as = here ++ [a] ++ as := by simp
    rw [hsplit] at hdir
    have hthrough : top.view (here ++ [a]) = some .dir := by
      by_cases hnil : as = []
      · simpa [hnil] using hdir
      · exact Entry.view_eq_dir_of_append hnil (by rw [hdir]; simp)
    have hhere : top.view here = some .dir :=
      Entry.view_eq_dir_of_append (List.cons_ne_nil a []) (by simp [hthrough])
    rw [List.cons_append, resolveSteps_down ⟨hhere, ha.1, ha.2, hashort⟩ (by simp [hthrough])
      (by simp [hthrough]), ih hnames (by simpa using hlink) hdir hshort]
    simp

end Walks

section Resolve

variable {t : FileTree} {root p : Path} {follow : Bool} {place : Place}

theorem walks_of_resolve (h : t.resolve p follow = .ok place) :
    p.text ≠ "" ∧ Walks t.top follow 40 (t.base p) (steps p.text) place := by
  unfold resolve at h
  split at h
  · cases h
  · next hp => exact ⟨by simpa using hp, walks_of_resolveSteps h⟩

theorem entry_of_resolve (h : t.resolve p follow = .ok place) : place.entry = t.top.at? place.names :=
  (walks_of_resolve h).2.entry_eq

theorem room_of_resolve (h : t.resolve p follow = .ok place) (hnone : place.entry = none) :
    place.names ≠ [] ∧ t.view place.names.dropLast = some .dir := by
  obtain ⟨hp, hwalks⟩ := walks_of_resolve h
  exact hwalks.room (fun hnil => absurd hnil (steps_ne_nil hp)) hnone

theorem not_link_of_resolve (h : t.resolve p true = .ok place) (target : String) :
    place.entry ≠ some (.link target) := by
  obtain ⟨hp, hwalks⟩ := walks_of_resolve h
  exact hwalks.not_link (fun hnil => absurd hnil (steps_ne_nil hp)) target

theorem isName_of_resolve (htidy : t.top.Tidy) (h : t.resolve p follow = .ok place) :
    ∀ n ∈ place.names, IsName n := by
  obtain ⟨hp, hwalks⟩ := walks_of_resolve h
  have hdir := hwalks.start (steps_ne_nil hp)
  exact hwalks.isName (htidy.isName (by simp [hdir])) (steps_proper p)

theorem resolve_of_walks (hp : p.text ≠ "") (h : Walks t.top follow 40 (t.base p) (steps p.text) place) :
    t.resolve p follow = .ok place := by
  rw [resolve, if_neg (by simpa using hp)]
  exact h.resolves

def RootAt (t : FileTree) (root : Path) (base : List String) : Prop :=
  ∃ es, t.resolve root true = .ok ⟨base, some (.dir es)⟩

section RootAt

variable {base names : List String}

theorem RootAt.dir (h : t.RootAt root base) : t.view base = some .dir := by
  obtain ⟨es, hes⟩ := h
  exact Entry.view_eq_some_dir_iff.2 ⟨es, (entry_of_resolve hes).symm⟩

theorem resolve_join_of_resolve {e : Entry} (h : t.resolve root true = .ok ⟨base, some e⟩) (hp : p.IsPlain)
    (follow : Bool) : ∃ n, t.resolve (root.join p) follow = resolveSteps t.top follow n base p.pieces := by
  obtain ⟨-, hwalks⟩ := walks_of_resolve h
  obtain ⟨tail, hsteps, htail⟩ : ∃ tail, steps root.text = root.pieces ++ tail ∧
      (tail = [] ∨ tail = ["."]) := by
    unfold steps
    split
    · exact ⟨["."], rfl, .inr rfl⟩
    · exact ⟨[], by simp, .inl rfl⟩
  rw [hsteps] at hwalks
  have hstart : (if (root.join p).isAbsolute then [] else t.workdir) = t.base root := base_join hp
  have hne : (root.join p).text ≠ "" := Path.join_text_ne hp.relative hp.text_ne
  obtain ⟨n, hn⟩ : ∃ n, ∀ bs ≠ [], resolveSteps t.top follow 40 (t.base root) (root.pieces ++ bs) =
      resolveSteps t.top follow n base bs := hwalks.resolveSteps_append htail (by simp)
  refine ⟨n, ?_⟩
  rw [resolve, if_neg (by simpa using hne), hstart, steps_join hp, hn p.pieces hp.named]

theorem RootAt.resolve_join (h : t.RootAt root base) (hp : p.IsPlain) (follow : Bool) :
    ∃ n, t.resolve (root.join p) follow = resolveSteps t.top follow n base p.pieces := by
  obtain ⟨es, hes⟩ := h
  exact resolve_join_of_resolve hes hp follow

theorem rootAt_of_resolve_join {e : Entry} (h : t.resolve root true = .ok ⟨base, some e⟩) (hp : p.IsPlain)
    (hplace : t.resolve (root.join p) follow = .ok place) : t.RootAt root base := by
  obtain ⟨n, hn⟩ := resolve_join_of_resolve h hp follow
  rw [hn] at hplace
  obtain ⟨es, hes⟩ := Entry.view_eq_some_dir_iff.1 ((walks_of_resolveSteps hplace).start hp.named)
  refine ⟨es, ?_⟩
  rw [h, ← hes, ← entry_of_resolve h]

theorem RootAt.spells {as : List String} {s : String} (h : t.RootAt root base) (hp : p.IsPlain)
    (hpieces : p.pieces = as ++ [s]) (hclear : Clear t.top base as)
    (hlink : follow = true → ∀ target, t.view (base ++ p.pieces) ≠ some (.link target))
    (hplace : t.resolve (root.join p) follow = .ok place) : Spells t.top base as s place := by
  obtain ⟨n, hn⟩ := h.resolve_join hp follow
  rw [hn, hpieces] at hplace
  rw [hpieces] at hlink
  exact (walks_of_resolveSteps hplace).spells (hpieces ▸ hp.names) hclear hlink

theorem RootAt.resolve_of_spells {as : List String} {s : String} (h : t.RootAt root base)
    (hp : p.IsPlain) (hpieces : p.pieces = as ++ [s])
    (hlink : follow = true → ∀ target, t.view (base ++ p.pieces) ≠ some (.link target))
    (hspells : Spells t.top base as s place) : t.resolve (root.join p) follow = .ok place := by
  obtain ⟨n, hn⟩ := h.resolve_join hp follow
  rw [hpieces] at hlink
  rw [hn, hpieces]
  exact hspells.resolves (hpieces ▸ hp.names) hlink

theorem clear_of_view {top : Entry} {here as bs : List String} (hbs : bs ≠ [])
    (h : top.view (here ++ (as ++ bs)) ≠ none) : Clear top here as := by
  rintro front - ⟨rest, rfl⟩ target hlink
  have hdir : top.view (here ++ front) = some .dir :=
    Entry.view_eq_dir_of_append (List.append_ne_nil_of_right_ne_nil rest hbs) (by simpa using h)
  rw [hlink] at hdir
  cases hdir

end RootAt

end Resolve

inductive Like : Shape → Shape → Prop
  | refl (s : Shape) : Like s s
  | file (bytes bytes' : ByteArray) : Like (.file bytes) (.file bytes')

def Retains (top top' : Entry) : Prop :=
  ∀ ns s, top.view ns = some s → ∀ s', top'.view ns = some s' → Like s s'

def Keeps (top top' : Entry) : Prop :=
  ∀ ns s, top.view ns = some s → ∃ s', top'.view ns = some s' ∧ Like s s'

section Retains

variable {top top' : Entry} {follow : Bool} {n n' : Nat} {here as rest : List String}
  {place place' : Place}

theorem Like.trans {s s' s'' : Shape} (h : Like s s') (h' : Like s' s'') : Like s s'' := by
  cases h with
  | refl => exact h'
  | file bytes bytes' =>
    cases h' with
    | refl => exact .file ..
    | file => exact .file ..

theorem Like.eq_dir {s : Shape} (h : Like .dir s) : s = .dir := by
  cases h
  rfl

theorem Like.link_iff {s s' : Shape} (h : Like s s') (target : String) :
    s = .link target ↔ s' = .link target := by
  cases h with
  | refl => rfl
  | file => simp

theorem Walks.of_stay (h : Walks top true n here ("." :: rest) place) :
    Walks top true n here rest place := by
  generalize hsteps : "." :: rest = as at h
  cases h with
  | done => cases hsteps
  | stay _ h => exact (List.cons.inj hsteps).2 ▸ h
  | up => exact absurd (List.cons.inj hsteps).1 (by decide)
  | free hs | keep hs | link hs | down hs => exact absurd (List.cons.inj hsteps).1.symm hs.notHere

theorem Walks.of_up (h : Walks top true n here (".." :: rest) place) :
    Walks top true n here.dropLast rest place := by
  generalize hsteps : ".." :: rest = as at h
  cases h with
  | done => cases hsteps
  | up _ h => exact (List.cons.inj hsteps).2 ▸ h
  | stay => exact absurd (List.cons.inj hsteps).1 (by decide)
  | free hs | keep hs | link hs | down hs => exact absurd (List.cons.inj hsteps).1.symm hs.notUp

theorem Walks.names_eq (h : Walks top true n here as place) (hretains : Retains top top')
    (hentry : place.entry ≠ none) (h' : Walks top' true n' here as place')
    (hentry' : place'.entry ≠ none) : place'.names = place.names := by
  induction h generalizing n' with
  | done =>
    cases h'
    rfl
  | stay _ _ ih => exact ih hentry h'.of_stay
  | up _ _ ih => exact ih hentry h'.of_up
  | free => exact absurd rfl hentry
  | keep _ _ hfollow => cases hfollow
  | @link n here rest s target place hs hlink _ _ ih =>
    cases h' with
    | stay => exact absurd rfl hs.notHere
    | up => exact absurd rfl hs.notUp
    | free => exact absurd rfl hentry'
    | keep _ _ hfollow => cases hfollow
    | link _ hlink' _ h' =>
      have := ((hretains _ _ hlink _ hlink').link_iff target).1 rfl
      cases this
      exact ih hentry h'
    | down _ hsome hlink' =>
      obtain ⟨s', hs'⟩ := Option.ne_none_iff_exists'.1 hsome
      have := ((hretains _ _ hlink _ hs').link_iff target).1 rfl
      exact absurd (this ▸ hs') (hlink' target)
  | @down n here rest s place hs hsome hlink _ ih =>
    cases h' with
    | stay => exact absurd rfl hs.notHere
    | up => exact absurd rfl hs.notUp
    | free => exact absurd rfl hentry'
    | keep _ _ hfollow => cases hfollow
    | link _ hlink' =>
      obtain ⟨s₀, hs₀⟩ := Option.ne_none_iff_exists'.1 hsome
      have := ((hretains _ _ hs₀ _ hlink').link_iff _).2 rfl
      exact absurd (this ▸ hs₀) (hlink _)
    | down _ _ _ h' => exact ih hentry h'

theorem Walks.keeps (h : Walks top true n here as place) (hkeeps : Keeps top top')
    (hentry : place.entry ≠ none) :
    Walks top' true n here as ⟨place.names, top'.at? place.names⟩ := by
  have hdir {here : List String} (h : top.view here = some .dir) : top'.view here = some .dir := by
    obtain ⟨s, hs, hlike⟩ := hkeeps _ _ h
    rw [hs, hlike.eq_dir]
  have henters {here : List String} {s : String} (hs : Enters top here s) : Enters top' here s :=
    ⟨hdir hs.dir, hs.notHere, hs.notUp, hs.short⟩
  induction h with
  | done n here => exact .done n here
  | stay h _ ih => exact .stay (hdir h) (ih hentry)
  | up h _ ih => exact .up (hdir h) (ih hentry)
  | free => exact absurd rfl hentry
  | keep _ _ hfollow => cases hfollow
  | link hs hlink hfollow _ ih =>
    obtain ⟨s, hs', hlike⟩ := hkeeps _ _ hlink
    rw [(hlike.link_iff _).1 rfl] at hs'
    exact .link (henters hs) hs' hfollow (ih hentry)
  | down hs hsome hlink _ ih =>
    obtain ⟨s₀, hs₀⟩ := Option.ne_none_iff_exists'.1 hsome
    obtain ⟨s, hs', hlike⟩ := hkeeps _ _ hs₀
    refine .down (henters hs) (by simp [hs']) (fun target hlink' => ?_) (ih hentry)
    rw [hs', Option.some.injEq] at hlink'
    exact hlink target (by rw [hs₀, (hlike.link_iff target).2 hlink'])

end Retains

section RootAt

variable {t t' : FileTree} {root : Path} {base : List String} {place : Place}

theorem RootAt.names_eq (h : t.RootAt root base) (hretains : Retains t.top t'.top)
    (hworkdir : t'.workdir = t.workdir) (hplace : t'.resolve root true = .ok place)
    (hentry : place.entry ≠ none) : place.names = base := by
  obtain ⟨es, hes⟩ := h
  obtain ⟨-, hwalks⟩ := walks_of_resolve hes
  obtain ⟨-, hwalks'⟩ := walks_of_resolve hplace
  rw [FileTree.base, hworkdir, ← FileTree.base] at hwalks'
  exact hwalks.names_eq hretains (by simp) hwalks' hentry

theorem resolve_of_keeps {p : Path} {names : List String} {e : Entry}
    (h : t.resolve p true = .ok ⟨names, some e⟩) (hkeeps : Keeps t.top t'.top)
    (hworkdir : t'.workdir = t.workdir) : t'.resolve p true = .ok ⟨names, t'.top.at? names⟩ := by
  obtain ⟨hp, hwalks⟩ := walks_of_resolve h
  have hbase : t'.base p = t.base p := by rw [FileTree.base, FileTree.base, hworkdir]
  exact resolve_of_walks hp (hbase ▸ hwalks.keeps hkeeps (by simp))

theorem RootAt.keeps (h : t.RootAt root base) (hkeeps : Keeps t.top t'.top)
    (hworkdir : t'.workdir = t.workdir) : t'.RootAt root base := by
  obtain ⟨s, hs, hlike⟩ := hkeeps _ _ h.dir
  rw [hlike.eq_dir] at hs
  obtain ⟨es', hes'⟩ := Entry.view_eq_some_dir_iff.1 hs
  obtain ⟨es, hes⟩ := h
  exact ⟨es', hes' ▸ resolve_of_keeps hes hkeeps hworkdir⟩

end RootAt

end Reroot.FileTree

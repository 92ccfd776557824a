import Reroot.Proofs.Path
import Reroot.Proofs.Files.View

namespace Reroot

def Entry.LinkFree (e : Entry) : Prop :=
  ∀ ns target, e.view ns ≠ some (.link target)

theorem Entry.linkFree_file (bytes : ByteArray) : (Entry.file bytes).LinkFree := by
  intro ns target
  cases ns with
  | nil => simp [shape]
  | cons n ns =>
    intro h
    cases h

theorem Entry.linkFree_dir {es : Entry.Listing} (h : ∀ e ∈ es, e.2.LinkFree) :
    (Entry.dir es).LinkFree := by
  intro ns target
  cases ns with
  | nil => simp [shape]
  | cons n ns =>
    rw [view_dir_cons, find?]
    cases hf : es.find? fun e => e.1 == n with
    | none =>
      intro h
      cases h
    | some e => exact h e (List.mem_of_find?_eq_some hf) ns target

namespace FileTree

def landing : List String → List String → List String
  | here, [] => here
  | here, s :: rest =>
    if s == "." then landing here rest
    else if s == ".." then landing here.dropLast rest
    else landing (here ++ [s]) rest

theorem landing_append (here as bs : List String) :
    landing here (as ++ bs) = landing (landing here as) bs := by
  induction as generalizing here with
  | nil => rfl
  | cons s as ih =>
    rw [List.cons_append, landing, landing]
    split
    · exact ih here
    · split
      · exact ih _
      · exact ih _

theorem landing_of_names {here names : List String} (h : ∀ s ∈ names, s ≠ "." ∧ s ≠ "..") :
    landing here names = here ++ names := by
  induction names generalizing here with
  | nil => simp [landing]
  | cons s names ih =>
    obtain ⟨⟨hdot, hup⟩, hnames⟩ := List.forall_mem_cons.1 h
    rw [landing, if_neg (by simpa using hdot), if_neg (by simpa using hup), ih hnames,
      List.append_assoc, List.singleton_append]

inductive Leads (top : Entry) : List String → List String → List String → Prop
  | done (here : List String) : Leads top here [] here
  | stay {here rest names : List String} (hdir : top.view here = some .dir)
      (h : Leads top here rest names) : Leads top here ("." :: rest) names
  | up {here rest names : List String} (hdir : top.view here = some .dir)
      (h : Leads top here.dropLast rest names) : Leads top here (".." :: rest) names
  | down {here rest names : List String} {s : String} (hdir : top.view here = some .dir)
      (hdot : s ≠ ".") (hup : s ≠ "..") (hshort : s.utf8ByteSize ≤ 255)
      (hnext : rest ≠ [] → top.view (here ++ [s]) ≠ none)
      (h : Leads top (here ++ [s]) rest names) : Leads top here (s :: rest) names

section Leads

variable {top : Entry} {here steps as bs names : List String}

theorem Leads.eq_landing (h : Leads top here steps names) : names = landing here steps := by
  induction h with
  | done => rfl
  | stay _ _ ih => exact ih
  | up _ _ ih => exact ih
  | down _ hdot hup _ _ _ ih =>
    rw [landing, if_neg (by simpa using hdot), if_neg (by simpa using hup)]
    exact ih

theorem view_dropLast (h : top.view here = some .dir) : top.view here.dropLast = some .dir := by
  by_cases hnil : here = []
  · rw [hnil] at h ⊢
    exact h
  · rw [← List.dropLast_append_getLast hnil] at h
    exact Entry.view_eq_dir_of_append (List.cons_ne_nil _ _) (by rw [h]; simp)

theorem Leads.start (h : Leads top here steps names) (hsteps : steps ≠ []) : top.view here = some .dir := by
  cases h with
  | done => exact absurd rfl hsteps
  | stay hdir | up hdir | down hdir => exact hdir

theorem Leads.short (h : Leads top here steps names) : ∀ s ∈ steps, s.utf8ByteSize ≤ 255 := by
  induction h with
  | done => simp
  | stay _ _ ih => exact List.forall_mem_cons.2 ⟨by decide, ih⟩
  | up _ _ ih => exact List.forall_mem_cons.2 ⟨by decide, ih⟩
  | down _ _ _ hshort _ _ ih => exact List.forall_mem_cons.2 ⟨hshort, ih⟩

theorem Leads.append (h : Leads top here (as ++ bs) names) {cs names' : List String}
    (hbs : bs ≠ []) (h' : Leads top (landing here as) cs names') : Leads top here (as ++ cs) names' := by
  induction as generalizing here with
  | nil => exact h'
  | cons s as ih =>
    rw [List.cons_append] at h ⊢
    cases h with
    | stay hdir h => exact .stay hdir (ih h h')
    | up hdir h => exact .up hdir (ih h h')
    | down hdir hdot hup hshort hnext h =>
      rw [landing, if_neg (by simpa using hdot), if_neg (by simpa using hup)] at h'
      exact .down hdir hdot hup hshort (fun _ => hnext (by simp [hbs])) (ih h h')

theorem Leads.of_names (hnames : ∀ s ∈ steps, s ≠ "." ∧ s ≠ "..")
    (hshort : ∀ s ∈ steps, s.utf8ByteSize ≤ 255) (hview : top.view (here ++ steps) ≠ none) :
    Leads top here steps (here ++ steps) := by
  induction steps generalizing here with
  | nil =>
    rw [List.append_nil]
    exact .done here
  | cons s steps ih =>
    obtain ⟨⟨hdot, hup⟩, hnames⟩ := List.forall_mem_cons.1 hnames
    obtain ⟨hs, hshort⟩ := List.forall_mem_cons.1 hshort
    have hsplit : here ++ s :: steps = here ++ [s] ++ steps := by simp
    rw [hsplit] at hview ⊢
    refine .down ?_ hdot hup hs (fun hne => ?_) (ih hnames hshort hview)
    · exact Entry.view_eq_dir_of_append (List.cons_ne_nil s steps) (by simpa using hview)
    · rw [Entry.view_eq_dir_of_append hne hview]
      simp

end Leads

structure Enters (top : Entry) (here : List String) (s : String) : Prop where
  dir : top.view here = some .dir
  notHere : s ≠ "."
  notUp : s ≠ ".."
  short : s.utf8ByteSize ≤ 255

inductive Walks (top : Entry) (follow : Bool) : Nat → List String → List String → Place → Prop
  | done (n : Nat) (here : List String) : Walks top follow n here [] ⟨here, top.at? here⟩
  | stay {n : Nat} {here rest : List String} {place : Place} (hdir : top.view here = some .dir)
      (h : Walks top follow n here rest place) : Walks top follow n here ("." :: rest) place
  | up {n : Nat} {here rest : List String} {place : Place} (hdir : top.view here = some .dir)
      (h : Walks top follow n here.dropLast rest place) : Walks top follow n here (".." :: rest) place
  | free {n : Nat} {here : List String} {s : String} (hs : Enters top here s)
      (hnone : top.view (here ++ [s]) = none) : Walks top follow n here [s] ⟨here ++ [s], none⟩
  | keep {n : Nat} {here : List String} {s target : String} (hs : Enters top here s)
      (hlink : top.view (here ++ [s]) = some (.link target)) (hfollow : follow = false) :
      Walks top follow n here [s] ⟨here ++ [s], some (.link target)⟩
  | link {n : Nat} {here rest : List String} {s target : String} {place : Place}
      (hs : Enters top here s) (hlink : top.view (here ++ [s]) = some (.link target))
      (hfollow : rest ≠ [] ∨ follow = true)
      (h : Walks top follow n (if (Path.mk target).isAbsolute then [] else here)
        (steps target ++ rest) place) : Walks top follow (n + 1) here (s :: rest) place
  | down {n : Nat} {here rest : List String} {s : String} {place : Place} (hs : Enters top here s)
      (hsome : top.view (here ++ [s]) ≠ none)
      (hlink : ∀ target, top.view (here ++ [s]) ≠ some (.link target))
      (h : Walks top follow n (here ++ [s]) rest place) : Walks top follow n here (s :: rest) place

section ResolveWith

variable {top : Entry} {follow : Bool} {onLink : List String → List String → Except OsError Place}
  {n : Nat} {here as rest names : List String} {place : Place}

theorem at?_snoc {es : Entry.Listing} {s : String} (h : top.at? here = some (.dir es)) :
    top.at? (here ++ [s]) = Entry.find? s es := by
  rw [Entry.at?_append, h, Option.bind_some, Entry.at?_dir_cons]
  cases Entry.find? s es <;> simp

theorem walks_of_resolveWith
    (hlink : ∀ start rest, onLink start rest = .ok place →
      ∃ m, n = m + 1 ∧ Walks top follow m start rest place)
    (h : resolveWith top follow onLink here as = .ok place) : Walks top follow n here as place := by
  induction as generalizing here with
  | nil =>
    rw [resolveWith] at h
    cases h
    exact .done n here
  | cons s rest ih =>
    rw [resolveWith] at h
    split at h
    · cases h
    · cases h
    · cases h
    next es hes =>
    have hdir := Entry.view_eq_some_dir_iff.2 ⟨es, hes⟩
    split at h
    · next hdot => exact beq_iff_eq.1 hdot ▸ .stay hdir (ih h)
    next hdot =>
    split at h
    · next hup => exact beq_iff_eq.1 hup ▸ .up hdir (ih h)
    next hup =>
    split at h
    · cases h
    next hshort =>
    have hs : Enters top here s := ⟨hdir, by simpa using hdot, by simpa using hup, Nat.not_lt.1 hshort⟩
    rw [← at?_snoc hes] at h
    split at h
    · next hx =>
      have hnone : top.view (here ++ [s]) = none := by rw [Entry.view, hx]; rfl
      split at h
      · next hrest =>
        cases h
        obtain rfl := List.isEmpty_iff.1 hrest
        exact .free hs hnone
      · cases h
    · next target hx =>
      have hview : top.view (here ++ [s]) = some (.link target) := by rw [Entry.view, hx]; rfl
      split at h
      · next hlast =>
        cases h
        rw [Bool.and_eq_true, List.isEmpty_iff, Bool.not_eq_true'] at hlast
        obtain ⟨rfl, rfl⟩ := hlast
        exact .keep hs hview rfl
      · next hlast =>
        obtain ⟨m, rfl, hwalks⟩ := hlink _ _ h
        refine .link hs hview ?_ hwalks
        rw [Bool.and_eq_true, List.isEmpty_iff, Bool.not_eq_true', not_and_or, Bool.not_eq_false] at hlast
        exact hlast
    · next x hnot hx =>
      have hview : top.view (here ++ [s]) = some x.shape := by rw [Entry.view, hx]; rfl
      refine .down hs (by simp [hview]) (fun target hlinked => ?_) (ih h)
      rw [hview] at hlinked
      cases x with
      | link => exact hnot _ rfl
      | file | dir => cases hlinked

theorem walks_of_resolveSteps (h : resolveSteps top follow n here as = .ok place) :
    Walks top follow n here as place := by
  induction n generalizing here as with
  | zero => exact walks_of_resolveWith (fun _ _ h => by cases h) h
  | succ n ih => exact walks_of_resolveWith (fun _ _ h => ⟨n, rfl, ih h⟩) h

theorem resolveWith_cons {s : String} (hs : Enters top here s) :
    resolveWith top follow onLink here (s :: rest) =
      match top.at? (here ++ [s]) with
      | none => if rest.isEmpty then .ok ⟨here ++ [s], none⟩ else .error .notFound
      | some (.link target) =>
        if rest.isEmpty && !follow then .ok ⟨here ++ [s], some (.link target)⟩
        else onLink (if (Path.mk target).isAbsolute then [] else here) (steps target ++ rest)
      | some _ => resolveWith top follow onLink (here ++ [s]) rest := by
  obtain ⟨es, hes⟩ := Entry.view_eq_some_dir_iff.1 hs.dir
  rw [resolveWith, hes, at?_snoc hes]
  cases hfind : Entry.find? s es with
  | none => simp [hs.notHere, hs.notUp, Nat.not_lt.2 hs.short, hfind]
  | some e => cases e <;> simp [hs.notHere, hs.notUp, Nat.not_lt.2 hs.short, hfind]

theorem resolveWith_of_leads (hfree : top.LinkFree) (h : Leads top here as names) :
    resolveWith top follow onLink here as = .ok ⟨names, top.at? names⟩ := by
  induction h with
  | done here => rw [resolveWith]
  | stay hdir _ ih =>
    obtain ⟨es, hes⟩ := Entry.view_eq_some_dir_iff.1 hdir
    rw [resolveWith, hes]
    exact ih
  | up hdir _ ih =>
    obtain ⟨es, hes⟩ := Entry.view_eq_some_dir_iff.1 hdir
    rw [resolveWith, hes]
    exact ih
  | @down here rest names s hdir hdot hup hshort hnext h ih =>
    rw [resolveWith_cons ⟨hdir, hdot, hup, hshort⟩]
    cases hx : top.at? (here ++ [s]) with
    | none =>
      obtain rfl : rest = [] := by
        by_contra hne
        exact hnext hne (by rw [Entry.view, hx]; rfl)
      cases h
      simp [hx]
    | some x =>
      cases x with
      | link target => exact absurd (by rw [Entry.view, hx]; rfl) (hfree (here ++ [s]) target)
      | file | dir => exact ih

theorem leads_of_walks (hfree : top.LinkFree) (h : Walks top follow n here as place) :
    Leads top here as place.names ∧ place.entry = top.at? place.names := by
  induction h with
  | done n here => exact ⟨.done here, rfl⟩
  | stay hdir _ ih => exact ⟨.stay hdir ih.1, ih.2⟩
  | up hdir _ ih => exact ⟨.up hdir ih.1, ih.2⟩
  | free hs hnone =>
    exact ⟨.down hs.dir hs.notHere hs.notUp hs.short (by simp) (.done _),
      (Option.map_eq_none_iff.1 hnone).symm⟩
  | keep _ hlink | link _ hlink => exact absurd hlink (hfree _ _)
  | down hs hsome _ _ ih =>
    exact ⟨.down hs.dir hs.notHere hs.notUp hs.short (fun _ => hsome) ih.1, ih.2⟩

end ResolveWith

def view (t : FileTree) (ns : List String) : Option Shape :=
  t.top.view ns

def base (t : FileTree) (p : Path) : List String :=
  if p.isAbsolute then [] else t.workdir

theorem steps_ne_nil {p : Path} (hp : p.text ≠ "") : steps p.text ≠ [] := by
  unfold steps
  split
  · simp
  · next h => exact Path.pieces_ne_nil hp (by simpa using h)

section Resolve

variable {t : FileTree} {p : Path} {follow : Bool} {place : Place} {names : List String}

theorem resolveSteps_eq (top : Entry) (follow : Bool) (n : Nat) :
    ∃ onLink, resolveSteps top follow n = resolveWith top follow onLink := by
  cases n with
  | zero => exact ⟨_, rfl⟩
  | succ n => exact ⟨_, rfl⟩

structure Reaches (t : FileTree) (p : Path) (names : List String) : Prop where
  text_ne : p.text ≠ ""
  leads : Leads t.top (t.base p) (steps p.text) names

theorem reaches_of_resolve (hfree : t.top.LinkFree) (h : t.resolve p follow = .ok place) :
    t.Reaches p place.names ∧ place.entry = t.top.at? place.names := by
  unfold resolve at h
  split at h
  · cases h
  · next hp =>
    obtain ⟨hl, he⟩ := leads_of_walks hfree (walks_of_resolveSteps h)
    exact ⟨⟨by simpa using hp, hl⟩, he⟩

theorem Reaches.resolve (hfree : t.top.LinkFree) (h : t.Reaches p names) (follow : Bool) :
    t.resolve p follow = .ok ⟨names, t.top.at? names⟩ := by
  unfold FileTree.resolve
  rw [if_neg (by simpa using h.text_ne)]
  obtain ⟨onLink, hsteps⟩ := resolveSteps_eq t.top follow 40
  rw [hsteps]
  exact resolveWith_of_leads hfree h.leads

theorem entry?_eq_ok_iff (hfree : t.top.LinkFree) {e : Entry} :
    t.entry? p follow = .ok e ↔ ∃ names, t.Reaches p names ∧ t.top.at? names = some e := by
  unfold entry?
  constructor
  · intro h
    split at h
    · next names e' hr =>
      cases h
      obtain ⟨hreach, he⟩ := reaches_of_resolve hfree hr
      exact ⟨names, hreach, he.symm⟩
    · cases h
    · cases h
  · rintro ⟨names, hreach, he⟩
    rw [hreach.resolve hfree, he]

theorem isPresent_iff (hfree : t.top.LinkFree) :
    t.isPresent p = true ↔ ∃ names, t.Reaches p names ∧ t.view names ≠ none := by
  unfold isPresent
  constructor
  · intro h
    cases he : t.entry? p true with
    | error e =>
      rw [he] at h
      cases h
    | ok e =>
      obtain ⟨names, hreach, hat⟩ := (entry?_eq_ok_iff hfree).1 he
      refine ⟨names, hreach, ?_⟩
      rw [view, Entry.view, hat]
      simp
  · rintro ⟨names, hreach, hview⟩
    obtain ⟨e, he⟩ : ∃ e, t.top.at? names = some e := by
      cases hx : t.top.at? names with
      | none =>
        rw [view, Entry.view, hx] at hview
        exact absurd rfl hview
      | some e => exact ⟨e, rfl⟩
    rw [(entry?_eq_ok_iff hfree).2 ⟨names, hreach, he⟩]
    rfl

theorem isFile_iff (hfree : t.top.LinkFree) :
    t.isFile p = true ↔ ∃ names bytes, t.Reaches p names ∧ t.view names = some (.file bytes) := by
  unfold isFile
  constructor
  · intro h
    cases he : t.entry? p true with
    | error e =>
      rw [he] at h
      cases h
    | ok e =>
      obtain ⟨names, hreach, hat⟩ := (entry?_eq_ok_iff hfree).1 he
      rw [he] at h
      cases e with
      | file bytes => exact ⟨names, bytes, hreach, by rw [view, Entry.view, hat]; rfl⟩
      | link | dir => cases h
  · rintro ⟨names, bytes, hreach, hview⟩
    obtain ⟨e, he, hshape⟩ := Option.map_eq_some_iff.1 hview
    rw [(entry?_eq_ok_iff hfree).2 ⟨names, hreach, he⟩]
    cases e with
    | file => rfl
    | link | dir => cases hshape

theorem readText_ok (hfree : t.top.LinkFree) {text : String} (h : t.readText p = .ok text) :
    ∃ names bytes, t.Reaches p names ∧ t.view names = some (.file bytes) ∧
      String.fromUTF8? bytes = some text := by
  unfold readText at h
  split at h
  · cases h
  · next bytes he =>
    obtain ⟨names, hreach, hat⟩ := (entry?_eq_ok_iff hfree).1 he
    refine ⟨names, bytes, hreach, by rw [view, Entry.view, hat]; rfl, ?_⟩
    split at h
    · next hdecode =>
      cases h
      exact hdecode
    · cases h
  · cases h

end Resolve

def place (t : FileTree) (root : Path) : List String :=
  landing (t.base root) root.pieces

section Place

variable {t t' : FileTree} {root p : Path} {names : List String}

theorem place_eq (hw : t'.workdir = t.workdir) : t'.place root = t.place root := by
  rw [place, place, base, base, hw]

theorem steps_join (hp : p.IsPlain) : steps (root.join p).text = root.pieces ++ p.pieces := by
  unfold steps
  rw [if_neg (by simp [hp.isSlashed_join])]
  exact Path.pieces_join hp.relative

theorem base_join (hp : p.IsPlain) : t.base (root.join p) = t.base root := by
  rw [base, base, Path.isAbsolute_join hp.relative]

theorem Reaches.eq_place (h : t.Reaches root names) : names = t.place root := by
  rw [h.leads.eq_landing, place, steps]
  split
  · rw [landing_append]
    rfl
  · rfl

theorem Reaches.eq_place_append (hp : p.IsPlain) (h : t.Reaches (root.join p) names) :
    names = t.place root ++ p.pieces := by
  rw [h.leads.eq_landing, steps_join hp, base_join hp, landing_append, landing_of_names hp.names,
    place]

end Place

end FileTree

end Reroot

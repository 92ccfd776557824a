import Mathlib.Data.Set.Card
import Mathlib.Data.Set.Finite.Lattice
import Reroot.Proofs.Change.Atomicity
import Reroot.Proofs.Change.Success

namespace Reroot

namespace Entry

variable {e : Entry} {es : Listing} {ns : List String}

def files (e : Entry) : Set (List String) :=
  {ns | ∃ bytes, e.view ns = some (.file bytes)}

theorem finite_files_dir (h : ∀ x ∈ es, x.2.files.Finite) : (dir es).files.Finite := by
  refine (Set.Finite.biUnion es.finite_toSet fun x hx => (h x hx).image (x.1 :: ·)).subset ?_
  rintro ns ⟨bytes, hview⟩
  cases ns with
  | nil => simp [shape] at hview
  | cons n ns =>
    rw [view_dir_cons] at hview
    obtain ⟨x, hfind, hview⟩ := Option.bind_eq_some_iff.1 hview
    exact Set.mem_biUnion (mem_of_find? hfind) ⟨ns, ⟨bytes, hview⟩, rfl⟩

theorem finite_files (e : Entry) : e.files.Finite :=
  match e with
  | file _ | link _ => (Set.finite_singleton []).subset fun ns ⟨_, hview⟩ => by
      cases ns with
      | nil => rfl
      | cons => cases hview
  | dir es => finite_files_dir fun x _ => finite_files x.2
termination_by e
decreasing_by
  have hmem : sizeOf x < sizeOf es := List.sizeOf_lt_of_mem ‹_›
  have hentry : sizeOf x = 1 + sizeOf x.1 + sizeOf x.2 := by cases x; rfl
  simp only [dir.sizeOf_spec]
  omega

end Entry

namespace FileTree

variable {t u t' : FileTree} {ns names a b : List String} {bytes : ByteArray}

def files (t : FileTree) : Set (List String) :=
  {ns | ∃ bytes, t.view ns = some (.file bytes)}

def holdsFile (t : FileTree) (ns : List String) : Bool :=
  (t.top.at? ns).any Entry.isFile

theorem mem_files : ns ∈ t.files ↔ ∃ bytes, t.view ns = some (.file bytes) :=
  Iff.rfl

theorem finite_files (t : FileTree) : t.files.Finite :=
  t.top.finite_files

theorem holdsFile_iff : t.holdsFile ns = true ↔ ns ∈ t.files := by
  rw [holdsFile, mem_files, view, Entry.view]
  cases t.top.at? ns with
  | none => simp
  | some e => cases e <;> simp [Entry.isFile, Entry.shape]

theorem Extends.files_eq (h : t.Extends t') : t'.files = t.files := by
  ext ns
  by_cases hnone : t.view ns = none
  · obtain hnew | hnew := h.new ns hnone <;> simp [mem_files, hnone, hnew]
  · rw [mem_files, mem_files, h.kept ns hnone]

theorem Puts.files_eq (h : t.Puts names (.file bytes) t') : t'.files = insert names t.files := by
  ext ns
  rw [mem_files, h.view, Set.mem_insert_iff]
  by_cases hns : ns = names
  · rw [if_pos hns]
    exact iff_of_true ⟨bytes, rfl⟩ (.inl hns)
  · rw [if_neg hns]
    exact (or_iff_right hns).symm

def rebase (a b ns : List String) : List String :=
  if a <+: ns then b ++ ns.drop a.length else ns

theorem rebase_append (a b rest : List String) : rebase a b (a ++ rest) = b ++ rest := by
  rw [rebase, if_pos (List.prefix_append a rest), List.drop_left]

theorem rebase_self (a ns : List String) : rebase a a ns = ns := by
  unfold rebase
  split
  · next h =>
    obtain ⟨rest, rfl⟩ := h
    rw [List.drop_left]
  · rfl

structure WritesAt (t : FileTree) (p : Path) (text : String) (t' : FileTree) : Prop where
  reaches : t.Reaches p (t.place p)
  notDir : t.view (t.place p) ≠ some .dir
  puts : t.Puts (t.place p) (.file text.toUTF8) t'

theorem writesAt_of_writeText {p : Path} {text : String} (hfree : t.top.LinkFree)
    (h : writeText p text t = .ok () t') : t.WritesAt p text t' := by
  obtain ⟨names, hreach, hdir, hputs⟩ := writeBytes_ok hfree h
  obtain rfl := hreach.eq_place
  exact ⟨hreach, hdir, hputs⟩

theorem keeps_trans {top top' top'' : Entry} (h : Keeps top top') (h' : Keeps top' top'') :
    Keeps top top'' := by
  intro ns s hs
  obtain ⟨s', hs', hlike⟩ := h ns s hs
  obtain ⟨s'', hs'', hlike'⟩ := h' ns s' hs'
  exact ⟨s'', hs'', hlike.trans hlike'⟩

theorem WritesAt.keeps {p : Path} {text : String} (h : t.WritesAt p text t')
    (hfree : t.top.LinkFree) : Keeps t.top t'.top := by
  intro ns s hs
  change t.view ns = some s at hs
  by_cases hns : ns = t.place p
  · refine ⟨.file text.toUTF8, (h.puts.view ns).trans (if_pos hns), ?_⟩
    cases s with
    | file bytes => exact .file bytes _
    | link target => exact absurd hs (hfree ns target)
    | dir => exact absurd (hns ▸ hs) h.notDir
  · exact ⟨s, ((h.puts.view ns).trans (if_neg hns)).trans hs, .refl s⟩

section Moves

variable (h : t.Moves a b t')

include h

theorem Moves.ne : a ≠ b := by
  rintro rfl
  exact h.apart.1 List.prefix_rfl

theorem Moves.not_isPrefix (hns : ns ∈ t.files \ {b}) : ¬b <+: ns := by
  rintro ⟨rest, rfl⟩
  obtain ⟨⟨bytes, hview⟩, hne⟩ := hns
  rw [h.clear rest (by rintro rfl; exact hne (List.append_nil b))] at hview
  cases hview

theorem Moves.view_rebase (hns : ns ∈ t.files \ {b}) : t'.view (rebase a b ns) = t.view ns := by
  rw [h.view]
  by_cases hbelow : a <+: ns
  · obtain ⟨rest, rfl⟩ := hbelow
    rw [rebase_append, if_pos (List.prefix_append b rest), List.drop_left]
  · rw [rebase, if_neg hbelow, if_neg (h.not_isPrefix hns), if_neg hbelow]

theorem Moves.files_eq : t'.files = rebase a b '' (t.files \ {b}) := by
  ext ns
  constructor
  · rintro ⟨bytes, hview⟩
    rw [h.view] at hview
    split at hview
    · next hprefix =>
      obtain ⟨rest, rfl⟩ := hprefix
      rw [List.drop_left] at hview
      refine ⟨a ++ rest, ⟨⟨bytes, hview⟩, fun heq => ?_⟩, rebase_append a b rest⟩
      exact h.apart.1 ⟨rest, heq⟩
    split at hview
    · cases hview
    · next hb ha =>
      refine ⟨ns, ⟨⟨bytes, hview⟩, fun heq => hb ?_⟩, by rw [rebase, if_neg ha]⟩
      rw [Set.mem_singleton_iff.1 heq]
  · rintro ⟨ns, hns, rfl⟩
    obtain ⟨bytes, hview⟩ := hns.1
    exact ⟨bytes, (h.view_rebase hns).trans hview⟩

theorem Moves.injOn : Set.InjOn (rebase a b) (t.files \ {b}) := by
  have apart {ns ms : List String} (hms : ms ∈ t.files \ {b}) (hns : a <+: ns) (hnot : ¬a <+: ms) :
      rebase a b ns ≠ rebase a b ms := by
    obtain ⟨rest, rfl⟩ := hns
    rw [rebase_append, rebase, if_neg hnot]
    rintro rfl
    exact h.not_isPrefix hms (List.prefix_append b rest)
  intro ns hns ms hms heq
  by_cases ha : a <+: ns <;> by_cases ha' : a <+: ms
  · obtain ⟨rest, rfl⟩ := ha
    obtain ⟨rest', rfl⟩ := ha'
    rw [rebase_append, rebase_append] at heq
    rw [List.append_cancel_left heq]
  · exact absurd heq (apart hms ha ha')
  · exact absurd heq.symm (apart hns ha' ha)
  · rwa [rebase, rebase, if_neg ha, if_neg ha'] at heq

theorem Moves.ncard_files :
    t'.files.ncard + (if t.holdsFile b then 1 else 0) = t.files.ncard := by
  rw [h.files_eq, h.injOn.ncard_image]
  by_cases hb : t.holdsFile b = true
  · rw [if_pos hb, Set.ncard_sdiff_singleton_add_one (holdsFile_iff.1 hb) t.finite_files]
  · rw [if_neg hb, Set.sdiff_singleton_eq_self (mt holdsFile_iff.2 hb), Nat.add_zero]

end Moves

end FileTree

namespace Change

open FileTree

variable {t t' : FileTree} {root : Path} {c : Change} {cs pre post : List Change} {n : Nat}
  {ns : List String} {bytes : ByteArray}

def carry (root : Path) (t : FileTree) : Change → List String → List String
  | create .. => id
  | edit .. => id
  | move source target => rebase (t.place (root.join source).bare) (t.place (root.join target).bare)

def replaces (root : Path) (t : FileTree) : Change → Bool
  | create path _ => !t.isPresent (root.join path) && t.holdsFile (t.place (root.join path))
  | edit .. => false
  | move source target =>
    t.place (root.join source).bare != t.place (root.join target).bare
      && t.holdsFile (t.place (root.join target).bare)

def replaced (root : Path) : List Change → FileTree → List Change
  | [], _ => []
  | c :: cs, t =>
    match c.perform root t with
    | .error _ _ => []
    | .ok _ t' => if c.replaces root t then c :: replaced root cs t' else replaced root cs t'

def IsGrounded (root : Path) (t : FileTree) : Change → Prop
  | edit path .. => t.place (root.join path) ∈ t.files
  | _ => True

theorem isGrounded_of_check (hfree : t.top.LinkFree) (h : c.check t root = .ok ()) :
    c.IsGrounded root t := by
  cases c with
  | create | move => trivial
  | edit path k expected updated =>
    cases hread : t.readText (root.join path) with
    | error e => simp [check_edit, hread] at h
    | ok text =>
      obtain ⟨names, bytes, hreach, hview, -⟩ := readText_ok hfree hread
      exact ⟨bytes, hreach.eq_place ▸ hview⟩

theorem IsGrounded.grows (h : c.IsGrounded root t) (ht : t.Grows t') : c.IsGrounded root t' := by
  cases c with
  | create | move => trivial
  | edit path =>
    obtain ⟨bytes, hview⟩ := h
    rw [IsGrounded, place_eq ht.workdir]
    exact ht.file _ bytes hview

theorem carry_eq (hw : t'.workdir = t.workdir) : c.carry root t' = c.carry root t := by
  cases c with
  | create | edit => rfl
  | move => rw [carry, carry, place_eq hw, place_eq hw]

theorem writesAt_of_perform_create {path : Path} {content : String} (hfree : t.top.LinkFree)
    (h : (create path content).perform root t = .ok n t') :
    t.isPresent (root.join path) = true ∧ n = 0 ∧ t' = t ∨
      t.isPresent (root.join path) = false ∧ n = 1 ∧
        ∃ u, t.Extends u ∧ u.WritesAt (root.join path) content t' := by
  refine (perform_create_ok h).imp id fun ⟨hpresent, hn, u, hparents, hwrite⟩ => ?_
  have hextends := (widening_makeParents _).ok hparents
  exact ⟨hpresent, hn, u, hextends, writesAt_of_writeText (hextends.linkFree hfree) hwrite⟩

theorem perform_edit_ok {path : Path} {k : Nat} {expected updated : String}
    (hfree : t.top.LinkFree) (h : (edit path k expected updated).perform root t = .ok n t') :
    n = 1 ∧ t.WritesAt (root.join path) updated t' := by
  obtain ⟨_, _, hwrite, h⟩ := exists_of_bind_ok h
  cases h
  exact ⟨rfl, writesAt_of_writeText hfree hwrite⟩

theorem perform_move_places {source target : Path} (hfree : t.top.LinkFree)
    (h : (move source target).perform root t = .ok n t') :
    n = 1 ∧ ∃ u, t.Extends u ∧
      (t.place (root.join source).bare = t.place (root.join target).bare ∧ t' = u ∨
        u.Moves (t.place (root.join source).bare) (t.place (root.join target).bare) t') := by
  obtain ⟨u, a, b, hextends, ha, hb, hmoves⟩ := perform_move_ok hfree h
  rw [ha.eq_place, hb.eq_place, place_eq hextends.workdir, place_eq hextends.workdir] at hmoves
  have hn : n = 1 := by
    obtain ⟨_, _, -, h⟩ := exists_of_bind_ok h
    obtain ⟨_, _, -, h⟩ := exists_of_bind_ok h
    cases h
    rfl
  exact ⟨hn, u, hextends, hmoves.imp_left fun ⟨heq, _, hsame⟩ => ⟨heq, hsame⟩⟩

theorem keeps_of_perform (hfree : t.top.LinkFree) (hc : c.isMove = false)
    (h : c.perform root t = .ok n t') : Keeps t.top t'.top := by
  cases c with
  | move => cases hc
  | edit => exact (perform_edit_ok hfree h).2.keeps hfree
  | create path content =>
    obtain ⟨-, -, rfl⟩ | ⟨-, -, u, hextends, hwrites⟩ := writesAt_of_perform_create hfree h
    · exact fun ns s hs => ⟨s, hs, .refl s⟩
    · exact keeps_trans hextends.keeps (hwrites.keeps (hextends.linkFree hfree))

theorem keeps_of_performAll (hfree : t.top.LinkFree) (hcs : ∀ c ∈ cs, c.isMove = false)
    (h : performAll root cs t = .ok n t') : Keeps t.top t'.top := by
  refine related_of_performAll (R := fun t t' => Keeps t.top t'.top)
    (J := fun cs t => t.top.LinkFree ∧ ∀ c ∈ cs, c.isMove = false)
    (fun _ ns s hs => ⟨s, hs, .refl s⟩) keeps_trans (fun {c cs t u m} hinv hfirst => ?_)
    ⟨hfree, hcs⟩ h
  obtain ⟨hfree, hcs⟩ := hinv
  obtain ⟨hc, hcs⟩ := List.forall_mem_cons.1 hcs
  exact ⟨keeps_of_perform hfree hc hfirst, (steady_of_perform hfree hfirst).linkFree hfree, hcs⟩

theorem IsGrounded.of_perform {d : Change} (hfree : t.top.LinkFree)
    (h : c.perform root t = .ok n t') (hpair : c.isMove = true → d.isMove = true)
    (hd : d.IsGrounded root t) : d.IsGrounded root t' := by
  by_cases hc : c.isMove = false
  · exact hd.grows (grows_of_perform hfree hc h)
  · cases d with
    | create | move => trivial
    | edit => cases hpair (by simpa using hc)

theorem made_cons (h : c.perform root t = .ok n t') (cs : List Change) :
    made root (c :: cs) t = made root [c] t ++ made root cs t' := by
  cases n <;> simp [made, h]

theorem replaced_cons (h : c.perform root t = .ok n t') (cs : List Change) :
    replaced root (c :: cs) t = replaced root [c] t ++ replaced root cs t' := by
  simp only [replaced, h]
  split <;> rfl

theorem ncard_of_perform (hfree : t.top.LinkFree) (hc : c.IsGrounded root t)
    (h : c.perform root t = .ok n t') :
    t'.files.ncard + (replaced root [c] t).length =
      t.files.ncard + ((made root [c] t).filter isCreate).length := by
  have hreplaced : (replaced root [c] t).length = if c.replaces root t then 1 else 0 := by
    simp only [replaced, h]
    split <;> rfl
  rw [hreplaced]
  cases c with
  | create path content =>
    obtain ⟨hpresent, rfl, rfl⟩ | ⟨hpresent, rfl, u, hextends, hwrites⟩ := writesAt_of_perform_create hfree h
    · simp [replaces, hpresent, made, h]
    · have hfiles := hwrites.puts.files_eq
      rw [hextends.files_eq, place_eq hextends.workdir] at hfiles
      have hmade : ((made root [create path content] t).filter isCreate).length = 1 := by
        rw [made, h]
        rfl
      rw [hmade, hfiles, replaces, hpresent, Bool.not_false, Bool.true_and]
      by_cases hfile : t.holdsFile (t.place (root.join path)) = true
      · rw [if_pos hfile, Set.insert_eq_of_mem (holdsFile_iff.1 hfile)]
      · rw [if_neg hfile, Set.ncard_insert_of_notMem (mt holdsFile_iff.2 hfile) t.finite_files]
  | edit path k expected updated =>
    obtain ⟨rfl, hwrites⟩ := perform_edit_ok hfree h
    rw [hwrites.puts.files_eq, Set.insert_eq_of_mem hc]
    simp [replaces, made, h, isCreate]
  | move source target =>
    obtain ⟨rfl, u, hextends, ⟨heq, hsame⟩ | hmoves⟩ := perform_move_places hfree h
    · rw [hsame, hextends.files_eq]
      simp [replaces, heq, made, h, isCreate]
    · have hcount := hmoves.ncard_files
      have hholds : u.holdsFile (t.place (root.join target).bare) =
          t.holdsFile (t.place (root.join target).bare) := by
        rw [Bool.eq_iff_iff, holdsFile_iff, holdsFile_iff, hextends.files_eq]
      rw [hholds, hextends.files_eq] at hcount
      simpa [replaces, hmoves.ne, made, h, isCreate] using hcount

theorem ncard_of_performAll (hfree : t.top.LinkFree)
    (hpairs : cs.Pairwise fun c d => c.isMove = true → d.isMove = true)
    (hcs : ∀ c ∈ cs, c.IsGrounded root t) (h : performAll root cs t = .ok n t') :
    t'.files.ncard + (replaced root cs t).length =
      t.files.ncard + ((made root cs t).filter isCreate).length := by
  induction cs generalizing t n with
  | nil =>
    cases h
    rfl
  | cons c cs ih =>
    obtain ⟨hc, hcs⟩ := List.forall_mem_cons.1 hcs
    obtain ⟨hhead, hpairs⟩ := List.pairwise_cons.1 hpairs
    obtain ⟨_, t₁, _, hfirst, hrest⟩ := performAll_cons_ok h
    have hstep := ncard_of_perform hfree hc hfirst
    have hlater := ih ((steady_of_perform hfree hfirst).linkFree hfree) hpairs
      (fun d hd => (hcs d hd).of_perform hfree hfirst (hhead d hd)) hrest
    rw [made_cons hfirst, replaced_cons hfirst, List.filter_append, List.length_append,
      List.length_append]
    omega

def carried (root : Path) (t : FileTree) (cs : List Change) (ns : List String) : List String :=
  cs.foldl (fun ns c => c.carry root t ns) ns

def Rewords (root : Path) (t : FileTree) (ns : List String) (bytes : ByteArray) : Change → Prop
  | edit path _ _ updated => t.place (root.join path) = ns ∧ bytes = updated.toUTF8
  | _ => False

theorem carried_congr (hw : t'.workdir = t.workdir) (cs : List Change) :
    carried root t' cs = carried root t cs := by
  funext ns
  simp only [carried, carry_eq hw]

theorem carry_eq_or (root : Path) (t : FileTree) (c : Change) (ns : List String) :
    c.carry root t ns = ns ∨
      ∃ source target, c = .move source target ∧
        t.place (root.join target).bare <+: c.carry root t ns := by
  cases c with
  | create | edit => exact .inl rfl
  | move source target =>
    by_cases hbelow : t.place (root.join source).bare <+: ns
    · obtain ⟨rest, rfl⟩ := hbelow
      refine .inr ⟨source, target, rfl, ?_⟩
      rw [carry, rebase_append]
      exact List.prefix_append _ rest
    · exact .inl (by rw [carry, rebase, if_neg hbelow])

theorem carried_eq_or (root : Path) (t : FileTree) (cs : List Change) (ns : List String) :
    carried root t cs ns = ns ∨
      ∃ source target, .move source target ∈ cs ∧
        t.place (root.join target).bare <+: carried root t cs ns := by
  induction cs generalizing ns with
  | nil => exact .inl rfl
  | cons c cs ih =>
    change carried root t cs (c.carry root t ns) = ns ∨ ∃ source target, _ ∧
      t.place (root.join target).bare <+: carried root t cs (c.carry root t ns)
    obtain hstays | ⟨source, target, hmem, hbelow⟩ := ih (c.carry root t ns)
    · rw [hstays]
      refine (carry_eq_or root t c ns).imp_right ?_
      rintro ⟨source, target, rfl, hbelow⟩
      exact ⟨source, target, List.mem_cons_self, hbelow⟩
    · exact .inr ⟨source, target, List.mem_cons_of_mem c hmem, hbelow⟩

section Kept

variable (hfree : t.top.LinkFree) (h : c.perform root t = .ok n t') (hkept : c.replaces root t = false)

include hfree h hkept

theorem file_of_perform (hview : t.view ns = some (.file bytes)) :
    ∃ bytes', t'.view (c.carry root t ns) = some (.file bytes') ∧
      (bytes' = bytes ∨ c.Rewords root t ns bytes') := by
  cases c with
  | create path content =>
    obtain ⟨-, -, rfl⟩ | ⟨hpresent, -, u, hextends, hwrites⟩ := writesAt_of_perform_create hfree h
    · exact ⟨bytes, hview, .inl rfl⟩
    · have hne : ns ≠ u.place (root.join path) := by
        rintro rfl
        rw [place_eq hextends.workdir] at hview
        simp [replaces, hpresent, holdsFile_iff.2 ⟨bytes, hview⟩] at hkept
      refine ⟨bytes, ?_, .inl rfl⟩
      rw [carry, id, hwrites.puts.view, if_neg hne, hextends.kept _ (by simp [hview]), hview]
  | edit path k expected updated =>
    obtain ⟨-, hwrites⟩ := perform_edit_ok hfree h
    by_cases hns : ns = t.place (root.join path)
    · exact ⟨_, (hwrites.puts.view ns).trans (if_pos hns), .inr ⟨hns.symm, rfl⟩⟩
    · exact ⟨bytes, ((hwrites.puts.view ns).trans (if_neg hns)).trans hview, .inl rfl⟩
  | move source target =>
    obtain ⟨-, u, hextends, ⟨heq, hsame⟩ | hmoves⟩ := perform_move_places hfree h
    · refine ⟨bytes, ?_, .inl rfl⟩
      rw [carry, heq, rebase_self, hsame, hextends.kept _ (by simp [hview]), hview]
    · have hview' : u.view ns = some (.file bytes) := by
        rw [hextends.kept _ (by simp [hview]), hview]
      have hne : ns ≠ t.place (root.join target).bare := by
        intro heq
        rw [heq] at hview
        simp [replaces, hmoves.ne, holdsFile_iff.2 ⟨bytes, hview⟩] at hkept
      refine ⟨bytes, ?_, .inl rfl⟩
      rw [carry, hmoves.view_rebase ⟨⟨bytes, hview'⟩, hne⟩, hview']

theorem injOn_carry : Set.InjOn (c.carry root t) t.files := by
  cases c with
  | create | edit => exact Set.injOn_id _
  | move source target =>
    obtain ⟨-, u, hextends, ⟨heq, -⟩ | hmoves⟩ := perform_move_places hfree h
    · intro ns _ ms _ hsame
      rwa [carry, heq, rebase_self, rebase_self] at hsame
    · rw [carry]
      refine hmoves.injOn.mono ?_
      rw [hextends.files_eq]
      intro ns hns
      refine ⟨hns, fun heq => ?_⟩
      rw [Set.mem_singleton_iff.1 heq] at hns
      simp [replaces, hmoves.ne, holdsFile_iff.2 hns] at hkept

end Kept

theorem files_of_performAll (hfree : t.top.LinkFree)
    (hpairs : cs.Pairwise fun c d => c.isMove = true → d.isMove = true)
    (h : performAll root cs t = .ok n t') (hnone : replaced root cs t = []) :
    Set.InjOn (carried root t cs) t.files ∧
      ∀ ns bytes, t.view ns = some (.file bytes) →
        ∃ bytes', t'.view (carried root t cs ns) = some (.file bytes') ∧
          (bytes' = bytes ∨ ∃ c ∈ cs, c.Rewords root t ns bytes') := by
  induction cs generalizing t n with
  | nil =>
    cases h
    exact ⟨Set.injOn_id _, fun ns bytes hview => ⟨bytes, hview, .inl rfl⟩⟩
  | cons c cs ih =>
    obtain ⟨hhead, hpairs⟩ := List.pairwise_cons.1 hpairs
    obtain ⟨_, t₁, _, hfirst, hrest⟩ := performAll_cons_ok h
    rw [replaced_cons hfirst, List.append_eq_nil_iff] at hnone
    have hkept : c.replaces root t = false := by
      by_contra hreplaces
      simp [replaced, hfirst, hreplaces] at hnone
    have hsteady := steady_of_perform hfree hfirst
    obtain ⟨hinj, hfile⟩ := ih (hsteady.linkFree hfree) hpairs hrest hnone.2
    rw [carried_congr hsteady.workdir] at hinj
    rw [carried_congr hsteady.workdir] at hfile
    have hmaps : Set.MapsTo (c.carry root t) t.files t₁.files := by
      rintro ns ⟨bytes, hview⟩
      obtain ⟨bytes', hview', -⟩ := file_of_perform hfree hfirst hkept hview
      exact ⟨bytes', hview'⟩
    refine ⟨hinj.comp (injOn_carry hfree hfirst hkept) hmaps, fun ns bytes hview => ?_⟩
    obtain ⟨bytes₁, hview₁, hbytes₁⟩ := file_of_perform hfree hfirst hkept hview
    obtain ⟨bytes', hview', hbytes'⟩ := hfile _ bytes₁ hview₁
    refine ⟨bytes', hview', ?_⟩
    obtain rfl | ⟨d, hd, hrewords⟩ := hbytes'
    · exact hbytes₁.imp_right fun hrewords => ⟨c, List.mem_cons_self, hrewords⟩
    · refine .inr ⟨d, List.mem_cons_of_mem c hd, ?_⟩
      cases d with
      | create | move => exact hrewords.elim
      | edit path k expected updated =>
        obtain ⟨hplace, htext⟩ := hrewords
        rw [place_eq hsteady.workdir] at hplace
        cases c with
        | create | edit => exact ⟨hplace, htext⟩
        | move => cases hhead _ hd rfl

def HasPlainPaths : Change → Prop
  | create path _ => path.IsPlain
  | edit path .. => path.IsPlain
  | move source target => source.IsPlain ∧ target.IsPlain

theorem exists_of_mem_replaced (h : performAll root cs t = .ok n t') (hmem : c ∈ replaced root cs t) :
    ∃ pre post m t₁ k t₂, cs = pre ++ c :: post ∧ performAll root pre t = .ok m t₁ ∧
      c.perform root t₁ = .ok k t₂ ∧ c.replaces root t₁ = true := by
  induction cs generalizing t n with
  | nil => cases hmem
  | cons d cs ih =>
    obtain ⟨j, t₁, _, hfirst, hrest⟩ := performAll_cons_ok h
    rw [replaced_cons hfirst] at hmem
    obtain hmem | hmem := List.mem_append.1 hmem
    · simp only [replaced, hfirst] at hmem
      split at hmem
      · next hreplaces =>
        obtain rfl := List.mem_singleton.1 hmem
        exact ⟨[], cs, 0, t, j, t₁, rfl, rfl, hfirst, hreplaces⟩
      · cases hmem
    · obtain ⟨pre, post, m, t₂, k, t₃, rfl, hpre, hc, hreplaces⟩ := ih hrest hmem
      refine ⟨d :: pre, post, j + m, t₂, k, t₃, rfl, ?_, hc, hreplaces⟩
      rw [performAll, bind_of_ok hfirst, bind_of_ok hpre]
      rfl

theorem replaces_create_eq_false {base : List String} {path : Path} {content : String}
    (hfree : t.top.LinkFree) (hroot : t.RootAt root base) (hpath : path.IsPlain)
    (h : (create path content).perform root t = .ok n t') :
    (create path content).replaces root t = false := by
  obtain ⟨hpresent, -, -⟩ | ⟨hpresent, -, u, hextends, hwrites⟩ := writesAt_of_perform_create hfree h
  · simp [replaces, hpresent]
  have hshort : ∀ s ∈ path.pieces, s.utf8ByteSize ≤ 255 := fun s hs =>
    hwrites.reaches.leads.short s (by simp [steps_join hpath, hs])
  have hnone := view_eq_none_of_isPresent hroot hpath (clear_of_linkFree hfree) hshort hpresent
  have hplace := hwrites.reaches.eq_place_append hpath
  rw [place_eq hextends.workdir, place_eq hextends.workdir, ← hroot.eq_place hfree] at hplace
  rw [replaces, hplace, Bool.and_eq_false_iff]
  refine .inr ?_
  rw [← Bool.not_eq_true, holdsFile_iff]
  rintro ⟨bytes, hview⟩
  rw [hnone] at hview
  cases hview

end Change

namespace ChangeSet

open FileTree Change

variable {t t' : FileTree} {root : Path} {base : List String} {cs : ChangeSet} {c : Change} {n : Nat}

theorem exists_move_of_mem_replaced (hfree : t.top.LinkFree) (hroot : t.RootAt root base)
    (hplain : ∀ c ∈ cs.changes, c.HasPlainPaths) (h : cs.apply root t = .ok n t')
    (hmem : c ∈ replaced root cs.ordered t) :
    ∃ source target, c = .move source target ∧ t.view (base ++ target.pieces) = none := by
  obtain ⟨hcheck, hperform⟩ := apply_ok h
  obtain ⟨pre, post, m, t₁, k, t₂, hordered, hpre, hc, hreplaces⟩ :=
    exists_of_mem_replaced hperform hmem
  have hchange : c ∈ cs.changes := mem_changes_of_mem_ordered (by simp [hordered])
  have hsteady := steady_of_performAll hfree hpre
  have hpaths := hplain c hchange
  cases c with
  | edit => cases hreplaces
  | create path content =>
    have hmoves : ∀ d ∈ pre, d.isMove = false := by
      intro d hd
      have hpairs := hordered ▸ cs.pairwise_ordered
      have hpair := (List.pairwise_append.1 hpairs).2.2 d hd _ List.mem_cons_self
      simpa [isMove] using hpair
    have hroot₁ := hroot.keeps (keeps_of_performAll hfree hmoves hpre) hsteady.workdir
    rw [replaces_create_eq_false (hsteady.linkFree hfree) hroot₁ hpaths hc] at hreplaces
    cases hreplaces
  | move source target =>
    obtain ⟨hs, hd⟩ := hpaths
    obtain ⟨hsource, htarget⟩ := check_move_ok (check_of_checkAll hcheck _ hchange)
    obtain ⟨u, a, b, hextends, -, hb, -⟩ := perform_move_ok (hsteady.linkFree hfree) hc
    rw [hd.bare_join] at hb
    have hworkdir : u.workdir = t.workdir := hextends.workdir.trans hsteady.workdir
    have hnone := view_eq_none_of_not_isPresent hfree hs hd hsource htarget hb hworkdir
    rw [hb.eq_place_append hd, place_eq hworkdir, ← hroot.eq_place hfree] at hnone
    exact ⟨source, target, rfl, hnone⟩

theorem made_of_apply (h : cs.apply root t = .ok n t') :
    cs.made root t = Change.made root cs.ordered t := by
  rw [made, (apply_ok h).1]

theorem files_of_apply (hfree : t.top.LinkFree) (h : cs.apply root t = .ok n t') :
    t'.files.ncard + (replaced root cs.ordered t).length =
        t.files.ncard + ((cs.made root t).filter isCreate).length ∧
      (replaced root cs.ordered t = [] →
        Set.InjOn (carried root t cs.ordered) t.files ∧
          ∀ ns bytes, t.view ns = some (.file bytes) →
            (carried root t cs.ordered ns = ns ∨
              ∃ source target, .move source target ∈ cs.changes ∧
                t.place (root.join target).bare <+: carried root t cs.ordered ns) ∧
            ∃ bytes', t'.view (carried root t cs.ordered ns) = some (.file bytes') ∧
              (bytes' = bytes ∨
                ∃ path k expected updated, .edit path k expected updated ∈ cs.changes ∧
                  t.place (root.join path) = ns ∧ bytes' = updated.toUTF8)) ∧
      ∀ base, t.RootAt root base → (∀ c ∈ cs.changes, c.HasPlainPaths) →
        ∀ c ∈ replaced root cs.ordered t,
          ∃ source target, c = .move source target ∧ t.view (base ++ target.pieces) = none := by
  obtain ⟨hcheck, hperform⟩ := apply_ok h
  have hgrounded : ∀ c ∈ cs.ordered, c.IsGrounded root t := fun c hc =>
    isGrounded_of_check hfree (check_of_checkAll hcheck c (mem_changes_of_mem_ordered hc))
  refine ⟨?_, fun hnone => ?_, fun base hroot hplain c hc =>
    exists_move_of_mem_replaced hfree hroot hplain h hc⟩
  · rw [made_of_apply h]
    exact ncard_of_performAll hfree cs.pairwise_ordered hgrounded hperform
  · obtain ⟨hinj, hfile⟩ := files_of_performAll hfree cs.pairwise_ordered hperform hnone
    refine ⟨hinj, fun ns bytes hview => ⟨?_, ?_⟩⟩
    · obtain hstays | ⟨source, target, hmem, hbelow⟩ := carried_eq_or root t cs.ordered ns
      · exact .inl hstays
      · exact .inr ⟨source, target, mem_changes_of_mem_ordered hmem, hbelow⟩
    · obtain ⟨bytes', hview', hbytes⟩ := hfile ns bytes hview
      refine ⟨bytes', hview', hbytes.imp_right ?_⟩
      rintro ⟨c, hc, hrewords⟩
      cases c with
      | create | move => exact hrewords.elim
      | edit path k expected updated =>
        exact ⟨path, k, expected, updated, mem_changes_of_mem_ordered hc, hrewords⟩

namespace Merged

def tree : FileTree :=
  ⟨.dir [("a.py", .file "x = 1\n".toUTF8), ("b.py", .file "y = 2\n".toUTF8)], []⟩

def changes : ChangeSet :=
  ⟨"", [.move ⟨"a.py"⟩ ⟨"c.py"⟩, .move ⟨"b.py"⟩ ⟨"c.py"⟩]⟩

theorem linkFree_tree : tree.top.LinkFree :=
  Entry.linkFree_dir (by simp [Entry.linkFree_file])

theorem apply_changes : ∃ t', changes.apply ⟨"/"⟩ tree = .ok 2 t' := by
  have h : (match changes.apply ⟨"/"⟩ tree with
      | .ok n _ => n == 2
      | .error .. => false) = true := by
    decide +kernel
  split at h
  · next t' happly => exact ⟨t', happly.trans (by rw [beq_iff_eq.1 h])⟩
  · cases h

theorem replaced_changes :
    replaced ⟨"/"⟩ changes.ordered tree = [.move ⟨"b.py"⟩ ⟨"c.py"⟩] := by
  decide +kernel

theorem created_changes : (changes.made ⟨"/"⟩ tree).filter isCreate = [] := by
  decide +kernel

end Merged

theorem files_of_apply_merged :
    ∃ t', Merged.changes.apply ⟨"/"⟩ Merged.tree = .ok 2 t' ∧
      t'.files.ncard + 1 = Merged.tree.files.ncard ∧ Merged.tree.view ["c.py"] = none := by
  obtain ⟨t', happly⟩ := Merged.apply_changes
  obtain ⟨hcount, -, hplaces⟩ := files_of_apply Merged.linkFree_tree happly
  refine ⟨t', happly, ?_, ?_⟩
  · rwa [Merged.replaced_changes, Merged.created_changes] at hcount
  · have hplain : ∀ c ∈ Merged.changes.changes, c.HasPlainPaths := by
      simp only [Merged.changes, List.forall_mem_cons, HasPlainPaths]
      exact ⟨⟨⟨by decide, by decide, by decide, by decide⟩, ⟨by decide, by decide, by decide, by decide⟩⟩,
        ⟨⟨by decide, by decide, by decide, by decide⟩, ⟨by decide, by decide, by decide, by decide⟩⟩,
        by simp⟩
    have hreplaced : .move ⟨"b.py"⟩ ⟨"c.py"⟩ ∈ replaced ⟨"/"⟩ Merged.changes.ordered Merged.tree := by
      rw [Merged.replaced_changes]
      exact List.mem_singleton_self _
    obtain ⟨source, target, heq, hnone⟩ := hplaces [] ⟨_, rfl⟩ hplain _ hreplaced
    cases heq
    exact hnone

end ChangeSet

end Reroot

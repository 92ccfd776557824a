import Reroot.Proofs.Change.Variation
import Reroot.Proofs.Files.Making

namespace Reroot

open FileTree
open Reroot.Path (IsName)

namespace FileTree

variable {S : List String → Prop} {t t' : FileTree} {root p : Path} {base front : List String}

theorem RootAt.eq_place (hfree : t.top.LinkFree) (h : t.RootAt root base) : base = t.place root := by
  obtain ⟨es, hes⟩ := h
  exact (reaches_of_resolve hfree hes).1.eq_place

theorem view_of_isPresent (hfree : t.top.LinkFree) (hp : p.IsPlain)
    (h : t.isPresent (root.join p) = true) :
    t.view (t.place root ++ p.pieces) ≠ none ∧ ∀ s ∈ p.pieces, s.utf8ByteSize ≤ 255 := by
  obtain ⟨names, hreaches, hview⟩ := (isPresent_iff hfree).1 h
  rw [hreaches.eq_place_append hp] at hview
  refine ⟨hview, fun s hs => hreaches.leads.short s ?_⟩
  rw [steps_join hp]
  exact List.mem_append_right _ hs

theorem Varies.isOpen (h : Varies S t t') (hopen : t.Open base front) : t'.Open base front := by
  intro pre hpre
  obtain hnone | hdir := hopen pre hpre
  · exact h.new _ hnone
  · obtain ⟨s, hs, hlike, -⟩ := h.kept _ _ hdir
    rw [hlike.eq_dir] at hs
    exact .inr hs

end FileTree

namespace Change

variable {t t' : FileTree} {root : Path} {base front : List String} {k : String} {n : Nat}
  {c : Change} {cs ds : List Change}

theorem makeParents_of_open (hfree : t.top.LinkFree) (hroot : t.RootAt root base)
    (hfront : front ≠ []) (hnames : ∀ m ∈ front ++ [k], IsName m)
    (hshort : ∀ m ∈ front, m.utf8ByteSize ≤ 255) (hopen : t.Open base front) :
    ∃ t', makeParents (root.join (Path.ofNames (front ++ [k]))) t = .ok () t' ∧
      t.MakesTo (base ++ front) t' := by
  obtain ⟨hnamesFront, hk⟩ := List.forall_mem_append.1 hnames
  have hparts : (root.join (Path.ofNames (front ++ [k]))).parts =
      (root.join (Path.ofNames front)).parts ++ [.name k] :=
    Path.parts_join_snoc hnamesFront (hk k (by simp))
  rw [makeParents, Path.parent?_of_parts hparts]
  refine makeDirsLoop_normal hfree hroot hfront ?_ hnamesFront hshort hopen
  rw [Path.parts_normal, Path.parts_eq, Path.normalPieces_join hnamesFront]
  simp only [List.length_append, List.length_map]
  omega

theorem perform_move_of_open (hfree : t.top.LinkFree) (hroot : t.RootAt root base)
    (hfront : front ≠ []) (hnames : ∀ m ∈ front ++ [k], IsName m)
    (hshort : ∀ m ∈ front ++ [k], m.utf8ByteSize ≤ 255) (hopen : t.Open base front)
    (hapart : ¬[k] <+: front) (htaken : t.view (base ++ [k]) ≠ none)
    (hnone : t.view (base ++ (front ++ [k])) = none) :
    ∃ t', (move (Path.ofNames [k]) (Path.ofNames (front ++ [k]))).perform root t = .ok 1 t' := by
  have hk : ∀ m ∈ [k], IsName m := by simpa using hnames k (by simp)
  have hs : (Path.ofNames [k]).IsPlain := Path.isPlain_ofNames (by simp) hk
  have hd : (Path.ofNames (front ++ [k])).IsPlain := Path.isPlain_ofNames (by simp) hnames
  obtain ⟨u, hparents, hmakes⟩ := makeParents_of_open hfree hroot hfront hnames
    (List.forall_mem_append.1 hshort).1 hopen
  have hextends := (widening_makeParents _).ok hparents
  have hroot' := hroot.keeps hextends.keeps hextends.workdir
  have hfree' := hextends.linkFree hfree
  have hsource : u.view (base ++ [k]) ≠ none := by
    rwa [hmakes.frame _ (by rwa [List.prefix_append_right_inj])]
  have htarget : u.view (base ++ (front ++ [k])) = none := by
    rw [hmakes.frame _ fun h => by simpa using h.length_le, hnone]
  obtain ⟨e, he⟩ : ∃ e, u.top.at? (base ++ [k]) = some e := by
    obtain ⟨shape, hshape⟩ := Option.ne_none_iff_exists'.1 hsource
    obtain ⟨e, he, -⟩ := Option.map_eq_some_iff.1 hshape
    exact ⟨e, he⟩
  have ha : u.resolve (root.join (Path.ofNames [k])) false = .ok ⟨base ++ [k], some e⟩ := by
    have hspells : Spells u.top base [] k ⟨base ++ [k], u.top.at? (base ++ [k])⟩ :=
      ⟨rfl, by rw [List.append_nil]; exact hroot'.dir, by simpa using hshort k (by simp)⟩
    rw [← he]
    exact hroot'.resolve_of_spells hs (Path.pieces_ofNames hk) (by simp) hspells
  have hb : u.resolve (root.join (Path.ofNames (front ++ [k]))) false =
      .ok ⟨base ++ (front ++ [k]), none⟩ := by
    rw [← show u.top.at? (base ++ (front ++ [k])) = none from Option.map_eq_none_iff.1 htarget]
    exact hroot'.resolve_of_spells hd (Path.pieces_ofNames hnames) (by simp)
      ⟨rfl, hmakes.view, hshort⟩
  have hab : ¬base ++ [k] <+: base ++ (front ++ [k]) := by
    rw [List.prefix_append_right_inj]
    intro h
    exact hapart (List.prefix_of_prefix_length_le h (List.prefix_append front [k])
      (List.length_pos_iff.2 hfront))
  have hba : ¬base ++ (front ++ [k]) <+: base ++ [k] := by
    exact fun h => hfront (by simpa using h.length_le)
  obtain ⟨t', hrename⟩ := rename_of_free hs.isSlashed_join hd.isSlashed_join hs.isNamed_join
    hd.isNamed_join ha hb hab hba
  exact ⟨t', (bind_of_ok hparents).trans (bind_of_ok hrename)⟩

theorem performAll_of_isFile {S : List String → Prop} (hroot : t.RootAt root base)
    (htidy : t.top.Tidy) (hcs : ∀ c ∈ cs, c.EditsAt S t base)
    (hfiles : ∀ p n expected updated, .edit p n expected updated ∈ cs →
      t.isFile (root.join p) = true) : ∃ n t', performAll root cs t = .ok n t' := by
  induction cs generalizing t with
  | nil => exact ⟨0, t, rfl⟩
  | cons c cs ih =>
    obtain ⟨hc, hcs⟩ := List.forall_mem_cons.1 hcs
    have hplain := hc.isPlainEdit htidy
    obtain ⟨t₁, hperform⟩ : ∃ t₁, c.perform root t = .ok 1 t₁ := by
      cases c with
      | create | move => exact hc.elim
      | edit p n expected updated =>
        obtain ⟨t₁, hwrite⟩ := writeText_of_isFile hplain.isSlashed_join
          (hfiles p n expected updated List.mem_cons_self)
        exact ⟨t₁, bind_of_ok hwrite⟩
    have hvaries := varies_of_perform hroot htidy hc hperform
    obtain ⟨n, t', hrest⟩ := ih (hroot.keeps hvaries.keeps hvaries.workdir) (hvaries.tidy htidy)
      (fun d hd => (hcs d hd).varies hvaries) fun p n expected updated hd =>
        isFile_of_keeps (hfiles p n expected updated (List.mem_cons_of_mem c hd)) hvaries.keeps
          hvaries.workdir
    exact ⟨1 + n, t', (bind_of_ok hperform).trans (bind_of_ok hrest)⟩

theorem view_eq_none_of_performAll {S : List String → Prop} {ns : List String}
    (hfree : t.top.LinkFree) (htidy : t.top.Tidy) (hroot : t.RootAt root base)
    (hcs : ∀ c ∈ cs, c.EditsAt S t base) (h : performAll root cs t = .ok n t')
    (hnone : t.view ns = none) : t'.view ns = none := by
  have hrewrites := rewrites_of_performAll hfree (fun c hc => (hcs c hc).isPlainEdit htidy) h
  obtain ⟨c, hc, text, hwrites, -⟩ | ⟨-, hview⟩ := hrewrites.view ns
  · have hedit := hcs c hc
    cases c with
    | create | move => exact hedit.elim
    | edit p =>
      obtain ⟨q, hq, rfl, -⟩ := hedit
      obtain ⟨hns, -⟩ := hwrites
      obtain ⟨-, bytes, hview⟩ := (mem_filesUnder_ofPlace (hroot.isName htidy)).1 hq
      rw [Path.pieces_ofNames (isName_of_mem_filesUnder htidy hq), ← hroot.eq_place hfree] at hns
      rw [hns, hview] at hnone
      cases hnone
  · rw [hview, hnone]

theorem performAll_append (h : performAll root cs t = .ok n t') {m : Nat} {t'' : FileTree}
    (h' : performAll root ds t' = .ok m t'') :
    ∃ n, performAll root (cs ++ ds) t = .ok n t'' := by
  induction cs generalizing t n with
  | nil =>
    cases h
    exact ⟨m, h'⟩
  | cons c cs ih =>
    obtain ⟨_, t₁, _, hfirst, hrest⟩ := performAll_cons_ok h
    obtain ⟨j, hj⟩ := ih hrest
    exact ⟨_, (bind_of_ok hfirst).trans (bind_of_ok hj)⟩

theorem check_edit_of_readText {p : Path} {j : Nat} {expected updated : String}
    (h : t.readText (root.join p) = .ok expected) :
    (edit p j expected updated).check t root = .ok () := by
  rw [check_edit, h]
  exact if_pos rfl

theorem check_move_of_isPresent {source target : Path} (hsource : t.isPresent (root.join source) = true)
    (htarget : t.isPresent (root.join target) = false) :
    (move source target).check t root = .ok () := by
  rw [check_move, hsource, htarget]
  rfl

theorem checkAll_of_check (h : ∀ c ∈ cs, c.check t root = .ok ()) : checkAll t root cs = .ok () := by
  induction cs with
  | nil => rfl
  | cons c cs ih =>
    obtain ⟨hc, hcs⟩ := List.forall_mem_cons.1 h
    rw [checkAll, hc]
    exact ih hcs

end Change

namespace ChangeSet

open Change

variable {t : FileTree} {root : Path} {base front : List String} {k : String} {cs : ChangeSet}
  {edits : List Change}

theorem apply_of_perform {n : Nat} {t' : FileTree} (hcheck : checkAll t root cs.changes = .ok ())
    (hperform : performAll root cs.ordered t = .ok n t') : cs.apply root t = .ok n t' := by
  refine (bind_of_ok rfl).trans ?_
  rw [hcheck]
  refine (bind_of_ok rfl).trans ?_
  rw [TreeM.ofFile, hperform]

theorem apply_of_empty (root : Path) (t : FileTree) (h : cs.changes = []) :
    cs.apply root t = .ok 0 t := by
  refine apply_of_perform ?_ ?_
  · rw [h]
    rfl
  · rw [ordered, h]
    rfl

theorem apply_of_open (hfree : t.top.LinkFree) (htidy : t.top.Tidy) (hroot : t.RootAt root base)
    (hchanges : cs.changes = edits ++ [.move (Path.ofNames [k]) (Path.ofNames (front ++ [k]))])
    (hedits : ∀ c ∈ edits, c.EditsAt (fun _ => True) t base)
    (hreads : ∀ p n expected updated, .edit p n expected updated ∈ edits →
      t.readText (root.join p) = .ok expected)
    (hfront : front ≠ []) (hnames : ∀ m ∈ front ++ [k], IsName m)
    (hshort : ∀ m ∈ front, m.utf8ByteSize ≤ 255) (hopen : t.Open base front)
    (hapart : ¬[k] <+: front) (hsource : t.isPresent (root.join (Path.ofNames [k])) = true)
    (htarget : t.isPresent (root.join (Path.ofNames (front ++ [k]))) = false) :
    ∃ n t', cs.apply root t = .ok n t' := by
  have hk : ∀ m ∈ [k], IsName m := by simpa using hnames k (by simp)
  have hs : (Path.ofNames [k]).IsPlain := Path.isPlain_ofNames (by simp) hk
  have hd : (Path.ofNames (front ++ [k])).IsPlain := Path.isPlain_ofNames (by simp) hnames
  have hpieces := Path.pieces_ofNames hnames
  obtain ⟨htaken, hkshort⟩ := view_of_isPresent hfree hs hsource
  rw [Path.pieces_ofNames hk] at htaken hkshort
  rw [← hroot.eq_place hfree] at htaken
  have hshort' : ∀ m ∈ front ++ [k], m.utf8ByteSize ≤ 255 := List.forall_mem_append.2 ⟨hshort, hkshort⟩
  have hnone : t.view (base ++ (front ++ [k])) = none := by
    have hview := view_eq_none_of_isPresent hroot hd (clear_of_linkFree hfree) (by rwa [hpieces]) htarget
    rwa [hpieces] at hview
  have hcheck : checkAll t root cs.changes = .ok () := by
    refine checkAll_of_check fun c hc => ?_
    rw [hchanges] at hc
    obtain hc | hc := List.mem_append.1 hc
    · have hedit := hedits c hc
      cases c with
      | create | move => exact hedit.elim
      | edit p n expected updated => exact check_edit_of_readText (hreads p n expected updated hc)
    · obtain rfl := List.mem_singleton.1 hc
      exact check_move_of_isPresent hsource htarget
  obtain ⟨n, t₁, hpre⟩ := performAll_of_isFile hroot htidy hedits fun p n expected updated hc =>
    isFile_of_readText (hreads p n expected updated hc)
  have hvaries := varies_of_performAll hroot htidy hedits hpre
  have htaken' : t₁.view (base ++ [k]) ≠ none := by
    obtain ⟨shape, hshape⟩ := Option.ne_none_iff_exists'.1 htaken
    obtain ⟨shape', hshape', -⟩ := hvaries.kept _ _ hshape
    simp [hshape']
  obtain ⟨t', hmove⟩ := perform_move_of_open ((steady_of_performAll hfree hpre).linkFree hfree)
    (hroot.keeps hvaries.keeps hvaries.workdir) hfront hnames hshort' (hvaries.isOpen hopen) hapart
    htaken' (view_eq_none_of_performAll hfree htidy hroot hedits hpre hnone)
  have hlast : performAll root [.move (Path.ofNames [k]) (Path.ofNames (front ++ [k]))] t₁ = .ok 1 t' :=
    (bind_of_ok hmove).trans (bind_of_ok rfl)
  obtain ⟨n, hperform⟩ := performAll_append hpre hlast
  refine ⟨n, t', apply_of_perform hcheck ?_⟩
  rwa [ordered_of_edits hchanges fun c hc => (hedits c hc).isPlainEdit htidy]

end ChangeSet

end Reroot

import Reroot.Proofs.Change.Perform

namespace Reroot

namespace FileTree

variable {t t' t'' : FileTree}

def Gained (t t' : FileTree) : Prop :=
  ∃ ns, t.view ns = none ∧ t'.view ns ≠ none

theorem Gained.ne (h : t.Gained t') : t' ≠ t := by
  obtain ⟨ns, hnone, hsome⟩ := h
  rintro rfl
  exact hsome hnone

theorem Gained.grows (h : t.Gained t') (h' : t'.Grows t'') : t.Gained t'' := by
  obtain ⟨ns, hnone, hsome⟩ := h
  exact ⟨ns, hnone, h'.kept ns hsome⟩

theorem Grows.gained (h : t.Grows t') (h' : t'.Gained t'') : t.Gained t'' := by
  obtain ⟨ns, hnone, hsome⟩ := h'
  refine ⟨ns, ?_, hsome⟩
  by_contra hns
  exact h.kept ns hns hnone

theorem Extends.eq_or_gained (h : t.Extends t') : t' = t ∨ t.Gained t' := by
  by_cases hsame : ∀ ns, t.view ns = none → t'.view ns = none
  · exact .inl (h.same hsame)
  · push Not at hsame
    exact .inr hsame

end FileTree

namespace Change

open FileTree

variable {t t' : FileTree} {root : Path} {c : Change} {e : IoError} {n : Nat}

theorem gained_of_move {t₀ : FileTree} {source target : Path} (hfree₀ : t₀.top.LinkFree)
    (hsteady : t₀.Steady t) (hs : source.IsPlain) (hd : target.IsPlain)
    (hcheck : (move source target).check t₀ root = .ok ())
    (h : (move source target).perform root t = .ok n t') : t₀.Gained t' := by
  obtain ⟨hsource, htarget⟩ := check_move_ok hcheck
  obtain ⟨t₁, a, b, hextends, -, hb, hmoves⟩ := perform_move_ok (hsteady.linkFree hfree₀) h
  rw [hd.bare_join] at hb
  refine ⟨b, view_eq_none_of_not_isPresent hfree₀ hs hd hsource htarget hb
    (hextends.workdir.trans hsteady.workdir), ?_⟩
  obtain ⟨rfl, htaken, rfl⟩ | hmoves := hmoves
  · exact htaken
  · rw [hmoves.view, if_pos List.prefix_rfl]
    simpa using hmoves.taken

end Change

namespace ChangeSet

open FileTree Change

variable {t t' : FileTree} {root : Path} {cs : ChangeSet}

theorem pairwise_ordered (cs : ChangeSet) :
    cs.ordered.Pairwise fun c d => c.isMove = true → d.isMove = true := by
  have hfirst : ∀ c ∈ cs.changes.filter isCreate ++ cs.changes.filter isEdit, c.isMove = false := by
    intro c hc
    simp only [List.mem_append, List.mem_filter] at hc
    cases c with
    | create | edit => rfl
    | move => simp [isCreate, isEdit] at hc
  have hlast : ∀ c ∈ cs.changes.filter isMove, c.isMove = true :=
    fun c hc => (List.mem_filter.1 hc).2
  refine List.pairwise_append.2 ⟨?_, ?_, fun c _ d hd _ => hlast d hd⟩
  · exact List.pairwise_of_forall_mem_list fun c hc d _ hmove => by simp [hfirst c hc] at hmove
  · exact List.pairwise_of_forall_mem_list fun c _ d hd _ => hlast d hd

theorem exists_last_move {pre post : List Change} {d : Change} (hordered : cs.ordered = pre ++ post)
    (hd : d ∈ pre) (hmove : d.isMove = true) :
    ∃ init source target, pre = init ++ [.move source target] := by
  have hne : pre ≠ [] := List.ne_nil_of_mem hd
  obtain ⟨init, m, rfl⟩ : ∃ init m, pre = init ++ [m] :=
    ⟨_, _, (List.dropLast_append_getLast hne).symm⟩
  have hm : m.isMove = true := by
    have hpairs := hordered ▸ cs.pairwise_ordered
    have hpairs := (List.pairwise_append.1 (List.pairwise_append.1 hpairs).1).2.2
    obtain hd | hd := List.mem_append.1 hd
    · exact hpairs d hd m (by simp) hmove
    · exact List.mem_singleton.1 hd ▸ hmove
  cases m with
  | create | edit => cases hm
  | move source target => exact ⟨init, source, target, rfl⟩

theorem apply_error_eq_iff (hfree : t.top.LinkFree)
    (hplain : ∀ source target, Change.move source target ∈ cs.changes →
      source.IsPlain ∧ target.IsPlain)
    {e : Error} (h : cs.apply root t = .error e t') :
    t' = t ↔ (∃ e', checkAll t root cs.changes = .error e') ∨
      ∃ pre c post n io, cs.ordered = pre ++ c :: post ∧ performAll root pre t = .ok n t ∧
        c.perform root t = .error io t := by
  obtain ⟨hrefused, rfl⟩ | ⟨hcheck, io, hperform⟩ := apply_error h
  · exact ⟨fun _ => .inl hrefused, fun _ => rfl⟩
  constructor
  · rintro heq
    obtain ⟨pre, c, post, n, t₁, hordered, hpre, hc⟩ := exists_of_performAll_error hperform
    have hsteady := steady_of_performAll hfree hpre
    have hextends := extends_of_perform_error hc
    by_cases hmoves : ∀ d ∈ pre, d.isMove = false
    · have hgrows := grows_of_performAll hfree hmoves hpre
      obtain rfl | hgained := hextends.eq_or_gained
      · subst heq
        exact .inr ⟨pre, c, post, n, io, hordered, hpre, hc⟩
      · exact absurd heq (hgrows.gained hgained).ne
    · push Not at hmoves
      obtain ⟨d, hd, hmove⟩ := hmoves
      obtain ⟨init, source, target, rfl⟩ := exists_last_move hordered hd (by simpa using hmove)
      have hmem : Change.move source target ∈ cs.changes :=
        mem_changes_of_mem_ordered (by simp [hordered])
      obtain ⟨_, t₂, _, hinit, hlast⟩ := performAll_append_ok hpre
      obtain ⟨_, t₃, _, hlast, hnil⟩ := performAll_cons_ok hlast
      cases hnil
      have hsteady₂ := steady_of_performAll hfree hinit
      obtain ⟨hs, hd⟩ := hplain source target hmem
      have hgained := gained_of_move hfree hsteady₂ hs hd (check_of_checkAll hcheck _ hmem) hlast
      exact absurd heq (hgained.grows hextends.grows).ne
  · rintro (⟨e', hrefused⟩ | ⟨pre, c, post, n, io', hordered, hpre, hc⟩)
    · rw [hcheck] at hrefused
      cases hrefused
    · rw [hordered, performAll_append_error hpre hc] at hperform
      cases hperform
      rfl

def blockedTree (importer : String) : FileTree :=
  ⟨.dir [("a.py", .file "".toUTF8), ("b", .file "".toUTF8), ("m.py", .file importer.toUTF8)], []⟩

def blockedMove : ChangeSet :=
  ⟨"", [.edit ⟨"m.py"⟩ 1 "import a\n" "import b.a\n", .move ⟨"a.py"⟩ ⟨"b/a.py"⟩]⟩

theorem linkFree_blockedTree (importer : String) : (blockedTree importer).top.LinkFree :=
  Entry.linkFree_dir (by simp [Entry.linkFree_file])

theorem view_blockedTree (importer : String) :
    (blockedTree importer).view ["m.py"] = some (.file importer.toUTF8) :=
  rfl

theorem apply_blockedMove : blockedMove.apply ⟨"/"⟩ (blockedTree "import a\n") =
    .error (.io (.os .alreadyExists)) (blockedTree "import b.a\n") :=
  rfl

theorem apply_error_eq_iff_blockedMove :
    blockedMove.apply ⟨"/"⟩ (blockedTree "import a\n") =
        .error (.io (.os .alreadyExists)) (blockedTree "import b.a\n") ∧
      ¬((∃ e', checkAll (blockedTree "import a\n") ⟨"/"⟩ blockedMove.changes = .error e') ∨
        ∃ pre c post n io, blockedMove.ordered = pre ++ c :: post ∧
          performAll ⟨"/"⟩ pre (blockedTree "import a\n") = .ok n (blockedTree "import a\n") ∧
          c.perform ⟨"/"⟩ (blockedTree "import a\n") = .error io (blockedTree "import a\n")) := by
  refine ⟨apply_blockedMove, fun hcondition => ?_⟩
  have hplain : ∀ source target, Change.move source target ∈ blockedMove.changes →
      source.IsPlain ∧ target.IsPlain := by
    intro source target hmem
    simp only [blockedMove, List.mem_cons, List.not_mem_nil, or_false, reduceCtorEq, false_or,
      Change.move.injEq] at hmem
    obtain ⟨rfl, rfl⟩ := hmem
    exact ⟨⟨by decide, by decide, by decide, by decide⟩, ⟨by decide, by decide, by decide, by decide⟩⟩
  have heq := (apply_error_eq_iff (linkFree_blockedTree _) hplain apply_blockedMove).2 hcondition
  have hview := view_blockedTree "import b.a\n"
  rw [heq, view_blockedTree, Option.some.injEq, Shape.file.injEq] at hview
  revert hview
  decide

end ChangeSet

end Reroot


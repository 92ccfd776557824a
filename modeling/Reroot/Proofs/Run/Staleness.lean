import Reroot.Plan
import Reroot.Proofs.Change.Success
import Reroot.Proofs.Project.Unlinked

namespace Reroot

open FileTree Python

namespace FileTree

variable {t : FileTree} {p : Path} {follow : Bool} {e e' : Entry} {text : String}

def Finds (t : FileTree) (p : Path) (follow : Bool) (e : Entry) : Prop :=
  p.text ≠ "" ∧ ∃ names, Walks t.top follow 40 (t.base p) (steps p.text) ⟨names, some e⟩

theorem entry?_eq_ok_iff_finds : t.entry? p follow = .ok e ↔ t.Finds p follow e := by
  constructor
  · intro h
    obtain ⟨names, hresolve⟩ := entry?_ok h
    obtain ⟨hp, hwalks⟩ := walks_of_resolve hresolve
    exact ⟨hp, names, hwalks⟩
  · rintro ⟨hp, names, hwalks⟩
    exact entry?_of_resolve (resolve_of_walks hp hwalks)

theorem Finds.eq (h : t.Finds p follow e) (h' : t.Finds p follow e') : e = e' := by
  rw [← entry?_eq_ok_iff_finds] at h h'
  exact Except.ok.inj (h.symm.trans h')

theorem isPresent_iff_finds : t.isPresent p = true ↔ ∃ e, t.Finds p true e := by
  simp only [← entry?_eq_ok_iff_finds, isPresent]
  cases t.entry? p true <;> simp [Except.toOption]

theorem readText_eq_ok_iff_finds :
    t.readText p = .ok text ↔ t.Finds p true (.file text.toUTF8) := by
  rw [← entry?_eq_ok_iff_finds, readText]
  constructor
  · intro h
    split at h
    · cases h
    · next bytes he =>
      split at h
      · next hdecode =>
        cases h
        rw [he, toUTF8_of_fromUTF8? hdecode]
      · cases h
    · cases h
  · intro h
    simp only [h, fromUTF8?_toUTF8]

theorem Finds.exists_link (h : t.Finds p false e) (hnone : ∀ e', ¬t.Finds p true e') :
    ∃ target, e = .link target := by
  obtain ⟨hp, names, hwalks⟩ := h
  by_contra hlink
  push Not at hlink
  exact hnone e ⟨hp, names, hwalks.of_not_link fun target => by simpa using hlink target⟩

end FileTree

namespace Change

variable {t : FileTree} {root : Path} {c : Change} {cs : List Change}

def IsStale (t : FileTree) (root : Path) : Change → Prop
  | create p content => ∃ e, t.Finds (root.join p) true e ∧ e ≠ .file content.toUTF8
  | edit p _ expected _ => ¬t.Finds (root.join p) true (.file expected.toUTF8)
  | move source target =>
    (∀ e, ¬t.Finds (root.join source) true e) ∨ ∃ e, t.Finds (root.join target) true e

theorem check_create_eq_ok_iff {p : Path} {content : String} :
    (create p content).check t root = .ok () ↔ ¬(create p content).IsStale t root := by
  simp only [check_create_ok_iff, IsStale, not_exists, not_and, not_not, isPresent_iff_finds,
    readText_eq_ok_iff_finds]
  exact ⟨fun h e he => he.eq (h ⟨e, he⟩), fun h ⟨e, he⟩ => h e he ▸ he⟩

theorem check_edit_eq_ok_iff {p : Path} {k : Nat} {expected updated : String} :
    (edit p k expected updated).check t root = .ok () ↔
      ¬(edit p k expected updated).IsStale t root := by
  simp only [check_edit, IsStale, not_not, ← readText_eq_ok_iff_finds]
  cases t.readText (root.join p) <;> simp

theorem check_move_eq_ok_iff {source target : Path} :
    (move source target).check t root = .ok () ↔ ¬(move source target).IsStale t root := by
  simp only [check_move, IsStale, not_or, ← isPresent_iff_finds, ← not_exists, not_not]
  cases t.isPresent (root.join source) <;> cases t.isPresent (root.join target) <;> simp

theorem check_eq_ok_iff : c.check t root = .ok () ↔ ¬c.IsStale t root := by
  cases c with
  | create => exact check_create_eq_ok_iff
  | edit => exact check_edit_eq_ok_iff
  | move => exact check_move_eq_ok_iff

theorem checkAll_eq_ok_iff : checkAll t root cs = .ok () ↔ ∀ c ∈ cs, ¬c.IsStale t root := by
  simp only [← check_eq_ok_iff]
  exact ⟨check_of_checkAll, checkAll_of_check⟩

end Change

namespace ChangeSet

open Change

variable {t : FileTree} {root : Path} {cs : ChangeSet}

theorem apply_of_isStale {c : Change} (hc : c ∈ cs.changes) (h : c.IsStale t root) :
    ∃ e, cs.apply root t = .error e t := by
  cases hcheck : checkAll t root cs.changes with
  | ok u => exact absurd h (checkAll_eq_ok_iff.1 hcheck c hc)
  | error e =>
    refine ⟨e, (bind_of_ok rfl).trans ?_⟩
    rw [hcheck]
    rfl

theorem apply_of_fits (h : ∀ c ∈ cs.changes, ¬c.IsStale t root) :
    cs.apply root t = TreeM.ofFile (performAll root cs.ordered) t := by
  refine (bind_of_ok rfl).trans ?_
  rw [checkAll_eq_ok_iff.2 h]
  exact bind_of_ok rfl

end ChangeSet

section Planned

variable {t t₀ : FileTree} {a : Snapshot} {x : Transformation} {cs : ChangeSet} {p : Path} {k : Nat}
  {expected updated : String}

theorem Python.Planned.finds {old new : QualifiedName} {ms : List Module} {edits : List Change}
    (h : Planned t₀ a old new ms edits) (hmem : .edit p k expected updated ∈ edits) :
    t₀.Finds (a.root.join p) true (.file expected.toUTF8) := by
  obtain ⟨m, -, source, r, hsource, -, heq⟩ := h.edit _ hmem
  cases heq
  exact readText_eq_ok_iff_finds.1 hsource

theorem finds_of_changes (h : x.changes Python.analyzer t₀ a = .ok cs)
    (hmem : .edit p k expected updated ∈ cs.changes) :
    t₀.Finds (a.root.join p) true (.file expected.toUTF8) := by
  cases x with
  | renameExternal oldName newName scope =>
    obtain ⟨glob, old, new, -, -, -, hedits⟩ := exists_of_renameExternal h
    exact (planned_of_planEdits hedits).finds hmem
  | convertToPackage directory =>
    cases h
    simp [Snapshot.planConversion] at hmem
  | moveModule m destination =>
    obtain ⟨package, rfl⟩ := exists_package_of_planMove h
    obtain ⟨old, new, edits, -, -, hplanned, -, hchanges⟩ := planMove_ok h
    rw [hchanges] at hmem
    obtain hmem | hmem := List.mem_append.1 hmem
    · exact hplanned.finds hmem
    · cases List.mem_singleton.1 hmem

end Planned

namespace ChangeSet

theorem refused_of_stale (t : FileTree) (root : Path) (cs : ChangeSet) :
    ((∃ c ∈ cs.changes, c.IsStale t root) → ∃ e, cs.apply root t = .error e t) ∧
      ((∀ c ∈ cs.changes, ¬c.IsStale t root) →
        cs.apply root t = TreeM.ofFile (Change.performAll root cs.ordered) t) ∧
      (∀ x t₀ a, a.root = root → Transformation.changes Python.analyzer t₀ a x = .ok cs →
        (∃ p k expected updated, .edit p k expected updated ∈ cs.changes ∧
          ∀ e, t₀.Finds (root.join p) true e → ¬t.Finds (root.join p) true e) →
        ∃ e, cs.apply root t = .error e t) ∧
      ∀ source target e, .move source target ∈ cs.changes → t.Finds (root.join target) false e →
        (∃ e', cs.apply root t = .error e' t) ∨
          (∃ l, e = .link l) ∧ ∀ e', ¬t.Finds (root.join target) true e' := by
  refine ⟨fun ⟨c, hc, hstale⟩ => apply_of_isStale hc hstale, apply_of_fits, ?_, ?_⟩
  · rintro x t₀ a rfl hchanges ⟨p, k, expected, updated, hmem, hmodified⟩
    exact apply_of_isStale hmem (hmodified _ (finds_of_changes hchanges hmem))
  · intro source target e hmem hfinds
    by_cases htaken : ∃ e', t.Finds (root.join target) true e'
    · exact .inl (apply_of_isStale hmem (.inr htaken))
    · push Not at htaken
      exact .inr ⟨hfinds.exists_link htaken, htaken⟩

namespace Adrift

def tree : FileTree :=
  ⟨.dir [("a.py", .file "".toUTF8), ("b.py", .link "gone.py")], []⟩

def changes : ChangeSet :=
  ⟨"", [.move ⟨"a.py"⟩ ⟨"b.py"⟩]⟩

theorem apply_changes :
    changes.apply ⟨"/"⟩ tree = .ok 1 ⟨.dir [("b.py", .file "".toUTF8)], []⟩ :=
  rfl

theorem finds_tree : tree.Finds ((Path.mk "/").join ⟨"b.py"⟩) false (.link "gone.py") :=
  entry?_eq_ok_iff_finds.1 rfl

end Adrift

theorem refused_of_stale_adrift :
    Adrift.changes.apply ⟨"/"⟩ Adrift.tree = .ok 1 ⟨.dir [("b.py", .file "".toUTF8)], []⟩ ∧
      (∀ e, ¬Adrift.tree.Finds ((Path.mk "/").join ⟨"b.py"⟩) true e) ∧
      ∃ e, Adrift.changes.apply ⟨"/"⟩ ⟨.dir [("b.py", .file "".toUTF8)], []⟩ =
        .error e ⟨.dir [("b.py", .file "".toUTF8)], []⟩ := by
  obtain ⟨-, -, -, hlinks⟩ := refused_of_stale Adrift.tree ⟨"/"⟩ Adrift.changes
  obtain ⟨e, he⟩ | ⟨-, hnone⟩ := hlinks _ _ _ (List.mem_singleton_self _) Adrift.finds_tree
  · rw [Adrift.apply_changes] at he
    cases he
  refine ⟨Adrift.apply_changes, hnone, ?_⟩
  refine (refused_of_stale _ ⟨"/"⟩ Adrift.changes).1 ⟨_, List.mem_singleton_self _, .inr ?_⟩
  exact ⟨.file "".toUTF8, entry?_eq_ok_iff_finds.1 rfl⟩

end ChangeSet

end Reroot

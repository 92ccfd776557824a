import Reroot.Proofs.Change.Perform
import Reroot.Proofs.Project.Scan
import Mathlib.Data.Set.Function

namespace Reroot

def relocate (front moved : List String) : List String → List String
  | [] => []
  | k :: q => if k ∈ moved then front ++ k :: q else k :: q

section Relocate

variable {front moved q ps : List String} {k : String}

theorem relocate_ne_nil (h : q ≠ []) : relocate front moved q ≠ [] := by
  obtain ⟨k, q, rfl⟩ := List.exists_cons_of_ne_nil h
  rw [relocate]
  split <;> simp

theorem relocate_eq (front moved q : List String) :
    relocate front moved q = q ∨ relocate front moved q = front ++ q := by
  cases q with
  | nil => exact .inl rfl
  | cons k q =>
    rw [relocate]
    split
    · exact .inr rfl
    · exact .inl rfl

theorem relocate_nil_moved (front q : List String) : relocate front [] q = q := by
  cases q with
  | nil => rfl
  | cons k q => simp [relocate]

theorem relocate_relocate (hfront : front ≠ []) (hk : ¬[k] <+: front) :
    relocate front [k] (relocate front moved q) = relocate front (moved ++ [k]) q := by
  cases q with
  | nil => rfl
  | cons k' q =>
    obtain ⟨f, front, rfl⟩ := List.exists_cons_of_ne_nil hfront
    have hf : f ≠ k := by
      rintro rfl
      exact hk (by simp)
    by_cases hmoved : k' ∈ moved
    · rw [relocate, if_pos hmoved, List.cons_append, relocate, if_neg (by simpa using hf), relocate,
        if_pos (by simp [hmoved]), List.cons_append]
    · rw [relocate, if_neg hmoved, relocate, relocate]
      simp [hmoved]

theorem relocate_ne_cons {f : String} (hf : f ∉ moved) (hk : k ∈ moved) (q₀ : List String) :
    relocate (f :: front) moved q₀ ≠ k :: q := by
  cases q₀ with
  | nil => simp [relocate]
  | cons k₀ q₀ =>
    rw [relocate]
    split
    · rintro heq
      obtain rfl : f = k := (List.cons.inj heq).1
      exact hf hk
    · next hk₀ =>
      rintro heq
      obtain rfl : k₀ = k := (List.cons.inj heq).1
      exact hk₀ hk

theorem relocate_append (hne : q ≠ []) (rest : List String) :
    relocate front moved (q ++ rest) = relocate front moved q ++ rest := by
  obtain ⟨k, q, rfl⟩ := List.exists_cons_of_ne_nil hne
  rw [List.cons_append, relocate, relocate]
  split <;> simp

theorem relocate_of_isPrefix {package : QualifiedName} (hfirst : package.first ∉ moved)
    (hps : ps <+: package.segments) :
    relocate package.segments moved ps = ps := by
  cases ps with
  | nil => rfl
  | cons k ps =>
    obtain ⟨rest, hrest⟩ := hps
    have hk : package.first = k := by simp [QualifiedName.first, ← hrest]
    rw [relocate, if_neg (hk ▸ hfirst)]

theorem prefix_relocate (hpre : ps <+: relocate front moved q) (hother : ps ≠ relocate front moved q)
    (hne : ps ≠ []) : ps <+: front ∨
      ∃ p, p ≠ [] ∧ p <+: q ∧ p ≠ q ∧ relocate front moved p = ps := by
  cases q with
  | nil => exact absurd (List.prefix_nil.1 hpre) hne
  | cons k q =>
    by_cases hk : k ∈ moved
    · rw [relocate, if_pos hk] at hpre hother
      obtain hfront | ⟨p, rfl⟩ := List.prefix_or_prefix_of_prefix hpre (List.prefix_append front (k :: q))
      · exact .inl hfront
      rw [List.prefix_append_right_inj] at hpre
      cases p with
      | nil => exact .inl (by simp)
      | cons k' p =>
        obtain rfl : k' = k := (List.cons_prefix_cons.1 hpre).1
        refine .inr ⟨k' :: p, by simp, hpre, fun heq => hother (by rw [heq]), ?_⟩
        rw [relocate, if_pos hk]
    · rw [relocate, if_neg hk] at hpre hother
      cases ps with
      | nil => exact absurd rfl hne
      | cons k' ps =>
        obtain rfl : k' = k := (List.cons_prefix_cons.1 hpre).1
        exact .inr ⟨k' :: ps, hne, hpre, hother, by rw [relocate, if_neg hk]⟩

open Scan
open Reroot.Path (IsName)

variable {l : Layout}

theorem isModule_relocate (hskip : ∀ n ∈ front, isSkipped n = false) (hfront : ∀ n ∈ front, IsName n)
    (hne : q ≠ []) (hq : ∀ n ∈ q, IsName n) (hvisible : IsVisible q) (hat : Module.IsAt l q) :
    IsVisible (relocate front moved q) ∧ Module.IsAt l (relocate front moved q) := by
  obtain h | h := relocate_eq front moved q
  · rw [h]
    exact ⟨hvisible, hat⟩
  · rw [h]
    exact ⟨hvisible.append hskip, hat.append hne hfront hq⟩

theorem isModule_of_relocate (hfront : ∀ n ∈ front, IsName n) (hq : ∀ n ∈ q, IsName n)
    (hmarker : l.marker ∈ moved → q ≠ [l.marker]) (hvisible : IsVisible (relocate front moved q))
    (hat : Module.IsAt l (relocate front moved q)) : IsVisible q ∧ Module.IsAt l q := by
  cases q with
  | nil => exact ⟨hvisible, hat⟩
  | cons k q =>
    rw [relocate] at hvisible hat
    split at hat
    · next hk =>
      rw [if_pos hk] at hvisible
      refine ⟨.of_append (by simp) hvisible, (hat.of_append (by simp) hfront hq).resolve_right ?_⟩
      intro hnil
      obtain rfl : k = l.marker := (List.cons.inj hnil).1
      exact hmarker hk hnil
    · next hk =>
      rw [if_neg hk] at hvisible
      exact ⟨hvisible, hat⟩

end Relocate

namespace FileTree

variable {t t' : FileTree} {root : Path} {front q : List String} {k : String}

structure Relocates (t : FileTree) (root : Path) (front : List String) (k : String) (t' : FileTree) :
    Prop where
  moves : t.Moves (t.place root ++ [k]) (t.place root ++ (front ++ [k])) t'
  clear : ∀ rest bytes, t.view (t.place root ++ (front ++ [k] ++ rest)) ≠ some (.file bytes)

theorem Relocates.front_ne (h : t.Relocates root front k t') : front ≠ [] := by
  rintro rfl
  exact h.moves.apart.1 (by simp)

theorem Relocates.not_isPrefix (h : t.Relocates root front k t') : ¬[k] <+: front := by
  intro hk
  refine h.moves.apart.1 ((List.prefix_append_right_inj _).2 (hk.trans ?_))
  exact List.prefix_append _ _

theorem Relocates.place_eq (h : t.Relocates root front k t') : t'.place root = t.place root :=
  FileTree.place_eq h.moves.workdir

theorem Relocates.view (h : t.Relocates root front k t') (hq : q ∈ t.filesUnder root) :
    t'.view (t'.place root ++ relocate front [k] q) = t.view (t.place root ++ q) := by
  obtain ⟨hne, bytes, hview⟩ := hq
  obtain ⟨k', q, rfl⟩ := List.exists_cons_of_ne_nil hne
  rw [h.place_eq, relocate]
  by_cases hk : k' = k
  · subst hk
    have happend : t.place root ++ (front ++ k' :: q) = t.place root ++ (front ++ [k']) ++ q := by
      simp
    rw [if_pos (List.mem_singleton_self k'), happend, h.moves.view,
      if_pos (List.prefix_append _ _), List.drop_left]
    simp
  · rw [if_neg (List.mem_singleton.not.2 hk), h.moves.view, if_neg, if_neg]
    · rw [List.prefix_append_right_inj]
      simpa using Ne.symm hk
    · rw [List.prefix_append_right_inj]
      rintro ⟨rest, hrest⟩
      exact h.clear rest bytes (by rw [hrest, hview])

theorem Relocates.exists_of_mem (h : t.Relocates root front k t') (hq : q ∈ t'.filesUnder root) :
    ∃ q₀ ∈ t.filesUnder root, relocate front [k] q₀ = q := by
  obtain ⟨hne, bytes, hview⟩ := hq
  rw [h.place_eq, h.moves.view] at hview
  split at hview
  · next hpre =>
    obtain ⟨rest, rfl⟩ := (List.prefix_append_right_inj _).1 hpre
    rw [← List.append_assoc (t.place root) (front ++ [k]), List.drop_left] at hview
    exact ⟨k :: rest, ⟨by simp, bytes, by simpa using hview⟩, by simp [relocate]⟩
  · split at hview
    · cases hview
    · next hpre =>
      rw [List.prefix_append_right_inj] at hpre
      obtain ⟨k', q, rfl⟩ := List.exists_cons_of_ne_nil hne
      refine ⟨k' :: q, ⟨hne, bytes, hview⟩, ?_⟩
      have hk : k' ≠ k := by
        rintro rfl
        exact hpre (by simp)
      rw [relocate, if_neg (by simpa using hk)]

theorem Relocates.injOn (h : t.Relocates root front k t') :
    Set.InjOn (relocate front [k]) (t.filesUnder root) := by
  -- A file that stays cannot stand where another one goes.
  have hstay {q : List String} (hq : q ∈ t.filesUnder root) (rest : List String) :
      q ≠ front ++ k :: rest := by
    rintro rfl
    obtain ⟨-, bytes, hview⟩ := hq
    exact h.clear rest bytes (by simpa using hview)
  intro q₁ hq₁ q₂ hq₂ heq
  obtain ⟨k₁, q₁, rfl⟩ := List.exists_cons_of_ne_nil hq₁.1
  obtain ⟨k₂, q₂, rfl⟩ := List.exists_cons_of_ne_nil hq₂.1
  rw [relocate, relocate] at heq
  simp only [List.mem_singleton] at heq
  by_cases hk₁ : k₁ = k
  · subst hk₁
    by_cases hk₂ : k₂ = k₁
    · subst hk₂
      simpa using heq
    · rw [if_pos rfl, if_neg hk₂] at heq
      exact absurd heq.symm (hstay hq₂ q₁)
  · by_cases hk₂ : k₂ = k
    · subst hk₂
      rw [if_neg hk₁, if_pos rfl] at heq
      exact absurd heq (hstay hq₁ q₂)
    · rwa [if_neg hk₁, if_neg hk₂] at heq

theorem Relocates.bijOn (h : t.Relocates root front k t') :
    Set.BijOn (relocate front [k]) (t.filesUnder root) (t'.filesUnder root) := by
  refine ⟨fun q hq => ?_, h.injOn, fun q hq => h.exists_of_mem hq⟩
  obtain ⟨bytes, hview⟩ := hq.2
  exact ⟨relocate_ne_nil hq.1, bytes, by rw [h.view hq, hview]⟩

theorem Relocates.view_source (h : t.Relocates root front k t') :
    t'.view (t'.place root ++ [k]) = none := by
  rw [h.place_eq, h.moves.view, if_neg h.moves.apart.2, if_pos List.prefix_rfl]

end FileTree

end Reroot

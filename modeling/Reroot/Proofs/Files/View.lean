import Reroot.Files.Tree
import Mathlib.Data.List.Basic
import Mathlib.Tactic.Common

namespace Reroot

inductive Shape where
  | file (bytes : ByteArray)
  | link (target : String)
  | dir

namespace Entry

def shape : Entry → Shape
  | file bytes => .file bytes
  | link target => .link target
  | dir _ => .dir

def view (e : Entry) (ns : List String) : Option Shape :=
  (e.at? ns).map shape

variable {e x : Entry} {es : Listing} {n m : String} {ns ms : List String}

theorem find?_cons (p : String × Entry) (es : Listing) (n : String) :
    find? n (p :: es) = if p.1 = n then some p.2 else find? n es := by
  unfold find?
  rw [List.find?_cons]
  by_cases h : p.1 = n
  · simp [h]
  · rw [if_neg h, show (p.1 == n) = false by simpa using h]

theorem find?_insert (n m : String) (x : Entry) (es : Listing) :
    find? n (insert m x es) = if m = n then some x else find? n es := by
  induction es with
  | nil => rw [insert, find?_cons]
  | cons p es ih =>
    rw [insert]
    split
    · next hp =>
      rw [find?_cons, find?_cons, beq_iff_eq.1 hp]
      by_cases h : m = n <;> simp [h]
    · next hp =>
      have hpm : p.1 ≠ m := by simpa using hp
      split
      · rw [find?_cons]
      · rw [find?_cons, find?_cons, ih]
        by_cases h : m = n
        · rw [if_pos h, if_pos h, if_neg (h ▸ hpm)]
        · rw [if_neg h, if_neg h]

theorem find?_erase (n m : String) (es : Listing) :
    find? n (erase m es) = if m = n then none else find? n es := by
  induction es with
  | nil => simp [erase, find?]
  | cons p es ih =>
    rw [erase, List.filter_cons]
    rw [erase] at ih
    split
    · next hp =>
      have hpm : p.1 ≠ m := by simpa using hp
      rw [find?_cons, find?_cons, ih]
      by_cases h : m = n
      · rw [if_pos h, if_pos h, if_neg (h ▸ hpm)]
      · rw [if_neg h, if_neg h]
    · next hp =>
      have hpm : p.1 = m := by simpa using hp
      rw [find?_cons, ih, hpm]
      by_cases h : m = n <;> simp [h]

@[simp]
theorem at?_nil (e : Entry) : e.at? [] = some e := by
  cases e <;> rfl

@[simp]
theorem view_nil (e : Entry) : e.view [] = some e.shape := by
  rw [view, at?_nil, Option.map_some]

theorem at?_dir_cons (n : String) (ns : List String) (es : Listing) :
    (dir es).at? (n :: ns) = (find? n es).bind (·.at? ns) := by
  rw [at?]
  cases find? n es <;> rfl

theorem view_dir_cons (n : String) (ns : List String) (es : Listing) :
    (dir es).view (n :: ns) = (find? n es).bind (·.view ns) := by
  rw [view, at?_dir_cons]
  cases find? n es <;> rfl

theorem exists_dir_of_view_cons (h : e.view (n :: ns) ≠ none) : ∃ es, e = dir es := by
  cases e with
  | dir es => exact ⟨es, rfl⟩
  | file | link => exact absurd rfl h

theorem view_eq_some_dir_iff : e.view ns = some .dir ↔ ∃ es, e.at? ns = some (dir es) := by
  unfold view
  constructor
  · intro h
    obtain ⟨x, hx, hs⟩ := Option.map_eq_some_iff.1 h
    cases x with
    | dir es => exact ⟨es, hx⟩
    | file | link => cases hs
  · rintro ⟨es, hes⟩
    rw [hes]
    rfl

theorem at?_append (e : Entry) (ns ms : List String) :
    e.at? (ns ++ ms) = (e.at? ns).bind (·.at? ms) := by
  induction ns generalizing e with
  | nil => simp
  | cons n ns ih =>
    cases e with
    | dir es =>
      rw [List.cons_append, at?_dir_cons, at?_dir_cons]
      cases find? n es with
      | none => rfl
      | some x => exact ih x
    | file | link => rfl

theorem view_eq_dir_of_append (hms : ms ≠ []) (h : e.view (ns ++ ms) ≠ none) :
    e.view ns = some .dir := by
  rw [view, at?_append] at h
  cases hx : e.at? ns with
  | none =>
    rw [hx] at h
    exact absurd rfl h
  | some x =>
    rw [hx] at h
    obtain ⟨m, ms', rfl⟩ := List.exists_cons_of_ne_nil hms
    obtain ⟨es, rfl⟩ := exists_dir_of_view_cons h
    rw [view, hx]
    rfl

theorem exists_dir_of_room (h : e.view (n :: ns).dropLast = some .dir) : ∃ es, e = dir es := by
  cases ns with
  | nil =>
    obtain ⟨es, hes⟩ := view_eq_some_dir_iff.1 h
    exact ⟨es, by simpa using hes⟩
  | cons m ns =>
    rw [List.dropLast_cons_cons] at h
    exact exists_dir_of_view_cons (by rw [h]; simp)

theorem view_put (hroom : ns = [] ∨ e.view ns.dropLast = some .dir) :
    (e.put ns x).view ms = if ns <+: ms then x.view (ms.drop ns.length) else e.view ms := by
  induction ns generalizing e ms with
  | nil => simp [put]
  | cons n ns ih =>
    replace hroom := hroom.resolve_left (by simp)
    obtain ⟨es, rfl⟩ := exists_dir_of_room hroom
    rw [put]
    cases ms with
    | nil => simp [shape]
    | cons m ms =>
      rw [view_dir_cons, find?_insert, view_dir_cons]
      by_cases hnm : n = m
      · subst hnm
        simp only [if_true, true_and, Option.bind_some, List.length_cons, List.drop_succ_cons,
          List.cons_prefix_cons]
        by_cases hns : ns = []
        · subst hns
          simp [put]
        · rw [List.dropLast_cons_of_ne_nil hns, view_dir_cons] at hroom
          obtain ⟨c, hf, hroom⟩ := Option.bind_eq_some_iff.1 hroom
          rw [hf, Option.getD_some, Option.bind_some]
          exact ih (.inr hroom)
      · simp only [List.cons_prefix_cons, hnm, false_and, if_false]

theorem remove_of_not_dir (h : ∀ es, e ≠ dir es) : e.remove ns = e := by
  cases e with
  | dir es => exact absurd rfl (h es)
  | file | link => cases ns <;> simp [remove]

theorem view_remove (hne : ns ≠ []) :
    (e.remove ns).view ms = if ns <+: ms then none else e.view ms := by
  induction ns generalizing e ms with
  | nil => exact absurd rfl hne
  | cons n ns ih =>
    by_cases hdir : ∃ es, e = dir es
    · obtain ⟨es, rfl⟩ := hdir
      cases ns with
      | nil =>
        rw [remove]
        cases ms with
        | nil => simp [shape]
        | cons m ms =>
          rw [view_dir_cons, find?_erase, view_dir_cons]
          by_cases hnm : n = m <;> simp [hnm]
      | cons n' ns =>
        rw [remove]
        · cases hf : find? n es with
          | none =>
            dsimp only
            split
            · next h =>
              obtain ⟨rest, rfl⟩ := h
              rw [List.cons_append, view_dir_cons, hf]
              rfl
            · rfl
          | some c =>
            cases ms with
            | nil => simp [shape]
            | cons m ms =>
              rw [view_dir_cons, find?_insert, view_dir_cons]
              by_cases hnm : n = m
              · subst hnm
                simp only [if_true, hf, Option.bind_some, List.cons_prefix_cons (a := n),
                  true_and, ih (by simp)]
              · simp only [List.cons_prefix_cons, hnm, false_and, if_false]
        · simp
    · rw [remove_of_not_dir fun es hes => hdir ⟨es, hes⟩]
      split
      · next h =>
        obtain ⟨rest, rfl⟩ := h
        by_contra hview
        exact hdir (exists_dir_of_view_cons hview)
      · rfl

end Entry

end Reroot

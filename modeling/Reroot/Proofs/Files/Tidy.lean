import Reroot.Proofs.Files.Resolve
import Mathlib.Data.String.Basic

namespace Reroot

namespace Entry

open Reroot.Path (IsName)

inductive Tidy : Entry → Prop
  | file (bytes : ByteArray) : Tidy (.file bytes)
  | link (target : String) : Tidy (.link target)
  | dir {es : Listing} (sorted : es.Pairwise fun a b => a.1 < b.1) (names : ∀ a ∈ es, IsName a.1)
      (below : ∀ a ∈ es, Tidy a.2) : Tidy (.dir es)

variable {e x : Entry} {es : Listing} {n : String} {ns : List String}

theorem mem_of_mem_insert {a : String × Entry} (h : a ∈ insert n x es) : a = (n, x) ∨ a ∈ es := by
  induction es with
  | nil => exact .inl (List.mem_singleton.1 h)
  | cons p es ih =>
    rw [insert] at h
    split at h
    · obtain h | h := List.mem_cons.1 h
      · exact .inl h
      · exact .inr (List.mem_cons_of_mem p h)
    · split at h
      · exact List.mem_cons.1 h
      · obtain rfl | h := List.mem_cons.1 h
        · exact .inr List.mem_cons_self
        · exact (ih h).imp_right (List.mem_cons_of_mem p)

theorem sorted_insert (h : es.Pairwise fun a b => a.1 < b.1) :
    (insert n x es).Pairwise fun a b => a.1 < b.1 := by
  induction es with
  | nil => exact List.pairwise_singleton _ _
  | cons p es ih =>
    obtain ⟨hp, hes⟩ := List.pairwise_cons.1 h
    rw [insert]
    split
    · next heq =>
      exact List.pairwise_cons.2 ⟨fun a ha => beq_iff_eq.1 heq ▸ hp a ha, hes⟩
    · next hne =>
      split
      · next hlt =>
        refine List.pairwise_cons.2 ⟨List.forall_mem_cons.2 ⟨hlt, fun a ha => ?_⟩, h⟩
        exact lt_trans hlt (hp a ha)
      · next hlt =>
        refine List.pairwise_cons.2 ⟨fun a ha => ?_, ih hes⟩
        obtain rfl | ha := mem_of_mem_insert ha
        · exact lt_of_le_of_ne (not_lt.1 hlt) (by simpa using hne)
        · exact hp a ha

theorem Tidy.insert (h : (Entry.dir es).Tidy) (hn : IsName n) (hx : x.Tidy) :
    (Entry.dir (Entry.insert n x es)).Tidy := by
  cases h with
  | dir sorted names below =>
    refine .dir (sorted_insert sorted) (fun a ha => ?_) (fun a ha => ?_)
    · obtain rfl | ha := mem_of_mem_insert ha
      · exact hn
      · exact names a ha
    · obtain rfl | ha := mem_of_mem_insert ha
      · exact hx
      · exact below a ha

theorem Tidy.erase (h : (Entry.dir es).Tidy) (n : String) : (Entry.dir (Entry.erase n es)).Tidy := by
  cases h with
  | dir sorted names below =>
    exact .dir (sorted.filter _) (fun a ha => names a (List.mem_of_mem_filter ha))
      fun a ha => below a (List.mem_of_mem_filter ha)

theorem mem_of_find? (h : find? n es = some x) : (n, x) ∈ es := by
  obtain ⟨⟨m, y⟩, hf, rfl⟩ := Option.map_eq_some_iff.1 h
  obtain rfl : m = n := by simpa using List.find?_some hf
  exact List.mem_of_find?_eq_some hf

theorem find?_of_mem (sorted : es.Pairwise fun a b => a.1 < b.1) (h : (n, x) ∈ es) :
    find? n es = some x := by
  induction es with
  | nil => cases h
  | cons p es ih =>
    obtain ⟨hp, hes⟩ := List.pairwise_cons.1 sorted
    rw [find?_cons]
    obtain rfl | h := List.mem_cons.1 h
    · rw [if_pos rfl]
    · rw [if_neg (hp _ h).ne, ih hes h]

theorem Tidy.of_find? (h : (Entry.dir es).Tidy) (hx : find? n es = some x) : IsName n ∧ x.Tidy := by
  cases h with
  | dir sorted names below => exact ⟨names _ (mem_of_find? hx), below _ (mem_of_find? hx)⟩

theorem tidy_empty : (Entry.dir []).Tidy :=
  .dir .nil (by simp) (by simp)

theorem Tidy.put (h : e.Tidy) (hx : x.Tidy) (hns : ∀ n ∈ ns, IsName n) : (e.put ns x).Tidy := by
  induction ns generalizing e with
  | nil => rwa [Entry.put]
  | cons n ns ih =>
    obtain ⟨hn, hns⟩ := List.forall_mem_cons.1 hns
    cases e with
    | file | link => exact h
    | dir es =>
      rw [Entry.put]
      refine h.insert hn (ih ?_ hns)
      cases hf : find? n es with
      | none => exact tidy_empty
      | some y => exact (h.of_find? hf).2

theorem Tidy.remove (h : e.Tidy) (ns : List String) : (e.remove ns).Tidy := by
  induction ns generalizing e with
  | nil => rwa [Entry.remove]
  | cons n ns ih =>
    cases e with
    | file | link => rwa [remove_of_not_dir (by simp)]
    | dir es =>
      cases ns with
      | nil => exact h.erase n
      | cons m ns =>
        rw [Entry.remove]
        · split
          · next y hf =>
            obtain ⟨hn, hy⟩ := h.of_find? hf
            exact h.insert hn (ih hy)
          · exact h
        · simp

theorem Tidy.at? (h : e.Tidy) (hx : e.at? ns = some x) : (∀ n ∈ ns, IsName n) ∧ x.Tidy := by
  induction ns generalizing e with
  | nil =>
    rw [at?_nil] at hx
    cases hx
    exact ⟨by simp, h⟩
  | cons n ns ih =>
    cases e with
    | file | link => cases hx
    | dir es =>
      rw [at?_dir_cons] at hx
      obtain ⟨y, hy, hx⟩ := Option.bind_eq_some_iff.1 hx
      obtain ⟨hn, htidy⟩ := h.of_find? hy
      obtain ⟨hns, hx⟩ := ih htidy hx
      exact ⟨List.forall_mem_cons.2 ⟨hn, hns⟩, hx⟩

theorem Tidy.isName (h : e.Tidy) (hview : e.view ns ≠ none) : ∀ n ∈ ns, IsName n := by
  obtain ⟨s, hs⟩ := Option.ne_none_iff_exists'.1 hview
  obtain ⟨x, hx, -⟩ := Option.map_eq_some_iff.1 hs
  exact (h.at? hx).1

end Entry

namespace FileTree

open Reroot.Path (IsName)

theorem Leads.isName {top : Entry} {here steps names : List String} (h : Leads top here steps names)
    (hhere : ∀ n ∈ here, IsName n)
    (hsteps : ∀ s ∈ steps, s ≠ "" ∧ '/' ∉ s.toList) : ∀ n ∈ names, IsName n := by
  induction h with
  | done => exact hhere
  | stay _ _ ih => exact ih hhere fun s hs => hsteps s (List.mem_cons_of_mem _ hs)
  | up _ _ ih =>
    exact ih (fun n hn => hhere n (List.dropLast_subset _ hn))
      fun s hs => hsteps s (List.mem_cons_of_mem _ hs)
  | @down here rest names s _ hdot hup _ _ _ ih =>
    obtain ⟨hs, hrest⟩ := List.forall_mem_cons.1 hsteps
    refine ih (fun n hn => ?_) hrest
    obtain hn | hn := List.mem_append.1 hn
    · exact hhere n hn
    · obtain rfl := List.mem_singleton.1 hn
      exact ⟨hs.1, hdot, hup, hs.2⟩

theorem steps_proper (p : Path) : ∀ s ∈ steps p.text, s ≠ "" ∧ '/' ∉ s.toList := by
  have hpieces : ∀ s ∈ p.pieces, s ≠ "" ∧ '/' ∉ s.toList := by
    intro s hs
    obtain ⟨hs, hne⟩ := List.mem_filter.1 hs
    exact ⟨by simpa using hne, Text.not_mem_of_mem_split hs⟩
  unfold steps
  split
  · intro s hs
    obtain hs | hs := List.mem_append.1 hs
    · exact hpieces s hs
    · obtain rfl := List.mem_singleton.1 hs
      decide
  · exact hpieces

theorem Reaches.isName {t : FileTree} {p : Path} {names : List String} (h : t.Reaches p names)
    (htidy : t.top.Tidy) : ∀ n ∈ names, IsName n := by
  refine h.leads.isName ?_ (steps_proper p)
  have hdir : t.top.view (t.base p) = some .dir := by
    have hne := steps_ne_nil h.text_ne
    have hleads := h.leads
    cases hsteps : steps p.text with
    | nil => exact absurd hsteps hne
    | cons s rest =>
      rw [hsteps] at hleads
      cases hleads with
      | stay hdir => exact hdir
      | up hdir => exact hdir
      | down hdir => exact hdir
  exact htidy.isName (by simp [hdir])

end FileTree

end Reroot

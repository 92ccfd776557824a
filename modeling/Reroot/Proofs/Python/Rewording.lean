import Reroot.Proofs.Python.Listing
import Reroot.Proofs.Python.Rereading

namespace Reroot.Python

open Text (isIdentifierContinue)

inductive Reworded (words : List String) : List Char → List Char → Prop where
  | word {w w' : List Char} (hw : IsPlain words w) (hw' : IsPlain words w') : Reworded words w w'
  | tail {w w' : List Char} (hw : IsPlain words w) (hw' : IsPlain words w') (out : List Char) :
      Reworded words (w ++ '.' :: out) (w' ++ '.' :: out)
  | dot {w w' out out' : List Char} (hw : IsPlain words w) (hw' : IsPlain words w')
      (h : Reworded words out out') : Reworded words (w ++ '.' :: out) (w' ++ '.' :: out')

section Words

variable {words : List String} {s : Before} {w out out' rest rest' : List Char}

theorem foldl_next_word (hw : ∀ c ∈ w, isIdentifierContinue c = true) :
    w.foldl Before.next .word = .word := by
  induction w with
  | nil => rfl
  | cons c w ih =>
    obtain ⟨hc, hw⟩ := List.forall_mem_cons.1 hw
    rw [List.foldl_cons, next_of_continue hc]
    exact ih hw

theorem IsPlain.foldl_next (h : IsPlain words w) : w.foldl Before.next .gap = .word := by
  obtain ⟨c, cs, rfl, hc, hword⟩ := Respelled.exists_start h
  rw [List.foldl_cons, next_of_continue (isIdentifierContinue_of_start hc), if_pos rfl, if_pos hc]
  exact foldl_next_word (List.forall_mem_cons.1 hword).2

theorem Respelled.append_left (kept : List Char)
    (h : Respelled words (kept.foldl Before.next s) rest rest') :
    Respelled words s (kept ++ rest) (kept ++ rest') := by
  induction kept generalizing s with
  | nil => exact h
  | cons c kept ih => exact .keep (ih h)

theorem clear_dot (rest : List Char) : Clear ('.' :: rest) := by
  rintro d ⟨⟩
  decide

theorem IsPlain.foldl_next_dot (h : IsPlain words w) :
    (w ++ '.' :: out).foldl Before.next .gap = out.foldl Before.next .gap := by
  rw [List.foldl_append, h.foldl_next, List.foldl_cons]
  rfl

theorem Reworded.respelled (h : Reworded words out out') (hclear : Clear rest)
    (hrest : Respelled words (out.foldl Before.next .gap) rest rest') :
    Respelled words .gap (out ++ rest) (out' ++ rest') := by
  induction h with
  | word hw hw' =>
    rw [hw.foldl_next] at hrest
    exact .swap hw hw' hclear hrest
  | tail hw hw' out =>
    rw [hw.foldl_next_dot] at hrest
    rw [List.append_assoc, List.append_assoc]
    exact .swap hw hw' (clear_dot _) (.keep (.append_left out hrest))
  | dot hw hw' _ ih =>
    rw [hw.foldl_next_dot] at hrest
    rw [List.append_assoc, List.append_assoc]
    exact .swap hw hw' (clear_dot _) (.keep (ih hrest))

theorem toList_dotted_cons (w : String) {ws : List String} (hne : ws ≠ []) :
    (dotted (w :: ws)).toList = w.toList ++ '.' :: (dotted ws).toList := by
  rw [← List.singleton_append, dotted_append (List.cons_ne_nil w []) hne, dotted,
    String.intercalate_singleton, String.toList_append, String.toList_append, List.append_assoc]
  rfl

theorem reworded_dotted {a b : List String} (rest : List String) (hne : a ≠ [])
    (hlength : a.length = b.length) (ha : ∀ v ∈ a, IsPlain words v.toList)
    (hb : ∀ v ∈ b, IsPlain words v.toList) :
    Reworded words (dotted (a ++ rest)).toList (dotted (b ++ rest)).toList := by
  induction a generalizing b with
  | nil => exact absurd rfl hne
  | cons v a ih =>
    cases b with
    | nil => cases hlength
    | cons v' b =>
      obtain ⟨hv, ha⟩ := List.forall_mem_cons.1 ha
      obtain ⟨hv', hb⟩ := List.forall_mem_cons.1 hb
      have hlength : a.length = b.length := Nat.succ.inj hlength
      by_cases hnil : a = []
      · subst hnil
        obtain rfl := List.length_eq_zero_iff.1 hlength.symm
        cases rest with
        | nil => simpa only [dotted, List.nil_append, List.append_nil, String.intercalate_singleton]
            using Reworded.word hv hv'
        | cons w rest =>
          rw [List.singleton_append, List.singleton_append, toList_dotted_cons v (List.cons_ne_nil w rest),
            toList_dotted_cons v' (List.cons_ne_nil w rest)]
          exact .tail hv hv' _
      · have hnil' : b ≠ [] := by
          rintro rfl
          exact hnil (List.length_eq_zero_iff.1 hlength)
        rw [List.cons_append, List.cons_append, toList_dotted_cons v (List.append_ne_nil_of_left_ne_nil hnil _),
          toList_dotted_cons v' (List.append_ne_nil_of_left_ne_nil hnil' _)]
        exact .dot hv hv' (ih hnil hlength ha hb)

end Words

structure Edit.IsApart (text : List Char) (e : Edit) : Prop where
  gap : (Text.takeBytes e.span.start text).foldl Before.next .gap = .gap
  clear : Clear (Text.dropBytes e.span.stop text)

/-- The edit stands at a dotted name, not inside a number, and puts a plain word for each word that
it changes. -/
structure Edit.Rewords (text : List Char) (e : Edit) : Prop extends e.IsApart text where
  words : Reworded Rule.words (Text.between e.span.start e.span.stop text) e.text.toList

structure Edit.StandsAt (text : List Char) (segments : List String) (e : Edit) : Prop
    extends e.IsApart text where
  spelled : Text.between e.span.start e.span.stop text = (dotted segments).toList

theorem Edit.StandsAt.rewords {text : List Char} {e : Edit} {old new : QualifiedName}
    {rest : List String} (h : e.StandsAt text (old.segments ++ rest))
    (htext : e.text = dotted (new.segments ++ rest)) (hlength : old.length = new.length)
    (hold : ∀ w ∈ old.segments, IsPlain Rule.words w.toList)
    (hnew : ∀ w ∈ new.segments, IsPlain Rule.words w.toList) : e.Rewords text := by
  refine ⟨h.toIsApart, ?_⟩
  rw [h.spelled, htext]
  exact reworded_dotted rest old.nonempty hlength hold hnew

theorem respelled_of_spliced {offset : Nat} {es : List Edit} {rest rest' : List Char}
    (h : Spliced offset es rest rest') (front : List Char) (hoffset : offset = Text.byteWidth front)
    (hes : ∀ e ∈ es, e.Rewords (front ++ rest)) :
    Respelled Rule.words (front.foldl Before.next .gap) rest rest' := by
  induction h generalizing front with
  | keep => exact .refl _ _ _
  | @cut offset e es kept out rest rest' hstart hstop _ ih =>
    subst hoffset
    rw [← Text.byteWidth_append] at hstart
    obtain ⟨⟨⟨hgap, hclear⟩, hwords⟩, hes⟩ := List.forall_mem_cons.1 hes
    have hstop' : e.span.stop = Text.byteWidth ((front ++ kept) ++ out) := by
      rw [Text.byteWidth_append (front ++ kept), ← hstart, hstop]
    have hbefore : front ++ (kept ++ (out ++ rest)) = (front ++ kept) ++ (out ++ rest) := by simp
    have hafter : front ++ (kept ++ (out ++ rest)) = ((front ++ kept) ++ out) ++ rest := by simp
    rw [hbefore, hstart, Text.takeBytes_byteWidth] at hgap
    rw [hafter, hstop', Text.dropBytes_byteWidth] at hclear
    rw [hbefore, hstop, hstart, Text.between_byteWidth] at hwords
    rw [hafter] at hes
    have hrest := ih _ hstop' hes
    rw [List.foldl_append, hgap] at hrest
    refine .append_left kept ?_
    rw [← List.foldl_append, hgap]
    exact hwords.respelled hclear hrest

section Renaming

variable {source : String} {root : Node} {old new : QualifiedName} {r : Renamed} {edits : List Edit}

theorem parse?_ne_none_of_rewords (hparse : parse? source = some root)
    (hedits : renameEdits root source.toList old new = .ok edits)
    (h : renameModule source old new = .ok (some r)) (hwords : ∀ e ∈ edits, e.Rewords source.toList) :
    parse? r.content ≠ none := by
  have hoccurs : Text.occursIn old.first.toList source.toList = true := by
    by_contra hnone
    rw [renameModule_eq_none (by simpa using hnone)] at h
    cases h
  obtain ⟨edits', es, hedits', hmem, -, -, hspliced⟩ := exists_renames hparse hoccurs h
  obtain rfl := Except.ok.inj (hedits'.symm.trans hedits)
  have hrespelled := respelled_of_spliced hspliced [] rfl fun e he => hwords e ((hmem e).1 he)
  rw [← Option.isSome_iff_ne_none, parse?_isSome_eq_of_respelled hrespelled, hparse]
  rfl

theorem exists_edit_of_unparsable (h : renameModule source old new = .ok (some r))
    (hbroken : parse? r.content = none) : ∃ root edits, parse? source = some root ∧
      renameEdits root source.toList old new = .ok edits ∧
      ∃ e ∈ edits, Licensed root source.toList old new e ∧ ¬e.Rewords source.toList := by
  obtain ⟨root, hparse, htree⟩ := exists_renameTree h
  obtain ⟨edits, hedits, -⟩ := exists_renameEdits htree
  refine ⟨root, edits, hparse, hedits, ?_⟩
  by_contra hall
  refine parse?_ne_none_of_rewords hparse hedits h (fun e he => ?_) hbroken
  by_contra hwords
  exact hall ⟨e, he, licensed_of_mem_renameEdits (parse?_kind hparse)
    (parse?_shaped classEnclosure_lawful hparse) hedits e he, hwords⟩

theorem Licensed.text_eq {e : Edit} {source : List Char} (h : Licensed root source old new e) :
    (∃ n : Node, n.Within root ∧ n.kind = .importFromStatement ∧ e.span = n.span) ∨
      ∃ rest, e.text = dotted (new.segments ++ rest) := by
  cases h with
  | moduleName => exact .inr ⟨_, rfl⟩
  | wholeImport hn hk => exact .inl ⟨_, hn, hk, rfl⟩
  | load | target => exact .inr ⟨[], by rw [List.append_nil, QualifiedName.text]⟩

theorem exists_edit_of_unparsable_of_length_eq (hlength : old.length = new.length)
    (hold : ∀ w ∈ old.segments, IsPlain Rule.words w.toList)
    (hnew : ∀ w ∈ new.segments, IsPlain Rule.words w.toList)
    (h : renameModule source old new = .ok (some r)) (hbroken : parse? r.content = none) :
    ∃ root edits, parse? source = some root ∧ renameEdits root source.toList old new = .ok edits ∧
      ∃ e ∈ edits, (∃ n : Node, n.Within root ∧ n.kind = .importFromStatement ∧ e.span = n.span) ∨
        ∃ rest, e.text = dotted (new.segments ++ rest) ∧
          ¬e.StandsAt source.toList (old.segments ++ rest) := by
  obtain ⟨root, edits, hparse, hedits, e, he, hlicensed, hwords⟩ := exists_edit_of_unparsable h hbroken
  refine ⟨root, edits, hparse, hedits, e, he, hlicensed.text_eq.imp_right ?_⟩
  rintro ⟨rest, htext⟩
  exact ⟨rest, htext, fun hstands => hwords (hstands.rewords htext hlength hold hnew)⟩

end Renaming

end Reroot.Python

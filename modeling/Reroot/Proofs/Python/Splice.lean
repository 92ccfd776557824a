import Reroot.Python.Edit
import Reroot.Proofs.Text.Bytes
import Mathlib.Data.List.Dedup
import Mathlib.Data.List.Pairwise

namespace Reroot.Python

inductive Spliced : Nat → List Edit → List Char → List Char → Prop
  | keep (offset : Nat) (rest : List Char) : Spliced offset [] rest rest
  | cut {offset : Nat} {e : Edit} {es : List Edit} (kept out : List Char) {rest rest' : List Char}
      (hstart : e.span.start = offset + Text.byteWidth kept)
      (hstop : e.span.stop = e.span.start + Text.byteWidth out)
      (h : Spliced e.span.stop es rest rest') :
      Spliced offset (e :: es) (kept ++ (out ++ rest)) (kept ++ (e.text.toList ++ rest'))

theorem Spliced.offset_le {offset : Nat} {es : List Edit} {text text' : List Char}
    (h : Spliced offset es text text') : ∀ e ∈ es, offset ≤ e.span.start := by
  induction h with
  | keep => simp
  | @cut offset e es kept out rest rest' hstart hstop _ ih =>
    refine List.forall_mem_cons.2 ⟨by omega, fun f hf => ?_⟩
    have := ih f hf
    omega

theorem Spliced.disjoint {offset : Nat} {es : List Edit} {text text' : List Char}
    (h : Spliced offset es text text') :
    es.Pairwise fun e f => e.span.stop ≤ f.span.start := by
  induction h with
  | keep => exact .nil
  | cut kept out hstart hstop h ih => exact List.pairwise_cons.2 ⟨h.offset_le, ih⟩

namespace Edit

structure Fits (text : List Char) (e : Edit) : Prop where
  start_boundary : Text.IsBoundary text e.span.start
  stop_boundary : Text.IsBoundary text e.span.stop
  start_le_stop : e.span.start ≤ e.span.stop

theorem mem_dropRepeats {e : Edit} {es : List Edit} : e ∈ dropRepeats es ↔ e ∈ es := by
  induction es using dropRepeats.induct with
  | case1 => simp [dropRepeats]
  | case2 e => simp [dropRepeats]
  | case3 f es ih =>
    rw [dropRepeats, if_pos rfl, ih]
    simp
  | case4 f g es h ih =>
    rw [dropRepeats, if_neg h, List.mem_cons, ih, ← List.mem_cons]

theorem mem_ordered {e : Edit} {es : List Edit} : e ∈ ordered es ↔ e ∈ es := by
  rw [ordered, mem_dropRepeats, List.mem_mergeSort]

theorem pairwise_mergeSort_start (r : Nat → Nat → Prop) [DecidableRel r] [Std.Total r]
    [IsTrans Nat r] (es : List Edit) :
    (es.mergeSort fun e f => decide (r e.span.start f.span.start)).Pairwise fun e f =>
      r e.span.start f.span.start := by
  refine (List.pairwise_mergeSort (fun e f g hef hfg => ?_) (fun e f => ?_) es).imp of_decide_eq_true
  · exact decide_eq_true (IsTrans.trans _ _ _ (of_decide_eq_true hef) (of_decide_eq_true hfg))
  · simpa using Std.Total.total e.span.start f.span.start

theorem pairwise_dropRepeats {es : List Edit}
    (hfalling : es.Pairwise fun e f => f.span.start ≤ e.span.start)
    (hstart : ∀ e ∈ es, ∀ f ∈ es, e.span.start = f.span.start → e = f) :
    (dropRepeats es).Pairwise fun e f => f.span.start < e.span.start := by
  induction es using dropRepeats.induct with
  | case1 => exact .nil
  | case2 e => exact List.pairwise_singleton _ _
  | case3 f es ih =>
    rw [dropRepeats, if_pos rfl]
    exact ih (List.pairwise_cons.1 hfalling).2 fun e he g hg =>
      hstart e (List.mem_cons_of_mem _ he) g (List.mem_cons_of_mem _ hg)
  | case4 e f es hne ih =>
    obtain ⟨he, hfalling⟩ := List.pairwise_cons.1 hfalling
    rw [dropRepeats, if_neg hne]
    refine List.pairwise_cons.2 ⟨fun g hg => ?_, ih hfalling fun e he g hg =>
      hstart e (List.mem_cons_of_mem _ he) g (List.mem_cons_of_mem _ hg)⟩
    have hef : f.span.start < e.span.start :=
      Nat.lt_of_le_of_ne (he f (by simp)) fun h => hne (hstart e (by simp) f (by simp) h.symm)
    obtain rfl | hg := List.mem_cons.1 (mem_dropRepeats.1 hg)
    · exact hef
    · exact Nat.lt_of_le_of_lt ((List.pairwise_cons.1 hfalling).1 g hg) hef

section Starts

variable {es : List Edit} (hstart : ∀ e ∈ es, ∀ f ∈ es, e.span.start = f.span.start → e = f)

include hstart

theorem ordered_falling : (ordered es).Pairwise fun e f => f.span.start < e.span.start :=
  pairwise_dropRepeats (pairwise_mergeSort_start (· ≥ ·) es) fun e he f hf =>
    hstart e (List.mem_mergeSort.1 he) f (List.mem_mergeSort.1 hf)

theorem perm_ordered : (ordered es).Perm es.dedup := by
  have hnodup : (ordered es).Nodup := by
    refine (ordered_falling hstart).imp fun {e f} hlt => ?_
    rintro rfl
    exact absurd hlt (Nat.lt_irrefl _)
  rw [List.perm_ext_iff_of_nodup hnodup (List.nodup_dedup es)]
  intro e
  rw [mem_ordered, List.mem_dedup]

theorem eq_of_rising {fs gs : List Edit} (hfs : fs.Perm es.dedup) (hgs : gs.Perm es.dedup)
    (hrising : fs.Pairwise fun e f => e.span.start ≤ f.span.start)
    (hrising' : gs.Pairwise fun e f => e.span.start ≤ f.span.start) : fs = gs := by
  refine List.Perm.eq_of_pairwise (fun e f he hf hef hfe => ?_) hrising hrising'
    (hfs.trans hgs.symm)
  exact hstart e (List.mem_dedup.1 (hfs.mem_iff.1 he)) f (List.mem_dedup.1 (hgs.mem_iff.1 hf))
    (Nat.le_antisymm hef hfe)

theorem rising_reverse_ordered :
    (ordered es).reverse.Pairwise fun e f => e.span.start ≤ f.span.start :=
  List.pairwise_reverse.2 ((ordered_falling hstart).imp Nat.le_of_lt)

end Starts

theorem ordered_eq_reverse {es : List Edit}
    (h : es.Pairwise fun e f => e.span.start < f.span.start) : ordered es = es.reverse := by
  have : Std.Symm fun e f : Edit => e.span.start ≠ f.span.start := ⟨fun _ _ => Ne.symm⟩
  have hstart : ∀ e ∈ es, ∀ f ∈ es, e.span.start = f.span.start → e = f := fun e he f hf heq =>
    by_contra fun hef => (h.imp Nat.ne_of_lt).forall he hf hef heq
  have hdedup : es.dedup = es := by
    refine List.Nodup.dedup (h.imp fun {e f} hlt => ?_)
    rintro rfl
    exact absurd hlt (Nat.lt_irrefl _)
  rw [← List.reverse_eq_iff]
  exact eq_of_rising hstart ((List.reverse_perm _).trans (perm_ordered hstart))
    (List.Perm.of_eq hdedup.symm) (rising_reverse_ordered hstart) (h.imp Nat.le_of_lt)

theorem pairwise_of_overlap?_eq_none {es : List Edit}
    (hle : ∀ e ∈ es, e.span.start ≤ e.span.stop) (h : overlap? es = none) :
    es.Pairwise fun e f => f.span.stop ≤ e.span.start := by
  induction es with
  | nil => exact .nil
  | cons e es ih =>
    cases es with
    | nil => exact List.pairwise_singleton _ _
    | cons f es =>
      obtain ⟨-, hles⟩ := List.forall_mem_cons.1 hle
      rw [overlap?] at h
      split at h
      · cases h
      · next hef =>
        have htail := ih hles h
        refine List.pairwise_cons.2 ⟨fun g hg => ?_, htail⟩
        have hf := hle f (by simp)
        obtain rfl | hg := List.mem_cons.1 hg
        · omega
        · have := (List.pairwise_cons.1 htail).1 g hg
          omega

theorem overlap?_eq_none {es : List Edit}
    (h : es.Pairwise fun e f => f.span.stop ≤ e.span.start) :
    overlap? es = none := by
  induction es with
  | nil => rfl
  | cons e es ih =>
    obtain ⟨he, hes⟩ := List.pairwise_cons.1 h
    cases es with
    | nil => rfl
    | cons f es =>
      rw [overlap?, if_neg (Nat.not_lt.2 (he f (by simp)))]
      exact ih hes

theorem foldr_apply_spliced (front rest : List Char) {es : List Edit}
    (hfits : ∀ e ∈ es, e.Fits (front ++ rest))
    (hfront : ∀ e ∈ es, Text.byteWidth front ≤ e.span.start)
    (hdisjoint : es.Pairwise fun e f => e.span.stop ≤ f.span.start) :
    ∃ rest', es.foldr apply (front ++ rest) = front ++ rest' ∧
      Spliced (Text.byteWidth front) es rest rest' := by
  induction es generalizing front rest with
  | nil => exact ⟨rest, rfl, .keep _ _⟩
  | cons e es ih =>
    obtain ⟨he, hes⟩ := List.forall_mem_cons.1 hfits
    obtain ⟨hdisj, hdisjoint⟩ := List.pairwise_cons.1 hdisjoint
    obtain ⟨a, out, tail, htext, hstart, hstop⟩ :=
      he.start_boundary.split he.stop_boundary he.start_le_stop
    have hle : Text.byteWidth front ≤ Text.byteWidth a := hstart ▸ hfront e (by simp)
    obtain ⟨kept, rfl, rfl⟩ := Text.exists_eq_append_of_byteWidth_le htext hle
    have hwhole : front ++ (kept ++ (out ++ tail)) = (front ++ kept ++ out) ++ tail := by simp
    obtain ⟨rest', hfold, hspliced⟩ := ih (front ++ kept ++ out) tail
      (by rw [← hwhole]; exact hes)
      (fun f hf => by
        have := hdisj f hf
        rw [Text.byteWidth_append]
        omega)
      hdisjoint
    refine ⟨kept ++ (e.text.toList ++ rest'), ?_, ?_⟩
    · rw [List.foldr_cons, hwhole, hfold, apply, hstop, hstart, List.append_assoc (front ++ kept)]
      rw [Text.takeBytes_byteWidth, Text.dropBytes_add, Text.dropBytes_byteWidth]
      simp
    · rw [Text.byteWidth_append] at hstart hstop
      refine .cut kept out hstart (by omega) ?_
      rw [show e.span.stop = Text.byteWidth (front ++ kept ++ out) by simp; omega]
      exact hspliced

theorem splice_spliced {es : List Edit} {text text' : List Char} {n : Nat}
    (hfits : ∀ e ∈ es, e.Fits text) (h : splice es text = .ok (text', n)) :
    n = (ordered es).length ∧ Spliced 0 (ordered es).reverse text text' := by
  unfold splice at h
  dsimp only at h
  split at h
  · cases h
  · next hnone =>
    cases h
    have hordered : ∀ e ∈ ordered es, e.Fits text := fun e he => hfits e (mem_ordered.1 he)
    have hdisjoint := pairwise_of_overlap?_eq_none (fun e he => (hordered e he).start_le_stop) hnone
    obtain ⟨text', hfold, hspliced⟩ := foldr_apply_spliced [] text
      (fun e he => hordered e (List.mem_reverse.1 he)) (fun e _ => Nat.zero_le _) (List.pairwise_reverse.2 hdisjoint)
    rw [List.nil_append, List.nil_append, List.foldr_reverse] at hfold
    refine ⟨rfl, ?_⟩
    rw [show (ordered es).foldl (fun text e => e.apply text) text = text' from hfold]
    exact hspliced

end Edit

end Reroot.Python

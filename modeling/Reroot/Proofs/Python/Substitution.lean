import Reroot.Proofs.Python.Apart

namespace Reroot.Python

namespace Edit

def pieces : Nat → List Edit → List Char → List Char
  | offset, [], text => Text.dropBytes offset text
  | offset, e :: es, text =>
    Text.between offset e.span.start text ++ (e.text.toList ++ pieces e.span.stop es text)

def byPlace (es : List Edit) : List Edit :=
  es.dedup.mergeSort fun e f => e.span.start ≤ f.span.start

def substitute (es : List Edit) (text : List Char) : List Char :=
  pieces 0 (byPlace es) text

theorem pieces_of_spliced {offset : Nat} {es : List Edit} {rest rest' : List Char}
    (h : Spliced offset es rest rest') (front : List Char) (hfront : offset = Text.byteWidth front) :
    pieces offset es (front ++ rest) = rest' := by
  induction h generalizing front with
  | keep => rw [pieces, hfront, Text.dropBytes_byteWidth]
  | @cut offset e es kept out rest rest' hstart hstop _ ih =>
    have hrest := ih (front ++ kept ++ out) (by simp only [Text.byteWidth_append]; omega)
    rw [pieces, hstart, hfront, Text.between_byteWidth]
    rw [show front ++ (kept ++ (out ++ rest)) = front ++ kept ++ out ++ rest by simp, hrest]

section Distinct

variable {es : List Edit} {text : List Char}
  (hne : ∀ e ∈ es, e.span.start < e.span.stop)

include hne

theorem apart_of_splice_eq_ok {r : List Char × Nat} (h : splice es text = .ok r) :
    ∀ e ∈ es, ∀ f ∈ es, e ≠ f → e.Apart f := by
  have : Std.Symm Apart := ⟨fun _ _ => Apart.symm⟩
  unfold splice at h
  dsimp only at h
  split at h
  · cases h
  · next hnone =>
    have hdisjoint := pairwise_of_overlap?_eq_none
      (fun e he => (hne e (mem_ordered.1 he)).le) hnone
    have hapart : (ordered es).Pairwise Apart := hdisjoint.imp .inr
    exact fun e he f hf => hapart.forall (mem_ordered.2 he) (mem_ordered.2 hf)

theorem splice_eq_ok_iff :
    (∃ r, splice es text = .ok r) ↔ ∀ e ∈ es, ∀ f ∈ es, e ≠ f → e.Apart f :=
  ⟨fun ⟨_, h⟩ => apart_of_splice_eq_ok hne h, fun hapart => ⟨_, splice_eq_ok hne hapart text⟩⟩

variable (hapart : ∀ e ∈ es, ∀ f ∈ es, e ≠ f → e.Apart f)

include hapart

theorem reverse_ordered : (ordered es).reverse = byPlace es := by
  have hstart := eq_of_start_eq hne hapart
  exact eq_of_rising hstart ((List.reverse_perm _).trans (perm_ordered hstart))
    (List.mergeSort_perm _ _) (rising_reverse_ordered hstart)
    (pairwise_mergeSort_start (· ≤ ·) es.dedup)

theorem byPlace_congr {fs : List Edit} (h : ∀ e, e ∈ fs ↔ e ∈ es) : byPlace fs = byPlace es := by
  have hdedup : fs.dedup.Perm es.dedup := by
    rw [List.perm_ext_iff_of_nodup (List.nodup_dedup fs) (List.nodup_dedup es)]
    intro e
    rw [List.mem_dedup, List.mem_dedup, h]
  exact eq_of_rising (eq_of_start_eq hne hapart) ((List.mergeSort_perm _ _).trans hdedup)
    (List.mergeSort_perm _ _) (pairwise_mergeSort_start (· ≤ ·) fs.dedup)
    (pairwise_mergeSort_start (· ≤ ·) es.dedup)

variable (hfits : ∀ e ∈ es, e.Fits text)

include hfits

theorem splice_eq_substitute :
    splice es text = .ok (substitute es text, (byPlace es).length) := by
  have hsplice := splice_eq_ok hne hapart text
  obtain ⟨-, hspliced⟩ := splice_spliced hfits hsplice
  rw [reverse_ordered hne hapart] at hspliced
  rw [hsplice, ← pieces_of_spliced hspliced [] rfl, List.nil_append, substitute, byPlace,
    List.length_mergeSort]

theorem fits_foldl {later earlier : List Edit} {e : Edit} (h : ordered es = later ++ e :: earlier) :
    e.Fits (later.foldl (fun text e => e.apply text) text) := by
  have hmem {f : Edit} (hf : f ∈ later ++ e :: earlier) : f ∈ es := mem_ordered.1 (h ▸ hf)
  have he := hfits e (hmem (by simp))
  obtain ⟨kept, out, rest, htext, hstart, hstop⟩ :=
    he.start_boundary.split he.stop_boundary he.start_le_stop
  have hdisjoint := pairwise_ordered hne hapart
  rw [h, List.pairwise_append] at hdisjoint
  obtain ⟨hlater, -, hbehind⟩ := hdisjoint
  have hfits' : ∀ f ∈ later.reverse, f.Fits (kept ++ out ++ rest) := by
    intro f hf
    rw [List.append_assoc, ← htext]
    exact hfits f (hmem (by simp [List.mem_reverse.1 hf]))
  have hfront : ∀ f ∈ later.reverse, Text.byteWidth (kept ++ out) ≤ f.span.start := by
    intro f hf
    have := hbehind f (List.mem_reverse.1 hf) e (by simp)
    rw [Text.byteWidth_append]
    omega
  obtain ⟨rest', hfold, -⟩ :=
    foldr_apply_spliced (kept ++ out) rest hfits' hfront (List.pairwise_reverse.2 hlater)
  rw [List.append_assoc, ← htext, List.foldr_reverse] at hfold
  rw [show later.foldl (fun text e => e.apply text) text = kept ++ out ++ rest' from hfold]
  exact ⟨⟨kept, out ++ rest', by simp, hstart⟩, ⟨kept ++ out, rest', rfl, by simp [hstop]⟩,
    he.start_le_stop⟩

end Distinct

theorem splice_substitutes {es : List Edit} {text : List Char} (hfits : ∀ e ∈ es, e.Fits text)
    (hne : ∀ e ∈ es, e.span.start < e.span.stop) :
    ((∃ r, splice es text = .ok r) ↔ ∀ e ∈ es, ∀ f ∈ es, e ≠ f → e.Apart f) ∧
      ∀ r, splice es text = .ok r →
        r = (substitute es text, es.dedup.length) ∧
        (∀ fs, (∀ e, e ∈ fs ↔ e ∈ es) → splice fs text = .ok r) ∧
        ∀ later e earlier, ordered es = later ++ e :: earlier →
          e.Fits (later.foldl (fun text e => e.apply text) text) := by
  refine ⟨splice_eq_ok_iff hne, fun r h => ?_⟩
  have hapart := apart_of_splice_eq_ok hne h
  have hr := splice_eq_substitute hne hapart hfits
  rw [h, Except.ok.injEq] at hr
  refine ⟨?_, fun fs hfs => ?_, fun later e earlier => fits_foldl hne hapart hfits⟩
  · rw [hr, byPlace, List.length_mergeSort]
  · have hmem {e : Edit} (he : e ∈ fs) : e ∈ es := (hfs e).1 he
    rw [splice_eq_substitute (fun e he => hne e (hmem he))
      (fun e he f hf => hapart e (hmem he) f (hmem hf)) (fun e he => hfits e (hmem he)), hr,
      substitute, substitute, byPlace_congr hne hapart hfs]

def repeatedEdits : List Edit :=
  [⟨⟨3, 4⟩, "b.c"⟩, ⟨⟨0, 2⟩, "a"⟩, ⟨⟨3, 4⟩, "b.c"⟩]

theorem splice_substitutes_repeatedEdits :
    (∀ e ∈ repeatedEdits, e.Fits "é.x()".toList) ∧
      (∀ e ∈ repeatedEdits, e.span.start < e.span.stop) ∧
      splice repeatedEdits "é.x()".toList = .ok ("a.b.c()".toList, 2) ∧
      splice repeatedEdits.dedup "é.x()".toList = .ok ("a.b.c()".toList, 2) := by
  have hfits : ∀ e ∈ repeatedEdits, e.Fits "é.x()".toList := by
    have hsecond : Fits "é.x()".toList ⟨⟨3, 4⟩, "b.c"⟩ :=
      ⟨⟨['é', '.'], ['x', '(', ')'], rfl, rfl⟩, ⟨['é', '.', 'x'], ['(', ')'], rfl, rfl⟩, by decide⟩
    have hfirst : Fits "é.x()".toList ⟨⟨0, 2⟩, "a"⟩ :=
      ⟨Text.isBoundary_zero _, ⟨['é'], ['.', 'x', '(', ')'], rfl, rfl⟩, by decide⟩
    rintro e he
    obtain rfl | rfl | rfl : e = _ ∨ e = _ ∨ e = _ := by simpa [repeatedEdits] using he
    · exact hsecond
    · exact hfirst
    · exact hsecond
  have hne : ∀ e ∈ repeatedEdits, e.span.start < e.span.stop := by decide
  obtain ⟨hok, hresult⟩ := splice_substitutes hfits hne
  have hapart : ∀ e ∈ repeatedEdits, ∀ f ∈ repeatedEdits, e ≠ f → e.Apart f := by
    simp [repeatedEdits, Apart]
  obtain ⟨r, hr⟩ := hok.2 hapart
  obtain ⟨rfl, hsame, -⟩ := hresult r hr
  have hplaces : byPlace repeatedEdits = [⟨⟨0, 2⟩, "a"⟩, ⟨⟨3, 4⟩, "b.c"⟩] :=
    List.mergeSort_of_pairwise (by decide)
  have hvalue : (substitute repeatedEdits "é.x()".toList, repeatedEdits.dedup.length) =
      ("a.b.c()".toList, 2) := by
    rw [substitute, hplaces]
    decide
  rw [hvalue] at hr hsame
  exact ⟨hfits, hne, hr, hsame _ fun e => List.mem_dedup⟩

end Edit

end Reroot.Python

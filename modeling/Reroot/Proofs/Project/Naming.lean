import Reroot.Proofs.Project.Index

namespace Reroot

theorem dotted_inj {xs ys : List String} (hxs : xs ≠ []) (hys : ys ≠ [])
    (hx : ∀ s ∈ xs, '.' ∉ s.toList) (hy : ∀ s ∈ ys, '.' ∉ s.toList) (h : dotted xs = dotted ys) :
    xs = ys := by
  rw [← segmentsOf_dotted hxs hx, h, segmentsOf_dotted hys hy]

theorem Path.exists_stem {p : Path} {name extension : String} (hname : p.fileName? = some name)
    (h : p.extension? = some extension) : ∃ stem, stem ≠ "" ∧ name = stem ++ "." ++ extension := by
  rw [extension?, hname] at h
  dsimp only at h
  split at h
  · cases h
  · cases h
  next hsingle hhidden =>
  obtain ⟨front, hsplit⟩ := List.getLast?_eq_some_iff.1 h
  have hfront : front ≠ [] := by
    rintro rfl
    exact hsingle _ hsplit
  have heq : name = dotted front ++ "." ++ extension := by
    have := dotted_append hfront (List.cons_ne_nil extension [])
    rw [← hsplit] at this
    rw [← dotted_segmentsOf name]
    exact this.trans (by rw [dotted, dotted, String.intercalate_singleton])
  refine ⟨dotted front, fun hempty => ?_, heq⟩
  have hdotless : '.' ∉ extension.toList :=
    Text.not_mem_of_mem_split (s := name) (by simp [hsplit])
  have hsegments := segmentsOf_append "" extension
  rw [segmentsOf_of_not_mem hdotless, segmentsOf_of_not_mem (s := "") (by decide), ← hempty,
    ← heq, hempty] at hsegments
  exact hhidden extension hsegments

namespace Module

variable {l : Layout} {p q : Path} {ps qs d : List String} {f : String}

theorem stem?_append (stem extension : String) :
    stem? (stem ++ "." ++ extension) extension = some stem := by
  have htext : (stem ++ "." ++ extension).toList = stem.toList ++ '.' :: extension.toList := by simp
  have hlength : (stem ++ "." ++ extension).length - ('.' :: extension.toList).length =
      stem.toList.length := by
    rw [← String.length_toList, htext, List.length_append, Nat.add_sub_cancel_right]
  unfold stem?
  dsimp only
  rw [hlength, htext, if_pos (List.isSuffixOf_iff_suffix.2 (List.suffix_append _ _)), List.take_left,
    String.ofList_toList]

theorem segments?_file (h : p.parts = (d ++ [f ++ "." ++ l.extension]).map .name) :
    segments? l p = some (if f ++ "." ++ l.extension = l.marker then d else d ++ [f]) := by
  rw [segments?_of_parts h, List.getLast?_concat, Option.bind_some, List.dropLast_concat, stem?_append]
  split <;> rfl

theorem segments?_marker (h : p.parts = (d ++ [l.marker]).map .name) : segments? l p = some d := by
  rw [segments?_of_parts h, List.getLast?_concat, Option.bind_some, if_pos rfl, List.dropLast_concat]

theorem isSource_of_parts {name : String} (hp : p.parts = (d ++ [name]).map .name)
    (hname : Path.IsName name) : l.isSource ⟨name⟩ = l.isSource p := by
  exact isSource_congr (by
    rw [← Path.ofNames_singleton name, fileName?_ofNames (by simpa using hname), fileName?_of_parts hp, List.getLast?_concat,
      List.getLast?_singleton])

structure IsOrdinary (l : Layout) (p : Path) (names : List String) : Prop where
  source : l.isSource p = true
  parts : p.parts = names.map .name
  directories : ∀ n ∈ names.dropLast, '.' ∉ n.toList
  stem : ∀ f, names.getLast? = some (f ++ "." ++ l.extension) → '.' ∉ f.toList

theorem IsOrdinary.exists_stem (h : IsOrdinary l p ps) :
    ∃ d f, ps = d ++ [f ++ "." ++ l.extension] ∧ f ≠ "" ∧ ∀ n ∈ d ++ [f], '.' ∉ n.toList := by
  have hextension : p.extension? = some l.extension := by simpa [Layout.isSource] using h.source
  have hname := fileName?_of_parts h.parts
  cases hfile : ps.getLast? with
  | none =>
    rw [Path.extension?, hname, hfile] at hextension
    cases hextension
  | some file =>
    obtain ⟨d, hps⟩ := List.getLast?_eq_some_iff.1 hfile
    obtain ⟨f, hf, rfl⟩ := Path.exists_stem (hname.trans hfile) hextension
    refine ⟨d, f, hps, hf, List.forall_mem_append.2 ⟨?_, by simpa using h.stem f hfile⟩⟩
    have := h.directories
    rwa [hps, List.dropLast_concat] at this

theorem isOrdinary_of_stem (hsource : l.isSource p = true)
    (hparts : p.parts = (d ++ [f ++ "." ++ l.extension]).map .name)
    (hdots : ∀ n ∈ d ++ [f], '.' ∉ n.toList) : IsOrdinary l p (d ++ [f ++ "." ++ l.extension]) := by
  obtain ⟨hd, hf⟩ := List.forall_mem_append.1 hdots
  refine ⟨hsource, hparts, by rwa [List.dropLast_concat], fun f' hf' => ?_⟩
  rw [List.getLast?_concat, Option.some.injEq, String.append_left_inj, String.append_left_inj] at hf'
  simpa [hf'] using hf

theorem IsOrdinary.exists_segments (h : IsOrdinary l p ps) :
    ∃ segments, segments? l p = some segments ∧ ∀ s ∈ segments, '.' ∉ s.toList := by
  obtain ⟨d, f, rfl, -, hdots⟩ := h.exists_stem
  refine ⟨_, segments?_file h.parts, ?_⟩
  split
  · exact fun s hs => hdots s (List.mem_append_left _ hs)
  · exact hdots

theorem identifier_eq_iff_segments (hp : IsOrdinary l p ps) (hq : IsOrdinary l q qs) :
    (∃ m n, ofRelative? l p = some m ∧ ofRelative? l q = some n ∧ m.identifier = n.identifier) ↔
      ∃ segments, segments ≠ [] ∧ segments? l p = some segments ∧ segments? l q = some segments := by
  constructor
  · rintro ⟨m, n, hm, hn, heq⟩
    obtain ⟨-, xs, hxs, hxne, rfl⟩ := ofRelative?_eq_some_iff.1 hm
    obtain ⟨-, ys, hys, hyne, rfl⟩ := ofRelative?_eq_some_iff.1 hn
    obtain ⟨xs', hxs', hxdots⟩ := hp.exists_segments
    obtain ⟨ys', hys', hydots⟩ := hq.exists_segments
    obtain rfl := Option.some.inj (hxs.symm.trans hxs')
    obtain rfl := Option.some.inj (hys.symm.trans hys')
    obtain rfl := dotted_inj hxne hyne hxdots hydots heq
    exact ⟨xs, hxne, hxs, hys⟩
  · rintro ⟨segments, hne, hxs, hys⟩
    exact ⟨_, _, ofRelative?_eq_some_iff.2 ⟨hp.source, segments, hxs, hne, rfl⟩,
      ofRelative?_eq_some_iff.2 ⟨hq.source, segments, hys, hne, rfl⟩, rfl⟩

structure Shadows (l : Layout) (ps qs d : List String) (f : String) : Prop where
  file : ps = d ++ [f ++ "." ++ l.extension]
  marker : qs = d ++ [f, l.marker]
  nonempty : f ≠ ""
  ne_marker : f ++ "." ++ l.extension ≠ l.marker
  source : l.isSource ⟨l.marker⟩ = true

theorem Shadows.segments_eq (h : Shadows l ps qs d f) (hp : p.parts = ps.map .name)
    (hq : q.parts = qs.map .name) :
    segments? l p = some (d ++ [f]) ∧ segments? l q = some (d ++ [f]) := by
  rw [h.file] at hp
  rw [h.marker] at hq
  constructor
  · rw [segments?_file hp, if_neg h.ne_marker]
  · exact segments?_marker (by simpa using hq)

theorem shadows_of_segments (hmarker : Path.IsName l.marker) (hq : IsOrdinary l q qs)
    (hfile : ps = d ++ [f ++ "." ++ l.extension])
    (hf : f ≠ "") (hne : f ++ "." ++ l.extension ≠ l.marker) (hqs : qs = d ++ [f] ++ [l.marker]) :
    Shadows l ps qs d f where
  file := hfile
  marker := by simpa using hqs
  nonempty := hf
  ne_marker := hne
  source := by rw [isSource_of_parts (hqs ▸ hq.parts) hmarker, hq.source]

theorem exists_shadows {segments : List String} (hmarker : Path.IsName l.marker)
    (hp : IsOrdinary l p ps) (hq : IsOrdinary l q qs) (hne : ps ≠ qs)
    (hxs : segments? l p = some segments) (hys : segments? l q = some segments) :
    ∃ d f, Shadows l ps qs d f ∨ Shadows l qs ps d f := by
  obtain ⟨d, f, hps, hf, -⟩ := hp.exists_stem
  obtain ⟨d', f', hqs, hf', -⟩ := hq.exists_stem
  rw [segments?_file (hps ▸ hp.parts), Option.some.injEq] at hxs
  rw [segments?_file (hqs ▸ hq.parts), Option.some.injEq, ← hxs] at hys
  by_cases hpm : f ++ "." ++ l.extension = l.marker <;>
    by_cases hqm : f' ++ "." ++ l.extension = l.marker
  · rw [if_pos hpm, if_pos hqm] at hys
    exact absurd (by rw [hps, hqs, hpm, hqm, hys]) hne
  · rw [if_pos hpm, if_neg hqm] at hys
    exact ⟨d', f', .inr (shadows_of_segments hmarker hp hqs hf' hqm (by rw [hps, hpm, hys]))⟩
  · rw [if_neg hpm, if_pos hqm] at hys
    exact ⟨d, f, .inl (shadows_of_segments hmarker hq hps hf hpm (by rw [hqs, hqm, hys]))⟩
  · rw [if_neg hpm, if_neg hqm] at hys
    obtain ⟨rfl, hstem⟩ := List.append_inj' hys rfl
    rw [List.singleton_inj] at hstem
    exact absurd (by rw [hps, hqs, hstem]) hne

theorem identifier_eq_iff (hmarker : Path.IsName l.marker) (hp : IsOrdinary l p ps)
    (hq : IsOrdinary l q qs) (hne : p.samePlace q = false) :
    (∃ m n, ofRelative? l p = some m ∧ ofRelative? l q = some n ∧ m.identifier = n.identifier) ↔
      ∃ d f, Shadows l ps qs d f ∨ Shadows l qs ps d f := by
  have hnames : ps ≠ qs := by
    rintro rfl
    simp [Path.samePlace, hp.parts, hq.parts] at hne
  rw [identifier_eq_iff_segments hp hq]
  constructor
  · rintro ⟨segments, -, hxs, hys⟩
    exact exists_shadows hmarker hp hq hnames hxs hys
  · rintro ⟨d, f, h | h⟩
    · obtain ⟨hxs, hys⟩ := h.segments_eq hp.parts hq.parts
      exact ⟨d ++ [f], by simp, hxs, hys⟩
    · obtain ⟨hys, hxs⟩ := h.segments_eq hq.parts hp.parts
      exact ⟨d ++ [f], by simp, hxs, hys⟩

theorem identifier_eq_iff_package :
    ∃ m n, ofRelative? .standard ⟨"a/b.py"⟩ = some m ∧
      ofRelative? .standard ⟨"a/b/__init__.py"⟩ = some n ∧ m.identifier = n.identifier :=
  (identifier_eq_iff (l := .standard) (by decide)
    (isOrdinary_of_stem (d := ["a"]) (f := "b") (by decide) (by decide) (by decide))
    (isOrdinary_of_stem (d := ["a", "b"]) (f := "__init__") (by decide) (by decide) (by decide))
    (by decide)).2 ⟨["a"], "b", .inl ⟨rfl, rfl, by decide, by decide, by decide⟩⟩

end Module

end Reroot

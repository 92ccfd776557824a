import Reroot.Path
import Reroot.Proofs.Text.Split

namespace Reroot.Path

structure IsPlain (p : Path) : Prop where
  relative : p.isAbsolute = false
  bare : p.isSlashed = false
  named : p.pieces ≠ []
  names : ∀ s ∈ p.pieces, s ≠ "." ∧ s ≠ ".."

theorem IsPlain.text_ne {p : Path} (h : p.IsPlain) : p.text ≠ "" := by
  intro htext
  apply h.named
  rw [pieces, htext]
  rfl

theorem bare_of_isSlashed_eq_false {p : Path} (h : p.isSlashed = false) : p.bare = p := by
  unfold bare
  have hlast : p.text.toList.getLast? ≠ some '/' := by simpa [isSlashed] using h
  rw [List.getLast?_eq_head?_reverse] at hlast
  split
  · rfl
  · next cs hcs =>
    have hdrop : p.text.toList.reverse.dropWhile (· == '/') = p.text.toList.reverse := by
      cases hr : p.text.toList.reverse with
      | nil => rfl
      | cons c rest =>
        rw [hr] at hlast
        exact List.dropWhile_cons_of_neg (by simpa using hlast)
    rw [hdrop, List.reverse_reverse, String.ofList_toList]

theorem pieces_ne_nil {p : Path} (hp : p.text ≠ "") (h : p.isSlashed = false) : p.pieces ≠ [] := by
  have hne : p.text.toList ≠ [] := fun hnil => hp (String.toList_eq_nil_iff.1 hnil)
  have hlast : p.text.toList.getLast hne ≠ '/' := by
    simpa [isSlashed, List.getLast?_eq_some_getLast hne] using h
  obtain ⟨q, hq, hmem⟩ := Text.exists_mem_splitAt (List.getLast_mem hne) hlast
  refine List.ne_nil_of_mem (a := String.ofList q) (List.mem_filter.2 ⟨List.mem_map_of_mem hq, ?_⟩)
  have : String.ofList q ≠ "" := by
    intro hnil
    rw [← String.toList_eq_nil_iff, String.toList_ofList] at hnil
    exact List.ne_nil_of_mem hmem hnil
  simpa using this

section Join

variable {base p : Path}

theorem join_of_relative (base : Path) (h : p.isAbsolute = false) :
    base.join p = p ∧ base.text = "" ∨
      base.join p = ⟨base.text ++ p.text⟩ ∧ base.isSlashed = true ∨
      base.join p = ⟨base.text ++ "/" ++ p.text⟩ ∧ base.text ≠ "" := by
  unfold join
  rw [h, Bool.false_or]
  by_cases he : base.text = ""
  · exact .inl ⟨by rw [if_pos (by simp [he])], he⟩
  · rw [if_neg (by simpa using he)]
    by_cases hs : base.isSlashed = true
    · exact .inr (.inl ⟨if_pos hs, hs⟩)
    · exact .inr (.inr ⟨if_neg hs, he⟩)

theorem pieces_eq (p : Path) :
    p.pieces = (Text.split '/' (String.ofList p.text.toList)).filter (!·.isEmpty) := by
  rw [pieces, String.ofList_toList]

theorem pieces_join (h : p.isAbsolute = false) : (base.join p).pieces = base.pieces ++ p.pieces := by
  obtain ⟨hj, he⟩ | ⟨hj, hs⟩ | ⟨hj, -⟩ := join_of_relative base h
  · have hbase : base.pieces = [] := by rw [pieces, he]; rfl
    rw [hj, hbase, List.nil_append]
  · obtain ⟨cs, hcs⟩ := List.getLast?_eq_some_iff.1 (beq_iff_eq.1 hs)
    rw [hj, pieces_eq, pieces_eq, pieces_eq]
    simp only [String.toList_append]
    rw [hcs, List.append_assoc, List.singleton_append, Text.split_append, Text.split_append,
      List.filter_append, List.filter_append]
    simp [Text.split, Text.splitAt]
  · rw [hj, pieces_eq, pieces_eq, pieces_eq]
    simp only [String.toList_append]
    rw [List.append_assoc, show "/".toList = ['/'] from rfl, List.singleton_append,
      Text.split_append, List.filter_append]

theorem isAbsolute_join (h : p.isAbsolute = false) : (base.join p).isAbsolute = base.isAbsolute := by
  obtain ⟨hj, he⟩ | ⟨hj, hs⟩ | ⟨hj, he⟩ := join_of_relative base h
  · rw [hj, h, isAbsolute, he]
    rfl
  · obtain ⟨cs, hcs⟩ := List.getLast?_eq_some_iff.1 (beq_iff_eq.1 hs)
    rw [hj, isAbsolute, isAbsolute, String.toList_append, hcs]
    cases cs <;> rfl
  · rw [hj, isAbsolute, isAbsolute, String.toList_append, String.toList_append]
    cases hb : base.text.toList with
    | nil => exact absurd (String.toList_eq_nil_iff.1 hb) he
    | cons c cs => rfl

theorem isSlashed_join (h : p.isAbsolute = false) (hp : p.text ≠ "") :
    (base.join p).isSlashed = p.isSlashed := by
  have hne : p.text.toList ≠ [] := fun hnil => hp (String.toList_eq_nil_iff.1 hnil)
  have hlast (cs : List Char) : (cs ++ p.text.toList).getLast? = p.text.toList.getLast? := by
    rw [List.getLast?_append_of_ne_nil _ hne]
  obtain ⟨hj, -⟩ | ⟨hj, -⟩ | ⟨hj, -⟩ := join_of_relative base h
  · rw [hj]
  · rw [hj, isSlashed, isSlashed, String.toList_append, hlast]
  · rw [hj, isSlashed, isSlashed, String.toList_append, hlast]

theorem join_text_ne (h : p.isAbsolute = false) (hp : p.text ≠ "") : (base.join p).text ≠ "" := by
  have hne : p.text.toList ≠ [] := fun hnil => hp (String.toList_eq_nil_iff.1 hnil)
  intro htext
  have hnil : (base.join p).text.toList = [] := String.toList_eq_nil_iff.2 htext
  obtain ⟨hj, -⟩ | ⟨hj, -⟩ | ⟨hj, -⟩ := join_of_relative base h
  · rw [hj] at htext
    exact hp htext
  · rw [hj] at hnil
    simp only [String.toList_append, List.append_eq_nil_iff] at hnil
    exact hne hnil.2
  · rw [hj] at hnil
    simp only [String.toList_append, List.append_eq_nil_iff] at hnil
    exact hne hnil.2

theorem join_join {q : Path} (hp : p.isAbsolute = false) (hq : q.isAbsolute = false) :
    (base.join p).join q = base.join (p.join q) := by
  have put {b : Path} (hb : b.text ≠ "") :
      b.join q = ⟨b.text ++ (if b.isSlashed then "" else "/") ++ q.text⟩ := by
    rw [join, hq, if_neg (by simpa using hb)]
    split <;> simp
  by_cases hempty : p.text = ""
  · obtain rfl : p = ⟨""⟩ := by rw [← hempty]
    obtain ⟨text⟩ := base
    by_cases hbase : text = ""
    · simp [join, hbase]
    by_cases hslashed : (Path.mk text).isSlashed = true
    · simp [join, hbase, hslashed, isAbsolute]
    · have : (Path.mk (text ++ "/")).isSlashed = true := by simp [isSlashed]
      simp [join, hbase, hslashed, isAbsolute, this]
  · have habsolute : (p.join q).isAbsolute = false := by rw [isAbsolute_join hq, hp]
    rw [put (join_text_ne hp hempty), isSlashed_join hp hempty, join, join, hp, habsolute, put hempty]
    split
    · rfl
    · split <;> simp [String.append_assoc]

theorem IsPlain.isSlashed_join (h : p.IsPlain) : (base.join p).isSlashed = false := by
  rw [Path.isSlashed_join h.relative h.text_ne, h.bare]

theorem IsPlain.bare_join (h : p.IsPlain) : (base.join p).bare = base.join p :=
  bare_of_isSlashed_eq_false h.isSlashed_join

theorem IsPlain.isNamed_join (h : p.IsPlain) : (base.join p).isNamed = true := by
  obtain ⟨as, s, hpieces⟩ := List.eq_nil_or_concat' p.pieces |>.resolve_left h.named
  obtain ⟨hhere, hup⟩ := h.names s (by simp [hpieces])
  rw [isNamed, pieces_join h.relative, hpieces, ← List.append_assoc, List.getLast?_concat]
  simp [hhere, hup]

theorem IsPlain.join (hbase : base.IsPlain) (h : p.IsPlain) : (base.join p).IsPlain where
  relative := by rw [isAbsolute_join h.relative, hbase.relative]
  bare := h.isSlashed_join
  named := by simp [pieces_join h.relative, h.named]
  names := by
    rw [pieces_join h.relative]
    exact fun s hs => (List.mem_append.1 hs).elim (hbase.names s) (h.names s)

end Join

structure IsName (s : String) : Prop where
  nonempty : s ≠ ""
  here : s ≠ "."
  up : s ≠ ".."
  slashFree : '/' ∉ s.toList

instance (s : String) : Decidable (IsName s) :=
  decidable_of_iff (s ≠ "" ∧ s ≠ "." ∧ s ≠ ".." ∧ '/' ∉ s.toList)
    ⟨fun ⟨hnonempty, hhere, hup, hslash⟩ => ⟨hnonempty, hhere, hup, hslash⟩,
      fun h => ⟨h.nonempty, h.here, h.up, h.slashFree⟩⟩

structure IsPiece (s : String) : Prop where
  nonempty : s ≠ ""
  slashFree : '/' ∉ s.toList

theorem IsName.isPiece {s : String} (h : IsName s) : IsPiece s :=
  ⟨h.nonempty, h.slashFree⟩

section OfPieces

variable {names : List String}

theorem pieces_ofPieces (h : ∀ s ∈ names, IsPiece s) : (ofNames names).pieces = names := by
  by_cases hnil : names = []
  · subst hnil
    rfl
  · rw [pieces, ofNames, Text.split_intercalate rfl hnil fun s hs => (h s hs).slashFree]
    exact List.filter_eq_self.2 fun s hs => by simpa using (h s hs).nonempty

theorem toList_ofNames (names : List String) :
    (ofNames names).text.toList = ['/'].intercalate (names.map String.toList) := by
  rw [ofNames, String.toList_intercalate]
  rfl

theorem isAbsolute_ofPieces (h : ∀ s ∈ names, IsPiece s) : (ofNames names).isAbsolute = false := by
  cases names with
  | nil => rfl
  | cons s names =>
    have hs := h s (by simp)
    obtain ⟨c, cs, hcs⟩ : ∃ c cs, s.toList = c :: cs :=
      List.exists_cons_of_ne_nil fun hnil => hs.nonempty (String.toList_eq_nil_iff.1 hnil)
    have hc : c ≠ '/' := by
      rintro rfl
      exact hs.slashFree (by simp [hcs])
    rw [isAbsolute, toList_ofNames, List.map_cons, hcs]
    cases names <;> simpa [List.intercalate, List.intersperse] using hc

theorem ofPieces_text_ne (hne : names ≠ []) (h : ∀ s ∈ names, IsPiece s) :
    (ofNames names).text ≠ "" := by
  intro htext
  have hpieces := pieces_ofPieces h
  rw [pieces, htext] at hpieces
  exact hne hpieces.symm

theorem isSlashed_ofPieces (h : ∀ s ∈ names, IsPiece s) : (ofNames names).isSlashed = false := by
  induction names with
  | nil => rfl
  | cons s names ih =>
    obtain ⟨hs, hnames⟩ := List.forall_mem_cons.1 h
    by_cases hnil : names = []
    · subst hnil
      have hlast : s.toList.getLast? ≠ some '/' := fun hlast =>
        hs.slashFree (List.mem_of_getLast? hlast)
      rw [isSlashed, toList_ofNames]
      simpa using hlast
    · have hne : (ofNames names).text.toList ≠ [] := fun hempty =>
        ofPieces_text_ne hnil hnames (String.toList_eq_nil_iff.1 hempty)
      rw [isSlashed, toList_ofNames, List.map_cons,
        List.intercalate_cons_of_ne_nil (by simpa using hnil), ← toList_ofNames,
        List.getLast?_append_of_ne_nil _ hne]
      exact ih hnames

end OfPieces

section OfNames

variable {names : List String}

theorem ofNames_singleton (s : String) : ofNames [s] = ⟨s⟩ :=
  congrArg Path.mk String.intercalate_singleton

theorem pieces_ofNames (h : ∀ s ∈ names, IsName s) : (ofNames names).pieces = names :=
  pieces_ofPieces fun s hs => (h s hs).isPiece

theorem ofNames_inj {ns : List String} (h : ∀ s ∈ names, IsName s) (hns : ∀ s ∈ ns, IsName s)
    (heq : ofNames names = ofNames ns) : names = ns := by
  rw [← pieces_ofNames h, heq, pieces_ofNames hns]

theorem isAbsolute_ofNames (h : ∀ s ∈ names, IsName s) : (ofNames names).isAbsolute = false :=
  isAbsolute_ofPieces fun s hs => (h s hs).isPiece

theorem ofNames_text_ne (hne : names ≠ []) (h : ∀ s ∈ names, IsName s) :
    (ofNames names).text ≠ "" :=
  ofPieces_text_ne hne fun s hs => (h s hs).isPiece

theorem isSlashed_ofNames (h : ∀ s ∈ names, IsName s) : (ofNames names).isSlashed = false :=
  isSlashed_ofPieces fun s hs => (h s hs).isPiece

theorem isPlain_ofNames (hne : names ≠ []) (h : ∀ s ∈ names, IsName s) : (ofNames names).IsPlain where
  relative := isAbsolute_ofNames h
  bare := isSlashed_ofNames h
  named := by rwa [pieces_ofNames h]
  names := by
    rw [pieces_ofNames h]
    exact fun s hs => ⟨(h s hs).here, (h s hs).up⟩

theorem join_ofNames {front : List String} (hfront : front ≠ []) (hne : names ≠ [])
    (hnames : ∀ s ∈ front, IsName s) (h : ∀ s ∈ names, IsName s) :
    (ofNames front).join (ofNames names) = ofNames (front ++ names) := by
  have hempty : (ofNames front).text.isEmpty = false := by
    simpa using ofNames_text_ne hfront hnames
  rw [join, isAbsolute_ofNames h, isSlashed_ofNames hnames, hempty]
  exact congrArg Path.mk (String.intercalate_append_of_ne_nil hfront hne).symm

theorem parts_ofNames (h : ∀ s ∈ names, IsName s) : (ofNames names).parts = names.map .name := by
  have hdots : names.filter (· != ".") = names :=
    List.filter_eq_self.2 fun s hs => by simpa using (h s hs).here
  have hhead : (names.head? == some ".") = false := by
    cases names with
    | nil => rfl
    | cons s names => simpa using (h s (by simp)).here
  rw [parts, isAbsolute_ofNames h, pieces_ofNames h, hdots, hhead]
  exact List.map_congr_left fun s hs => if_neg (by simpa using (h s hs).up)

theorem ofParts_names (names : List String) : ofParts (names.map .name) = ofNames names := by
  have htext : (names.map Part.name).map Part.text = names := by
    rw [List.map_map]
    exact List.map_id names
  cases names with
  | nil => rfl
  | cons s names => exact congrArg (fun texts => Path.mk (String.intercalate "/" texts)) htext

end OfNames

def normal (p : Path) : Path :=
  ofParts p.parts

def normalPieces (p : Path) : List String :=
  (if !p.isAbsolute && p.pieces.head? == some "." then ["."] else []) ++ p.pieces.filter (· != ".")

def partOf (s : String) : Part :=
  if s == "." then .here else if s == ".." then .up else .name s

theorem text_partOf (s : String) : (partOf s).text = s := by
  unfold partOf
  split
  · next h => exact (beq_iff_eq.1 h).symm
  · split
    · next h => exact (beq_iff_eq.1 h).symm
    · rfl

theorem partOf_ne_root (s : String) : partOf s ≠ .root := by
  unfold partOf
  split
  · simp
  · split <;> simp

section Normal

variable {p q root : Path} {ns : List String} {s : String}

theorem parts_eq (p : Path) :
    p.parts = (if p.isAbsolute then [.root] else []) ++ p.normalPieces.map partOf := by
  have hnamed : (p.pieces.filter (· != ".")).map partOf =
      (p.pieces.filter (· != ".")).map fun s => if s == ".." then Part.up else .name s := by
    refine List.map_congr_left fun s hs => ?_
    have hdot : s ≠ "." := by simpa using (List.mem_filter.1 hs).2
    rw [partOf, if_neg (by simpa using hdot)]
  rw [parts, normalPieces, List.map_append, hnamed]
  by_cases habsolute : p.isAbsolute = true
  · simp [habsolute]
  · simp only [habsolute, Bool.false_eq_true, if_false, Bool.not_false, Bool.true_and, List.nil_append]
    split <;> rfl

theorem isPiece_of_mem_pieces (h : s ∈ p.pieces) : IsPiece s := by
  obtain ⟨hmem, hne⟩ := List.mem_filter.1 h
  exact ⟨by simpa using hne, Text.not_mem_of_mem_split hmem⟩

theorem isPiece_of_mem_normalPieces (h : s ∈ p.normalPieces) : IsPiece s := by
  obtain h | h := List.mem_append.1 h
  · split at h
    · obtain rfl := List.mem_singleton.1 h
      exact ⟨by decide, by decide⟩
    · cases h
  · exact isPiece_of_mem_pieces (List.mem_filter.1 h).1

theorem normal_eq (p : Path) :
    p.normal = if p.isAbsolute then ⟨"/" ++ (ofNames p.normalPieces).text⟩ else ofNames p.normalPieces := by
  have htexts (ns : List String) : (ns.map partOf).map Part.text = ns := by
    rw [List.map_map]
    exact (List.map_congr_left fun s _ => text_partOf s).trans (List.map_id ns)
  rw [normal, parts_eq]
  split
  · rw [List.singleton_append, ofParts, htexts]
    rfl
  · rw [List.nil_append]
    cases hns : p.normalPieces with
    | nil => rfl
    | cons s ns =>
      have hs := partOf_ne_root s
      rw [List.map_cons]
      unfold ofParts
      split
      · next h => exact absurd (List.cons.inj h).1 hs
      · rw [← List.map_cons, htexts]
        rfl

theorem normal_eq_join (p : Path) : p.normal =
    (if p.isAbsolute then ⟨"/"⟩ else ⟨""⟩ : Path).join (ofNames p.normalPieces) := by
  have hrelative := isAbsolute_ofPieces fun s hs => isPiece_of_mem_normalPieces (p := p) hs
  rw [normal_eq, join, hrelative]
  split <;> rfl

theorem pieces_normal (p : Path) : p.normal.pieces = p.normalPieces := by
  have hpieces : ∀ s ∈ p.normalPieces, IsPiece s := fun s hs => isPiece_of_mem_normalPieces hs
  rw [normal_eq_join, pieces_join (isAbsolute_ofPieces hpieces), pieces_ofPieces hpieces]
  split <;> rfl

theorem isAbsolute_normal (p : Path) : p.normal.isAbsolute = p.isAbsolute := by
  have hpieces : ∀ s ∈ p.normalPieces, IsPiece s := fun s hs => isPiece_of_mem_normalPieces hs
  rw [normal_eq_join, isAbsolute_join (isAbsolute_ofPieces hpieces)]
  split
  · next h => rw [h]; rfl
  · next h => simpa [isAbsolute] using h

theorem isSlashed_normal (h : p.normalPieces ≠ []) : p.normal.isSlashed = false := by
  have hpieces : ∀ s ∈ p.normalPieces, IsPiece s := fun s hs => isPiece_of_mem_normalPieces hs
  rw [normal_eq_join, isSlashed_join (isAbsolute_ofPieces hpieces) (ofPieces_text_ne h hpieces),
    isSlashed_ofPieces hpieces]

theorem filter_normalPieces (p : Path) :
    p.normalPieces.filter (· != ".") = p.pieces.filter (· != ".") := by
  rw [normalPieces, List.filter_append, List.filter_filter]
  split <;> simp

theorem head?_normalPieces (p : Path) : (!p.isAbsolute && p.normalPieces.head? == some ".") =
    (!p.isAbsolute && p.pieces.head? == some ".") := by
  cases hdot : (!p.isAbsolute && p.pieces.head? == some ".") with
  | true =>
    rw [Bool.and_eq_true] at hdot
    simp [normalPieces, hdot]
  | false =>
    rw [normalPieces, hdot, if_neg (by simp), List.nil_append]
    have hnot : (p.pieces.filter (· != ".")).head? ≠ some "." := by
      intro hhead
      simpa using (List.mem_filter.1 (List.mem_of_head? hhead)).2
    rw [beq_eq_false_iff_ne.2 hnot, Bool.and_false]

theorem normalPieces_normal (p : Path) : p.normal.normalPieces = p.normalPieces := by
  rw [normalPieces, isAbsolute_normal, pieces_normal, filter_normalPieces, head?_normalPieces]
  rfl

theorem parts_normal (p : Path) : p.normal.parts = p.parts := by
  rw [parts_eq, isAbsolute_normal, normalPieces_normal, ← parts_eq]

section Join

variable (hns : ∀ n ∈ ns, IsName n)

include hns

theorem normalPieces_join : (root.join (ofNames ns)).normalPieces = root.normalPieces ++ ns := by
  have hrelative := isAbsolute_ofNames hns
  have hkept : ns.filter (· != ".") = ns :=
    List.filter_eq_self.2 fun s hs => by simpa using (hns s hs).here
  have hhead : ((root.pieces ++ ns).head? == some ".") = (root.pieces.head? == some ".") := by
    cases root.pieces with
    | cons s rest => rfl
    | nil =>
      cases ns with
      | nil => rfl
      | cons n ns => simpa using (hns n (by simp)).here
  rw [normalPieces, normalPieces, isAbsolute_join hrelative, pieces_join hrelative, pieces_ofNames hns,
    hhead, List.filter_append, hkept, List.append_assoc]

theorem normalPieces_ofNames : (ofNames ns).normalPieces = ns := by
  have hempty : (⟨""⟩ : Path).join (ofNames ns) = ofNames ns := by simp [join]
  rw [← hempty, normalPieces_join hns]
  rfl

theorem parts_join_snoc (hs : IsName s) :
    (root.join (ofNames (ns ++ [s]))).parts = (root.join (ofNames ns)).parts ++ [.name s] := by
  have hall : ∀ n ∈ ns ++ [s], IsName n := by
    simp only [List.forall_mem_append, List.forall_mem_singleton]
    exact ⟨hns, hs⟩
  have hname : partOf s = .name s := by
    rw [partOf, if_neg (by simpa using hs.here), if_neg (by simpa using hs.up)]
  rw [parts_eq, parts_eq, isAbsolute_join (isAbsolute_ofNames hall),
    isAbsolute_join (isAbsolute_ofNames hns), normalPieces_join hall, normalPieces_join hns]
  simp [hname]

end Join

theorem isNamed_normal_join (hne : ns ≠ []) (hns : ∀ n ∈ ns, IsName n) :
    (root.join (ofNames ns)).normal.isNamed = true := by
  obtain ⟨as, s, rfl⟩ := List.eq_nil_or_concat' ns |>.resolve_left hne
  have hs := hns s (by simp)
  rw [isNamed, pieces_normal, normalPieces_join hns, ← List.append_assoc, List.getLast?_concat]
  simp [hs.here, hs.up]

theorem parent?_of_parts (h : p.parts = q.parts ++ [.name s]) : p.parent? = some q.normal := by
  rw [parent?, h, List.getLast?_concat, List.dropLast_concat]
  rfl

theorem partOf_injective : Function.Injective partOf :=
  Function.LeftInverse.injective (g := Part.text) text_partOf

theorem parts_eq_iff : p.parts = q.parts ↔ p.isAbsolute = q.isAbsolute ∧ p.normalPieces = q.normalPieces := by
  have hrelative {ns ms : List String} : .root :: ns.map partOf ≠ ms.map partOf := by
    cases ms with
    | nil => simp
    | cons m ms => simpa using fun h => absurd h.symm (partOf_ne_root m)
  rw [parts_eq, parts_eq]
  cases p.isAbsolute <;> cases q.isAbsolute
  · simp [(List.map_injective_iff.2 partOf_injective).eq_iff]
  · simpa using hrelative.symm
  · simpa using hrelative
  · simp [(List.map_injective_iff.2 partOf_injective).eq_iff]

theorem parts_join_left (hp : p.isAbsolute = false) (hq : q.isAbsolute = false) (h : p.parts = q.parts) :
    (root.join p).parts = (root.join q).parts := by
  have hsame := (parts_eq_iff.1 h).2
  have hfilter : p.pieces.filter (· != ".") = q.pieces.filter (· != ".") := by
    rw [← filter_normalPieces, hsame, filter_normalPieces]
  have hhead : (p.pieces.head? == some ".") = (q.pieces.head? == some ".") := by
    have hp' := head?_normalPieces p
    have hq' := head?_normalPieces q
    rw [hp, Bool.not_false, Bool.true_and, Bool.true_and] at hp'
    rw [hq, Bool.not_false, Bool.true_and, Bool.true_and] at hq'
    rw [← hp', ← hq', hsame]
  rw [parts_eq_iff, isAbsolute_join hp, isAbsolute_join hq]
  refine ⟨rfl, ?_⟩
  rw [normalPieces, normalPieces, isAbsolute_join hp, isAbsolute_join hq, pieces_join hp, pieces_join hq,
    List.filter_append, List.filter_append, hfilter]
  cases root.pieces with
  | nil => rw [List.nil_append, List.nil_append, hhead]
  | cons => rfl

theorem parts_join_right (hs : IsName s) (h : p.parts = q.parts) :
    (p.join ⟨s⟩).parts = (q.join ⟨s⟩).parts := by
  obtain ⟨habsolute, hsame⟩ := parts_eq_iff.1 h
  have hs' : ∀ n ∈ [s], IsName n := by simpa using hs
  rw [parts_eq_iff, ← ofNames_singleton s, isAbsolute_join (isAbsolute_ofNames hs'), isAbsolute_join (isAbsolute_ofNames hs'),
    normalPieces_join hs', normalPieces_join hs', hsame]
  exact ⟨habsolute, rfl⟩

end Normal

end Reroot.Path

import Reroot.Proofs.Name

namespace Reroot

def IsLetter (c : Char) : Prop :=
  ('a' ≤ c ∧ c ≤ 'z') ∨ ('A' ≤ c ∧ c ≤ 'Z')

def IsDigit (c : Char) : Prop :=
  '0' ≤ c ∧ c ≤ '9'

structure IsIdentifier (w : String) : Prop where
  spelled : ∃ c cs, w.toList = c :: cs ∧ (IsLetter c ∨ c = '_') ∧
    ∀ d ∈ cs, IsLetter d ∨ IsDigit d ∨ d = '_'
  free : w ∉ keywords

theorem isAlpha_iff {c : Char} : c.isAlpha = true ↔ IsLetter c := by
  change (decide ('A' ≤ c ∧ c ≤ 'Z') || (decide ('a' ≤ c) && decide (c ≤ 'z'))) = true ↔ _
  simp [IsLetter, or_comm]

theorem isDigit_iff {c : Char} : c.isDigit = true ↔ IsDigit c := by
  change (decide ('0' ≤ c) && decide (c ≤ '9')) = true ↔ _
  simp [IsDigit]

theorem isWord_iff {w : String} : isWord w = true ↔ ∃ c cs, w.toList = c :: cs ∧
    (IsLetter c ∨ c = '_') ∧ ∀ d ∈ cs, IsLetter d ∨ IsDigit d ∨ d = '_' := by
  unfold isWord
  cases w.toList with
  | nil => simp
  | cons c cs => simp [isAlpha_iff, isDigit_iff, or_assoc]

theorem isSegment_iff {w : String} : isSegment w = true ↔ IsIdentifier w := by
  rw [isSegment, Bool.and_eq_true, isWord_iff, isKeyword, Bool.not_eq_true', ← Bool.not_eq_true,
    List.contains_iff_mem]
  exact ⟨fun h => ⟨h.1, h.2⟩, fun h => ⟨h.spelled, h.free⟩⟩

namespace QualifiedName

variable {a b x q : QualifiedName} {s c : String}

theorem exists_parse_dotted {ws : List String} (hne : ws ≠ []) (h : ∀ w ∈ ws, isSegment w = true) :
    ∃ q, parse (dotted ws) = .ok q ∧ q.segments = ws :=
  ⟨⟨ws, hne, h⟩, parse_text ⟨ws, hne, h⟩, rfl⟩

theorem exists_parse_iff : (∃ q, parse s = .ok q) ↔
    ∃ ws, ws ≠ [] ∧ s = dotted ws ∧ ∀ w ∈ ws, IsIdentifier w := by
  constructor
  · rintro ⟨q, h⟩
    exact ⟨q.segments, q.nonempty, (text_of_parse h).symm, fun w hw => isSegment_iff.1 (q.valid w hw)⟩
  · rintro ⟨ws, hne, rfl, h⟩
    obtain ⟨q, hparse, -⟩ := exists_parse_dotted hne fun w hw => isSegment_iff.2 (h w hw)
    exact ⟨q, hparse⟩

theorem exists_child_iff : (∃ q, a.child c = .ok q) ↔ ∃ k, parse c = .ok k := by
  constructor
  · rintro ⟨q, h⟩
    have hvalid : ∀ w ∈ segmentsOf c, isSegment w = true := fun w hw =>
      q.valid w (by rw [segments_of_child h]; exact List.mem_append_right _ hw)
    obtain ⟨k, hk, -⟩ := exists_parse_dotted (segmentsOf_ne_nil c) hvalid
    rw [dotted_segmentsOf] at hk
    exact ⟨k, hk⟩
  · rintro ⟨k, hk⟩
    have hne : a.segments ++ k.segments ≠ [] := List.append_ne_nil_of_left_ne_nil a.nonempty _
    obtain ⟨q, hq, -⟩ := exists_parse_dotted hne (List.forall_mem_append.2 ⟨a.valid, k.valid⟩)
    have htext : dotted k.segments = c := text_of_parse hk
    rw [dotted_append a.nonempty k.nonempty, htext] at hq
    exact ⟨q, hq⟩

theorem isPrefixOf_of_child (h : a.child c = .ok q) : a.isPrefixOf q.segments = true := by
  rw [isPrefixOf, List.isPrefixOf_iff_prefix, segments_of_child h]
  exact List.prefix_append _ _

theorem parent?_of_child (h : a.child c = .ok q) (hc : '.' ∉ c.toList) :
    q.parent? = some a.text ∧ q.last = c := by
  have hsegments : q.segments = a.segments ++ [c] := by
    rw [segments_of_child h, segmentsOf_of_not_mem hc]
  have hlength : ¬q.length < 2 := by
    have := List.length_pos_iff.2 a.nonempty
    rw [length, hsegments, List.length_append, List.length_singleton]
    omega
  rw [parent?, if_neg hlength, hsegments, List.dropLast_concat, text]
  refine ⟨rfl, ?_⟩
  simp only [last, hsegments, List.getLast_concat]

theorem exists_parse_replace (b : QualifiedName) (h : a.isPrefixOf x.segments = true) :
    ∃ y, parse (a.replace b x.segments) = .ok y ∧ b.isPrefixOf y.segments = true ∧
      b.replace a y.segments = x.text := by
  obtain ⟨rest, hx⟩ := List.isPrefixOf_iff_prefix.1 h
  have hvalid : ∀ w ∈ b.segments ++ rest, isSegment w = true :=
    List.forall_mem_append.2 ⟨b.valid, fun w hw => x.valid w (hx ▸ List.mem_append_right _ hw)⟩
  obtain ⟨y, hy, hsegments⟩ :=
    exists_parse_dotted (List.append_ne_nil_of_left_ne_nil b.nonempty _) hvalid
  refine ⟨y, ?_, ?_, ?_⟩
  · rwa [replace, ← hx, length, List.drop_left]
  · rw [isPrefixOf, List.isPrefixOf_iff_prefix, hsegments]
    exact List.prefix_append _ _
  · rw [replace, hsegments, length, List.drop_left, hx, text]

theorem parse_exact :
    (∀ s, (∃ q, parse s = .ok q) ↔ ∃ ws, ws ≠ [] ∧ s = dotted ws ∧ ∀ w ∈ ws, IsIdentifier w) ∧
      (∀ s q, parse s = .ok q → q.text = s) ∧
      (∀ q : QualifiedName, parse q.text = .ok q) ∧
      (∀ (a : QualifiedName) c, ((∃ q, a.child c = .ok q) ↔ ∃ k, parse c = .ok k) ∧
        ∀ q, a.child c = .ok q → a.isPrefixOf q.segments = true ∧
          ('.' ∉ c.toList → q.parent? = some a.text ∧ q.last = c)) ∧
      ∀ a b x : QualifiedName, a.isPrefixOf x.segments = true →
        ∃ y, parse (a.replace b x.segments) = .ok y ∧ b.isPrefixOf y.segments = true ∧
          b.replace a y.segments = x.text :=
  ⟨fun _ => exists_parse_iff, fun _ _ => text_of_parse, parse_text,
    fun _ _ => ⟨exists_child_iff, fun _ h => ⟨isPrefixOf_of_child h, parent?_of_child h⟩⟩,
    fun _ b _ => exists_parse_replace b⟩

def application : QualifiedName := ⟨["app"], by decide, by decide⟩

def applicationTools : QualifiedName := ⟨["app", "tools"], by decide, by decide⟩

def secondLibrary : QualifiedName := ⟨["lib", "v2"], by decide, by decide⟩

theorem parse_exact_tools :
    parse "app.tools" = .ok applicationTools ∧ applicationTools.text = "app.tools" ∧
      application.child "tools" = .ok applicationTools ∧
      applicationTools.parent? = some application.text ∧ applicationTools.last = "tools" ∧
      application.isPrefixOf applicationTools.segments = true ∧
      ∃ y, parse "lib.v2.tools" = .ok y ∧ secondLibrary.isPrefixOf y.segments = true ∧
        secondLibrary.replace application y.segments = "app.tools" := by
  obtain ⟨-, hprint, hread, hchild, hreplace⟩ := parse_exact
  have htext : applicationTools.text = "app.tools" := by decide
  have hparse : parse "app.tools" = .ok applicationTools := htext ▸ hread applicationTools
  have hbelow : application.child "tools" = .ok applicationTools := by
    rw [child, show application.text ++ "." ++ "tools" = "app.tools" by decide, hparse]
  obtain ⟨hfront, hparent⟩ := (hchild application "tools").2 applicationTools hbelow
  obtain ⟨hparent, hlast⟩ := hparent (by decide)
  have hback := hreplace application secondLibrary applicationTools hfront
  rw [show application.replace secondLibrary applicationTools.segments = "lib.v2.tools" by decide,
    htext] at hback
  exact ⟨hparse, hprint _ _ hparse, hbelow, hparent, hlast, hfront, hback⟩

example : ["", "a.", "a..b", "a\n", "2a", "app.class"].all (fun s => !(parse s).isOk) = true := by
  decide

end QualifiedName

end Reroot

import Reroot.Proofs.Python.Orphans
import Reroot.Proofs.Python.Statements

namespace Reroot.Python

def Kind.isPattern : Kind → Bool
  | .casePattern | .unionPattern | .listPattern | .tuplePattern | .dictPattern | .keywordPattern
  | .splatPattern | .classPattern | .asPattern | .dottedName => true
  | _ => false

def Site.isInPattern (s : Site) : Bool :=
  (s.ancestors.find? fun a => !a.kind.isPattern).any fun c => c.kind == .caseClause

theorem isOrdinary_of_isPattern {k : Kind} (h : k.isPattern = true) : k.isOrdinary = true := by
  unfold Kind.isPattern at h
  split at h <;> first | rfl | cases h

section Pattern

variable {source : String} {root : Node} {p s w : Site} {i k : Nat} {n : Node} {b : Block}

theorem isInPattern_child (hp : p.kind.isPattern = true) :
    (p.child i n).isInPattern = p.isInPattern := by
  unfold Site.isInPattern
  rw [Site.ancestors_child, List.find?_cons_of_neg (by simp [hp])]

theorem kind_of_isInPattern (h : (p.child i n).isInPattern = true) (hp : p.kind.isPattern = false) :
    p.kind = .caseClause := by
  unfold Site.isInPattern at h
  rw [Site.ancestors_child, List.find?_cons_of_pos (by simp [hp])] at h
  exact beq_iff_eq.1 h

theorem isStoreIn_eq_false {above : List Site} {c : Site}
    (h : above.find? (fun a => !a.kind.isPattern) = some c) (hc : c.kind = .caseClause) :
    s.isStoreIn above = false := by
  induction above generalizing s with
  | nil => rfl
  | cons p above ih =>
    cases hp : p.kind.isPattern with
    | false =>
      rw [List.find?_cons_of_pos (by simp [hp])] at h
      obtain rfl := Option.some.inj h
      unfold Site.isStoreIn
      rw [hc]
    | true =>
      rw [List.find?_cons_of_neg (by simp [hp])] at h
      unfold Site.isStoreIn
      split <;> first | exact ih h | rfl | simp_all [Kind.isPattern]

theorem Site.isStore_of_isInPattern (h : w.isInPattern = true) : w.isStore = false := by
  obtain ⟨c, hfind, hc⟩ := Option.any_eq_true _ _ |>.1 h
  exact isStoreIn_eq_false hfind (beq_iff_eq.1 hc)

theorem Site.InTree.standsIn_of_isInPattern (hparse : parse? source = some root) (h : s.InTree root)
    (hnamed : s.node.isNamed = true) (hs : s.isInPattern = true) : ∃ b, StandsIn root s b := by
  induction h with
  | root => cases hs
  | @child p i n h hn ih =>
    have hchild : p.HasChild i n := ⟨hn, hnamed⟩
    cases hp : p.kind.isPattern with
    | true =>
      have hpnamed : p.node.isNamed = true := Node.isNamed_of_ne_mark fun t hk => by
        rw [show p.kind = .mark t from hk] at hp
        cases hp
      obtain ⟨b, hb⟩ := ih hpnamed (isInPattern_child hp ▸ hs)
      exact ⟨b, .same hb hchild (.ordinary (isOrdinary_of_isPattern hp))⟩
    | false =>
      have hk := kind_of_isInPattern hs hp
      obtain ⟨b, hb⟩ := h.exists_standsIn hparse (by rw [hk]; rfl) (by simp [hk]) (by simp [hk])
      exact ⟨b, .same hb hchild (.ordinary (by rw [hk]; rfl))⟩

theorem StandsIn.exists_load (h : StandsIn root w b) (hk : w.kind = .identifier)
    (hstore : w.isStore = false) (source : List Char) :
    ∃ k, Numbered root source k b ∧ .used k .load w ∈ ScopeTable.log root source := by
  obtain ⟨k, size, hw, hb⟩ := h.visited source
  exact ⟨k, hb, hw.mem_log _ (Visit.Does.loads hk hstore).mem_respond⟩

theorem eq_of_holds_load {source : List Char} {e : Effect} {σ : Site}
    (hload : .used k .load w ∈ ScopeTable.log root source) (he : e ∈ ScopeTable.log root source)
    (hσ : e.site? = some σ) (hplace : σ.Holds w ∨ w.Holds σ) : e = .used k .load w := by
  obtain ⟨s, v, size, -, he, hused⟩ := exists_visited_of_comparable he hload hσ rfl hplace
  have hresponse : Response source (v.respond source size s).1 := respond_response v
  generalize (v.respond source size s).1 = es at hresponse he hused
  cases hresponse with
  | plain h => exact (h _ hused).elim
  | nonlocals | globals | store => simp [Effect.ofText] at hused
  | load scope site =>
    rw [List.mem_singleton.1 hused]
    exact List.mem_singleton.1 he

theorem attributeChain_of_isInPattern {source : List Char} {limit : Nat} (h : w.isInPattern = true) :
    attributeChain source limit w = ([w.node.text source], w.node.stop) := by
  obtain ⟨c, hfind, hc⟩ := Option.any_eq_true _ _ |>.1 h
  unfold attributeChain
  cases hw : w.ancestors with
  | nil => rfl
  | cons p above =>
    have hp : p.kind ≠ .attribute := by
      intro hk
      rw [hw, List.find?_cons_of_pos (by simp [hk, Kind.isPattern])] at hfind
      rw [Option.some.inj hfind] at hk
      rw [hk] at hc
      cases hc
    unfold chainAbove
    rw [if_neg (by simp [hp])]

theorem QualifiedName.isPrefixOf_singleton {old : QualifiedName} {x : String} :
    old.isPrefixOf [x] = true ↔ old.segments = [x] := by
  unfold QualifiedName.isPrefixOf
  constructor
  · intro h
    obtain ⟨rest, hrest⟩ := List.isPrefixOf_iff_prefix.1 h
    obtain ⟨hnil, -⟩ | ⟨heq, -⟩ := List.append_eq_singleton_iff.1 hrest
    · exact absurd hnil old.nonempty
    · exact heq
  · intro h
    rw [h]
    simp

theorem rewritten_iff_of_isInPattern {old new : QualifiedName} {r : Option Renamed}
    (hparse : parse? source = some root) (hpattern : w.isInPattern = true)
    (hload : .used k .load w ∈ ScopeTable.log root source.toList)
    (hrename : renameModule source old new = .ok r) : ∃ es, Renames source es r ∧
      (Rewritten es w ↔ old.segments = [w.node.text source.toList] ∧
        refersToImport (.build root source.toList) source.toList old
          ((ScopeTable.build root source.toList).resolve k (w.node.text source.toList))
          ⟨w.node.text source.toList, k, .load, w⟩ = .ok true) := by
  have hu : ⟨w.node.text source.toList, k, .load, w⟩ ∈ (ScopeTable.build root source.toList).uses := by
    rw [ScopeTable.uses_build]
    exact List.mem_filterMap.2 ⟨_, hload, rfl⟩
  obtain ⟨es, x, hrenames, hx, hrewritten⟩ := ScopeTable.exists_renames_of_use hparse hrename hu
  refine ⟨es, hrenames, hrewritten.trans ?_⟩
  by_cases hname : w.node.text source.toList = old.first
  · rw [ScopeTable.exists_useEdit_iff rfl hname hx, attributeChain_of_isInPattern hpattern,
      QualifiedName.isPrefixOf_singleton]
  · rw [useEdit, if_pos hname, Except.ok.injEq] at hx
    constructor
    · rintro ⟨e, rfl⟩
      cases hx
    · rintro ⟨hsegments, -⟩
      exact absurd (by simp [QualifiedName.first, hsegments]) hname

theorem renameModule_takes_patterns_for_loads (hparse : parse? source = some root)
    (hw : w.InTree root) (hk : w.kind = .identifier) (hpattern : w.isInPattern = true) :
    ∃ b k, StandsIn root w b ∧ Numbered root source.toList k b ∧
      .used k .load w ∈ ScopeTable.log root source.toList ∧
      (∀ e ∈ ScopeTable.log root source.toList, ∀ σ, e.site? = some σ → σ.Holds w ∨ w.Holds σ →
        e = .used k .load w) ∧
      ∀ old new r, renameModule source old new = .ok r → ∃ es, Renames source es r ∧
        (Rewritten es w ↔ old.segments = [w.node.text source.toList] ∧
          refersToImport (.build root source.toList) source.toList old
            ((ScopeTable.build root source.toList).resolve k (w.node.text source.toList))
            ⟨w.node.text source.toList, k, .load, w⟩ = .ok true) := by
  have hnamed : w.node.isNamed = true := Node.isNamed_of_ne_mark fun t ht => by
    rw [show w.kind = .mark t from ht] at hk
    cases hk
  obtain ⟨b, hb⟩ := hw.standsIn_of_isInPattern hparse hnamed hpattern
  obtain ⟨k, hnumbered, hload⟩ := hb.exists_load hk (Site.isStore_of_isInPattern hpattern) source.toList
  exact ⟨b, k, hb, hnumbered, hload, fun e he σ => eq_of_holds_load hload he,
    fun old new r => rewritten_iff_of_isInPattern hparse hpattern hload⟩

end Pattern

def patternText : String :=
  "import a\nmatch p:\n    case C(a=q.a):\n        a.f()\n"

theorem ordered_patternText :
    Edit.ordered [⟨⟨7, 8⟩, "b"⟩, ⟨⟨29, 30⟩, "b"⟩, ⟨⟨33, 34⟩, "b"⟩, ⟨⟨45, 46⟩, "b"⟩] =
      [⟨⟨45, 46⟩, "b"⟩, ⟨⟨33, 34⟩, "b"⟩, ⟨⟨29, 30⟩, "b"⟩, ⟨⟨7, 8⟩, "b"⟩] :=
  Edit.ordered_eq_reverse (by decide)

theorem renameModule_patternText : renameModule patternText shortName ScopeTable.otherName =
    .ok (some ⟨"import b\nmatch p:\n    case C(b=q.b):\n        b.f()\n", 4⟩) := by
  refine renameModule_eq_of_edits
    [⟨⟨7, 8⟩, "b"⟩, ⟨⟨29, 30⟩, "b"⟩, ⟨⟨33, 34⟩, "b"⟩, ⟨⟨45, 46⟩, "b"⟩]
    "import b\nmatch p:\n    case C(b=q.b):\n        b.f()\n".toList (by decide)
    (by decide +kernel) (by simp) ?_
  rw [Edit.splice, ordered_patternText, String.toList_ofList]
  rfl

theorem renameModule_takes_patterns_for_loads_keyword : ∃ root w es, parse? patternText = some root ∧
    renameModule patternText shortName ScopeTable.otherName =
      .ok (some ⟨"import b\nmatch p:\n    case C(b=q.b):\n        b.f()\n", 4⟩) ∧
    Renames patternText es (some ⟨"import b\nmatch p:\n    case C(b=q.b):\n        b.f()\n", 4⟩) ∧
    w.InTree root ∧ w.kind = .identifier ∧ w.isInPattern = true ∧
    w.parent?.any (·.kind == .keywordPattern) = true ∧ Rewritten es w := by
  have hfacts : ((parse? patternText).any fun root =>
      (ScopeTable.build root patternText.toList).uses.any fun u => u.site.isInPattern &&
        u.site.parent?.any (·.kind == .keywordPattern) &&
        u.site.node.text patternText.toList == "a" && u.kind == .load && u.name == "a" &&
        (refersToImport (.build root patternText.toList) patternText.toList shortName
          ((ScopeTable.build root patternText.toList).resolve u.scope "a") u).toOption == some true) =
      true := by
    decide +kernel
  obtain ⟨root, hparse, hfacts⟩ := Option.any_eq_true _ _ |>.1 hfacts
  obtain ⟨⟨name, scope, kind, w⟩, hu, hfacts⟩ := List.any_eq_true.1 hfacts
  simp only [Bool.and_eq_true, beq_iff_eq] at hfacts
  obtain ⟨⟨⟨⟨⟨hpattern, hkeyword⟩, htext⟩, rfl⟩, rfl⟩, hrefers⟩ := hfacts
  have hused := (isUsed_of_mem_uses (parse?_kind hparse)
    (parse?_shaped classEnclosure_lawful hparse) _ hu).1
  obtain ⟨b, k, -, -, -, honly, hrename⟩ :=
    renameModule_takes_patterns_for_loads hparse hused.inTree hused.kind hpattern
  have heq := honly _ (ScopeTable.mem_uses hu).1 w rfl (.inl List.suffix_rfl)
  obtain ⟨rfl, -⟩ := Effect.used.inj heq
  obtain ⟨es, hrenames, hrewritten⟩ := hrename _ _ _ renameModule_patternText
  refine ⟨root, w, es, hparse, renameModule_patternText, hrenames, hused.inTree, hused.kind, hpattern,
    hkeyword, hrewritten.2 ⟨by rw [htext]; rfl, ?_⟩⟩
  rw [htext]
  generalize refersToImport _ _ _ _ _ = x at hrefers
  cases x with
  | error => cases hrefers
  | ok refers => exact congrArg Except.ok (Option.some.inj hrefers)

end Reroot.Python

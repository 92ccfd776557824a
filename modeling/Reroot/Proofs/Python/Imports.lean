import Reroot.Proofs.Name
import Reroot.Proofs.Python.Exactness

namespace Reroot.Python

section Segments

variable {ρ : Type} {E : Enclosure ρ} {source : List Char} {n : Node}

theorem IsWord.dot_not_mem {cs : List Char} (h : IsWord cs) : '.' ∉ cs := by
  intro hmem
  have := h.2 '.' hmem
  revert this
  decide

theorem exists_of_mem_segments (hs : n.All (Node.Shaped E source)) {w : String}
    (hw : w ∈ n.segments source) :
    ∃ c : Node, w = c.text source ∧ IsWord (Text.between c.start c.stop source) := by
  unfold Node.segments at hw
  split at hw
  · next hk => exact ⟨n, List.mem_singleton.1 hw, (hs.self.word (beq_iff_eq.1 hk)).2⟩
  · obtain ⟨c, hc, rfl⟩ := List.mem_map.1 hw
    obtain ⟨hnamed, hk⟩ := List.mem_filter.1 hc
    have hchild := (List.mem_filter.1 hnamed).1
    exact ⟨c, rfl, ((hs.child hchild).self.word (beq_iff_eq.1 hk)).2⟩

theorem dot_not_mem_segments (hs : n.All (Node.Shaped E source)) :
    ∀ w ∈ n.segments source, '.' ∉ w.toList := by
  intro w hw
  obtain ⟨c, rfl, hc⟩ := exists_of_mem_segments hs hw
  rw [Node.text, String.toList_ofList]
  exact hc.dot_not_mem

theorem segments_of_rootOf (hs : n.All (Node.Shaped E source)) {w : String} (hw : w ≠ "")
    (h : rootOf (String.intercalate "." (n.segments source)) = w) :
    ∃ rest, n.segments source = w :: rest := by
  have hwords := dot_not_mem_segments hs
  cases hsegments : n.segments source with
  | nil =>
    rw [hsegments, String.intercalate_nil, rootOf_of_not_mem (by simp)] at h
    exact absurd h.symm hw
  | cons v rest =>
    rw [hsegments] at h hwords
    have := segmentsOf_dotted (by simp) hwords
    rw [rootOf, ← dotted, this, List.headD_cons] at h
    exact ⟨rest, by rw [h]⟩

theorem occursIn_of_mem_segments (hs : n.All (Node.Shaped E source)) {w : String}
    (hw : w ∈ n.segments source) : Text.occursIn w.toList source = true := by
  obtain ⟨c, rfl, -⟩ := exists_of_mem_segments hs hw
  rw [Node.text, String.toList_ofList]
  exact Text.occursIn_of_isInfix (Text.between_isInfix _ _ _)

end Segments

def Kind.isMark : Kind → Bool
  | .mark _ => true
  | _ => false

def listEnclosure : Enclosure Rule where
  outer k := k == .importStatement || k == .comment || k == .lineContinuation || k.isMark
  inner k := k == .dottedName || k == .aliasedImport || k == .comment || k == .lineContinuation ||
    k.isMark
  rules := [.importList, .importItem, .dottedName]

theorem listEnclosure_lawful : listEnclosure.Lawful Rule.phrase where
  tops := by decide +kernel
  regular := by decide +kernel
  targets := by decide
  extras := by decide

section Statements

variable {source : List Char} {n : Node} {old new : QualifiedName}

theorem Node.segments_eq_nil (hs : n.All (Node.Shaped listEnclosure source))
    (hk : n.kind ≠ .identifier) (houter : listEnclosure.outer n.kind = true) :
    n.segments source = [] := by
  rw [Node.segments, if_neg (by simpa using hk), List.map_eq_nil_iff, List.filter_eq_nil_iff]
  intro c hc hword
  have hinner := hs.self.inner houter c (List.mem_filter.1 hc).1
  rw [beq_iff_eq.1 hword] at hinner
  cases hinner

theorem dottedEdit?_of_segments_nil (h : n.segments source = []) :
    dottedEdit? old new source n = none := by
  obtain ⟨s, rest, hs⟩ := List.exists_cons_of_ne_nil old.nonempty
  exact if_neg (by simp [QualifiedName.isPrefixOf, h, hs])

theorem filterMap_importItems (hs : n.All (Node.Shaped listEnclosure source))
    (hk : n.kind = .importStatement) : n.importItems.filterMap (dottedEdit? old new source) =
      n.importTargets.filterMap (dottedEdit? old new source) := by
  rw [Node.importItems, Node.importTargets, List.filterMap_filterMap, List.filterMap_filterMap]
  refine List.filterMap_congr fun item hitem => ?_
  have hchild := Node.mem_children_of_mem_parts hitem
  have hinner := hs.self.inner (by rw [hk]; rfl) item hchild
  split
  · next hka => simp [hka]
  · next hka =>
    by_cases hkd : item.kind = .dottedName
    · simp [hkd]
    · have hnil : item.segments source = [] := by
        refine Node.segments_eq_nil (hs.child hchild) (fun hki => ?_) ?_
        · rw [hki] at hinner
          cases hinner
        · simp only [listEnclosure, hkd, Bool.or_eq_true, beq_iff_eq, false_or] at hinner ⊢
          tauto
      simp [dottedEdit?_of_segments_nil hnil]

end Statements

section Listing

variable {source w : String} {root : Node} {old new : QualifiedName} {names N : List String}

theorem exists_target_of_mem {x : String} (h : importedNames? source = some names) (hx : x ∈ names) :
    ∃ root statement target, parse? source = some root ∧ statement ∈ root.preorder ∧
      target ∈ statement.moduleTargets ∧
      x = String.intercalate "." (target.segments source.toList) := by
  obtain ⟨root, hroot, rfl⟩ := Option.map_eq_some_iff.1 h
  obtain ⟨target, htarget, rfl⟩ := List.mem_map.1 hx
  obtain ⟨statement, hstatement, htarget⟩ := List.mem_flatMap.1 htarget
  exact ⟨root, statement, target, hroot, hstatement, htarget, rfl⟩

theorem mem_moduleTargets {n target : Node} (h : target ∈ n.moduleTargets) :
    n.kind = .importStatement ∧ target ∈ n.importItems ∨
      n.kind = .importFromStatement ∧ n.fromTarget? = some target := by
  unfold Node.moduleTargets at h
  split at h
  · next hk => exact .inl ⟨hk, h⟩
  · next hk => exact .inr ⟨hk, Option.mem_toList.1 h⟩
  · cases h

theorem within_of_mem_moduleTargets {n target : Node} (h : target ∈ n.moduleTargets) :
    target.Within n := by
  obtain ⟨hk, h⟩ | ⟨hk, h⟩ := mem_moduleTargets h
  · obtain ⟨item, hitem, h⟩ := List.mem_filterMap.1 h
    have hchild := Node.mem_children_of_mem_parts hitem
    split at h
    · exact .child hchild (.child (Node.mem_children_of_part? h) .self)
    · cases h
      exact .child hchild .self
  · exact (namesModule_of_fromTarget? hk h).within

theorem importEdits_ne_nil {n target : Node} {cs : List Char}
    (hs : n.All (Node.Shaped listEnclosure cs)) (h : target ∈ n.moduleTargets)
    (hold : old.isPrefixOf (target.segments cs) = true) : importEdits old new cs n ≠ [] := by
  obtain ⟨e, he⟩ : ∃ e, dottedEdit? old new cs target = some e := ⟨_, if_pos hold⟩
  unfold importEdits
  obtain ⟨hk, h⟩ | ⟨hk, h⟩ := mem_moduleTargets h
  · rw [hk]
    change n.importTargets.filterMap _ ≠ []
    rw [← filterMap_importItems hs hk]
    exact List.ne_nil_of_mem (List.mem_filterMap.2 ⟨target, h, he⟩)
  · rw [hk, h]
    simp [he]

theorem renameModule_none (hroot : parse? source = some root)
    (hoccurs : Text.occursIn old.first.toList source.toList = true)
    (h : renameModule source old new = .ok none) :
    ∀ n ∈ root.preorder, importEdits old new source.toList n = [] := by
  rw [renameModule_eq_renameTree hroot hoccurs] at h
  obtain ⟨edits, hedits, ⟨rfl, -⟩ | ⟨-, text, n, -, hsome⟩⟩ := exists_renameEdits h
  · obtain ⟨-, uses, -, hnil⟩ := exists_useEdits hedits
    exact List.flatMap_eq_nil_iff.1 (List.append_eq_nil_iff.1 hnil.symm).1
  · cases hsome

theorem rootOf_ne_of_renameModule_none (hold : old.segments = [w])
    (h : renameModule source old new = .ok none) (hnames : importedNames? source = some names) :
    ∀ x ∈ names, rootOf x ≠ w := by
  intro x hx hroot
  obtain ⟨root, statement, target, hparse, hstatement, htarget, rfl⟩ := exists_target_of_mem hnames hx
  have hw : w ≠ "" := (isName_of_isSegment (old.valid w (by simp [hold]))).nonempty
  have hshaped : target.All (Node.Shaped classEnclosure source.toList) := fun c hc =>
    parse?_shaped classEnclosure_lawful hparse c
      (hc.trans ((within_of_mem_moduleTargets htarget).trans (Node.within_of_mem_preorder hstatement)))
  obtain ⟨rest, hsegments⟩ := segments_of_rootOf hshaped hw hroot
  have hfirst : old.first = w := by simp [QualifiedName.first, hold]
  have hoccurs := occursIn_of_mem_segments hshaped (w := w) (by simp [hsegments])
  refine importEdits_ne_nil (fun c hc => parse?_shaped listEnclosure_lawful hparse c
    (hc.trans (Node.within_of_mem_preorder hstatement))) htarget ?_
    (renameModule_none hparse (hfirst ▸ hoccurs) h statement hstatement)
  rw [QualifiedName.isPrefixOf, hold, hsegments]
  simp

def Spares (N : List String) (source : String) : Prop :=
  ∀ names, importedNames? source = some names → ∀ x ∈ names, rootOf x ∉ N

theorem Spares.mono {M : List String} (h : Spares N source) (hM : M ⊆ N) : Spares M source :=
  fun names hnames x hx hmem => h names hnames x hx (hM hmem)

def ListsRenamed (old new : QualifiedName) (source : String) : Prop :=
  ∀ r names, renameModule source old new = .ok (some r) → importedNames? r.content = some names →
    ∃ names₀, importedNames? source = some names₀ ∧
      names = names₀.map (carry (some (old.text, new.text)))

theorem Spares.of_renameModule_none (h : Spares N source) (hold : old.segments = [w])
    (hr : renameModule source old new = .ok none) : Spares (w :: N) source := by
  intro names hnames x hx hmem
  obtain hw | hN := List.mem_cons.1 hmem
  · exact rootOf_ne_of_renameModule_none hold hr hnames x hx hw
  · exact h names hnames x hx hN

theorem Spares.of_renameModule_some {r : Renamed} (h : Spares N source) (hold : old.segments = [w])
    (hnew : new.first ∉ w :: N) (hlists : ListsRenamed old new source)
    (hr : renameModule source old new = .ok (some r)) : Spares (w :: N) r.content := by
  intro names hnames x hx
  obtain ⟨names₀, hnames₀, rfl⟩ := hlists r names hr hnames
  obtain ⟨y, hy, rfl⟩ := List.mem_map.1 hx
  have htext : old.text = w := by
    rw [QualifiedName.text, hold, dotted, String.intercalate_singleton]
  rw [htext, rootOf_carry (old.not_mem_segment w (by simp [hold])), new.rootOf_text]
  split
  · exact hnew
  · next hroot => exact List.mem_cons.not.2 (not_or.2 ⟨hroot, h names₀ hnames₀ y hy⟩)

end Listing

end Reroot.Python

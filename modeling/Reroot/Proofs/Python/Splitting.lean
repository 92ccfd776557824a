import Reroot.Proofs.Python.Listing
import Reroot.Proofs.Python.Spelling

namespace Reroot.Python

def wordSoFar (w : List Char) : List String :=
  if w = [] then [] else [String.ofList w]

def tokensFrom (w : List Char) : List Char → List String
  | [] => wordSoFar w
  | c :: cs =>
    if Text.isIdentifierContinue c then tokensFrom (w ++ [c]) cs
    else wordSoFar w ++ (if isFiller c then [] else [String.ofList [c]]) ++ tokensFrom [] cs

def tokens (cs : List Char) : List String :=
  tokensFrom [] cs

theorem isIdentifierContinue_of_isFiller {c : Char} (h : isFiller c = true) :
    Text.isIdentifierContinue c = false :=
  isIdentifierContinue_of_isBlank (Bool.and_eq_true_iff.1 h).1

theorem tokensFrom_append {w a b : List Char} (h : Ended b) :
    tokensFrom w (a ++ b) = tokensFrom w a ++ tokens b := by
  induction a generalizing w with
  | nil =>
    cases b with
    | nil => simp [tokens, tokensFrom, wordSoFar]
    | cons c cs => simp [tokens, tokensFrom, wordSoFar, h c rfl]
  | cons c cs ih =>
    simp only [List.cons_append, tokensFrom]
    split
    · exact ih
    · rw [ih, ← List.append_assoc]

theorem tokens_append {a b : List Char} (h : Ended b) : tokens (a ++ b) = tokens a ++ tokens b :=
  tokensFrom_append h

theorem tokensFrom_word {v w : List Char} (h : ∀ c ∈ w, Text.isIdentifierContinue c = true) :
    tokensFrom v w = wordSoFar (v ++ w) := by
  induction w generalizing v with
  | nil => rw [tokensFrom, List.append_nil]
  | cons c cs ih =>
    obtain ⟨hc, hcs⟩ := List.forall_mem_cons.1 h
    rw [tokensFrom, if_pos hc, ih hcs, List.append_assoc, List.singleton_append]

theorem tokens_word {w : List Char} (h : IsWord w) : tokens w = [String.ofList w] := by
  rw [tokens, tokensFrom_word h.2, List.nil_append, wordSoFar, if_neg h.1]

theorem tokens_cons {c : Char} (hc : Text.isIdentifierContinue c = false) (cs : List Char) :
    tokens (c :: cs) = (if isFiller c then [] else [String.ofList [c]]) ++ tokens cs := by
  rw [tokens, tokensFrom, hc]
  rfl

theorem tokens_gap {g : List Char} (hg : g.all isFiller = true) (cs : List Char) :
    tokens (g ++ cs) = tokens cs := by
  induction g with
  | nil => rfl
  | cons c g ih =>
    obtain ⟨hc, hg⟩ := Bool.and_eq_true_iff.1 (List.all_cons.symm.trans hg)
    rw [List.cons_append, tokens_cons (isIdentifierContinue_of_isFiller hc), hc, ih hg]
    rfl

theorem ended_gap {g : List Char} (hg : g.all isFiller = true) (hne : g ≠ []) (cs : List Char) :
    Ended (g ++ cs) := by
  obtain ⟨c, g, rfl⟩ := List.exists_cons_of_ne_nil hne
  rw [List.all_cons, Bool.and_eq_true] at hg
  exact ended_cons (isIdentifierContinue_of_isFiller hg.1) _

theorem tokens_append_gap {g : List Char} (hg : g.all isFiller = true) (hne : g ≠ []) (a cs : List Char) :
    tokens (a ++ (g ++ cs)) = tokens a ++ tokens cs := by
  rw [tokens_append (ended_gap hg hne cs), tokens_gap hg]

theorem tokens_append_gap_mark {g : List Char} {c : Char} (hg : g.all isFiller = true)
    (hc : Text.isIdentifierContinue c = false) (a cs : List Char) :
    tokens (a ++ (g ++ c :: cs)) = tokens a ++ tokens (c :: cs) := by
  rw [tokens_append ?_, tokens_gap hg]
  cases g with
  | nil => exact ended_cons hc cs
  | cons d g => exact ended_gap hg (List.cons_ne_nil d g) _

theorem intersperse_concat {ws : List String} (hne : ws ≠ []) (s w : String) :
    (ws ++ [w]).intersperse s = ws.intersperse s ++ [s, w] := by
  induction ws with
  | nil => exact absurd rfl hne
  | cons v ws ih =>
    cases ws with
    | nil => rfl
    | cons u ws =>
      have := ih (List.cons_ne_nil u ws)
      simp only [List.cons_append, List.intersperse_cons_cons] at this ⊢
      rw [this]

theorem eq_or_mem_of_mem_intersperse {ws : List String} {s t : String} (h : t ∈ ws.intersperse s) :
    t = s ∨ t ∈ ws := by
  induction ws with
  | nil => exact .inr h
  | cons v ws ih =>
    cases ws with
    | nil => exact .inr h
    | cons u ws =>
      rw [List.intersperse_cons_cons, List.mem_cons, List.mem_cons] at h
      obtain rfl | rfl | h := h
      · exact .inr (by simp)
      · exact .inl rfl
      · exact (ih h).imp_right (List.mem_cons_of_mem v)

inductive Origin where
  | whole (name : String)
  | member (parent name : String)
  deriving DecidableEq

def Origin.path : Origin → String
  | .whole name => name
  | .member parent name => parent ++ "." ++ name

def dottedFront : List String → Option (List String × List String)
  | [] => none
  | [w] => if isIdentifier w.toList then some ([w], []) else none
  | w :: t :: rest =>
    if isIdentifier w.toList then
      if t = "." then (dottedFront rest).map fun p => (w :: p.1, p.2) else some ([w], t :: rest)
    else none

def readItem (ts : List String) : Option (List String × Option String) :=
  match dottedFront ts with
  | some (ws, []) => some (ws, none)
  | some (ws, ["as", w]) => if isIdentifier w.toList then some (ws, some w) else none
  | _ => none

def readItems (ts : List String) : Option (List (List String × Option String)) :=
  (ts.splitOn ",").mapM readItem

def ofModule : List String × Option String → String × Origin
  | (ws, some w) => (w, .whole (dotted ws))
  | (ws, none) => (ws.headD "", .whole (ws.headD ""))

def ofMember (parent : String) : List String × Option String → String × Origin
  | (ws, alias?) => (alias?.getD (dotted ws), .member parent (dotted ws))

def readImport (line : String) : Option (List (String × Origin)) :=
  match tokens line.toList with
  | "import" :: rest => (readItems rest).map (·.map ofModule)
  | "from" :: rest =>
    match dottedFront rest with
    | some (ws, "import" :: rest) => (readItems rest).map (·.map (ofMember (dotted ws)))
    | _ => none
  | _ => none

example : readImport "from a.b import c, d as e" =
    some [("c", .member "a.b" "c"), ("e", .member "a.b" "d")] := by decide +kernel

structure IsListed (item : List String × Option String) : Prop where
  nonempty : item.1 ≠ []
  names : ∀ w ∈ item.1, isIdentifier w.toList = true
  alias? : ∀ w ∈ item.2, isIdentifier w.toList = true

def itemTokens : List String × Option String → List String
  | (ws, none) => ws.intersperse "."
  | (ws, some w) => ws.intersperse "." ++ ["as", w]

theorem dottedFront_intersperse {ws : List String} (hne : ws ≠ [])
    (h : ∀ w ∈ ws, isIdentifier w.toList = true) (rest : List String) (hrest : rest.head? ≠ some ".") :
    dottedFront (ws.intersperse "." ++ rest) = some (ws, rest) := by
  induction ws with
  | nil => exact absurd rfl hne
  | cons w ws ih =>
    obtain ⟨hw, hws⟩ := List.forall_mem_cons.1 h
    cases ws with
    | nil =>
      cases rest with
      | nil => simp [dottedFront, hw]
      | cons t rest =>
        have ht : t ≠ "." := by simpa using hrest
        simp [dottedFront, hw, ht]
    | cons v ws =>
      have := ih (List.cons_ne_nil v ws) hws
      rw [List.intersperse_cons_cons, List.cons_append, List.cons_append, dottedFront, if_pos hw,
        if_pos rfl, this]
      rfl

theorem readItem_itemTokens {item : List String × Option String} (h : IsListed item) :
    readItem (itemTokens item) = some item := by
  obtain ⟨ws, _ | w⟩ := item
  · have := dottedFront_intersperse h.nonempty h.names [] (by simp)
    rw [List.append_nil] at this
    rw [readItem, itemTokens, this]
  · have := dottedFront_intersperse h.nonempty h.names ["as", w] (by simp)
    rw [readItem, itemTokens, this]
    exact if_pos (h.alias? w rfl)

theorem mapM_map_eq_some {α β γ : Type} {f : α → β} {g : β → Option γ} {r : α → γ} {l : List α}
    (h : ∀ a ∈ l, g (f a) = some (r a)) : (l.map f).mapM g = some (l.map r) := by
  induction l with
  | nil => rfl
  | cons a l ih =>
    obtain ⟨ha, hl⟩ := List.forall_mem_cons.1 h
    rw [List.map_cons, List.mapM_cons, ha, ih hl]
    rfl

theorem comma_not_mem_itemTokens {item : List String × Option String} (h : IsListed item) :
    "," ∉ itemTokens item := by
  have hcomma : isIdentifier ",".toList ≠ true := by decide
  have hname : "," ∉ item.1.intersperse "." := fun hmem =>
    (eq_or_mem_of_mem_intersperse hmem).elim (by decide) fun hmem => hcomma (h.names _ hmem)
  obtain ⟨ws, _ | w⟩ := item
  · exact hname
  · simp only [itemTokens, List.mem_append, List.mem_cons, List.not_mem_nil, or_false, not_or]
    refine ⟨hname, by decide, ?_⟩
    rintro rfl
    exact hcomma (h.alias? _ rfl)

theorem readItems_intercalate {items : List (List String × Option String)} (hne : items ≠ [])
    (h : ∀ item ∈ items, IsListed item) :
    readItems ([","].intercalate (items.map itemTokens)) = some items := by
  have hread := mapM_map_eq_some (f := itemTokens) (g := readItem) (r := id)
    fun item hitem => readItem_itemTokens (h item hitem)
  rw [readItems, List.splitOn_intercalate _ ?_ (by simpa using hne), hread, List.map_id]
  intro ts hts
  obtain ⟨item, hitem, rfl⟩ := List.mem_map.1 hts
  exact comma_not_mem_itemTokens (h item hitem)

theorem tokens_dotted {ws : List String} (h : ∀ w ∈ ws, isIdentifier w.toList = true) :
    tokens (dotted ws).toList = ws.intersperse "." := by
  induction ws with
  | nil => rfl
  | cons w ws ih =>
    obtain ⟨hw, hws⟩ := List.forall_mem_cons.1 h
    have hword := tokens_word (isWord_of_isIdentifier hw)
    rw [String.ofList_toList] at hword
    cases ws with
    | nil => rw [dotted, String.intercalate_singleton, hword, List.intersperse_singleton]
    | cons v ws =>
      have htext : (dotted (w :: v :: ws)).toList = w.toList ++ '.' :: (dotted (v :: ws)).toList := by
        rw [dotted, String.intercalate_cons_cons, String.toList_append, String.toList_append,
          List.append_assoc]
        rfl
      rw [htext, tokens_append (ended_cons (by decide) _), hword, tokens_cons (by decide), ih hws]
      rfl

theorem tokens_of_writesDotted {cs : List Char} {ws : List String} (h : WritesDotted cs ws)
    (hhash : '#' ∉ cs) (hline : '\n' ∉ cs) : tokens cs = ws.intersperse "." := by
  induction h with
  | word hw => exact tokens_word (isWord_of_isIdentifier hw)
  | @dot cs g h w ws front hg hh hw ih =>
    simp only [List.mem_append, List.mem_cons, not_or] at hhash hline
    obtain ⟨⟨hcs, hgs⟩, -, hhs, -⟩ := hhash
    obtain ⟨⟨hcs', hgs'⟩, -, hhs', -⟩ := hline
    rw [List.append_assoc, tokens_append_gap_mark (hg hgs hgs') (by decide), ih hcs hcs',
      tokens_cons (by decide), tokens_gap (hh hhs hhs'), tokens_word (isWord_of_isIdentifier hw),
      intersperse_concat front.nonempty]
    rfl

theorem tokens_intercalate (lines : List String) : tokens (String.intercalate ", " lines).toList =
    [","].intercalate (lines.map fun line => tokens line.toList) := by
  induction lines with
  | nil => rfl
  | cons line lines ih =>
    cases lines with
    | nil => rw [String.intercalate_singleton, List.map_singleton, List.intercalate_singleton]
    | cons line' lines =>
      have htext : (String.intercalate ", " (line :: line' :: lines)).toList =
          line.toList ++ ',' :: ([' '] ++ (String.intercalate ", " (line' :: lines)).toList) := by
        rw [String.intercalate_cons_cons, String.toList_append, String.toList_append, List.append_assoc]
        rfl
      rw [htext, tokens_append (ended_cons (by decide) _), tokens_cons (by decide), tokens_gap rfl, ih]
      simp [List.intercalate_cons_cons, isFiller, Cursor.isBlank]

section Lines

variable {ps : List String} {items : List (List String × Option String)} {x : String}

theorem readImport_import (hne : items ≠ []) (h : ∀ item ∈ items, IsListed item)
    (hx : tokens x.toList = [","].intercalate (items.map itemTokens)) :
    readImport ("import " ++ x) = some (items.map ofModule) := by
  have htokens : tokens ("import " ++ x).toList = "import" :: tokens x.toList := by
    rw [String.toList_append]
    exact tokens_append_gap (g := [' ']) rfl (by simp) "import".toList x.toList
  rw [readImport, htokens, hx]
  simp only [readItems_intercalate hne h]
  rfl

theorem readImport_from (hps : ps ≠ []) (hnames : ∀ w ∈ ps, isIdentifier w.toList = true)
    (hne : items ≠ []) (h : ∀ item ∈ items, IsListed item)
    (hx : tokens x.toList = [","].intercalate (items.map itemTokens)) :
    readImport ("from " ++ dotted ps ++ " import " ++ x) = some (items.map (ofMember (dotted ps))) := by
  have htokens : tokens ("from " ++ dotted ps ++ " import " ++ x).toList =
      "from" :: (ps.intersperse "." ++ "import" :: tokens x.toList) := by
    have hparts : ("from " ++ dotted ps ++ " import " ++ x).toList = "from".toList ++
        ([' '] ++ ((dotted ps).toList ++ ([' '] ++ ("import".toList ++ ([' '] ++ x.toList))))) := by
      simp
    rw [hparts, tokens_append_gap rfl (by simp), tokens_append_gap rfl (by simp),
      tokens_append_gap rfl (by simp), tokens_dotted hnames]
    rfl
  have hfront := dottedFront_intersperse hps hnames ("import" :: tokens x.toList) (by simp)
  have hitems := readItems_intercalate hne h
  rw [← hx] at hitems
  rw [readImport, htokens]
  simp only [hfront, hitems]
  rfl

end Lines

theorem parent?_cases (q : QualifiedName) : (q.parent? = none ∧ q.segments = [q.last]) ∨
    ∃ ps, ps ≠ [] ∧ q.parent? = some (dotted ps) ∧ q.segments = ps ++ [q.last] := by
  have hsegments : q.segments.dropLast ++ [q.last] = q.segments := List.dropLast_append_getLast q.nonempty
  have hlength := congrArg List.length hsegments
  rw [List.length_append, List.length_singleton] at hlength
  rw [QualifiedName.parent?, QualifiedName.length]
  cases hps : q.segments.dropLast with
  | nil =>
    rw [hps, List.nil_append] at hsegments
    rw [hps, List.length_nil] at hlength
    exact .inl ⟨if_pos (by omega), hsegments.symm⟩
  | cons p ps =>
    rw [hps] at hsegments
    rw [hps, List.length_cons] at hlength
    exact .inr ⟨p :: ps, List.cons_ne_nil p ps, if_neg (by omega), hsegments.symm⟩

def originOf (new : QualifiedName) : Origin :=
  match new.parent? with
  | some parent => .member parent new.last
  | none => .whole new.last

theorem path_originOf (new : QualifiedName) : (originOf new).path = new.text := by
  obtain ⟨hparent, hsegments⟩ | ⟨ps, hps, hparent, hsegments⟩ := parent?_cases new
  · rw [originOf, hparent, QualifiedName.text, hsegments, dotted, String.intercalate_singleton]
    rfl
  · rw [originOf, hparent, QualifiedName.text, hsegments, dotted_append hps (List.cons_ne_nil _ _)]
    rfl

theorem isIdentifier_of_isSegment {s : String} (h : isSegment s = true) : isIdentifier s.toList = true := by
  have hword := (Bool.and_eq_true_iff.1 h).1
  unfold isWord at hword
  split at hword
  · cases hword
  · next c cs hs =>
    simp only [Bool.and_eq_true, List.all_eq_true, Bool.or_eq_true, beq_iff_eq] at hword
    rw [hs, isIdentifier, Bool.and_eq_true, List.all_eq_true]
    refine ⟨by simpa [Text.isIdentifierStart] using .inl hword.1, fun d hd => ?_⟩
    obtain (h | h) | h := hword.2 d hd <;> simp [Text.isIdentifierContinue, Text.isIdentifierStart, h]

def lineItem (new : QualifiedName) (bound : String) : List String × Option String :=
  ([new.last], if new.last = bound then none else some bound)

theorem tokens_lineItem {new : QualifiedName} {bound : String} (hlast : isIdentifier new.last.toList = true)
    (hbound : isIdentifier bound.toList = true) :
    tokens (new.last ++ if new.last = bound then "" else " as " ++ bound).toList =
      itemTokens (lineItem new bound) := by
  have hword {w : String} (hw : isIdentifier w.toList = true) : tokens w.toList = [w] := by
    rw [tokens_word (isWord_of_isIdentifier hw), String.ofList_toList]
  rw [lineItem]
  split
  · rw [String.append_empty, hword hlast]
    rfl
  · have hparts : (new.last ++ (" as " ++ bound)).toList =
        new.last.toList ++ ([' '] ++ ("as".toList ++ ([' '] ++ bound.toList))) := by
      simp
    rw [hparts, tokens_append_gap rfl (by simp), tokens_append_gap rfl (by simp), hword hlast, hword hbound]
    rfl

theorem readImport_importLine (new : QualifiedName) {bound : String}
    (hbound : isIdentifier bound.toList = true) :
    readImport (importLine new bound) = some [(bound, originOf new)] := by
  have hnames : ∀ w ∈ new.segments, isIdentifier w.toList = true :=
    fun w hw => isIdentifier_of_isSegment (new.valid w hw)
  have hlast := hnames new.last (List.getLast_mem new.nonempty)
  have htokens := tokens_lineItem hlast hbound
  have hlisted : IsListed (lineItem new bound) := by
    refine ⟨by simp [lineItem], by simpa [lineItem] using hlast, fun w hw => ?_⟩
    rw [lineItem, Option.mem_def, Option.ite_none_left_eq_some, Option.some.injEq] at hw
    exact hw.2 ▸ hbound
  have htokens' : tokens (new.last ++ if new.last = bound then "" else " as " ++ bound).toList =
      [","].intercalate ([lineItem new bound].map itemTokens) := by
    rw [htokens, List.map_singleton, List.intercalate_singleton]
  have hlisted' : ∀ item ∈ [lineItem new bound], IsListed item := by simpa using hlisted
  obtain ⟨hparent, -⟩ | ⟨ps, hps, hparent, hsegments⟩ := parent?_cases new
  · have hline := readImport_import (List.cons_ne_nil _ []) hlisted' htokens'
    rw [← String.append_assoc] at hline
    rw [importLine, hparent, originOf, hparent]
    refine hline.trans ?_
    rw [List.map_singleton, lineItem]
    split <;> simp_all [ofModule, dotted]
  · have hps' : ∀ w ∈ ps, isIdentifier w.toList = true := fun w hw => hnames w (by simp [hsegments, hw])
    have hline := readImport_from hps hps' (List.cons_ne_nil _ []) hlisted' htokens'
    rw [← String.append_assoc] at hline
    rw [importLine, hparent, originOf, hparent]
    refine hline.trans ?_
    rw [List.map_singleton, lineItem]
    split <;> simp_all [ofMember, dotted]

def Node.asItem (item : Node) (source : List Char) : List String × Option String :=
  match item.kind with
  | .aliasedImport =>
    (((item.part? .name).map (·.segments source)).getD [], (item.part? .asName).map (·.text source))
  | _ => (item.segments source, none)

def Node.importedName (item : Node) (source : List Char) : String :=
  dotted (item.asItem source).1

def Node.localName (item : Node) (source : List Char) : String :=
  (item.asItem source).2.getD (item.importedName source)

def Node.IsInline (item : Node) (source : List Char) : Prop :=
  '#' ∉ item.chars source ∧ '\n' ∉ item.chars source

theorem WritesDotted.eq_iff {cs : List Char} {ws : List String} (h : WritesDotted cs ws) {w : String}
    (hw : '.' ∉ w.toList) : String.ofList cs = w ↔ dotted ws = w := by
  cases h with
  | word => rw [dotted, String.intercalate_singleton]
  | dot front _ _ _ =>
    constructor
    · rintro rfl
      simp at hw
    · rintro rfl
      rw [dotted_append front.nonempty (List.cons_ne_nil _ _)] at hw
      simp at hw

section Items

variable {source : List Char} {item : Node}

theorem Node.All.item_cases (h : item.All (Written source))
    (hk : item.kind = .dottedName ∨ item.kind = .aliasedImport) :
    (item.importedAs source = (some (item.text source), none) ∧
      item.asItem source = (item.segments source, none) ∧
      WritesDotted (item.chars source) (item.segments source)) ∨
    ∃ name word : Node, item.importedAs source = (some (name.text source), some (word.text source)) ∧
      item.asItem source = (name.segments source, some (word.text source)) ∧
      WritesDotted (name.chars source) (name.segments source) ∧
      WritesAlias (item.chars source) (name.chars source) (word.chars source) := by
  obtain hk | hk := hk
  · refine .inl ⟨?_, ?_, h.self.dotted hk⟩
    · rw [importedAs, hk]
    · rw [asItem, hk]
  · obtain ⟨name, word, hname, hword, hkind, hwrites⟩ := h.self.aliased hk
    refine .inr ⟨name, word, ?_, ?_, (h.child (mem_children_of_part? hname)).self.dotted hkind, hwrites⟩
    · rw [importedAs, hk]
      simp only [hname, hword, Option.map_some]
    · rw [asItem, hk]
      simp only [hname, hword, Option.map_some, Option.getD_some]

theorem Node.All.isListed_asItem (h : item.All (Written source))
    (hk : item.kind = .dottedName ∨ item.kind = .aliasedImport) : IsListed (item.asItem source) := by
  obtain ⟨-, hitem, hname⟩ | ⟨name, word, -, hitem, hname, hwrites⟩ := h.item_cases hk
  · rw [hitem]
    exact ⟨hname.nonempty, hname.names, by simp⟩
  · obtain ⟨_, _, -, -, -, -, -, hword⟩ := hwrites
    rw [hitem]
    refine ⟨hname.nonempty, hname.names, fun w hw => ?_⟩
    obtain rfl := Option.some.inj hw
    rwa [text, String.toList_ofList]

theorem Node.All.tokens_item (h : item.All (Written source))
    (hk : item.kind = .dottedName ∨ item.kind = .aliasedImport) (hinline : item.IsInline source) :
    tokens (item.text source).toList = itemTokens (item.asItem source) := by
  obtain ⟨hhash, hline⟩ := hinline
  rw [text, String.toList_ofList]
  change tokens (item.chars source) = _
  obtain ⟨-, hitem, hname⟩ | ⟨name, word, -, hitem, hname, hwrites⟩ := h.item_cases hk
  · rw [hitem, tokens_of_writesDotted hname hhash hline, itemTokens]
  · obtain ⟨g₁, g₂, hchars, hne₁, hne₂, hgap₁, hgap₂, hword⟩ := hwrites
    rw [hchars] at hhash hline
    simp only [List.mem_append, List.mem_cons, not_or] at hhash hline
    obtain ⟨⟨hhash₀, hhash₁⟩, -, -, hhash₂, -⟩ := hhash
    obtain ⟨⟨hline₀, hline₁⟩, -, -, hline₂, -⟩ := hline
    have hparts : name.chars source ++ g₁ ++ 'a' :: 's' :: (g₂ ++ word.chars source) =
        name.chars source ++ (g₁ ++ ("as".toList ++ (g₂ ++ word.chars source))) := by
      simp
    rw [hitem, hchars, hparts, tokens_append_gap (hgap₁ hhash₁ hline₁) hne₁,
      tokens_append_gap (hgap₂ hhash₂ hline₂) hne₂, tokens_of_writesDotted hname hhash₀ hline₀,
      tokens_word (isWord_of_isIdentifier hword), itemTokens]
    rfl

theorem Node.All.importedAs_eq_iff (h : item.All (Written source))
    (hk : item.kind = .dottedName ∨ item.kind = .aliasedImport) {w : String} (hw : '.' ∉ w.toList) :
    (item.importedAs source).1 = some w ↔ item.importedName source = w := by
  obtain ⟨himported, hitem, hname⟩ | ⟨name, word, himported, hitem, hname, -⟩ := h.item_cases hk
  · rw [himported, importedName, hitem, Option.some.injEq]
    exact hname.eq_iff hw
  · rw [himported, importedName, hitem, Option.some.injEq]
    exact hname.eq_iff hw

theorem Node.All.importedAs_snd (h : item.All (Written source))
    (hk : item.kind = .dottedName ∨ item.kind = .aliasedImport) :
    (item.importedAs source).2 = (item.asItem source).2 := by
  obtain ⟨himported, hitem, -⟩ | ⟨name, word, himported, hitem, -⟩ := h.item_cases hk <;>
    rw [himported, hitem]

end Items

structure Node.IsCopied (source : List Char) (item : Node) : Prop where
  written : item.All (Written source)
  kind : item.kind = .dottedName ∨ item.kind = .aliasedImport
  inline : item.IsInline source

theorem statementSeparator_eq {source front line : List Char} {start : Nat}
    (h : Text.takeBytes start source = front ++ line) (hline : '\n' ∉ line)
    (hfront : front = [] ∨ front.getLast? = some '\n') : statementSeparator source start =
      if line.all Text.isSpace then "\n" ++ String.ofList line else "; " := by
  have hlast : ((front ++ line).reverse.takeWhile (· != '\n')).reverse = line := by
    rw [List.reverse_append, List.takeWhile_append_of_pos (by
      intro c hc
      rw [bne_iff_ne]
      rintro rfl
      exact hline (List.mem_reverse.1 hc))]
    obtain rfl | hfront := hfront
    · simp
    · rw [← List.head?_reverse] at hfront
      obtain ⟨cs, hcs⟩ := List.head?_eq_some_iff.1 hfront
      simp [hcs]
  rw [statementSeparator, h, hlast]

example : statementSeparator "x = 1; \\\n  from a import b, c\n".toList 11 = "\n  " := by decide +kernel

section Split

variable {source : List Char} {parent : String} {ps : List String} {items : List Node} {old new : QualifiedName}

def Node.rebound (old : QualifiedName) (origin : Origin) (parent : String) (source : List Char)
    (item : Node) : String × Origin :=
  (item.localName source,
    if item.importedName source = old.last then origin else .member parent (item.importedName source))

theorem readImport_kept (new : QualifiedName) (hps : ps ≠ [])
    (hnames : ∀ w ∈ ps, isIdentifier w.toList = true) (h : ∀ item ∈ items, item.IsCopied source)
    (hne : items ≠ []) (hkept : ∀ item ∈ items, item.importedName source ≠ old.last) :
    readImport ("from " ++ dotted ps ++ " import " ++ String.intercalate ", " (items.map (·.text source))) =
      some (items.map (Node.rebound old (originOf new) (dotted ps) source)) := by
  have htokens : tokens (String.intercalate ", " (items.map (·.text source))).toList =
      [","].intercalate ((items.map (·.asItem source)).map itemTokens) := by
    rw [tokens_intercalate, List.map_map, List.map_map]
    congr 1
    exact List.map_congr_left fun item hitem =>
      (h item hitem).written.tokens_item (h item hitem).kind (h item hitem).inline
  have hlisted : ∀ item ∈ items.map (·.asItem source), IsListed item := by
    intro item hitem
    obtain ⟨item, hmem, rfl⟩ := List.mem_map.1 hitem
    exact (h item hmem).written.isListed_asItem (h item hmem).kind
  rw [readImport_from hps hnames (by simpa using hne) hlisted htokens, List.map_map]
  refine congrArg some (List.map_congr_left fun item hitem => ?_)
  rw [Node.rebound, if_neg (hkept item hitem)]
  rfl

theorem exists_mapM_kept (new : QualifiedName) (hps : ps ≠ [])
    (hnames : ∀ w ∈ ps, isIdentifier w.toList = true) (h : ∀ item ∈ items, item.IsCopied source)
    (hkept : ∀ item ∈ items, item.importedName source ≠ old.last) :
    ∃ bound, (if (items.map (·.text source)).isEmpty then [] else
        ["from " ++ dotted ps ++ " import " ++ String.intercalate ", " (items.map (·.text source))]).mapM
          readImport = some bound ∧
      bound.flatten = items.map (Node.rebound old (originOf new) (dotted ps) source) := by
  cases items with
  | nil => exact ⟨[], rfl, rfl⟩
  | cons item items =>
    have hread := readImport_kept new hps hnames h (List.cons_ne_nil item items) hkept
    refine ⟨[_], ?_, List.flatten_singleton⟩
    rw [if_neg (by simp), List.mapM_cons, hread]
    rfl

theorem readImport_moved {item : Node} (h : item.IsCopied source)
    (hmoved : item.importedName source = old.last) (parent : String) :
    readImport (importLine new ((item.importedAs source).2.getD old.last)) =
      some [item.rebound old (originOf new) parent source] := by
  rw [h.written.importedAs_snd h.kind, Node.rebound, if_pos hmoved, Node.localName, hmoved]
  refine readImport_importLine new ?_
  cases halias : (item.asItem source).2 with
  | none => exact isIdentifier_of_isSegment (old.valid _ (List.getLast_mem old.nonempty))
  | some w => exact (h.written.isListed_asItem h.kind).alias? w halias

theorem dottedEdit?_of_parent {ρ : Type} {E : Enclosure ρ} {target : Node}
    (hs : target.All (Node.Shaped E source))
    (hparent : old.parent? = some (target.dottedText source)) :
    dottedEdit? old new source target = none := by
  refine if_neg fun hbegins => ?_
  obtain ⟨hnone, -⟩ | ⟨ps, hps, hsome, hsegments⟩ := parent?_cases old
  · rw [hnone] at hparent
    cases hparent
  · have hle := (List.isPrefixOf_iff_prefix.1 hbegins).length_le
    have hne : target.segments source ≠ [] := by
      rintro hnil
      rw [hsegments, hnil] at hle
      simp at hle
    have hdots' : ∀ w ∈ ps, '.' ∉ w.toList := fun w hw => old.not_mem_segment w (by simp [hsegments, hw])
    have heq : ps = target.segments source := by
      rw [← segmentsOf_dotted hps hdots', ← segmentsOf_dotted hne (dot_not_mem_segments hs)]
      exact congrArg segmentsOf (Option.some.inj (hsome.symm.trans hparent))
    rw [hsegments, heq, List.length_append, List.length_singleton] at hle
    omega

theorem exists_splitEdit? (new : QualifiedName) {n : Node} (hps : ps ≠ [])
    (hnames : ∀ w ∈ ps, isIdentifier w.toList = true) (h : ∀ item ∈ n.parts .name, item.IsCopied source)
    (hmoved : ∃ item ∈ n.parts .name, item.importedName source = old.last) :
    ∃ statements bound, splitEdit? old new source (dotted ps) n =
        some ⟨n.span, String.intercalate (statementSeparator source n.start) statements⟩ ∧
      statements.mapM readImport = some bound ∧
      bound.flatten.Perm ((n.parts .name).map (Node.rebound old (originOf new) (dotted ps) source)) := by
  unfold splitEdit?
  extract_lets items isMoved kept moved head
  have hdot : '.' ∉ old.last.toList := old.not_mem_segment _ (List.getLast_mem old.nonempty)
  have hiff {item : Node} (hitem : item ∈ items) : isMoved item = true ↔ item.importedName source = old.last :=
    beq_iff_eq.trans ((h item hitem).written.importedAs_eq_iff (h item hitem).kind hdot)
  have hmovedReads : moved.mapM readImport = some ((items.filter isMoved).map fun item =>
      [item.rebound old (originOf new) (dotted ps) source]) := by
    refine mapM_map_eq_some fun item hitem => ?_
    obtain ⟨hmem, hname⟩ := List.mem_filter.1 hitem
    exact readImport_moved (h item hmem) ((hiff hmem).1 hname) _
  obtain ⟨bound, hhead, hbound⟩ : ∃ bound, head.mapM readImport = some bound ∧ bound.flatten =
      (items.filter fun item => !isMoved item).map (Node.rebound old (originOf new) (dotted ps) source) := by
    refine exists_mapM_kept new hps hnames (fun item hitem => h item (List.mem_filter.1 hitem).1)
      fun item hitem hname => ?_
    obtain ⟨hmem, hstays⟩ := List.mem_filter.1 hitem
    rw [(hiff hmem).2 hname] at hstays
    cases hstays
  have hmovedNe : moved.isEmpty = false := by
    obtain ⟨item, hitem, hname⟩ := hmoved
    rw [List.isEmpty_eq_false_iff]
    exact List.ne_nil_of_mem (List.mem_map_of_mem (List.mem_filter.2 ⟨hitem, (hiff hitem).2 hname⟩))
  rw [if_neg (by simp [hmovedNe])]
  refine ⟨head ++ moved, _, rfl, by rw [List.mapM_append, hhead, hmovedReads]; rfl, ?_⟩
  rw [List.flatten_append, hbound, ← List.flatMap_def, ← List.map_eq_flatMap, ← List.map_append]
  exact (List.perm_append_comm.trans (List.filter_append_perm isMoved items)).map _

end Split

theorem importEdits_split {source : String} {root n target : Node} (old new : QualifiedName)
    (hparse : parse? source = some root) (hn : n ∈ root.preorder)
    (hk : n.kind = .importFromStatement) (htarget : n.fromTarget? = some target)
    (hparent : old.parent? = some (target.dottedText source.toList))
    (hinline : ∀ item ∈ n.parts .name, item.IsInline source.toList)
    (hmoved : ∃ item ∈ n.parts .name, item.importedName source.toList = old.last) :
    ∃ separator statements bound origin,
      importEdits old new source.toList n = [⟨n.span, String.intercalate separator statements⟩] ∧
      (∀ front line, Text.takeBytes n.start source.toList = front ++ line → '\n' ∉ line →
        (front = [] ∨ front.getLast? = some '\n') →
        separator = if line.all Text.isSpace then "\n" ++ String.ofList line else "; ") ∧
      statements.mapM readImport = some bound ∧ origin.path = new.text ∧
      bound.flatten.Perm ((n.parts .name).map fun item => (item.localName source.toList,
        if item.importedName source.toList = old.last then origin
        else .member (target.dottedText source.toList) (item.importedName source.toList))) := by
  obtain ⟨hnone, -⟩ | ⟨ps, hps, hsome, hsegments⟩ := parent?_cases old
  · rw [hnone] at hparent
    cases hparent
  have hdotted : dotted ps = target.dottedText source.toList := Option.some.inj (hsome.symm.trans hparent)
  have hwithin := Node.within_of_mem_preorder hn
  have hwritten : n.All (Node.Written source.toList) := fun m hm => parse?_written hparse m (hm.trans hwithin)
  have hshaped : target.All (Node.Shaped importEnclosure source.toList) := fun m hm =>
    parse?_shaped importEnclosure_lawful hparse m
      (hm.trans ((namesModule_of_fromTarget? hk htarget).within.trans hwithin))
  obtain ⟨statements, bound, hsplit, hread, hbound⟩ := exists_splitEdit? new hps
    (fun w hw => isIdentifier_of_isSegment (old.valid w (by simp [hsegments, hw])))
    (fun item hitem => ⟨hwritten.child (Node.mem_children_of_mem_parts hitem),
      hwritten.self.items hk item hitem, hinline item hitem⟩) hmoved
  refine ⟨_, statements, bound, originOf new, ?_, fun front line => statementSeparator_eq, hread,
    path_originOf new, hdotted ▸ hbound⟩
  unfold importEdits
  rw [hk]
  simp only [htarget, dottedEdit?_of_parent hshaped hparent, hsome, hdotted]
  rw [hdotted] at hsplit
  rw [Node.dottedText, dotted] at hsplit ⊢
  simp [hsplit]

def parentText : String :=
  "from b import a as x, c\n"

def parentStatement : Node :=
  .mk none .importFromStatement ⟨0, 23⟩
    [.mk none (.mark "from") ⟨0, 4⟩ [],
     .mk (some .moduleName) .dottedName ⟨5, 6⟩ [.mk none .identifier ⟨5, 6⟩ []],
     .mk none (.mark "import") ⟨7, 13⟩ [],
     .mk (some .name) .aliasedImport ⟨14, 20⟩
       [.mk (some .name) .dottedName ⟨14, 15⟩ [.mk none .identifier ⟨14, 15⟩ []],
        .mk none (.mark "as") ⟨16, 18⟩ [],
        .mk (some .asName) .identifier ⟨19, 20⟩ []],
     .mk none (.mark ",") ⟨20, 21⟩ [],
     .mk (some .name) .dottedName ⟨22, 23⟩ [.mk none .identifier ⟨22, 23⟩ []]]

theorem importEdits_split_aliased : ∃ separator statements bound origin,
    importEdits longName shortName parentText.toList parentStatement =
      [⟨⟨0, 23⟩, String.intercalate separator statements⟩] ∧
    separator = "\n" ∧ statements.mapM readImport = some bound ∧ origin.path = "a" ∧
    bound.flatten.Perm [("x", origin), ("c", .member "b" "c")] := by
  have hparse : parse? parentText = some (.mk none .module ⟨0, 24⟩ [parentStatement]) := by decide +kernel
  have hinline : ∀ item ∈ parentStatement.parts .name, item.IsInline parentText.toList := by
    unfold Node.IsInline
    decide +kernel
  obtain ⟨separator, statements, bound, origin, hedits, hseparator, hread, hpath, hbound⟩ :=
    importEdits_split longName shortName hparse
      (List.mem_cons_of_mem _ (List.mem_cons_self)) rfl rfl (by decide +kernel) hinline
      ⟨_, List.mem_cons_self, by decide +kernel⟩
  refine ⟨separator, statements, bound, origin, hedits, ?_, hread, ?_, ?_⟩
  · exact hseparator [] [] rfl (by simp) (.inl rfl)
  · exact hpath.trans (by decide +kernel)
  · have hitems : (parentStatement.parts .name).map (fun item =>
        (item.localName parentText.toList, item.importedName parentText.toList)) =
          [("x", "a"), ("c", "c")] := by decide +kernel
    have hbinds := congrArg (List.map fun i : String × String =>
      (i.1, if i.2 = longName.last then origin else Origin.member "b" i.2)) hitems
    rw [List.map_map] at hbinds
    exact hbound.trans (.of_eq hbinds)

end Reroot.Python

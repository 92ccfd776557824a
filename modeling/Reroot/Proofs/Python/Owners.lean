import Reroot.Proofs.Python.Orphans

namespace Reroot.Python

section Owner

variable {source : String} {root : Node} {u : Use}

theorem Use.BelongsTo.unique {source : List Char} {o o' : Block} (h : u.BelongsTo root source o)
    (h' : u.BelongsTo root source o') : o = o' := by
  cases h with
  | declared hk =>
    cases h' with
    | declared => rfl
    | reached hk' => exact absurd hk hk'
  | reached hk _ hb h =>
    cases h' with
    | declared hk' => exact absurd hk' hk
    | reached _ _ hb' h' =>
      obtain rfl := hb.unique hb'
      exact h.unique h'

theorem exists_belongsTo (hparse : parse? source = some root)
    (hu : u ∈ (ScopeTable.build root source.toList).uses)
    (hregular : Regular root source.toList u.site u.name) : ∃ o,
      Numbered root source.toList
        ((ScopeTable.build root source.toList).resolve u.scope u.name) o ∧
      u.BelongsTo root source.toList o := by
  by_cases hkind : u.kind = .globalDecl
  · rw [ScopeTable.resolve_of_globalDecl hu hkind]
    exact ⟨_, .top, .declared hkind⟩
  · obtain ⟨b, o, hnum, hb, ho⟩ := exists_looksUp_of_use hparse hu hkind hregular
    exact ⟨o, hnum, .reached hkind hregular.inBlock hb ho⟩

theorem exists_rewritten_iff {old new : QualifiedName} {r : Option Renamed} {s : Scope}
    (hparse : parse? source = some root) (hrename : renameModule source old new = .ok r)
    (hu : u ∈ (ScopeTable.build root source.toList).uses) (hkind : u.kind = .load)
    (hname : u.name = old.first)
    (hs : (ScopeTable.build root source.toList).scopes[
      (ScopeTable.build root source.toList).resolve u.scope u.name]? = some s)
    (himports : ∀ b ∈ s.bindingsOf old.first, b.isImport = true) :
    ∃ es, Renames source es r ∧ (Rewritten es u.site ↔
      old.isPrefixOf (attributeChain source.toList old.length u.site).1 = true ∧
        ∃ b ∈ s.bindingsOf old.first, b.importsModule old = true) := by
  obtain ⟨es, x, hrenames, hx, hrewritten⟩ := ScopeTable.exists_renames_of_use hparse hrename hu
  refine ⟨es, hrenames, hrewritten.trans ?_⟩
  rw [ScopeTable.exists_useEdit_iff hkind hname hx,
    ScopeTable.refersToImport_of_forall hs himports, Except.ok.injEq, List.any_eq_true]

theorem resolve_numbers_owner (hparse : parse? source = some root)
    (hu : u ∈ (ScopeTable.build root source.toList).uses)
    (hregular : Regular root source.toList u.site u.name) : ∃ o,
      (∀ o', u.BelongsTo root source.toList o' ↔ o' = o) ∧
      (∀ i, Numbered root source.toList i o ↔
        (ScopeTable.build root source.toList).resolve u.scope u.name = i) ∧
      ∀ i s old new r, Numbered root source.toList i o →
        (ScopeTable.build root source.toList).scopes[i]? = some s →
        (∀ b ∈ s.bindingsOf old.first, b.isImport = true) → u.kind = .load → u.name = old.first →
        renameModule source old new = .ok r →
          ∃ es, Renames source es r ∧ (Rewritten es u.site ↔
            old.isPrefixOf (attributeChain source.toList old.length u.site).1 = true ∧
              ∃ b ∈ s.bindingsOf old.first, b.importsModule old = true) := by
  obtain ⟨o, hnum, hbelongs⟩ := exists_belongsTo hparse hu hregular
  refine ⟨o, fun o' => ⟨fun h => h.unique hbelongs, fun h => h ▸ hbelongs⟩,
    fun i => ⟨fun h => hnum.unique h, fun h => h ▸ hnum⟩, ?_⟩
  intro i s old new r hi hs himports hkind hname hrename
  obtain rfl := hnum.unique hi
  exact exists_rewritten_iff hparse hrename hu hkind hname hs himports

end Owner

mutual

def Node.everywhere (f : Kind → Bool) : Node → Bool
  | .mk _ k _ cs => f k && everywhereAll f cs

def Node.everywhereAll (f : Kind → Bool) : List Node → Bool
  | [] => true
  | c :: cs => c.everywhere f && everywhereAll f cs

end

theorem Node.everywhere_of_mem {f : Kind → Bool} {cs : List Node} {c : Node} (hc : c ∈ cs)
    (h : everywhereAll f cs = true) : c.everywhere f = true := by
  induction cs with
  | nil => cases hc
  | cons d ds ih =>
    rw [everywhereAll, Bool.and_eq_true] at h
    obtain rfl | hc := List.mem_cons.1 hc
    · exact h.1
    · exact ih hc h.2

theorem Node.Within.everywhere {f : Kind → Bool} {m n : Node} (hm : m.Within n)
    (h : n.everywhere f = true) : f m.kind = true := by
  induction hm with
  | self =>
    obtain ⟨r, k, span, cs⟩ := m
    rw [Node.everywhere, Bool.and_eq_true] at h
    exact h.1
  | @child n c hc _ ih =>
    obtain ⟨r, k, span, cs⟩ := n
    rw [Node.everywhere, Bool.and_eq_true] at h
    exact ih (Node.everywhere_of_mem hc h.2)

def Kind.bendsRules (k : Kind) : Bool :=
  [Kind.namedExpression, .globalStatement, .nonlocalStatement, .casePattern, .unionPattern,
    .keywordPattern, .splatPattern, .typeAliasStatement, .typeParameter].contains k

section Plain

variable {root : Node} {source : List Char} {s σ c : Site} {b : Block} {x : String}

theorem StandsIn.inTree (h : StandsIn root s b) : s.InTree root := by
  obtain ⟨_, _, hs, -⟩ := h.visited []
  exact hs.inTree

theorem StandsIn.inTree_comprehension (h : StandsIn root s ⟨.comprehension, c⟩) : c.InTree root := by
  obtain ⟨_, _, -, hc⟩ := h.visited []
  cases hc with
  | comprehension hc => exact hc.inTree

theorem Hosts.kind_ne (h : Hosts root s b) : b.kind ≠ .comprehension := by
  induction h with
  | here _ hk => exact hk
  | around _ _ ih => exact ih

theorem Binds.inTree_comprehension (h : Binds root source ⟨.comprehension, c⟩ x) :
    c.InTree root := by
  cases h with
  | own h => exact h.inTree_comprehension
  | walrus h => exact absurd rfl h.kind_ne
  | parameter hb => cases hb

theorem Site.InTree.exists_clause (hσ : σ.InTree root) (hc : c.InTree root)
    (h : σ.InOutermost c) : ∃ a ∈ σ.ancestors, a.kind = .forInClause := by
  obtain ⟨i, clause, j, n, hi, hclause, hn, -, hholds⟩ := h
  refine ⟨c.child i clause, ?_, ?_⟩
  · have hlength := hholds.length_le
    exact (hσ.mem_ancestors_iff (hc.child hclause)).2
      ⟨(List.suffix_cons j _).trans hholds, Nat.lt_of_succ_le hlength⟩
  · obtain ⟨hlt, hk, -⟩ := List.findIdx?_eq_some_iff_getElem.1 hi
    obtain ⟨_, rfl⟩ := List.getElem?_eq_some_iff.1 hclause
    exact beq_iff_eq.1 hk

theorem Regular.of_plain (hplain : root.everywhere (fun k => !k.bendsRules) = true)
    (hσ : σ.InTree root) (hclause : ∀ a ∈ σ.ancestors, a.kind ≠ .forInClause)
    (hname : ¬"__".toList <+: x.toList) : Regular root source σ x := by
  have plain {s : Site} (hs : s.InTree root) : s.kind.bendsRules = false :=
    Bool.not_eq_true' _ ▸ hs.within.everywhere hplain
  have above {s p : Site} (hs : s.InTree root) (hp : s.parent? = some p) : p.InTree root :=
    hs.of_mem_ancestors p (List.mem_of_mem_head? hp)
  have outside {c : Site} (hc : c.InTree root) : ¬σ.InOutermost c := by
    intro hout
    obtain ⟨a, ha, hk⟩ := hσ.exists_clause hc hout
    exact hclause a ha hk
  constructor
  case outermost => exact fun c hout hbinds => outside hbinds.inTree_comprehension hout
  case classBody =>
    intro b hruns _ hnot
    cases hruns with
    | inside h => exact absurd h hnot
    | around h hout => exact absurd hout (outside h.inTree_comprehension)
  case walrus =>
    intro s c hs hw
    simp only [Site.isWalrus, Bool.and_eq_true, Option.any_eq_true, beq_iff_eq] at hw
    obtain ⟨-, p, hp, hk⟩ := hw
    have hbends := plain (above hs.inTree hp)
    rw [hk] at hbends
    cases hbends
  case captured =>
    intro s b hs hunseen
    exfalso
    cases hunseen.2 with
    | bare hd _ _ hp hpattern =>
      have hbends := plain (above (above hs.inTree hd) hp)
      obtain hk | hk | hk := hpattern <;> rw [hk] at hbends <;> cases hbends
    | star hp hk =>
      have hbends := plain (above hs.inTree hp)
      rw [hk] at hbends
      cases hbends
    | renamed hp _ hq hk =>
      have hbends := plain (above (above hs.inTree hp) hq)
      rw [hk] at hbends
      cases hbends
  case declared =>
    have undeclared {statement : Kind} (hk : statement.bendsRules = true) (b : Block) :
        ¬Declares root source statement b x := by
      rintro ⟨s, _, hs, rfl, -⟩
      rw [plain hs.inTree] at hk
      cases hk
    exact fun b _ _ => ⟨undeclared rfl b, fun h => absurd h (undeclared rfl b)⟩
  case inBlock =>
    rintro (⟨s, hs, -, ⟨a, ha, htyping⟩, -⟩ | ⟨hprivate, -⟩)
    · have hbends := plain (hs.of_mem_ancestors a ha)
      obtain hk | ⟨hk, -⟩ := htyping <;> rw [hk] at hbends <;> cases hbends
    · exact hname hprivate

end Plain

def methodText : String :=
  "import a\nclass C:\n    a = 1\n    def f(self, y=a):\n        return [a.b for x in y]\n"

def renamedMethodText : String :=
  "import b\nclass C:\n    a = 1\n    def f(self, y=a):\n        return [b.b for x in y]\n"

theorem ordered_methodText :
    Edit.ordered [⟨⟨7, 8⟩, "b"⟩, ⟨⟨66, 67⟩, "b"⟩] = [⟨⟨66, 67⟩, "b"⟩, ⟨⟨7, 8⟩, "b"⟩] :=
  Edit.ordered_eq_reverse (by decide)

theorem renameModule_methodText : renameModule methodText shortName ScopeTable.otherName =
    .ok (some ⟨renamedMethodText, 2⟩) := by
  refine renameModule_eq_of_edits [⟨⟨7, 8⟩, "b"⟩, ⟨⟨66, 67⟩, "b"⟩] renamedMethodText.toList
    (by decide) (by decide +kernel) (by simp) ?_
  rw [Edit.splice, ordered_methodText, methodText, renamedMethodText, String.toList_ofList,
    String.toList_ofList]
  rfl

theorem resolve_numbers_owner_method : ∃ root u es, parse? methodText = some root ∧
    u ∈ (ScopeTable.build root methodText.toList).uses ∧ u.kind = .load ∧
    (∃ a ∈ u.site.ancestors, a.kind = .listComprehension) ∧
    u.BelongsTo root methodText.toList (Block.top root) ∧
    renameModule methodText shortName ScopeTable.otherName = .ok (some ⟨renamedMethodText, 2⟩) ∧
    Renames methodText es (some ⟨renamedMethodText, 2⟩) ∧ Rewritten es u.site := by
  have hfacts : ((parse? methodText).any fun root =>
      root.everywhere (fun k => !k.bendsRules) &&
      ((ScopeTable.build root methodText.toList).scopes[0]?.any fun s =>
        (s.bindingsOf "a").all (·.isImport) &&
          (s.bindingsOf "a").any (Binding.importsModule shortName)) &&
      (ScopeTable.build root methodText.toList).uses.any fun u => u.kind == .load &&
        (u.name == "a") && u.site.ancestors.all (·.kind != .forInClause) &&
        u.site.ancestors.any (·.kind == .listComprehension) &&
        (ScopeTable.build root methodText.toList).resolve u.scope u.name == 0) = true := by
    decide +kernel
  obtain ⟨root, hparse, hfacts⟩ := Option.any_eq_true _ _ |>.1 hfacts
  rw [Bool.and_eq_true, Bool.and_eq_true, Option.any_eq_true, List.any_eq_true] at hfacts
  obtain ⟨⟨hplain, s, hs, hbindings⟩, u, hu, hfacts⟩ := hfacts
  simp only [Bool.and_eq_true, List.all_eq_true, List.any_eq_true, beq_iff_eq, bne_iff_ne] at hbindings hfacts
  obtain ⟨⟨⟨⟨hkind, hname⟩, hclause⟩, hcomprehension⟩, hresolve⟩ := hfacts
  have hused := (isUsed_of_mem_uses (parse?_kind hparse)
    (parse?_shaped classEnclosure_lawful hparse) _ hu).1
  have hregular : Regular root methodText.toList u.site u.name :=
    .of_plain hplain hused.inTree hclause (by rw [hname]; decide)
  obtain ⟨o, hbelongs, hnumbered, hrewritten⟩ := resolve_numbers_owner hparse hu hregular
  have htop := (hnumbered 0).2 hresolve
  obtain rfl := htop.block_unique .top
  obtain ⟨es, hrenames, hiff⟩ := hrewritten 0 s shortName ScopeTable.otherName _ htop hs
    hbindings.1 hkind hname renameModule_methodText
  refine ⟨root, u, es, hparse, hu, hkind, hcomprehension, (hbelongs _).2 rfl,
    renameModule_methodText, hrenames, hiff.2 ⟨?_, hbindings.2⟩⟩
  rw [show shortName.length = 1 from rfl, attributeChain_one,
    QualifiedName.isPrefixOf_iff_head? rfl, ← (ScopeTable.mem_uses hu).2, hname]
  rfl

end Reroot.Python

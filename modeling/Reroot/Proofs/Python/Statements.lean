import Reroot.Proofs.Python.Blocks
import Reroot.Proofs.Python.Course
import Reroot.Proofs.Python.Spelling

namespace Reroot.Python

def Node.Embodied (n : Node) : Prop :=
  n.kind.isDefinition = true → ∀ c ∈ n.children, c.kind.isStatement = true →
    c.kind = .block ∧ c.role = some .body

theorem Node.embodied_of_kind {n : Node} (h : n.kind.isDefinition = false) : n.Embodied :=
  fun hk => absurd hk (by simp [h])

theorem embodied_targetStable : TargetStable Node.Embodied := by
  intro n n' hk _ _ _
  apply Node.embodied_of_kind
  simp only [targetPatterns, List.mem_cons, List.not_mem_nil, or_false] at hk
  obtain hk | hk | hk | hk := hk <;> rw [hk] <;> rfl

namespace Gram

def kinds? {ρ : Type} : Gram ρ → Option (List Kind)
  | fresh (then_ _ (pack k)) => some [k]
  | then_ a b => (kinds? a).bind fun ks => (kinds? b).map (· ++ ks)
  | or_ a b => if kinds? a = kinds? b then kinds? a else none
  | g =>
    if g.isSilent then some []
    else
      match g.tokenKinds with
      | [k] => some [k]
      | _ => none

def endsInBody : Gram Rule → Bool
  | then_ (then_ head (then_ (call .suite) (tag .body))) (pack _) => head.tops expressionEnclosure
  | _ => false

def embodies : Bool → Gram Rule → Bool
  | _, fresh a => embodies a.endsInBody a
  | last, then_ a b => embodies false a && embodies last b
  | _, or_ a b => embodies false a && embodies false b
  | _, many a | _, within _ a => embodies false a
  | last, pack k => last || !k.isDefinition
  | _, packMany k => !k.isDefinition
  | _, _ => true

theorem embodies_phrase (r : Rule) : (Rule.phrase r).embodies false = true := by
  revert r
  decide +kernel

section Read

variable {fuel : Nat} {follow : Expect} {lo : Nat} {ns ns' : List Node} {c c' : Cursor}
  {text : List Char}

theorem read_kinds {ρ : Type} {rules : ρ → Gram ρ} {g : Gram ρ} {ks : List Kind}
    (hg : g.kinds? = some ks) (hc : Progress.Sound text lo ns c)
    (hr : g.read rules fuel follow ns c = some (ns', c')) :
    ∃ ms, ns' = ms ++ ns ∧ ms.map Node.kind = ks := by
  induction fuel generalizing g follow lo ns ns' c c' ks with
  | zero => cases hr
  | succ fuel ih =>
    unfold kinds? at hg
    split at hg
    · cases hg
      obtain ⟨_, ms, -, hbody, rfl⟩ := read_fresh hr
      obtain ⟨_, _, _, -, -, hpack⟩ := read_then hbody
      obtain ⟨rfl, rfl⟩ := read_pack hpack
      exact ⟨_, rfl, rfl⟩
    · obtain ⟨ks₁, h₁, hg⟩ := Option.bind_eq_some_iff.1 hg
      obtain ⟨ks₂, h₂, rfl⟩ := Option.map_eq_some_iff.1 hg
      obtain ⟨_, ms, d, ⟨⟩, ha, hb⟩ := read_then hr
      obtain ⟨ns₁, rfl, rfl⟩ := ih h₁ hc ha
      obtain ⟨ns₂, rfl, rfl⟩ := ih h₂ (read_sound rules hc ha).1 hb
      exact ⟨ns₂ ++ ns₁, by simp, by simp⟩
    · split at hg
      · next heq =>
        obtain ⟨_, ⟨⟩, ha | hb⟩ := read_or hr
        · exact ih hg hc ha
        · exact ih (heq ▸ hg) hc hb
      · cases hg
    · split at hg
      · next hsilent =>
        cases hg
        exact ⟨[], read_silent hsilent hr, rfl⟩
      · split at hg
        · next k hk =>
          cases hg
          obtain ⟨a, k', w, -, rfl, hk', -⟩ := read_token (by simp [hk]) hc.cursor hr
          rw [hk, List.mem_singleton] at hk'
          exact ⟨[_], rfl, congrArg ([·]) hk'⟩
        · cases hg

theorem read_suite (hc : Progress.Sound text lo ns c)
    (hr : (call Rule.suite).read Rule.phrase fuel follow ns c = some (ns', c')) :
    ∃ b m, ns' = b :: m :: ns ∧ b.kind = .block ∧ m.kind = .mark ":" := by
  have hkinds : (Rule.phrase .suite).kinds? = some [.block, .mark ":"] := by decide +kernel
  obtain ⟨_, -, hr⟩ := read_call hr
  obtain ⟨ms, rfl, hms⟩ := read_kinds hkinds hc hr
  obtain ⟨b, ms, rfl, hb, hms⟩ := List.map_eq_cons_iff.1 hms
  obtain ⟨m, ms, rfl, hm, hms⟩ := List.map_eq_cons_iff.1 hms
  obtain rfl := List.map_eq_nil_iff.1 hms
  exact ⟨b, m, rfl, hb, hm⟩

theorem all_embodied_withRole {n : Node} {r : Role} (h : n.All Node.Embodied) :
    (n.withRole r).All Node.Embodied :=
  (Node.all_iff _).2 ⟨h.self, fun _ hc => h.child hc⟩

theorem all_embodied_leaf {k : Kind} {w : Nat} : (c.leaf k w).All Node.Embodied :=
  Node.all_mk_iff.2 ⟨fun _ _ hn => absurd hn List.not_mem_nil, by simp⟩

theorem all_embodied_spanning {k : Kind} (hk : k.isDefinition = false)
    (h : ∀ n ∈ ns, n.All Node.Embodied) (here : Nat) :
    (Node.spanning k here ns.reverse).All Node.Embodied :=
  Node.all_mk_iff.2 ⟨Node.embodied_of_kind hk, fun n hn => h n (List.mem_reverse.1 hn)⟩

theorem exists_of_endsInBody {g : Gram Rule} (hg : g.endsInBody = true) : ∃ head k,
    g = then_ (then_ head (then_ (call .suite) (tag .body))) (pack k) ∧
      head.tops expressionEnclosure = true := by
  unfold endsInBody at hg
  split at hg
  · exact ⟨_, _, rfl, hg⟩
  · cases hg

theorem read_definition {head : Gram Rule} {k : Kind} (htops : head.tops expressionEnclosure = true)
    (hc : Progress.Sound text lo [] c)
    (hr : (then_ (then_ head (then_ (call .suite) (tag .body))) (pack k)).read Rule.phrase fuel
      follow [] c = some (ns', c'))
    (hhead : ∀ {i ms d}, i < fuel → head.read Rule.phrase i follow [] c = some (ms, d) →
      ∀ n ∈ ms, n.All Node.Embodied)
    (hsuite : ∀ {i ms ms' d d'}, i < fuel → Progress.Sound text lo ms d →
      (∀ n ∈ ms, n.All Node.Embodied) →
        (call Rule.suite).read Rule.phrase i follow ms d = some (ms', d') →
          ∀ n ∈ ms', n.All Node.Embodied) : ∀ n ∈ ns', n.All Node.Embodied := by
  obtain ⟨_, ms₂, d₂, rfl, hbody, hpack⟩ := read_then hr
  obtain ⟨_, ms, d, rfl, hrhead, hpart⟩ := read_then hbody
  obtain ⟨_, ms', d', rfl, hrsuite, htag⟩ := read_then hpart
  have hd := (read_sound Rule.phrase hc hrhead).1
  have hkinds := read_tops expressionEnclosure_lawful.tops htops hc (by simp) hrhead
  have hall := hsuite (by omega) hd (hhead (by omega) hrhead) hrsuite
  obtain ⟨b, m, rfl, hb, hm⟩ := read_suite hd hrsuite
  obtain ⟨b', rest, heq, rfl, rfl⟩ := read_tag htag
  cases heq
  obtain ⟨rfl, rfl⟩ := read_pack hpack
  obtain ⟨hallb, hallrest⟩ := List.forall_mem_cons.1 hall
  intro n hn
  obtain rfl := List.mem_singleton.1 hn
  refine Node.all_mk_iff.2 ⟨fun _ n hn hk => ?_, fun n hn => ?_⟩
  · obtain rfl | hn := List.mem_cons.1 (List.mem_reverse.1 hn)
    · exact ⟨hb, rfl⟩
    obtain rfl | hn := List.mem_cons.1 hn
    · rw [hm] at hk
      cases hk
    · have hinner : (!n.kind.isStatement) = true := hkinds n hn
      rw [hk] at hinner
      cases hinner
  · obtain rfl | hn := List.mem_cons.1 (List.mem_reverse.1 hn)
    · exact all_embodied_withRole hallb
    · exact hallrest n hn

theorem read_embodied {g : Gram Rule} (hg : g.embodies false = true) (hc : Progress.Sound text lo ns c)
    (h : ∀ n ∈ ns, n.All Node.Embodied)
    (hr : g.read Rule.phrase fuel follow ns c = some (ns', c')) :
    ∀ n ∈ ns', n.All Node.Embodied := by
  -- A definition is read in one go, and its suite in fewer steps than the phrases around it.
  induction fuel using Nat.strong_induction_on generalizing g follow lo ns ns' c c' with
  | _ fuel ih =>
  obtain _ | fuel := fuel
  · cases hr
  have hlt := Nat.lt_succ_self fuel
  cases reading_of_read hc.cursor hr with
  | @fresh a _ _ _ _ hra =>
    have ha : a.embodies a.endsInBody = true := hg
    refine List.forall_mem_append.2 ⟨?_, h⟩
    have hnil := Progress.sound_nil hc.cursor
    cases hbody : a.endsInBody with
    | false => exact ih fuel hlt (hbody ▸ ha) hnil (by simp) hra
    | true =>
      obtain ⟨head, k, rfl, htops⟩ := exists_of_endsInBody hbody
      obtain ⟨hhead, -⟩ := Bool.and_eq_true_iff.1 (Bool.and_eq_true_iff.1 ha).1
      exact read_definition htops hnil hra
        (fun hj hr => ih _ (by omega) hhead hnil (by simp) hr)
        (fun hj hd hms hr => ih _ (by omega) rfl hd hms hr)
  | then_ ha hb =>
    obtain ⟨hga, hgb⟩ := Bool.and_eq_true_iff.1 hg
    exact ih fuel hlt hgb (read_sound _ hc ha).1 (ih fuel hlt hga hc h ha) hb
  | left ha => exact ih fuel hlt (Bool.and_eq_true_iff.1 hg).1 hc h ha
  | right hb => exact ih fuel hlt (Bool.and_eq_true_iff.1 hg).2 hc h hb
  | @more a _ _ _ _ _ _ ha hmore =>
    have hga : a.embodies false = true := hg
    exact ih fuel hlt hg (read_sound _ hc ha).1 (ih fuel hlt hga hc h ha) hmore
  | @call r _ _ _ _ hr => exact ih fuel hlt (embodies_phrase r) hc h hr
  | @within _ a _ _ _ _ ha =>
    have hga : a.embodies false = true := hg
    exact ih fuel hlt hga hc h ha
  | tag =>
    obtain ⟨hn, hrest⟩ := List.forall_mem_cons.1 h
    exact List.forall_mem_cons.2 ⟨all_embodied_withRole hn, hrest⟩
  | @pack k | @packMany k =>
    have hk : (!k.isDefinition) = true := hg
    simpa using all_embodied_spanning (by simpa using hk) h _
  | target hns => exact (targets?_all embodied_targetStable _ _ hns h).2
  | token => exact List.forall_mem_cons.2 ⟨all_embodied_leaf, h⟩
  | silent | enough | single => exact h

end Read

end Gram

theorem Node.Embodied.weave {text : List Char} {r : Option Role} {k : Kind} {s : Span}
    {cs es : List Node} (h : (Node.mk r k s cs).Embodied) (hes : ∀ e ∈ es, e.IsExtra text) :
    (Node.mk r k s (weaveAll cs es)).Embodied := by
  intro hk c hc hstatement
  obtain hc | ⟨d, hd, hkind, hrole, -⟩ := mem_weaveAll hc
  · obtain hkind | hkind := (hes c hc).kind <;> rw [hkind] at hstatement <;> cases hstatement
  · rw [hkind] at hstatement ⊢
    rw [hrole]
    exact h hk d hd hstatement

theorem parse?_embodied {source : String} {root : Node} (h : parse? source = some root) :
    root.All Node.Embodied := by
  refine parse?_all (fun n hk => ?_) (fun e he => ?_) (fun r k s cs es hn hes => hn.weave hes)
    (fun fuel n c hr => ?_) h
  · exact Node.embodied_of_kind (by rw [hk]; rfl)
  · obtain hk | hk := he.kind <;> exact Node.embodied_of_kind (by rw [hk]; rfl)
  · exact Gram.read_embodied rfl (Progress.sound_nil (Cursor.sound_ofText source.toList)) (by simp) hr
      n (by simp)

def passedEnclosure : Enclosure Rule where
  outer k := k.isStatement && !k.isOrdinary && !k.isDefinition
  inner k := !k.isStatement
  rules := expressionEnclosure.rules

theorem passedEnclosure_lawful : passedEnclosure.Lawful Rule.phrase where
  tops := by decide +kernel
  regular := by decide +kernel
  targets := by decide
  extras := by decide

theorem Node.isNamed_of_ne_mark {n : Node} (h : ∀ t, n.kind ≠ .mark t) : n.isNamed = true := by
  unfold Node.isNamed
  split
  · next t hk => exact absurd hk (h t)
  · rfl

theorem Node.isNamed_of_isStatement {n : Node} (h : n.kind.isStatement = true) : n.isNamed = true :=
  isNamed_of_ne_mark fun t hk => by
    rw [hk] at h
    cases h

section Blocks

variable {source : String} {root : Node} {s : Site}

theorem Site.InTree.standsIn_or_isBody (hparse : parse? source = some root) (h : s.InTree root)
    (hk : s.kind.isStatement = true) : s = Site.root root ∨ (∃ b, StandsIn root s b) ∨
      s.kind = .block ∧ ∃ p i n b, s = p.child i n ∧ p.HasChild i n ∧ p.kind = .classDefinition ∧
        n.role = some .body ∧ StandsIn root p b := by
  induction h with
  | root => exact .inl rfl
  | @child s i n h hn ih =>
    right
    have hmem := List.mem_of_getElem? hn
    have hchild : s.HasChild i n := ⟨hn, Node.isNamed_of_isStatement hk⟩
    have hs : s.kind.isStatement = true := by
      by_contra hs
      have houter : expressionEnclosure.outer s.kind = true := by
        rw [Bool.not_eq_true] at hs
        exact congrArg not hs
      have hinner : (!n.kind.isStatement) = true :=
        (parse?_shaped expressionEnclosure_lawful hparse s.node h.within).inner houter n hmem
      rw [show n.kind.isStatement = true from hk] at hinner
      cases hinner
    obtain rfl | ⟨b, hb⟩ | ⟨-, p, j, m, b, rfl, hm, hclass, hrole, hb⟩ := ih hs
    · exact .inl ⟨_, .top hchild⟩
    · cases hdefinition : s.kind.isDefinition with
      | true =>
        obtain ⟨hblock, hrole⟩ := parse?_embodied hparse s.node h.within hdefinition n hmem hk
        rw [Kind.isDefinition, Bool.or_eq_true, beq_iff_eq, beq_iff_eq] at hdefinition
        obtain hfunction | hclass := hdefinition
        · exact .inl ⟨_, .body hb hchild (Kind.isFunction_iff.2 (.inl hfunction)) hrole⟩
        · exact .inr ⟨hblock, s, i, n, b, rfl, hchild, hclass, hrole, hb⟩
      | false =>
        cases hordinary : s.kind.isOrdinary with
        | true => exact .inl ⟨b, .same hb hchild (.ordinary hordinary)⟩
        | false =>
          have houter : passedEnclosure.outer s.kind = true := by
            simp [passedEnclosure, hs, hordinary, hdefinition]
          have hinner : (!n.kind.isStatement) = true :=
            (parse?_shaped passedEnclosure_lawful hparse s.node h.within).inner houter n hmem
          rw [show n.kind.isStatement = true from hk] at hinner
          cases hinner
    · exact .inl ⟨_, .member hb hm hclass hrole hchild⟩

theorem Site.InTree.exists_standsIn (hparse : parse? source = some root) (h : s.InTree root)
    (hk : s.kind.isStatement = true) (hmodule : s.kind ≠ .module) (hblock : s.kind ≠ .block) :
    ∃ b, StandsIn root s b := by
  obtain rfl | hb | ⟨hbody, -⟩ := h.standsIn_or_isBody hparse hk
  · exact absurd (parse?_kind hparse) hmodule
  · exact hb
  · exact absurd hbody hblock

end Blocks

end Reroot.Python

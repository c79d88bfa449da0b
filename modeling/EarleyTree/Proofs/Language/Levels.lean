import EarleyTree.Proofs.Language.Integrity
import EarleyTree.Proofs.Language.RuleRows

/-!
The alternatives of a rule in the order of its productions, and the priority that a level of
precedence gives to them.
-/
namespace EarleyTree

open Compile

namespace Rule

/-- No precedence stands in the rule. -/
def Unranked (r : Rule) : Prop := ∀ q ∈ r.walk, q.kind.isPrecedence = false

/-- The only precedence of the rule is the one around it, of this level; a rule without any has the
level zero. -/
def Ranks (r : Rule) (level : Int) : Prop :=
  (r.kind.isPrecedence = true ∧ r.precedence?.getD 0 = level ∧ ∀ c ∈ r.content, c.Unranked) ∨
    (r.Unranked ∧ level = 0)

instance (r : Rule) : Decidable r.Unranked :=
  inferInstanceAs (Decidable (∀ q ∈ r.walk, q.kind.isPrecedence = false))

instance (r : Rule) (level : Int) : Decidable (r.Ranks level) :=
  inferInstanceAs (Decidable (_ ∨ _))

end Rule

theorem Alternative.All.trivial (as : List Alternative) : ∀ a ∈ as, a.All fun _ => True :=
  fun _ _ _ _ => True.intro

/-- The alternatives that a symbol has, in the order of its productions. -/
def alternativesOf (productions : Array Production) (s : Symbol) : List Alternative :=
  (productions.toList.filter (·.lhs == s)).map fun p => ⟨p.steps, p.priority⟩

section

variable {productions : Array Production} {ps : List Production} {s : Symbol}

theorem alternativesOf_append :
    alternativesOf (productions ++ ps.toArray) s =
      alternativesOf productions s ++ alternativesOf ps.toArray s := by
  rw [alternativesOf, Array.toList_append, List.filter_append, List.map_append]
  rfl

theorem alternativesOf_eq_nil (h : ∀ p ∈ ps, p.lhs ≠ s) : alternativesOf ps.toArray s = [] := by
  rw [alternativesOf, List.filter_eq_nil_iff.2, List.map_nil]
  exact fun p hp => by simpa using h p hp

theorem alternativesOf_plainProduction (as : List Alternative) :
    alternativesOf (as.map (plainProduction s)).toArray s = as := by
  rw [alternativesOf, List.filter_eq_self.2]
  · rw [List.map_map]
    exact List.map_id' as
  · intro p hp
    obtain ⟨a, -, rfl⟩ := List.mem_map.1 hp
    exact beq_self_eq_true _

end

namespace Compile

variable {α β : Type} {m : Compile α} {Q Q' : α → Prop} {R : β → Prop}

/-- The symbols that were there before keep their alternatives. -/
def Spares (m : Compile α) (Q : α → Prop) : Prop :=
  ∀ d a d', m d = .ok (a, d') → d.symbols.size ≤ d'.symbols.size ∧
    (∀ s < d.symbols.size, alternativesOf d'.productions s = alternativesOf d.productions s) ∧ Q a

namespace Spares

theorem pure {a : α} (h : Q a) : Spares (Pure.pure a) Q := by
  rintro d _ _ ⟨⟩
  exact ⟨Nat.le_refl _, fun _ _ => rfl, h⟩

theorem throw {e : CompileError} : Spares (throw e) Q := by
  intro _ _ _ h
  cases h

theorem bind {k : α → Compile β} (hm : Spares m Q) (hk : ∀ a, Spares (k a) fun b => Q a → R b) :
    Spares (m >>= k) R := by
  intro d b d' h
  obtain ⟨a, d₁, h₁, h₂⟩ := bind_eq_ok h
  obtain ⟨hle, hold, hq⟩ := hm d a d₁ h₁
  obtain ⟨hle', hold', hr⟩ := hk a d₁ b d' h₂
  refine ⟨hle.trans hle', fun s hs => ?_, hr hq⟩
  rw [hold' s (hs.trans_le hle), hold s hs]

theorem weaken (hm : Spares m Q) (h : ∀ a, Q a → Q' a) : Spares m Q' := by
  intro d a d' hr
  obtain ⟨hle, hold, hq⟩ := hm d a d' hr
  exact ⟨hle, hold, h a hq⟩

theorem of_productions (h : ∀ d a d', m d = .ok (a, d') →
    d.symbols.size ≤ d'.symbols.size ∧ d'.productions = d.productions) :
    Spares m fun _ => True := by
  intro d a d' hr
  obtain ⟨hle, hp⟩ := h d a d' hr
  exact ⟨hle, fun s _ => by rw [hp], trivial⟩

end Spares

/-- The new productions are those of a new symbol. -/
theorem declare_spares {body : Compile (List Alternative)}
    {f : Symbol → Alternative → Compile PUnit} (ps : Symbol → Alternative → List Production)
    {Q : List Alternative → Prop} (hbody : Spares body Q)
    (hf : ∀ s a u d d', f s a d = .ok (u, d') →
      d' = { d with productions := d.productions ++ (ps s a).toArray })
    (hps : ∀ {s a p}, p ∈ ps s a → p.lhs = s) (owner what : String) :
    Spares (do
      let name ← freshName owner what
      let s ← pushSymbol name .auxiliary false false
      (← body).forM (f s)
      return s) fun _ => True := by
  intro d s d' h
  obtain ⟨rfl, name, as, d₁, has, rfl⟩ := declare_eq_ok hf h
  obtain ⟨hle, hold, -⟩ := hbody (d.withAuxiliary name) as d₁ has
  rw [Draft.withAuxiliary, Array.size_push] at hle hold
  refine ⟨Nat.le_of_succ_le hle, fun s hs => ?_, trivial⟩
  have hnew : ∀ p ∈ as.flatMap (ps d.symbols.size), p.lhs ≠ s := by
    intro p hp
    obtain ⟨a, -, hp⟩ := List.mem_flatMap.1 hp
    exact hps hp ▸ hs.ne'
  rw [Draft.emit, alternativesOf_append, alternativesOf_eq_nil hnew, List.append_nil]
  exact hold s (Nat.lt_succ_of_lt hs)

theorem stepLogic_spares : StepLogic (fun m Q => Spares m Q) fun _ => True where
  pure := .pure
  throw := .throw
  bind := .bind
  weaken := .weaken
  symbol name := .of_productions fun d s d' h => by
    obtain ⟨-, rfl⟩ := symbol_lookup h
    exact ⟨Nat.le_refl _, rfl⟩
  literal text := .of_productions fun d s d' h => by
    obtain ⟨-, rfl⟩ | ⟨-, rfl, regex, -, rfl⟩ := literal_eq_ok h
    · exact ⟨Nat.le_refl _, rfl⟩
    · exact ⟨by simp, rfl⟩
  inlineToken r owner := by
    refine Spares.weaken (Q := fun _ => True) (.of_productions fun d s d' h => ?_)
      fun _ _ _ => trivial
    obtain ⟨text, -, h⟩ | ⟨-, source, -, ⟨-, rfl⟩ | ⟨-, rfl, name, regex, -, rfl⟩⟩ :=
      inlineToken_eq_ok h
    · obtain ⟨-, rfl⟩ | ⟨-, rfl, regex, -, rfl⟩ := literal_eq_ok h
      · exact ⟨Nat.le_refl _, rfl⟩
      · exact ⟨by simp, rfl⟩
    · exact ⟨Nat.le_refl _, rfl⟩
    · exact ⟨by simp, rfl⟩
  fieldId name := by
    refine Spares.weaken (Q := fun _ => True) (.of_productions fun d id d' h => ?_)
      fun _ _ _ _ => trivial
    obtain ⟨-, rfl⟩ := fieldId_eq_ok h
    exact ⟨Nat.le_refl _, rfl⟩
  newKind name named := by
    refine Spares.weaken (Q := fun _ => True) (.of_productions fun d k d' h => ?_)
      fun _ _ _ _ => trivial
    obtain ⟨-, rfl⟩ | ⟨_, -, -, rfl⟩ | ⟨-, rfl⟩ := newKind_eq_ok h
    · exact ⟨Nat.le_refl _, rfl⟩
    · exact ⟨Nat.le_refl _, rfl⟩
    · exact ⟨by simp, rfl⟩
  auxiliary owner what hbody :=
    declare_spares (fun s a => [plainProduction s a]) hbody (fun _ _ _ _ _ => pushProduction_eq_ok)
      (fun hp => by rw [List.mem_singleton.1 hp]; rfl) owner what
  repetition owner hbody :=
    declare_spares loopProductions hbody (fun _ _ _ _ _ => pushLoop_eq_ok)
      lhs_of_mem_loopProductions owner "repeat"

end Compile

section

variable {owner : String}

theorem product_unranked {as bs : List Alternative} (ha : ∀ a ∈ as, a.priority = 0)
    (hb : ∀ b ∈ bs, b.priority = 0) : ∀ c ∈ Alternative.product as bs, c.priority = 0 := by
  intro c hc
  obtain ⟨a, ham, hc⟩ := List.mem_flatMap.1 hc
  obtain ⟨b, hbm, rfl⟩ := List.mem_map.1 hc
  rw [Alternative.append, ha a ham, hb b hbm]
  rfl

mutual

/-- The induction is on the rule; only a precedence gives another priority than zero. -/
theorem Rule.flatten_unranked (owner : String) : (r : Rule) → r.Unranked →
    Spares (r.flatten owner) fun as => ∀ a ∈ as, a.priority = 0
  | ⟨kind, value, name, content, members, named, flags, context⟩, h => by
    rw [Rule.Unranked, Rule.walk, List.forall_mem_cons, List.forall_mem_append] at h
    obtain ⟨hkind, hcontent, hmembers⟩ := h
    have hc := flattenContent_unranked owner kind content hcontent
    have hbody := hc.weaken fun as _ => Alternative.All.trivial as
    have hl := stepLogic_spares
    have hsingle (s : Symbol) : ∀ a ∈ single s, a.priority = 0 := List.forall_mem_singleton.2 rfl
    cases kind with
    | blank => exact .pure (List.forall_mem_singleton.2 rfl)
    | string => exact hl.map (hl.literal _) fun s _ => hsingle s
    | pattern | token => exact hl.map (hl.inlineToken _ owner) fun s _ => hsingle s
    | immediateToken =>
        exact hl.map (hl.inlineToken _ owner) fun _ _ => List.forall_mem_singleton.2 rfl
    | symbol => exact hl.map (hl.symbol _) fun s _ => hsingle s
    | sequence =>
        exact (flattenSequence_unranked owner [{}] members hmembers).weaken fun as has =>
          has (List.forall_mem_singleton.2 rfl)
    | choice => exact flattenChoice_unranked owner members hmembers
    | zeroOrMore =>
        exact hl.map (hl.repetition owner hbody) fun s _ =>
          List.forall_mem_cons.2 ⟨rfl, hsingle s⟩
    | oneOrMore =>
        exact hl.map (hl.repetition owner hbody) fun s _ => hsingle s
    | precedence | precedenceLeft | precedenceRight | precedenceDynamic => cases hkind
    | field =>
        exact .bind (hl.fieldId _) fun id => .bind hc fun as => .pure fun has _ =>
          List.forall_mem_map.2 has
    | renamed =>
        refine .bind (hl.newKind _ _) fun kindId => ?_
        dsimp only
        split
        · exact .bind (hl.symbol _) fun s => .pure fun _ _ => List.forall_mem_singleton.2 rfl
        · exact .bind (hl.auxiliary owner "alias" hbody) fun s =>
            .pure fun _ _ => List.forall_mem_singleton.2 rfl
    | reserved => exact hc

theorem flattenContent_unranked (owner : String) (kind : RuleKind) : (content : Option Rule) →
    (∀ q ∈ Rule.walkContent content, q.kind.isPrecedence = false) →
    Spares (flattenContent owner kind content) fun as => ∀ a ∈ as, a.priority = 0
  | none, _ => .throw
  | some r, h => Rule.flatten_unranked owner r h

theorem flattenSequence_unranked (owner : String) (before : List Alternative) :
    (members : List Rule) → (∀ q ∈ Rule.walkMembers members, q.kind.isPrecedence = false) →
    Spares (flattenSequence owner before members) fun as =>
      (∀ a ∈ before, a.priority = 0) → ∀ a ∈ as, a.priority = 0
  | [], _ => .pure fun hb => hb
  | r :: rs, h => by
    rw [Rule.walkMembers, List.forall_mem_append] at h
    have hr := Rule.flatten_unranked owner r h.1
    refine .bind hr fun alternatives => ?_
    split
    · refine .bind (stepLogic_spares.auxiliary owner "seq"
        (hr.weaken fun as _ => Alternative.All.trivial as)) fun s => ?_
      refine (flattenSequence_unranked owner _ rs h.2).weaken fun as has _ _ hb => has ?_
      exact product_unranked hb (List.forall_mem_singleton.2 rfl)
    · refine (flattenSequence_unranked owner _ rs h.2).weaken fun as has halternatives hb => has ?_
      exact product_unranked hb halternatives

theorem flattenChoice_unranked (owner : String) : (members : List Rule) →
    (∀ q ∈ Rule.walkMembers members, q.kind.isPrecedence = false) →
    Spares (flattenChoice owner members) fun as => ∀ a ∈ as, a.priority = 0
  | [], _ => .pure fun _ ha => absurd ha List.not_mem_nil
  | r :: rs, h => by
    rw [Rule.walkMembers, List.forall_mem_append] at h
    refine .bind (Rule.flatten_unranked owner r h.1) fun alternatives => ?_
    refine .bind (flattenChoice_unranked owner rs h.2) fun as => .pure fun has halternatives => ?_
    exact List.forall_mem_append.2 ⟨halternatives, has⟩

end

/-- The level of the precedence around a rule is its priority, if it is above zero. -/
theorem Rule.flatten_ranks (r : Rule) {m : Int} (h : r.Ranks m) :
    Spares (r.flatten owner) fun as => ∀ a ∈ as, a.priority = max 0 m := by
  obtain ⟨hk, hm, hc⟩ | ⟨hu, rfl⟩ := h
  · obtain ⟨kind, value, name, content, members, named, flags, context⟩ := r
    have hraise : Spares (do return (← flattenContent owner kind content).map (raise m))
        fun as => ∀ a ∈ as, a.priority = max 0 m := by
      refine .bind (Q := fun as => ∀ a ∈ as, a.priority = 0) ?_ fun as => .pure fun has => ?_
      · cases content with
        | none => exact .throw
        | some c => exact c.flatten_unranked owner (hc c rfl)
      · intro a ha
        obtain ⟨a, ham, rfl⟩ := List.mem_map.1 ha
        rw [raise, has a ham]
    rw [← hm] at hraise ⊢
    cases kind with
    | precedence | precedenceLeft | precedenceRight | precedenceDynamic => exact hraise
    | _ => cases hk
  · exact r.flatten_unranked owner hu

end

/-- What the alternatives of a rule stand for, and their priority if the rule has a level. -/
structure Tables.Lists (t : Tables) (v : Vocabulary) (owner : String) (r : Rule)
    (as : List Alternative) : Prop where
  places : t.expansions as = r.places v owner
  priority : ∀ {m}, r.Ranks m → ∀ a ∈ as, a.priority = max 0 m

section

variable {g : Grammar} {t : Tables} {v : Vocabulary} {owner : String}

theorem Rule.flatten_lists (r : Rule) : Makes g t v (r.flatten owner) (t.Lists v owner r) := by
  intro d as d' hb h
  obtain ⟨hb', hg, hq⟩ := r.flatten_makes g t v owner d as d' hb h
  exact ⟨hb', hg, fun hk => ⟨hq hk, fun hm => (r.flatten_ranks hm d as d' h).2.2⟩⟩

/-- The alternatives of a choice are those of its members, one after the other. -/
theorem flattenChoice_lists (members : List Rule) :
    Makes g t v (flattenChoice owner members) fun as => ∃ blocks,
      as = blocks.flatten ∧ List.Forall₂ (t.Lists v owner) members blocks := by
  induction members with
  | nil => exact .pure ⟨[], rfl, .nil⟩
  | cons r rs ih =>
      refine .bind r.flatten_lists fun block => .bind ih fun as => .pure fun has hblock => ?_
      obtain ⟨blocks, rfl, hblocks⟩ := has
      exact ⟨block :: blocks, rfl, .cons hblock hblocks⟩

end

namespace Grammar

variable {g : Grammar} {t : Tables} {v : Vocabulary} {d d' : Draft} {rules : List (String × Rule)}
  {e : String × Rule} {u : PUnit} {s : Symbol} {name : String} {rule : Rule}

/-- A rule of another name leaves a symbol its alternatives. -/
theorem defineRule_spares (h : defineRule e d = .ok (u, d')) (hs : s < d.symbols.size)
    (hn : d.byName.lookup e.1 ≠ some s) :
    alternativesOf d'.productions s = alternativesOf d.productions s := by
  obtain ⟨s', hl, ⟨-, as, d₁, has, rfl⟩ | ⟨-, tokens, -, rfl⟩⟩ := defineRule_eq_ok h
  · have hne : ∀ p ∈ as.map (plainProduction s'), p.lhs ≠ s := by
      rintro p hp rfl
      obtain ⟨a, -, rfl⟩ := List.mem_map.1 hp
      exact hn hl
    rw [alternativesOf_append, alternativesOf_eq_nil hne, List.append_nil]
    exact (stepLogic_spares.flatten e.1 e.2 d as d₁ has).2.1 s hs
  · rfl

theorem defineRules_spares (hb : d.Binds g) (h : rules.forM defineRule d = .ok (u, d'))
    (hs : s < d.symbols.size) (hn : ∀ e ∈ rules, d.byName.lookup e.1 ≠ some s) (t : Tables)
    (v : Vocabulary) : alternativesOf d'.productions s = alternativesOf d.productions s := by
  induction rules generalizing d with
  | nil =>
      cases h
      rfl
  | cons e rules ih =>
      obtain ⟨_, d₁, h₁, h⟩ := bind_eq_ok h
      have hdef : Draft.Defines g t v [e] d d₁ := defineRule_defines hb h₁
      obtain ⟨he, hrules⟩ := List.forall_mem_cons.1 hn
      rw [ih hdef.binds h (hs.trans_le hdef.later.symbols.size_le) (hdef.later.byName ▸ hrules),
        defineRule_spares h₁ hs he]

/-- The alternatives of a symbol are those that its rule is flattened to. The rules before this one
do not have its name, and neither do those behind it. -/
theorem alternativesOf_defineRules {Q : List Alternative → Prop}
    (hq : Makes g t v (rule.flatten name) Q) (hb : d.Binds g)
    (h : rules.forM defineRule d = .ok (u, d')) (hkeeps : t.Keeps v d d')
    (hnodup : (rules.map Prod.fst).Nodup) (hm : (name, rule) ∈ rules)
    (hl : d.byName.lookup name = some s) (hk : d.symbols[s]?.map (·.kind) = some .nonterminal)
    (hempty : alternativesOf d.productions s = []) : Q (alternativesOf d'.productions s) := by
  induction rules generalizing d with
  | nil => exact absurd hm List.not_mem_nil
  | cons e rules ih =>
      obtain ⟨_, d₁, h₁, h₂⟩ := bind_eq_ok h
      have hdef : Draft.Defines g t v [e] d d₁ := defineRule_defines hb h₁
      have hrest : Draft.Defines g t v rules d₁ d' := defineRules_defines hdef.binds h₂
      have hs := Draft.lt_size_of_kind hk
      have hs₁ := hs.trans_le hdef.later.symbols.size_le
      have hl₁ : d₁.byName.lookup name = some s := hdef.later.byName ▸ hl
      rw [List.map_cons, List.nodup_cons] at hnodup
      obtain rfl | hm := List.mem_cons.1 hm
      · have hother : ∀ e ∈ rules, d₁.byName.lookup e.1 ≠ some s := fun e he hle =>
          hnodup.1 (List.mem_map.2 ⟨e, he, hdef.binds.name_eq hle hl₁⟩)
        rw [defineRules_spares hdef.binds h₂ hs₁ hother t v]
        obtain ⟨s', hl', ⟨-, as, d₂, has, rfl⟩ | ⟨hk', -⟩⟩ := defineRule_eq_ok h₁
        · obtain rfl : s = s' := Option.some.inj (hl.symm.trans hl')
          obtain ⟨-, hg, has'⟩ := hq d as d₂ hb has
          have hold := (stepLogic_spares.flatten name rule d as d₂ has).2.1 s hs
          rw [alternativesOf_append, alternativesOf_plainProduction, hold, hempty, List.nil_append]
          exact has' (hkeeps.left
            ((Draft.later_pushProductions as (hg.symbols.kind hk)).trans hrest.later))
        · obtain rfl : s = s' := Option.some.inj (hl.symm.trans hl')
          exact absurd hk hk'
      · have hne : d.byName.lookup e.1 ≠ some s := fun hle =>
          hnodup.1 (List.mem_map.2 ⟨(name, rule), hm, hb.name_eq hl hle⟩)
        refine ih hdef.binds h₂ (hkeeps.right hdef.later.symbols.size_le) hnodup.2 hm hl₁
          (hdef.later.symbols.kind hk) ?_
        rw [defineRule_spares h₁ hs hne, hempty]

end Grammar

def Tables.alternative (t : Tables) (p : Nat) : Alternative := ⟨t.steps p, t.priority p⟩

namespace Grammar

variable {g : Grammar} {t : Tables} {hasScanner : Bool} {s : Symbol}

theorem map_alternative (h : g.tables hasScanner = .ok t) (s : Symbol) :
    (t.productionsOf s).map t.alternative = alternativesOf t.productions s := by
  have hlist : t.productions.toList =
      (List.range t.productions.size).map fun p => ⟨t.lhs p, t.steps p, t.priority p⟩ := by
    refine List.ext_getElem (by simp) fun i hi _ => ?_
    have hlt : i < t.productions.size := by simpa using hi
    simp [Tables.lhs, Tables.steps, Tables.priority, hlt]
  rw [productionsOf_eq h, alternativesOf, hlist, List.filter_map, List.map_map]
  rfl

/-- What can be said of the alternatives that a rule is flattened to holds of those that its symbol
has in the tables. -/
theorem exists_alternatives (h : g.tables hasScanner = .ok t) : ∃ v : Vocabulary, g.Speaks v t ∧
    ∀ {name rule s} {Q : List Alternative → Prop}, g.rules.find? name = some rule →
      v.name? name = some s → t.symbols[s]?.map (·.kind) = some .nonterminal →
      Makes g t v (rule.flatten name) Q → Q ((t.productionsOf s).map t.alternative) := by
  obtain ⟨names, d, d', hb⟩ := exists_builds h
  refine ⟨d'.vocabulary, hb.speaks, ?_⟩
  obtain ⟨hd, -, ⟨u, hrun⟩, hdef, hkeeps, -, hstart, -, start, top, -, -, hproductions⟩ := hb
  intro name rule s Q hr hl hk hq
  have hl : d.byName.lookup name = some s := hdef.later.byName ▸ hl
  obtain ⟨info, hi, -⟩ := hd.binds.names _ (mem_of_lookup hl)
  have hkd : d.symbols[s]?.map (·.kind) = some .nonterminal := by
    rw [hkeeps.symbols (hdef.later.symbols s info hi)] at hk
    rw [hi]
    exact hk
  have hs : s < d'.symbols.size := Draft.lt_size_of_kind (hdef.later.symbols.kind hkd)
  have hlast : alternativesOf t.productions s = alternativesOf d'.productions s := by
    have hne : ∀ p ∈ [(⟨t.start, [{ symbol := top }], 0⟩ : Production)], p.lhs ≠ s :=
      List.forall_mem_singleton.2 (hstart ▸ hs.ne')
    rw [hproductions, ← Array.append_singleton, alternativesOf_append, alternativesOf_eq_nil hne,
      List.append_nil]
  rw [map_alternative h, hlast]
  refine alternativesOf_defineRules hq hd.binds hrun hkeeps g.nodup_orderedRules
    (g.mem_orderedRules.2 hr) hl hkd ?_
  rw [hd.productions]
  rfl

end Grammar

theorem exists_flatten_of_map {α β : Type} {f : α → β} {l : List α} {bs : List (List β)}
    (h : l.map f = bs.flatten) : ∃ ls : List (List α), l = ls.flatten ∧ bs = ls.map (List.map f) := by
  induction bs generalizing l with
  | nil => exact ⟨[], List.map_eq_nil_iff.1 h, rfl⟩
  | cons b bs ih =>
      obtain ⟨first, rest, rfl, rfl, hrest⟩ := List.map_eq_append_iff.1 h
      obtain ⟨ls, rfl, rfl⟩ := ih hrest
      exact ⟨first :: ls, rfl, rfl⟩

/-- In their order, the productions of the symbol are those of the members one after the other. -/
structure Tables.Splits (t : Tables) (v : Vocabulary) (owner : String) (s : Symbol)
    (members : List Rule) (blocks : List (List Nat)) : Prop where
  productions : t.productionsOf s = blocks.flatten
  members : List.Forall₂ (fun r ps => t.Lists v owner r (ps.map t.alternative)) members blocks

namespace Grammar

variable {g : Grammar} {t : Tables} {hasScanner : Bool}

theorem exists_splits (h : g.tables hasScanner = .ok t) : ∃ v : Vocabulary, g.Speaks v t ∧
    ∀ {name rule s}, g.rules.find? name = some rule → rule.kind = .choice →
      v.name? name = some s → t.symbols[s]?.map (·.kind) = some .nonterminal →
      ∃ blocks, t.Splits v name s rule.members blocks := by
  obtain ⟨v, hv, halternatives⟩ := exists_alternatives h
  refine ⟨v, hv, fun {name rule s} hr hchoice hs hk => ?_⟩
  obtain ⟨kind, value, label, content, members, named, flags, context⟩ := rule
  obtain rfl : kind = .choice := hchoice
  obtain ⟨blocks, hmap, hblocks⟩ := halternatives hr hs hk (flattenChoice_lists members)
  obtain ⟨ps, hps, rfl⟩ := exists_flatten_of_map hmap
  exact ⟨ps, hps, List.forall₂_map_right_iff.1 hblocks⟩

end Grammar

namespace Tables.Splits

variable {t : Tables} {v : Vocabulary} {owner : String} {s : Symbol} {members : List Rule}
  {blocks : List (List Nat)} {r : Rule} {ps : List Nat} {m : Int} {p : Nat}
  (h : t.Splits v owner s members blocks)

include h

theorem priority_eq (hr : (r, ps) ∈ members.zip blocks) (hm : r.Ranks m) (hp : p ∈ ps) :
    t.priority p = max 0 m :=
  (List.forall₂_zip h.members hr).priority hm (t.alternative p) (List.mem_map_of_mem hp)

theorem exists_member (hp : p ∈ t.productionsOf s) :
    ∃ r ps, (r, ps) ∈ members.zip blocks ∧ p ∈ ps := by
  rw [h.productions, ← List.map_snd_zip h.members.length_eq.ge] at hp
  obtain ⟨ps, hps, hp⟩ := List.mem_flatten.1 hp
  obtain ⟨⟨r, ps⟩, hm, rfl⟩ := List.mem_map.1 hps
  exact ⟨r, ps, hm, hp⟩

end Tables.Splits

end EarleyTree

import EarleyTree.Proofs.Language.Levels
import EarleyTree.Proofs.Parsing.Canonical

/-!
Levels of precedence in the tree of an accepted text: where two alternatives of a choice are completed
over one stretch, the one of the higher level is taken, if that level is above zero.
-/
namespace EarleyTree

/-- The productions that derivation trees are made of, each with the stretch that it derives. -/
def Forest.nodes (t : Tables) : Forest → Nat → List (Stretch × Nat)
  | nil, _ => []
  | unit next, i => next.nodes t (i + 1)
  | expand p inner next, i =>
    (⟨t.lhs p, i, i + inner.width⟩, p) :: (inner.nodes t i ++ next.nodes t (i + inner.width))

theorem Forest.nodes_append (t : Tables) (f g : Forest) (i : Nat) :
    (f.append g).nodes t i = f.nodes t i ++ g.nodes t (i + f.width) := by
  induction f generalizing i with
  | nil => rfl
  | unit next ih => rw [append, nodes, nodes, ih, width, Nat.add_right_comm, Nat.add_assoc]
  | expand p inner next _ ih =>
      rw [append, nodes, nodes, ih, width, List.cons_append, List.append_assoc, Nat.add_assoc]

namespace Derivation

variable {x : Derivation} {s : Stretch} {p o stop : Nat} {rev : List Step} {f : Forest}

/-- At each node of the tree stands the best production of its stretch. -/
def PrefersAll (x : Derivation) (f : Forest) (i : Nat) : Prop :=
  ∀ n ∈ f.nodes x.tables i, x.Best n.1 n.2

theorem PrefersAll.append {g : Forest} {i j : Nat} (hf : x.PrefersAll f i)
    (hg : x.PrefersAll g j) (hj : i + f.width = j) : x.PrefersAll (f.append g) i := by
  rw [PrefersAll, Forest.nodes_append, hj]
  exact List.forall_mem_append.2 ⟨hf, hg⟩

theorem Chosen.prefersAll (hx : x.Sound) (hf : x.Chosen p o rev stop f) : x.PrefersAll f o := by
  induction hf with
  | nil => exact fun _ hm => absurd hm List.not_mem_nil
  | token _ _ _ hf ih =>
      exact ih.append (fun _ hm => absurd hm List.not_mem_nil) (hf.covers hx).add_width
  | split _ _ hq hg hf ihg ihf =>
      obtain ⟨-, hl, -⟩ := hx.of_mem_completed hq.mem
      refine ihf.append ?_ (hf.covers hx).add_width
      rw [PrefersAll, Forest.nodes, Forest.nodes, List.append_nil, hl, (hg.covers hx).add_width]
      exact List.forall_mem_cons.2 ⟨hq, ihg⟩

/-- The tree of a text without cyclic derivations is what the preferred derivation of the start rule
is shown as. -/
theorem acceptedRoot_prefersAll (hx : x.Sound) (he : x.Exact)
    (htokens : ∀ u ∈ x.units, ∃ t, u = .token t)
    (hs : x.Completes ⟨x.tables.start, 0, x.units.size⟩) (hacyclic : x.Acyclic) :
    Extract.Meets x.Keeps x.acceptedRoot (Finds False fun root =>
      ∃ f, x.Parses f ∧ x.PrefersAll f 0 ∧ root.skeleton = x.rootImage (x.shown f)) := by
  have hshown : Extract.Meets x.Keeps (x.deriveStretch ⟨x.tables.start, 0, x.units.size⟩)
      (Finds False fun ts =>
        ∃ f, x.Parses f ∧ x.PrefersAll f 0 ∧ Subtree.skeletonAll ts = x.shown f) := by
    refine (deriveStretch_renders hx he htokens hs hacyclic).weaken fun r hr => ?_
    cases r with
    | none => exact hr
    | some entries =>
        obtain ⟨p, f, hf, himage⟩ := hr
        obtain ⟨hp, hl, -⟩ := hx.of_mem_completed hf.best.mem
        have hcovers := hf.covers hx
        rw [hx.steps_start hp hl] at hcovers himage
        exact ⟨f, hcovers, hf.chosen.prefersAll hx, himage⟩
  refine (acceptedRoot_of_deriveStretch
    (P := fun trees => ∃ f, x.Parses f ∧ x.PrefersAll f 0 ∧ trees = x.shown f)
    hshown).weaken fun r hr => ?_
  cases r with
  | none => exact hr
  | some root =>
      obtain ⟨_, ⟨f, hf, hbest, rfl⟩, hroot⟩ := hr
      exact ⟨f, hf, hbest, hroot⟩

/-- One of the productions is completed over the stretch. -/
def CompletesBy (x : Derivation) (s : Stretch) (ps : List Nat) : Prop :=
  ∃ p ∈ ps, p ∈ (x.setAt s.stop).completed x.tables s.symbol s.start

/-- Where an alternative is completed over a stretch it does not exceed the level, or, if it has no
level of its own, its productions do not exceed that as a priority. -/
def Within (x : Derivation) (s : Stretch) (level : Int) (alternatives : List (Rule × List Nat)) :
    Prop :=
  ∀ a ∈ alternatives, ∀ p ∈ a.2, p ∈ (x.setAt s.stop).completed x.tables s.symbol s.start →
    (∃ k ≤ level, a.1.Ranks k) ∨ x.tables.priority p ≤ level

/-- Where an alternative of a level above zero is completed over the stretch, and none of a higher
one, the production belongs to an alternative of this level, and to none of a lower one. -/
def TakesHighest (x : Derivation) (s : Stretch) (p : Nat) (alternatives : List (Rule × List Nat)) :
    Prop :=
  ∀ r ps m, (r, ps) ∈ alternatives → r.Ranks m → 0 < m → x.CompletesBy s ps →
    x.Within s m alternatives →
    (∃ r ps, (r, ps) ∈ alternatives ∧ p ∈ ps ∧ ∀ k, r.Ranks k → k = m) ∧
      ∀ r ps k, (r, ps) ∈ alternatives → r.Ranks k → k < m → p ∉ ps

section

variable {v : Vocabulary} {owner : String} {members : List Rule} {blocks : List (List Nat)}
  {r : Rule} {ps : List Nat} {m n : Int}

theorem Best.priority_eq (hx : x.Sound) (hsplits : x.tables.Splits v owner s.symbol members blocks)
    (hp : x.Best s p) (hr : (r, ps) ∈ members.zip blocks) (hm : r.Ranks m) (hpos : 0 < m)
    (hps : x.CompletesBy s ps) (hmax : x.Within s m (members.zip blocks)) :
    x.tables.priority p = m := by
  obtain ⟨q, hq, hcompleted⟩ := hps
  have hpriority := hsplits.priority_eq hr hm hq
  have hprecedes := hp.precedes q hcompleted
  obtain ⟨hlt, hl, -⟩ := hx.of_mem_completed hp.mem
  obtain ⟨r', ps', hr', hp'⟩ :=
    hsplits.exists_member (hx.wellFormed.mem_productionsOf.2 ⟨hlt, hl⟩)
  have hle : x.tables.priority p ≤ m := by
    obtain ⟨k, hk, hranks⟩ | hle := hmax _ hr' p hp' hp.mem
    · rw [hsplits.priority_eq hr' hranks hp']
      omega
    · exact hle
  rw [Precedes] at hprecedes
  omega

/-- The best production is one of the highest level. -/
theorem Best.takesHighest (hx : x.Sound)
    (hsplits : x.tables.Splits v owner s.symbol members blocks) (hp : x.Best s p) :
    x.TakesHighest s p (members.zip blocks) := by
  intro r ps m hr hm hpos hps hmax
  have hpriority := hp.priority_eq hx hsplits hr hm hpos hps hmax
  obtain ⟨hlt, hl, -⟩ := hx.of_mem_completed hp.mem
  obtain ⟨r', ps', hr', hp'⟩ :=
    hsplits.exists_member (hx.wellFormed.mem_productionsOf.2 ⟨hlt, hl⟩)
  refine ⟨⟨r', ps', hr', hp', fun k hk => ?_⟩, fun r ps k hr hk hkm hp => ?_⟩
  · have hlevel := hsplits.priority_eq hr' hk hp'
    omega
  · have hlevel := hsplits.priority_eq hr hk hp
    omega

end

end Derivation

theorem ParseState.Ends.parse_of_acceptedRoot {l : Language} {text : List Char} {era : Nat}
    {st : ParseState} {root : Subtree} {m : Memory} (h : Ends (.fresh l text era) st)
    (hroot : st.acceptedRoot? (.fresh l text era) = some (some root, m)) (order : KeyOrder) :
    l.parse text none era order = ⟨l, st.finish (.fresh l text era) root⟩ := by
  rw [h.parse_none, tree, hroot]
  rfl

/-- The tree of an accepted text, if none of its derivations is cyclic, is what a derivation is shown
as that takes the best production at each node. -/
theorem ParseState.Ends.parse_prefersAll {l : Language} {text : List Char} {era : Nat}
    {st : ParseState} (ht : l.tables.WellFormed) (h : Ends (.fresh l text era) st)
    (ha : st.chart.accepts l.tables = true) (hc : (st.derivation (.fresh l text era)).Acyclic) :
    ∃ root f, (∀ order, l.parse text none era order = ⟨l, st.finish (.fresh l text era) root⟩) ∧
      root.skeleton = (st.derivation (.fresh l text era)).rootImage
        ((st.derivation (.fresh l text era)).shown f) ∧
      (st.derivation (.fresh l text era)).Parses f ∧
      (st.derivation (.fresh l text era)).PrefersAll f 0 := by
  have ht : (ParseInput.fresh l text era).tables.WellFormed := ht
  have hcons := h.consistent ht
  obtain ⟨r, m, hrun, -, hr⟩ := Derivation.acceptedRoot_prefersAll
    (hcons.derivation_sound ht fun t hm => absurd hm List.not_mem_nil) (h.derivation_exact ht rfl)
    (h.units_eq_tokens ht rfl) (hcons.completes_start ha) hc {} Derivation.keeps_empty
  cases r with
  | none => exact hr.elim
  | some root =>
      obtain ⟨f, hf, hbest, hroot⟩ := hr
      exact ⟨root, f, h.parse_of_acceptedRoot ((if_pos ha).trans hrun), hroot, hf, hbest⟩

/-- In the tree of an accepted text, a choice is made for an alternative of the highest level among
those that are completed over the stretch, and not for one of a lower level, wherever they stand in
the choice. The level must be above zero. -/
theorem Language.ranks_alternatives {g : Grammar} {scanner : Option Scanner} {handle : Nat}
    {l : Language} (hl : Language.compile g scanner handle = .ok l) :
    ∃ v : Vocabulary, g.Speaks v l.tables ∧ ∀ name rule s, g.rules.find? name = some rule →
      rule.kind = .choice → v.name? name = some s →
      l.tables.symbols[s]?.map (·.kind) = some .nonterminal →
      ∃ blocks, l.tables.Splits v name s rule.members blocks ∧
        ∀ text era st, (ParseInput.fresh l text era).final? = some st →
          st.chart.accepts l.tables = true → (st.derivation (.fresh l text era)).Acyclic →
          ∃ root f,
            (∀ order, l.parse text none era order = ⟨l, st.finish (.fresh l text era) root⟩) ∧
            root.skeleton = (st.derivation (.fresh l text era)).rootImage
              ((st.derivation (.fresh l text era)).shown f) ∧
            (st.derivation (.fresh l text era)).Parses f ∧
            ∀ node ∈ f.nodes l.tables 0, node.1.symbol = s →
              (st.derivation (.fresh l text era)).TakesHighest node.1 node.2
                (rule.members.zip blocks) := by
  have ht := Language.compile_wellFormed hl
  obtain ⟨v, hv, hsplits⟩ := Grammar.exists_splits (Language.tables_of_compile hl)
  refine ⟨v, hv, fun name rule s hr hchoice hs hk => ?_⟩
  obtain ⟨blocks, hblocks⟩ := hsplits hr hchoice hs hk
  refine ⟨blocks, hblocks, fun text era st hst ha hc => ?_⟩
  have h := ParseState.final?_eq_some.1 hst
  obtain ⟨root, f, hparse, hroot, hf, hbest⟩ := h.parse_prefersAll ht ha hc
  refine ⟨root, f, hparse, hroot, hf, fun node hnode hsym => ?_⟩
  have hx : (st.derivation (.fresh l text era)).Sound :=
    ParseState.Consistent.derivation_sound (p := .fresh l text era) ht (h.consistent ht)
      fun t hm => absurd hm List.not_mem_nil
  subst hsym
  exact (hbest node hnode).takesHighest hx hblocks

/-- A choice between two rules for the same text. -/
def twoWays (first second : Rule) : Grammar :=
  ((({ name := "ways" } : Grammar).define "ways" (.oneOf [first, second])).define "a"
    (.seq [.literal "x"])).define "b" (.seq [.literal "x"])

/-- The start symbol stands above the choice, this one above its two rules, and those above the text. -/
def waysRank (x : Derivation) (s : Symbol) : Nat :=
  if s = x.tables.start then 3 else if s = x.startRule then 2
  else if x.tables.isNonterminal s then 1 else 0

theorem ranks_alternatives_twoWays : ∃ l st f p b,
    Language.compile (twoWays (.ranked (-1) (.ref "a")) (.ranked 2 (.ref "b"))) none 0 = .ok l ∧
    (ParseInput.fresh l ['x'] 0).final? = some st ∧
    (st.derivation (.fresh l ['x'] 0)).Parses f ∧
    (⟨(st.derivation (.fresh l ['x'] 0)).startRule, 0, 1⟩, p) ∈ f.nodes l.tables 0 ∧
    l.tables.priority p = 2 ∧ l.kindId? "b" true = some b ∧
    (l.parse ['x'] none 0).root.children.map Subtree.symbol = [b] := by
  obtain ⟨l, st, hl, hends, htest⟩ := ParseState.exists_of_endsWith
    (show ParseState.endsWith (twoWays (.ranked (-1) (.ref "a")) (.ranked 2 (.ref "b"))) none ['x']
        (fun l st =>
          let x := st.derivation (.fresh l ['x'] 0)
          let done := (x.setAt 1).completed l.tables x.startRule 0
          st.chart.accepts l.tables && l.tables.stepsDescend (waysRank x) &&
            decide (x.units.size = 1) && x.units.toList.all (fun u => u.symbol != x.startRule) &&
            done.all (fun p => decide (l.tables.priority p ≤ 2)) &&
            (l.tables.productionsOf x.startRule).any (fun p =>
              done.contains p && decide (l.tables.priority p = 2)) &&
            (List.range l.tables.symbols.size).all (fun s => l.tables.symbols[s]?.all fun info =>
              info.name != "ways" || decide (s = x.startRule ∧ info.kind = .nonterminal)) &&
            (l.kindId? "b" true).any fun b =>
              decide ((st.tree (.fresh l ['x'] 0) .entered).children.map Subtree.symbol = [b])) =
        true by
      decide +kernel)
  simp only [Bool.and_eq_true] at htest
  obtain ⟨⟨⟨⟨⟨⟨⟨ha, hrank⟩, hsize⟩, hunits⟩, hmax⟩, hdone⟩, hname⟩, hb⟩ := htest
  obtain ⟨b, hb, hroot⟩ := (Option.any_eq_true _ _).1 hb
  obtain ⟨q, hq, hdone⟩ := List.any_eq_true.1 hdone
  obtain ⟨hdone, hpriority⟩ := Bool.and_eq_true_iff.1 hdone
  obtain ⟨v, hv, hranks⟩ := Language.ranks_alternatives hl
  have hrule : ((twoWays (.ranked (-1) (.ref "a")) (.ranked 2 (.ref "b"))).rules.find? "ways").isSome :=
    rfl
  obtain ⟨s, hs⟩ := Option.isSome_iff_exists.1 (hv.bound (.inr hrule))
  obtain ⟨rfl, hk⟩ : s = (st.derivation (.fresh l ['x'] 0)).startRule ∧
      l.tables.symbols[s]?.map (·.kind) = some .nonterminal := by
    obtain ⟨info, hi, hi', -⟩ := hv.names hs
    have hlt := (Array.getElem?_eq_some_iff.1 hi).1
    have htest := List.all_eq_true.1 hname s (List.mem_range.2 hlt)
    rw [hi, Option.all_some, hi', bne_self_eq_false, Bool.false_or, decide_eq_true_iff] at htest
    exact ⟨htest.1, by rw [hi, Option.map_some, htest.2]⟩
  obtain ⟨blocks, hsplits, htree⟩ := hranks "ways" _ _ rfl rfl hs hk
  obtain ⟨root, f, -, -, hf, hnodes⟩ := htree ['x'] 0 st (ParseState.final?_eq_some.2 hends) ha
    (.of_noncyclic (Language.compile_wellFormed hl) (Tables.noncyclic_of_stepsDescend hrank))
  obtain ⟨low, high, rfl⟩ : ∃ low high, blocks = [low, high] := by
    obtain _ | ⟨-, _ | ⟨-, _ | _⟩⟩ := hsplits.members
    exact ⟨_, _, rfl⟩
  have hlow : ∀ p ∈ low, l.tables.priority p = 0 := fun p =>
    hsplits.priority_eq (m := -1) List.mem_cons_self (by decide)
  have hhigh : ∀ p ∈ high, l.tables.priority p = 2 := fun p =>
    hsplits.priority_eq (m := 2) (List.mem_cons_of_mem _ List.mem_cons_self) (by decide)
  have hqhigh : q ∈ high := by
    rw [hsplits.productions, List.flatten_cons, List.flatten_cons, List.flatten_nil,
      List.append_nil, List.mem_append] at hq
    refine hq.resolve_left fun hq => ?_
    rw [hlow q hq] at hpriority
    cases hpriority
  obtain ⟨u, -, hu, htakes, -⟩ | ⟨p, g, rfl, -, hp, hg⟩ := hf.of_singleton
  · have hne := List.all_eq_true.1 hunits u (Array.mem_toList_iff.2 (Array.mem_of_getElem? hu))
    exact absurd htakes.1.symm (by simpa using hne)
  have hlhs : l.tables.lhs p = (st.derivation (.fresh l ['x'] 0)).startRule := hp
  have hnode : (⟨(st.derivation (.fresh l ['x'] 0)).startRule, 0, 1⟩, p) ∈
      (Forest.expand p g .nil).nodes l.tables 0 := by
    rw [Forest.nodes, hg.add_width, of_decide_eq_true hsize, hlhs]
    exact List.mem_cons_self
  obtain ⟨⟨r, ps, hr, hps, hlevel⟩, -⟩ := hnodes _ hnode rfl _ high 2
    (List.mem_cons_of_mem _ List.mem_cons_self) (by decide) (by decide)
    ⟨q, hqhigh, List.contains_iff_mem.1 hdone⟩
    fun _ _ p _ hp => .inr (of_decide_eq_true (List.all_eq_true.1 hmax p hp))
  rw [decide_eq_true_iff, ← hends.root_parse_none] at hroot
  refine ⟨l, st, _, p, b, hl, ParseState.final?_eq_some.2 hends, hf, hnode, ?_, hb, hroot⟩
  obtain hr | hr := List.mem_cons.1 hr
  · cases hr
    exact absurd (hlevel (-1) (by decide)) (by decide)
  · cases List.mem_singleton.1 hr
    exact hhigh p hps

theorem not_ranks_twoWays : ∃ l st a b,
    Language.compile (twoWays (.ranked (-1) (.ref "a")) (.ref "b")) none 0 = .ok l ∧
    (Rule.ranked (-1) (.ref "a")).Ranks (-1) ∧ (Rule.ref "b").Ranks 0 ∧
    (ParseInput.fresh l ['x'] 0).final? = some st ∧ st.chart.accepts l.tables = true ∧
    (st.derivation (.fresh l ['x'] 0)).Acyclic ∧
    l.kindId? "a" true = some a ∧ l.kindId? "b" true = some b ∧
    (((st.derivation (.fresh l ['x'] 0)).setAt 1).completed l.tables
      (st.derivation (.fresh l ['x'] 0)).startRule 0).map l.tables.steps =
        [[{ symbol := a }], [{ symbol := b }]] ∧
    (l.parse ['x'] none 0).root.children.map Subtree.symbol = [a] := by
  obtain ⟨l, st, hl, hends, htest⟩ := ParseState.exists_of_endsWith
    (show ParseState.endsWith (twoWays (.ranked (-1) (.ref "a")) (.ref "b")) none ['x'] (fun l st =>
        let x := st.derivation (.fresh l ['x'] 0)
        st.chart.accepts l.tables && l.tables.stepsDescend (waysRank x) &&
          (l.kindId? "a" true).any fun a => (l.kindId? "b" true).any fun b =>
            decide (((x.setAt 1).completed l.tables x.startRule 0).map l.tables.steps =
              [[{ symbol := a }], [{ symbol := b }]]) &&
            decide ((st.tree (.fresh l ['x'] 0) .entered).children.map Subtree.symbol = [a])) = true by
      decide +kernel)
  obtain ⟨hrank, htest⟩ := Bool.and_eq_true_iff.1 htest
  obtain ⟨ha, hrank⟩ := Bool.and_eq_true_iff.1 hrank
  obtain ⟨a, hka, htest⟩ := (Option.any_eq_true _ _).1 htest
  obtain ⟨b, hkb, htest⟩ := (Option.any_eq_true _ _).1 htest
  obtain ⟨hdone, hroot⟩ := Bool.and_eq_true_iff.1 htest
  rw [decide_eq_true_iff, ← hends.root_parse_none] at hroot
  exact ⟨l, st, a, b, hl, by decide, by decide, ParseState.final?_eq_some.2 hends, ha,
    .of_noncyclic (Language.compile_wellFormed hl) (Tables.noncyclic_of_stepsDescend hrank), hka, hkb,
    of_decide_eq_true hdone, hroot⟩

end EarleyTree

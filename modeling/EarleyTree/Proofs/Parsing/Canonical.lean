import EarleyTree.Proofs.Parsing.AcceptedTree
import Mathlib.Data.List.Sort
import Mathlib.Order.Bounds.Basic

/-!
The derivation that is read off a chart. Of the productions that derive a stretch the first in rank is
taken, and each nonterminal, from the last to the first, begins as late as the chart allows. Where no
derivation is cyclic these choices never have to be taken back.
-/
namespace EarleyTree

open Extract

namespace Derivation

variable {x : Derivation} {s : Stretch} {p q o k stop : Nat} {step : Step} {rev : List Step}
  {f g : Forest}

/-- The production of higher priority, or else the one defined earlier, comes first. -/
def Precedes (x : Derivation) (p q : Nat) : Prop :=
  x.tables.priority q < x.tables.priority p ∨
    x.tables.priority q = x.tables.priority p ∧ p ≤ q

instance : DecidableRel x.Precedes := fun _ _ => inferInstanceAs (Decidable (_ ∨ _))

instance : Std.Total x.Precedes where
  total p q := by
    rw [Precedes, Precedes]
    omega

instance : IsTrans Nat x.Precedes where
  trans p q r := by
    rw [Precedes, Precedes, Precedes]
    omega

theorem insertByRank_eq (p : Nat) (ps : List Nat) :
    x.insertByRank p ps = ps.orderedInsert x.Precedes p := by
  induction ps with
  | nil => rfl
  | cons q ps ih =>
      rw [insertByRank, List.orderedInsert_cons, ih]
      rfl

theorem ranked_eq (ps : List Nat) : x.ranked ps = ps.insertionSort x.Precedes := by
  induction ps with
  | nil => rfl
  | cons p ps ih =>
      rw [List.insertionSort_cons, ← ih, ← insertByRank_eq]
      rfl

theorem pairwise_ranked (ps : List Nat) : (x.ranked ps).Pairwise x.Precedes := by
  rw [ranked_eq]
  exact List.pairwise_insertionSort _ _

/-- Of the productions that derive the stretch, the first in rank. -/
structure Best (x : Derivation) (s : Stretch) (p : Nat) : Prop where
  mem : p ∈ (x.setAt s.stop).completed x.tables s.symbol s.start
  precedes : ∀ q ∈ (x.setAt s.stop).completed x.tables s.symbol s.start, x.Precedes p q

theorem Best.unique (hp : x.Best s p) (hq : x.Best s q) : p = q := by
  have hpq := hp.precedes q hq.mem
  have hqp := hq.precedes p hp.mem
  rw [Precedes] at hpq hqp
  omega

theorem Completes.exists_ranked (hs : x.Completes s) : ∃ p ps, x.Best s p ∧
    x.ranked ((x.setAt s.stop).completed x.tables s.symbol s.start) = p :: ps := by
  obtain ⟨item, hi, ho, hc, hl⟩ := ItemSet.completes_iff.1 hs
  have hmem : item.production ∈ x.ranked ((x.setAt s.stop).completed x.tables s.symbol s.start) :=
    mem_ranked.2 (ItemSet.mem_completed.2 ⟨item, hi, ho, hc, hl, rfl⟩)
  obtain ⟨p, ps, he⟩ := List.exists_cons_of_ne_nil (List.ne_nil_of_mem hmem)
  have hsorted := pairwise_ranked (x := x) ((x.setAt s.stop).completed x.tables s.symbol s.start)
  rw [he, List.pairwise_cons] at hsorted
  refine ⟨p, ps, ⟨mem_ranked.1 (he ▸ List.mem_cons_self), fun q hq => ?_⟩, he⟩
  obtain rfl | hq := List.mem_cons.1 (he ▸ mem_ranked.2 hq)
  · exact .inr ⟨rfl, Nat.le_refl _⟩
  · exact hsorted.1 q hq

/-- Where the chart has the step begin that ends at `stop`: it derives the units between, and the
steps before it derive those behind the origin. -/
def splits (x : Derivation) (p o d : Nat) (step : Step) (stop : Nat) : Set Nat :=
  {k | x.Completes ⟨step.symbol, k, stop⟩ ∧ (⟨p, d, o⟩ : Item) ∈ x.setAt k}

/-- The derivation of the steps of a production, which stand in reverse, from the origin up to a
place. -/
inductive Chosen (x : Derivation) : Nat → Nat → List Step → Nat → Forest → Prop
  | nil {p o : Nat} : Chosen x p o [] o .nil
  | token {p o i : Nat} {step : Step} {rev : List Step} {u : InputUnit} {f : Forest}
      (hk : x.tables.isTerminal step.symbol = true) (hu : x.units[i]? = some u) (hs : step.Takes u)
      (hf : Chosen x p o rev i f) : Chosen x p o (step :: rev) (i + 1) (f.append (.unit .nil))
  | split {p o k q stop : Nat} {step : Step} {rev : List Step} {f g : Forest}
      (hk : x.tables.isTerminal step.symbol = false)
      (hsplit : IsGreatest (x.splits p o rev.length step stop) k)
      (hq : x.Best ⟨step.symbol, k, stop⟩ q)
      (hg : Chosen x q k (x.tables.steps q).reverse stop g) (hf : Chosen x p o rev k f) :
      Chosen x p o (step :: rev) stop (f.append (.expand q g .nil))

/-- The derivation of a stretch: the best production, and its steps in turn. -/
structure Prefers (x : Derivation) (s : Stretch) (p : Nat) (f : Forest) : Prop where
  best : x.Best s p
  chosen : x.Chosen p s.start (x.tables.steps p).reverse s.stop f

theorem Chosen.unique (hf : x.Chosen p o rev stop f) (hg : x.Chosen p o rev stop g) : f = g := by
  induction hf generalizing g with
  | nil =>
      cases hg
      rfl
  | token hk hu hs _ ih =>
      cases hg with
      | token _ _ _ hg => rw [ih hg]
      | split hk' => cases hk.symm.trans hk'
  | split hk hsplit hq _ _ ihg ihf =>
      cases hg with
      | token hk' => cases hk.symm.trans hk'
      | split _ hsplit' hq' hg' hf' =>
          obtain rfl := hsplit.unique hsplit'
          obtain rfl := hq.unique hq'
          rw [ihg hg', ihf hf']

theorem Prefers.unique (hf : x.Prefers s p f) (hg : x.Prefers s q g) : p = q ∧ f = g := by
  obtain rfl := hf.best.unique hg.best
  exact ⟨rfl, hf.chosen.unique hg.chosen⟩

theorem Chosen.covers (hx : x.Sound) (hf : x.Chosen p o rev stop f) :
    f.Covers x.tables x.units rev.reverse o stop := by
  induction hf with
  | nil => exact .nil _
  | token _ hu hs _ ih =>
      rw [List.reverse_cons]
      exact ih.append (.singleton_unit hu hs)
  | split _ _ hq _ _ ihg ihf =>
      obtain ⟨hlt, hl, -⟩ := hx.of_mem_completed hq.mem
      rw [List.reverse_reverse] at ihg
      rw [List.reverse_cons]
      exact ihf.append (.singleton_expand hlt hl ihg)

theorem Prefers.covers (hx : x.Sound) (hf : x.Prefers s p f) :
    f.Covers x.tables x.units (x.tables.steps p) s.start s.stop := by
  have hcovers := hf.chosen.covers hx
  rwa [List.reverse_reverse] at hcovers

/-- The children are what the preferred derivation of the stretch is shown as. -/
def Renders (x : Derivation) (s : Stretch) (children : List Subtree) : Prop :=
  ∃ p f, x.Prefers s p f ∧ Subtree.skeletonAll children = x.image f (x.tables.steps p) s.start

/-- What is remembered are the children of preferred derivations. -/
def Keeps (x : Derivation) (m : Memory) : Prop :=
  ∀ s known, (s, known) ∈ m.memo → Finds False (x.Renders s) known

theorem lasting_keeps : Lasting x.Keeps := fun _ _ h => h

theorem keeps_empty : x.Keeps {} := fun _ _ h => absurd h List.not_mem_nil

theorem pairwise_placesDown (start stop : Nat) :
    (placesDown start stop).Pairwise fun j k => k < j :=
  List.pairwise_reverse.2 List.pairwise_lt_range'

/-- The first place, going down, at which a step fits is the greatest one. -/
theorem exists_greatest {fits : Nat → Bool} {start : Nat}
    (h : ∃ k ∈ placesDown start stop, fits k = true) :
    ∃ before k after, placesDown start stop = before ++ k :: after ∧ fits k = true ∧
      (∀ j ∈ before, fits j = false) ∧ ∀ j ∈ placesDown start stop, fits j = true → j ≤ k := by
  cases hfind : (placesDown start stop).find? fits with
  | none =>
      obtain ⟨k, hk, hfits⟩ := h
      exact absurd hfits (List.find?_eq_none.1 hfind k hk)
  | some k =>
      obtain ⟨hk, before, after, he, hbefore⟩ := List.find?_eq_some_iff_append.1 hfind
      have hbefore : ∀ j ∈ before, fits j = false := fun j hj => by simpa using hbefore j hj
      refine ⟨before, k, after, he, hk, hbefore, fun j hj hfits => ?_⟩
      have hsorted := pairwise_placesDown start stop
      rw [he] at hj hsorted
      obtain hj | hj := List.mem_append.1 hj
      · exact absurd ((hbefore j hj).symm.trans hfits) Bool.false_ne_true
      · obtain rfl | hj := List.mem_cons.1 hj
        · exact Nat.le_refl _
        · exact ((List.pairwise_cons.1 (List.pairwise_append.1 hsorted).2.1).1 j hj).le

theorem firstSplit_eq {I : Memory → Prop} {derive : Stretch → Extract (Option (List Subtree))}
    {fits : Nat → Bool} {before after : List Nat} (hbefore : ∀ j ∈ before, fits j = false)
    (hk : fits k = true) {P : List Subtree → Prop}
    (hm : Meets I (x.materialize derive step k stop) (Finds False P)) :
    Meets I (x.firstSplit derive step stop fits (before ++ k :: after))
      (Finds False fun r => r.1 = k ∧ P r.2) := by
  induction before with
  | nil =>
      rw [List.nil_append, firstSplit, if_pos hk]
      refine .bind hm fun r hr => ?_
      cases r with
      | none => exact hr.elim
      | some nodes => exact .pure ⟨rfl, hr⟩
  | cons j before ih =>
      obtain ⟨hj, hbefore⟩ := List.forall_mem_cons.1 hbefore
      rw [List.cons_append, firstSplit, if_neg (Bool.eq_false_iff.1 hj)]
      exact ih hbefore

section

variable (hx : x.Sound) (he : x.Exact) (htokens : ∀ u ∈ x.units, ∃ t, u = .token t)
  {derive : Stretch → Extract (Option (List Subtree))}

include htokens in
theorem reusedBefore_eq_none {start : Nat} {fits : Nat → Bool} :
    x.reusedBefore step start stop fits = none := by
  by_contra h
  obtain ⟨t, ht⟩ := Option.ne_none_iff_exists'.1 h
  obtain ⟨i, -, -, hu, -⟩ := reusedBefore_eq_some.1 ht
  obtain ⟨t', he⟩ := htokens _ (Array.mem_of_getElem? hu)
  cases he

include hx he htokens

/-- Accounting for the steps before a place: the induction is on the steps yet to come, and what was
derived behind the place is only added to the end. -/
theorem deriveSteps_renders (hp : p < x.tables.productions.size) (hl : x.tables.lhs p = s.symbol)
    (hd : ∀ c, x.Child c s → x.Completes c →
      Meets x.Keeps (derive c) (Finds False (x.Renders c)))
    (rev rest : List Step) (stop : Nat) (after : List Subtree)
    (hsteps : x.tables.steps p = rev.reverse ++ rest)
    (hi : (⟨p, rev.length, s.start⟩ : Item) ∈ x.setAt stop)
    (ha : x.Shows rest stop s.stop after) :
    Meets x.Keeps (x.deriveSteps derive p s.start rev stop after) (Finds False fun ts =>
      ∃ f, x.Chosen p s.start rev stop f ∧
        Subtree.skeletonAll ts = x.image f rev.reverse s.start ++ Subtree.skeletonAll after) := by
  induction rev generalizing rest stop after with
  | nil =>
      obtain ⟨f, hf⟩ := (hx.sound hi).covers
      obtain rfl : s.start = stop := by
        cases hf
        rfl
      rw [deriveSteps, if_pos rfl]
      exact .pure ⟨.nil, .nil, by rw [image_nil, List.nil_append]⟩
  | cons step rev ih =>
      rw [List.reverse_cons, List.append_assoc, List.singleton_append] at hsteps
      have hstep : (x.tables.steps p)[rev.length]? = some step := by simp [hsteps]
      rw [deriveSteps]
      dsimp only
      by_cases hk : x.tables.isTerminal step.symbol = true
      · obtain ⟨j, t, rfl, hu, ht, hj⟩ := hx.last_token hi hstep hk
        have hmem : (⟨p, rev.length, s.start⟩ : Item) ∈ x.setAt j := he hj
        rw [if_pos hk, if_pos (tokenBefore_iff.2
          ⟨j, t, rfl, hj.origin_le, hu, ht.1.symm, contains_setAt.2 hmem⟩), Nat.add_sub_cancel]
        refine .bind (materialize_terminal lasting_keeps hk hu) fun r hr => ?_
        obtain ⟨nodes, rfl, himage⟩ := hr
        have hshow : x.Shows [step] j (j + 1) nodes :=
          ⟨_, .singleton_unit hu ht, himage.trans (image_unit hu).symm⟩
        refine (ih (step :: rest) j (nodes ++ after) hsteps hmem (hshow.append ha)).weaken fun r hr => ?_
        cases r with
        | none => exact hr
        | some ts =>
            obtain ⟨f, hf, hts⟩ := hr
            refine ⟨_, .token hk hu ht hf, ?_⟩
            rw [hts, List.reverse_cons, image_append (hf.covers hx), image_unit hu,
              Subtree.skeletonAll_append, himage, List.append_assoc]
      · rw [if_neg hk, reusedBefore_eq_none htokens]
        obtain ⟨before, k, later, hplaces, hfits, hbefore, hgreatest⟩ :=
          exists_greatest (he.exists_fits hx hi hstep hk (reusedBefore_eq_none htokens))
        have hmem := Bool.and_eq_true_iff.1 hfits
        have hterminal := Bool.eq_false_iff.2 hk
        have hsplit : IsGreatest (x.splits p s.start rev.length step stop) k := by
          refine ⟨⟨hmem.1, contains_setAt.1 hmem.2⟩, fun j hj => ?_⟩
          have hle := (hx.sound hj.2).origin_le
          obtain ⟨_, _, -, -, hcovers⟩ := hx.exists_of_completes hj.1
          exact hgreatest j (mem_placesDown.2 ⟨hle, hcovers.le⟩)
            (Bool.and_eq_true_iff.2 ⟨hj.1, contains_setAt.2 hj.2⟩)
        have hchild := child_of_fits hx hp hl hsteps ha hsplit.1.1 hsplit.1.2
        have hnode := materialize_children lasting_keeps hterminal (C := False)
          (P := fun ts => ∃ q g, x.Prefers ⟨step.symbol, k, stop⟩ q g ∧
            ts = x.image g (x.tables.steps q) k) (hd _ hchild hsplit.1.1)
        rw [hplaces]
        refine .bind (firstSplit_eq hbefore hfits hnode) fun r hr => ?_
        cases r with
        | none => exact hr.elim
        | some r =>
            obtain ⟨k', nodes⟩ := r
            obtain ⟨rfl, _, ⟨q, g, hg, rfl⟩, himage⟩ := hr
            obtain ⟨hq, hlq, -⟩ := hx.of_mem_completed hg.best.mem
            rw [← image_expand (hg.covers hx)] at himage
            have hshow : x.Shows [step] k' stop nodes :=
              ⟨_, .singleton_expand hq hlq (hg.covers hx), himage⟩
            refine (ih (step :: rest) k' (nodes ++ after) hsteps hsplit.1.2
              (hshow.append ha)).weaken fun r hr => ?_
            cases r with
            | none => exact hr
            | some ts =>
                obtain ⟨f, hf, hts⟩ := hr
                refine ⟨_, .split hterminal hsplit hg.best hg.chosen hf, ?_⟩
                rw [hts, List.reverse_cons, image_append (hf.covers hx), Subtree.skeletonAll_append,
                  himage, List.append_assoc]

/-- The production that is tried first leads to children. -/
theorem firstProduction_renders {ps : List Nat}
    (hd : ∀ c, x.Child c s → x.Completes c →
      Meets x.Keeps (derive c) (Finds False (x.Renders c)))
    (hp : x.Best s p) :
    Meets x.Keeps (x.firstProduction derive s (p :: ps)) (Finds False (x.Renders s)) := by
  obtain ⟨hlt, hl, hi⟩ := hx.of_mem_completed hp.mem
  rw [firstProduction]
  refine .bind (deriveSteps_renders hx he htokens hlt hl hd _ [] s.stop [] (by simp)
    (by rwa [List.length_reverse]) (.nil _)) fun r hr => ?_
  cases r with
  | none => exact hr.elim
  | some children =>
      obtain ⟨f, hf, hchildren⟩ := hr
      rw [List.reverse_reverse, Subtree.skeletonAll, List.append_nil] at hchildren
      exact .pure ⟨p, f, ⟨hp, hf⟩, hchildren⟩

/-- The induction is on the depth; the stretches on the way down are too few to use it up. -/
theorem derive_renders {root : Stretch}
    (hacyclic : ∀ c, Relation.ReflTransGen x.Child c root → ¬Relation.TransGen x.Child c c)
    (depth : Nat) (active : List Stretch) (s : Stretch) (h : x.Descends root active s)
    (hdepth : x.depthBound ≤ depth + active.length) :
    Meets x.Keeps (x.derive depth active s) (Finds False (x.Renders s)) := by
  induction depth generalizing active s with
  | zero => exact absurd h.length_le (by omega)
  | succ depth ih =>
      rw [derive]
      refine .of_get fun m hm => ?_
      split
      · next known hk =>
          obtain ⟨before, after, he, -⟩ := List.lookup_eq_some_iff.1 hk
          exact .pure (hm s known (he ▸ List.mem_append_right before List.mem_cons_self))
      · have hs : s ∉ active := fun hm => hacyclic s h.below (h.above s hm)
        rw [if_neg (fun hm => hs (List.contains_iff_mem.1 hm))]
        obtain ⟨p, ps, hp, hranked⟩ := (h.complete s List.mem_cons_self).exists_ranked
        dsimp only
        rw [hranked]
        refine .bind (firstProduction_renders hx he htokens
          (fun c hc hcomp => ih _ c (h.child hs hc hcomp) ?_) hp) fun r hr => ?_
        · rw [List.length_cons]
          omega
        · refine .of_get fun m' hm' => ?_
          split
          · refine .of_set (fun c known hc => ?_) (.pure hr)
            obtain hc | hc := List.mem_cons.1 hc
            · cases hc
              exact hr
            · exact hm' c known hc
          · exact .pure hr

theorem deriveStretch_renders (hs : x.Completes s)
    (hacyclic : ∀ c, Relation.ReflTransGen x.Child c s → ¬Relation.TransGen x.Child c c) :
    Meets x.Keeps (x.deriveStretch s) (Finds False (x.Renders s)) := by
  refine derive_renders hx he htokens hacyclic _ [] s ⟨List.nodup_nil, ?_, ?_, .refl⟩
    (Nat.le_add_right _ _)
  · exact fun a ha => List.mem_singleton.1 ha ▸ hs
  · exact fun a ha => absurd ha List.not_mem_nil

end

end Derivation

namespace ParseState

variable {p : ParseInput} {st : ParseState}

/-- Where no symbol derives itself, each stretch that is completed has a preferred derivation, and its
children are what this one is shown as, whatever is remembered from stretches before. -/
theorem Ends.derives_preferred {g : Grammar} {scanner : Option Scanner} {handle era : Nat}
    {l : Language} {text : List Char} {st : ParseState}
    (hl : Language.compile g scanner handle = .ok l) (h : Ends (.fresh l text era) st)
    (hn : l.tables.Noncyclic) :
    (st.derivation (.fresh l text era)).Keeps {} ∧
      ∀ s, (st.derivation (.fresh l text era)).Completes s →
        ∃ p f, (st.derivation (.fresh l text era)).Prefers s p f ∧
          (∀ q g, (st.derivation (.fresh l text era)).Prefers s q g → q = p ∧ g = f) ∧
          ∀ m, (st.derivation (.fresh l text era)).Keeps m → ∃ children m',
            ((st.derivation (.fresh l text era)).deriveStretch s).run m = some (some children, m') ∧
            (st.derivation (.fresh l text era)).Keeps m' ∧ Subtree.skeletonAll children =
              (st.derivation (.fresh l text era)).image f (l.tables.steps p) s.start := by
  have ht : (ParseInput.fresh l text era).tables.WellFormed := Language.compile_wellFormed hl
  have hmeets {s : Stretch} (hs : (st.derivation (.fresh l text era)).Completes s) :=
    Derivation.deriveStretch_renders
      ((h.consistent ht).derivation_sound ht fun t hm => absurd hm List.not_mem_nil)
      (h.derivation_exact ht rfl) (h.units_eq_tokens ht rfl) hs
      fun c _ => Derivation.not_transGen_child ht hn c
  refine ⟨Derivation.keeps_empty, fun s hs => ?_⟩
  obtain ⟨r, m₀, -, -, hr⟩ := hmeets hs {} Derivation.keeps_empty
  cases r with
  | none => exact hr.elim
  | some children =>
      obtain ⟨p, f, hf, -⟩ := hr
      refine ⟨p, f, hf, fun q g hg => hg.unique hf, fun m hm => ?_⟩
      obtain ⟨r, m', hrun, hm', hr⟩ := hmeets hs m hm
      cases r with
      | none => exact hr.elim
      | some children =>
          obtain ⟨q, g, hg, himage⟩ := hr
          obtain ⟨rfl, rfl⟩ := hg.unique hf
          exact ⟨children, m', hrun, hm', himage⟩

/-- Sums that may be bracketed in more ways than one. -/
def sumRow : Grammar :=
  ({ name := "sumRow" } : Grammar).define "sumRow"
    (.oneOf [.seq [.ref "sumRow", .literal "+", .ref "sumRow"], .literal "a"])

theorem derives_preferred_sumRow : ∃ l st p f children m',
    Language.compile sumRow none 0 = .ok l ∧ Ends (.fresh l ['a', '+', 'a', '+', 'a'] 0) st ∧
    (st.derivation (.fresh l ['a', '+', 'a', '+', 'a'] 0)).Prefers
      ⟨(st.derivation (.fresh l ['a', '+', 'a', '+', 'a'] 0)).startRule, 0, 5⟩ p f ∧
    ((st.derivation (.fresh l ['a', '+', 'a', '+', 'a'] 0)).deriveStretch
      ⟨(st.derivation (.fresh l ['a', '+', 'a', '+', 'a'] 0)).startRule, 0, 5⟩).run {} =
        some (some children, m') ∧
    Subtree.skeletonAll children =
      (st.derivation (.fresh l ['a', '+', 'a', '+', 'a'] 0)).image f (l.tables.steps p) 0 ∧
    children.map Subtree.start = [0, 3, 4] := by
  obtain ⟨l, st, hl, h, htest⟩ := exists_of_endsWith
    (show endsWith sumRow none ['a', '+', 'a', '+', 'a'] (fun l st =>
        let x := st.derivation (.fresh l ['a', '+', 'a', '+', 'a'] 0)
        let s : Stretch := ⟨x.startRule, 0, 5⟩
        (x.setAt s.stop).completes x.tables s.symbol s.start &&
          ((x.deriveStretch s).run {}).any (fun r => r.1.any fun children =>
            children.map Subtree.start == [0, 3, 4]) &&
          l.tables.stepsDescend fun s =>
            if s = l.tables.start then 2 else if l.tables.isNonterminal s then 1 else 0) = true by
      decide +kernel)
  simp only [Bool.and_eq_true] at htest
  obtain ⟨⟨hcomplete, hstarts⟩, hrank⟩ := htest
  obtain ⟨hempty, hpreferred⟩ :=
    h.derives_preferred hl (Tables.noncyclic_of_stepsDescend hrank)
  obtain ⟨p, f, hf, -, hderive⟩ := hpreferred
    ⟨(st.derivation (.fresh l ['a', '+', 'a', '+', 'a'] 0)).startRule, 0, 5⟩ hcomplete
  obtain ⟨children, m', hchildren, -, himage⟩ := hderive {} hempty
  rw [hchildren, Option.any_some, Option.any_some, beq_iff_eq] at hstarts
  exact ⟨l, st, p, f, children, m', hl, h, hf, hchildren, himage, hstarts⟩

end ParseState

end EarleyTree

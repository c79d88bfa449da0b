import EarleyTree.Proofs.Parsing.Image
import EarleyTree.Proofs.Parsing.Recognition
import Mathlib.Logic.Relation

/-!
Trees are read off a chart by derivations that exist, and one is missed only where a derivation comes
back to the stretch that it began with.
-/
namespace EarleyTree

open Text

/-- From every memory with the property the action gives a result, and keeps the property. -/
def Extract.Meets {α : Type} (I : Memory → Prop) (act : Extract α) (Q : α → Prop) : Prop :=
  ∀ m, I m → ∃ a m', act.run m = some (a, m') ∧ I m' ∧ Q a

namespace Extract.Meets

variable {α β : Type} {I : Memory → Prop} {Q Q' : α → Prop} {R : β → Prop}

theorem pure {a : α} (h : Q a) : Meets I (pure a) Q := fun m hm => ⟨a, m, rfl, hm, h⟩

theorem bind {act : Extract α} {f : α → Extract β} (h : Meets I act Q)
    (hf : ∀ a, Q a → Meets I (f a) R) : Meets I (act >>= f) R := by
  intro m hm
  obtain ⟨a, m₁, ha, hm₁, hq⟩ := h m hm
  obtain ⟨b, m₂, hb, hm₂, hr⟩ := hf a hq m₁ hm₁
  refine ⟨b, m₂, ?_, hm₂, hr⟩
  rw [StateT.run_bind, ha]
  exact hb

theorem weaken {act : Extract α} (h : Meets I act Q) (hq : ∀ a, Q a → Q' a) : Meets I act Q' := by
  intro m hm
  obtain ⟨a, m', ha, hm', h⟩ := h m hm
  exact ⟨a, m', ha, hm', hq a h⟩

theorem of_get {f : Memory → Extract β} (h : ∀ m, I m → Meets I (f m) R) :
    Meets I (get >>= f) R := fun m hm => h m hm m hm

theorem of_set {m' : Memory} {f : PUnit → Extract β} (hm' : I m') (h : Meets I (f ⟨⟩) R) :
    Meets I (set m' >>= f) R := fun _ _ => h m' hm'

end Extract.Meets

/-- The result has the property; there may only be none under the condition. -/
def Finds {α : Type} (C : Prop) (P : α → Prop) : Option α → Prop
  | some a => P a
  | none => C

namespace Derivation

variable {x : Derivation} {C : Prop}

/-- All items have derivations, and the units are of the right kinds. -/
structure Sound (x : Derivation) : Prop where
  wellFormed : x.tables.WellFormed
  sound : ∀ {k : Nat} {item : Item}, item ∈ x.setAt k → item.Sound x.tables x.units k
  token : ∀ {i : Nat} {t : Token}, x.units[i]? = some (.token t) → x.tables.isTerminal t.symbol
  reused : ∀ {i : Nat} {t : Subtree}, x.units[i]? = some (.reused t) →
    x.tables.isNonterminal t.symbol ∧ t.isExtra = false

def Exact (x : Derivation) : Prop :=
  ∀ {k : Nat} {item : Item}, item.Sound x.tables x.units k → item ∈ x.setAt k

def Completes (x : Derivation) (s : Stretch) : Prop :=
  (x.setAt s.stop).completes x.tables s.symbol s.start = true

/-- In some derivation tree of the outer stretch, the inner one is below one of the steps. -/
def Child (x : Derivation) (inner outer : Stretch) : Prop :=
  ∃ (p : Nat) (before : List Step) (step : Step) (after : List Step) (f g h : Forest),
    p < x.tables.productions.size ∧ x.tables.lhs p = outer.symbol ∧
      x.tables.steps p = before ++ step :: after ∧ step.symbol = inner.symbol ∧
      f.Covers x.tables x.units before outer.start inner.start ∧
      g.Covers x.tables x.units [step] inner.start inner.stop ∧
      h.Covers x.tables x.units after inner.stop outer.stop

def Parts (x : Derivation) (s : Stretch) (trees : List Subtree) : Prop :=
  ∃ p, p < x.tables.productions.size ∧ x.tables.lhs p = s.symbol ∧
    x.Shows (x.tables.steps p) s.start s.stop trees

def Remembers (x : Derivation) (C : Prop) (m : Memory) : Prop :=
  ∀ s known, (s, known) ∈ m.memo → Finds C (x.Parts s) known

open Extract

/-- What holds of a memory whatever the number of nodes made. -/
def Lasting (I : Memory → Prop) : Prop := ∀ m n, I m → I { m with nodes := n }

theorem lasting_remembers : Lasting (x.Remembers C) := fun _ _ h => h

theorem freshIdent_meets {I : Memory → Prop} (hI : Lasting I) :
    Meets I x.freshIdent fun _ => True :=
  .of_get fun _ hm => .of_set (hI _ _ hm) (.pure trivial)

theorem Sound.not_terminal (hx : x.Sound) {p : Nat} (hp : p < x.tables.productions.size) :
    x.tables.isTerminal (x.tables.lhs p) = false :=
  Tables.not_isTerminal (hx.wellFormed.isNonterminal_lhs hp)

theorem span_unit {i : Nat} {u : InputUnit} (hu : x.units[i]? = some u) :
    x.span i (i + 1) = x.lines.span u.start u.stop := by
  rw [span, hu, Nat.add_sub_cancel, hu]
  exact if_pos (Nat.lt_succ_self i)

section

variable {I : Memory → Prop} (hI : Lasting I) {derive : Stretch → Extract (Option (List Subtree))}
  {step : Step}

include hI

theorem materialize_terminal {i : Nat} {t : Token} (hk : x.tables.isTerminal step.symbol = true)
    (hu : x.units[i]? = some (.token t)) :
    Meets I (x.materialize derive step i (i + 1))
      fun r => ∃ trees, r = some trees ∧ Subtree.skeletonAll trees = x.unitImage step (.token t) := by
  rw [materialize]
  dsimp only
  rw [if_pos hk]
  split
  · next hsh =>
      refine .bind (freshIdent_meets hI) fun ident _ => .pure ⟨_, rfl, ?_⟩
      rw [unitImage, if_pos hsh, span_unit hu]
      rfl
  · next hsh =>
      refine .pure ⟨_, rfl, ?_⟩
      rw [unitImage, if_neg hsh]
      rfl

/-- What is known of the children as they are shown goes on to the node over them. -/
theorem materialize_children {i j : Nat} (hk : x.tables.isTerminal step.symbol = false)
    {P : List Subtree → Prop}
    (hd : Meets I (derive ⟨step.symbol, i, j⟩) (Finds C fun ts => P (Subtree.skeletonAll ts))) :
    Meets I (x.materialize derive step i j) (Finds C fun ts => ∃ children, P children ∧
      Subtree.skeletonAll ts = x.nodeImage step (x.span i j) children) := by
  rw [materialize]
  dsimp only
  rw [if_neg (by rw [hk]; exact Bool.false_ne_true)]
  refine .bind hd fun r hr => ?_
  cases r with
  | none => exact .pure hr
  | some children =>
      dsimp only
      split
      · next hsh =>
          refine .bind (freshIdent_meets hI) fun ident _ => .pure ⟨_, hr, ?_⟩
          rw [nodeImage, if_pos hsh, Subtree.skeletonAll, Subtree.skeleton_setField,
            Subtree.skeleton_node]
          rfl
      · next hsh =>
          refine .pure ⟨_, hr, ?_⟩
          rw [nodeImage, if_neg hsh, Subtree.skeletonAll_map_label]

end

theorem materialize_token {derive : Stretch → Extract (Option (List Subtree))} {step : Step} {i : Nat}
    {t : Token} (hk : x.tables.isTerminal step.symbol) (hu : x.units[i]? = some (.token t))
    (hs : step.Takes (.token t)) :
    Meets (x.Remembers C) (x.materialize derive step i (i + 1))
      fun r => ∃ trees, r = some trees ∧ x.Shows [step] i (i + 1) trees := by
  refine (materialize_terminal lasting_remembers hk hu).weaken fun r hr => ?_
  obtain ⟨trees, rfl, himage⟩ := hr
  exact ⟨trees, rfl, _, .singleton_unit hu hs, himage.trans (image_unit hu).symm⟩

theorem materialize_nonterminal {derive : Stretch → Extract (Option (List Subtree))} {step : Step}
    {i j : Nat} (hk : x.tables.isTerminal step.symbol = false)
    (hd : Meets (x.Remembers C) (derive ⟨step.symbol, i, j⟩)
      (Finds C (x.Parts ⟨step.symbol, i, j⟩))) :
    Meets (x.Remembers C) (x.materialize derive step i j) (Finds C (x.Shows [step] i j)) := by
  have hchildren : Meets (x.Remembers C) (derive ⟨step.symbol, i, j⟩) (Finds C fun ts =>
      ∃ p f, p < x.tables.productions.size ∧ x.tables.lhs p = step.symbol ∧
        f.Covers x.tables x.units (x.tables.steps p) i j ∧
        Subtree.skeletonAll ts = x.image f (x.tables.steps p) i) := by
    refine hd.weaken fun r hr => ?_
    cases r with
    | none => exact hr
    | some children =>
        obtain ⟨p, hp, hl, f, hf, hshow⟩ := hr
        exact ⟨p, f, hp, hl, hf, hshow⟩
  refine (materialize_children lasting_remembers hk (P := fun children => ∃ p f,
    p < x.tables.productions.size ∧ x.tables.lhs p = step.symbol ∧
      Forest.Covers x.tables x.units f (x.tables.steps p) i j ∧
      children = x.image f (x.tables.steps p) i) hchildren).weaken fun r hr => ?_
  cases r with
  | none => exact hr
  | some trees =>
      obtain ⟨_, ⟨p, f, hp, hl, hf, rfl⟩, himage⟩ := hr
      exact ⟨_, .singleton_expand hp hl hf, himage.trans (image_expand hf).symm⟩

theorem firstSplit_meets {derive : Stretch → Extract (Option (List Subtree))} {step : Step}
    {stop : Nat} {fits : Nat → Bool} {P : Nat → List Subtree → Prop} (ks : List Nat)
    (hm : ∀ k, fits k = true →
      Meets (x.Remembers C) (x.materialize derive step k stop) (Finds C (P k))) :
    Meets (x.Remembers C) (x.firstSplit derive step stop fits ks)
      (Finds (C ∨ ∀ k ∈ ks, fits k = false) fun r => fits r.1 = true ∧ P r.1 r.2) := by
  induction ks with
  | nil => exact .pure (.inr fun k hk => absurd hk List.not_mem_nil)
  | cons k ks ih =>
      rw [firstSplit]
      split
      · next hk =>
          refine .bind (hm k hk) fun r hr => ?_
          cases r with
          | some nodes => exact .pure ⟨hk, hr⟩
          | none =>
              refine ih.weaken fun r h => ?_
              cases r with
              | some r => exact h
              | none => exact .inl hr
      · next hk =>
          refine ih.weaken fun r h => ?_
          cases r with
          | some r => exact h
          | none =>
              refine h.imp_right fun hks j hj => ?_
              obtain rfl | hj := List.mem_cons.1 hj
              · exact Bool.eq_false_iff.2 hk
              · exact hks j hj

theorem tokenBefore_iff {step : Step} {start stop : Nat} {fits : Nat → Bool} :
    x.tokenBefore step start stop fits = true ↔ ∃ i t, stop = i + 1 ∧ start ≤ i ∧
      x.units[i]? = some (.token t) ∧ t.symbol = step.symbol ∧ fits i = true := by
  cases stop with
  | zero => simp [tokenBefore]
  | succ i =>
      rw [tokenBefore, Nat.add_sub_cancel, Bool.and_eq_true, decide_eq_true_iff, Nat.lt_succ_iff]
      constructor
      · rintro ⟨hle, h⟩
        split at h
        · next t hu =>
            rw [Bool.and_eq_true, beq_iff_eq] at h
            exact ⟨i, t, rfl, hle, hu, h.1, h.2⟩
        · cases h
      · rintro ⟨j, t, hj, hle, hu, hs, hf⟩
        obtain rfl := Nat.succ.inj hj
        exact ⟨hle, by simp [hu, hs, hf]⟩

theorem reusedBefore_eq_some {step : Step} {start stop : Nat} {fits : Nat → Bool} {t : Subtree} :
    x.reusedBefore step start stop fits = some t ↔ ∃ i, stop = i + 1 ∧ start ≤ i ∧
      x.units[i]? = some (.reused t) ∧ t.symbol = step.symbol ∧ fits i = true := by
  rw [reusedBefore]
  constructor
  · intro h
    split at h
    · cases h
    · next hlt =>
        split at h
        · next r hu =>
            split at h
            · next hc =>
                cases h
                exact ⟨stop - 1, by omega, by omega, hu, hc⟩
            · cases h
        · cases h
  · rintro ⟨i, rfl, hle, hu, hc⟩
    rw [if_neg (by omega), Nat.add_sub_cancel, hu]
    exact if_pos hc

theorem rename_meets (kind : Symbol) (t : Subtree) :
    Meets (x.Remembers C) (x.rename kind t) fun r =>
      r.skeleton = ⟨{ t.skeleton.data with kind := kind }, t.skeleton.children⟩ := by
  rw [rename]
  split
  · next hk => exact .pure (by subst hk; cases t; rfl)
  · exact .bind (freshIdent_meets lasting_remembers) fun _ _ => .pure (by cases t; rfl)

/-- The last step of a row that fits is a terminal behind which a token was scanned, or it derives
the units from a place at which the rest of the row fits. -/
theorem Sound.last_step (hx : x.Sound) {p d o stop : Nat} {step : Step}
    (hi : (⟨p, d + 1, o⟩ : Item) ∈ x.setAt stop) (hs : (x.tables.steps p)[d]? = some step) :
    ∃ i, Item.Sound x.tables x.units i ⟨p, d, o⟩ ∧
      ((∃ u, x.units[i]? = some u ∧ step.Takes u ∧ stop = i + 1) ∨
        ∃ q f, q < x.tables.productions.size ∧ x.tables.lhs q = step.symbol ∧
          Forest.Covers x.tables x.units f (x.tables.steps q) i stop) := by
  obtain ⟨i, f, hb, hf⟩ := (hx.sound hi).exists_before hs
  refine ⟨i, hb, ?_⟩
  obtain ⟨u, -, hu, ht, hstop⟩ | ⟨q, g, -, hq, hl, hg⟩ := hf.of_singleton
  · exact .inl ⟨u, hu, ht, hstop⟩
  · exact .inr ⟨q, g, hq, hl, hg⟩

theorem Exact.completes (hx : x.Sound) (he : x.Exact) {p d o i stop q : Nat} {step : Step}
    {f : Forest} (hi : Item.Sound x.tables x.units i ⟨p, d, o⟩) (hs : (x.tables.steps p)[d]? = some step)
    (hq : q < x.tables.productions.size) (hl : x.tables.lhs q = step.symbol)
    (hf : f.Covers x.tables x.units (x.tables.steps q) i stop) :
    x.Completes ⟨step.symbol, i, stop⟩ := by
  have hpred := hi.predict hx.wellFormed (Item.next?_eq_some.2 ⟨step, hs, rfl⟩)
    (hx.wellFormed.mem_productionsOf.2 ⟨hq, hl⟩)
  refine ItemSet.completes_iff.2 ⟨⟨q, (x.tables.steps q).length, i⟩, he ?_, rfl, ?_, hl⟩
  · exact ⟨hq, le_rfl, ⟨f, by rwa [List.take_length]⟩, hpred.reaches⟩
  · exact Item.isComplete_iff_le.2 le_rfl

theorem Sound.exists_of_completes (hx : x.Sound) {s : Stretch} (hs : x.Completes s) :
    ∃ q f, q < x.tables.productions.size ∧ x.tables.lhs q = s.symbol ∧
      Forest.Covers x.tables x.units f (x.tables.steps q) s.start s.stop := by
  obtain ⟨⟨q, d, o⟩, hi, ho, hc, hl⟩ := ItemSet.completes_iff.1 hs
  obtain rfl : o = s.start := ho
  have h := hx.sound hi
  obtain ⟨f, hf⟩ := h.covers
  rw [List.take_of_length_le (Item.isComplete_iff_le.1 hc)] at hf
  exact ⟨q, f, h.production, hl, hf⟩

theorem mem_placesDown {k start stop : Nat} : k ∈ placesDown start stop ↔ start ≤ k ∧ k ≤ stop := by
  rw [placesDown, List.mem_reverse, List.mem_range'_1]
  omega

theorem contains_setAt {k p d o : Nat} :
    (x.setAt k).contains ⟨p, d, o⟩ = true ↔ (⟨p, d, o⟩ : Item) ∈ x.setAt k := ItemSet.contains_iff

section

variable (hx : x.Sound) {derive : Stretch → Extract (Option (List Subtree))} {s : Stretch} {p : Nat}
  (hp : p < x.tables.productions.size) (hl : x.tables.lhs p = s.symbol)

include hx

theorem Sound.last_token {d stop : Nat} {step : Step} (hi : (⟨p, d + 1, s.start⟩ : Item) ∈ x.setAt stop)
    (hs : (x.tables.steps p)[d]? = some step) (hk : x.tables.isTerminal step.symbol = true) :
    ∃ j t, stop = j + 1 ∧ x.units[j]? = some (.token t) ∧ step.Takes (.token t) ∧
      Item.Sound x.tables x.units j ⟨p, d, s.start⟩ := by
  obtain ⟨j, hj, ⟨u, hu, ht, hstop⟩ | ⟨q, f, hq, hlq, -⟩⟩ := hx.last_step hi hs
  · cases u with
    | token t => exact ⟨j, t, hstop, hu, ht, hj⟩
    | reused t =>
        have hn := Tables.not_isTerminal (hx.reused hu).1
        rw [← show step.symbol = t.symbol from ht.1, hk] at hn
        cases hn
  · rw [← hlq, hx.not_terminal hq] at hk
    cases hk

/-- Where nothing is missing from the sets, a nonterminal that no subtree taken over stands for can be
split off. -/
theorem Exact.exists_fits (he : x.Exact) {d stop : Nat} {step : Step}
    (hi : (⟨p, d + 1, s.start⟩ : Item) ∈ x.setAt stop) (hs : (x.tables.steps p)[d]? = some step)
    (hk : ¬x.tables.isTerminal step.symbol = true)
    (hb : x.reusedBefore step s.start stop
      (fun k => (x.setAt k).contains ⟨p, d, s.start⟩) = none) :
    ∃ k ∈ placesDown s.start stop, ((x.setAt stop).completes x.tables step.symbol k &&
      (x.setAt k).contains ⟨p, d, s.start⟩) = true := by
  obtain ⟨j, hj, hlast⟩ := hx.last_step hi hs
  have hfits : (x.setAt j).contains ⟨p, d, s.start⟩ = true := contains_setAt.2 (he hj)
  rcases hlast with ⟨u, hu, ht, rfl⟩ | ⟨q, f, hq, hlq, hf⟩
  · cases u with
    | token t => exact absurd (ht.1 ▸ hx.token hu) hk
    | reused t =>
        have hsome : x.reusedBefore step s.start (j + 1)
            (fun k => (x.setAt k).contains ⟨p, d, s.start⟩) = some t :=
          reusedBefore_eq_some.2 ⟨j, rfl, hj.origin_le, hu, ht.1.symm, hfits⟩
        rw [hb] at hsome
        cases hsome
  · refine ⟨j, mem_placesDown.2 ⟨hj.origin_le, hf.le⟩, ?_⟩
    have hcomp : (x.setAt stop).completes x.tables step.symbol j = true :=
      he.completes hx hj hs hq hlq hf
    rw [hcomp, hfits]
    rfl

include hp hl

theorem child_of_fits {rev rest : List Step} {step : Step} {k stop : Nat} {after : List Subtree}
    (hsteps : x.tables.steps p = rev.reverse ++ step :: rest) (ha : x.Shows rest stop s.stop after)
    (hc : x.Completes ⟨step.symbol, k, stop⟩)
    (hk : (⟨p, rev.length, s.start⟩ : Item) ∈ x.setAt k) : x.Child ⟨step.symbol, k, stop⟩ s := by
  obtain ⟨f, hf⟩ := (hx.sound hk).covers
  obtain ⟨q, g, hq, hlq, hg⟩ := hx.exists_of_completes hc
  obtain ⟨h, hh, -⟩ := ha
  rw [hsteps, List.take_left' List.length_reverse] at hf
  exact ⟨p, rev.reverse, step, rest, f, _, h, hp, hl, hsteps, rfl, hf,
    .singleton_expand hq hlq hg, hh⟩

/-- Accounting for the steps before a place: the induction is on the steps yet to come, and the
invariant is that their item is in the set of the place. -/
theorem deriveSteps_meets (hC : C ∨ x.Exact)
    (hd : ∀ c, x.Child c s → x.Completes c →
      Meets (x.Remembers C) (derive c) (Finds C (x.Parts c)))
    (rev rest : List Step) (stop : Nat) (after : List Subtree)
    (hsteps : x.tables.steps p = rev.reverse ++ rest)
    (hi : (⟨p, rev.length, s.start⟩ : Item) ∈ x.setAt stop)
    (ha : x.Shows rest stop s.stop after) :
    Meets (x.Remembers C) (x.deriveSteps derive p s.start rev stop after)
      (Finds C (x.Shows (x.tables.steps p) s.start s.stop)) := by
  induction rev generalizing rest stop after with
  | nil =>
      obtain ⟨f, hf⟩ := (hx.sound hi).covers
      obtain rfl : s.start = stop := by
        cases hf
        rfl
      rw [deriveSteps]
      rw [if_pos rfl, hsteps]
      exact .pure ha
  | cons step rev ih =>
      rw [List.reverse_cons, List.append_assoc, List.singleton_append] at hsteps
      have hstep : (x.tables.steps p)[rev.length]? = some step := by simp [hsteps]
      rw [deriveSteps]
      dsimp only
      by_cases hk : x.tables.isTerminal step.symbol = true
      · obtain ⟨j, t, rfl, hu, ht, hj⟩ := hx.last_token hi hstep hk
        rw [if_pos hk]
        split
        · next hb =>
            obtain ⟨i, t', hstop, -, hu', -, hf⟩ := tokenBefore_iff.1 hb
            obtain rfl := Nat.succ.inj hstop
            rw [Nat.add_sub_cancel]
            refine .bind (materialize_token hk hu ht) fun r hr => ?_
            obtain ⟨nodes, rfl, hshow⟩ := hr
            exact ih (step :: rest) j (nodes ++ after) hsteps (contains_setAt.1 hf)
              (hshow.append ha)
        · next hb =>
            refine .pure (hC.resolve_right fun he => hb (tokenBefore_iff.2 ?_))
            exact ⟨j, t, rfl, hj.origin_le, hu, ht.1.symm, contains_setAt.2 (he hj)⟩
      · rw [if_neg hk]
        split
        · next t hb =>
            obtain ⟨i, rfl, -, hu, hs, hf⟩ := reusedBefore_eq_some.1 hb
            rw [Nat.add_sub_cancel]
            refine .bind (rename_meets _ t) fun t' ht' => ?_
            have htakes : step.Takes (.reused t) := ⟨hs.symm, fun h => Bool.false_ne_true h.2⟩
            have hshow : x.Shows [step] i (i + 1) [t'.setField step.field] := by
              refine ⟨_, .singleton_unit hu htakes, ?_⟩
              rw [image_unit hu, unitImage, Subtree.skeletonAll, Subtree.skeleton_setField, ht']
              rfl
            exact ih (step :: rest) i _ hsteps (contains_setAt.1 hf) (hshow.append ha)
        · next hb =>
            refine .bind (firstSplit_meets (P := fun k => x.Shows [step] k stop) _ fun k hk => ?_)
              fun r hr => ?_
            · rw [Bool.and_eq_true] at hk
              have hc := child_of_fits hx hp hl hsteps ha hk.1 (contains_setAt.1 hk.2)
              exact materialize_nonterminal (Bool.eq_false_iff.2 ‹_›) (hd _ hc hk.1)
            · cases r with
              | some r =>
                  obtain ⟨hk, hshow⟩ := hr
                  rw [Bool.and_eq_true] at hk
                  exact ih (step :: rest) r.1 _ hsteps (contains_setAt.1 hk.2) (hshow.append ha)
              | none =>
                  refine .pure (hC.elim id fun he => hr.resolve_right fun hks => ?_)
                  obtain ⟨k, hm, hfits⟩ := he.exists_fits hx hi hstep hk hb
                  exact Bool.false_ne_true ((hks k hm).symm.trans hfits)

end

theorem Sound.of_mem_completed (hx : x.Sound) {s : Stretch} {p : Nat}
    (hp : p ∈ (x.setAt s.stop).completed x.tables s.symbol s.start) :
    p < x.tables.productions.size ∧ x.tables.lhs p = s.symbol ∧
      (⟨p, (x.tables.steps p).length, s.start⟩ : Item) ∈ x.setAt s.stop := by
  obtain ⟨⟨p, d, o⟩, hi, rfl, hc, hl, rfl⟩ := ItemSet.mem_completed.1 hp
  have h := hx.sound hi
  obtain rfl : d = (x.tables.steps p).length := le_antisymm h.dot (Item.isComplete_iff_le.1 hc)
  exact ⟨h.production, hl, hi⟩

theorem firstProduction_meets (hx : x.Sound) (hC : C ∨ x.Exact)
    {derive : Stretch → Extract (Option (List Subtree))} {s : Stretch}
    (hd : ∀ c, x.Child c s → x.Completes c →
      Meets (x.Remembers C) (derive c) (Finds C (x.Parts c)))
    (ps : List Nat) (hps : ∀ p ∈ ps, p < x.tables.productions.size ∧ x.tables.lhs p = s.symbol ∧
      (⟨p, (x.tables.steps p).length, s.start⟩ : Item) ∈ x.setAt s.stop) :
    Meets (x.Remembers C) (x.firstProduction derive s ps) (Finds (C ∨ ps = []) (x.Parts s)) := by
  induction ps with
  | nil => exact .pure (.inr rfl)
  | cons p ps ih =>
      obtain ⟨hp, hl, hi⟩ := hps p List.mem_cons_self
      rw [firstProduction]
      refine .bind (deriveSteps_meets hx hp hl hC hd _ [] s.stop [] (by simp)
        (by rwa [List.length_reverse]) (.nil _)) fun r hr => ?_
      cases r with
      | some children => exact .pure ⟨p, hp, hl, hr⟩
      | none =>
          refine (ih fun q hq => hps q (List.mem_cons_of_mem _ hq)).weaken fun r h => ?_
          cases r with
          | some r => exact h
          | none => exact .inl hr

theorem mem_insertByRank {p q : Nat} {ps : List Nat} :
    q ∈ x.insertByRank p ps ↔ q = p ∨ q ∈ ps := by
  induction ps with
  | nil => simp [insertByRank]
  | cons r ps ih =>
      rw [insertByRank]
      split
      · exact List.mem_cons
      · rw [List.mem_cons, List.mem_cons, ih]
        exact or_left_comm

theorem mem_ranked {q : Nat} {ps : List Nat} : q ∈ x.ranked ps ↔ q ∈ ps := by
  rw [ranked]
  induction ps with
  | nil => exact Iff.rfl
  | cons p ps ih => rw [List.foldr_cons, mem_insertByRank, ih, List.mem_cons]

def stretches (x : Derivation) : List Stretch :=
  (List.range x.sets.size).flatMap fun k =>
    ((x.setAt k).completedPairs x.tables).map fun e => ⟨e.1, e.2, k⟩

theorem Completes.lt_size {s : Stretch} (h : x.Completes s) : s.stop < x.sets.size := by
  by_contra hge
  obtain ⟨item, hi, -⟩ := ItemSet.completes_iff.1 h
  rw [setAt, Array.getD_eq_getD_getElem?, Array.getElem?_eq_none (Nat.not_lt.1 hge)] at hi
  exact ItemSet.not_mem_empty hi

theorem Completes.mem_stretches {s : Stretch} (h : x.Completes s) : s ∈ x.stretches := by
  exact List.mem_flatMap.2 ⟨s.stop, List.mem_range.2 h.lt_size,
    List.mem_map.2 ⟨(s.symbol, s.start), ItemSet.mem_completedPairs.2 h, rfl⟩⟩

theorem depthBound_eq (x : Derivation) : x.depthBound = x.stretches.length + 1 := by
  have hfold : ∀ (sets : List ItemSet) (n : Nat),
      sets.foldl (fun n set => n + (set.completedPairs x.tables).length) n =
        (sets.map fun set => (set.completedPairs x.tables).length).sum + n := by
    intro sets
    induction sets with
    | nil => exact fun n => (Nat.zero_add n).symm
    | cons set sets ih =>
        intro n
        rw [List.foldl_cons, ih, List.map_cons, List.sum_cons]
        omega
  have hmap : ((List.range x.sets.size).map fun k => ((x.setAt k).completedPairs x.tables).length) =
      x.sets.toList.map fun set => (set.completedPairs x.tables).length := by
    refine List.ext_getElem (by simp) fun k hk _ => ?_
    rw [List.length_map, List.length_range] at hk
    simp [setAt, hk]
  rw [depthBound, hfold, ← hmap, stretches, List.length_flatMap]
  simp only [List.length_map]

/-- The way down from the root to a stretch, through complete stretches that are all different. -/
structure Descends (x : Derivation) (root : Stretch) (active : List Stretch) (s : Stretch) : Prop
    where
  nodup : active.Nodup
  complete : ∀ a ∈ s :: active, x.Completes a
  above : ∀ a ∈ active, Relation.TransGen x.Child s a
  below : Relation.ReflTransGen x.Child s root

theorem Descends.child {root s c : Stretch} {active : List Stretch} (h : x.Descends root active s)
    (hs : s ∉ active) (hc : x.Child c s) (hcomp : x.Completes c) :
    x.Descends root (s :: active) c where
  nodup := List.nodup_cons.2 ⟨hs, h.nodup⟩
  complete a ha := (List.mem_cons.1 ha).elim (· ▸ hcomp) (h.complete a)
  above a ha :=
    (List.mem_cons.1 ha).elim (fun he => he ▸ .single hc) fun ha => .head hc (h.above a ha)
  below := .head hc h.below

theorem Descends.length_le {root s : Stretch} {active : List Stretch} (h : x.Descends root active s) :
    active.length < x.depthBound := by
  rw [depthBound_eq, Nat.lt_succ_iff]
  exact (List.subperm_of_subset h.nodup fun a ha =>
    (h.complete a (List.mem_cons_of_mem _ ha)).mem_stretches).length_le

/-- A derivation is found, unless one comes back to its own stretch. The induction is on the depth;
the stretches on the way down are too few to use it up. -/
theorem derive_meets (hx : x.Sound) (hC : C ∨ x.Exact) {root : Stretch}
    (hcycle : ∀ s, Relation.ReflTransGen x.Child s root → Relation.TransGen x.Child s s → C)
    (depth : Nat) (active : List Stretch) (s : Stretch) (h : x.Descends root active s)
    (hdepth : x.depthBound ≤ depth + active.length) :
    Meets (x.Remembers C) (x.derive depth active s) (Finds C (x.Parts s)) := by
  induction depth generalizing active s with
  | zero => exact absurd h.length_le (by omega)
  | succ depth ih =>
      rw [derive]
      refine .of_get fun m hm => ?_
      split
      · next known hk =>
          obtain ⟨before, after, he, -⟩ := List.lookup_eq_some_iff.1 hk
          exact .pure (hm s known (he ▸ List.mem_append_right before List.mem_cons_self))
      · split
        · next ha =>
            refine .of_set hm (.pure (hcycle s h.below (h.above s ?_)))
            exact List.contains_iff_mem.1 ha
        · next ha =>
            have hs : s ∉ active := fun hm => ha (List.contains_iff_mem.2 hm)
            have hne : x.ranked ((x.setAt s.stop).completed x.tables s.symbol s.start) ≠ [] := by
              obtain ⟨item, hi, ho, hc, hl⟩ :=
                ItemSet.completes_iff.1 (h.complete s List.mem_cons_self)
              refine List.ne_nil_of_mem (a := item.production) (mem_ranked.2 ?_)
              exact ItemSet.mem_completed.2 ⟨item, hi, ho, hc, hl, rfl⟩
            refine .bind (firstProduction_meets hx hC
              (fun c hc hcomp => ih _ c (h.child hs hc hcomp) ?_)
              _ fun p hp => hx.of_mem_completed (mem_ranked.1 hp)) fun r hr => ?_
            · rw [List.length_cons]
              omega
            · have hr : Finds C (x.Parts s) r := by
                cases r with
                | some r => exact hr
                | none => exact hr.resolve_right hne
              refine .of_get fun m' hm' => ?_
              split
              · refine .of_set (fun c known hc => ?_) (.pure hr)
                obtain hc | hc := List.mem_cons.1 hc
                · cases hc
                  exact hr
                · exact hm' c known hc
              · exact .pure hr

end Derivation

end EarleyTree

import EarleyTree.Proofs.Language.Compiled

/-!
The table of nullable symbols is exact: it is the least one closed under the productions.
-/
namespace EarleyTree

inductive Tables.Vanishes (t : Tables) : Symbol → Prop
  | expand {p : Nat} (hp : p < t.productions.size)
      (hs : ∀ s ∈ t.steps p, t.Vanishes s.symbol) : t.Vanishes (t.lhs p)

/-- Productions whose steps all vanish have a left-hand side in the table. -/
def ClosedUnder (productions : Array Production) (nullable : Array Bool) : Prop :=
  ∀ p ∈ productions, (∀ s ∈ p.steps, nullable.getD s.symbol false = true) →
    nullable.getD p.lhs false = true

def roundStep (nullable : Array Bool) (p : Production) : Array Bool :=
  if p.steps.all fun s => nullable.getD s.symbol false then nullable.setIfInBounds p.lhs true
  else nullable

theorem nullableRound_eq (productions : Array Production) (nullable : Array Bool) :
    nullableRound productions nullable = productions.toList.foldl roundStep nullable := by
  rw [nullableRound, ← Array.foldl_toList]
  rfl

theorem size_roundStep (nullable : Array Bool) (p : Production) :
    (roundStep nullable p).size = nullable.size := by
  rw [roundStep]
  split
  · exact Array.size_setIfInBounds
  · rfl

theorem getD_setIfInBounds_true (nullable : Array Bool) (lhs s : Symbol) :
    (nullable.setIfInBounds lhs true).getD s false =
      (nullable.getD s false || decide (lhs = s ∧ s < nullable.size)) := by
  simp only [Array.getD_eq_getD_getElem?, Array.getElem?_setIfInBounds]
  by_cases h : lhs = s
  · subst h
    by_cases hlt : lhs < nullable.size
    · simp [hlt]
    · simp [hlt]
  · simp [h]

theorem le_roundStep {nullable : Array Bool} {p : Production} {s : Symbol}
    (h : nullable.getD s false = true) : (roundStep nullable p).getD s false = true := by
  rw [roundStep]
  split
  · rw [getD_setIfInBounds_true, h, Bool.true_or]
  · exact h

theorem getD_roundStep {nullable : Array Bool} {p : Production} (hp : p.lhs < nullable.size)
    (h : ∀ s ∈ p.steps, nullable.getD s.symbol false = true) :
    (roundStep nullable p).getD p.lhs false = true := by
  rw [roundStep, if_pos (List.all_eq_true.2 h), getD_setIfInBounds_true]
  simp [hp]

theorem foldl_roundStep (ps : List Production) (nullable : Array Bool) :
    (ps.foldl roundStep nullable).size = nullable.size ∧
      ∀ s, nullable.getD s false = true → (ps.foldl roundStep nullable).getD s false = true := by
  induction ps generalizing nullable with
  | nil => exact ⟨rfl, fun _ h => h⟩
  | cons p ps ih =>
      obtain ⟨hs, hle⟩ := ih (roundStep nullable p)
      exact ⟨hs.trans (size_roundStep nullable p), fun s h => hle s (le_roundStep h)⟩

theorem foldl_roundStep_of_mem {ps : List Production} {nullable : Array Bool} {p : Production}
    (hm : p ∈ ps) (hp : p.lhs < nullable.size)
    (h : ∀ s ∈ p.steps, nullable.getD s.symbol false = true) :
    (ps.foldl roundStep nullable).getD p.lhs false = true := by
  induction ps generalizing nullable with
  | nil => cases hm
  | cons q ps ih =>
      rcases List.mem_cons.1 hm with rfl | hm
      · exact (foldl_roundStep ps _).2 _ (getD_roundStep hp h)
      · exact ih hm (by rwa [size_roundStep]) fun s hs => le_roundStep (h s hs)

theorem closedUnder_of_round {productions : Array Production} {nullable : Array Bool}
    (hlt : ∀ p ∈ productions, p.lhs < nullable.size)
    (h : nullableRound productions nullable = nullable) : ClosedUnder productions nullable := by
  intro p hp hs
  rw [← h, nullableRound_eq]
  exact foldl_roundStep_of_mem (Array.mem_toList_iff.2 hp) (hlt p hp) hs

theorem count_lt_of_le {as bs : List Bool} (hl : as.length = bs.length) (hne : as ≠ bs)
    (hle : ∀ i : Nat, as[i]? = some true → bs[i]? = some true) : as.count true < bs.count true := by
  induction as generalizing bs with
  | nil => exact absurd (List.length_eq_zero_iff.1 hl.symm).symm hne
  | cons a as ih =>
      cases bs with
      | nil => cases hl
      | cons b bs =>
          have hl' : as.length = bs.length := Nat.succ.inj hl
          have hle' : ∀ i : Nat, as[i]? = some true → bs[i]? = some true := fun i h => hle (i + 1) h
          have hhead : a = true → b = true := fun h => by simpa [h] using hle 0
          by_cases ht : as = bs
          · subst ht
            cases a <;> cases b <;> simp_all
          · have hlt := ih hl' ht hle'
            have hab : (if a == true then 1 else 0) ≤ (if b == true then 1 else 0) := by
              cases a
              · exact Nat.zero_le _
              · simp [hhead rfl]
            rw [List.count_cons, List.count_cons]
            exact Nat.add_lt_add_of_lt_of_le hlt hab

theorem getD_eq_true {nullable : Array Bool} {i : Nat} :
    nullable.getD i false = true ↔ nullable.toList[i]? = some true := by
  rw [Array.getD_eq_getD_getElem?, Array.getElem?_toList]
  cases nullable[i]? <;> simp

/-- After as many rounds as there are symbols nothing is left to add. -/
theorem nullableFrom_closed (productions : Array Production) {n : Nat} (rounds : Nat)
    (nullable : Array Bool) (hs : nullable.size = n)
    (hr : n < rounds + nullable.toList.count true) :
    (nullableFrom productions rounds nullable).size = n ∧
      nullableRound productions (nullableFrom productions rounds nullable) =
        nullableFrom productions rounds nullable := by
  induction rounds generalizing nullable with
  | zero =>
      have hc := List.count_le_length (a := true) (l := nullable.toList)
      rw [Array.length_toList] at hc
      omega
  | succ rounds ih =>
      have hround := foldl_roundStep productions.toList nullable
      rw [← nullableRound_eq] at hround
      rw [nullableFrom]
      by_cases he : nullableRound productions nullable = nullable
      · simp [he, hs]
      · have hlt : nullable.toList.count true <
            (nullableRound productions nullable).toList.count true := by
          refine count_lt_of_le (by simp [hround.1]) (fun h => he (Array.toList_inj.1 h).symm) ?_
          exact fun i hi => getD_eq_true.1 (hround.2 i (getD_eq_true.2 hi))
        simp only [beq_iff_eq, he, if_false]
        exact ih _ (hround.1.trans hs) (by omega)

namespace Tables

variable {t : Tables}

theorem vanishes_foldl {ps : List Production} {nullable : Array Bool}
    (hp : ∀ p ∈ ps, (∀ s ∈ p.steps, t.Vanishes s.symbol) → t.Vanishes p.lhs)
    (h : ∀ s, nullable.getD s false = true → t.Vanishes s) :
    ∀ s, (ps.foldl roundStep nullable).getD s false = true → t.Vanishes s := by
  induction ps generalizing nullable with
  | nil => exact h
  | cons p ps ih =>
      refine ih (fun q hq => hp q (List.mem_cons_of_mem _ hq)) fun s hs => ?_
      rw [roundStep] at hs
      split at hs
      · next ha =>
          rw [getD_setIfInBounds_true, Bool.or_eq_true, decide_eq_true_eq] at hs
          obtain hs | ⟨rfl, -⟩ := hs
          · exact h s hs
          · exact hp p List.mem_cons_self fun s hm => h _ (List.all_eq_true.1 ha s hm)
      · exact h s hs

theorem vanishes_nullableFrom {productions : Array Production} {nullable : Array Bool}
    (hp : ∀ p ∈ productions, (∀ s ∈ p.steps, t.Vanishes s.symbol) → t.Vanishes p.lhs)
    (h : ∀ s, nullable.getD s false = true → t.Vanishes s) (rounds : Nat) :
    ∀ s, (nullableFrom productions rounds nullable).getD s false = true → t.Vanishes s := by
  induction rounds generalizing nullable with
  | zero => exact h
  | succ rounds ih =>
      rw [nullableFrom]
      split
      · exact h
      · refine ih fun s hs => ?_
        rw [nullableRound_eq] at hs
        exact vanishes_foldl (fun p hm => hp p (Array.mem_toList_iff.1 hm)) h s hs

theorem expand_of_mem {p : Production} (hp : p ∈ t.productions)
    (hs : ∀ s ∈ p.steps, t.Vanishes s.symbol) : t.Vanishes p.lhs := by
  obtain ⟨i, hi, rfl⟩ := Array.mem_iff_getElem.1 hp
  have h : t.Vanishes (t.lhs i) := .expand hi (by simpa [steps, hi] using hs)
  simpa [lhs, hi] using h

theorem WellFormed.closed_round (ht : t.WellFormed) : t.nullable.size = t.symbols.size ∧
    nullableRound t.productions t.nullable = t.nullable := by
  have hsize : (Array.replicate t.symbols.size false).size = t.symbols.size := Array.size_replicate
  rw [ht.nullable]
  exact nullableFrom_closed t.productions (t.symbols.size + 1) _ hsize (by omega)

theorem WellFormed.closedUnder (ht : t.WellFormed) : ClosedUnder t.productions t.nullable := by
  obtain ⟨hs, hc⟩ := ht.closed_round
  refine closedUnder_of_round (fun p hp => ?_) hc
  obtain ⟨i, hi, rfl⟩ := Array.mem_iff_getElem.1 hp
  have hn := ht.isNonterminal_lhs hi
  rw [hs]
  by_contra hge
  simp [isNonterminal, lhs, hi, Array.getElem?_eq_none (Nat.not_lt.1 hge)] at hn

theorem WellFormed.vanishes_of_isNullable (ht : t.WellFormed) {s : Symbol} (h : t.isNullable s) :
    t.Vanishes s := by
  rw [isNullable, ht.nullable, nullableSymbols] at h
  refine vanishes_nullableFrom (fun p => expand_of_mem) (fun s hs => ?_) _ s h
  rw [getD_eq_true, Array.toList_replicate] at hs
  simp [List.getElem?_replicate] at hs

theorem WellFormed.isNullable_of_vanishes (ht : t.WellFormed) {s : Symbol} (h : t.Vanishes s) :
    t.isNullable s := by
  induction h with
  | @expand p hp _ ih =>
      simp only [steps, hp, Array.getElem?_eq_getElem, Option.map_some, Option.getD_some] at ih
      have h := ht.closedUnder _ (Array.getElem_mem hp) ih
      simpa [isNullable, lhs, hp] using h

theorem WellFormed.isNullable_iff (ht : t.WellFormed) {s : Symbol} :
    t.isNullable s ↔ t.Vanishes s :=
  ⟨ht.vanishes_of_isNullable, ht.isNullable_of_vanishes⟩

end Tables

end EarleyTree

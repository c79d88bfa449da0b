import EarleyTree.Proofs.Parsing.Extraction
import Mathlib.Data.Finset.Card

/-!
How deep derivations go. A stretch is active while its children are derived, and derivations lead from
active stretches to complete ones only, so there are no more levels than complete stretches and one.
Whether the active stretches are handed down or put into a set and taken out again is the same.
-/
namespace EarleyTree

/-- Steps of a derivation that hold the active stretches in a set of their own. -/
abbrev Tracked := StateT (Finset Stretch) Extract

namespace Tracked

section

variable (x : Derivation)

def materialize (derive : Stretch → Tracked (Option (List Subtree))) (step : Step) (i j : Nat) :
    Tracked (Option (List Subtree)) := do
  let kind := step.newKind.getD step.symbol
  if x.tables.isTerminal step.symbol then
    if x.isShown step then
      let t := Subtree.leaf (← x.freshIdent) step.symbol kind (x.span i j)
      return some [t.setField step.field]
    else return some []
  else
    match ← derive ⟨step.symbol, i, j⟩ with
    | none => return none
    | some children =>
      if x.isShown step then
        let t := Subtree.node (← x.freshIdent) step.symbol kind (x.span i j) children
        return some [t.setField step.field]
      else return some (children.map (Subtree.label step.field))

def firstSplit (derive : Stretch → Tracked (Option (List Subtree))) (step : Step) (stop : Nat)
    (fits : Nat → Bool) : List Nat → Tracked (Option (Nat × List Subtree))
  | [] => return none
  | k :: ks => do
    if fits k then
      match ← materialize x derive step k stop with
      | some nodes => return some (k, nodes)
      | none => firstSplit derive step stop fits ks
    else firstSplit derive step stop fits ks

def deriveSteps (derive : Stretch → Tracked (Option (List Subtree))) (production origin : Nat) :
    List Step → Nat → List Subtree → Tracked (Option (List Subtree))
  | [], stop, after => return if stop = origin then some after else none
  | step :: before, stop, after => do
    let fits (k : Nat) := (x.setAt k).contains ⟨production, before.length, origin⟩
    if x.tables.isTerminal step.symbol then
      if x.tokenBefore step origin stop fits then
        match ← materialize x derive step (stop - 1) stop with
        | some nodes => deriveSteps derive production origin before (stop - 1) (nodes ++ after)
        | none => return none
      else return none
    else
      match x.reusedBefore step origin stop fits with
      | some t =>
        let t ← x.rename (step.newKind.getD step.symbol) t
        deriveSteps derive production origin before (stop - 1) (t.setField step.field :: after)
      | none =>
        let fits (k : Nat) := (x.setAt stop).completes x.tables step.symbol k && fits k
        match ← firstSplit x derive step stop fits (Derivation.placesDown origin stop) with
        | some (k, nodes) => deriveSteps derive production origin before k (nodes ++ after)
        | none => return none

def firstProduction (derive : Stretch → Tracked (Option (List Subtree))) (s : Stretch) :
    List Nat → Tracked (Option (List Subtree))
  | [] => return none
  | p :: ps => do
    match ← deriveSteps x derive p s.start (x.tables.steps p).reverse s.stop [] with
    | some children => return some children
    | none => firstProduction derive s ps

/-- The children of a node for the stretch, which is active from before its productions are tried
until one is found or none is left. -/
def derive : Nat → Stretch → Tracked (Option (List Subtree))
  | 0, _ => (failure : Extract (Option (List Subtree)))
  | depth + 1, s => do
    let m ← (get : Extract Memory)
    match m.memo.lookup s with
    | some known => return known
    | none =>
      if s ∈ (← get) then
        (set { m with cycles := m.cycles + 1 } : Extract PUnit)
        return none
      else
        modify (insert s)
        let productions := x.ranked ((x.setAt s.stop).completed x.tables s.symbol s.start)
        let result ← firstProduction x (derive depth) s productions
        modify (·.erase s)
        let after ← (get : Extract Memory)
        if result.isSome || after.cycles = m.cycles then
          (set { after with memo := (s, result) :: after.memo } : Extract PUnit)
        return result

end

section

variable {α β : Type} {active : Finset Stretch} {act : Tracked α} {e : Extract α}

/-- With these stretches active the two do the same, and the stretches are left as they were. -/
def Keeps (active : Finset Stretch) (act : Tracked α) (e : Extract α) : Prop :=
  act.run active = (do return (← e, active))

namespace Keeps

theorem pure (a : α) : Keeps active (Pure.pure a) (Pure.pure a) := rfl

theorem lift (e : Extract α) : Keeps active (liftM e) e := rfl

theorem bind {f : α → Tracked β} {g : α → Extract β} (h : Keeps active act e)
    (hf : ∀ a, Keeps active (f a) (g a)) : Keeps active (act >>= f) (e >>= g) := by
  unfold Keeps at *
  rw [StateT.run_bind, h, bind_assoc, bind_assoc]
  simp only [pure_bind, hf]

theorem of_get {f : Finset Stretch → Tracked α} (h : Keeps active (f active) e) :
    Keeps active (get >>= f) e := h

/-- A stretch that is put in before an action is taken out behind it. -/
theorem within {s : Stretch} {f : α → Tracked β} {g : α → Extract β} (hs : s ∉ active)
    (h : Keeps (insert s active) act e) (hf : ∀ a, Keeps active (f a) (g a)) :
    Keeps active (do modify (insert s); let a ← act; modify (·.erase s); f a) (e >>= g) := by
  have hrun : (do modify (insert s); let a ← act; modify (·.erase s); f a : Tracked β).run active =
      act.run (insert s active) >>= fun r => (f r.1).run (r.2.erase s) := rfl
  unfold Keeps at *
  rw [hrun, h, bind_assoc, bind_assoc]
  simp only [pure_bind, Finset.erase_insert hs, hf]

end Keeps

end

section

variable {x : Derivation} {active : Finset Stretch} {d : Stretch → Tracked (Option (List Subtree))}
  {d' : Stretch → Extract (Option (List Subtree))} (hd : ∀ s, Keeps active (d s) (d' s))

include hd

theorem materialize_keeps (step : Step) (i j : Nat) :
    Keeps active (materialize x d step i j) (x.materialize d' step i j) := by
  rw [materialize, Derivation.materialize]
  dsimp only
  split
  · split
    · exact .bind (.lift _) fun _ => .pure _
    · exact .pure _
  · refine .bind (hd _) fun r => ?_
    cases r with
    | none => exact .pure _
    | some children =>
        dsimp only
        split
        · exact .bind (.lift _) fun _ => .pure _
        · exact .pure _

theorem firstSplit_keeps (step : Step) (stop : Nat) (fits : Nat → Bool) (ks : List Nat) :
    Keeps active (firstSplit x d step stop fits ks) (x.firstSplit d' step stop fits ks) := by
  induction ks with
  | nil => exact .pure _
  | cons k ks ih =>
      rw [firstSplit, Derivation.firstSplit]
      split
      · refine .bind (materialize_keeps hd step k stop) fun r => ?_
        cases r with
        | none => exact ih
        | some nodes => exact .pure _
      · exact ih

theorem deriveSteps_keeps (production origin : Nat) (rev : List Step) (stop : Nat)
    (after : List Subtree) : Keeps active (deriveSteps x d production origin rev stop after)
      (x.deriveSteps d' production origin rev stop after) := by
  induction rev generalizing stop after with
  | nil => exact .pure _
  | cons step before ih =>
      rw [deriveSteps, Derivation.deriveSteps]
      dsimp only
      split
      · split
        · refine .bind (materialize_keeps hd step _ stop) fun r => ?_
          cases r with
          | none => exact .pure _
          | some nodes => exact ih _ _
        · exact .pure _
      · cases x.reusedBefore step origin stop
            fun k => (x.setAt k).contains ⟨production, before.length, origin⟩ with
        | some t => exact .bind (.lift _) fun t => ih _ _
        | none =>
            refine .bind (firstSplit_keeps hd step stop _ _) fun r => ?_
            cases r with
            | none => exact .pure _
            | some r => exact ih _ _

theorem firstProduction_keeps (s : Stretch) (ps : List Nat) :
    Keeps active (firstProduction x d s ps) (x.firstProduction d' s ps) := by
  induction ps with
  | nil => exact .pure _
  | cons p ps ih =>
      rw [firstProduction, Derivation.firstProduction]
      refine .bind (deriveSteps_keeps hd p s.start _ s.stop []) fun r => ?_
      cases r with
      | none => exact ih
      | some children => exact .pure _

end

/-- The induction is on the depth. What is put in on the way down is taken out on the way up. -/
theorem derive_keeps (x : Derivation) (depth : Nat) (active : List Stretch) (s : Stretch) :
    Keeps active.toFinset (derive x depth s) (x.derive depth active s) := by
  induction depth generalizing active s with
  | zero => exact .lift _
  | succ depth ih =>
      rw [derive, Derivation.derive]
      refine .bind (.lift _) fun m => ?_
      cases m.memo.lookup s with
      | some known => exact .pure known
      | none =>
          refine .of_get ?_
          dsimp only
          by_cases hs : s ∈ active
          · rw [if_pos (List.mem_toFinset.2 hs), if_pos (List.contains_iff_mem.2 hs)]
            exact .bind (.lift _) fun _ => .pure none
          · have hs' : s ∉ active.toFinset := fun h => hs (List.mem_toFinset.1 h)
            rw [if_neg hs', if_neg fun h => hs (List.contains_iff_mem.1 h)]
            refine .within hs' ?_ fun result => .bind (.lift _) fun after => ?_
            · rw [← List.toFinset_cons]
              exact firstProduction_keeps (ih (s :: active)) s _
            · split
              · exact .bind (.lift _) fun _ => .pure result
              · exact .pure result

end Tracked

namespace Extract

variable {α β : Type} {n : Nat} {act : Nat → Extract α}

/-- From `n` levels on there is a result from every memory, and more levels do not change it. -/
def Settles (n : Nat) (act : Nat → Extract α) : Prop :=
  ∀ m, ∃ a m', ∀ depth, n ≤ depth → (act depth).run m = some (a, m')

namespace Settles

theorem pure (a : α) : Settles n fun _ => Pure.pure a := fun m => ⟨a, m, fun _ _ => rfl⟩

theorem bind {f : Nat → α → Extract β} (h : Settles n act) (hf : ∀ a, Settles n fun k => f k a) :
    Settles n fun k => act k >>= f k := by
  intro m
  obtain ⟨a, m₁, ha⟩ := h m
  obtain ⟨b, m₂, hb⟩ := hf a m₁
  refine ⟨b, m₂, fun depth hd => ?_⟩
  rw [StateT.run_bind, ha depth hd]
  exact hb depth hd

theorem of_get {f : Nat → Memory → Extract β} (h : ∀ m, Settles n fun k => f k m) :
    Settles n fun k => get >>= f k := fun m => h m m

theorem of_set {m' : Memory} {f : Nat → PUnit → Extract β} (h : Settles n fun k => f k ⟨⟩) :
    Settles n fun k => set m' >>= f k := fun _ => h m'

theorem succ (h : Settles n fun k => act (k + 1)) : Settles (n + 1) act := by
  intro m
  obtain ⟨a, m', ha⟩ := h m
  refine ⟨a, m', fun depth hd => ?_⟩
  obtain ⟨k, rfl⟩ := Nat.exists_eq_add_of_le' (Nat.one_le_of_lt hd)
  exact ha k (Nat.le_of_succ_le_succ hd)

end Settles

end Extract

namespace Derivation

open Extract

variable {x : Derivation} {n : Nat} {d : Nat → Stretch → Extract (Option (List Subtree))}

theorem freshIdent_settles : Settles n fun _ => x.freshIdent :=
  .of_get fun _ => .of_set (.pure _)

theorem rename_settles (kind : Symbol) (t : Subtree) : Settles n fun _ => x.rename kind t := by
  unfold rename
  split
  · exact .pure t
  · exact .bind freshIdent_settles fun _ => .pure _

theorem materialize_settles {step : Step} {i j : Nat}
    (hd : ¬x.tables.isTerminal step.symbol = true → Settles n fun k => d k ⟨step.symbol, i, j⟩) :
    Settles n fun k => x.materialize (d k) step i j := by
  unfold materialize
  dsimp only
  split
  · split
    · exact .bind freshIdent_settles fun _ => .pure _
    · exact .pure _
  · next hk =>
      refine .bind (hd hk) fun r => ?_
      cases r with
      | none => exact .pure none
      | some children =>
          dsimp only
          split
          · exact .bind freshIdent_settles fun _ => .pure _
          · exact .pure _

theorem firstSplit_settles {step : Step} {stop : Nat} {fits : Nat → Bool}
    (hd : ∀ i, fits i = true → Settles n fun k => d k ⟨step.symbol, i, stop⟩) (places : List Nat) :
    Settles n fun k => x.firstSplit (d k) step stop fits places := by
  induction places with
  | nil => exact .pure none
  | cons i places ih =>
      simp only [firstSplit]
      split
      · next hi =>
          refine .bind (materialize_settles fun _ => hd i hi) fun r => ?_
          cases r with
          | none => exact ih
          | some nodes => exact .pure _
      · exact ih

section

variable (hd : ∀ c, x.Completes c → Settles n fun k => d k c)

include hd

theorem deriveSteps_settles (production origin : Nat) (rev : List Step) (stop : Nat)
    (after : List Subtree) :
    Settles n fun k => x.deriveSteps (d k) production origin rev stop after := by
  induction rev generalizing stop after with
  | nil => exact .pure _
  | cons step before ih =>
      simp only [deriveSteps]
      split
      · next hk =>
          split
          · refine .bind (materialize_settles fun hne => absurd hk hne) fun r => ?_
            cases r with
            | none => exact .pure none
            | some nodes => exact ih _ _
          · exact .pure none
      · cases x.reusedBefore step origin stop
            fun k => (x.setAt k).contains ⟨production, before.length, origin⟩ with
        | some t => exact .bind (rename_settles _ t) fun t => ih _ _
        | none =>
            refine .bind (firstSplit_settles (fun i hi => hd _ ?_) _) fun r => ?_
            · exact (Bool.and_eq_true_iff.1 hi).1
            · cases r with
              | none => exact .pure none
              | some r => exact ih _ _

theorem firstProduction_settles (s : Stretch) (ps : List Nat) :
    Settles n fun k => x.firstProduction (d k) s ps := by
  induction ps with
  | nil => exact .pure none
  | cons p ps ih =>
      simp only [firstProduction]
      refine .bind (deriveSteps_settles hd p s.start _ s.stop []) fun r => ?_
      cases r with
      | none => exact ih
      | some children => exact .pure _

end

/-- The stretches that the chart has complete. -/
def completed (x : Derivation) : Finset Stretch := x.stretches.toFinset

theorem mem_completed {s : Stretch} : s ∈ x.completed ↔ x.Completes s := by
  refine List.mem_toFinset.trans ⟨fun h => ?_, fun h => h.mem_stretches⟩
  obtain ⟨k, -, h⟩ := List.mem_flatMap.1 h
  obtain ⟨⟨symbol, start⟩, hpair, rfl⟩ := List.mem_map.1 h
  exact ItemSet.mem_completedPairs.1 hpair

theorem completed_eq_nil {s : Stretch} (h : ¬x.Completes s) :
    (x.setAt s.stop).completed x.tables s.symbol s.start = [] := by
  refine List.eq_nil_iff_forall_not_mem.2 fun p hp => h ?_
  obtain ⟨item, hi, ho, hc, hl, -⟩ := ItemSet.mem_completed.1 hp
  exact ItemSet.completes_iff.2 ⟨item, hi, ho, hc, hl⟩

/-- The induction is on the levels that are left, of which there are more than complete stretches that
are not yet active. A stretch that is not complete has no productions to go on with. -/
theorem derive_settles (active : List Stretch) (s : Stretch)
    (h : (x.completed \ active.toFinset).card < n) :
    Settles n fun depth => x.derive depth active s := by
  induction n generalizing active s with
  | zero => exact absurd h (Nat.not_lt_zero _)
  | succ n ih =>
      refine .succ ?_
      simp only [derive]
      refine .of_get fun m => ?_
      cases m.memo.lookup s with
      | some known => exact .pure known
      | none =>
          dsimp only
          split
          · exact .of_set (.pure none)
          · next hs =>
              have hproductions : Settles n fun k => x.firstProduction (x.derive k (s :: active)) s
                  (x.ranked ((x.setAt s.stop).completed x.tables s.symbol s.start)) := by
                by_cases hc : x.Completes s
                · refine firstProduction_settles (fun c _ => ih (s :: active) c ?_) s _
                  have hm : s ∈ x.completed \ active.toFinset := by
                    rw [Finset.mem_sdiff, List.mem_toFinset]
                    exact ⟨mem_completed.2 hc, fun h => hs (List.contains_iff_mem.2 h)⟩
                  have hpos := Finset.card_pos.2 ⟨s, hm⟩
                  rw [List.toFinset_cons, Finset.sdiff_insert, Finset.card_erase_of_mem hm]
                  omega
                · rw [completed_eq_nil hc]
                  exact .pure none
              refine .bind hproductions fun result => .of_get fun after => ?_
              split
              · exact .of_set (.pure result)
              · exact .pure result

theorem tracked_settles (active : Finset Stretch) (s : Stretch) (m : Memory) :
    ∃ result m', ∀ more,
      ((Tracked.derive x ((x.completed \ active).card + 1 + more) s).run active).run m =
        some ((result, active), m') := by
  obtain ⟨result, m', h⟩ := derive_settles (x := x) active.toList s (Nat.lt_succ_self _) m
  refine ⟨result, m', fun more => ?_⟩
  have hkeeps := Tracked.derive_keeps x ((x.completed \ active).card + 1 + more) active.toList s
  rw [Finset.toList_toFinset] at hkeeps h
  rw [hkeeps, StateT.run_bind, h _ (Nat.le_add_right _ _)]
  rfl

/-- Whatever the chart, a derivation comes to an end from every memory. It takes no more levels than
there are complete stretches that are not yet active, and one: further levels do not change what it
gives. The active stretches are left as they were. -/
theorem derive_terminates (x : Derivation) (s : Stretch) (m : Memory) :
    (∀ active, ∃ result m', ∀ more,
      ((Tracked.derive x ((x.completed \ active).card + 1 + more) s).run active).run m =
        some ((result, active), m')) ∧
    ∃ result m', (x.deriveStretch s).run m = some (result, m') ∧ ∀ more,
      ((Tracked.derive x (x.completed.card + 1 + more) s).run ∅).run m = some ((result, ∅), m') := by
  refine ⟨fun active => tracked_settles active s m, ?_⟩
  obtain ⟨result, m', h⟩ := tracked_settles (x := x) ∅ s m
  rw [Finset.sdiff_empty] at h
  refine ⟨result, m', ?_, h⟩
  obtain ⟨more, hmore⟩ := Nat.exists_eq_add_of_le
    (show x.completed.card + 1 ≤ x.depthBound from depthBound_eq x ▸ Nat.succ_le_succ
      (List.toFinset_card_le x.stretches))
  have hrun : (Tracked.derive x x.depthBound s).run ∅ = do return (← x.deriveStretch s, ∅) :=
    Tracked.derive_keeps x x.depthBound [] s
  have hdone := h more
  rw [← hmore, hrun, StateT.run_bind] at hdone
  obtain ⟨⟨r, m₁⟩, hr, he⟩ := Option.bind_eq_some_iff.1 hdone
  cases he
  exact hr

end Derivation

end EarleyTree

import EarleyTree.Proofs.Checked.Derivation
import EarleyTree.Proofs.Parsing.Roots

/-!
The root of a text without a derivation, with checked lookups: the farthest constituent from each place
is noted in one pass over the chart.
-/
namespace EarleyTree.Checked

section

variable (x : Derivation)

/-- Notes at the place where a visible constituent begins how far it goes, if none goes farther. -/
def noteEnd (j : Nat) (ends : Array (Option (Nat × Symbol))) (e : Symbol × Nat) :
    Except Fault (Array (Option (Nat × Symbol))) := do
  let info ← symbolAt x.tables e.1
  if info.visible ∧ e.2 < j then
    let known ← demand .constituent ends[e.2]?
    return if known.all fun r => r.1 < j then ends.setIfInBounds e.2 (some (j, e.1)) else ends
  else return ends

def bestEnds (order : KeyOrder) : Except Fault (Array (Option (Nat × Symbol))) :=
  (List.range x.sets.size).foldlM (fun ends j => do
    let set ← setAt x.sets j
    (order.arrange j (set.completedPairs x.tables)).foldlM (noteEnd x j) ends)
      (Array.replicate (x.units.size + 1) none)

def fragments (ends : Array (Option (Nat × Symbol))) : Nat → Nat → Extraction (List Subtree)
  | 0, k => if x.units.size ≤ k then return [] else throw .endless
  | fuel + 1, k =>
    if x.units.size ≤ k then return []
    else do
      let constituent ← match ← demand .constituent ends[k]? with
        | none => pure none
        | some (stop, s) =>
          pure ((← materialize x (deriveStretch x) { symbol := s } k stop).map (stop, ·))
      match constituent with
      | some (stop, t :: ts) => return (t :: ts) ++ (← fragments ends fuel stop)
      | _ =>
        let unit ← unitAt x k
        return (← lift (x.unitLeaf unit)) :: (← fragments ends fuel (k + 1))

def errorRoot (order : KeyOrder) : Extraction Subtree := do
  let ends ← bestEnds x order
  let children ← fragments x ends x.units.size 0
  return .node x.rootIdent errorSymbol errorSymbol (← span x 0 x.units.size) children

end

section

variable {x : Derivation} {order : KeyOrder}

/-- What is noted at a place once a constituent up to `j` has been looked at. -/
def noted (x : Derivation) (j o : Nat) (known : Option (Nat × Symbol)) (e : Symbol × Nat) :
    Option (Nat × Symbol) :=
  if x.tables.isVisible e.1 = true ∧ e.2 = o ∧ o < j ∧ known.all (fun r => r.1 < j) = true then
    some (j, e.1)
  else known

/-- There is an entry for each place, and that behind the last unit. -/
def Notes (x : Derivation) (ends : Array (Option (Nat × Symbol))) (f : Nat → Option (Nat × Symbol)) :
    Prop :=
  ∀ o ≤ x.units.size, ends[o]? = some (f o)

theorem noteEnd_eq {j : Nat} (hj : j ≤ x.units.size) {e : Symbol × Nat}
    (he : e.1 < x.tables.symbols.size) {ends : Array (Option (Nat × Symbol))}
    {f : Nat → Option (Nat × Symbol)} (h : Notes x ends f) :
    ∃ ends', noteEnd x j ends e = .ok ends' ∧ Notes x ends' fun o => noted x j o (f o) e := by
  obtain ⟨info, hinfo, -, -, hvisible⟩ := exists_symbolAt he
  rw [noteEnd, hinfo, ok_bind, hvisible]
  split
  · next hc =>
      have ho : e.2 ≤ x.units.size := hc.2.le.trans hj
      rw [h _ ho, demand_some, ok_bind]
      refine ⟨_, rfl, fun o hle => ?_⟩
      show _ = some (noted x j o (f o) e)
      by_cases heq : e.2 = o
      · subst heq
        have hlt : e.2 < ends.size := (Array.getElem?_eq_some_iff.1 (h _ ho)).1
        by_cases hall : (f e.2).all (fun r => r.1 < j) = true
        · have hn : noted x j e.2 (f e.2) e = some (j, e.1) := if_pos ⟨hc.1, rfl, hc.2, hall⟩
          rw [hn, if_pos hall, Array.getElem?_setIfInBounds_self_of_lt hlt]
        · have hn : noted x j e.2 (f e.2) e = f e.2 := if_neg fun hn => hall hn.2.2.2
          rw [hn, if_neg hall, h _ ho]
      · have hn : noted x j o (f o) e = f o := if_neg fun hn => heq hn.2.1
        rw [hn]
        split
        · rw [Array.getElem?_setIfInBounds_ne heq, h o hle]
        · exact h o hle
  · next hc =>
      refine ⟨_, rfl, fun o hle => ?_⟩
      have hn : noted x j o (f o) e = f o := by
        refine if_neg ?_
        rintro ⟨hv, rfl, hlt, -⟩
        exact hc ⟨hv, hlt⟩
      exact (h o hle).trans (congrArg some hn.symm)

theorem foldlM_noteEnd {j : Nat} (hj : j ≤ x.units.size) {pairs : List (Symbol × Nat)}
    (hp : ∀ e ∈ pairs, e.1 < x.tables.symbols.size) {ends : Array (Option (Nat × Symbol))}
    {f : Nat → Option (Nat × Symbol)} (h : Notes x ends f) :
    ∃ ends', pairs.foldlM (noteEnd x j) ends = .ok ends' ∧
      Notes x ends' fun o => pairs.foldl (noted x j o) (f o) := by
  induction pairs generalizing ends f with
  | nil => exact ⟨ends, rfl, h⟩
  | cons e pairs ih =>
      obtain ⟨he, hpairs⟩ := List.forall_mem_cons.1 hp
      obtain ⟨ends₁, hone, h₁⟩ := noteEnd_eq hj he h
      obtain ⟨ends₂, hrest, h₂⟩ := ih hpairs h₁
      refine ⟨ends₂, ?_, h₂⟩
      rw [List.foldlM_cons, hone]
      exact hrest

theorem foldl_noted_of_some (j o : Nat) (s : Symbol) (pairs : List (Symbol × Nat)) :
    pairs.foldl (noted x j o) (some (j, s)) = some (j, s) := by
  induction pairs with
  | nil => rfl
  | cons e pairs ih =>
      rw [List.foldl_cons, noted, if_neg fun h => by simp at h]
      exact ih

/-- The first constituent up to `j` is kept, and goes farther than what was noted before. -/
theorem foldl_noted {j o : Nat} {known : Option (Nat × Symbol)}
    (hk : known.all (fun r => r.1 < j) = true) (pairs : List (Symbol × Nat)) :
    pairs.foldl (noted x j o) known = (if j ≤ o then none else
      (pairs.find? fun (s, i) => i == o && x.tables.isVisible s).map fun (s, _) => (j, s)).or
        known := by
  induction pairs with
  | nil => simp
  | cons e pairs ih =>
      rw [List.foldl_cons, noted]
      split
      · next h =>
          obtain ⟨hv, ho, hlt, -⟩ := h
          rw [foldl_noted_of_some, if_neg (Nat.not_le.2 hlt), List.find?_cons_of_pos (by simp [hv, ho])]
          rfl
      · next h =>
          rw [ih]
          by_cases hle : j ≤ o
          · rw [if_pos hle, if_pos hle]
          · rw [if_neg hle, if_neg hle, List.find?_cons_of_neg]
            simp only [Bool.and_eq_true, beq_iff_eq]
            exact fun hn => h ⟨hn.2, hn.1, Nat.not_le.1 hle, hk⟩

/-- The farthest constituent among those up to places before `m`. -/
def longestBelow (x : Derivation) (order : KeyOrder) (m o : Nat) : Option (Nat × Symbol) :=
  (List.range m).reverse.findSome? fun j =>
    if j ≤ o then none
    else
      ((order.arrange j ((x.setAt j).completedPairs x.tables)).find? fun (s, i) =>
        i == o && x.tables.isVisible s).map fun (s, _) => (j, s)

theorem longestBelow_lt (m o : Nat) :
    (longestBelow x order m o).all (fun r => r.1 < m) = true := by
  cases hl : longestBelow x order m o with
  | none => rfl
  | some r =>
      obtain ⟨j, hj, hr⟩ := List.exists_of_findSome?_eq_some hl
      split at hr
      · cases hr
      · obtain ⟨e, -, rfl⟩ := Option.map_eq_some_iff.1 hr
        simpa using hj

theorem longestBelow_succ (m o : Nat) : longestBelow x order (m + 1) o =
    (if m ≤ o then none else
      ((order.arrange m ((x.setAt m).completedPairs x.tables)).find? fun (s, i) =>
        i == o && x.tables.isVisible s).map fun (s, _) => (m, s)).or (longestBelow x order m o) := by
  rw [longestBelow, List.range_succ, List.reverse_append, List.reverse_singleton,
    List.singleton_append, List.findSome?_cons]
  split
  · next h => rw [h, Option.some_or]
  · next h => rw [h, Option.none_or, longestBelow]

theorem Fits.of_mem_completedPairs (hx : Fits x) {m : Nat} :
    ∀ e ∈ order.arrange m ((x.setAt m).completedPairs x.tables), e.1 < x.tables.symbols.size := by
  intro e he
  have he := (order.perm _ _).mem_iff.1 he
  obtain ⟨item, hi, -, -, hl⟩ := ItemSet.completes_iff.1 (ItemSet.mem_completedPairs.1 he)
  exact hl ▸ hx.addressed.lhs _ (hx.sound.sound hi).production

theorem exists_bestEnds (hx : Fits x) (order : KeyOrder) :
    ∃ ends, bestEnds x order = .ok ends ∧ Notes x ends (x.longestFrom order) := by
  have hbelow : ∀ m ≤ x.sets.size, ∃ ends, (List.range m).foldlM (fun ends j => do
      let set ← setAt x.sets j
      (order.arrange j (set.completedPairs x.tables)).foldlM (noteEnd x j) ends)
        (Array.replicate (x.units.size + 1) none) = .ok ends ∧
          Notes x ends (longestBelow x order m) := by
    intro m
    induction m with
    | zero =>
        refine fun _ => ⟨_, rfl, fun o ho => ?_⟩
        rw [Array.getElem?_replicate, if_pos (by omega)]
        rfl
    | succ m ih =>
        intro hm
        obtain ⟨ends, hends, hnotes⟩ := ih (by omega)
        have hle : m ≤ x.units.size := by rw [hx.size] at hm; omega
        obtain ⟨ends', hends', hnotes'⟩ := foldlM_noteEnd hle hx.of_mem_completedPairs hnotes
        refine ⟨ends', ?_, fun o ho => ?_⟩
        · rw [List.range_succ, List.foldlM_append, hends, ok_bind, List.foldlM_cons, hx.setAt_eq hle,
            ok_bind, hends']
          rfl
        · rw [hnotes' o ho, longestBelow_succ]
          exact congrArg some (foldl_noted (longestBelow_lt m o) _)
  exact hbelow _ le_rfl

namespace Fits

variable (hx : Fits x)

include hx

theorem of_completes {s : Stretch} (h : x.Completes s) :
    s.stop ≤ x.units.size ∧ s.symbol < x.tables.symbols.size := by
  obtain ⟨item, hi, -, -, hl⟩ := ItemSet.completes_iff.1 h
  have hitem := hx.sound.sound hi
  exact ⟨hitem.le_size, hl ▸ hx.addressed.lhs _ hitem.production⟩

/-- The induction is on the fuel, which bounds the units that are left. -/
theorem fragments_eq {ends : Array (Option (Nat × Symbol))}
    (hends : Notes x ends (x.longestFrom order)) (fuel k : Nat) (hfuel : x.units.size ≤ fuel + k) :
    fragments x ends fuel k = lift (x.fragments order fuel k) := by
  induction fuel generalizing k with
  | zero =>
      rw [fragments, if_pos (by omega)]
      rfl
  | succ fuel ih =>
      rw [fragments, Derivation.fragments]
      split
      · next hle =>
          rw [Array.getElem?_eq_none hle]
          rfl
      · next hlt =>
          have hk : k < x.units.size := Nat.not_le.1 hlt
          have hstray : (do
              let unit ← unitAt x k
              return (← lift (x.unitLeaf unit)) :: (← fragments x ends fuel (k + 1)) : Extraction _) =
                lift (do return (← x.unitLeaf x.units[k]) :: (← x.fragments order fuel (k + 1))) := by
            rw [unitAt_eq hk, ok_lift_bind]
            refine lift_bind_all _ fun leaf => ?_
            rw [ih (k + 1) (by omega)]
            exact lift_bind_all _ fun rest => rfl
          rw [hends k hk.le, demand_some, ok_lift_bind, Array.getElem?_eq_getElem hk]
          dsimp only
          cases hlong : x.longestFrom order k with
          | none => exact hstray
          | some r =>
              obtain ⟨stop, s⟩ := r
              obtain ⟨hks, -, hcomp⟩ := Derivation.longestFrom_eq_some hlong
              obtain ⟨hstop, hs⟩ := hx.of_completes hcomp
              dsimp only
              rw [materialize_eq hs k hstop (hx.deriveStretch_eq hstop)]
              refine lift_bind_all _ fun r => ?_
              rcases r with - | - | ⟨t, ts⟩
              · exact hstray
              · exact hstray
              · have hrest : (do return (t :: ts) ++ (← fragments x ends fuel stop) : Extraction _) =
                    lift (do return (t :: ts) ++ (← x.fragments order fuel stop)) := by
                  rw [ih stop (by omega)]
                  exact lift_bind_all _ fun rest => rfl
                exact hrest

theorem errorRoot_eq (order : KeyOrder) : errorRoot x order = lift (x.errorRoot order) := by
  obtain ⟨ends, hends, hnotes⟩ := exists_bestEnds hx order
  rw [errorRoot, hends, ok_lift_bind, hx.fragments_eq hnotes _ 0 (by omega), span_eq 0 le_rfl]
  exact lift_bind_all _ fun children => rfl

end Fits

end

end EarleyTree.Checked

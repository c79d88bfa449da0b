import EarleyTree.Proofs.Checked.Lookup
import EarleyTree.Proofs.Parsing.Exactness

/-!
The chart with checked lookups: where a production, a step, a symbol or a set is asked for and there is
none, there is a fault. On the charts of a parse all of them are there, and the checks change nothing.
-/
namespace EarleyTree.Checked

section

variable (t : Tables)

/-- Adds an item to a set, and says whether it is new there. -/
def add (sets : Array ItemSet) (k : Nat) (item : Item) : Except Fault (Bool × Array ItemSet) := do
  let _ ← productionAt t item.production
  let set ← setAt sets k
  return (!set.contains item, sets.setIfInBounds k (set.add item))

def addAll (k : Nat) : List Item → Array ItemSet → Except Fault (Array ItemSet)
  | [], sets => return sets
  | item :: items, sets => do
    let (_, sets) ← add t sets k item
    addAll k items sets

def consequences (sets : Array ItemSet) (k : Nat) (item : Item) : Except Fault (List Item) := do
  let production ← productionAt t item.production
  match production.steps[item.dot]? with
  | none =>
    let set ← setAt sets item.origin
    return (set.waitingOn t production.lhs).map Item.advance
  | some step =>
    let info ← symbolAt t step.symbol
    if info.isNonterminal then
      let predicted ← productionsAt t step.symbol
      let nullable ← nullableAt t step.symbol
      return predicted.map (fun p => ⟨p, 0, k⟩) ++ if nullable then [item.advance] else []
    else return []

def closeFrom (k : Nat) : Nat → Nat → Array ItemSet → Except Fault (Array ItemSet)
  | 0, _, _ => .error .endless
  | fuel + 1, index, sets => do
    let set ← setAt sets k
    match set.items[index]? with
    | none => return sets
    | some item =>
      let sets ← addAll t k (← consequences t sets k item) sets
      closeFrom k fuel (index + 1) sets

def initialSets : Except Fault (Array ItemSet) := do
  let productions ← productionsAt t t.start
  addAll t 0 (productions.map fun p => ⟨p, 0, 0⟩) #[{}]

def close (sets : Array ItemSet) (k : Nat) : Except Fault (Array ItemSet) :=
  closeFrom t k (t.dottedCount * (k + 1) + 1) 0 sets

def expectedTerminals (sets : Array ItemSet) (k : Nat) : Except Fault (List Symbol) := do
  let set ← setAt sets k
  select (fun s => return !(← isNonterminal t s)) (set.nextSymbols t)

def expectedNonterminals (sets : Array ItemSet) (k : Nat) : Except Fault (List Symbol) := do
  let set ← setAt sets k
  select (isNonterminal t) (set.nextSymbols t)

/-- Steps the items over a unit into a set, and says whether any of them is new there. -/
def advanceAll (k : Nat) (afterExtra : Bool) :
    List Item → Bool → Array ItemSet → Except Fault (Bool × Array ItemSet)
  | [], advanced, sets => return (advanced, sets)
  | item :: items, advanced, sets => do
    let production ← productionAt t item.production
    let step ← stepAt production item.dot
    if step.immediate && afterExtra then advanceAll k afterExtra items advanced sets
    else
      let (new, sets) ← add t sets k item.advance
      advanceAll k afterExtra items (advanced || new) sets

def scan (sets : Array ItemSet) (k : Nat) (s : Symbol) (afterExtra : Bool) :
    Except Fault (Bool × Array ItemSet) := do
  let sets := if sets.size = k + 1 then sets.push {} else sets
  let set ← setAt sets k
  advanceAll t (k + 1) afterExtra (set.waitingOn t s) false sets

def discardAfter (sets : Array ItemSet) (k : Nat) : Array ItemSet := sets.take (k + 1)

def accepts (sets : Array ItemSet) (k : Nat) : Except Fault Bool := do
  let set ← setAt sets k
  return set.completes t t.start 0

end

variable {t : Tables}

section

variable {earlier : Array ItemSet} {set : ItemSet} {item : Item} {k : Nat}

theorem setAt_push (hk : k ≤ earlier.size) :
    setAt (earlier.push set) k = .ok ((earlier[k]?).getD set) := by
  obtain hlt | rfl := Nat.lt_or_eq_of_le hk
  · rw [setAt, Array.getElem?_push_lt hlt, Array.getElem?_eq_getElem hlt, demand_some,
      Option.getD_some]
  · rw [setAt, Array.getElem?_push_size, Array.getElem?_eq_none le_rfl, demand_some, Option.getD_none]

@[simp] theorem setAt_push_size : setAt (earlier.push set) earlier.size = .ok set := by
  rw [setAt_push le_rfl, Array.getElem?_eq_none le_rfl, Option.getD_none]

theorem add_push (hp : item.production < t.productions.size) :
    add t (earlier.push set) earlier.size item =
      .ok (!set.contains item, earlier.push (set.add item)) := by
  obtain ⟨production, hproduction, -⟩ := exists_productionAt hp
  have hset : (earlier.push set).setIfInBounds earlier.size (set.add item) =
      earlier.push (set.add item) := by
    apply Array.toList_inj.1
    simp
  rw [add, hproduction, ok_bind, setAt_push_size, ok_bind, hset]
  rfl

theorem addAll_push {items : List Item} (hp : ∀ item ∈ items, item.production < t.productions.size) :
    addAll t earlier.size items (earlier.push set) = .ok (earlier.push (set.addAll items)) := by
  induction items generalizing set with
  | nil => rfl
  | cons item items ih =>
      obtain ⟨hi, hitems⟩ := List.forall_mem_cons.1 hp
      rw [addAll, add_push hi, ok_bind]
      exact ih hitems

end

section

variable {us : Array InputUnit} {c : Chart} {set : ItemSet} {item : Item}
  (ht : t.WellFormed) (ha : t.Addressed) (h : c.Sound t us)

include ha in
theorem consequences_eq (hi : item.Sound t us c.earlier.size) :
    consequences t (c.earlier.push set) c.earlier.size item =
      .ok (Chart.consequences t c.earlier [] set item) := by
  obtain ⟨production, hproduction, hlhs, hsteps⟩ := exists_productionAt hi.production
  rw [consequences, hproduction, ok_bind, hlhs, hsteps, ← Item.nextStep?, Chart.consequences,
    Item.next?]
  cases hstep : item.nextStep? t with
  | none =>
      rw [setAt_push hi.origin_le]
      rfl
  | some step =>
      have hs := ha.step _ _ (List.mem_of_getElem? hstep)
      obtain ⟨info, hinfo, -, hn, -⟩ := exists_symbolAt hs
      simp only [Option.map_some, hinfo, ok_bind, hn, productionsAt_eq ha hs, nullableAt_eq ha hs]
      split
      · rfl
      · rfl

include ht ha h

/-- As many rounds as there can be items are enough: the items of the set are all different. -/
theorem closeFrom_eq (fuel index : Nat) (set : ItemSet) (hn : set.items.toList.Nodup)
    (hs : ∀ item ∈ set, item.Sound t us us.size) (hi : index ≤ set.items.size)
    (hf : c.capacity t < fuel + index) :
    closeFrom t c.earlier.size fuel index (c.earlier.push set) =
      .ok (c.earlier.push (Chart.closeFrom t c.earlier [] fuel index set)) := by
  induction fuel generalizing index set with
  | zero =>
      have hle := h.length_le set.items.toList hn fun item hm => hs item (Array.mem_toList_iff.1 hm)
      rw [Array.length_toList] at hle
      omega
  | succ fuel ih =>
      rw [closeFrom, setAt_push_size, ok_bind, Chart.closeFrom]
      cases hx : set.items[index]? with
      | none => rfl
      | some item =>
          have hitem := hs item (Array.mem_of_getElem? hx)
          have hnew : ∀ new ∈ Chart.consequences t c.earlier [] set item, new.Sound t us us.size :=
            fun new => h.consequences ht hs hitem
          dsimp only
          rw [consequences_eq ha (h.size ▸ hitem), ok_bind,
            addAll_push fun new hm => (hnew new hm).production, ok_bind]
          refine ih (index + 1) _ (ItemSet.nodup_addAll hn) (fun new hm => ?_) ?_ (by omega)
          · exact (ItemSet.mem_addAll.1 hm).elim (hs new) (hnew new)
          · exact (Array.getElem?_eq_some_iff.1 (ItemSet.getElem?_addAll hx)).1

theorem close_eq : close t c.sets us.size = .ok (c.close t []).sets := by
  have hclose := closeFrom_eq ht ha h (c.capacity t + 1) 0 c.current h.nodup (fun _ => h.current)
    (Nat.zero_le _) (by omega)
  rw [close, ← h.size]
  exact hclose

end

/-- There is such a set, and to go through its items once more brings nothing new. -/
def Closed (t : Tables) (sets : Array ItemSet) (k : Nat) : Prop :=
  ∃ set, setAt sets k = .ok set ∧
    ∀ item ∈ set, ∃ items, consequences t sets k item = .ok items ∧ ∀ new ∈ items, new ∈ set

theorem closed_of_exact (ht : t.WellFormed) (ha : t.Addressed) (us : Array InputUnit)
    {sets : Array ItemSet} {k : Nat}
    (h : ∀ j ≤ k, ∃ set, setAt sets j = .ok set ∧ ∀ item, item ∈ set ↔ item.Sound t us j) :
    Closed t sets k := by
  obtain ⟨set, hset, hmem⟩ := h k le_rfl
  refine ⟨set, hset, fun item hm => ?_⟩
  have hi := (hmem item).1 hm
  obtain ⟨production, hproduction, hlhs, hsteps⟩ := exists_productionAt hi.production
  rw [consequences, hproduction, ok_bind, hlhs, hsteps, ← Item.nextStep?]
  cases hstep : item.nextStep? t with
  | none =>
      have hnone : item.next? t = none := by rw [Item.next?, hstep, Option.map_none]
      obtain ⟨before, hbefore, hwaiting⟩ := h item.origin hi.origin_le
      rw [hbefore]
      refine ⟨_, rfl, fun new hnew => (hmem new).2 ?_⟩
      obtain ⟨waiting, hw, rfl⟩ := List.mem_map.1 hnew
      obtain ⟨hw, hnext⟩ := ItemSet.mem_waitingOn.1 hw
      exact hi.complete hnone ((hwaiting waiting).1 hw) hnext
  | some step =>
      have hnext : item.next? t = some step.symbol := Item.next?_eq_some.2 ⟨step, hstep, rfl⟩
      have hs := ha.step _ _ (List.mem_of_getElem? hstep)
      obtain ⟨info, hinfo, -⟩ := exists_symbolAt hs
      simp only [hinfo, ok_bind, productionsAt_eq ha hs, nullableAt_eq ha hs]
      split
      · refine ⟨_, rfl, fun new hnew => (hmem new).2 ?_⟩
        obtain hnew | hnew := List.mem_append.1 hnew
        · obtain ⟨p, hp, rfl⟩ := List.mem_map.1 hnew
          exact hi.predict ht hnext hp
        · split at hnew
          · next hnull =>
              rw [List.mem_singleton.1 hnew]
              exact hi.skip ht hnext hnull
          · cases hnew
      · exact ⟨_, rfl, fun new hnew => absurd hnew List.not_mem_nil⟩

theorem initialSets_eq (ha : t.Addressed) : initialSets t = .ok (Chart.initial t).sets := by
  rw [initialSets, productionsAt_eq ha ha.start, ok_bind]
  show addAll t (#[] : Array ItemSet).size _ ((#[] : Array ItemSet).push {}) = _
  refine addAll_push fun item hm => ?_
  obtain ⟨p, hp, rfl⟩ := List.mem_map.1 hm
  exact ha.productionsOf _ p hp

section

variable {us : Array InputUnit} {c : Chart} (ha : t.Addressed) (h : c.Sound t us)

include h in
theorem setAt_sets : setAt c.sets us.size = .ok c.current := h.size ▸ setAt_push_size

include ha

omit h in
theorem nextSymbols_lt : ∀ s ∈ c.current.nextSymbols t, s < t.symbols.size := by
  intro s hs
  obtain ⟨item, -, hnext⟩ := List.mem_filterMap.1 hs
  obtain ⟨step, hstep, rfl⟩ := Item.next?_eq_some.1 hnext
  exact ha.step _ _ (List.mem_of_getElem? hstep)

include h

theorem expectedTerminals_eq :
    expectedTerminals t c.sets us.size = .ok (c.current.expectedTerminals t) := by
  rw [expectedTerminals, setAt_sets h, ok_bind]
  refine select_eq fun s hs => ?_
  rw [isNonterminal_eq (nextSymbols_lt ha s hs)]
  rfl

theorem expectedNonterminals_eq :
    expectedNonterminals t c.sets us.size = .ok (c.current.expectedNonterminals t) := by
  rw [expectedNonterminals, setAt_sets h, ok_bind]
  exact select_eq fun s hs => isNonterminal_eq (nextSymbols_lt ha s hs)

omit ha

theorem accepts_eq : accepts t c.sets us.size = .ok (c.accepts t) := by
  rw [accepts, setAt_sets h]
  rfl

end

/-- The items that step over a unit, one step further. -/
def stepped (t : Tables) (afterExtra : Bool) (items : List Item) : List Item :=
  (items.filter fun i => !((i.nextStep? t).any (·.immediate) && afterExtra)).map Item.advance

theorem isEmpty_add (set : ItemSet) (item : Item) :
    (!(set.add item).items.isEmpty) = (!set.items.isEmpty || !set.contains item) := by
  rw [ItemSet.add]
  split
  · next h => simp [h]
  · next h => simp [h]

/-- That some item was new says that the set is not empty, if it says so at the beginning. -/
theorem advanceAll_push {earlier : Array ItemSet} {set : ItemSet} {afterExtra : Bool}
    {items : List Item}
    (hi : ∀ item ∈ items, item.production < t.productions.size ∧ (item.nextStep? t).isSome) :
    advanceAll t earlier.size afterExtra items (!set.items.isEmpty) (earlier.push set) =
      .ok (!(set.addAll (stepped t afterExtra items)).items.isEmpty,
        earlier.push (set.addAll (stepped t afterExtra items))) := by
  induction items generalizing set with
  | nil => rfl
  | cons item items ih =>
      obtain ⟨⟨hp, hstep⟩, hitems⟩ := List.forall_mem_cons.1 hi
      obtain ⟨production, hproduction, -, hsteps⟩ := exists_productionAt hp
      obtain ⟨step, hstep⟩ := Option.isSome_iff_exists.1 hstep
      have hat : stepAt production item.dot = .ok step := by
        rw [stepAt, hsteps, ← Item.nextStep?, hstep, demand_some]
      rw [advanceAll, hproduction, ok_bind, hat, ok_bind, stepped, List.filter_cons, hstep,
        Option.any_some]
      cases himm : step.immediate && afterExtra with
      | true => exact ih hitems
      | false =>
          have hp : item.advance.production < t.productions.size := hp
          rw [if_neg Bool.false_ne_true, add_push hp, ok_bind]
          dsimp only
          rw [← isEmpty_add]
          exact ih hitems

theorem isEmpty_addAll (items : List Item) :
    (({} : ItemSet).addAll items).items.isEmpty = items.isEmpty := by
  cases items with
  | nil => rfl
  | cons item items =>
      have hm : item ∈ ({} : ItemSet).addAll (item :: items) :=
        ItemSet.mem_addAll.2 (.inr List.mem_cons_self)
      rw [List.isEmpty_cons, Array.isEmpty_eq_false_iff]
      exact Array.ne_empty_of_mem hm

theorem isSome_scan? {c : Chart} {s : Symbol} {afterExtra : Bool} :
    (c.scan? t s afterExtra).isSome = !(c.scanned t s afterExtra).isEmpty := by
  rw [Chart.scan?]
  cases c.scanned t s afterExtra with
  | nil => rfl
  | cons item items => rfl

section

variable {us : Array InputUnit} {c : Chart} (h : c.Sound t us)

include h

theorem size_sets : c.sets.size = us.size + 1 := by rw [Chart.sets, Array.size_push, h.size]

theorem setAt_eq {k : Nat} (hk : k ≤ us.size) : setAt c.sets k = .ok (c.setAt k) := by
  have hlt : k < c.sets.size := by rw [size_sets h]; omega
  simp [setAt, Chart.setAt, hlt]

/-- Stepping over a unit leaves the sets as they are and puts one behind them, be it empty. -/
theorem scan_eq (s : Symbol) (afterExtra : Bool) :
    scan t c.sets us.size s afterExtra = .ok ((c.scan? t s afterExtra).isSome,
      c.sets.push (({} : ItemSet).addAll (c.scanned t s afterExtra))) := by
  have hsize := size_sets h
  have hset : setAt (c.sets.push {}) us.size = .ok c.current := by
    rw [setAt_push (by omega), ← setAt_sets h, setAt, Array.getElem?_eq_getElem (by omega)]
    rfl
  rw [scan, if_pos hsize, hset, ok_bind, ← hsize, isSome_scan?, ← isEmpty_addAll]
  show advanceAll t _ afterExtra _ (!({} : ItemSet).items.isEmpty) _ = _
  refine advanceAll_push fun item hm => ?_
  obtain ⟨hm, hnext⟩ := ItemSet.mem_waitingOn.1 hm
  obtain ⟨step, hstep, -⟩ := Item.next?_eq_some.1 hnext
  exact ⟨(h.current hm).production, by rw [hstep, Option.isSome_some]⟩

theorem discardAfter_sets : discardAfter c.sets us.size = c.sets := by
  rw [discardAfter, ← size_sets h]
  simp

theorem discardAfter_push (set : ItemSet) : discardAfter (c.sets.push set) us.size = c.sets := by
  apply Array.toList_inj.1
  rw [discardAfter, ← size_sets h]
  simp

end

end EarleyTree.Checked

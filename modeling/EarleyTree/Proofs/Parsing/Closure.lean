import EarleyTree.Parsing.Chart
import Mathlib.Algebra.BigOperators.Ring.List
import Mathlib.Algebra.Ring.Nat
import Mathlib.Data.List.Nodup
import Mathlib.Data.List.Perm.Subperm

/-!
Closing a set of the chart: every item of the result has been gone through, and what it brings with
it is in the result.
-/
namespace EarleyTree

instance : Membership Item ItemSet := ⟨fun set item => item ∈ set.items⟩

namespace ItemSet

variable {t : Tables} {set : ItemSet} {item new : Item}

@[simp] theorem not_mem_empty : ¬item ∈ ({} : ItemSet) := Array.not_mem_empty item

theorem contains_iff : set.contains item = true ↔ item ∈ set := Array.contains_iff_mem

theorem mem_add : item ∈ set.add new ↔ item ∈ set ∨ item = new := by
  rw [add]
  split
  · next h =>
      refine ⟨.inl, ?_⟩
      rintro (hi | rfl)
      · exact hi
      · exact contains_iff.1 h
  · exact Array.mem_push

theorem mem_addAll {items : List Item} : item ∈ set.addAll items ↔ item ∈ set ∨ item ∈ items := by
  rw [addAll]
  induction items generalizing set with
  | nil => simp
  | cons new items ih => rw [List.foldl_cons, ih, mem_add, List.mem_cons, or_assoc]

theorem nodup_add (h : set.items.toList.Nodup) : (set.add new).items.toList.Nodup := by
  rw [add]
  split
  · exact h
  · next hn =>
      rw [Array.toList_push]
      refine List.nodup_append.2 ⟨h, List.pairwise_singleton _ _, ?_⟩
      intro a ha b hb hab
      rw [hab, List.mem_singleton.1 hb] at ha
      exact hn (contains_iff.2 (Array.mem_toList_iff.1 ha))

theorem nodup_addAll {items : List Item} (h : set.items.toList.Nodup) :
    (set.addAll items).items.toList.Nodup := by
  rw [addAll]
  induction items generalizing set with
  | nil => exact h
  | cons new items ih => exact ih (nodup_add h)

theorem getElem?_add {i : Nat} (h : set.items[i]? = some item) :
    (set.add new).items[i]? = some item := by
  rw [add]
  split
  · exact h
  · obtain ⟨hi, -⟩ := Array.getElem?_eq_some_iff.1 h
    rw [← h]
    exact Array.getElem?_push_lt hi |>.trans (Array.getElem?_eq_getElem hi).symm

/-- Items keep their places. -/
theorem getElem?_addAll {items : List Item} {i : Nat} (h : set.items[i]? = some item) :
    (set.addAll items).items[i]? = some item := by
  rw [addAll]
  induction items generalizing set with
  | nil => exact h
  | cons new items ih => exact ih (getElem?_add h)

theorem mem_waitingOn {s : Symbol} :
    item ∈ set.waitingOn t s ↔ item ∈ set ∧ item.next? t = some s := by
  rw [waitingOn, List.mem_filter, Array.mem_toList_iff, beq_iff_eq]
  rfl

theorem mem_completed {s : Symbol} {origin p : Nat} :
    p ∈ set.completed t s origin ↔
      ∃ item ∈ set, item.origin = origin ∧ item.isComplete t ∧ item.lhs t = s ∧
        item.production = p := by
  simp only [completed, List.mem_map, List.mem_filter, Array.mem_toList_iff, Bool.and_eq_true,
    beq_iff_eq]
  exact ⟨fun ⟨item, ⟨hm, ⟨ho, hc⟩, hs⟩, hp⟩ => ⟨item, hm, ho, hc, hs, hp⟩,
    fun ⟨item, hm, ho, hc, hs, hp⟩ => ⟨item, ⟨hm, ⟨ho, hc⟩, hs⟩, hp⟩⟩

theorem completes_iff {s : Symbol} {origin : Nat} :
    set.completes t s origin = true ↔
      ∃ item ∈ set, item.origin = origin ∧ item.isComplete t ∧ item.lhs t = s := by
  simp only [completes, Array.any_eq_true', Bool.and_eq_true, beq_iff_eq, and_assoc]
  rfl

theorem mem_completedPairs {s : Symbol} {origin : Nat} :
    (s, origin) ∈ set.completedPairs t ↔ set.completes t s origin = true := by
  rw [completes_iff, completedPairs, List.mem_eraseDups, List.mem_map]
  simp only [List.mem_filter, Array.mem_toList_iff, Prod.mk.injEq]
  exact ⟨fun ⟨item, ⟨hm, hc⟩, hs, ho⟩ => ⟨item, hm, ho, hc, hs⟩,
    fun ⟨item, hm, ho, hc, hs⟩ => ⟨item, ⟨hm, hc⟩, hs, ho⟩⟩

end ItemSet

namespace Item

variable {t : Tables} {item : Item}

theorem next?_eq_some {s : Symbol} :
    item.next? t = some s ↔ ∃ step, item.nextStep? t = some step ∧ step.symbol = s :=
  Option.map_eq_some_iff

theorem isComplete_iff : item.isComplete t = true ↔ item.next? t = none := by
  rw [isComplete, Option.isNone_iff_eq_none, next?, Option.map_eq_none_iff]

theorem isComplete_iff_le :
    item.isComplete t = true ↔ (t.steps item.production).length ≤ item.dot := by
  rw [isComplete, Option.isNone_iff_eq_none, nextStep?, List.getElem?_eq_none_iff]

end Item

namespace Chart

variable {t : Tables} {earlier : Array ItemSet} {suppressed : List Symbol} {set : ItemSet}
  {item new : Item}

theorem mem_consequences_of_complete (hi : item.next? t = none) :
    new ∈ consequences t earlier suppressed set item ↔
      ∃ waiting ∈ (earlier[item.origin]?).getD set,
        waiting.next? t = some (item.lhs t) ∧ new = waiting.advance := by
  simp only [consequences, hi, List.mem_map, ItemSet.mem_waitingOn, and_assoc, eq_comm]

theorem mem_consequences_of_next {s : Symbol} (hi : item.next? t = some s) :
    new ∈ consequences t earlier suppressed set item ↔ t.isNonterminal s ∧
      (s ∉ suppressed ∧ (∃ p ∈ t.productionsOf s, new = ⟨p, 0, earlier.size⟩) ∨
        t.isNullable s ∧ new = item.advance) := by
  simp only [consequences, hi]
  by_cases hn : t.isNonterminal s
  · rw [if_pos hn, List.mem_append]
    have hpredict : new ∈ (if suppressed.contains s then [] else
        (t.productionsOf s).map fun p => (⟨p, 0, earlier.size⟩ : Item)) ↔
          s ∉ suppressed ∧ ∃ p ∈ t.productionsOf s, new = ⟨p, 0, earlier.size⟩ := by
      by_cases hs : s ∈ suppressed
      · simp [hs]
      · simp [hs, eq_comm]
    have hskip : new ∈ (if t.isNullable s then [item.advance] else []) ↔
        t.isNullable s ∧ new = item.advance := by
      by_cases hnull : t.isNullable s <;> simp [hnull]
    rw [hpredict, hskip]
    simp [hn]
  · simp [hn]

/-- Going through the items of a set from a place on, those that are added on the way as well, ends with
the second set. -/
inductive Closes (t : Tables) (earlier : Array ItemSet) (suppressed : List Symbol) :
    Nat → ItemSet → ItemSet → Prop
  | stop {index : Nat} {set : ItemSet} (h : set.items[index]? = none) :
      Closes t earlier suppressed index set set
  | next {index : Nat} {set final : ItemSet} {item : Item} (h : set.items[index]? = some item)
      (hs : Closes t earlier suppressed (index + 1)
        (set.addAll (consequences t earlier suppressed set item)) final) :
      Closes t earlier suppressed index set final

/-- What the item brings with it, at the time when it was gone through, is in the set. -/
def Done (t : Tables) (earlier : Array ItemSet) (suppressed : List Symbol) (set : ItemSet)
    (item : Item) : Prop :=
  ∃ part : ItemSet, ∀ new ∈ consequences t earlier suppressed part item, new ∈ set

theorem Done.addAll {items : List Item} (h : Done t earlier suppressed set item) :
    Done t earlier suppressed (set.addAll items) item :=
  h.imp fun _ hp new hn => ItemSet.mem_addAll.2 (.inl (hp new hn))

theorem Closes.unique {index : Nat} {final other : ItemSet}
    (h : Closes t earlier suppressed index set final)
    (ho : Closes t earlier suppressed index set other) : final = other := by
  induction h with
  | stop hi =>
      cases ho with
      | stop => rfl
      | next hi' => cases hi.symm.trans hi'
  | next hi _ ih =>
      cases ho with
      | stop hi' => cases hi.symm.trans hi'
      | next hi' ho =>
          obtain rfl := Option.some.inj (hi.symm.trans hi')
          exact ih ho

section

variable {P : Item → Prop} {bound index : Nat}
  (hP : ∀ set : ItemSet, (∀ item ∈ set, P item) → ∀ item, P item →
    ∀ new ∈ consequences t earlier suppressed set item, P new)

include hP

theorem addAll_consequences (hs : ∀ item ∈ set, P item) (hx : set.items[index]? = some item) :
    ∀ new ∈ set.addAll (consequences t earlier suppressed set item), P new := by
  intro new hm
  obtain hm | hm := ItemSet.mem_addAll.1 hm
  · exact hs new hm
  · exact hP set hs _ (hs _ (Array.mem_of_getElem? hx)) new hm

/-- The rounds are enough where only so many different items have a property that consequences
inherit. -/
theorem closes_closeFrom
    (hb : ∀ items : List Item, items.Nodup → (∀ item ∈ items, P item) → items.length ≤ bound)
    (fuel index : Nat) (set : ItemSet) (hn : set.items.toList.Nodup) (hs : ∀ item ∈ set, P item)
    (hi : index ≤ set.items.size) (hf : bound < fuel + index) :
    Closes t earlier suppressed index set (closeFrom t earlier suppressed fuel index set) := by
  induction fuel generalizing index set with
  | zero =>
      have hle := hb set.items.toList hn fun item hm => hs item (Array.mem_toList_iff.1 hm)
      rw [Array.length_toList] at hle
      omega
  | succ fuel ih =>
      rw [closeFrom]
      cases hx : set.items[index]? with
      | none => exact .stop hx
      | some item =>
          refine .next hx (ih (index + 1) _ (ItemSet.nodup_addAll hn) ?_ ?_ (by omega))
          · exact addAll_consequences hP hs hx
          · exact (Array.getElem?_eq_some_iff.1 (ItemSet.getElem?_addAll hx)).1

/-- The property holds of all items of the closed set, and none of what they bring is left out. -/
theorem Closes.spec {final : ItemSet} (h : Closes t earlier suppressed index set final)
    (hn : set.items.toList.Nodup) (hs : ∀ item ∈ set, P item)
    (hd : ∀ i < index, ∀ item, set.items[i]? = some item → Done t earlier suppressed set item) :
    (∀ item ∈ set, item ∈ final) ∧ final.items.toList.Nodup ∧
      ∀ item ∈ final, P item ∧ Done t earlier suppressed final item := by
  induction h with
  | @stop index set hx =>
      refine ⟨fun _ h => h, hn, fun item hm => ⟨hs item hm, ?_⟩⟩
      obtain ⟨i, hlt, rfl⟩ := Array.mem_iff_getElem.1 hm
      have hge := Array.getElem?_eq_none_iff.1 hx
      exact hd i (Nat.lt_of_lt_of_le hlt hge) _ (Array.getElem?_eq_getElem hlt)
  | @next index set final item hx _ ih =>
      have hstep := ih (ItemSet.nodup_addAll hn) (addAll_consequences hP hs hx) ?_
      · exact ⟨fun item hm => hstep.1 item (ItemSet.mem_addAll.2 (.inl hm)), hstep.2⟩
      · intro i hi item' hx'
        obtain hi | rfl := Nat.lt_succ_iff_lt_or_eq.1 hi
        · have hlt : i < set.items.size :=
            Nat.lt_trans hi (Array.getElem?_eq_some_iff.1 hx).1
          have he := Array.getElem?_eq_getElem hlt
          rw [ItemSet.getElem?_addAll he] at hx'
          exact (hd i hi item' (he.trans hx')).addAll
        · rw [ItemSet.getElem?_addAll hx] at hx'
          obtain rfl := Option.some.inj hx'
          exact ⟨set, fun new hm => ItemSet.mem_addAll.2 (.inr hm)⟩

end

/-- All dotted productions with all origins up to `k`. -/
def dottedUpTo (t : Tables) (k : Nat) : List Item :=
  (List.range t.productions.size).flatMap fun p =>
    (List.range ((t.steps p).length + 1)).flatMap fun d => (List.range (k + 1)).map fun o => ⟨p, d, o⟩

theorem mem_dottedUpTo {k : Nat} :
    item ∈ dottedUpTo t k ↔ item.production < t.productions.size ∧
      item.dot ≤ (t.steps item.production).length ∧ item.origin ≤ k := by
  simp only [dottedUpTo, List.mem_flatMap, List.mem_map, List.mem_range, Nat.lt_succ_iff]
  constructor
  · rintro ⟨p, hp, d, hd, o, ho, rfl⟩
    exact ⟨hp, hd, ho⟩
  · rintro ⟨hp, hd, ho⟩
    exact ⟨_, hp, _, hd, _, ho, rfl⟩

theorem dottedCount_eq_sum (t : Tables) :
    t.dottedCount =
      ((List.range t.productions.size).map fun p => (t.steps p).length + 1).sum := by
  have hfold : ∀ (ps : List Production) (n : Nat),
      ps.foldl (fun n p => n + p.steps.length + 1) n =
        n + (ps.map fun p => p.steps.length + 1).sum := by
    intro ps
    induction ps with
    | nil => exact fun n => rfl
    | cons p ps ih =>
        intro n
        rw [List.foldl_cons, ih, List.map_cons, List.sum_cons]
        omega
  have hmap : ((List.range t.productions.size).map fun p => (t.steps p).length + 1) =
      t.productions.toList.map fun p => p.steps.length + 1 := by
    refine List.ext_getElem (by simp) fun i hi _ => ?_
    rw [List.length_map, List.length_range] at hi
    simp [Tables.steps, hi]
  rw [Tables.dottedCount, ← Array.foldl_toList, hfold, hmap, Nat.zero_add]

theorem length_dottedUpTo (t : Tables) (k : Nat) :
    (dottedUpTo t k).length = t.dottedCount * (k + 1) := by
  rw [dottedUpTo, List.length_flatMap, dottedCount_eq_sum, ← List.sum_map_mul_right _ _ (k + 1)]
  simp only [List.length_flatMap, List.length_map, List.length_range, List.map_const',
    List.sum_replicate_nat]

theorem length_le_capacity {items : List Item} {k : Nat} (hn : items.Nodup)
    (h : ∀ item ∈ items, item.production < t.productions.size ∧
      item.dot ≤ (t.steps item.production).length ∧ item.origin ≤ k) :
    items.length ≤ t.dottedCount * (k + 1) := by
  rw [← length_dottedUpTo]
  exact (List.subperm_of_subset hn fun item hm => mem_dottedUpTo.2 (h item hm)).length_le

end Chart

end EarleyTree

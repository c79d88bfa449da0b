import EarleyTree.Proofs.Parsing.Recognition

/-!
Charts along a parse. Each set is sound; without reuse every closed set is exact.
-/
namespace EarleyTree

variable {t : Tables} {us : Array InputUnit} {u : InputUnit} {item new : Item}

namespace Chart

variable {c d : Chart} {suppressed : List Symbol}

/-- The set behind the first `k` units; no items where there is none. -/
def setAt (c : Chart) (k : Nat) : ItemSet := c.sets.getD k {}

theorem setAt_index (c : Chart) : c.setAt c.earlier.size = c.current := by
  simp [setAt, sets, Array.getD_eq_getD_getElem?]

theorem setAt_of_lt {k : Nat} (h : k < c.earlier.size) : c.setAt k = c.earlier[k] := by
  simp [setAt, sets, Array.getD_eq_getD_getElem?, Array.getElem?_push_lt h]

theorem getD_earlier {k : Nat} (h : k < c.earlier.size) (set : ItemSet) :
    (c.earlier[k]?).getD set = c.setAt k := by
  rw [Array.getElem?_eq_getElem h, Option.getD_some, setAt_of_lt h]

/-- There is one set behind each unit, and no item without a derivation. -/
structure Sound (t : Tables) (us : Array InputUnit) (c : Chart) : Prop where
  size : c.earlier.size = us.size
  nodup : c.current.items.toList.Nodup
  sound : ∀ {k item}, k ≤ us.size → item ∈ c.setAt k → item.Sound t us k

/-- The sets before the last one hold all that has a derivation, and the last one what it is closed
from. -/
structure Exact (t : Tables) (us : Array InputUnit) (c : Chart) : Prop extends c.Sound t us where
  complete : ∀ {k item}, k < us.size → item.Sound t us k → item ∈ c.setAt k
  seeded : SeededAt t us c.setAt us.size

namespace Sound

theorem current (h : c.Sound t us) (hi : item ∈ c.current) : item.Sound t us us.size := by
  refine h.sound le_rfl ?_
  rwa [← h.size, setAt_index]

theorem initial (ht : t.WellFormed) : (initial t).Sound t #[] where
  size := rfl
  nodup := ItemSet.nodup_addAll (by simp)
  sound := by
    intro k item hk hi
    obtain rfl : k = 0 := Nat.le_zero.1 hk
    have hm : item ∈ (Chart.initial t).current := hi
    rw [Chart.initial, ItemSet.mem_addAll] at hm
    obtain hm | hm := hm
    · exact absurd hm ItemSet.not_mem_empty
    · obtain ⟨p, hp, rfl⟩ := List.mem_map.1 hm
      exact .start ht hp

/-- Whatever an item of the last set brings with it has a derivation. -/
theorem consequences (ht : t.WellFormed) (h : c.Sound t us) {set : ItemSet}
    (hs : ∀ item ∈ set, item.Sound t us us.size) (hi : item.Sound t us us.size)
    (hn : new ∈ consequences t c.earlier suppressed set item) : new.Sound t us us.size := by
  cases hnext : item.next? t with
  | none =>
      obtain ⟨waiting, hw, hwn, rfl⟩ := (mem_consequences_of_complete hnext).1 hn
      refine hi.complete hnext ?_ hwn
      obtain hlt | heq := Nat.lt_or_eq_of_le hi.origin_le
      · rw [getD_earlier (h.size ▸ hlt)] at hw
        exact h.sound hlt.le hw
      · rw [Array.getElem?_eq_none (by rw [h.size, heq]), Option.getD_none] at hw
        exact heq ▸ hs _ hw
  | some s =>
      obtain ⟨-, ⟨-, p, hp, rfl⟩ | ⟨hnull, rfl⟩⟩ := (mem_consequences_of_next hnext).1 hn
      · exact h.size ▸ hi.predict ht hnext hp
      · exact hi.skip ht hnext hnull

theorem length_le (h : c.Sound t us) (items : List Item) (hn : items.Nodup)
    (hi : ∀ item ∈ items, item.Sound t us us.size) : items.length ≤ c.capacity t := by
  rw [capacity, index, h.size]
  exact length_le_capacity hn fun item hm =>
    ⟨(hi item hm).production, (hi item hm).dot, (hi item hm).origin_le⟩

theorem closes (ht : t.WellFormed) (h : c.Sound t us) (suppressed : List Symbol) :
    Closes t c.earlier suppressed 0 c.current (c.close t suppressed).current :=
  closes_closeFrom (fun _ hs _ hi _ hn => h.consequences ht hs hi hn) h.length_le _ _ _ h.nodup
    (fun _ => h.current) (Nat.zero_le _) (by omega)

theorem close_spec (ht : t.WellFormed) (h : c.Sound t us) (suppressed : List Symbol) :
    (∀ item ∈ c.current, item ∈ (c.close t suppressed).current) ∧
      (c.close t suppressed).current.items.toList.Nodup ∧
      ∀ item ∈ (c.close t suppressed).current, item.Sound t us us.size ∧
        Done t c.earlier suppressed (c.close t suppressed).current item :=
  (h.closes ht suppressed).spec (fun _ hs _ hi _ hn => h.consequences ht hs hi hn) h.nodup
    (fun _ => h.current) (fun _ hi => absurd hi (Nat.not_lt_zero _))

end Sound

theorem setAt_close {k : Nat} (h : k < c.earlier.size) :
    (c.close t suppressed).setAt k = c.setAt k := by
  rw [setAt_of_lt h]
  exact setAt_of_lt (c := c.close t suppressed) h

theorem Sound.close (ht : t.WellFormed) (h : c.Sound t us) (suppressed : List Symbol) :
    (c.close t suppressed).Sound t us where
  size := h.size
  nodup := (h.close_spec ht suppressed).2.1
  sound := by
    intro k item hk hi
    obtain hlt | rfl := Nat.lt_or_eq_of_le hk
    · rw [setAt_close (h.size ▸ hlt)] at hi
      exact h.sound hk hi
    · rw [← h.size] at hi
      exact ((h.close_spec ht suppressed).2.2 item (setAt_index (c.close t suppressed) ▸ hi)).1

namespace Exact

theorem initial (ht : t.WellFormed) : (initial t).Exact t #[] where
  toSound := .initial ht
  complete hk := absurd hk (Nat.not_lt_zero _)
  seeded := by
    refine ⟨fun _ hp => ?_, fun hk => absurd hk (by simp)⟩
    show _ ∈ (Chart.initial t).current
    exact ItemSet.mem_addAll.2 (.inr (List.mem_map.2 ⟨_, hp, rfl⟩))

theorem mem_iff_of_lt (h : c.Exact t us) {k : Nat} (hk : k < us.size) :
    item ∈ c.setAt k ↔ item.Sound t us k := ⟨h.sound hk.le, h.complete hk⟩

/-- The set is saturated once it is closed: its completions look back at exact sets, and those that
begin in the set itself are left to the table of nullable symbols. -/
theorem saturatedAt (ht : t.WellFormed) (h : c.Exact t us) :
    SaturatedAt t (c.close t []).setAt us.size := by
  have hcur : (c.close t []).setAt us.size = (c.close t []).current :=
    h.size ▸ setAt_index (c.close t [])
  obtain ⟨-, -, hdone⟩ := h.close_spec ht []
  rw [← hcur] at hdone
  refine ⟨?_, ?_, ?_⟩
  · intro item s p hi hn hs hp
    obtain ⟨part, hpart⟩ := (hdone item hi).2
    exact h.size ▸ hpart _ ((mem_consequences_of_next hn).2 ⟨hs, .inl ⟨List.not_mem_nil, p, hp, rfl⟩⟩)
  · intro item s hi hn hs hnull
    obtain ⟨part, hpart⟩ := (hdone item hi).2
    exact hpart _ ((mem_consequences_of_next hn).2 ⟨hs, .inr ⟨hnull, rfl⟩⟩)
  · intro item waiting hi hn ho hw hwn
    have ho' : item.origin < c.earlier.size := h.size ▸ ho
    obtain ⟨part, hpart⟩ := (hdone item hi).2
    refine hpart _ ((mem_consequences_of_complete hn).2 ⟨waiting, ?_, hwn, rfl⟩)
    rwa [getD_earlier ho', ← setAt_close ho']

theorem seededAt_close (ht : t.WellFormed) (h : c.Exact t us) :
    SeededAt t us (c.close t []).setAt us.size := by
  have hsub : ∀ item ∈ c.setAt us.size, item ∈ (c.close t []).setAt us.size := by
    intro item hi
    rw [← h.size, setAt_index] at hi
    rw [← h.size]
    exact (setAt_index (c.close t [])).symm ▸ (h.close_spec ht []).1 item hi
  refine ⟨fun hk hp => hsub _ (h.seeded.started hk hp), fun hk hu hi hn hs => ?_⟩
  rw [setAt_close (by rw [h.size]; omega)] at hi
  exact hsub _ (h.seeded.scanned hk hu hi hn hs)

/-- A closed set holds exactly the items that have a derivation. -/
theorem mem_close_iff (ht : t.WellFormed) (h : c.Exact t us) {k : Nat} (hk : k ≤ us.size) :
    item ∈ (c.close t []).setAt k ↔ item.Sound t us k := by
  have hearlier : ∀ i < us.size, ∀ item, item ∈ (c.close t []).setAt i ↔ item.Sound t us i :=
    fun i hi item => by rw [setAt_close (h.size ▸ hi), h.mem_iff_of_lt hi]
  refine ⟨(h.toSound.close ht []).sound hk, fun hs => ?_⟩
  refine hs.mem ht (fun i hi => ?_) (fun i hi => ?_) hk
  · obtain hlt | rfl := Nat.lt_or_eq_of_le hi
    · exact .of_exact ht fun j hj => hearlier j (Nat.lt_of_le_of_lt hj hlt)
    · exact h.saturatedAt ht
  · obtain hlt | rfl := Nat.lt_or_eq_of_le hi
    · exact .of_exact ht fun j hj => hearlier j (Nat.lt_of_le_of_lt hj hlt)
    · exact h.seededAt_close ht

theorem close (ht : t.WellFormed) (h : c.Exact t us) : (c.close t []).Exact t us where
  toSound := h.toSound.close ht []
  complete hk hs := (h.mem_close_iff ht hk.le).2 hs
  seeded := h.seededAt_close ht

end Exact

theorem mem_scanned : new ∈ c.scanned t u.symbol u.afterExtra ↔
    ∃ item ∈ c.current, ∃ step, item.nextStep? t = some step ∧ step.Takes u ∧ new = item.advance := by
  simp only [scanned, List.mem_map, List.mem_filter, ItemSet.mem_waitingOn, Item.next?_eq_some]
  constructor
  · rintro ⟨item, ⟨⟨hi, step, hn, hs⟩, himm⟩, rfl⟩
    exact ⟨item, hi, step, hn, ⟨hs, by simpa [hn, or_iff_not_imp_left] using himm⟩, rfl⟩
  · rintro ⟨item, hi, step, hn, ⟨hs, himm⟩, rfl⟩
    exact ⟨item, ⟨⟨hi, step, hn, hs⟩, by simpa [hn, or_iff_not_imp_left] using himm⟩, rfl⟩

section

variable (hd : c.scan? t u.symbol u.afterExtra = some d)

include hd

/-- One more set: that of the items that step over the unit. -/
theorem scan?_eq_some :
    d.earlier = c.sets ∧ d.current = ({} : ItemSet).addAll (c.scanned t u.symbol u.afterExtra) := by
  rw [scan?] at hd
  split at hd
  · cases hd
  · obtain rfl := Option.some.inj hd
    exact ⟨rfl, rfl⟩

theorem size_scan? : d.earlier.size = c.earlier.size + 1 := by
  rw [(scan?_eq_some hd).1, sets, Array.size_push]

theorem setAt_scan? {k : Nat} (hk : k ≤ c.earlier.size) : d.setAt k = c.setAt k := by
  have hlt : k < d.earlier.size := by rw [size_scan? hd]; omega
  have hlt' : k < c.sets.size := by rw [← (scan?_eq_some hd).1]; exact hlt
  rw [setAt_of_lt hlt, setAt, Array.getD_eq_getD_getElem?, Array.getElem?_eq_getElem hlt']
  simp only [(scan?_eq_some hd).1, Option.getD_some]

theorem mem_setAt_scan? : new ∈ d.setAt (c.earlier.size + 1) ↔
    ∃ item ∈ c.setAt c.earlier.size, ∃ step, item.nextStep? t = some step ∧ step.Takes u ∧
      new = item.advance := by
  rw [← size_scan? hd, setAt_index, (scan?_eq_some hd).2, ItemSet.mem_addAll, setAt_index,
    mem_scanned]
  exact or_iff_right ItemSet.not_mem_empty

end

theorem Sound.scan (h : c.Sound t us) (hd : c.scan? t u.symbol u.afterExtra = some d) :
    d.Sound t (us.push u) where
  size := by rw [size_scan? hd, Array.size_push, h.size]
  nodup := by
    rw [(scan?_eq_some hd).2]
    exact ItemSet.nodup_addAll (by simp)
  sound := by
    intro k new hk hn
    rw [Array.size_push] at hk
    obtain hlt | rfl := Nat.lt_or_eq_of_le hk
    · rw [setAt_scan? hd (by rw [h.size]; omega)] at hn
      have hk' := Nat.lt_succ_iff.1 hlt
      exact (Item.Sound.push_iff hk').2 (h.sound hk' hn)
    · rw [← h.size, mem_setAt_scan? hd, h.size] at hn
      obtain ⟨item, hi, step, hnext, hs, rfl⟩ := hn
      exact ((Item.Sound.push_iff le_rfl).2 (h.sound le_rfl hi)).advance hnext
        (.singleton_unit Array.getElem?_push_size hs)

/-- Behind a chart whose sets are all exact comes an exact chart. -/
theorem Exact.scan (h : c.Sound t us)
    (hc : ∀ {k item}, k ≤ us.size → item.Sound t us k → item ∈ c.setAt k)
    (hd : c.scan? t u.symbol u.afterExtra = some d) : d.Exact t (us.push u) where
  toSound := h.scan hd
  complete := by
    intro k item hk hs
    rw [Array.size_push, Nat.lt_succ_iff] at hk
    rw [setAt_scan? hd (h.size ▸ hk)]
    exact hc hk ((Item.Sound.push_iff hk).1 hs)
  seeded := by
    rw [Array.size_push]
    refine ⟨fun hk => absurd hk (Nat.succ_ne_zero _), ?_⟩
    intro i v item step hk hu hi hn hs
    obtain rfl := Nat.succ.inj hk
    rw [Array.getElem?_push_size] at hu
    obtain rfl := Option.some.inj hu
    rw [setAt_scan? hd h.size.ge] at hi
    rw [← h.size, mem_setAt_scan? hd, h.size]
    exact ⟨item, hi, step, hn, hs, rfl⟩

end Chart

end EarleyTree

import EarleyTree.Proofs.Parsing.FreshChart

/-!
Closing a set in two phases, at first without some of the predictions, comes to the items of closing it
once: both are the least set that holds the items at the start and all that its own items bring.
-/
namespace EarleyTree

theorem ItemSet.add_eq_self {set : ItemSet} {item : Item} (h : item ∈ set) : set.add item = set :=
  if_pos (contains_iff.2 h)

theorem ItemSet.addAll_eq_self {set : ItemSet} {items : List Item} (h : ∀ item ∈ items, item ∈ set) :
    set.addAll items = set := by
  induction items with
  | nil => rfl
  | cons item items ih =>
      obtain ⟨hi, hitems⟩ := List.forall_mem_cons.1 h
      rw [addAll, List.foldl_cons, add_eq_self hi]
      exact ih hitems

namespace Chart

/-- The charts that there are: the first one, and what comes of them by closing the last set, whatever is
held back, and by stepping over a unit, whatever it is. -/
inductive Built (t : Tables) : Chart → Prop
  | initial : Built t (.initial t)
  | close {c : Chart} (suppressed : List Symbol) (h : Built t c) : Built t (c.close t suppressed)
  | scan {c d : Chart} {s : Symbol} {afterExtra : Bool} (h : Built t c)
      (hs : c.scan? t s afterExtra = some d) : Built t d

/-- Nothing is missing that an item of the set brings with it. -/
def Saturated (t : Tables) (earlier : Array ItemSet) (set : ItemSet) : Prop :=
  ∀ item ∈ set, ∀ new ∈ consequences t earlier [] set item, new ∈ set

variable {t : Tables} {us : Array InputUnit} {c : Chart} {earlier : Array ItemSet}
  {suppressed : List Symbol} {set whole final : ItemSet} {item new : Item} {index : Nat}

/-- Every chart is that of some units. -/
theorem Built.exists_sound (ht : t.WellFormed) (h : c.Built t) : ∃ us, c.Sound t us := by
  induction h with
  | initial => exact ⟨#[], .initial ht⟩
  | close suppressed _ ih =>
      obtain ⟨us, h⟩ := ih
      exact ⟨us, h.close ht suppressed⟩
  | @scan c d s afterExtra _ hs ih =>
      obtain ⟨us, h⟩ := ih
      exact ⟨_, h.scan (u := .token ⟨s, 0, 0, afterExtra, none⟩) hs⟩

theorem Sound.closes_iff (ht : t.WellFormed) (h : c.Sound t us) :
    Closes t c.earlier suppressed 0 c.current final ↔ final = (c.close t suppressed).current := by
  refine ⟨fun hc => hc.unique (h.closes ht suppressed), ?_⟩
  rintro rfl
  exact h.closes ht suppressed

theorem consequences_mono (hsub : ∀ item ∈ set, item ∈ whole)
    (hn : new ∈ consequences t earlier suppressed set item) :
    new ∈ consequences t earlier [] whole item := by
  cases hnext : item.next? t with
  | none =>
      rw [mem_consequences_of_complete hnext] at hn ⊢
      obtain ⟨waiting, hw, hn⟩ := hn
      refine ⟨waiting, ?_, hn⟩
      cases ho : earlier[item.origin]? with
      | none =>
          rw [ho] at hw
          exact hsub waiting hw
      | some set' =>
          rw [ho] at hw
          exact hw
  | some s =>
      rw [mem_consequences_of_next hnext] at hn ⊢
      obtain ⟨hs, hn⟩ := hn
      exact ⟨hs, hn.imp_left fun h => ⟨List.not_mem_nil, h.2⟩⟩

/-- Closing a set goes nowhere beyond a saturated one. -/
theorem Closes.subset (h : Closes t earlier suppressed index set final)
    (hsat : Saturated t earlier whole) (hsub : ∀ item ∈ set, item ∈ whole) :
    ∀ item ∈ final, item ∈ whole := by
  induction h with
  | stop => exact hsub
  | next hx _ ih =>
      refine ih fun new hm => ?_
      obtain hm | hm := ItemSet.mem_addAll.1 hm
      · exact hsub new hm
      · have hitem := hsub _ (Array.mem_of_getElem? hx)
        exact hsat _ hitem new (consequences_mono hsub hm)

theorem Closes.eq_self (h : Closes t earlier suppressed index set final)
    (hsat : Saturated t earlier set) : final = set := by
  induction h with
  | stop => rfl
  | @next index set final item hx _ ih =>
      have hitem : item ∈ set := Array.mem_of_getElem? hx
      have hadd : set.addAll (consequences t earlier suppressed set item) = set :=
        ItemSet.addAll_eq_self fun new hm =>
          hsat item hitem new (consequences_mono (fun _ h => h) hm)
      rw [hadd] at ih
      exact ih hsat

theorem Sound.close_eq_self (ht : t.WellFormed) (h : c.Sound t us)
    (hsat : Saturated t c.earlier c.current) : c.close t suppressed = c := by
  have hcurrent : (c.close t suppressed).current = c.current :=
    (h.closes ht suppressed).eq_self hsat
  calc
    c.close t suppressed = { c with current := (c.close t suppressed).current } := rfl
    _ = c := by rw [hcurrent]

/-- What is complete over nothing is nullable, so that an item which came to wait for it later on has
stepped over it all the same. -/
theorem Sound.saturated_close (ht : t.WellFormed) (h : c.Sound t us) :
    Saturated t c.earlier (c.close t []).current := by
  obtain ⟨-, -, hdone⟩ := h.close_spec ht []
  intro item hi new hnew
  obtain ⟨hsound, part, hpart⟩ := hdone item hi
  cases hnext : item.next? t with
  | some s =>
      rw [mem_consequences_of_next hnext] at hnew
      exact hpart new ((mem_consequences_of_next hnext).2 hnew)
  | none =>
      obtain ⟨waiting, hw, hwn, rfl⟩ := (mem_consequences_of_complete hnext).1 hnew
      cases ho : c.earlier[item.origin]? with
      | some before =>
          rw [ho, Option.getD_some] at hw
          refine hpart _ ((mem_consequences_of_complete hnext).2 ⟨waiting, ?_, hwn, rfl⟩)
          rwa [ho, Option.getD_some]
      | none =>
          rw [ho, Option.getD_none] at hw
          have horigin : item.origin = us.size := by
            refine Nat.le_antisymm hsound.origin_le ?_
            rw [← h.size]
            exact Array.getElem?_eq_none_iff.1 ho
          obtain ⟨f, hf⟩ := hsound.covers
          rw [List.take_of_length_le (Item.isComplete_iff_le.1 (Item.isComplete_iff.2 hnext))] at hf
          have hnull : t.isNullable (item.lhs t) :=
            ht.isNullable_of_vanishes (.expand hsound.production (hf.vanishes horigin))
          obtain ⟨-, part', hpart'⟩ := hdone waiting hw
          exact hpart' _ ((mem_consequences_of_next hwn).2
            ⟨ht.isNonterminal_lhs hsound.production, .inr ⟨hnull, rfl⟩⟩)

/-- From anything between the items at the start and what they come to, closing leads to the same set. -/
theorem Sound.mem_close_iff_of_between (ht : t.WellFormed) {d : Chart} (h : c.Sound t us)
    (hd : d.Sound t us) (hearlier : d.earlier = c.earlier)
    (hstart : ∀ item ∈ c.current, item ∈ d.current)
    (hend : ∀ item ∈ d.current, item ∈ (c.close t []).current) :
    item ∈ (d.close t []).current ↔ item ∈ (c.close t []).current := by
  have hc := h.saturated_close ht
  have hd' := hd.saturated_close ht
  rw [hearlier] at hd'
  constructor
  · rw [← hearlier] at hc
    exact (hd.closes ht []).subset hc hend item
  · refine (h.closes ht []).subset hd' (fun item hi => ?_) item
    exact (hd.close_spec ht []).1 item (hstart item hi)

theorem Sound.mem_close_of_suppressed (ht : t.WellFormed) (h : c.Sound t us)
    (hi : item ∈ (c.close t suppressed).current) : item ∈ (c.close t []).current :=
  (h.closes ht suppressed).subset (h.saturated_close ht) (h.close_spec ht []).1 item hi

/-- Both phases come to the items of closing once. -/
theorem Built.perm_close (ht : t.WellFormed) (h : c.Built t) (suppressed : List Symbol) :
    ((c.close t suppressed).close t []).current.items.toList.Perm
      (c.close t []).current.items.toList := by
  obtain ⟨us, hs⟩ := h.exists_sound ht
  have hfirst := hs.close ht suppressed
  refine (List.perm_ext_iff_of_nodup (hfirst.close ht []).nodup (hs.close ht []).nodup).2
    fun item => ?_
  rw [Array.mem_toList_iff, Array.mem_toList_iff]
  exact hs.mem_close_iff_of_between ht hfirst rfl (hs.close_spec ht suppressed).1
    fun item hi => hs.mem_close_of_suppressed ht hi

end Chart

theorem ParseState.Visits.built {p : ParseInput} {st : ParseState} (ht : p.tables.WellFormed)
    (h : Visits p st) : st.chart.Built p.tables := by
  induction h with
  | initial => exact .initial
  | @step st st' _ hs ih =>
      have hopened : (st.opened p).1.chart.Built p.tables := by
        rw [(opened_frame st).1]
        exact ih.close _
      have hreading : (st.reading p).chart.Built p.tables := by
        rw [reading]
        split
        · exact hopened
        · exact hopened.close []
      have hm : Moves p st (.more st') := hs ▸ step_moves ht st
      cases hm with
      | reused _ _ hscan => exact hopened.scan hscan
      | shifted _ hscan => exact hreading.scan hscan
      | skipped hc => exact hc ▸ hreading

/-- Where a token is read, the last set holds what closing it once comes to, whatever was held back for
subtrees that might have been taken over. -/
theorem ParseState.Visits.perm_reading {p : ParseInput} {st : ParseState} (ht : p.tables.WellFormed)
    (h : Visits p st) : (st.reading p).chart.current.items.toList.Perm
      (st.chart.close p.tables []).current.items.toList := by
  have hopened := (opened_frame (p := p) st).1
  rw [reading]
  split
  · next hnone => rw [hopened, List.isEmpty_iff.1 hnone]
  · show ((st.opened p).1.chart.close p.tables []).current.items.toList.Perm _
    rw [hopened]
    exact (h.built ht).perm_close ht (st.suppressed p)

/-- Whatever is held back at first, closing the last set of a chart comes to an end, and closing it once
more without holding back comes to the items, complete pairs and awaited symbols of closing it once. The
first phase finds some of them, and a third would find none besides. -/
theorem Language.close_in_phases {g : Grammar} {scanner : Option Scanner} {handle : Nat} {l : Language}
    (hl : Language.compile g scanner handle = .ok l) {c : Chart} (hc : c.Built l.tables)
    (suppressed : List Symbol) :
    let first := c.close l.tables suppressed
    let both := first.close l.tables []
    let once := c.close l.tables []
    (∀ final, Chart.Closes l.tables c.earlier suppressed 0 c.current final ↔ final = first.current) ∧
      (∀ final, Chart.Closes l.tables c.earlier [] 0 first.current final ↔ final = both.current) ∧
      (∀ final, Chart.Closes l.tables c.earlier [] 0 c.current final ↔ final = once.current) ∧
      both.current.items.toList.Perm once.current.items.toList ∧
      (∀ pair, pair ∈ both.current.completedPairs l.tables ↔
        pair ∈ once.current.completedPairs l.tables) ∧
      (∀ s, s ∈ both.current.nextSymbols l.tables ↔ s ∈ once.current.nextSymbols l.tables) ∧
      (∀ item ∈ first.current, item ∈ once.current) ∧ both.close l.tables [] = both := by
  have ht := Language.compile_wellFormed hl
  obtain ⟨us, hs⟩ := hc.exists_sound ht
  have hfirst := hs.close ht suppressed
  have hitems := hc.perm_close ht suppressed
  refine ⟨fun final => hs.closes_iff ht, fun final => hfirst.closes_iff ht,
    fun final => hs.closes_iff ht, hitems, fun pair => ?_, fun s => ?_,
    fun item hi => hs.mem_close_of_suppressed ht hi,
    (hfirst.close ht []).close_eq_self ht (hfirst.saturated_close ht)⟩
  · rw [ItemSet.completedPairs, ItemSet.completedPairs, List.mem_eraseDups, List.mem_eraseDups]
    exact ((hitems.filter _).map _).mem_iff
  · exact (hitems.filterMap _).mem_iff

/-- Without the rule itself there is next to nothing in the first set, and the items of the second phase
come in another order. -/
theorem Language.close_in_phases_letterRow : ∃ l row,
    Language.compile ParseState.letterRow none 0 = .ok l ∧ l.kindId? "row" true = some row ∧
    let c := Chart.initial l.tables
    let first := c.close l.tables [row]
    let both := first.close l.tables []
    let once := c.close l.tables []
    first.current.items.size < both.current.items.size ∧ both.current.items ≠ once.current.items ∧
      both.current.items.toList.Perm once.current.items.toList := by
  obtain ⟨l, hl, htest⟩ := Language.exists_of_compile_any
    (show (Language.compile ParseState.letterRow none 0).toOption.any (fun l =>
      (l.kindId? "row" true).any fun row =>
        let first := (Chart.initial l.tables).close l.tables [row]
        let both := first.close l.tables []
        decide (first.current.items.size < both.current.items.size) &&
          both.current.items != ((Chart.initial l.tables).close l.tables []).current.items) = true
      by decide +kernel)
  obtain ⟨row, hrow, htest⟩ := (Option.any_eq_true _ _).1 htest
  simp only [Bool.and_eq_true, decide_eq_true_iff, bne_iff_ne] at htest
  obtain ⟨-, -, -, hitems, -⟩ := Language.close_in_phases hl .initial [row]
  exact ⟨l, row, hl, hrow, htest.1, htest.2, hitems⟩

end EarleyTree

import EarleyTree.Proofs.Parsing.Spread
import EarleyTree.Proofs.Tree.Nesting

/-!
When the nodes of a tree lie one behind the other within their parents. What is read off the chart
does, but for nodes over no units; what is put in afterwards may lie across what is there.
-/
namespace EarleyTree

open Text Subtree

namespace Derivation

variable {x : Derivation} {F : List Subtree} {i j : Nat} {g t : Subtree}

/-- The children of a node lie one behind the other, and only a child over no units may begin before
the node. All that floats lies strictly within the node or apart from it. -/
structure Sits (F : List Subtree) (t : Subtree) : Prop where
  order : t.children.Pairwise fun c d => c.stop ≤ d.start
  inside : ∀ c ∈ t.children, c.start ≤ c.stop ∧ c.stop ≤ t.stop
  cut : ∀ g ∈ F, t.surrounds g = true ∨ g.stop ≤ t.start ∨ t.stop ≤ g.start
  isExtra : t.isExtra = false

theorem span_cut (h : Laid x.units F) (hij : i ≤ j) (hj : j ≤ x.units.size) (hg : g ∈ F) :
    (x.span i j).startByte < g.start ∧ g.stop < (x.span i j).endByte ∨
      g.stop ≤ (x.span i j).startByte ∨ (x.span i j).endByte ≤ g.start := by
  obtain ⟨hlt, hapart⟩ := h.floating g hg
  obtain hij | rfl := Nat.lt_or_eq_of_le hij
  · have hi : x.units[i]? = some x.units[i] := Array.getElem?_eq_getElem (by omega)
    have hk : x.units[j - 1]? = some x.units[j - 1] := Array.getElem?_eq_getElem (by omega)
    have hfirst := h.unit _ (Array.mem_of_getElem? hi)
    have hlast := h.unit _ (Array.mem_of_getElem? hk)
    have h1 := hapart _ (Array.mem_of_getElem? hi)
    have h2 := hapart _ (Array.mem_of_getElem? hk)
    rw [span_of_lt hij hi hk]
    show x.units[i].start < g.start ∧ g.stop < x.units[j - 1].stop ∨
      g.stop ≤ x.units[i].start ∨ x.units[j - 1].stop ≤ g.start
    omega
  · have hplace : g.stop ≤ x.place i ∨ x.place i ≤ g.start := by
      cases i with
      | zero =>
          cases hu : x.units[0]? with
          | none =>
              right
              rw [place, emptySpan, if_pos rfl, hu]
              exact Nat.zero_le _
          | some u =>
              have hu' := h.unit u (Array.mem_of_getElem? hu)
              have h1 := hapart u (Array.mem_of_getElem? hu)
              rw [place_zero hu]
              omega
      | succ i =>
          have hu : x.units[i]? = some x.units[i] := Array.getElem?_eq_getElem hj
          have hu' := h.unit _ (Array.mem_of_getElem? hu)
          have h1 := hapart _ (Array.mem_of_getElem? hu)
          rw [place_succ hu]
          omega
    rw [span_self]
    exact .inr hplace

theorem sits_leaf (h : Laid x.units F) {u : InputUnit} (hu : x.units[i]? = some u)
    (hnil : t.children = []) (hstart : t.start = u.start) (hstop : t.stop = u.stop)
    (hextra : t.isExtra = false) : Every (Sits F) t := by
  refine .mk ⟨?_, ?_, fun g hg => ?_, hextra⟩ ?_
  · rw [hnil]
    exact .nil
  · simp [hnil]
  · have hi := (Array.getElem?_eq_some_iff.1 hu).1
    have hcut := span_cut h (Nat.le_succ i) hi hg
    rw [span_of_lt (Nat.lt_succ_self i) hu hu] at hcut
    simp only [surrounds, Bool.and_eq_true, decide_eq_true_iff, hstart, hstop]
    exact hcut
  · simp [hnil]

theorem Sits.clears {c : Subtree} (h : Sits F c) (hle : c.start ≤ c.stop) (hg : g ∈ F)
    (hc : g.StandsClear c) : g.Clears c := by
  obtain hin | hbehind | hbefore := h.cut g hg
  · refine .inr (.inr ?_)
    rw [encloses_eq, h.isExtra, hin]
    simpa using hc.2 hin
  · exact .inr (.inl hbehind)
  · have hne := hc.1
    exact .inl ⟨by omega, hbefore⟩

/-- Where there is room for them, the nodes that float can be put into the tree without harm. -/
theorem Sits.nested_fill (h : Every (Sits F) t) (hF : ∀ g ∈ F, g.start < g.stop ∧ Nested g)
    (hroom : LeavesRoom F t) : Nested (fill F t).coverChildren := by
  obtain ⟨data, ts⟩ := t
  have hready : Every (Ready F) ⟨data, ts⟩ := by
    refine ((h.withChildren.and hroom.begins).and hroom.below).mono ?_
    rintro t ⟨⟨⟨ht, hc⟩, hbegins⟩, hclear⟩
    refine ⟨⟨ht.order, fun c hm => ⟨hbegins c hm, ht.inside c hm⟩⟩, fun g hg he c hm => ?_⟩
    have hin : t.surrounds g = true := by
      rw [encloses_eq, Bool.and_eq_true] at he
      exact he.2
    exact (hc c hm).clears (ht.inside c hm).1 hg (hclear g hg hin c hm)
  have hchildren := h.children
  have hfill := nested_fillAmong hF hroom.apart h.here.order
    (fun c hc => (h.here.inside c hc).1)
    (fun g hg c hc => (hchildren c hc).here.clears (h.here.inside c hc).1 hg (hroom.here g hg c hc))
    hready.children
  rw [fill_mk]
  exact nested_coverChildren hfill.1 hfill.2

theorem carries_sits (h : Laid x.units F) (htoken : ∀ u ∈ x.units, ∃ t, u = .token t) :
    x.Carries (Sits F) where
  unit {i u} hu := by
    obtain ⟨t, rfl⟩ := htoken u (Array.mem_of_getElem? hu)
    refine ⟨sits_leaf h hu rfl rfl rfl rfl, fun s t' ht' => ?_⟩
    rw [unitImage] at ht'
    split at ht'
    · obtain rfl := List.mem_singleton.1 ht'
      exact sits_leaf h hu rfl rfl rfl rfl
    · cases ht'
  node {i j ts} symbol kind hij hj hrow hts := by
    refine ⟨hrow.order, fun c hc => ?_, fun g hg => ?_, rfl⟩
    · obtain ⟨-, hle, hstop⟩ := hrow.range c hc
      exact ⟨hle, hstop.trans (endByte_span hij hj).ge⟩
    · simp only [surrounds, Bool.and_eq_true, decide_eq_true_iff]
      exact span_cut h hij hj hg
  field _ h := ⟨h.order, h.inside, h.cut, h.isExtra⟩

end Derivation

namespace ParseState

variable {p : ParseInput} {st : ParseState}

theorem nested_error (lines : Lines) {ts : List Token} (h : ts ≠ [])
    (ho : ts.Pairwise fun s t => s.stop ≤ t.start) (hlt : ∀ t ∈ ts, t.start < t.stop) :
    Nested ((Floating.error ts h).node lines) := by
  have ho' : (ts.map (Floating.leaf lines)).Pairwise fun c d => c.stop ≤ d.start :=
    List.pairwise_map.2 ho
  have hle : ∀ c ∈ ts.map (Floating.leaf lines), c.start ≤ c.stop := by
    intro c hc
    obtain ⟨t, ht, rfl⟩ := List.mem_map.1 hc
    exact (hlt t ht).le
  have hne : ts.map (Floating.leaf lines) ≠ [] := by simpa using h
  refine .mk ⟨ho', fun c hc => ⟨?_, hle c hc, ?_⟩⟩ fun c hc => ?_
  · have hstart := start_head_le ho' hle hne hc
    rwa [List.head_map] at hstart
  · have hstop := le_stop_getLast ho' hle hne hc
    rwa [List.getLast_map] at hstop
  · obtain ⟨t, -, rfl⟩ := List.mem_map.1 hc
    exact .mk ⟨.nil, by simp [Floating.leaf, leaf]⟩ (by simp [Floating.leaf, leaf])

theorem IsFloating.nested {g : Subtree} (h : IsFloating p g) : Nested g := by
  obtain ⟨f, hf, rfl⟩ := h
  cases f with
  | extra t =>
      refine .mk ⟨.nil, ?_⟩ ?_
      · simp [Floating.node, Floating.extraLeaf, leaf]
      · simp [Floating.node, Floating.extraLeaf, leaf]
  | error ts hne => exact nested_error _ hne hf.1 fun t ht => (hf.2 t ht).1

theorem Ends.nested_tree (ht : p.tables.WellFormed) (hf : p.lexer.Proper) (hr : p.reusable = [])
    (h : Ends p st) {order : KeyOrder} (hroom : LeavesRoom st.floats (st.root p order).skeleton) :
    Nested (st.tree p order) := by
  have hextra : ∀ t ∈ p.reusable, t.isExtra = false := fun t hm => absurd (hr ▸ hm) List.not_mem_nil
  obtain ⟨n, hplaced⟩ := h.placed hf.forward hr
  obtain ⟨-, -, hnested⟩ := h.spread hf fun t hm => absurd (hr ▸ hm) List.not_mem_nil
  obtain ⟨htree, uses, hroot⟩ := h.tree_eq ht hextra order
  have hlaid := hplaced.toLaid.map_skeleton
  have hsits : Every (Derivation.Sits st.floats) (st.root p order).skeleton :=
    hroot.every hlaid.ordered (Derivation.carries_sits hlaid (h.units_eq_tokens ht hr))
  have hfloats : ∀ g ∈ st.floats, g.start < g.stop ∧ Nested g := fun g hg =>
    ⟨(hlaid.floating g hg).1, (hnested g hg).nested⟩
  rw [← nested_skeleton, htree, skeleton_finish]
  exact Derivation.Sits.nested_fill hsits hfloats hroom

end ParseState

namespace Language

open ParseState

/-- A parse of any text comes to an end, and if what it found besides the units lies apart and has room
in the tree that is read off the chart, the nodes of the tree of the text lie one behind the other
within their parents, and so its leaves come in the order of the text. -/
theorem nested_parse {g : Grammar} {scanner : Option Scanner} {handle : Nat} {l : Language}
    (hl : Language.compile g scanner handle = .ok l) (hscanner : ∀ s ∈ l.scanner, s.Proper)
    (text : List Char) (era : Nat) : ∃ st, (ParseInput.fresh l text era).final? = some st ∧
      ∀ order, LeavesRoom st.floats (st.root (.fresh l text era) order).skeleton →
        Nested (l.parse text none era order).root ∧
          (l.parse text none era order).root.leaves.Pairwise fun c d => c.stop ≤ d.start := by
  have ht : (ParseInput.fresh l text era).tables.WellFormed := Language.compile_wellFormed hl
  obtain ⟨st, hends⟩ := ParseInput.exists_ends_fresh hscanner text era
  have hproper : (ParseInput.fresh l text era).lexer.Proper := hscanner
  refine ⟨st, final?_eq_some.2 hends, fun order hroom => ?_⟩
  rw [hends.parse_none]
  have hnested := hends.nested_tree ht hproper rfl hroom
  exact ⟨hnested, hnested.leaves.1⟩

theorem nested_parse_commentedPairs : ∃ l st,
    Language.compile commentedPairs (some Candid.BlockComment.scanner) 0 = .ok l ∧
    (ParseInput.fresh l "a#xxb/**/c".toList 0).final? = some st ∧ st.floating.size = 3 ∧
    Nested (l.parse "a#xxb/**/c".toList none 0).root ∧
    (l.parse "a#xxb/**/c".toList none 0).root.leaves.Pairwise fun c d => c.stop ≤ d.start := by
  obtain ⟨l, st, hl, hends, htest⟩ := exists_of_endsWith
    (show endsWith commentedPairs (some Candid.BlockComment.scanner) "a#xxb/**/c".toList (fun l st =>
        st.floating.size == 3 && decide (LeavesRoom st.floats
          (st.root (.fresh l "a#xxb/**/c".toList 0) .entered).skeleton)) = true by decide +kernel)
  simp only [Bool.and_eq_true, beq_iff_eq, decide_eq_true_iff] at htest
  obtain ⟨hsize, hroom⟩ := htest
  obtain ⟨st', hst', h⟩ :=
    nested_parse hl (Candid.BlockComment.proper_of_compile hl) "a#xxb/**/c".toList 0
  obtain rfl := hends.unique (final?_eq_some.1 hst')
  obtain ⟨hnested, hleaves⟩ := h .entered hroom
  exact ⟨l, st, hl, hst', hsize, hnested, hleaves⟩

/-- The mark between two skipped letters is put in beside the error node that reaches across it. -/
theorem not_nested_parse_pairs : ∃ l, Language.compile pairs none 0 = .ok l ∧
    ¬Nested (l.parse ['a', 'x', '#', 'x', 'b', 'c'] none 0).root ∧
    ¬(l.parse ['a', 'x', '#', 'x', 'b', 'c'] none 0).root.leaves.Pairwise
      fun c d => c.stop ≤ d.start := by
  obtain ⟨l, hl, htest⟩ := exists_of_parsedWith
    (show parsedWith pairs none ['a', 'x', '#', 'x', 'b', 'c'] (fun _ tree =>
        decide ¬(tree.root.leaves.Pairwise fun c d => c.stop ≤ d.start)) = true by decide +kernel)
  have hleaves := of_decide_eq_true htest
  exact ⟨l, hl, fun hnested => hleaves hnested.leaves.1, hleaves⟩

end Language

end EarleyTree

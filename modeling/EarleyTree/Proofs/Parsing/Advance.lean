import EarleyTree.Proofs.Parsing.Edits
import EarleyTree.Proofs.Parsing.Spread

/-!
Parsing goes on: with each step the place in the text moves, unless a subtree over no text is taken
over from an old tree. What an old tree offers lies within the text, whatever edits led to it.
-/
namespace EarleyTree

open Text Subtree

theorem Floating.barren_node (lines : Lines) : ∀ f : Floating, Barren (f.node lines)
  | extra t => .mk (.inr (.inr rfl)) (by simp [node, extraLeaf, Subtree.leaf])
  | error ts h => by
      refine .mk (.inr (.inl rfl)) fun c hc => ?_
      obtain ⟨t, -, rfl⟩ := List.mem_map.1 hc
      exact .mk (.inl rfl) (by simp [leaf, Subtree.leaf])

theorem Subtree.every_tidy_of_nil {t : Subtree} (h : t.start ≤ t.stop) (hnil : t.children = []) :
    Every Tidy t :=
  .mk ⟨h, hnil ▸ .nil, by simp [hnil]⟩ (by simp [hnil])

theorem Floating.Within.every_tidy {n : Nat} (lines : Lines) : ∀ {f : Floating}, f.Within n →
    Every Tidy (f.node lines)
  | extra t, h => every_tidy_of_nil (Nat.le_of_lt h.1) rfl
  | error ts hne, ⟨horder, hrange⟩ => by
      have hsorted : ts.Pairwise fun s t => s.start ≤ t.start :=
        horder.imp_of_mem fun hs _ hle => (hrange _ hs).1.le.trans hle
      refine .mk ⟨?_, List.pairwise_map.2 hsorted, fun c hc => ?_⟩ fun c hc => ?_
      · show (ts.head hne).start ≤ (ts.getLast hne).stop
        exact (head_le_getLast hsorted hne).trans (hrange _ (List.getLast_mem hne)).1.le
      · have hlast : (ts.map (leaf lines)).getLast? = some c := hc
        rw [List.getLast?_map, List.getLast?_eq_some_getLast hne, Option.map_some] at hlast
        cases hlast
        exact Nat.le_refl _
      · obtain ⟨t, ht, rfl⟩ := List.mem_map.1 hc
        exact every_tidy_of_nil (hrange t ht).1.le rfl

theorem Floating.Within.floats {n : Nat} (lines : Lines) {f : Floating} (h : f.Within n) :
    Floats n (f.node lines) := by
  refine ⟨f.barren_node lines, h.every_tidy lines, ?_⟩
  cases f with
  | extra t => exact h.2
  | error ts hne => exact (h.2 _ (List.getLast_mem hne)).2

namespace Derivation

variable {x : Derivation} {i n : Nat} {t : Subtree}

/-- The units end within the first `n` bytes, and so do the nodes of the trees among them. -/
def Settles (x : Derivation) (n : Nat) : Prop :=
  ∀ u ∈ x.units, u.stop ≤ n ∧ ∀ t, u = .reused t → Settled n t

theorem place_le (hx : Ordered x.units) (hn : x.Settles n) (hi : i ≤ x.units.size) :
    x.place i ≤ n := by
  cases i with
  | zero =>
      cases hu : x.units[0]? with
      | none =>
          rw [place, emptySpan, if_pos rfl, hu]
          exact Nat.zero_le _
      | some u =>
          rw [place_zero hu]
          exact (hx.le hu).trans (hn u (Array.mem_of_getElem? hu)).1
  | succ i =>
      have hu : x.units[i]? = some x.units[i] := Array.getElem?_eq_getElem hi
      rw [place_succ hu]
      exact (hn _ (Array.mem_of_getElem? hu)).1

theorem carries_settled (hx : Ordered x.units) (hn : x.Settles n) :
    x.Carries fun t => Tidy t ∧ Bounded n t where
  unit {i u} hu := by
    obtain ⟨hstop, hreused⟩ := hn u (Array.mem_of_getElem? hu)
    cases u with
    | token t =>
        have hleaf : ∀ s : Subtree, s.children = [] → s.start = t.start → s.stop = t.stop →
            Every (fun t => Tidy t ∧ Bounded n t) s := by
          intro s hnil hs hs'
          have htidy := every_tidy_of_nil (by rw [hs, hs']; exact hx.le hu) hnil
          refine htidy.and (.mk ⟨.inr (hs' ▸ hstop), by simp [hnil]⟩ (by simp [hnil]))
        refine ⟨hleaf _ rfl rfl rfl, fun s t' ht' => ?_⟩
        rw [unitImage] at ht'
        split at ht'
        · obtain rfl := List.mem_singleton.1 ht'
          exact hleaf _ rfl rfl rfl
        · cases ht'
    | reused t =>
        have h := settled_skeleton.2 (hreused t rfl)
        have hevery := h.tidy.and h.bounded
        obtain ⟨htidy, hbounded⟩ := hevery.here
        refine ⟨hevery.setData ⟨htidy.setData rfl, hbounded.setData rfl rfl rfl⟩, fun s t' ht' => ?_⟩
        obtain rfl := List.mem_singleton.1 ht'
        exact hevery.setData ⟨htidy.setData rfl, hbounded.setData rfl rfl rfl⟩
  node {i j ts} symbol kind hij hj hrow hts := by
    obtain ⟨-, hle⟩ := startByte_span hx hij hj
    have hstop : (x.span i j).endByte = x.place j := endByte_span hij hj
    refine ⟨⟨hle.trans hstop.ge, ?_, fun c hc => ?_⟩, .inr ?_, fun c hc => .inr ?_⟩
    · exact hrow.order.imp_of_mem fun hs _ hle => (hrow.range _ hs).2.1.trans hle
    · exact (hrow.range c (List.mem_of_getLast? hc)).2.2.trans hstop.ge
    · exact hstop.le.trans (place_le hx hn hj)
    · exact (hrow.range c hc).2.2.trans hstop.ge
  field _ h := ⟨h.1.setData rfl, h.2.setData rfl rfl rfl⟩

theorem IsRoot.settled (hx : Ordered x.units) (hn : x.Settles n) {uses : List (Option Step)}
    (h : x.IsRoot uses t) : Settled n t ∧ t.stop ≤ n := by
  have hevery := h.every hx (carries_settled hx hn)
  refine ⟨⟨hevery.mono fun _ h => h.1, hevery.mono fun _ h => h.2⟩, ?_⟩
  have hplace : x.place x.units.size ≤ n := place_le hx hn le_rfl
  have hspan : (x.span 0 x.units.size).endByte ≤ n :=
    (endByte_span (Nat.zero_le _) le_rfl).trans_le hplace
  cases h with
  | accepted hf =>
      unfold rootImage
      split
      · next t ht =>
          have hrow := image_row hx hf le_rfl
          rw [← shown, ht] at hrow
          split
          · exact hspan
          · exact (hrow.range t (List.mem_singleton_self t)).2.2.trans hplace
      · exact hspan
  | error h => exact hspan

end Derivation

namespace ParseState

variable {p : ParseInput} {st : ParseState}

theorem Offers.of_settled
    (hr : ∀ t ∈ p.reusable, Settled (byteLength p.text) t ∧ t.stop ≤ byteLength p.text) :
    Offers p := fun t ht => ⟨(hr t ht).1.tidy.here.le, (hr t ht).2⟩

theorem Ends.settled_finish (ht : p.tables.WellFormed) (hf : p.lexer.Proper)
    (hr : ∀ t ∈ p.reusable, Settled (byteLength p.text) t ∧ t.stop ≤ byteLength p.text)
    (h : Ends p st) {root : Subtree} {uses : List (Option Step)}
    (hroot : (st.derivation p).IsRoot uses root.skeleton) :
    Settled (byteLength p.text) (st.finish p root) := by
  obtain ⟨hordered, hstop, hfloats⟩ := h.spread hf (.of_settled hr)
  have hsettles : (st.derivation p).Settles (byteLength p.text) := by
    rintro u hu
    refine ⟨hstop u hu, ?_⟩
    rintro t rfl
    exact (hr t ((h.consistent ht).kinds _ hu).2).1
  obtain ⟨hsettled, hle⟩ := hroot.settled hordered hsettles
  rw [← settled_skeleton, skeleton_finish]
  refine hsettled.cover_fill (fun g hg => ?_) hle
  obtain ⟨f, hwithin, rfl⟩ := hfloats g hg
  exact hwithin.floats p.lines

end ParseState

open ParseState

/-- Each step of a run stays within the text and goes on in it, unless it takes over a subtree over
no text; so there are no more steps than bytes of the text and units over no text, and where none
of what is on offer is over no text, the run ends within one step for each byte and one more. -/
structure ParseInput.Advances (p : ParseInput) : Prop where
  step : ∀ st st' : ParseState, st.step p = .more st' → st'.position ≤ byteLength p.text ∧
    (st.position < st'.position ∨
      ∃ t ∈ p.reusable, t.start = t.stop ∧ st'.units = st.units.push (.reused t))
  steps : ∀ n st, ReachesIn p n st → n ≤ byteLength p.text + st.emptyUnits
  ends : (∀ t ∈ p.reusable, t.start ≠ t.stop) → ∃ st,
    (initial p).runFor p (byteLength p.text + 1) = some st ∧ p.final? = some st

theorem ParseInput.Advances.of_offers {p : ParseInput} (hf : p.lexer.Proper) (ho : Offers p) :
    p.Advances where
  step _ _ hs := ⟨step_le hf (fun t ht => (ho t ht).2) hs,
    step_lt_or_empty hf.forward (fun t ht => (ho t ht).1) hs⟩
  steps n st h := (h.le hf.forward ho).trans
    (Nat.add_le_add_right (h.visits.spread hf ho).position _)
  ends hne := by
    have hre : ∀ t ∈ p.reusable, t.start < t.stop ∧ t.stop ≤ byteLength p.text := fun t ht =>
      ⟨Nat.lt_of_le_of_ne (ho t ht).1 (hne t ht), (ho t ht).2⟩
    have h0 : (initial p).position ≤ byteLength p.text := Nat.zero_le _
    obtain ⟨st, hst⟩ := exists_runFor hf hre (byteLength p.text + 1) h0
      (Nat.lt_add_right _ (Nat.lt_succ_self _))
    exact ⟨st, hst, final?_eq_some.2 (ends_of_runFor hst)⟩

/-- The tree was parsed from the text, or parsed from another text and edited along with it. -/
inductive Tree.Stands : List Char → Tree → Prop
  | parsed {g : Grammar} {scanner : Option Scanner} {handle : Nat} {l : Language} {text : List Char}
      {old : Option Tree} (hl : Language.compile g scanner handle = .ok l)
      (hscanner : ∀ s ∈ l.scanner, s.Proper) (hold : ∀ o ∈ old, Stands text o) (era : Nat)
      (order : KeyOrder) : Stands text (l.parse text old era order)
  | edited {text inserted : List Char} {start oldEnd : Nat} {e : Edit} {t : Tree}
      (h : Stands text t) (he : Edit.replace? text start oldEnd inserted = some e) (era : Nat) :
      Stands (splice text start oldEnd inserted) (t.edit e era)

namespace Language

variable {g : Grammar} {scanner : Option Scanner} {handle era : Nat} {l : Language}
  {text : List Char}

theorem settled_of_mem_withOld {old : Tree} (h : Settled (byteLength text) old.root) :
    ∀ t ∈ (ParseInput.withOld l text old era).reusable,
      Settled (byteLength text) t ∧ t.stop ≤ byteLength text :=
  fun _ ht => h.of_mem_reusable (mem_of_mem_withOld ht)

theorem settled_parse_none (hl : Language.compile g scanner handle = .ok l)
    (hscanner : ∀ s ∈ l.scanner, s.Proper) (text : List Char) (era : Nat) (order : KeyOrder) :
    Settled (byteLength text) (l.parse text none era order).root := by
  have ht : (ParseInput.fresh l text era).tables.WellFormed := Language.compile_wellFormed hl
  obtain ⟨st, hends⟩ := ParseInput.exists_ends_fresh hscanner text era
  obtain ⟨htree, uses, hroot⟩ := hends.tree_eq ht (fun t hm => absurd hm List.not_mem_nil) order
  rw [hends.parse_none, htree]
  exact hends.settled_finish ht hscanner (fun t hm => absurd hm List.not_mem_nil) hroot

theorem settled_parse_withOld (hl : Language.compile g scanner handle = .ok l)
    (hscanner : ∀ s ∈ l.scanner, s.Proper) {old : Tree} (h : Settled (byteLength text) old.root)
    (era : Nat) (order : KeyOrder) :
    Settled (byteLength text) (l.parse text (some old) era order).root := by
  obtain heq | ⟨st, root, m, hends, hroot, heq⟩ := parse_withOld l text old era order
  · rw [heq]
    exact settled_parse_none hl hscanner text era order
  · have ht : (ParseInput.withOld l text old era).tables.WellFormed := Language.compile_wellFormed hl
    obtain ⟨f, hf, hskel⟩ :=
      hends.exists_parses ht (fun t hm => (isReusable_of_mem_withOld hm).1) hroot
    have hroot' := Derivation.IsRoot.accepted hf
    rw [← hskel] at hroot'
    rw [heq]
    exact hends.settled_finish ht hscanner (settled_of_mem_withOld h) hroot'

end Language

/-- The nodes of a tree lie within the text for which it stands. -/
theorem Tree.Stands.settled {text : List Char} {t : Tree} (h : t.Stands text) :
    Settled (byteLength text) t.root := by
  induction h with
  | @parsed _ _ _ _ _ old hl hscanner hold era order ih =>
      cases old with
      | none => exact Language.settled_parse_none hl hscanner _ era order
      | some o => exact Language.settled_parse_withOld hl hscanner (ih o rfl) era order
  | edited _ he era ih => exact ih.edit he era []

namespace Language

/-- Whatever edits led from the old tree to the text, a parse goes on in each step, unless it takes
over a subtree over no text. -/
theorem parse_advances {l : Language} (hscanner : ∀ s ∈ l.scanner, s.Proper) {text : List Char}
    {old : Option Tree} (hold : ∀ o ∈ old, o.Stands text) (era : Nat) :
    (ParseInput.fresh l text era).Advances ∧
      ∀ o ∈ old, (ParseInput.withOld l text o era).Advances :=
  ⟨.of_offers hscanner fun _ ht => absurd ht List.not_mem_nil,
    fun o ho => .of_offers hscanner (.of_settled (settled_of_mem_withOld (hold o ho).settled))⟩

/-- Parsing again after an edit of a text that was parsed. -/
def reparse (l : Language) (text : List Char) (e : Edit) (new : List Char) : ParseInput :=
  .withOld l new ((l.parse text none 0).edit e 1) 2

theorem parse_advances_commentedPairs : ∃ l e,
    Language.compile commentedPairs (some Candid.BlockComment.scanner) 0 = .ok l ∧
    Edit.replace? "a#b/**/c".toList 7 7 [' '] = some e ∧
    (l.reparse "a#b/**/c".toList e "a#b/**/ c".toList).reusable.length = 1 ∧
    (l.reparse "a#b/**/c".toList e "a#b/**/ c".toList).Advances ∧
    ∃ st, (initial (l.reparse "a#b/**/c".toList e "a#b/**/ c".toList)).runFor
      (l.reparse "a#b/**/c".toList e "a#b/**/ c".toList) 10 = some st := by
  obtain ⟨l, e, hl, he, htest⟩ := exists_of_editedWith
    (show editedWith commentedPairs (some Candid.BlockComment.scanner) "a#b/**/c".toList 7 7 [' ']
        "a#b/**/ c".toList (fun l e first _ =>
          let p := ParseInput.withOld l "a#b/**/ c".toList (first.edit e 1) 2
          p.reusable.length == 1 && p.reusable.all fun t => decide (t.start ≠ t.stop)) = true by
      decide +kernel)
  dsimp only at htest
  rw [Bool.and_eq_true, beq_iff_eq, List.all_eq_true] at htest
  obtain ⟨hlength, hne⟩ := htest
  have hproper := Candid.BlockComment.proper_of_compile hl
  have hstands : ∀ o ∈ some ((l.parse "a#b/**/c".toList none 0).edit e 1),
      o.Stands "a#b/**/ c".toList := by
    intro o ho
    obtain rfl := Option.some.inj ho
    exact .edited (.parsed hl hproper (fun _ ho => absurd ho (Option.not_mem_none _)) 0 .entered) he 1
  have h := (parse_advances hproper hstands 2).2 _ rfl
  obtain ⟨st, hst, -⟩ := h.ends fun t ht => of_decide_eq_true (hne t ht)
  exact ⟨l, e, hl, he, hlength, h, st, hst⟩

/-- A letter behind three nodes, each over a node over nothing. -/
def hollow : Grammar :=
  ((({ name := "hollow" } : Grammar).define "hollow"
      (.seq [.ref "outer", .ref "outer", .ref "outer", .literal "b"])).define "outer"
    (.seq [.ref "inner"])).define "inner" (.optional (.literal "e"))

theorem exists_more {p : ParseInput} {test : ParseState → Bool} (h : (match (initial p).step p with
    | .more st => test st
    | .finished _ => false) = true) : ∃ st, (initial p).step p = .more st ∧ test st = true := by
  split at h
  · next st hs => exact ⟨st, hs, h⟩
  · cases h

/-- A node over nothing is taken over, and the parse stands where it stood; it takes over as many as
the grammar asks for, and is not at its end after one step for each byte of the text and one more. -/
theorem step_stands_still : ∃ l e st, Language.compile hollow none 0 = .ok l ∧
    Edit.replace? ['b'] 1 1 [' '] = some e ∧
    ((l.parse ['b'] none 0).edit e 1).Stands ['b', ' '] ∧
    (initial (l.reparse ['b'] e ['b', ' '])).step (l.reparse ['b'] e ['b', ' ']) = .more st ∧
    ¬(initial (l.reparse ['b'] e ['b', ' '])).position < st.position ∧
    (initial (l.reparse ['b'] e ['b', ' '])).runFor (l.reparse ['b'] e ['b', ' '])
      (byteLength ['b', ' '] + 1) = none := by
  obtain ⟨l, e, hl, he, htest⟩ := exists_of_editedWith
    (show editedWith hollow none ['b'] 1 1 [' '] ['b', ' '] (fun l e first _ =>
        let p := ParseInput.withOld l ['b', ' '] (first.edit e 1) 2
        l.scanner.isNone && (((initial p).runFor p (byteLength ['b', ' '] + 1)).isNone &&
          match (initial p).step p with
          | .more st => st.position == 0
          | .finished _ => false)) = true by decide +kernel)
  obtain ⟨hscanner, htest⟩ := Bool.and_eq_true_iff.1 htest
  obtain ⟨hrun, htest⟩ := Bool.and_eq_true_iff.1 htest
  obtain ⟨st, hs, hposition⟩ := exists_more htest
  refine ⟨l, e, st, hl, he, ?_, hs, ?_, Option.isNone_iff_eq_none.1 hrun⟩
  · have hparsed : (l.parse ['b'] none 0).Stands ['b'] :=
      .parsed hl (proper_of_isNone hscanner) (fun _ ho => absurd ho (Option.not_mem_none _)) 0 .entered
    exact .edited hparsed he 1
  · rw [beq_iff_eq.1 hposition]
    exact Nat.not_lt_zero _

end Language

end EarleyTree

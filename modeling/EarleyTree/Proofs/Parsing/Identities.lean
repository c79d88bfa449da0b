import EarleyTree.Proofs.Parsing.Advance
import EarleyTree.Proofs.Parsing.Numbering
import EarleyTree.Proofs.Parsing.TreeNesting
import EarleyTree.Proofs.Tree.Depths

/-!
Which nodes of a text parsed afresh are taken for one. The children found for a stretch are used again
wherever the stretch is; over text it is at one place at most of each depth, over nothing it may be at
several.
-/
namespace EarleyTree

open Text Subtree

namespace Subtree

variable {t : Subtree}

theorem piled_skeleton : Piled t.skeleton ↔ Piled t := by
  have horder : (t.skeleton.children.Pairwise fun c d => c.stop ≤ d.start) ↔
      t.children.Pairwise fun c d => c.stop ≤ d.start := by
    simp only [children_skeleton, skeletonAll_eq_map, List.pairwise_map, start_skeleton,
      stop_skeleton]
  have hstop : (∀ c ∈ t.skeleton.children, c.stop ≤ t.skeleton.stop) ↔
      ∀ c ∈ t.children, c.stop ≤ t.stop := by
    simp only [children_skeleton, skeletonAll_eq_map, List.forall_mem_map, stop_skeleton]
  have hstart : (∀ c ∈ t.skeleton.children, c.start < c.stop → t.skeleton.start ≤ c.start) ↔
      ∀ c ∈ t.children, c.start < c.stop → t.start ≤ c.start := by
    simp only [children_skeleton, skeletonAll_eq_map, List.forall_mem_map, start_skeleton,
      stop_skeleton]
  exact ⟨fun h => ⟨horder.1 h.order, hstop.1 h.stop, hstart.1 h.start⟩,
    fun h => ⟨horder.2 h.order, hstop.2 h.stop, hstart.2 h.start⟩⟩

theorem Piled.every_leaf (h : t.children = []) : Every Piled t := by
  refine .mk ⟨?_, ?_, ?_⟩ ?_
  · rw [h]
    exact .nil
  · simp [h]
  · simp [h]
  · simp [h]

/-- Numbers tell nodes of one depth apart, but for those over no text. -/
theorem tells_of_entered {era d : Nat} {made : List Subtree} (hpiled : Every Piled t)
    (hentered : ∀ s ∈ atDepth d t, Entered era made s) : (atDepth d t).Pairwise Tells := by
  refine (Piled.pairwise hpiled d).imp_of_mem fun {r s} hr hs hparted he => ?_
  obtain ⟨k, hrk, hr⟩ := hentered r hr
  obtain ⟨j, hsj, hs⟩ := hentered s hs
  obtain rfl : k = j := by
    rw [hrk, hsj] at he
    cases he
    rfl
  have hsame : r.setField none = s.setField none := Option.some.inj (hr.symm.trans hs)
  have hspan : (r.setField none).span = (s.setField none).span := by rw [hsame]
  have hstart : r.start = s.start := congrArg Span.startByte hspan
  have hstop : r.stop = s.stop := congrArg Span.endByte hspan
  refine ⟨hsame, ?_⟩
  -- over text, one of the two would end where the other begins, at its own start
  by_contra hlt
  have hparted := hparted (by omega) (by omega)
  omega

end Subtree

theorem Derivation.carries_piled {x : Derivation} (htoken : ∀ u ∈ x.units, ∃ t, u = .token t) :
    x.Carries Piled where
  unit {i u} hu := by
    obtain ⟨t, rfl⟩ := htoken u (Array.mem_of_getElem? hu)
    refine ⟨Piled.every_leaf rfl, fun s t ht => ?_⟩
    rw [unitImage] at ht
    split at ht
    · rw [List.mem_singleton.1 ht]
      exact Piled.every_leaf rfl
    · cases ht
  node {i j ts} symbol kind hij hj hrow hts :=
    ⟨hrow.order, fun c hc => (hrow.range c hc).2.2.trans (endByte_span hij hj).ge, hrow.first⟩
  field _ h := ⟨h.order, h.stop, h.start⟩

namespace ParseState

variable {p : ParseInput} {st st' : ParseState} {g : Subtree} {n : Nat}

theorem exists_tops_root (htoken : ∀ u ∈ st.units, ∃ t, u = .token t) (order : KeyOrder) :
    ∃ made, (st.derivation p).Tops made (st.root p order) := by
  have haccepted : ∃ made, (st.derivation p).Numbers made ((st.acceptedRoot? p).getD (none, {})).2 ∧
      ∀ t ∈ ((st.acceptedRoot? p).getD (none, {})).1, (st.derivation p).Tops made t := by
    cases hr : st.acceptedRoot? p with
    | none => exact ⟨[], Derivation.numbers_empty, fun _ h => absurd h (Option.not_mem_none _)⟩
    | some r =>
        rw [acceptedRoot?] at hr
        split at hr
        · obtain ⟨made, -, h⟩ := Derivation.acceptedRoot_tops htoken [] {} Derivation.numbers_empty
            r.1 r.2 hr
          exact ⟨made, h⟩
        · cases hr
          exact ⟨[], Derivation.numbers_empty, fun _ h => absurd h (Option.not_mem_none _)⟩
  obtain ⟨made, hm, hroot⟩ := haccepted
  rw [root]
  dsimp only
  cases hr : ((st.acceptedRoot? p).getD (none, {})).1 with
  | some t => exact ⟨made, hroot t hr⟩
  | none =>
      cases hrun : ((st.derivation p).errorRoot order).run
          ((st.acceptedRoot? p).getD (none, {})).2 with
      | none => exact ⟨made, rfl, fun c hc => absurd hc List.not_mem_nil⟩
      | some r =>
          obtain ⟨made, -, -, htops⟩ := Derivation.errorRoot_tops htoken order made _ hm r.1 r.2 hrun
          exact ⟨made, htops⟩

/-- What is read off the chart is told apart, and nothing in it was made for what is put in later. -/
theorem toldApart_root (htoken : ∀ u ∈ st.units, ∃ t, u = .token t) (hordered : Ordered st.units)
    {order : KeyOrder} {uses : List (Option Step)}
    (hroot : (st.derivation p).IsRoot uses (st.root p order).skeleton) :
    ToldApart 0 (st.root p order) := by
  have hpiled : Every Piled (st.root p order) := (every_skeleton fun _ => piled_skeleton).1
    (hroot.every hordered (Derivation.carries_piled htoken))
  obtain ⟨made, hident, hmade⟩ := exists_tops_root (p := p) htoken order
  have hentered (d : Nat) : ∀ s ∈ atDepth (d + 1) (st.root p order), Entered p.era made s := by
    intro s hs
    obtain ⟨c, hc, hs⟩ := List.mem_flatMap.1 hs
    exact (hmade c hc).atDepth s hs
  constructor
  · intro d
    cases d with
    | zero => exact List.pairwise_singleton _ _
    | succ d => exact tells_of_entered hpiled (hentered d)
  · intro d s hs m hm
    cases d with
    | zero =>
        rw [List.mem_singleton.1 hs, hident] at hm
        cases hm
    | succ d =>
        obtain ⟨k, hk, -⟩ := hentered d s hs
        rw [hk] at hm
        cases hm

/-- The nodes that belong to no derivation are made for their places. -/
def Stamped (gs : Array Subtree) : Prop :=
  ∀ n g, gs[n]? = some g → ∀ d, MadeFor n (atDepth d g)

theorem Stamped.push {gs : Array Subtree} (h : Stamped gs) (hg : ∀ d, MadeFor gs.size (atDepth d g)) :
    Stamped (gs.push g) := by
  intro n g' hg'
  rw [Array.getElem?_push] at hg'
  split at hg'
  · next hn =>
      cases hg'
      exact hn ▸ hg
  · exact h n g' hg'

/-- A node over leaves, all made for one place and told apart. -/
theorem madeFor_atDepth (hstamp : g.ident.stamp = some n)
    (hleaf : ∀ c ∈ g.children, c.children = [] ∧ c.ident.stamp = some n)
    (hne : g.children.Pairwise fun c d => c.ident ≠ d.ident) (d : Nat) : MadeFor n (atDepth d g) := by
  match d with
  | 0 => exact ⟨by simpa [atDepth] using hstamp, List.pairwise_singleton _ _⟩
  | 1 =>
      have hone : atDepth 1 g = g.children := by simp [atDepth]
      rw [hone]
      exact ⟨fun c hc => (hleaf c hc).2, hne⟩
  | d + 2 =>
      have hnil : atDepth (d + 2) g = [] := by
        refine List.flatMap_eq_nil_iff.2 fun c hc => ?_
        rw [atDepth, (hleaf c hc).1]
        rfl
      rw [hnil]
      exact ⟨fun c hc => absurd hc List.not_mem_nil, .nil⟩

theorem stamped_pushExtra (t : Token) (h : Stamped st.floating) :
    Stamped (st.pushExtra p t).floating :=
  h.push (madeFor_atDepth rfl (fun _ hc => absurd hc List.not_mem_nil) .nil)

theorem pairwise_tokenLeaf (n : Nat) (ts : List Token) :
    (ts.mapIdx fun i t => tokenLeaf p [i, n, 1] t).Pairwise fun c d => c.ident ≠ d.ident := by
  refine List.pairwise_iff_getElem.2 fun i j hi hj hij he => ?_
  rw [List.getElem_mapIdx, List.getElem_mapIdx] at he
  have htrail : [i, n, 1] = [j, n, 1] := congrArg Ident.trail he
  have hij' : i = j := (List.cons.inj htrail).1
  omega

theorem stamped_flushSkipped (h : Stamped st.floating) : Stamped (st.flushSkipped p).floating := by
  rw [flushSkipped]
  split
  · refine h.push (madeFor_atDepth rfl (fun _ hc => ?_) (pairwise_tokenLeaf _ _))
    obtain ⟨i, -, rfl⟩ := List.mem_mapIdx.1 hc
    exact ⟨rfl, rfl⟩
  · exact h

theorem stamped_opened (h : Stamped st.floating) : Stamped (st.opened p).1.floating := by
  have hextras (ts : List Token) (st : ParseState) (h : Stamped st.floating) :
      Stamped (ts.foldl (pushExtra p) st).floating := by
    induction ts generalizing st with
    | nil => exact h
    | cons t ts ih => exact ih _ (stamped_pushExtra t h)
  rw [opened, passExtras]
  exact hextras _ _ h

theorem stamped_step (h : Stamped st.floating)
    (hs : st.step p = .more st' ∨ st.step p = .finished st') : Stamped st'.floating := by
  obtain ⟨st₁, hfloating, -, he⟩ := step_floating hs
  have hstamped : Stamped st₁.floating := hfloating ▸ stamped_opened h
  obtain he | he := he
  · exact he ▸ hstamped
  · exact he ▸ stamped_flushSkipped hstamped

theorem Ends.stamped (h : Ends p st) : Stamped st.floating := by
  have hvisits {st : ParseState} (h : Visits p st) : Stamped st.floating := by
    induction h with
    | initial => exact fun n g hg => nomatch hg
    | step _ hs ih => exact stamped_step ih (.inl hs)
  obtain ⟨st₁, hv, hs⟩ := h
  exact stamped_step (hvisits hv) (.inr hs)

theorem toldApart_insertAll {gs : List Subtree} {root : Subtree}
    (hgs : ∀ i g, gs[i]? = some g → ∀ d, MadeFor (n + i) (atDepth d g)) (h : ToldApart n root) :
    ToldApart (n + gs.length) ((gs.zipIdx n).foldl
      (fun root (g, n) => Subtree.insertFloating g p.era [n, 2] root) root) := by
  induction gs generalizing root n with
  | nil => exact h
  | cons g gs ih =>
      rw [List.length_cons, Nat.add_comm gs.length, ← Nat.add_assoc]
      refine ih (fun i g' hg' => ?_) (h.insertFloating (hgs 0 g rfl))
      rw [Nat.add_right_comm]
      exact hgs (i + 1) g' hg'

theorem Ends.tells_tree (ht : p.tables.WellFormed) (hf : p.lexer.Proper) (hr : p.reusable = [])
    (h : Ends p st) (order : KeyOrder) (d : Nat) : (atDepth d (st.tree p order)).Pairwise Tells := by
  have hextra : ∀ t ∈ p.reusable, t.isExtra = false := fun t hm => absurd (hr ▸ hm) List.not_mem_nil
  obtain ⟨k, hplaced⟩ := h.placed hf.forward hr
  obtain ⟨htree, uses, hroot⟩ := h.tree_eq ht hextra order
  have hroot := toldApart_root (h.units_eq_tokens ht hr) hplaced.toLaid.ordered hroot
  have hstamped : ∀ i g, st.floating.toList[i]? = some g → ∀ d, MadeFor (0 + i) (atDepth d g) := by
    intro i g hg
    rw [Array.getElem?_toList] at hg
    rw [Nat.zero_add]
    exact h.stamped i g hg
  rw [htree]
  cases d with
  | zero => exact List.pairwise_singleton _ _
  | succ d => exact (toldApart_insertAll (p := p) hstamped hroot).tells (d + 1)

end ParseState

namespace Language

open ParseState

/-- In the tree of a text parsed afresh, nodes that are the same are one subtree, labels aside, and a
node over text is the same only as itself. -/
theorem told_apart {g : Grammar} {scanner : Option Scanner} {handle : Nat} {l : Language}
    (hl : Language.compile g scanner handle = .ok l) (hscanner : ∀ s ∈ l.scanner, s.Proper)
    (text : List Char) (era : Nat) (order : KeyOrder) {p q : List Nat} {n m : Node}
    (hn : (l.parse text none era order).rootNode.descend? p = some n)
    (hm : (l.parse text none era order).rootNode.descend? q = some m) :
    (n.isSame m = true → n.subtree.setField none = m.subtree.setField none) ∧
      (n.subtree.start < n.subtree.stop → (n.isSame m = true ↔ p = q)) := by
  have ht : (ParseInput.fresh l text era).tables.WellFormed := Language.compile_wellFormed hl
  obtain ⟨st, hends⟩ := ParseInput.exists_ends_fresh hscanner text era
  have htells : ∀ d, (atDepth d (l.parse text none era order).root).Pairwise Tells := by
    rw [hends.root_parse_none]
    exact hends.tells_tree ht hscanner rfl order
  exact Node.isSame_places htells hn hm

/-- The first and the last letter of a node into which a mark and an error were put. -/
theorem told_apart_commentedPairs : ∃ l n m,
    Language.compile commentedPairs (some Candid.BlockComment.scanner) 0 = .ok l ∧
    (l.parse "a#xb/**/c".toList none 0).rootNode.descend? [0, 0] = some n ∧
    (l.parse "a#xb/**/c".toList none 0).rootNode.descend? [0, 3] = some m ∧
    n.subtree.start < n.subtree.stop ∧ n.isSame m = false := by
  obtain ⟨l, hl, htest⟩ := exists_of_parsedWith
    (show parsedWith commentedPairs (some Candid.BlockComment.scanner) "a#xb/**/c".toList
        (fun _ tree => (tree.rootNode.descend? [0, 0]).any fun n =>
          (tree.rootNode.descend? [0, 3]).isSome && decide (n.subtree.start < n.subtree.stop)) = true by
      decide +kernel)
  obtain ⟨n, hn, htest⟩ := (Option.any_eq_true _ _).1 htest
  rw [Bool.and_eq_true, decide_eq_true_iff] at htest
  obtain ⟨hm, hlt⟩ := htest
  obtain ⟨m, hm⟩ := Option.isSome_iff_exists.1 hm
  have hproper := Candid.BlockComment.proper_of_compile hl
  have hiff := (told_apart hl hproper _ 0 .entered hn hm).2 hlt
  refine ⟨l, n, m, hl, hn, hm, hlt, Bool.eq_false_iff.2 fun hsame => ?_⟩
  cases hiff.1 hsame

/-- Nodes over nothing below different parents are the same. -/
theorem not_told_apart_hollow : ∃ l n m, Language.compile hollow none 0 = .ok l ∧
    (l.parse ['b'] none 0).rootNode.descend? [0, 0] = some n ∧
    (l.parse ['b'] none 0).rootNode.descend? [1, 0] = some m ∧
    n.isSame m = true ∧ (n.parent?.any fun a => m.parent?.any fun b => !a.isSame b) = true := by
  obtain ⟨l, hl, htest⟩ := exists_of_parsedWith
    (show parsedWith hollow none ['b'] (fun _ tree =>
        (tree.rootNode.descend? [0, 0]).any fun n => (tree.rootNode.descend? [1, 0]).any fun m =>
          n.isSame m && n.parent?.any fun a => m.parent?.any fun b => !a.isSame b) = true by
      decide +kernel)
  obtain ⟨n, hn, htest⟩ := (Option.any_eq_true _ _).1 htest
  obtain ⟨m, hm, htest⟩ := (Option.any_eq_true _ _).1 htest
  rw [Bool.and_eq_true] at htest
  exact ⟨l, n, m, hl, hn, hm, htest⟩

end Language

end EarleyTree

import EarleyTree.Proofs.Tree.Cursors
import Mathlib.Data.List.Pairwise
import Mathlib.Logic.Relation

/-!
Nodes by ranges of bytes. Where children lie one behind the other within their parents, going down
through the first child that spans a range ends at the smallest node that does: all others that do are
above it.
-/
namespace EarleyTree

/-- The children lie one behind the other and reach no further than the node. -/
structure Subtree.Boxed (t : Subtree) : Prop where
  order : t.children.Pairwise fun c d => c.stop ≤ d.start
  inside : ∀ c ∈ t.children, t.start ≤ c.start ∧ c.stop ≤ t.stop

instance : DecidablePred Subtree.Boxed := fun t =>
  decidable_of_iff ((t.children.Pairwise fun c d => c.stop ≤ d.start) ∧
      ∀ c ∈ t.children, t.start ≤ c.start ∧ c.stop ≤ t.stop)
    ⟨fun h => ⟨h.1, h.2⟩, fun h => ⟨h.order, h.inside⟩⟩

namespace Node

def Spans (start stop : Nat) (n : Node) : Prop := n.subtree.start ≤ start ∧ stop ≤ n.subtree.stop

/-- The second node is the first or one of its ancestors. -/
def Climbs : Node → Node → Prop := Relation.ReflTransGen fun c p => c.parent? = some p

/-- Where going down from the node ends. -/
def narrowed (start stop : Nat) (n : Node) : Node :=
  let (t, ancestors) := narrow start stop n.ancestors n.subtree
  ⟨n.language, t, ancestors⟩

variable {n c d m : Node} {start stop : Nat}

theorem spans_iff : spans start stop n.subtree = true ↔ n.Spans start stop := by
  rw [spans, Bool.and_eq_true, decide_eq_true_iff, decide_eq_true_iff]
  rfl

theorem parent?_of_mem_children (h : c ∈ n.children) : c.parent? = some n := by
  obtain ⟨i, hi⟩ := List.mem_iff_getElem?.1 h
  exact parent?_child ((getElem?_children n i).symm.trans hi)

theorem narrowAmong_eq (start stop : Nat) (n : Node) (i : Nat) (ts : List Subtree) :
    narrowAmong start stop n.subtree n.ancestors i ts =
      ((ts.mapIdx fun j t => n.below t (i + j)).find? fun c => spans start stop c.subtree).map
        fun c => narrow start stop c.ancestors c.subtree := by
  induction ts generalizing i with
  | nil => rfl
  | cons t ts ih =>
      have hshift (j : Nat) : i + 1 + j = i + (j + 1) := by omega
      rw [narrowAmong, List.mapIdx_cons, List.find?_cons]
      show _ = Option.map _ (match spans start stop t with | true => _ | false => _)
      cases ht : spans start stop t with
      | true => rfl
      | false =>
          rw [if_neg Bool.false_ne_true, ih]
          simp only [hshift]

/-- One step down, to the first child that spans the range. -/
theorem narrowed_eq (n : Node) : n.narrowed start stop =
    ((n.children.find? fun c => spans start stop c.subtree).map (narrowed start stop)).getD n := by
  have hamong := narrowAmong_eq start stop n 0 n.subtree.children
  simp only [Nat.zero_add] at hamong
  change _ = (n.children.find? _).map _ at hamong
  cases hc : n.children.find? fun c => spans start stop c.subtree with
  | none =>
      rw [hc] at hamong
      obtain ⟨l, ⟨data, ts⟩, above⟩ := n
      rw [narrowed, narrow, hamong]
      rfl
  | some c =>
      obtain ⟨i, hi, rfl⟩ := List.mem_mapIdx.1 (List.mem_of_find?_eq_some hc)
      rw [hc] at hamong
      obtain ⟨l, ⟨data, ts⟩, above⟩ := n
      rw [narrowed, narrow, hamong]
      rfl

section

variable (h : Subtree.Every Subtree.Boxed n.subtree)

include h

theorem every_boxed_child (hc : c ∈ n.children) : Subtree.Every Subtree.Boxed c.subtree :=
  h.children _ (mem_children hc).1

/-- What is below a node spans no more than the node. -/
theorem spans_of_mem_preorder (hm : m ∈ n.preorder) (hs : m.Spans start stop) :
    n.Spans start stop := by
  induction n using induct with
  | node n ih =>
      rw [preorder_eq] at hm
      obtain rfl | hm := List.mem_cons.1 hm
      · exact hs
      · obtain ⟨c, hc, hm⟩ := List.mem_flatMap.1 hm
        obtain ⟨hstart, hstop⟩ := ih c hc (every_boxed_child h hc) hm
        obtain ⟨hleft, hright⟩ := h.here.inside _ (mem_children hc).1
        exact ⟨Nat.le_trans hleft hstart, Nat.le_trans hstop hright⟩

/-- Siblings that touch do not span a range together. -/
theorem eq_of_spans (hlt : start < stop) (hc : c ∈ n.children) (hd : d ∈ n.children)
    (hcs : c.Spans start stop) (hds : d.Spans start stop) : c = d := by
  have horder : n.children.Pairwise fun c d =>
      c.subtree.stop ≤ d.subtree.start ∨ d.subtree.stop ≤ c.subtree.start := by
    have hmap := h.here.order
    rw [← map_subtree_children, List.pairwise_map] at hmap
    exact hmap.imp .inl
  have hsymm : Std.Symm fun c d : Node =>
      c.subtree.stop ≤ d.subtree.start ∨ d.subtree.stop ≤ c.subtree.start := ⟨fun _ _ => Or.symm⟩
  by_contra hne
  have hparted := horder.forall hc hd hne
  obtain ⟨hcl, hcr⟩ := hcs
  obtain ⟨hdl, hdr⟩ := hds
  omega

/-- The induction follows the way down: what spans the range is the node itself or below the one child
that does. -/
theorem narrowed_least (hlt : start < stop) (hn : n.Spans start stop) :
    n.narrowed start stop ∈ n.preorder ∧ (n.narrowed start stop).Spans start stop ∧
      ∀ m ∈ n.preorder, m.Spans start stop → (n.narrowed start stop).Climbs m := by
  induction n using induct with
  | node n ih =>
      rw [narrowed_eq, preorder_eq]
      cases hfind : n.children.find? fun c => spans start stop c.subtree with
      | none =>
          refine ⟨List.mem_cons_self, hn, fun m hm hs => ?_⟩
          obtain rfl | hm := List.mem_cons.1 hm
          · exact .refl
          · obtain ⟨c, hc, hm⟩ := List.mem_flatMap.1 hm
            have hspans := spans_of_mem_preorder (every_boxed_child h hc) hm hs
            exact absurd (spans_iff.2 hspans) (List.find?_eq_none.1 hfind c hc)
      | some c =>
          have hc := List.mem_of_find?_eq_some hfind
          have hcs : c.Spans start stop :=
            spans_iff.1 (List.find?_some (p := fun c : Node => spans start stop c.subtree) hfind)
          obtain ⟨hmem, hspans, hleast⟩ := ih c hc (every_boxed_child h hc) hcs
          refine ⟨List.mem_cons_of_mem _ (List.mem_flatMap.2 ⟨c, hc, hmem⟩), hspans,
            fun m hm hs => ?_⟩
          obtain rfl | hm := List.mem_cons.1 hm
          · have hself : c ∈ c.preorder := mem_preorder_iff.2 ⟨[], rfl⟩
            exact (hleast c hself hcs).tail (parent?_of_mem_children hc)
          · obtain ⟨d, hd, hm⟩ := List.mem_flatMap.1 hm
            have hds := spans_of_mem_preorder (every_boxed_child h hd) hm hs
            obtain rfl := eq_of_spans h hlt hc hd hcs hds
            exact hleast m hm hs

end

theorem descendantForByteRange?_eq (n : Node) (start stop : Nat) :
    n.descendantForByteRange? start stop =
      if spans start stop n.subtree then some (n.narrowed start stop) else none := rfl

/-- Looking up a range of bytes finds nothing just if the node does not span it, and else the smallest
node that does: any other at or below the node that spans the range is an ancestor of it. -/
theorem finds_smallest (h : Subtree.Every Subtree.Boxed n.subtree) (hlt : start < stop) :
    (n.descendantForByteRange? start stop = none ↔ ¬n.Spans start stop) ∧
      ∀ d, n.descendantForByteRange? start stop = some d →
        d ∈ n.preorder ∧ d.Spans start stop ∧
          ∀ m ∈ n.preorder, m.Spans start stop → d.Climbs m := by
  rw [descendantForByteRange?_eq]
  by_cases hn : spans start stop n.subtree = true
  · rw [if_pos hn]
    have hspans := spans_iff.1 hn
    refine ⟨⟨nofun, fun hno => absurd hspans hno⟩, fun d hd => ?_⟩
    obtain rfl := Option.some.inj hd
    exact narrowed_least h hlt hspans
  · rw [if_neg hn]
    exact ⟨⟨fun _ hspans => hn (spans_iff.2 hspans), fun _ => rfl⟩, nofun⟩

/-- The second and the third child touch at the third byte, and only the second spans it. -/
theorem finds_smallest_twigs : ∃ d,
    Cursor.twigs.rootNode.descendantForByteRange? 2 3 = some d ∧
      Cursor.twigs.rootNode.descend? [1, 1] = some d ∧
      ∀ m ∈ Cursor.twigs.rootNode.preorder, m.Spans 2 3 → d.Climbs m := by
  have hboxed : Subtree.Every Subtree.Boxed Cursor.twigs.rootNode.subtree := by decide
  obtain ⟨d, hd⟩ : ∃ d, Cursor.twigs.rootNode.descendantForByteRange? 2 3 = some d := ⟨_, rfl⟩
  obtain ⟨-, hfound⟩ := finds_smallest hboxed (show 2 < 3 by decide)
  obtain ⟨-, -, hleast⟩ := hfound d hd
  refine ⟨d, hd, ?_, hleast⟩
  rw [← hd]
  rfl

end Node

end EarleyTree

import EarleyTree.Tree.Cursor
import EarleyTree.Proofs.Tree.Errors
import Mathlib.Data.List.Nodup

/-!
Cursors. Whatever is called, a cursor stands where a path of child indexes leads from the node that it
started from, and each call changes the end of that path. The loop that goes down, else on, else up meets
the nodes below in their order and comes to an end.
-/
namespace EarleyTree

namespace Node

variable {n c d : Node} {path : List Nat} {i : Nat}

theorem descend?_append (n : Node) (path more : List Nat) :
    n.descend? (path ++ more) = (n.descend? path).bind (·.descend? more) := by
  induction path generalizing n with
  | nil => rfl
  | cons i path ih =>
      rw [List.cons_append, descend?, descend?]
      cases n.child? i with
      | none => rfl
      | some c => exact ih c

theorem descend?_concat (n : Node) (path : List Nat) (i : Nat) :
    n.descend? (path ++ [i]) = (n.descend? path).bind (·.child? i) := by
  have hone (m : Node) : m.descend? [i] = m.child? i := by
    rw [descend?]
    exact Option.bind_fun_some _
  rw [descend?_append]
  exact congrArg (Option.bind (n.descend? path)) (funext hone)

theorem parent?_child (h : n.child? i = some c) : c.parent? = some n := by
  obtain ⟨t, -, rfl⟩ := Option.map_eq_some_iff.1 h
  rfl

theorem index?_child (h : n.child? i = some c) : c.index? = some i := by
  obtain ⟨t, -, rfl⟩ := Option.map_eq_some_iff.1 h
  rfl

theorem getElem?_children (n : Node) (i : Nat) : n.children[i]? = n.child? i :=
  List.getElem?_mapIdx

theorem nextSibling?_child (h : n.child? i = some c) : c.nextSibling? = n.child? (i + 1) := by
  rw [nextSibling?, following, parent?_child h, index?_child h]
  show (n.children.drop (i + 1)).head? = _
  rw [List.head?_drop, getElem?_children]

theorem fieldName?_child (h : n.child? i = some c) : c.fieldName? = n.fieldNameOfChild? i := by
  rw [fieldName?, parent?_child h, index?_child h]

/-- The ancestors tell the way back. -/
theorem indexes_descend? (h : n.descend? path = some d) :
    d.ancestors.map Prod.snd = path.reverse ++ n.ancestors.map Prod.snd := by
  induction path generalizing n with
  | nil =>
      cases h
      rfl
  | cons i path ih =>
      obtain ⟨c, hc, hd⟩ := Option.bind_eq_some_iff.1 h
      obtain ⟨t, -, rfl⟩ := Option.map_eq_some_iff.1 hc
      rw [ih hd, List.reverse_cons, List.append_assoc]
      rfl

theorem descend?_inj {other : List Nat} (h : n.descend? path = some d)
    (ho : n.descend? other = some d) : path = other :=
  List.reverse_injective
    (List.append_cancel_right ((indexes_descend? h).symm.trans (indexes_descend? ho)))

theorem mem_preorder_iff : d ∈ n.preorder ↔ ∃ path, n.descend? path = some d := by
  constructor
  · induction n using induct with
    | node n ih =>
        intro h
        rw [preorder_eq] at h
        obtain rfl | h := List.mem_cons.1 h
        · exact ⟨[], rfl⟩
        · obtain ⟨c, hc, hd⟩ := List.mem_flatMap.1 h
          obtain ⟨i, hi⟩ := List.mem_iff_getElem?.1 hc
          obtain ⟨path, hpath⟩ := ih c hc hd
          rw [getElem?_children] at hi
          exact ⟨i :: path, Option.bind_eq_some_iff.2 ⟨c, hi, hpath⟩⟩
  · rintro ⟨path, h⟩
    rw [preorder_eq]
    induction path generalizing n with
    | nil =>
        cases h
        exact List.mem_cons_self
    | cons i path ih =>
        obtain ⟨c, hc, hd⟩ := Option.bind_eq_some_iff.1 h
        have hmem : c ∈ n.children := List.mem_of_getElem? ((getElem?_children n i).trans hc)
        refine List.mem_cons_of_mem _ (List.mem_flatMap.2 ⟨c, hmem, ?_⟩)
        rw [preorder_eq]
        exact ih hd

/-- Two nodes of a tree are never one, for their ways back differ. -/
theorem nodup_preorder (n : Node) : n.preorder.Nodup := by
  induction n using induct with
  | node n ih =>
      have hway {i : Nat} {c d : Node} (hc : n.children[i]? = some c) (hd : d ∈ c.preorder) :
          ∃ path, n.descend? (i :: path) = some d := by
        obtain ⟨path, hpath⟩ := mem_preorder_iff.1 hd
        rw [getElem?_children] at hc
        exact ⟨path, Option.bind_eq_some_iff.2 ⟨c, hc, hpath⟩⟩
      rw [preorder_eq, List.nodup_cons, List.nodup_flatMap]
      refine ⟨fun hn => ?_, ih, List.pairwise_iff_getElem.2 fun i j hi hj hij d hdi hdj => ?_⟩
      · obtain ⟨c, hc, hn⟩ := List.mem_flatMap.1 hn
        obtain ⟨i, hi⟩ := List.mem_iff_getElem?.1 hc
        obtain ⟨path, hpath⟩ := hway hi hn
        have hself : n.descend? [] = some n := rfl
        cases descend?_inj hself hpath
      · obtain ⟨p, hp⟩ := hway (List.getElem?_eq_getElem hi) hdi
        obtain ⟨q, hq⟩ := hway (List.getElem?_eq_getElem hj) hdj
        have heq := (List.cons.inj (descend?_inj hp hq)).1
        omega

end Node

namespace Cursor

/-- The calls that move a cursor. -/
inductive Move
  | firstChild
  | nextSibling
  | parent
  deriving DecidableEq

def target? (c : Cursor) : Move → Option Cursor
  | .firstChild => c.firstChild?
  | .nextSibling => c.nextSibling?
  | .parent => c.parent?

/-- What a call answers, and the cursor after it. -/
def call (c : Cursor) (move : Move) : Bool × Cursor :=
  match c.target? move with
  | some d => (true, d)
  | none => (false, c)

def run (c : Cursor) (moves : List Move) : Cursor := moves.foldl (fun c move => (c.call move).2) c

/-- The cursor is where the path leads from the node, as deep as the path is long. -/
structure At (n : Node) (path : List Nat) (c : Cursor) : Prop where
  node : n.descend? path = some c.node
  depth : c.depth = path.length

/-- How a move changes the path from the node that the cursor started from. -/
def Leads : Move → List Nat → List Nat → Prop
  | .firstChild, path, path' => path' = path ++ [0]
  | .nextSibling, path, path' => ∃ q i, path = q ++ [i] ∧ path' = q ++ [i + 1]
  | .parent, path, path' => ∃ i, path = path' ++ [i]

variable {n : Node} {path : List Nat} {c d : Cursor} {move : Move}

theorem target?_eq_some_iff : c.target? move = some d ↔ c.call move = (true, d) := by
  rw [call]
  cases c.target? move with
  | none => simp
  | some e => simp

theorem call_of_false (h : (c.call move).1 = false) : (c.call move).2 = c := by
  rw [call] at h ⊢
  cases hm : c.target? move with
  | none => rfl
  | some d =>
      rw [hm] at h
      cases h

theorem parent?_firstChild (h : c.firstChild? = some d) : d.parent? = some c := by
  obtain ⟨m, hm, rfl⟩ := Option.map_eq_some_iff.1 h
  rw [parent?, if_neg (Nat.succ_ne_zero _), Node.parent?_child hm]
  rfl

namespace At

theorem walk (n : Node) : At n [] n.walk := ⟨rfl, rfl⟩

theorem eq (hc : At n path c) (hd : At n path d) : c = d := by
  obtain ⟨m, k⟩ := c
  obtain ⟨m', k'⟩ := d
  obtain rfl : m = m' := Option.some.inj (hc.node.symm.trans hd.node)
  obtain rfl : k = k' := hc.depth.trans hd.depth.symm
  rfl

theorem child {p : Cursor} {i : Nat} (h : At n path p) (hc : p.node.child? i = some c.node)
    (hdepth : c.depth = p.depth + 1) : At n (path ++ [i]) c where
  node := by rw [Node.descend?_concat, h.node, Option.bind_some, hc]
  depth := by rw [hdepth, h.depth, List.length_append, List.length_singleton]

/-- Below the start a cursor is at a child of where it came from. -/
theorem exists_child {i : Nat} (h : At n (path ++ [i]) c) :
    ∃ p : Cursor, At n path p ∧ p.node.child? i = some c.node ∧ c.depth = p.depth + 1 := by
  have hnode := h.node
  rw [Node.descend?_concat] at hnode
  obtain ⟨m, hm, hc⟩ := Option.bind_eq_some_iff.1 hnode
  refine ⟨⟨m, path.length⟩, ⟨hm, rfl⟩, hc, ?_⟩
  rw [h.depth, List.length_append, List.length_singleton]

theorem firstChild?_eq_some_iff (h : At n path c) :
    c.firstChild? = some d ↔ At n (path ++ [0]) d := by
  constructor
  · intro hd
    obtain ⟨m, hm, rfl⟩ := Option.map_eq_some_iff.1 hd
    exact h.child hm rfl
  · intro hd
    obtain ⟨p, hp, hchild, hdepth⟩ := hd.exists_child
    obtain rfl := hp.eq h
    rw [firstChild?, hchild, ← hdepth]
    rfl

theorem nextSibling?_eq_some_iff {i : Nat} (h : At n (path ++ [i]) c) :
    c.nextSibling? = some d ↔ At n (path ++ [i + 1]) d := by
  obtain ⟨p, hp, hchild, hdepth⟩ := h.exists_child
  rw [nextSibling?, if_neg (by omega), Node.nextSibling?_child hchild]
  constructor
  · intro hd
    obtain ⟨m, hm, rfl⟩ := Option.map_eq_some_iff.1 hd
    exact hp.child hm hdepth
  · intro hd
    obtain ⟨p', hp', hchild', hdepth'⟩ := hd.exists_child
    obtain rfl := hp'.eq hp
    rw [hchild', hdepth, ← hdepth']
    rfl

theorem parent?_eq_some_iff {i : Nat} (h : At n (path ++ [i]) c) :
    c.parent? = some d ↔ At n path d := by
  obtain ⟨p, hp, hchild, hdepth⟩ := h.exists_child
  have hparent : c.parent? = some p := by
    rw [parent?, if_neg (by omega), Node.parent?_child hchild, hdepth]
    rfl
  rw [hparent]
  constructor
  · intro hd
    cases hd
    exact hp
  · intro hd
    rw [hd.eq hp]

/-- A call succeeds just if the path that it leads to exists below the start, and goes there. -/
theorem target?_iff (h : At n path c) : c.target? move = some d ↔
    ∃ path', Leads move path path' ∧ At n path' d := by
  cases move with
  | firstChild => simpa [target?, Leads] using h.firstChild?_eq_some_iff
  | nextSibling =>
      obtain rfl | ⟨q, i, rfl⟩ := path.eq_nil_or_concat'
      · have hzero : c.depth = 0 := h.depth
        simp [target?, nextSibling?, hzero, Leads]
      · simpa [target?, Leads] using h.nextSibling?_eq_some_iff
  | parent =>
      obtain rfl | ⟨q, i, rfl⟩ := path.eq_nil_or_concat'
      · have hzero : c.depth = 0 := h.depth
        simp [target?, parent?, hzero, Leads]
      · simpa [target?, Leads] using h.parent?_eq_some_iff

theorem call (h : At n path c) (move : Move) : ∃ path', At n path' (c.call move).2 := by
  rw [Cursor.call]
  cases hm : c.target? move with
  | none => exact ⟨path, h⟩
  | some d =>
      obtain ⟨path', -, hd⟩ := h.target?_iff.1 hm
      exact ⟨path', hd⟩

theorem run (h : At n path c) (moves : List Move) : ∃ path', At n path' (c.run moves) := by
  induction moves generalizing c path with
  | nil => exact ⟨path, h⟩
  | cons move moves ih =>
      obtain ⟨path', hcall⟩ := h.call move
      exact ih hcall

/-- The field name of a cursor is what its parent in the whole tree calls that child, and the root of the
tree has none, wherever the cursor started. -/
theorem fieldName? {t : Tree} {place : List Nat} (hn : t.rootNode.descend? place = some n)
    (h : At n path c) :
    place ++ path = [] ∧ c.fieldName? = none ∨
      ∃ q i p, place ++ path = q ++ [i] ∧ t.rootNode.descend? q = some p ∧
        p.child? i = some c.node ∧ c.fieldName? = p.fieldNameOfChild? i := by
  have hwhole : t.rootNode.descend? (place ++ path) = some c.node := by
    rw [Node.descend?_append, hn]
    exact h.node
  obtain hnil | ⟨q, i, hconcat⟩ := (place ++ path).eq_nil_or_concat'
  · rw [hnil] at hwhole
    have hroot : t.rootNode = c.node := Option.some.inj hwhole
    refine .inl ⟨hnil, ?_⟩
    rw [Cursor.fieldName?, ← hroot]
    rfl
  · rw [hconcat, Node.descend?_concat] at hwhole
    obtain ⟨p, hp, hchild⟩ := Option.bind_eq_some_iff.1 hwhole
    exact .inr ⟨q, i, p, hconcat, hp, hchild, Node.fieldName?_child hchild⟩

end At

theorem depth_parent?_lt (h : c.parent? = some d) : d.depth < c.depth := by
  rw [parent?] at h
  split at h
  · cases h
  · next hdepth =>
      obtain ⟨m, -, rfl⟩ := Option.map_eq_some_iff.1 h
      exact Nat.sub_one_lt hdepth

/-- The next sibling, or else that of the nearest ancestor that has one. -/
def climb? (c : Cursor) : Option Cursor :=
  match c.nextSibling? with
  | some d => some d
  | none =>
    match _h : c.parent? with
    | none => none
    | some p => p.climb?
termination_by c.depth
decreasing_by exact depth_parent?_lt _h

/-- One round of the loop: down, or else on, or else up until it goes on. -/
def advance? (c : Cursor) : Option Cursor := c.firstChild?.or c.climb?

/-- The loop comes to an end, and these are the nodes that it has met. -/
inductive Visits : Option Cursor → List Node → Prop
  | stop : Visits none []
  | next {c : Cursor} {ns : List Node} (h : Visits c.advance? ns) : Visits (some c) (c.node :: ns)

theorem Visits.unique {o : Option Cursor} {ns ms : List Node} (hn : Visits o ns) (hm : Visits o ms) :
    ns = ms := by
  induction hn generalizing ms with
  | stop =>
      cases hm
      rfl
  | next _ ih =>
      cases hm with
      | next hm => rw [ih hm]

theorem climb?_walk (n : Node) : n.walk.climb? = none := by
  have hsibling : n.walk.nextSibling? = none := if_pos rfl
  have hparent : n.walk.parent? = none := if_pos rfl
  rw [climb?, hsibling]
  show (match _h : n.walk.parent? with | none => none | some p => p.climb?) = none
  split
  · rfl
  · next p hp => cases hparent.symm.trans hp

/-- The child of that number, or where the loop goes when it has been below the node. -/
def childOr (c : Cursor) (i : Nat) : Option Cursor :=
  ((c.node.child? i).map (⟨·, c.depth + 1⟩)).or c.climb?

theorem climb?_child {i : Nat} {m : Node} (h : c.node.child? i = some m) :
    climb? ⟨m, c.depth + 1⟩ = c.childOr (i + 1) := by
  have hsibling : nextSibling? ⟨m, c.depth + 1⟩ =
      (c.node.child? (i + 1)).map (⟨·, c.depth + 1⟩) := by
    rw [nextSibling?, if_neg (Nat.succ_ne_zero _), Node.nextSibling?_child h]
  have hparent : parent? ⟨m, c.depth + 1⟩ = some c := by
    rw [parent?, if_neg (Nat.succ_ne_zero _), Node.parent?_child h]
    rfl
  rw [climb?, hsibling, childOr]
  cases c.node.child? (i + 1) with
  | some d => rfl
  | none =>
      show (match _h : parent? ⟨m, c.depth + 1⟩ with | none => none | some p => p.climb?) = c.climb?
      split
      · next hp => cases hparent.symm.trans hp
      · next p hp =>
          cases hparent.symm.trans hp
          rfl

/-- Once the loop has been through a child it goes on to the next, and from the last one back up. -/
theorem visits_children {rest : List Node}
    (hbelow : ∀ m ∈ c.node.children, ∀ depth rest, Visits (climb? ⟨m, depth⟩) rest →
      Visits (some ⟨m, depth⟩) (m.preorder ++ rest))
    (hrest : Visits c.climb? rest) (i : Nat) :
    Visits (c.childOr i) ((c.node.children.drop i).flatMap Node.preorder ++ rest) := by
  induction hms : c.node.children.drop i generalizing i with
  | nil =>
      have hnone : c.node.child? i = none := by
        rw [← Node.getElem?_children, List.getElem?_eq_none (List.drop_eq_nil_iff.1 hms)]
      rw [childOr, hnone]
      exact hrest
  | cons m ms ih =>
      have hm : c.node.children[i]? = some m := by
        rw [← List.head?_drop, hms, List.head?_cons]
      have hms' : c.node.children.drop (i + 1) = ms := by
        rw [← List.tail_drop, hms, List.tail_cons]
      have hchild : c.node.child? i = some m := (Node.getElem?_children _ i).symm.trans hm
      have hnext := ih (i + 1) hms'
      rw [← climb?_child hchild] at hnext
      rw [childOr, hchild, List.flatMap_cons, List.append_assoc]
      exact hbelow m (List.mem_of_getElem? hm) _ _ hnext

/-- From a node the loop meets all below it before it goes where it would go without them. -/
theorem visits_preorder {rest : List Node} (depth : Nat) (hrest : Visits (climb? ⟨n, depth⟩) rest) :
    Visits (some ⟨n, depth⟩) (n.preorder ++ rest) := by
  induction n using Node.induct generalizing depth rest with
  | node n ih =>
      have hchildren := visits_children (fun m hm depth rest => ih m hm depth) hrest 0
      rw [Node.preorder_eq]
      exact .next hchildren

/-- Wherever in a tree a cursor starts and whatever is called, it stays where a path of child indexes
leads from its start, as deep as the path is long, and bears the name that its parent gives to that child.
Each call does what its path says or else changes nothing, and going up undoes going down. The loop meets
each node at and below the start once, in order, and then nothing more. -/
theorem cursors_traverse {t : Tree} {place : List Nat} (hn : t.rootNode.descend? place = some n) :
    (∀ moves, ∃ path c, n.walk.run moves = c ∧ At n path c ∧
      (place ++ path = [] ∧ c.fieldName? = none ∨
        ∃ q i p, place ++ path = q ++ [i] ∧ t.rootNode.descend? q = some p ∧
          p.child? i = some c.node ∧ c.fieldName? = p.fieldNameOfChild? i) ∧
      (∀ move, (∀ d, c.call move = (true, d) ↔ ∃ path', Leads move path path' ∧ At n path' d) ∧
        ((c.call move).1 = false → (c.call move).2 = c)) ∧
      ((c.call .firstChild).1 = true → (c.call .firstChild).2.call .parent = (true, c))) ∧
    (∀ ns, Visits (some n.walk) ns ↔ ns = n.preorder) ∧
    n.preorder.Nodup ∧ ∀ d, d ∈ n.preorder ↔ ∃ path, n.descend? path = some d := by
  refine ⟨fun moves => ?_, fun ns => ?_, n.nodup_preorder, fun d => Node.mem_preorder_iff⟩
  · obtain ⟨path, hat⟩ := (At.walk n).run moves
    refine ⟨path, _, rfl, hat, hat.fieldName? hn, fun move => ⟨fun d => ?_, call_of_false⟩,
      fun hdown => ?_⟩
    · rw [← target?_eq_some_iff, hat.target?_iff]
    · exact target?_eq_some_iff.1 (parent?_firstChild (target?_eq_some_iff.2 (Prod.ext hdown rfl)))
  · have hvisits : Visits (some n.walk) n.preorder := by
      have hstop : Visits n.walk.climb? [] := by
        rw [climb?_walk]
        exact .stop
      have hall := visits_preorder 0 hstop
      rwa [List.append_nil] at hall
    constructor
    · exact fun hns => hns.unique hvisits
    · rintro rfl
      exact hvisits

def twigTables : Tables :=
  { name := "twigs"
    symbols := #[⟨"row", .nonterminal, true, true⟩, ⟨"bud", .terminal, true, true⟩]
    fields := ["inner", "last"]
    productions := #[]
    productionsByLhs := #[]
    nullable := #[]
    start := 0
    lexTokens := []
    skip := []
    extraTokens := []
    externals := []
    keywords := []
    word := none }

/-- A row of two buds with a label, and a bud on either side of it. -/
def twigs : Tree :=
  let bud (i : Nat) := Subtree.leaf ⟨0, [i]⟩ 1 1 ⟨i, i + 1, ⟨0, i⟩, ⟨0, i + 1⟩⟩
  let inner := Subtree.node ⟨0, [4]⟩ 0 0 ⟨1, 3, ⟨0, 1⟩, ⟨0, 3⟩⟩ [bud 1, (bud 2).setField (some 2)]
  { language := ⟨twigTables, none, 0⟩
    root := Subtree.node ⟨0, [5]⟩ 0 0 ⟨0, 4, ⟨0, 0⟩, ⟨0, 4⟩⟩
      [bud 0, inner.setField (some 1), bud 3] }

/-- The start has siblings, yet the cursor finds none, and the third call moves it no more. -/
theorem cursors_traverse_twigs : ∃ n, twigs.rootNode.descend? [1] = some n ∧
    n.nextSibling?.isSome = true ∧ (n.walk.call .nextSibling).1 = false ∧
    n.walk.fieldName? = some "inner" ∧
    (∃ path c, n.walk.run [.firstChild, .nextSibling, .nextSibling] = c ∧ At n path c ∧
      c.depth = 1 ∧ c.fieldName? = some "last") ∧
    (∀ ns, Visits (some n.walk) ns ↔ ns = n.preorder) ∧ n.preorder.length = 3 := by
  obtain ⟨n, hn⟩ : ∃ n, twigs.rootNode.descend? [1] = some n := ⟨_, rfl⟩
  obtain ⟨hruns, hvisits, -⟩ := cursors_traverse hn
  obtain ⟨path, c, hc, hat, -⟩ := hruns [.firstChild, .nextSibling, .nextSibling]
  refine ⟨n, hn, ?_, ?_, ?_, ⟨path, c, hc, hat, ?_, ?_⟩, hvisits, ?_⟩ <;> subst hc <;> cases hn <;>
    decide

end Cursor

end EarleyTree

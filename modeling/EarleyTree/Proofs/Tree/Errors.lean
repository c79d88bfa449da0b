import EarleyTree.Proofs.Tree.Editing
import EarleyTree.Tree.Node

/-!
The error flags of a tree: a node bears one just if an error node is below it or is the node itself.
-/
namespace EarleyTree

open Text

namespace Node

mutual

/-- The nodes of a tree, each before those below it, from left to right. -/
def preorderFrom (l : Language) (above : List (Subtree × Nat)) : Subtree → List Node
  | ⟨data, children⟩ =>
    ⟨l, ⟨data, children⟩, above⟩ :: preorderAmong l ⟨data, children⟩ above 0 children

def preorderAmong (l : Language) (parent : Subtree) (above : List (Subtree × Nat)) :
    Nat → List Subtree → List Node
  | _, [] => []
  | i, t :: ts =>
    preorderFrom l ((parent, i) :: above) t ++ preorderAmong l parent above (i + 1) ts

end

def preorder (n : Node) : List Node := preorderFrom n.language n.ancestors n.subtree

variable {n : Node}

theorem preorderAmong_eq_flatMap (l : Language) (parent : Subtree) (above : List (Subtree × Nat))
    (i : Nat) (ts : List Subtree) : preorderAmong l parent above i ts =
      (ts.mapIdx fun j t => (⟨l, t, (parent, i + j) :: above⟩ : Node)).flatMap preorder := by
  induction ts generalizing i with
  | nil => rfl
  | cons t ts ih =>
      have hshift (j : Nat) : i + 1 + j = i + (j + 1) := by omega
      rw [preorderAmong, ih, List.mapIdx_cons, List.flatMap_cons]
      simp only [hshift]
      rfl

theorem preorder_eq (n : Node) : n.preorder = n :: n.children.flatMap preorder := by
  obtain ⟨l, ⟨data, ts⟩, above⟩ := n
  rw [preorder, preorderFrom, preorderAmong_eq_flatMap]
  simp only [Nat.zero_add]
  rfl

theorem mem_children {c : Node} (h : c ∈ n.children) :
    c.subtree ∈ n.subtree.children ∧ ∃ i, c.ancestors = (n.subtree, i) :: n.ancestors := by
  obtain ⟨i, hi, rfl⟩ := List.mem_mapIdx.1 h
  exact ⟨List.getElem_mem hi, i, rfl⟩

theorem map_subtree_children (n : Node) :
    n.children.map (·.subtree) = n.subtree.children :=
  List.ext_getElem (by simp [children]) fun i _ _ => by simp [children, below]

theorem induct {M : Node → Prop} (node : ∀ n : Node, (∀ c ∈ n.children, M c) → M n) (n : Node) :
    M n := by
  obtain ⟨l, t, above⟩ := n
  induction t using Subtree.induct generalizing above with
  | node data ts ih =>
      refine node _ fun c hc => ?_
      obtain ⟨i, hi, rfl⟩ := List.mem_mapIdx.1 hc
      exact ih _ (List.getElem_mem hi) _

end Node

namespace Subtree

/-- The flag says just if the node is an error node or a child bears the flag. -/
def Flagged (t : Subtree) : Prop :=
  t.hasError = (t.kind == errorSymbol || t.children.any (·.hasError))

variable {g t : Subtree} {ts us : List Subtree}

instance : DecidablePred Flagged := fun t => inferInstanceAs (Decidable (t.hasError = _))

theorem flagged_node {ident : Ident} {symbol kind : Symbol} {span : Span}
    (h : symbol = errorSymbol ↔ kind = errorSymbol) : Flagged (node ident symbol kind span ts) := by
  have hbeq : (symbol == errorSymbol) = (kind == errorSymbol) := by
    rw [Bool.eq_iff_iff, beq_iff_eq, beq_iff_eq, h]
  show (symbol == errorSymbol || ts.any (·.hasError)) = _
  rw [hbeq]
  rfl

theorem flagged_leaf {ident : Ident} {symbol kind : Symbol} {span : Span}
    (h : symbol = errorSymbol ↔ kind = errorSymbol) : Flagged (leaf ident symbol kind span) := by
  have hnode : Flagged (node ident symbol kind span []) := flagged_node h
  rwa [node, List.any_nil, Bool.or_false] at hnode

/-- What a node's flag depends on is all that matters. -/
theorem Flagged.congr {s : Subtree} (h : Flagged s) (herror : t.hasError = s.hasError)
    (hkind : t.kind = errorSymbol ↔ s.kind = errorSymbol)
    (hchildren : t.children.map (·.hasError) = s.children.map (·.hasError)) : Flagged t := by
  have hbeq : (t.kind == errorSymbol) = (s.kind == errorSymbol) := by
    rw [Bool.eq_iff_iff, beq_iff_eq, beq_iff_eq, hkind]
  have hany : t.children.any (·.hasError) = s.children.any (·.hasError) := by
    have h := congrArg (List.any · id) hchildren
    simpa only [List.any_map, Function.comp_def, id] using h
  rw [Flagged, herror, hbeq, hany]
  exact h

theorem flagged_skeleton : Flagged t.skeleton ↔ Flagged t := by
  have hchildren : t.skeleton.children.map (·.hasError) = t.children.map (·.hasError) := by
    rw [children_skeleton, skeletonAll_eq_map, List.map_map]
    exact List.map_congr_left fun c _ => hasError_skeleton c
  constructor
  · intro h
    exact h.congr (hasError_skeleton t).symm (by rw [kind_skeleton]) hchildren.symm
  · intro h
    exact h.congr (hasError_skeleton t) (by rw [kind_skeleton]) hchildren

theorem any_hasError_insertAmong (g : Subtree) (ts : List Subtree) :
    (insertAmong g ts).any (·.hasError) = (ts.any (·.hasError) || g.hasError) := by
  rw [Bool.eq_iff_iff]
  simp only [Bool.or_eq_true, List.any_eq_true, mem_insertAmong, or_and_right, exists_or,
    exists_eq_left]
  exact or_comm

theorem any_hasError_putInside (h : putInside g ts = some us) :
    us.any (·.hasError) = (ts.any (·.hasError) || g.hasError) := by
  induction ts generalizing us with
  | nil => cases h
  | cons t ts ih =>
      rw [putInside] at h
      split at h
      · cases h
        rw [List.any_cons, List.any_cons, hasError_put, Bool.or_right_comm]
      · obtain ⟨us, hu, rfl⟩ := Option.map_eq_some_iff.1 h
        rw [List.any_cons, List.any_cons, ih hu, Bool.or_assoc]

theorem Flagged.put (g : Subtree) (h : Flagged t) : Flagged (t.put g) := by
  obtain ⟨data, ts⟩ := t
  have hany : (putAmong g ts).any (·.hasError) = (ts.any (·.hasError) || g.hasError) := by
    rw [putAmong]
    cases hu : putInside g ts with
    | none => exact any_hasError_insertAmong g ts
    | some us => exact any_hasError_putInside hu
  show (data.hasError || g.hasError) = (data.kind == errorSymbol || (putAmong g ts).any (·.hasError))
  rw [hany, ← Bool.or_assoc]
  exact congrArg (· || g.hasError) h

theorem every_flagged_insertFloating (hg : Every Flagged g) (ht : Every Flagged t) (era : Nat)
    (trail : List Nat) : Every Flagged (insertFloating g era trail t) := by
  have hskel : ∀ t : Subtree, Flagged t.skeleton ↔ Flagged t := fun _ => flagged_skeleton
  rw [← every_skeleton hskel] at hg ht ⊢
  rw [skeleton_insertFloating]
  generalize t.skeleton = t at ht ⊢
  obtain ⟨data, ts⟩ := t
  exact .mk (ht.here.put _) (.putAmong (fun _ h => h) (fun _ _ h => h.put _) hg ht.children)

theorem every_flagged_edit (e : Edit) (era : Nat) (trail : List Nat) (h : Every Flagged t) :
    Every Flagged (t.edit e era trail) := by
  have hpairs : Pairs (fun s t => t.hasError = s.hasError ∧ t.kind = s.kind) t
      (t.edit e era trail) :=
    pairs_edit (fun _ _ h => h.mono fun _ _ => ⟨rfl, rfl⟩) (fun _ _ _ _ _ _ => ⟨rfl, rfl⟩) era trail h
  refine hpairs.every h fun s t hp hs => hs.congr hp.here.1 (by rw [hp.here.2]) ?_
  exact (hp.map_children fun _ _ h => h.1.symm).symm

end Subtree

namespace Node

variable {n : Node}

/-- Every node of a tree that has a property everywhere has it everywhere. -/
theorem every_of_mem_preorder {P : Subtree → Prop} (h : Subtree.Every P n.subtree) :
    ∀ d ∈ n.preorder, Subtree.Every P d.subtree := by
  induction n using induct with
  | node n ih =>
      intro d hd
      rw [preorder_eq] at hd
      obtain rfl | hd := List.mem_cons.1 hd
      · exact h
      · obtain ⟨c, hc, hd⟩ := List.mem_flatMap.1 hd
        exact ih c hc (h.children _ (mem_children hc).1) d hd

theorem hasError_iff (h : Subtree.Every Subtree.Flagged n.subtree) :
    n.subtree.hasError = true ↔ ∃ d ∈ n.preorder, d.subtree.kind = errorSymbol := by
  induction n using induct with
  | node n ih =>
      have hbelow : (∃ c ∈ n.children, c.subtree.hasError = true) ↔
          n.subtree.children.any (·.hasError) = true := by
        rw [← map_subtree_children, List.any_map, List.any_eq_true]
        rfl
      rw [h.here, Bool.or_eq_true, beq_iff_eq, ← hbelow, preorder_eq]
      simp only [List.mem_cons, List.mem_flatMap, or_and_right, exists_or, exists_eq_left]
      refine or_congr_right ⟨?_, ?_⟩
      · rintro ⟨c, hc, he⟩
        obtain ⟨d, hd, hk⟩ := (ih c hc (h.children _ (mem_children hc).1)).1 he
        exact ⟨d, ⟨c, hc, hd⟩, hk⟩
      · rintro ⟨d, ⟨c, hc, hd⟩, hk⟩
        exact ⟨c, hc, (ih c hc (h.children _ (mem_children hc).1)).2 ⟨d, hd, hk⟩⟩

end Node

end EarleyTree

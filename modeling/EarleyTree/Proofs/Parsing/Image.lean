import EarleyTree.Proofs.Parsing.Forest
import EarleyTree.Proofs.Tree.Skeleton

/-!
What derivation trees look like as syntax trees.
-/
namespace EarleyTree

open Text

namespace Derivation

variable (x : Derivation)

/-- A token is shown as a leaf over its own range, if it is shown at all; a subtree taken over is
shown as it is, under the name and the field of the step. -/
def unitImage (s : Step) : InputUnit → List Subtree
  | .token t =>
    if x.isShown s then
      [(Subtree.leaf Subtree.anonymous s.symbol (s.newKind.getD s.symbol)
        (x.lines.span t.start t.stop)).setField s.field]
    else []
  | .reused t =>
    let t := t.skeleton
    [({ t with data := { t.data with kind := s.newKind.getD s.symbol } } : Subtree).setField s.field]

/-- What is derived from a step is shown as the children of one node, or else in its place. -/
def nodeImage (s : Step) (span : Span) (children : List Subtree) : List Subtree :=
  if x.isShown s then
    [(Subtree.node Subtree.anonymous s.symbol (s.newKind.getD s.symbol) span children).setField
      s.field]
  else children.map (Subtree.label s.field)

/-- The syntax trees that a row of derivation trees from a place on is shown as. -/
def image : Forest → List Step → Nat → List Subtree
  | .nil, _, _ => []
  | .unit next, s :: ss, i =>
    ((x.units[i]?).map (x.unitImage s)).getD [] ++ image next ss (i + 1)
  | .expand p inner next, s :: ss, i =>
    x.nodeImage s (x.span i (i + inner.width)) (image inner (x.tables.steps p) i) ++
      image next ss (i + inner.width)
  | _, [], _ => []

variable {x} {f g : Forest} {ss ts : List Step} {s : Step} {i j k : Nat}

@[simp] theorem image_nil : x.image .nil ss i = [] := by
  rw [image]

theorem image_append (hf : f.Covers x.tables x.units ss i k) :
    x.image (f.append g) (ss ++ ts) i = x.image f ss i ++ x.image g ts k := by
  induction hf with
  | nil i => rw [Forest.append, image_nil, List.nil_append, List.nil_append]
  | unit hu hs hf ih => rw [Forest.append, List.cons_append, image, image, ih, List.append_assoc]
  | expand hp hs hf hg _ ih =>
      rw [Forest.append, List.cons_append, image, image, hf.add_width, ih, List.append_assoc]

theorem image_unit {u : InputUnit} (hu : x.units[i]? = some u) :
    x.image (.unit .nil) [s] i = x.unitImage s u := by
  rw [image, hu, image_nil, List.append_nil, Option.map_some, Option.getD_some]

theorem image_expand {p : Nat} (hf : f.Covers x.tables x.units (x.tables.steps p) i j) :
    x.image (.expand p f .nil) [s] i =
      x.nodeImage s (x.span i j) (x.image f (x.tables.steps p) i) := by
  rw [image, image_nil, hf.add_width, List.append_nil]

/-- The subtrees are what some row of derivation trees over the stretch is shown as. -/
def Shows (x : Derivation) (ss : List Step) (i j : Nat) (trees : List Subtree) : Prop :=
  ∃ f : Forest, f.Covers x.tables x.units ss i j ∧ Subtree.skeletonAll trees = x.image f ss i

namespace Shows

variable {trees more : List Subtree}

theorem nil (i : Nat) : x.Shows [] i i [] := ⟨.nil, .nil i, image_nil.symm⟩

theorem append (hf : x.Shows ss i k trees) (hg : x.Shows ts k j more) :
    x.Shows (ss ++ ts) i j (trees ++ more) := by
  obtain ⟨f, hf, hft⟩ := hf
  obtain ⟨g, hg, hgt⟩ := hg
  exact ⟨f.append g, hf.append hg, by rw [Subtree.skeletonAll_append, hft, hgt, image_append hf]⟩

end Shows

end Derivation

end EarleyTree

import EarleyTree.Tree.Subtree

/-!
Syntax trees up to the identities of their nodes. What is done to a tree behind a parse does not
look at the identities.
-/
namespace EarleyTree

open Text

namespace Subtree

mutual

def decEq : (s t : Subtree) → Decidable (s = t)
  | ⟨d, ss⟩, ⟨d', ts⟩ =>
    match decEqData d d', decEqAll ss ts with
    | isTrue h, isTrue h' => isTrue (by rw [h, h'])
    | isFalse h, _ => isFalse fun he => h (Subtree.mk.inj he).1
    | _, isFalse h => isFalse fun he => h (Subtree.mk.inj he).2
where decEqData (d d' : NodeData) : Decidable (d = d') := inferInstance

def decEqAll : (ss ts : List Subtree) → Decidable (ss = ts)
  | [], [] => isTrue rfl
  | [], _ :: _ => isFalse fun h => nomatch h
  | _ :: _, [] => isFalse fun h => nomatch h
  | s :: ss, t :: ts =>
    match decEq s t, decEqAll ss ts with
    | isTrue h, isTrue h' => isTrue (by rw [h, h'])
    | isFalse h, _ => isFalse fun he => h (List.cons.inj he).1
    | _, isFalse h => isFalse fun he => h (List.cons.inj he).2

end

instance : DecidableEq Subtree := decEq

def anonymous : Ident := ⟨0, []⟩

mutual

/-- What a syntax tree shows: all but the identities and the marks of changes. -/
def skeleton : Subtree → Subtree
  | ⟨data, children⟩ =>
    ⟨{ data with ident := anonymous, hasChanges := false }, skeletonAll children⟩

def skeletonAll : List Subtree → List Subtree
  | [] => []
  | t :: ts => t.skeleton :: skeletonAll ts

end

theorem skeletonAll_eq_map (ts : List Subtree) : skeletonAll ts = ts.map skeleton := by
  induction ts with
  | nil => rfl
  | cons t ts ih => rw [skeletonAll, ih, List.map_cons]

@[simp] theorem skeletonAll_append (ss ts : List Subtree) :
    skeletonAll (ss ++ ts) = skeletonAll ss ++ skeletonAll ts := by
  simp only [skeletonAll_eq_map, List.map_append]

@[simp] theorem hasError_skeleton (t : Subtree) : t.skeleton.hasError = t.hasError := by
  cases t
  rfl

@[simp] theorem field_skeleton (t : Subtree) : t.skeleton.field = t.field := by
  cases t
  rfl

@[simp] theorem skeleton_setField (field : Option FieldId) (t : Subtree) :
    (t.setField field).skeleton = t.skeleton.setField field := by
  cases t
  rfl

theorem setField_eq_self {field : Option FieldId} {t : Subtree} (h : t.field = field) :
    t.setField field = t := by
  subst h
  cases t
  rfl

@[simp] theorem skeleton_setIdent (ident : Ident) (t : Subtree) :
    (t.setIdent ident).skeleton = t.skeleton := by
  cases t
  rfl

@[simp] theorem skeleton_label (field : Option FieldId) (t : Subtree) :
    (t.label field).skeleton = t.skeleton.label field := by
  rw [label, skeleton_setField, label, field_skeleton]

theorem skeleton_node (ident : Ident) (symbol kind : Symbol) (span : Span) (ts : List Subtree) :
    (node ident symbol kind span ts).skeleton = node anonymous symbol kind span (skeletonAll ts) := by
  have hany : (skeletonAll ts).any (·.hasError) = ts.any (·.hasError) := by
    rw [skeletonAll_eq_map, List.any_map]
    congr 1
    funext t
    exact hasError_skeleton t
  rw [node, node, skeleton, hany]

theorem skeletonAll_map_label (field : Option FieldId) (ts : List Subtree) :
    skeletonAll (ts.map (label field)) = (skeletonAll ts).map (label field) := by
  simp only [skeletonAll_eq_map, List.map_map]
  congr 1
  funext t
  exact skeleton_label field t

@[simp] theorem span_skeleton (t : Subtree) : t.skeleton.span = t.span := by
  cases t
  rfl

theorem start_skeleton (t : Subtree) : t.skeleton.start = t.start := by
  cases t
  rfl

theorem stop_skeleton (t : Subtree) : t.skeleton.stop = t.stop := by
  cases t
  rfl

@[simp] theorem isExtra_skeleton (t : Subtree) : t.skeleton.isExtra = t.isExtra := by
  cases t
  rfl

@[simp] theorem symbol_skeleton (t : Subtree) : t.skeleton.symbol = t.symbol := by
  cases t
  rfl

@[simp] theorem kind_skeleton (t : Subtree) : t.skeleton.kind = t.kind := by
  cases t
  rfl

@[simp] theorem children_skeleton (t : Subtree) :
    t.skeleton.children = skeletonAll t.children := by
  cases t
  rfl

theorem children_skeleton_eq_nil {t : Subtree} : t.skeleton.children = [] ↔ t.children = [] := by
  rw [children_skeleton, skeletonAll_eq_map, List.map_eq_nil_iff]

theorem isEmpty_skeletonAll (ts : List Subtree) : (skeletonAll ts).isEmpty = ts.isEmpty := by
  cases ts <;> rfl

theorem encloses_skeleton (t floating : Subtree) :
    t.skeleton.encloses floating.skeleton = t.encloses floating := by
  simp only [encloses, children_skeleton, isEmpty_skeletonAll, isExtra_skeleton, start_skeleton,
    stop_skeleton]

theorem skeletonAll_insertAmong (floating : Subtree) (ts : List Subtree) :
    skeletonAll (insertAmong floating ts) = insertAmong floating.skeleton (skeletonAll ts) := by
  simp only [insertAmong, skeletonAll_eq_map, List.map_append, List.map_cons, List.takeWhile_map,
    List.dropWhile_map, Function.comp_def, start_skeleton]

theorem skeletonAll_getD (o : Option (List Subtree)) (ts : List Subtree) :
    skeletonAll (o.getD ts) = (o.map skeletonAll).getD (skeletonAll ts) := by
  cases o <;> rfl

theorem skeleton_coverChildren (t : Subtree) :
    t.coverChildren.skeleton = t.skeleton.coverChildren := by
  have hhead : (skeletonAll t.children).head? = t.children.head?.map skeleton := by
    rw [skeletonAll_eq_map, List.head?_map]
  have hlast : (skeletonAll t.children).getLast? = t.children.getLast?.map skeleton := by
    rw [skeletonAll_eq_map, List.getLast?_map]
  unfold coverChildren
  dsimp only
  rw [children_skeleton, hhead, hlast, span_skeleton]
  cases t.children.head? <;> cases t.children.getLast? <;>
    simp only [Option.map_none, Option.map_some, start_skeleton, stop_skeleton, span_skeleton] <;>
    (cases t; rfl)

end Subtree

end EarleyTree

import EarleyTree.Proofs.Tree.Skeleton

/-!
Putting extras and errors into a tree, identities aside. Nodes that have nothing to do with each
other may be put in in any order.
-/
namespace EarleyTree

open Text

namespace Subtree

/-- The node lies strictly within the subtree's range. -/
def surrounds (t floating : Subtree) : Bool :=
  decide (t.start < floating.start) && decide (floating.stop < t.stop)

mutual

def put : Subtree → Subtree → Subtree
  | ⟨data, children⟩, floating =>
    ⟨{ data with hasError := data.hasError || floating.hasError },
      (putInside floating children).getD (insertAmong floating children)⟩

def putInside : Subtree → List Subtree → Option (List Subtree)
  | _, [] => none
  | floating, t :: ts =>
    if t.encloses floating then some (t.put floating :: ts)
    else (putInside floating ts).map (t :: ·)

end

def putAmong (floating : Subtree) (ts : List Subtree) : List Subtree :=
  (putInside floating ts).getD (insertAmong floating ts)

def fill (gs : List Subtree) (t : Subtree) : Subtree := gs.foldl (fun t g => t.put g) t

def fillAmong (gs ts : List Subtree) : List Subtree := gs.foldl (fun ts g => putAmong g ts) ts

/-- Puts the nodes into those of the subtrees that enclose them. -/
def fillAll (gs ts : List Subtree) : List Subtree :=
  gs.foldl (fun ts g => (putInside g ts).getD ts) ts

variable {f g t : Subtree} {gs ss ts us : List Subtree}

theorem put_mk (g : Subtree) (data : NodeData) (ts : List Subtree) :
    put ⟨data, ts⟩ g = ⟨{ data with hasError := data.hasError || g.hasError }, putAmong g ts⟩ := rfl

theorem fill_mk (gs : List Subtree) (data : NodeData) (ts : List Subtree) :
    fill gs ⟨data, ts⟩ =
      ⟨{ data with hasError := data.hasError || gs.any (·.hasError) }, fillAmong gs ts⟩ := by
  induction gs generalizing data ts with
  | nil => simp [fill, fillAmong]
  | cons g gs ih =>
      simpa [fill, fillAmong, put_mk, Bool.or_assoc] using
        ih { data with hasError := data.hasError || g.hasError } (putAmong g ts)

@[simp] theorem start_put (g t : Subtree) : (t.put g).start = t.start := by
  cases t
  rfl

@[simp] theorem stop_put (g t : Subtree) : (t.put g).stop = t.stop := by
  cases t
  rfl

@[simp] theorem symbol_put (g t : Subtree) : (t.put g).symbol = t.symbol := by
  cases t
  rfl

@[simp] theorem kind_put (g t : Subtree) : (t.put g).kind = t.kind := by
  cases t
  rfl

@[simp] theorem isExtra_put (g t : Subtree) : (t.put g).isExtra = t.isExtra := by
  cases t
  rfl

theorem hasError_put (g t : Subtree) : (t.put g).hasError = (t.hasError || g.hasError) := by
  cases t
  rfl

theorem insertAmong_cons (g t : Subtree) (ts : List Subtree) : insertAmong g (t :: ts) =
    if t.start < g.start then t :: insertAmong g ts else g :: t :: ts := by
  by_cases h : t.start < g.start <;> simp [insertAmong, h]

theorem isSome_putInside (g : Subtree) (ts : List Subtree) :
    (putInside g ts).isSome = ts.any (·.encloses g) := by
  induction ts with
  | nil => rfl
  | cons t ts ih => by_cases h : t.encloses g = true <;> simp [putInside, h, ih]

theorem isEmpty_children_put (g t : Subtree) : (t.put g).children.isEmpty = false := by
  obtain ⟨data, ts⟩ := t
  cases ts with
  | nil => rfl
  | cons t ts =>
      rw [put_mk, putAmong, putInside, insertAmong_cons]
      by_cases h : t.encloses g = true
      · simp [h]
      · cases putInside g ts <;> by_cases hs : t.start < g.start <;> simp [h, hs]

theorem encloses_eq (t g : Subtree) :
    t.encloses g = (!t.children.isEmpty && !t.isExtra && t.surrounds g) := by
  simp [encloses, surrounds, Bool.and_assoc]

/-- What is put into a subtree does not change what it encloses. -/
theorem encloses_put (h : t.encloses f = true) (g : Subtree) :
    (t.put f).encloses g = t.encloses g := by
  simp only [encloses, Bool.and_eq_true, Bool.not_eq_true'] at h
  simp [encloses, isEmpty_children_put, h.1.1.1]

theorem any_encloses_putInside (h : putInside f ts = some us) (g : Subtree) :
    us.any (·.encloses g) = ts.any (·.encloses g) := by
  induction ts generalizing us with
  | nil => cases h
  | cons t ts ih =>
      rw [putInside] at h
      split at h
      · next hf =>
          cases h
          simp [encloses_put hf]
      · obtain ⟨us, hu, rfl⟩ := Option.map_eq_some_iff.1 h
        simp [ih hu]

theorem putInside_insertAmong (h : f.encloses g = false) (ts : List Subtree) :
    putInside g (insertAmong f ts) = (putInside g ts).map (insertAmong f) := by
  induction ts with
  | nil => simp [insertAmong, putInside, h]
  | cons t ts ih =>
      rw [insertAmong_cons]
      by_cases hs : t.start < f.start
      · rw [if_pos hs, putInside, putInside, ih]
        by_cases hg : t.encloses g = true <;>
          simp [hg, insertAmong_cons, hs, Function.comp_def]
      · rw [if_neg hs, putInside, if_neg (by simp [h]), putInside]
        by_cases hg : t.encloses g = true <;>
          simp [hg, insertAmong_cons, hs, Function.comp_def]

theorem insertAmong_comm (h : f.start ≠ g.start) (ts : List Subtree) :
    insertAmong g (insertAmong f ts) = insertAmong f (insertAmong g ts) := by
  induction ts with
  | nil =>
      simp only [insertAmong, List.takeWhile_nil, List.dropWhile_nil, List.nil_append]
      rcases Nat.lt_or_gt_of_ne h with h | h
      · simp [h, Nat.lt_asymm h]
      · simp [h, Nat.lt_asymm h]
  | cons t ts ih =>
      simp only [insertAmong_cons]
      by_cases hf : t.start < f.start <;> by_cases hg : t.start < g.start
      · simp [hf, hg, insertAmong_cons, ih]
      · have hgf : g.start < f.start := by omega
        simp [hf, hg, insertAmong_cons, hgf]
      · have hfg : f.start < g.start := by omega
        simp [hf, hg, insertAmong_cons, hfg]
      · rcases Nat.lt_or_gt_of_ne h with h | h
        · simp [hf, hg, insertAmong_cons, h, Nat.lt_asymm h]
        · simp [hf, hg, insertAmong_cons, h, Nat.lt_asymm h]

/-- Neither of the nodes would take in the other, and it is clear which comes first. -/
structure Apart (f g : Subtree) : Prop where
  left : f.encloses g = false
  right : g.encloses f = false
  start_ne : f.start ≠ g.start

theorem putAmong_comm_of_inside (h : Apart f g)
    (hin : (putInside f ts).bind (putInside g) = (putInside g ts).bind (putInside f)) :
    putAmong g (putAmong f ts) = putAmong f (putAmong g ts) := by
  have hsome : ∀ {f us}, putInside f ts = some us → ∀ g,
      (putInside g us).isSome = (putInside g ts).isSome := by
    intro f us hu g
    rw [isSome_putInside, isSome_putInside, any_encloses_putInside hu]
  unfold putAmong
  cases hf : putInside f ts with
  | none =>
      cases hg : putInside g ts with
      | none => simp [putInside_insertAmong, h.left, h.right, hf, hg, insertAmong_comm h.start_ne]
      | some vs =>
          have hv := hsome hg f
          rw [hf, Option.isSome_none, Option.isSome_eq_false_iff, Option.isNone_iff_eq_none] at hv
          simp [putInside_insertAmong h.left, hg, hv]
  | some us =>
      have hu := hsome hf g
      cases hg : putInside g ts with
      | none =>
          rw [hg, Option.isSome_none, Option.isSome_eq_false_iff, Option.isNone_iff_eq_none] at hu
          simp [putInside_insertAmong h.right, hf, hu]
      | some vs =>
          have hv := hsome hg f
          rw [hf, hg] at hin
          rw [hg] at hu
          rw [hf] at hv
          obtain ⟨us', hu⟩ := Option.isSome_iff_exists.1 hu
          obtain ⟨vs', hv⟩ := Option.isSome_iff_exists.1 hv
          rw [Option.bind_some, Option.bind_some, hu, hv] at hin
          simp [hu, hv, Option.some.inj hin]

mutual

theorem put_comm (h : Apart f g) : ∀ t : Subtree, (t.put f).put g = (t.put g).put f
  | ⟨data, ts⟩ => by
      simp only [put_mk, Bool.or_right_comm data.hasError f.hasError g.hasError]
      rw [putAmong_comm_of_inside h (putInside_comm h ts)]

theorem putInside_comm (h : Apart f g) : ∀ ts : List Subtree,
    (putInside f ts).bind (putInside g) = (putInside g ts).bind (putInside f)
  | [] => rfl
  | t :: ts => by
      have ht := put_comm h t
      have hts := putInside_comm h ts
      simp only [putInside]
      by_cases hf : t.encloses f = true <;> by_cases hg : t.encloses g = true
      · simp [hf, hg, putInside, encloses_put, ht]
      · cases hu : putInside g ts <;> simp [hf, hg, putInside, encloses_put, hu]
      · cases hu : putInside f ts <;> simp [hf, hg, putInside, encloses_put, hu]
      · have h := congrArg (Option.map (t :: ·)) hts
        simpa [hf, hg, putInside, Option.bind_map, Option.map_bind, Function.comp_def] using h

end

theorem fill_put (h : ∀ f ∈ gs, Apart f g) (t : Subtree) : fill gs (t.put g) = (fill gs t).put g := by
  induction gs generalizing t with
  | nil => rfl
  | cons f gs ih =>
      have hgs := ih fun f hf => h f (List.mem_cons_of_mem _ hf)
      calc fill (f :: gs) (t.put g) = fill gs ((t.put g).put f) := rfl
        _ = fill gs ((t.put f).put g) := by rw [put_comm (h f List.mem_cons_self)]
        _ = (fill (f :: gs) t).put g := hgs (t.put f)

/-- Nodes of one sort may be put in before the others. -/
theorem fill_partition (p : Subtree → Bool)
    (h : ∀ f ∈ gs, ∀ g ∈ gs, p f = true → p g = false → Apart f g) (t : Subtree) :
    fill gs t = fill (gs.filter fun g => !p g) (fill (gs.filter p) t) := by
  induction gs generalizing t with
  | nil => rfl
  | cons g gs ih =>
      have hgs := ih fun f hf f' hf' =>
        h f (List.mem_cons_of_mem _ hf) f' (List.mem_cons_of_mem _ hf')
      by_cases hp : p g = true
      · simpa [fill, hp] using hgs (t.put g)
      · have hg : ∀ f ∈ gs.filter p, Apart f g := by
          intro f hf
          obtain ⟨hf, hpf⟩ := List.mem_filter.1 hf
          exact h f (List.mem_cons_of_mem _ hf) g List.mem_cons_self hpf (Bool.eq_false_iff.2 hp)
        calc fill (g :: gs) t = fill gs (t.put g) := rfl
          _ = _ := by rw [hgs, fill_put hg]
          _ = _ := by simp [fill, hp]

theorem fillAmong_eq (h : ∀ g ∈ gs, ts.any (·.encloses g) = true) :
    fillAmong gs ts = fillAll gs ts := by
  induction gs generalizing ts with
  | nil => rfl
  | cons g gs ih =>
      obtain ⟨us, hu⟩ := Option.isSome_iff_exists.1
        ((isSome_putInside g ts).trans (h g List.mem_cons_self))
      have hgs : ∀ g ∈ gs, us.any (·.encloses g) = true := by
        intro g' hg'
        rw [any_encloses_putInside hu]
        exact h g' (List.mem_cons_of_mem _ hg')
      simpa [fillAmong, fillAll, putAmong, hu] using ih hgs

theorem putInside_append (g : Subtree) (ss ts : List Subtree) : putInside g (ss ++ ts) =
    if ss.any (·.encloses g) then (putInside g ss).map (· ++ ts) else
      (putInside g ts).map (ss ++ ·) := by
  induction ss with
  | nil => simp
  | cons s ss ih =>
      by_cases hs : s.encloses g = true
      · simp [putInside, hs]
      · by_cases hss : ss.any (·.encloses g) = true
        · simp [putInside, hs, hss, ih, Function.comp_def]
        · simp [putInside, hs, hss, ih, Function.comp_def]

/-- The nodes that the first subtrees enclose go to them, the others to the rest. -/
theorem fillAll_append (p : Subtree → Bool) (hp : ∀ g ∈ gs, p g = ss.any (·.encloses g)) :
    fillAll gs (ss ++ ts) = fillAll (gs.filter p) ss ++ fillAll (gs.filter fun g => !p g) ts := by
  induction gs generalizing ss ts with
  | nil => rfl
  | cons g gs ih =>
      have hg := hp g List.mem_cons_self
      have hgs := fun g' hg' => hp g' (List.mem_cons_of_mem g hg')
      by_cases h : p g = true
      · rw [h] at hg
        obtain ⟨us, hu⟩ := Option.isSome_iff_exists.1 ((isSome_putInside g ss).trans hg.symm)
        have hfill : fillAll gs (us ++ ts) =
            fillAll (gs.filter p) us ++ fillAll (gs.filter fun g => !p g) ts := by
          apply ih
          intro g' hg'
          rw [any_encloses_putInside hu, hgs g' hg']
        simpa [fillAll, putInside_append, ← hg, hu, h] using hfill
      · rw [Bool.eq_false_iff.2 h] at hg
        cases hu : putInside g ts with
        | none => simpa [fillAll, putInside_append, ← hg, hu, h] using ih hgs
        | some us => simpa [fillAll, putInside_append, ← hg, hu, h] using ih hgs

theorem fillAll_singleton (h : ∀ g ∈ gs, t.encloses g = true) : fillAll gs [t] = [fill gs t] := by
  induction gs generalizing t with
  | nil => rfl
  | cons g gs ih =>
      have hg := h g List.mem_cons_self
      have hfill : fillAll gs [t.put g] = [fill gs (t.put g)] := by
        apply ih
        intro g' hg'
        rw [encloses_put hg, h g' (List.mem_cons_of_mem _ hg')]
      simpa [fillAll, fill, putInside, hg] using hfill

@[simp] theorem encloses_label (field : Option FieldId) (t g : Subtree) :
    (t.label field).encloses g = t.encloses g := rfl

theorem putInside_map_label (field : Option FieldId) (g : Subtree) (ts : List Subtree) :
    putInside g (ts.map (label field)) = (putInside g ts).map (List.map (label field)) := by
  induction ts with
  | nil => rfl
  | cons t ts ih =>
      have ht : (t.label field).put g = (t.put g).label field := by
        cases t
        rfl
      by_cases h : t.encloses g = true <;> simp [putInside, h, ih, ht, Function.comp_def]

theorem fillAll_map_label (field : Option FieldId) (gs ts : List Subtree) :
    fillAll gs (ts.map (label field)) = (fillAll gs ts).map (label field) := by
  induction gs generalizing ts with
  | nil => rfl
  | cons g gs ih =>
      cases h : putInside g ts with
      | none => simpa [fillAll, putInside_map_label, h] using ih ts
      | some us => simpa [fillAll, putInside_map_label, h] using ih us

theorem map_hasError_putInside (hg : g.hasError = false) (h : putInside g ts = some us) :
    us.map (·.hasError) = ts.map (·.hasError) := by
  induction ts generalizing us with
  | nil => cases h
  | cons t ts ih =>
      rw [putInside] at h
      split at h
      · cases h
        simp [hasError_put, hg]
      · obtain ⟨us, hu, rfl⟩ := Option.map_eq_some_iff.1 h
        simp [ih hu]

theorem map_hasError_fillAll (h : ∀ g ∈ gs, g.hasError = false) (ts : List Subtree) :
    (fillAll gs ts).map (·.hasError) = ts.map (·.hasError) := by
  induction gs generalizing ts with
  | nil => rfl
  | cons g gs ih =>
      have hgs := ih fun g' hg' => h g' (List.mem_cons_of_mem _ hg')
      cases hu : putInside g ts with
      | none => simpa [fillAll, hu] using hgs ts
      | some us =>
          rw [← map_hasError_putInside (h g List.mem_cons_self) hu]
          simpa [fillAll, hu] using hgs us

mutual

theorem skeleton_insertFloating (g : Subtree) (era : Nat) (trail : List Nat) : ∀ t : Subtree,
    (insertFloating g era trail t).skeleton = t.skeleton.put g.skeleton
  | ⟨data, ts⟩ => by
      rw [insertFloating, skeleton, skeleton, put_mk, putAmong, skeletonAll_getD,
        skeletonAll_insertInside g era trail ts, skeletonAll_insertAmong, hasError_skeleton]

theorem skeletonAll_insertInside (g : Subtree) (era : Nat) (trail : List Nat) :
    ∀ ts : List Subtree, (insertInside g era trail ts).map skeletonAll =
      putInside g.skeleton (skeletonAll ts)
  | [] => rfl
  | t :: ts => by
      rw [skeletonAll, insertInside, putInside, encloses_skeleton,
        ← skeletonAll_insertInside g era trail ts]
      split
      · rw [Option.map_some, skeletonAll, skeleton_setIdent, skeleton_insertFloating g era]
      · rw [Option.map_map, Option.map_map]
        rfl

end

@[simp] theorem symbol_insertFloating (g : Subtree) (era : Nat) (trail : List Nat) (t : Subtree) :
    (insertFloating g era trail t).symbol = t.symbol := by
  cases t
  rw [insertFloating]

@[simp] theorem kind_insertFloating (g : Subtree) (era : Nat) (trail : List Nat) (t : Subtree) :
    (insertFloating g era trail t).kind = t.kind := by
  cases t
  rw [insertFloating]

end Subtree

end EarleyTree

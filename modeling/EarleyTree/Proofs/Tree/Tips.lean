import EarleyTree.Proofs.Tree.Filling

/-!
The leaves of a tree, with whether each stands in an error node, and what becomes of them when nodes
are put in.
-/
namespace EarleyTree

/-- The third list is the first one with the entries of the second put in somewhere. -/
structure Merges {α : Type} (xs ys zs : List α) : Prop where
  perm : zs.Perm (xs ++ ys)
  sublist : xs.Sublist zs

namespace Merges

variable {α : Type} {xs xs' ys ys' zs zs' : List α}

theorem refl (xs : List α) : Merges xs [] xs := ⟨by rw [List.append_nil], .refl _⟩

theorem nil (ys : List α) : Merges [] ys ys := ⟨.refl _, List.nil_sublist _⟩

theorem append (h : Merges xs ys zs) (h' : Merges xs' ys' zs') :
    Merges (xs ++ xs') (ys ++ ys') (zs ++ zs') where
  perm := by
    refine (h.perm.append h'.perm).trans ?_
    simp only [List.append_assoc]
    exact (List.perm_append_comm_assoc ys xs' ys').append_left xs
  sublist := h.sublist.append h'.sublist

theorem append_left (ws : List α) (h : Merges xs ys zs) : Merges (ws ++ xs) ys (ws ++ zs) :=
  (refl ws).append h

theorem append_right (ws : List α) (h : Merges xs ys zs) : Merges (xs ++ ws) ys (zs ++ ws) := by
  simpa using h.append (refl ws)

theorem trans (h : Merges xs ys zs) (h' : Merges zs ys' zs') : Merges xs (ys ++ ys') zs' where
  perm := by
    rw [← List.append_assoc]
    exact h'.perm.trans (h.perm.append_right ys')
  sublist := h.sublist.trans h'.sublist

theorem perm_right (h : Merges xs ys zs) (hp : ys.Perm ys') : Merges xs ys' zs :=
  ⟨h.perm.trans (hp.append_left xs), h.sublist⟩

end Merges

namespace Subtree

mutual

/-- The leaves from left to right, as they are but for identity, label and mark of changes, and with
whether the parent of each is an error node. -/
def tips (inError : Bool) : Subtree → List (Bool × Subtree)
  | ⟨data, []⟩ =>
    [(inError, ⟨{ data with ident := anonymous, field := none, hasChanges := false }, []⟩)]
  | ⟨data, t :: ts⟩ =>
    tips (data.kind == errorSymbol) t ++ tipsAll (data.kind == errorSymbol) ts

def tipsAll (inError : Bool) : List Subtree → List (Bool × Subtree)
  | [] => []
  | t :: ts => tips inError t ++ tipsAll inError ts

end

variable {b : Bool} {f g t : Subtree} {ss ts us : List Subtree}

theorem tips_of_ne_nil {data : NodeData} (h : ts ≠ []) :
    tips b ⟨data, ts⟩ = tipsAll (data.kind == errorSymbol) ts := by
  cases ts with
  | nil => exact absurd rfl h
  | cons t ts => rw [tips, tipsAll]

@[simp] theorem tipsAll_append : tipsAll b (ss ++ ts) = tipsAll b ss ++ tipsAll b ts := by
  induction ss with
  | nil => rfl
  | cons s ss ih => rw [List.cons_append, tipsAll, tipsAll, ih, List.append_assoc]

theorem tipsAll_singleton (b : Bool) (t : Subtree) : tipsAll b [t] = tips b t := by
  rw [tipsAll, tipsAll, List.append_nil]

@[simp] theorem tips_setField (b : Bool) (field : Option FieldId) (t : Subtree) :
    tips b (t.setField field) = tips b t := by
  obtain ⟨data, ts⟩ := t
  cases ts <;> rfl

theorem tipsAll_map_label (b : Bool) (field : Option FieldId) (ts : List Subtree) :
    tipsAll b (ts.map (label field)) = tipsAll b ts := by
  induction ts with
  | nil => rfl
  | cons t ts ih => rw [List.map_cons, tipsAll, tipsAll, ih, label, tips_setField]

mutual

theorem tips_skeleton (b : Bool) : ∀ t : Subtree, tips b t.skeleton = tips b t
  | ⟨data, []⟩ => rfl
  | ⟨data, t :: ts⟩ => by
      rw [skeleton, skeletonAll, tips, tips, tips_skeleton _ t, tipsAll_skeletonAll _ ts]

theorem tipsAll_skeletonAll (b : Bool) : ∀ ts : List Subtree,
    tipsAll b (skeletonAll ts) = tipsAll b ts
  | [] => rfl
  | t :: ts => by rw [skeletonAll, tipsAll, tipsAll, tips_skeleton b t, tipsAll_skeletonAll b ts]

end

mutual

theorem map_snd_tips (b : Bool) : ∀ t : Subtree,
    (tips b t).map Prod.snd = t.leaves.map fun l => l.skeleton.setField none
  | ⟨data, []⟩ => rfl
  | ⟨data, t :: ts⟩ => by
      rw [tips, leaves, List.isEmpty_cons, if_neg Bool.false_ne_true, leavesAll, List.map_append,
        List.map_append, map_snd_tips _ t, map_snd_tipsAll _ ts]

theorem map_snd_tipsAll (b : Bool) : ∀ ts : List Subtree,
    (tipsAll b ts).map Prod.snd = (leavesAll ts).map fun l => l.skeleton.setField none
  | [] => rfl
  | t :: ts => by
      rw [tipsAll, leavesAll, List.map_append, List.map_append, map_snd_tips b t,
        map_snd_tipsAll b ts]

end

theorem tipsAll_insertAmong (b : Bool) (g : Subtree) (ts : List Subtree) :
    Merges (tipsAll b ts) (tips b g) (tipsAll b (insertAmong g ts)) := by
  have h := ((Merges.nil (tips b g)).append_right (tipsAll b
    (ts.dropWhile (·.start < g.start)))).append_left (tipsAll b (ts.takeWhile (·.start < g.start)))
  rw [List.nil_append, ← tipsAll_append, List.takeWhile_append_dropWhile] at h
  rw [insertAmong, tipsAll_append, tipsAll]
  exact h

mutual

/-- The leaves of a node that is put in below come in between, and none goes. -/
theorem tips_put (b : Bool) (g : Subtree) : ∀ t : Subtree, t.children ≠ [] →
    ∃ b', Merges (tips b t) (tips b' g) (tips b (t.put g))
  | ⟨data, ts⟩, h => by
      have hne : putAmong g ts ≠ [] := by
        intro hnil
        have hempty := isEmpty_children_put g ⟨data, ts⟩
        rw [put_mk, hnil] at hempty
        cases hempty
      rw [put_mk, tips_of_ne_nil h, tips_of_ne_nil hne, putAmong]
      cases hu : putInside g ts with
      | none => exact ⟨_, tipsAll_insertAmong _ g ts⟩
      | some us => exact tipsAll_putInside _ g ts us hu

theorem tipsAll_putInside (b : Bool) (g : Subtree) : ∀ ts us : List Subtree,
    putInside g ts = some us →
    ∃ b', Merges (tipsAll b ts) (tips b' g) (tipsAll b us)
  | [], _, h => nomatch h
  | t :: ts, us, h => by
      rw [putInside] at h
      split at h
      · next he =>
          cases h
          have hne : t.children ≠ [] := by
            rintro hnil
            simp [encloses, hnil] at he
          obtain ⟨b', hm⟩ := tips_put b g t hne
          rw [tipsAll, tipsAll]
          exact ⟨b', hm.append_right _⟩
      · obtain ⟨us, hu, rfl⟩ := Option.map_eq_some_iff.1 h
        obtain ⟨b', hm⟩ := tipsAll_putInside b g ts us hu
        rw [tipsAll, tipsAll]
        exact ⟨b', hm.append_left _⟩

end

theorem tipsAll_putAmong (b : Bool) (g : Subtree) (ts : List Subtree) :
    ∃ b', Merges (tipsAll b ts) (tips b' g) (tipsAll b (putAmong g ts)) := by
  rw [putAmong]
  cases hu : putInside g ts with
  | none => exact ⟨b, tipsAll_insertAmong b g ts⟩
  | some us => exact tipsAll_putInside b g ts us hu

end Subtree

end EarleyTree

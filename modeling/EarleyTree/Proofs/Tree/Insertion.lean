import EarleyTree.Proofs.Tree.Filling

/-!
What putting nodes into a tree leaves as it is.
-/
namespace EarleyTree.Subtree

open Text

mutual

/-- The second tree is the first with nodes put in: each node keeps its symbols, its label and its
marks, and its children are those that it had, in their order, with nodes put in between. -/
inductive Embeds (gs : List Subtree) : Subtree → Subtree → Prop
  | mk {s t : Subtree} (symbol : t.symbol = s.symbol) (kind : t.kind = s.kind)
      (field : t.field = s.field) (isExtra : t.isExtra = s.isExtra)
      (children : EmbedsAll gs s.children t.children) : Embeds gs s t

inductive EmbedsAll (gs : List Subtree) : List Subtree → List Subtree → Prop
  | nil : EmbedsAll gs [] []
  | old {s t : Subtree} {ss ts : List Subtree} (h : Embeds gs s t) (hs : EmbedsAll gs ss ts) :
      EmbedsAll gs (s :: ss) (t :: ts)
  | new {g t : Subtree} {ss ts : List Subtree} (hg : g ∈ gs) (h : Embeds gs g t)
      (hs : EmbedsAll gs ss ts) : EmbedsAll gs ss (t :: ts)

end

variable {g s t : Subtree} {gs ss ts us : List Subtree}

mutual

theorem Embeds.refl (gs : List Subtree) : ∀ t : Subtree, Embeds gs t t
  | ⟨_, ts⟩ => .mk rfl rfl rfl rfl (EmbedsAll.refl gs ts)

theorem EmbedsAll.refl (gs : List Subtree) : ∀ ts : List Subtree, EmbedsAll gs ts ts
  | [] => .nil
  | t :: ts => .old (Embeds.refl gs t) (EmbedsAll.refl gs ts)

end

theorem EmbedsAll.insertAmong (hg : g ∈ gs) (h : EmbedsAll gs ss ts) :
    EmbedsAll gs ss (insertAmong g ts) := by
  induction ts generalizing ss with
  | nil => exact .new hg (.refl gs g) h
  | cons t ts ih =>
      rw [insertAmong_cons]
      split
      · cases h with
        | old h hs => exact .old h (ih hs)
        | new hg' h hs => exact .new hg' h (ih hs)
      · exact .new hg (.refl gs g) h

mutual

theorem Embeds.put (hg : g ∈ gs) : ∀ t s : Subtree, Embeds gs s t → Embeds gs s (t.put g)
  | ⟨data, ts⟩, s, .mk hsymbol hkind hfield hextra h => by
      refine .mk hsymbol hkind hfield hextra ?_
      show EmbedsAll gs s.children (putAmong g ts)
      rw [putAmong]
      cases hu : putInside g ts with
      | none => exact h.insertAmong hg
      | some us => exact EmbedsAll.putInside hg ts us s.children hu h

theorem EmbedsAll.putInside (hg : g ∈ gs) : ∀ ts us ss : List Subtree,
    Subtree.putInside g ts = some us → EmbedsAll gs ss ts → EmbedsAll gs ss us
  | [], _, _, hu, _ => nomatch hu
  | t :: ts, us, ss, hu, h => by
      rw [Subtree.putInside] at hu
      split at hu
      · cases hu
        cases h with
        | old h hs => exact .old (Embeds.put hg t _ h) hs
        | new hg' h hs => exact .new hg' (Embeds.put hg t _ h) hs
      · obtain ⟨vs, hv, rfl⟩ := Option.map_eq_some_iff.1 hu
        cases h with
        | old h hs => exact .old h (EmbedsAll.putInside hg ts vs _ hv hs)
        | new hg' h hs => exact .new hg' h (EmbedsAll.putInside hg ts vs _ hv hs)

end

theorem Embeds.fill (hgs : ∀ g ∈ us, g ∈ gs) (h : Embeds gs s t) : Embeds gs s (fill us t) := by
  induction us generalizing t with
  | nil => exact h
  | cons g us ih =>
      exact ih (fun g' hg' => hgs g' (List.mem_cons_of_mem g hg'))
        (.put (hgs g List.mem_cons_self) t s h)

theorem Embeds.coverChildren (h : Embeds gs s t) : Embeds gs s t.coverChildren := by
  cases h with
  | mk hsymbol hkind hfield hextra h => exact .mk hsymbol hkind hfield hextra h

end EarleyTree.Subtree

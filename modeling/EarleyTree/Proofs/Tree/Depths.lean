import EarleyTree.Proofs.Tree.Cursors
import EarleyTree.Proofs.Tree.Every

/-!
The nodes at one depth of a tree, and which of them have the same identity. Putting a node into a tree
makes new nodes at one place of each depth and leaves the others as they are.
-/
namespace EarleyTree

open Text

/-- Which node that belongs to no derivation the identity was made for. Those of derivations have no
such stamp, for their trail is too short. -/
def Ident.stamp (i : Ident) : Option Nat := i.trail.reverse[1]?

theorem Ident.stamp_cons {era i n : Nat} {trail : List Nat}
    (h : (⟨era, trail⟩ : Ident).stamp = some n) : (⟨era, i :: trail⟩ : Ident).stamp = some n := by
  have hlt : 1 < trail.reverse.length := (List.getElem?_eq_some_iff.1 h).1
  rw [stamp, List.reverse_cons, List.getElem?_append_left hlt]
  exact h

namespace Subtree

def atDepth : Nat → Subtree → List Subtree
  | 0, t => [t]
  | d + 1, t => t.children.flatMap (atDepth d)

/-- Nodes with one identity are one subtree, labels aside, and over no text. -/
def Tells (s t : Subtree) : Prop :=
  s.ident = t.ident → s.setField none = t.setField none ∧ s.stop ≤ s.start

/-- The children lie one behind the other up to the end of the node, and none that is over text begins
before it. -/
structure Piled (t : Subtree) : Prop where
  order : t.children.Pairwise fun c d => c.stop ≤ d.start
  stop : ∀ c ∈ t.children, c.stop ≤ t.stop
  start : ∀ c ∈ t.children, c.start < c.stop → t.start ≤ c.start

/-- The nodes were made for the `n`-th of the nodes put in, and no two have the same identity. -/
structure MadeFor (n : Nat) (ts : List Subtree) : Prop where
  stamp : ∀ t ∈ ts, t.ident.stamp = some n
  distinct : ts.Pairwise fun s t => s.ident ≠ t.ident

/-- At one place there are other nodes, made for the `n`-th of the nodes put in. -/
def Patched (n : Nat) (ss ts : List Subtree) : Prop :=
  ∃ before old new after : List Subtree,
    ss = before ++ old ++ after ∧ ts = before ++ new ++ after ∧ MadeFor n new

/-- Nodes at one depth tell each other apart, and all that was put in came before the `n`-th. -/
structure ToldApart (n : Nat) (t : Subtree) : Prop where
  tells : ∀ d, (atDepth d t).Pairwise Tells
  stamp : ∀ d, ∀ s ∈ atDepth d t, ∀ m ∈ s.ident.stamp, m < n

variable {P : Subtree → Prop} {g s t : Subtree} {ss ts us : List Subtree} {d n era : Nat}
  {trail : List Nat}

theorem Tells.symm (h : Tells s t) : Tells t s := by
  intro he
  obtain ⟨hsame, hempty⟩ := h he.symm
  have hspan : (t.setField none).span = (s.setField none).span := by rw [hsame]
  refine ⟨hsame.symm, ?_⟩
  show (t.setField none).span.endByte ≤ (t.setField none).span.startByte
  rw [hspan]
  exact hempty

theorem Every.atDepth (h : Every P t) : ∀ s ∈ atDepth d t, P s := by
  induction d generalizing t with
  | zero =>
      intro s hs
      rw [List.mem_singleton.1 hs]
      exact h.here
  | succ d ih =>
      intro s hs
      obtain ⟨c, hc, hs⟩ := List.mem_flatMap.1 hs
      exact ih (h.children c hc) s hs

/-- What is over text lies within all the nodes around it. -/
theorem Piled.within (h : Every Piled t) :
    ∀ s ∈ atDepth d t, s.start < s.stop → t.start ≤ s.start ∧ s.stop ≤ t.stop := by
  induction d generalizing t with
  | zero =>
      intro s hs _
      rw [List.mem_singleton.1 hs]
      exact ⟨Nat.le_refl _, Nat.le_refl _⟩
  | succ d ih =>
      intro s hs hlt
      obtain ⟨c, hc, hs⟩ := List.mem_flatMap.1 hs
      obtain ⟨hstart, hstop⟩ := ih (h.children c hc) s hs hlt
      have hbegins := h.here.start c hc (by omega)
      exact ⟨Nat.le_trans hbegins hstart, Nat.le_trans hstop (h.here.stop c hc)⟩

theorem Piled.pairwise (h : Every Piled t) (d : Nat) :
    (atDepth d t).Pairwise fun r s => r.start < r.stop → s.start < s.stop → r.stop ≤ s.start := by
  induction d generalizing t with
  | zero => exact List.pairwise_singleton _ _
  | succ d ih =>
      refine List.pairwise_flatMap.2 ⟨fun c hc => ih (h.children c hc), ?_⟩
      refine h.here.order.imp_of_mem fun {a b} ha hb hab r hr s hs hrlt hslt => ?_
      have hstop := (within (h.children a ha) r hr hrlt).2
      have hstart := (within (h.children b hb) s hs hslt).1
      exact Nat.le_trans hstop (Nat.le_trans hab hstart)

namespace Patched

theorem append (h : Patched n ss ts) (rest : List Subtree) : Patched n (ss ++ rest) (ts ++ rest) := by
  obtain ⟨before, old, new, after, rfl, rfl, hnew⟩ := h
  exact ⟨before, old, new, after ++ rest, List.append_assoc .., List.append_assoc .., hnew⟩

theorem prepend (h : Patched n ss ts) (front : List Subtree) :
    Patched n (front ++ ss) (front ++ ts) := by
  obtain ⟨before, old, new, after, rfl, rfl, hnew⟩ := h
  exact ⟨front ++ before, old, new, after, by simp, by simp, hnew⟩

theorem stamp (h : Patched n ss ts) (hold : ∀ s ∈ ss, ∀ m ∈ s.ident.stamp, m < n) :
    ∀ t ∈ ts, ∀ m ∈ t.ident.stamp, m < n + 1 := by
  obtain ⟨before, old, new, after, rfl, rfl, hnew⟩ := h
  simp only [List.forall_mem_append] at hold ⊢
  obtain ⟨⟨hbefore, -⟩, hafter⟩ := hold
  refine ⟨⟨fun t ht m hm => ?_, fun t ht m hm => ?_⟩, fun t ht m hm => ?_⟩
  · exact Nat.lt_succ_of_lt (hbefore t ht m hm)
  · rw [hnew.stamp t ht] at hm
    exact Option.some.inj hm ▸ Nat.lt_succ_self n
  · exact Nat.lt_succ_of_lt (hafter t ht m hm)

/-- Only the new nodes bear the stamp, so that none is taken for a node that was there. -/
theorem tells (h : Patched n ss ts) (hs : ss.Pairwise Tells)
    (hold : ∀ s ∈ ss, ∀ m ∈ s.ident.stamp, m < n) : ts.Pairwise Tells := by
  obtain ⟨before, old, new, after, rfl, rfl, hnew⟩ := h
  have hfresh {s t : Subtree} (hs : s ∈ before ++ old ++ after) (ht : t ∈ new) :
      s.ident ≠ t.ident := by
    intro he
    exact Nat.lt_irrefl n (hold s hs n (he ▸ hnew.stamp t ht))
  simp only [List.pairwise_append, List.mem_append] at hs hfresh ⊢
  obtain ⟨⟨hbefore, -, -⟩, hafter, hcross⟩ := hs
  have htells : new.Pairwise Tells := hnew.distinct.imp fun hne he => absurd he hne
  refine ⟨⟨hbefore, htells, fun s hs t ht he => ?_⟩, hafter, fun s hs t ht => ?_⟩
  · exact absurd he (hfresh (.inl (.inl hs)) ht)
  · obtain hs | hs := hs
    · exact hcross s (.inl hs) t ht
    · exact fun he => absurd he.symm (hfresh (.inr ht) hs)

end Patched

theorem patched_insertAmong (hg : ∀ d, MadeFor n (atDepth d g)) (ts : List Subtree) (d : Nat) :
    Patched n (ts.flatMap (atDepth d)) ((insertAmong g ts).flatMap (atDepth d)) := by
  refine ⟨(ts.takeWhile (·.start < g.start)).flatMap (atDepth d), [], atDepth d g,
    (ts.dropWhile (·.start < g.start)).flatMap (atDepth d), ?_, ?_, hg d⟩
  · rw [List.append_nil, ← List.flatMap_append, List.takeWhile_append_dropWhile]
  · rw [insertAmong, List.flatMap_append, List.flatMap_cons, List.append_assoc]

mutual

/-- The nodes on the way down are made anew, one at each depth, and the node itself comes below. -/
theorem patched_insertFloating (hg : ∀ d, MadeFor n (atDepth d g)) (trail : List Nat)
    (htrail : (⟨era, trail⟩ : Ident).stamp = some n) :
    ∀ (t : Subtree) (d : Nat),
      Patched n (atDepth (d + 1) t) (atDepth (d + 1) (insertFloating g era trail t))
  | ⟨data, children⟩, d => by
      rw [insertFloating]
      show Patched n (children.flatMap (atDepth d)) (List.flatMap (atDepth d) _)
      cases hu : insertInside g era trail children with
      | none => exact patched_insertAmong hg children d
      | some us => exact patched_insertInside hg trail htrail children us hu d

theorem patched_insertInside (hg : ∀ d, MadeFor n (atDepth d g)) (trail : List Nat)
    (htrail : (⟨era, trail⟩ : Ident).stamp = some n) :
    ∀ ts us : List Subtree, insertInside g era trail ts = some us →
      ∀ d, Patched n (ts.flatMap (atDepth d)) (us.flatMap (atDepth d))
  | [], _, hu, _ => nomatch hu
  | t :: ts, us, hu, d => by
      rw [insertInside] at hu
      split at hu
      · cases hu
        refine Patched.append ?_ _
        cases d with
        | zero =>
            refine ⟨[], [t], _, [], rfl, rfl, fun s hs => ?_, List.pairwise_singleton _ _⟩
            rw [List.mem_singleton.1 hs]
            exact htrail
        | succ d => exact patched_insertFloating hg (0 :: trail) (Ident.stamp_cons htrail) t d
      · obtain ⟨vs, hv, rfl⟩ := Option.map_eq_some_iff.1 hu
        exact (patched_insertInside hg trail htrail ts vs hv d).prepend _

end

theorem ToldApart.insertFloating (hg : ∀ d, MadeFor n (atDepth d g)) (h : ToldApart n t) :
    ToldApart (n + 1) (insertFloating g era [n, 2] t) := by
  have htrail : (⟨era, [n, 2]⟩ : Ident).stamp = some n := rfl
  have hpatched := patched_insertFloating hg [n, 2] htrail t
  constructor
  · intro d
    cases d with
    | zero => exact List.pairwise_singleton _ _
    | succ d => exact (hpatched d).tells (h.tells (d + 1)) (h.stamp (d + 1))
  · intro d
    cases d with
    | zero =>
        intro s hs m hm
        rw [List.mem_singleton.1 hs] at hm
        have hident : (Subtree.insertFloating g era [n, 2] t).ident = t.ident := by
          cases t
          rfl
        rw [hident] at hm
        exact Nat.lt_succ_of_lt (h.stamp 0 t (List.mem_singleton_self t) m hm)
    | succ d => exact (hpatched d).stamp (h.stamp (d + 1))

end Subtree

namespace Node

open Subtree

variable {n a b : Node} {p q : List Nat}

theorem mem_atDepth_of_descend? (h : n.descend? p = some a) :
    a.subtree ∈ atDepth p.length n.subtree := by
  induction p generalizing n with
  | nil =>
      cases h
      exact List.mem_singleton_self _
  | cons i p ih =>
      obtain ⟨c, hc, ha⟩ := Option.bind_eq_some_iff.1 h
      obtain ⟨t, ht, rfl⟩ := Option.map_eq_some_iff.1 hc
      exact List.mem_flatMap.2 ⟨t, List.mem_of_getElem? ht, ih ha⟩

/-- Different ways of one length lead to different places among the nodes at that depth. -/
theorem related_of_descend? {R : Subtree → Subtree → Prop} (hsymm : ∀ {s t}, R s t → R t s)
    (h : ∀ d, (atDepth d n.subtree).Pairwise R) (ha : n.descend? p = some a)
    (hb : n.descend? q = some b) (hlength : p.length = q.length) (hne : p ≠ q) :
    R a.subtree b.subtree := by
  induction p generalizing n q with
  | nil => exact absurd (List.length_eq_zero_iff.1 hlength.symm).symm hne
  | cons i p ih =>
      obtain - | ⟨j, q⟩ := q
      · cases hlength
      have hrest : p.length = q.length := Nat.succ.inj hlength
      obtain ⟨c, hc, ha⟩ := Option.bind_eq_some_iff.1 ha
      obtain ⟨e, he, hb⟩ := Option.bind_eq_some_iff.1 hb
      obtain ⟨s, hs, rfl⟩ := Option.map_eq_some_iff.1 hc
      obtain ⟨t, ht, rfl⟩ := Option.map_eq_some_iff.1 he
      obtain ⟨hi, rfl⟩ := List.getElem?_eq_some_iff.1 hs
      obtain ⟨hj, rfl⟩ := List.getElem?_eq_some_iff.1 ht
      have hbelow (d : Nat) := List.pairwise_flatMap.1 (h (d + 1))
      have hacross := List.pairwise_iff_getElem.1 (hbelow p.length).2
      have has := mem_atDepth_of_descend? ha
      have hbs := mem_atDepth_of_descend? hb
      rw [← hrest] at hbs
      obtain hij | rfl | hji := Nat.lt_trichotomy i j
      · exact hacross i j hi hj hij _ has _ hbs
      · exact ih (fun d => (hbelow d).1 _ (List.getElem_mem hi)) ha hb hrest fun h => hne (h ▸ rfl)
      · exact hsymm (hacross j i hj hi hji _ hbs _ has)

theorem isSame_iff : a.isSame b = true ↔
    a.subtree.ident = b.subtree.ident ∧ a.ancestors.length = b.ancestors.length := by
  rw [isSame, Bool.and_eq_true, beq_iff_eq, beq_iff_eq]

theorem length_ancestors {t : Tree} (h : t.rootNode.descend? p = some a) :
    a.ancestors.length = p.length := by
  have hway := congrArg List.length (indexes_descend? h)
  rw [List.length_map, List.length_append, List.length_reverse] at hway
  exact hway

/-- Where the nodes at each depth tell each other apart, equal nodes are one subtree and, but for nodes
over no text, at one place. -/
theorem isSame_places {t : Tree} (h : ∀ d, (atDepth d t.root).Pairwise Tells)
    (ha : t.rootNode.descend? p = some a) (hb : t.rootNode.descend? q = some b) :
    (a.isSame b = true → a.subtree.setField none = b.subtree.setField none) ∧
      (a.subtree.start < a.subtree.stop → (a.isSame b = true ↔ p = q)) := by
  have hself : p = q → a = b := by
    rintro rfl
    exact Option.some.inj (ha.symm.trans hb)
  have htells (hsame : a.isSame b = true) (hne : p ≠ q) :
      a.subtree.setField none = b.subtree.setField none ∧ a.subtree.stop ≤ a.subtree.start := by
    obtain ⟨hident, hlength⟩ := isSame_iff.1 hsame
    rw [length_ancestors ha, length_ancestors hb] at hlength
    exact related_of_descend? (R := Tells) Tells.symm h ha hb hlength hne hident
  refine ⟨fun hsame => ?_, fun hlt => ⟨fun hsame => ?_, fun he => ?_⟩⟩
  · by_cases he : p = q
    · rw [hself he]
    · exact (htells hsame he).1
  · by_contra hne
    exact absurd (htells hsame hne).2 (Nat.not_le.2 hlt)
  · rw [← hself he]
    exact isSame_iff.2 ⟨rfl, rfl⟩

end Node

end EarleyTree

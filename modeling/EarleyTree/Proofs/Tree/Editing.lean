import EarleyTree.Proofs.Text.Splices
import EarleyTree.Proofs.Tree.Nesting

/-!
What an edit does to the nodes of a tree, one by one.
-/
namespace EarleyTree.Subtree

open Text

/-- Trees of the same shape, with each node of the one related to the node at its place in the
other. -/
inductive Pairs (R : Subtree → Subtree → Prop) : Subtree → Subtree → Prop
  | mk {s t : Subtree} (here : R s t) (length : s.children.length = t.children.length)
      (inner : ∀ (i : Nat) (c d : Subtree), s.children[i]? = some c → t.children[i]? = some d →
        Pairs R c d) : Pairs R s t

variable {P Q : Subtree → Prop} {R R' S : Subtree → Subtree → Prop} {e : Edit} {era : Nat}
  {trail : List Nat} {s t u : Subtree} {ts : List Subtree}

namespace Pairs

theorem here (h : Pairs R s t) : R s t := by
  cases h with
  | mk h _ _ => exact h

theorem length (h : Pairs R s t) : s.children.length = t.children.length := by
  cases h with
  | mk _ h _ => exact h

theorem inner (h : Pairs R s t) {i : Nat} {c d : Subtree} (hc : s.children[i]? = some c)
    (hd : t.children[i]? = some d) : Pairs R c d := by
  cases h with
  | mk _ _ h => exact h i c d hc hd

theorem exists_left (h : Pairs R s t) {i : Nat} {d : Subtree} (hd : t.children[i]? = some d) :
    ∃ c, s.children[i]? = some c := by
  have hlt := (List.getElem?_eq_some_iff.1 hd).1
  exact ⟨_, List.getElem?_eq_getElem (h.length ▸ hlt)⟩

theorem exists_child (h : Pairs R s t) {d : Subtree} (hd : d ∈ t.children) :
    ∃ c ∈ s.children, Pairs R c d := by
  obtain ⟨i, hi, rfl⟩ := List.getElem_of_mem hd
  obtain ⟨c, hc⟩ := h.exists_left (List.getElem?_eq_getElem hi)
  exact ⟨c, List.mem_of_getElem? hc, h.inner hc (List.getElem?_eq_getElem hi)⟩

theorem refl (h : Every (fun t => R t t) t) : Pairs R t t := by
  induction h with
  | mk h _ ih =>
      refine .mk h rfl fun i c d hc hd => ?_
      obtain rfl := Option.some.inj (hc.symm.trans hd)
      exact ih c (List.mem_of_getElem? hc)

theorem mono (h : Pairs R s t) (hR : ∀ s t, R s t → R' s t) : Pairs R' s t := by
  induction h with
  | mk h hl _ ih => exact .mk (hR _ _ h) hl ih

theorem trans (h : Pairs R s t) (h' : Pairs R' t u) (hS : ∀ s t u, R s t → R' t u → S s u) :
    Pairs S s u := by
  induction h generalizing u with
  | mk h hl hs ih =>
      refine .mk (hS _ _ _ h h'.here) (hl.trans h'.length) fun i c d hc hd => ?_
      obtain ⟨b, hb⟩ := h'.exists_left hd
      exact ih i c b hc hb (h'.inner hb hd)

theorem and (h : Pairs R s t) (hs : Every P s) (ht : Every Q t) :
    Pairs (fun s t => R s t ∧ P s ∧ Q t) s t := by
  induction h with
  | mk h hl _ ih =>
      refine .mk ⟨h, hs.here, ht.here⟩ hl fun i c d hc hd => ?_
      exact ih i c d hc hd (hs.children c (List.mem_of_getElem? hc))
        (ht.children d (List.mem_of_getElem? hd))

theorem map_children {α : Type} (h : Pairs R s t) {f g : Subtree → α}
    (hR : ∀ s t, R s t → f s = g t) : s.children.map f = t.children.map g := by
  refine List.ext_getElem (by simp [h.length]) fun i hi hi' => ?_
  rw [List.length_map] at hi hi'
  rw [List.getElem_map, List.getElem_map]
  exact hR _ _ (h.inner (List.getElem?_eq_getElem hi) (List.getElem?_eq_getElem hi')).here

/-- A property of nodes with their children goes over to the other tree. -/
theorem every (h : Pairs R s t) (hs : Every P s)
    (hstep : ∀ s t, Pairs R s t → P s → Q t) : Every Q t := by
  induction h with
  | @mk s t h hl hin ih =>
      refine .mk (hstep s t (.mk h hl hin) hs.here) fun d hd => ?_
      obtain ⟨i, hi, rfl⟩ := List.getElem_of_mem hd
      have hc := List.getElem?_eq_getElem (hl ▸ hi)
      exact ih i _ _ hc (List.getElem?_eq_getElem hi) (hs.children _ (List.mem_of_getElem? hc))

end Pairs

theorem mem_editAll {c : Subtree} {i : Nat} (h : c ∈ editAll e era trail i ts) :
    ∃ t ∈ ts, ∃ trail', c = t.edit e era trail' := by
  induction ts generalizing i with
  | nil => cases h
  | cons t ts ih =>
      rw [editAll] at h
      obtain rfl | h := List.mem_cons.1 h
      · exact ⟨t, List.mem_cons_self, _, rfl⟩
      · obtain ⟨s, hs, h⟩ := ih h
        exact ⟨s, List.mem_cons_of_mem t hs, h⟩

theorem getLast?_editAll {c : Subtree} {i : Nat} (h : c ∈ (editAll e era trail i ts).getLast?) :
    ∃ t ∈ ts.getLast?, ∃ trail', c = t.edit e era trail' := by
  induction ts generalizing i with
  | nil => cases h
  | cons t ts ih =>
      cases ts with
      | nil => exact ⟨t, rfl, _, (Option.some.inj h).symm⟩
      | cons t' ts =>
          rw [editAll, editAll, List.getLast?_cons_cons] at h
          rw [List.getLast?_cons_cons]
          exact ih h

theorem getElem?_editAll (e : Edit) (era : Nat) (trail : List Nat) (k : Nat) (ts : List Subtree)
    (i : Nat) :
    (editAll e era trail k ts)[i]? = ts[i]?.map fun t => t.edit e era ((k + i) :: trail) := by
  induction ts generalizing k i with
  | nil => rfl
  | cons t ts ih =>
      rw [editAll]
      cases i with
      | zero => rfl
      | succ i =>
          rw [List.getElem?_cons_succ, List.getElem?_cons_succ, ih, Nat.add_assoc, Nat.add_comm 1]

theorem length_editAll (e : Edit) (era : Nat) (trail : List Nat) (k : Nat) (ts : List Subtree) :
    (editAll e era trail k ts).length = ts.length := by
  induction ts generalizing k with
  | nil => rfl
  | cons t ts ih => rw [editAll, List.length_cons, List.length_cons, ih]

/-- A tree that ends before the edit stays, the nodes around it are moved. -/
theorem pairs_edit (hleft : ∀ t, t.stop < e.startByte → Every P t → Every (fun t => R t t) t)
    (hmoved : ∀ t ident ts, ts.length = t.children.length → e.startByte ≤ t.stop → P t →
      R t ⟨NodeData.edit e ident t.data, ts⟩)
    (era : Nat) (trail : List Nat) (h : Every P t) : Pairs R t (t.edit e era trail) := by
  induction t using induct generalizing trail with
  | node data ts ih =>
      rw [edit]
      split
      · next hlt => exact .refl (hleft _ hlt h)
      · next hge =>
          have hlength := length_editAll e era trail 0 ts
          refine .mk (hmoved _ _ _ hlength (Nat.not_lt.1 hge) h.here) hlength.symm ?_
          intro i c d hc hd
          have hd : (editAll e era trail 0 ts)[i]? = some d := hd
          have hc : ts[i]? = some c := hc
          rw [getElem?_editAll, hc] at hd
          obtain rfl := Option.some.inj hd
          have hm := List.mem_of_getElem? hc
          exact ih c hm _ (h.children c hm)

/-- What every edit leaves of a node. -/
structure Kept (s t : Subtree) : Prop where
  symbol : t.symbol = s.symbol
  kind : t.kind = s.kind
  extra : t.isExtra = s.isExtra
  leaf : s.children = [] → t.children = []

theorem pairs_kept (e : Edit) (era : Nat) (trail : List Nat) (h : Every P t) :
    Pairs Kept t (t.edit e era trail) :=
  pairs_edit (fun _ _ h => h.mono fun _ _ => ⟨rfl, rfl, rfl, id⟩)
    (fun _ _ _ hlength _ _ => ⟨rfl, rfl, rfl, fun hnil =>
      List.length_eq_zero_iff.1 (hlength.trans (List.length_eq_zero_iff.2 hnil))⟩) era trail h

section

variable (he : e.startByte ≤ e.oldEndByte)

include he

/-- A node begins where the edit moves its begin to, whether or not it is moved itself. -/
theorem start_edit (era : Nat) (trail : List Nat) (h : t.start ≤ t.stop) :
    (t.edit e era trail).start = e.shiftByte t.start := by
  obtain ⟨data, ts⟩ := t
  rw [edit]
  split
  · next hlt => exact (Edit.shiftByte_eq_self he (Nat.lt_of_le_of_lt h hlt)).symm
  · rfl

theorem stop_edit (era : Nat) (trail : List Nat) :
    (t.edit e era trail).stop = e.shiftByte t.stop := by
  obtain ⟨data, ts⟩ := t
  rw [edit]
  split
  · next hlt => exact (Edit.shiftByte_eq_self he hlt).symm
  · rfl

end

/-- The node ends where it begins or behind, within the first `n` bytes, and its children lie one
behind the other within it. -/
structure Placed (n : Nat) (t : Subtree) : Prop extends Spaced t where
  le : t.start ≤ t.stop
  stop_le : t.stop ≤ n

/-- A child with a mark has a parent with one. -/
def Climbs (t : Subtree) : Prop := ∀ c ∈ t.children, c.hasChanges = true → t.hasChanges = true

/-- The second node is what the edit should make of the first: it begins and ends where the edit moves
these places to, and has a mark if the first had one or is met by the edit, ends included. -/
structure Follows (e : Edit) (s t : Subtree) : Prop where
  symbol : t.symbol = s.symbol
  kind : t.kind = s.kind
  field : t.field = s.field
  isExtra : t.isExtra = s.isExtra
  hasError : t.hasError = s.hasError
  start : t.start = e.shiftByte s.start
  stop : t.stop = e.shiftByte s.stop
  hasChanges : t.hasChanges = true ↔
    s.hasChanges = true ∨ s.start ≤ e.oldEndByte ∧ e.startByte ≤ s.stop

instance (n : Nat) : DecidablePred (Placed n) := fun t =>
  decidable_of_iff (((t.children.Pairwise fun c d => c.stop ≤ d.start) ∧
      ∀ c ∈ t.children, t.start ≤ c.start ∧ c.start ≤ c.stop ∧ c.stop ≤ t.stop) ∧
      t.start ≤ t.stop ∧ t.stop ≤ n)
    ⟨fun h => ⟨⟨h.1.1, h.1.2⟩, h.2.1, h.2.2⟩, fun h => ⟨⟨h.order, h.inside⟩, h.le, h.stop_le⟩⟩

instance : DecidablePred Climbs := fun t =>
  inferInstanceAs (Decidable (∀ c ∈ t.children, c.hasChanges = true → t.hasChanges = true))

variable {m n : Nat}

/-- The end of the root bounds the whole tree. -/
theorem placed_of_stop_le (h : Every (Placed n) t) (hm : t.stop ≤ m) : Every (Placed m) t := by
  induction h with
  | mk h _ ih =>
      exact .mk ⟨h.toSpaced, h.le, hm⟩ fun c hc => ih c hc (Nat.le_trans (h.inside c hc).2.2 hm)

section

variable {text inserted : List Char} {start oldEnd : Nat}
  (he : Edit.replace? text start oldEnd inserted = some e)

include he

theorem pairs_follows (h : Every (Placed n) t) (era : Nat) (trail : List Nat) :
    Pairs (Follows e) t (t.edit e era trail) := by
  obtain ⟨hs, ho, hn, hle, -⟩ := Edit.replace?_eq_some he
  have hold : e.startByte ≤ e.oldEndByte := by omega
  refine pairs_edit (fun t hlt h => ?_) (fun t ident ts _ hge h => ?_) era trail h
  · -- all that is below a node before the edit is before it too
    refine (placed_of_stop_le h (Nat.le_refl _)).mono fun c hc => ?_
    have hstop : c.stop < e.startByte := Nat.lt_of_le_of_lt hc.stop_le hlt
    have hstart : c.start < e.startByte := Nat.lt_of_le_of_lt hc.le hstop
    refine ⟨rfl, rfl, rfl, rfl, rfl, ?_, ?_, (or_iff_left ?_).symm⟩
    · exact (Edit.shiftByte_eq_self hold hstart).symm
    · exact (Edit.shiftByte_eq_self hold hstop).symm
    · exact fun hmeets => absurd hstop (Nat.not_lt.2 hmeets.2)
  · refine ⟨rfl, rfl, rfl, rfl, rfl, rfl, rfl, ?_⟩
    show (t.hasChanges || decide (t.start ≤ e.oldEndByte)) = true ↔ _
    rw [Bool.or_eq_true, decide_eq_true_iff, and_iff_left hge]

theorem placed_edit (h : Every (Placed (byteLength text)) t) (era : Nat) (trail : List Nat) :
    Every (Placed (byteLength (splice text start oldEnd inserted))) (t.edit e era trail) := by
  obtain ⟨hs, ho, hn, hle, -⟩ := Edit.replace?_eq_some he
  have hmono {a b : Nat} (hab : a ≤ b) : e.shiftByte a ≤ e.shiftByte b :=
    Edit.shiftByte_mono (by omega) hab
  refine (pairs_follows he h era trail).every h fun s t hp hs => ?_
  have hspans : s.children.map (fun c => (e.shiftByte c.start, e.shiftByte c.stop)) =
      t.children.map fun c => (c.start, c.stop) :=
    hp.map_children fun s t hf => by rw [hf.start, hf.stop]
  refine ⟨⟨?_, fun d hd => ?_⟩, ?_, ?_⟩
  · have horder : (t.children.map fun c => (c.start, c.stop)).Pairwise fun a b => a.2 ≤ b.1 := by
      rw [← hspans]
      exact List.pairwise_map.2 (hs.order.imp hmono)
    exact List.pairwise_map.1 horder
  · obtain ⟨c, hc, hcd⟩ := hp.exists_child hd
    have hf := hcd.here
    obtain ⟨hstart, hcle, hstop⟩ := hs.inside c hc
    rw [hf.start, hf.stop, hp.here.start, hp.here.stop]
    exact ⟨hmono hstart, hmono hcle, hmono hstop⟩
  · rw [hp.here.start, hp.here.stop]
    exact hmono hs.le
  · rw [hp.here.stop]
    exact Edit.shiftByte_le he hs.stop_le

theorem climbs_edit (h : Every (Placed n) t) (hc : Every Climbs t) (era : Nat) (trail : List Nat) :
    Every Climbs (t.edit e era trail) := by
  refine (pairs_follows he h era trail).every (h.and hc) fun s t hp hs d hd hmark => ?_
  obtain ⟨c, hm, hcd⟩ := hp.exists_child hd
  refine hp.here.hasChanges.2 ?_
  obtain hold | ⟨hstart, hstop⟩ := hcd.here.hasChanges.1 hmark
  · exact .inl (hs.2 c hm hold)
  · obtain ⟨hfirst, -, hlast⟩ := hs.1.inside c hm
    exact .inr ⟨Nat.le_trans hfirst hstart, Nat.le_trans hstop hlast⟩

end

end EarleyTree.Subtree

import EarleyTree.Proofs.Lexing.Bounds
import EarleyTree.Proofs.Parsing.Reuse
import EarleyTree.Proofs.Tree.Bounds
import EarleyTree.Proofs.Tree.Editing

/-!
Edits keep a tree within the bounds of the text, and so what may be taken over from it.
-/
namespace EarleyTree

namespace Subtree

open Text

variable {e : Edit} {era n : Nat} {trail : List Nat} {s t : Subtree} {ts : List Subtree}
  {tables : Tables}

/-- Nothing is taken over from the node itself, whatever lies below it. -/
def Fallow (t : Subtree) : Prop := t.children = [] ∨ t.hasError = true ∨ t.isExtra = true

theorem not_fallow_of_isReusable (h : t.isReusable tables = true) : ¬Fallow t := by
  rw [isReusable] at h
  simp only [Bool.and_eq_true, Bool.not_eq_true', List.isEmpty_eq_false_iff] at h
  obtain ⟨⟨⟨⟨-, herror⟩, hextra⟩, hne⟩, -⟩ := h
  rintro (hnil | he | hx)
  · exact hne hnil
  · exact Bool.noConfusion (herror.symm.trans he)
  · exact Bool.noConfusion (hextra.symm.trans hx)

theorem unmarked_of_isReusable (h : t.isReusable tables = true) : t.hasChanges = false := by
  rw [isReusable] at h
  simp only [Bool.and_eq_true, Bool.not_eq_true'] at h
  exact h.1.1.1.1

theorem Barren.fallow (h : Barren t) : Fallow t := h.here

mutual

theorem Every.of_mem_reusable {P : Subtree → Prop} : ∀ t : Subtree, Every P t →
    ∀ s ∈ t.reusable tables, Every P s
  | ⟨data, ts⟩, h, s, hs => by
      rw [reusable] at hs
      split at hs
      · exact List.mem_singleton.1 hs ▸ h
      · exact Every.of_mem_reusableAll ts h.children s hs

theorem Every.of_mem_reusableAll {P : Subtree → Prop} : ∀ ts : List Subtree,
    (∀ t ∈ ts, Every P t) → ∀ s ∈ reusableAll tables ts, Every P s
  | [], _, s, hs => absurd hs List.not_mem_nil
  | t :: ts, h, s, hs => by
      rw [reusableAll] at hs
      obtain hs | hs := List.mem_append.1 hs
      · exact Every.of_mem_reusable t (h t List.mem_cons_self) s hs
      · exact Every.of_mem_reusableAll ts (fun c hc => h c (List.mem_cons_of_mem t hc)) s hs

end

theorem Settled.of_mem_reusable (h : Settled n t) (hs : s ∈ t.reusable tables) :
    Settled n s ∧ s.stop ≤ n := by
  have hsettled : Settled n s := ⟨h.tidy.of_mem_reusable t s hs, h.bounded.of_mem_reusable t s hs⟩
  refine ⟨hsettled, hsettled.bounded.here.stop_le.resolve_left fun hb => ?_⟩
  exact not_fallow_of_isReusable (isReusable_of_mem_reusable t hs) hb.fallow

theorem Barren.edit (e : Edit) (era : Nat) (trail : List Nat) (h : Barren t) :
    Barren (t.edit e era trail) := by
  induction t using induct generalizing trail with
  | node data ts ih =>
      rw [Subtree.edit]
      split
      · exact h
      · refine .mk (h.here.imp_left fun hnil => ?_) fun c hc => ?_
        · obtain rfl : ts = [] := hnil
          rfl
        · obtain ⟨t, ht, trail', rfl⟩ := mem_editAll hc
          exact ih t ht trail' (h.children t ht)

section

variable (he : e.startByte ≤ e.oldEndByte) (hne : e.startByte ≤ e.newEndByte)

include he hne

theorem sorted_editAll (hle : ∀ t ∈ ts, t.start ≤ t.stop)
    (h : ts.Pairwise fun c d => c.start ≤ d.start) (i : Nat) :
    (editAll e era trail i ts).Pairwise fun c d => c.start ≤ d.start := by
  induction ts generalizing i with
  | nil => exact .nil
  | cons t ts ih =>
      obtain ⟨hhead, hrest⟩ := List.pairwise_cons.1 h
      rw [editAll]
      refine List.pairwise_cons.2 ⟨fun d hd => ?_, ih ?_ hrest (i + 1)⟩
      · obtain ⟨d, hm, trail', rfl⟩ := mem_editAll hd
        rw [start_edit he era _ (hle t List.mem_cons_self),
          start_edit he era _ (hle d (List.mem_cons_of_mem t hm))]
        exact Edit.shiftByte_mono hne (hhead d hm)
      · exact fun d hd => hle d (List.mem_cons_of_mem t hd)

theorem tidy_edit (era : Nat) (trail : List Nat) (h : Every Tidy t) :
    Every Tidy (t.edit e era trail) := by
  induction t using induct generalizing trail with
  | node data ts ih =>
      rw [edit]
      split
      · exact h
      · refine .mk ⟨Edit.shiftByte_mono hne h.here.le, ?_, fun c hc => ?_⟩ fun c hc => ?_
        · exact sorted_editAll he hne (fun t ht => (h.children t ht).here.le) h.here.sorted 0
        · obtain ⟨t, ht, trail', rfl⟩ := getLast?_editAll hc
          rw [stop_edit he]
          exact Edit.shiftByte_mono hne (h.here.last t ht)
        · obtain ⟨t, ht, trail', rfl⟩ := mem_editAll hc
          exact ih t ht trail' (h.children t ht)

end

/-- An edit keeps a tree within the bounds of the text. -/
theorem Settled.edit {text inserted : List Char} {start oldEnd : Nat}
    (he : Edit.replace? text start oldEnd inserted = some e) (era : Nat) (trail : List Nat)
    (h : Settled (byteLength text) t) :
    Settled (byteLength (splice text start oldEnd inserted)) (t.edit e era trail) := by
  obtain ⟨hs, ho, hn, hle, hlen, hsplice⟩ := Edit.replace?_eq_some he
  have hold : e.startByte ≤ e.oldEndByte := by omega
  have hnew : e.startByte ≤ e.newEndByte := by omega
  refine ⟨tidy_edit hold hnew era trail h.tidy, ?_⟩
  have hb := h.bounded
  clear h
  induction t using induct generalizing trail with
  | node data ts ih =>
      rw [Subtree.edit]
      split
      · next hlt => exact bounded_of_stop_le hb (.inr (by show data.span.endByte ≤ _; omega))
      · next hge =>
          refine .mk ⟨?_, fun c hc => ?_⟩ fun c hc => ?_
          · obtain hb | hb := hb.here.stop_le
            · have hb := hb.edit e era trail
              rw [Subtree.edit, if_neg hge] at hb
              exact .inl hb
            · exact .inr (Edit.shiftByte_le he hb)
          · obtain ⟨t, ht, trail', rfl⟩ := mem_editAll hc
            rw [stop_edit hold]
            exact (hb.here.inside t ht).imp (fun hb => hb.edit e era trail')
              (Edit.shiftByte_mono hnew)
          · obtain ⟨t, ht, trail', rfl⟩ := mem_editAll hc
            exact ih t ht trail' (hb.children t ht)

end Subtree

open Text Subtree

/-- An edit does to each node of a well-placed tree what it does to a range of bytes: it keeps the
shape of the tree and all but the places and marks of its nodes, moves both ends of each node by one
function, marks what it meets, and leaves the tree well placed in the new text. -/
theorem Tree.follows_edit {text inserted : List Char} {start oldEnd : Nat} {e : Edit} {t : Tree}
    (h : Every (Placed (byteLength text)) t.root)
    (he : Edit.replace? text start oldEnd inserted = some e) (era : Nat) :
    Pairs (Follows e) t.root (t.edit e era).root ∧
      Every (Placed (byteLength (splice text start oldEnd inserted))) (t.edit e era).root ∧
      (Every Climbs t.root → Every Climbs (t.edit e era).root) :=
  ⟨pairs_follows he h era [], placed_edit he h era [], fun hc => climbs_edit he h hc era []⟩

theorem Tree.follows_edit_pairs : ∃ l e, Language.compile Language.pairs none 0 = .ok l ∧
    Edit.replace? ['a', '#', 'b', ' ', 'c'] 2 3 ['b', ' '] = some e ∧
    Every (Placed 5) (l.parse ['a', '#', 'b', ' ', 'c'] none 0).root ∧
    Pairs (Follows e) (l.parse ['a', '#', 'b', ' ', 'c'] none 0).root
      ((l.parse ['a', '#', 'b', ' ', 'c'] none 0).edit e 1).root ∧
    ¬Every (fun t => t.hasChanges = false)
      ((l.parse ['a', '#', 'b', ' ', 'c'] none 0).edit e 1).root := by
  obtain ⟨l, e, hl, he, htest⟩ := Language.exists_of_editedWith
    (show Language.editedWith Language.pairs none ['a', '#', 'b', ' ', 'c'] 2 3 ['b', ' ']
        ['a', '#', 'b', ' ', ' ', 'c'] (fun _ e first _ =>
          decide (Every (Placed 5) first.root) &&
          decide (¬Every (fun t => t.hasChanges = false) (first.edit e 1).root)) = true by
      decide +kernel)
  rw [Bool.and_eq_true, decide_eq_true_iff, decide_eq_true_iff] at htest
  have hplaced : Every (Placed (byteLength ['a', '#', 'b', ' ', 'c']))
      (l.parse ['a', '#', 'b', ' ', 'c'] none 0).root := htest.1
  exact ⟨l, e, hl, he, htest.1, (Tree.follows_edit hplaced he 1).1, htest.2⟩

end EarleyTree

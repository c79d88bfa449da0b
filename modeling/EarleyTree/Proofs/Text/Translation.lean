import EarleyTree.Proofs.Text.Splices
import Mathlib.Data.Nat.PSub

/-!
Edits move places from the old text to the new one: a place before or behind the replaced piece is
found again, as a byte and as a row and a column alike, and nothing is ever taken from what is less.
-/
namespace EarleyTree.Text

variable {m n : Nat}

namespace Point

variable {p q : Point}

theorem lt_iff : p < q ↔ p.row < q.row ∨ p.row = q.row ∧ p.column < q.column := Iff.rfl

theorem le_iff : p ≤ q ↔ p.row < q.row ∨ p.row = q.row ∧ p.column ≤ q.column := Iff.rfl

theorem not_le_of_lt (h : p < q) : ¬q ≤ p := by
  rw [lt_iff] at h
  rw [le_iff]
  omega

theorem not_lt_of_lt (h : p < q) : ¬q < p := by
  rw [lt_iff] at h ⊢
  omega

end Point

namespace Lines

theorem le_row_pointFrom (n row start : Nat) (starts : List Nat) :
    row ≤ (pointFrom n row start starts).row := by
  induction starts generalizing row start with
  | nil => exact Nat.le_refl row
  | cons next starts ih =>
      rw [pointFrom]
      split
      · exact Nat.le_of_succ_le (ih (row + 1) next)
      · exact Nat.le_refl row

theorem pointFrom_lt_pointFrom {row start : Nat} {starts : List Nat} (hstart : start ≤ m)
    (h : m < n) : pointFrom m row start starts < pointFrom n row start starts := by
  induction starts generalizing row start with
  | nil => exact .inr ⟨rfl, Nat.sub_lt_sub_right hstart h⟩
  | cons next starts ih =>
      rw [pointFrom, pointFrom]
      by_cases hm : next ≤ m
      · rw [if_pos hm, if_pos (Nat.le_trans hm (Nat.le_of_lt h))]
        exact ih hm
      · rw [if_neg hm]
        split
        · exact .inl (le_row_pointFrom n (row + 1) next starts)
        · exact .inr ⟨rfl, Nat.sub_lt_sub_right hstart h⟩

/-- A place further on in the text is in a later row, or further on in its row. -/
theorem point_lt_point (lines : Lines) (h : m < n) : lines.point m < lines.point n :=
  pointFrom_lt_pointFrom (Nat.zero_le m) h

end Lines

namespace Edit

section

variable (e : Edit)

/-- As `shiftByte`, but there is no result where a subtraction has none. -/
def shiftByte? (n : Nat) : Option Nat :=
  if e.oldEndByte ≤ n then (n.psub e.oldEndByte).map (· + e.newEndByte)
  else if e.startByte < n then some (min n e.newEndByte)
  else some n

/-- As `shiftPoint`, but there is no result where a subtraction has none. -/
def shiftPoint? (p : Point) : Option Point :=
  if e.oldEndPoint ≤ p then
    if p.row = e.oldEndPoint.row then
      (p.column.psub e.oldEndPoint.column).map fun column =>
        ⟨e.newEndPoint.row, column + e.newEndPoint.column⟩
    else (p.row.psub e.oldEndPoint.row).map fun row => ⟨row + e.newEndPoint.row, p.column⟩
  else if e.startPoint < p then some (min p e.newEndPoint)
  else some p

theorem shiftByte?_eq_some (n : Nat) : e.shiftByte? n = some (e.shiftByte n) := by
  rw [shiftByte?, shiftByte]
  split
  · next h => rw [Nat.psub_eq_sub h, Option.map_some]
  · split <;> rfl

theorem shiftPoint?_eq_some (p : Point) : e.shiftPoint? p = some (e.shiftPoint p) := by
  rw [shiftPoint?, shiftPoint]
  split
  · next h =>
      rw [Point.le_iff] at h
      split
      · next hrow => rw [Nat.psub_eq_sub (by omega), Option.map_some]
      · next hrow => rw [Nat.psub_eq_sub (by omega), Option.map_some]
  · split <;> rfl

end

/-- The edit finds places of one text again in another: its own ends in the new text, and each place
before or behind the replaced piece. -/
structure Translates (e : Edit) (text new : List Char) : Prop where
  startPoint : e.startPoint = (Lines.ofText new).point e.startByte
  newEndPoint : e.newEndPoint = (Lines.ofText new).point e.newEndByte
  point : ∀ n, n ≤ e.startByte ∨ e.oldEndByte ≤ n →
    e.shiftPoint ((Lines.ofText text).point n) = (Lines.ofText new).point (e.shiftByte n)
  shiftByte? : ∀ n, e.shiftByte? n = some (e.shiftByte n)
  shiftPoint? : ∀ p, e.shiftPoint? p = some (e.shiftPoint p)

variable {e : Edit} {text inserted : List Char} {start oldEnd : Nat}

theorem replace?_eq_none_iff : replace? text start oldEnd inserted = none ↔
    ¬(start ≤ oldEnd ∧ isBoundary text start = true ∧ isBoundary text oldEnd = true) := by
  rw [replace?]
  split <;> simp_all

theorem points_of_replace? (h : replace? text start oldEnd inserted = some e) :
    e.startPoint = (Lines.ofText text).point e.startByte ∧
      e.oldEndPoint = (Lines.ofText text).point e.oldEndByte := by
  rw [replace?] at h
  split at h
  · cases h
    exact ⟨rfl, rfl⟩
  · cases h

theorem point_splice_of_le (h : replace? text start oldEnd inserted = some e)
    (hn : n ≤ e.startByte) :
    (Lines.ofText (splice text start oldEnd inserted)).point n = (Lines.ofText text).point n :=
  congrArg Span.startPoint (span_before h (Nat.le_refl n) hn).2

/-- What lies before the replaced piece is not moved. -/
theorem shiftPoint_of_lt (h : replace? text start oldEnd inserted = some e) (hn : n ≤ e.startByte)
    (hlt : n < e.oldEndByte) :
    e.shiftPoint ((Lines.ofText text).point n) = (Lines.ofText text).point n := by
  obtain ⟨hstart, hold⟩ := points_of_replace? h
  have hbefore : ¬e.oldEndPoint ≤ (Lines.ofText text).point n := by
    rw [hold]
    exact Point.not_le_of_lt (Lines.point_lt_point _ hlt)
  have hnot : ¬e.startPoint < (Lines.ofText text).point n := by
    rw [hstart]
    obtain heq | hlt := Nat.eq_or_lt_of_le hn
    · rw [heq, Point.lt_iff]
      omega
    · exact Point.not_lt_of_lt (Lines.point_lt_point _ hlt)
  rw [shiftPoint, if_neg hbefore, if_neg hnot]

theorem translates_of_replace? (h : replace? text start oldEnd inserted = some e) :
    e.Translates text (splice text start oldEnd inserted) where
  startPoint := (points_of_replace? h).1.trans (point_splice_of_le h (Nat.le_refl _)).symm
  newEndPoint := by
    obtain ⟨before, removed, behind, -, hsplice, hr⟩ := exists_replaces h
    rw [hr.newEndPoint, hr.newEndByte, hsplice, Lines.point_append]
  point n hn := by
    by_cases hlt : n < e.oldEndByte
    · have hle : n ≤ e.startByte := hn.resolve_right (Nat.not_le.2 hlt)
      have hbyte : e.shiftByte n = n := by
        rw [shiftByte, if_neg (Nat.not_le.2 hlt), if_neg (Nat.not_lt.2 hle)]
      rw [shiftPoint_of_lt h hle hlt, hbyte, point_splice_of_le h hle]
    · have hspan := (span_behind h (Nat.not_lt.1 hlt) (Nat.le_refl n)).2
      exact (congrArg Span.startPoint hspan).symm
  shiftByte? := e.shiftByte?_eq_some
  shiftPoint? := e.shiftPoint?_eq_some

/-- Between two places of a text, in their order, a piece can be replaced, and nowhere else; and the
edit then finds the places of the old text again in the new one. -/
theorem replace?_translates (text : List Char) (start oldEnd : Nat) (inserted : List Char) :
    (replace? text start oldEnd inserted = none ↔
      ¬(start ≤ oldEnd ∧ isBoundary text start = true ∧ isBoundary text oldEnd = true)) ∧
    ∀ e, replace? text start oldEnd inserted = some e →
      e.startByte = start ∧ e.oldEndByte = oldEnd ∧ e.newEndByte = start + byteLength inserted ∧
        e.Translates text (splice text start oldEnd inserted) := by
  refine ⟨replace?_eq_none_iff, fun e h => ?_⟩
  obtain ⟨hstart, hold, hnew, -⟩ := replace?_eq_some h
  exact ⟨hstart, hold, hnew, translates_of_replace? h⟩

/-- Two lines are put in place of a line break and the letter before it, behind which the row goes on
in the third row. -/
theorem replace?_translates_lines : ∃ e,
    replace? ['a', 'é', '\n', 'b', 'c'] 1 4 ['x', '\n', '\n', 'y'] = some e ∧
    e.Translates ['a', 'é', '\n', 'b', 'c'] ['a', 'x', '\n', '\n', 'y', 'b', 'c'] ∧
    e.shiftPoint ⟨1, 1⟩ = ⟨2, 2⟩ := by
  obtain ⟨e, he⟩ : ∃ e, replace? ['a', 'é', '\n', 'b', 'c'] 1 4 ['x', '\n', '\n', 'y'] = some e :=
    Option.isSome_iff_exists.1 (by decide)
  obtain ⟨hstart, hold, hnew, h⟩ :=
    (replace?_translates ['a', 'é', '\n', 'b', 'c'] 1 4 ['x', '\n', '\n', 'y']).2 e he
  have hpoint := h.point 5 (.inr (by rw [hold]; decide))
  rw [shiftByte, hold, hnew, if_pos (by decide)] at hpoint
  exact ⟨e, he, h, hpoint⟩

end Edit

end EarleyTree.Text

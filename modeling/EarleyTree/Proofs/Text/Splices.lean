import EarleyTree.Text.Edit
import EarleyTree.Text.Utf8
import Mathlib.Data.List.Basic

/-!
Replacements in a text: what lies before or behind the replaced piece keeps its bytes, and its places
are where an edit moves them to.
-/
namespace EarleyTree.Text

theorem byteLength_append (text more : List Char) :
    byteLength (text ++ more) = byteLength text + byteLength more := by
  induction text with
  | nil => simp [byteLength]
  | cons c text ih => rw [List.cons_append, byteLength, byteLength, ih, Nat.add_assoc]

theorem add_byteLength_suffix {text rest : List Char} {n : Nat} (h : suffix? text n = some rest) :
    n + byteLength rest = byteLength text := by
  induction text, n using suffix?.induct with
  | case1 text =>
      rw [suffix?] at h
      cases h
      exact Nat.zero_add _
  | case2 => cases h
  | case3 c text n hc ih =>
      rw [suffix?, if_pos hc] at h
      have hrest := ih h
      rw [byteLength]
      omega
  | case4 c text n hc =>
      rw [suffix?, if_neg hc] at h
      cases h

theorem byteLength_takeBytes {text rest : List Char} {n : Nat} (h : suffix? text n = some rest) :
    byteLength (takeBytes text n) = n := by
  induction text generalizing n with
  | nil =>
      cases n with
      | zero => rfl
      | succ n => cases h
  | cons c text ih =>
      cases n with
      | zero => rfl
      | succ n =>
          rw [suffix?] at h
          split at h
          · next hle =>
              rw [takeBytes, if_pos hle, byteLength, ih h]
              omega
          · cases h

theorem takeBytes_append_suffix {text rest : List Char} {n : Nat} (h : suffix? text n = some rest) :
    takeBytes text n ++ rest = text := by
  induction text generalizing n with
  | nil =>
      cases n with
      | zero => cases h; rfl
      | succ n => cases h
  | cons c text ih =>
      cases n with
      | zero => cases h; rfl
      | succ n =>
          rw [suffix?] at h
          split at h
          · next hle => rw [takeBytes, if_pos hle, List.cons_append, ih h]
          · cases h

theorem suffix?_append (before rest : List Char) (n : Nat) :
    suffix? (before ++ rest) (byteLength before + n) = suffix? rest n := by
  induction before with
  | nil => rw [List.nil_append, byteLength, Nat.zero_add]
  | cons c before ih =>
      have hpos := c.utf8Size_pos
      obtain ⟨m, hm⟩ : ∃ m, c.utf8Size + byteLength before + n = m + 1 :=
        Nat.exists_eq_succ_of_ne_zero (by omega)
      have hrest : m + 1 - c.utf8Size = byteLength before + n := by omega
      rw [List.cons_append, byteLength, hm, suffix?, if_pos (by omega), hrest, ih]

/-- The bytes of the text from one place up to another. -/
def slice (text : List Char) (start stop : Nat) : List Nat :=
  ((Utf8.encode text).drop start).take (stop - start)

theorem suffix?_zero (text : List Char) : suffix? text 0 = some text := by rw [suffix?]

theorem suffix?_add {text rest : List Char} {n : Nat} (h : suffix? text n = some rest) (m : Nat) :
    suffix? text (n + m) = suffix? rest m := by
  have hsplit := suffix?_append (takeBytes text n) rest m
  rwa [takeBytes_append_suffix h, byteLength_takeBytes h] at hsplit

theorem suffix?_next {text rest : List Char} {n : Nat} {c : Char}
    (h : suffix? text n = some (c :: rest)) : suffix? text (n + c.utf8Size) = some rest := by
  rw [suffix?_add h]
  have hone := suffix?_append [c] rest 0
  rwa [byteLength, byteLength, suffix?_zero] at hone

theorem isBoundary_iff {text : List Char} {n : Nat} :
    isBoundary text n = true ↔ ∃ rest, suffix? text n = some rest := Option.isSome_iff_exists

theorem isBoundary_add {text rest : List Char} {n m : Nat} (h : suffix? text n = some rest)
    (hm : isBoundary rest m = true) : isBoundary text (n + m) = true := by
  rwa [isBoundary, suffix?_add h]

theorem le_of_isBoundary {text : List Char} {n : Nat} (h : isBoundary text n = true) :
    n ≤ byteLength text := by
  obtain ⟨rest, hrest⟩ := isBoundary_iff.1 h
  have hsum := add_byteLength_suffix hrest
  omega

theorem encode_append (text more : List Char) :
    Utf8.encode (text ++ more) = Utf8.encode text ++ Utf8.encode more := List.flatMap_append

theorem length_encodeChar (c : Char) : (Utf8.encodeChar c).length = c.utf8Size := by
  have hval : c.val.toNat = c.toNat := rfl
  simp only [Utf8.encodeChar, Char.utf8Size, UInt32.le_iff_toNat_le, UInt32.toNat_ofNatLT, hval]
  grind

theorem length_encode (text : List Char) : (Utf8.encode text).length = byteLength text := by
  induction text with
  | nil => rfl
  | cons c text ih =>
      rw [Utf8.encode, List.flatMap_cons, List.length_append, length_encodeChar, byteLength]
      exact congrArg (c.utf8Size + ·) ih

theorem slice_append_left {before : List Char} {start stop : Nat} (hle : start ≤ stop)
    (hstop : stop ≤ byteLength before) (rest : List Char) :
    slice (before ++ rest) start stop = slice before start stop := by
  have hlength := length_encode before
  rw [slice, slice, encode_append, List.drop_append_of_le_length (by omega),
    List.take_append_of_le_length (by rw [List.length_drop]; omega)]

theorem slice_append_right (before rest : List Char) (start stop : Nat) :
    slice (before ++ rest) (byteLength before + start) (byteLength before + stop) =
      slice rest start stop := by
  rw [slice, slice, encode_append, ← length_encode before, List.drop_length_add_append,
    Nat.add_sub_add_left]

namespace Lines

theorem lt_of_mem_startsFrom {text : List Char} {base next : Nat}
    (h : next ∈ startsFrom base text) : base < next := by
  induction text generalizing base with
  | nil => cases h
  | cons c text ih =>
      rw [startsFrom] at h
      split at h
      · obtain rfl | h := List.mem_cons.1 h
        · exact Nat.lt_succ_self base
        · exact Nat.lt_of_succ_lt (ih h)
      · exact Nat.lt_of_le_of_lt (Nat.le_add_right _ _) (ih h)

/-- A place before the next line is in the line given. -/
theorem pointFrom_eq {starts : List Nat} {n row start : Nat} (h : ∀ next ∈ starts, n < next) :
    pointFrom n row start starts = ⟨row, n - start⟩ := by
  cases starts with
  | nil => rfl
  | cons next starts => rw [pointFrom, if_neg (Nat.not_le.2 (h next List.mem_cons_self))]

theorem pointFrom_startsFrom_of_le {text : List Char} {n base : Nat} (h : n ≤ base)
    (row start : Nat) : pointFrom n row start (startsFrom base text) = ⟨row, n - start⟩ :=
  pointFrom_eq fun _ hm => Nat.lt_of_le_of_lt h (lt_of_mem_startsFrom hm)

/-- What lies behind a place does not matter. -/
theorem pointFrom_append_left {before : List Char} {n base : Nat}
    (h : n ≤ base + byteLength before) (rest : List Char) (row start : Nat) :
    pointFrom n row start (startsFrom base (before ++ rest)) =
      pointFrom n row start (startsFrom base before) := by
  induction before generalizing base row start with
  | nil =>
      have h : n ≤ base := h
      rw [List.nil_append, pointFrom_startsFrom_of_le h, pointFrom_startsFrom_of_le h]
  | cons c before ih =>
      rw [byteLength] at h
      rw [List.cons_append, startsFrom, startsFrom]
      split
      · next hc =>
          obtain rfl : c = '\n' := beq_iff_eq.1 hc
          have hsize : '\n'.utf8Size = 1 := rfl
          rw [pointFrom, pointFrom, ih (by omega)]
      · exact ih (by omega) row start

/-- Behind a piece of text the row and the line are those that the piece leads to. -/
theorem pointFrom_append_right {n base start : Nat} (before rest : List Char) (row : Nat)
    (hstart : start ≤ base) (h : base + byteLength before ≤ n) :
    ∃ line, line ≤ base + byteLength before ∧
      Point.advance ⟨row, base - start⟩ before =
        ⟨(Point.advance ⟨row, base - start⟩ before).row, base + byteLength before - line⟩ ∧
      pointFrom n row start (startsFrom base (before ++ rest)) =
        pointFrom n (Point.advance ⟨row, base - start⟩ before).row line
          (startsFrom (base + byteLength before) rest) := by
  induction before generalizing base row start with
  | nil => exact ⟨start, hstart, rfl, rfl⟩
  | cons c before ih =>
      rw [byteLength] at h
      rw [byteLength, List.cons_append, startsFrom, Point.advance, List.foldl_cons]
      by_cases hc : (c == '\n') = true
      · obtain rfl : c = '\n' := beq_iff_eq.1 hc
        have hsize : '\n'.utf8Size = 1 := rfl
        rw [if_pos hc, if_pos hc, hsize, ← Nat.add_assoc, pointFrom, if_pos (by omega)]
        have hrest := ih (row + 1) (Nat.le_refl (base + 1)) (by omega)
        rwa [Nat.sub_self] at hrest
      · rw [if_neg hc, if_neg hc, ← Nat.add_assoc]
        have hle : start ≤ base + c.utf8Size := by omega
        have hrest := ih row hle (by omega)
        have hcol : base + c.utf8Size - start = base - start + c.utf8Size := by omega
        rwa [hcol] at hrest

/-- Behind a place the next lines are as far away, wherever the place is. -/
theorem pointFrom_startsFrom_add (text : List Char) (d : Nat) :
    (∀ base row start, start ≤ base →
      pointFrom (base + d) row start (startsFrom base text) = ⟨row, base + d - start⟩) ∨
    ∃ k c, 0 < k ∧ ∀ base row start,
      pointFrom (base + d) row start (startsFrom base text) = ⟨row + k, c⟩ := by
  induction text generalizing d with
  | nil => exact .inl fun _ _ _ _ => rfl
  | cons c text ih =>
      by_cases hd : d < c.utf8Size
      · refine .inl fun base row start _ => pointFrom_eq fun next hm => ?_
        have hlt : base + c.utf8Size ≤ next := by
          rw [startsFrom] at hm
          split at hm
          · next hc =>
              obtain rfl : c = '\n' := beq_iff_eq.1 hc
              obtain rfl | hm := List.mem_cons.1 hm
              · exact Nat.le_refl _
              · exact Nat.le_of_lt (lt_of_mem_startsFrom hm)
          · exact Nat.le_of_lt (lt_of_mem_startsFrom hm)
        omega
      · obtain ⟨d, rfl⟩ := Nat.exists_eq_add_of_le (Nat.not_lt.1 hd)
        by_cases hc : (c == '\n') = true
        · obtain rfl : c = '\n' := beq_iff_eq.1 hc
          have hsize : '\n'.utf8Size = 1 := rfl
          refine .inr ?_
          obtain h | ⟨k, c, hk, h⟩ := ih d
          · refine ⟨1, d, Nat.one_pos, fun base row start => ?_⟩
            rw [startsFrom, if_pos hc, pointFrom, if_pos (by omega), hsize, ← Nat.add_assoc,
              h _ _ _ (Nat.le_refl _), Nat.add_sub_cancel_left]
          · refine ⟨k + 1, c, Nat.succ_pos k, fun base row start => ?_⟩
            rw [startsFrom, if_pos hc, pointFrom, if_pos (by omega), hsize, ← Nat.add_assoc, h,
              Nat.add_assoc row, Nat.add_comm 1]
        · refine (ih d).imp (fun h base row start hle => ?_) ?_
          · rw [startsFrom, if_neg hc, ← Nat.add_assoc, h _ _ _ (by omega)]
          · rintro ⟨k, c', hk, h⟩
            refine ⟨k, c', hk, fun base row start => ?_⟩
            rw [startsFrom, if_neg hc, ← Nat.add_assoc, h]

theorem point_append_left {before : List Char} {n : Nat} (h : n ≤ byteLength before)
    (rest : List Char) : (ofText (before ++ rest)).point n = (ofText before).point n :=
  pointFrom_append_left (by rwa [Nat.zero_add]) rest 0 0

/-- The end of a piece of text is where the piece leads to. -/
theorem point_append (before rest : List Char) :
    (ofText (before ++ rest)).point (byteLength before) = Point.zero.advance before := by
  obtain ⟨line, -, hp, h⟩ := pointFrom_append_right before rest 0 (Nat.le_refl 0)
    (Nat.le_of_eq (Nat.zero_add (byteLength before)))
  rw [Nat.zero_add] at h hp
  rw [pointFrom_startsFrom_of_le (Nat.le_refl _)] at h
  exact h.trans hp.symm

end Lines

namespace Edit

variable {e : Edit} {text inserted : List Char} {start oldEnd m n : Nat}

theorem replace?_eq_some (h : replace? text start oldEnd inserted = some e) :
    e.startByte = start ∧ e.oldEndByte = oldEnd ∧ e.newEndByte = start + byteLength inserted ∧
      start ≤ oldEnd ∧ oldEnd ≤ byteLength text ∧
      byteLength (splice text start oldEnd inserted) + oldEnd =
        start + byteLength inserted + byteLength text := by
  rw [replace?] at h
  split at h
  · next hb =>
      obtain ⟨hle, hs, ho⟩ := hb
      obtain ⟨before, hbefore⟩ := Option.isSome_iff_exists.1 hs
      obtain ⟨behind, hbehind⟩ := Option.isSome_iff_exists.1 ho
      have hlength := add_byteLength_suffix hbehind
      cases h
      refine ⟨rfl, rfl, rfl, hle, by omega, ?_⟩
      rw [splice, byteLength_append, byteLength_append, byteLength_takeBytes hbefore, hbehind,
        Option.getD_some]
      omega
  · cases h

theorem shiftByte_mono (he : e.startByte ≤ e.newEndByte) (h : m ≤ n) :
    e.shiftByte m ≤ e.shiftByte n := by
  grind [shiftByte]

theorem shiftByte_eq_self (he : e.startByte ≤ e.oldEndByte) (h : n < e.startByte) :
    e.shiftByte n = n := by
  grind [shiftByte]

theorem shiftByte_le (h : replace? text start oldEnd inserted = some e) (hn : n ≤ byteLength text) :
    e.shiftByte n ≤ byteLength (splice text start oldEnd inserted) := by
  obtain ⟨hs, ho, hne, hle, hlen, hsplice⟩ := replace?_eq_some h
  grind [shiftByte]

/-- The edit puts one piece of text in place of another, behind a third. -/
structure Replaces (e : Edit) (before removed inserted : List Char) : Prop where
  startByte : e.startByte = byteLength before
  oldEndByte : e.oldEndByte = byteLength (before ++ removed)
  newEndByte : e.newEndByte = byteLength (before ++ inserted)
  oldEndPoint : e.oldEndPoint = Point.zero.advance (before ++ removed)
  newEndPoint : e.newEndPoint = Point.zero.advance (before ++ inserted)

theorem exists_replaces (h : replace? text start oldEnd inserted = some e) :
    ∃ before removed behind, text = before ++ removed ++ behind ∧
      splice text start oldEnd inserted = before ++ inserted ++ behind ∧
      e.Replaces before removed inserted := by
  rw [replace?] at h
  split at h
  · next hb =>
      obtain ⟨hle, hs, ho⟩ := hb
      obtain ⟨rest, hrest⟩ := Option.isSome_iff_exists.1 hs
      obtain ⟨behind, hbehind⟩ := Option.isSome_iff_exists.1 ho
      have hstart := byteLength_takeBytes hrest
      have htext := takeBytes_append_suffix hrest
      have hremoved : suffix? rest (oldEnd - start) = some behind := by
        rw [← suffix?_append (takeBytes text start), htext, hstart, Nat.add_sub_cancel' hle, hbehind]
      have hbefore : text = takeBytes text start ++ takeBytes rest (oldEnd - start) ++ behind := by
        rw [List.append_assoc, takeBytes_append_suffix hremoved, htext]
      refine ⟨_, _, _, hbefore, by rw [splice, hbehind, Option.getD_some], ?_⟩
      have hold : oldEnd =
          byteLength (takeBytes text start ++ takeBytes rest (oldEnd - start)) := by
        rw [byteLength_append, hstart, byteLength_takeBytes hremoved, Nat.add_sub_cancel' hle]
      have hstartPoint : (Lines.ofText text).point start =
          Point.zero.advance (takeBytes text start) := by
        have hpoint := Lines.point_append (takeBytes text start) rest
        rwa [htext, hstart] at hpoint
      have holdPoint : (Lines.ofText text).point oldEnd =
          Point.zero.advance (takeBytes text start ++ takeBytes rest (oldEnd - start)) := by
        have hpoint := Lines.point_append
          (takeBytes text start ++ takeBytes rest (oldEnd - start)) behind
        rwa [← hbefore, ← hold] at hpoint
      cases h
      exact ⟨hstart.symm, hold, by rw [byteLength_append, hstart], holdPoint,
        by rw [hstartPoint, Point.advance, Point.advance, Point.advance, List.foldl_append]⟩
  · cases h

section

variable {before removed behind : List Char} (h : e.Replaces before removed inserted)

include h

theorem Replaces.le : e.startByte ≤ e.oldEndByte ∧ e.startByte ≤ e.newEndByte := by
  rw [h.startByte, h.oldEndByte, h.newEndByte, byteLength_append, byteLength_append]
  omega

theorem Replaces.shiftByte_add (d : Nat) : e.shiftByte (byteLength (before ++ removed) + d) =
    byteLength (before ++ inserted) + d := by
  rw [shiftByte, h.oldEndByte, if_pos (Nat.le_add_right _ _), h.newEndByte]
  omega

/-- Behind the replaced piece rows and columns are moved as the bytes are. -/
theorem Replaces.shiftPoint_add (behind : List Char) (d : Nat) :
    e.shiftPoint ((Lines.ofText (before ++ removed ++ behind)).point
        (byteLength (before ++ removed) + d)) =
      (Lines.ofText (before ++ inserted ++ behind)).point (byteLength (before ++ inserted) + d) := by
  obtain ⟨line, hline, hold, hfrom⟩ := Lines.pointFrom_append_right
    (n := byteLength (before ++ removed) + d) (before ++ removed) behind 0 (Nat.le_refl 0) (by omega)
  obtain ⟨line', hline', hnew, hto⟩ := Lines.pointFrom_append_right
    (n := byteLength (before ++ inserted) + d) (before ++ inserted) behind 0 (Nat.le_refl 0) (by omega)
  rw [Nat.zero_add] at hline hold hfrom hline' hnew hto
  have holdPoint : e.oldEndPoint = _ := h.oldEndPoint.trans hold
  have hnewPoint : e.newEndPoint = _ := h.newEndPoint.trans hnew
  show e.shiftPoint (Lines.pointFrom _ 0 0 (Lines.startsFrom 0 _)) =
    Lines.pointFrom _ 0 0 (Lines.startsFrom 0 _)
  rw [hfrom, hto]
  generalize (Point.advance ⟨0, 0 - 0⟩ (before ++ removed)).row = row at holdPoint ⊢
  generalize (Point.advance ⟨0, 0 - 0⟩ (before ++ inserted)).row = row' at hnewPoint ⊢
  rw [shiftPoint, holdPoint, hnewPoint]
  obtain hsame | ⟨k, c, hk, hlater⟩ := Lines.pointFrom_startsFrom_add behind d
  · rw [hsame _ _ _ hline, hsame _ _ _ hline', if_pos (.inr ⟨rfl, by simp only; omega⟩), if_pos rfl]
    simp only [Point.mk.injEq, true_and]
    omega
  · rw [hlater, hlater, if_pos (.inl (by simp only; omega)), if_neg (by simp only; omega)]
    simp only [Point.mk.injEq, and_true]
    omega

end

/-- What ends before the replaced piece stays as it is. -/
theorem span_before (h : replace? text start oldEnd inserted = some e) (hle : m ≤ n)
    (hn : n ≤ e.startByte) : slice (splice text start oldEnd inserted) m n = slice text m n ∧
      (Lines.ofText (splice text start oldEnd inserted)).span m n = (Lines.ofText text).span m n := by
  obtain ⟨before, removed, behind, rfl, hsplice, hr⟩ := exists_replaces h
  rw [hr.startByte] at hn
  rw [hsplice, List.append_assoc, List.append_assoc]
  refine ⟨?_, ?_⟩
  · rw [slice_append_left hle hn, slice_append_left hle hn]
  · simp only [Lines.span, Lines.point_append_left hn, Lines.point_append_left (Nat.le_trans hle hn)]

/-- What begins behind the replaced piece is moved as a whole. -/
theorem span_behind (h : replace? text start oldEnd inserted = some e) (hm : e.oldEndByte ≤ m)
    (hle : m ≤ n) :
    slice (splice text start oldEnd inserted) (e.shiftByte m) (e.shiftByte n) = slice text m n ∧
      (Lines.ofText (splice text start oldEnd inserted)).span (e.shiftByte m) (e.shiftByte n) =
        e.shiftSpan ((Lines.ofText text).span m n) := by
  obtain ⟨before, removed, behind, rfl, hsplice, hr⟩ := exists_replaces h
  rw [hr.oldEndByte] at hm
  obtain ⟨c, rfl⟩ := Nat.exists_eq_add_of_le hm
  obtain ⟨d, rfl⟩ := Nat.exists_eq_add_of_le (Nat.le_trans hm hle)
  rw [hsplice]
  refine ⟨?_, ?_⟩
  · rw [hr.shiftByte_add, hr.shiftByte_add, slice_append_right, slice_append_right]
  · simp only [shiftSpan, Lines.span, hr.shiftPoint_add, hr.shiftByte_add]

end Edit

end EarleyTree.Text

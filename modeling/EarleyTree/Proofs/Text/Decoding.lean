import EarleyTree.Proofs.Text.Splices
import Mathlib.Data.List.DropRight

/-!
What the bytes of a text spell, and the rows and columns of its places: the text itself, and the line
breaks before a place with the bytes behind the last of them.
-/
namespace EarleyTree.Text

namespace Utf8

variable {a b c d n : Nat} {ch : Char} {bytes : List Nat}

theorem isTail_add (n : Nat) : isTail (n % 64 + 0x80) = true := by
  rw [isTail, Bool.and_eq_true, decide_eq_true_iff, decide_eq_true_iff]
  omega

theorem one?_of_lt (h : n < 0x80) : one? n = some (Char.ofNat n) := if_pos h

theorem one?_of_le (h : 0x80 ≤ a) : one? a = none := if_neg (Nat.not_lt.2 h)

theorem two?_of_le (h : 0xe0 ≤ a) : two? a b = none := if_neg fun ⟨_, hlt, _⟩ => Nat.not_lt.2 h hlt

theorem three?_of_le (h : 0xf0 ≤ a) : three? a b c = none :=
  if_neg fun ⟨_, hlt, _⟩ => Nat.not_lt.2 h hlt

theorem two?_encoded (h : 0x80 ≤ n) (hlt : n < 0x800) :
    two? (n / 64 + 0xc0) (n % 64 + 0x80) = some (Char.ofNat n) := by
  have hn : (n / 64 + 0xc0 - 0xc0) * 64 + (n % 64 + 0x80 - 0x80) = n := by omega
  rw [two?, if_pos ⟨by omega, by omega, isTail_add n⟩, hn]

theorem three?_encoded (h : 0x800 ≤ n) (hlt : n < 0x10000) (hn : n < 0xd800 ∨ 0xdfff < n) :
    three? (n / 4096 + 0xe0) (n / 64 % 64 + 0x80) (n % 64 + 0x80) = some (Char.ofNat n) := by
  have hsum : (n / 4096 + 0xe0 - 0xe0) * 4096 + (n / 64 % 64 + 0x80 - 0x80) * 64 +
      (n % 64 + 0x80 - 0x80) = n := by omega
  rw [three?, hsum, if_pos ⟨by omega, by omega, isTail_add _, isTail_add n, h, hn⟩]

theorem four?_encoded (h : 0x10000 ≤ n) (hlt : n < 0x110000) :
    four? (n / 262144 + 0xf0) (n / 4096 % 64 + 0x80) (n / 64 % 64 + 0x80) (n % 64 + 0x80) =
      some (Char.ofNat n) := by
  have hsum : (n / 262144 + 0xf0 - 0xf0) * 262144 + (n / 4096 % 64 + 0x80 - 0x80) * 4096 +
      (n / 64 % 64 + 0x80 - 0x80) * 64 + (n % 64 + 0x80 - 0x80) = n := by omega
  rw [four?, hsum,
    if_pos ⟨by omega, by omega, isTail_add _, isTail_add _, isTail_add n, h, hlt⟩]

theorem toNat_isValid (ch : Char) : ch.toNat < 0xd800 ∨ 0xdfff < ch.toNat ∧ ch.toNat < 0x110000 :=
  ch.valid

theorem decodeFrom_one (h : one? a = some ch) :
    decodeFrom n (a :: bytes) = (decodeFrom (n + 1) bytes).map (ch :: ·) := by
  rw [decodeFrom.eq_def]
  simp only [h]

theorem decodeFrom_two (ha : one? a = none) (h : two? a b = some ch) :
    decodeFrom n (a :: b :: bytes) = (decodeFrom (n + 2) bytes).map (ch :: ·) := by
  rw [decodeFrom.eq_def]
  simp only [ha, h]

theorem decodeFrom_three (ha : one? a = none) (hb : two? a b = none) (h : three? a b c = some ch) :
    decodeFrom n (a :: b :: c :: bytes) = (decodeFrom (n + 3) bytes).map (ch :: ·) := by
  rw [decodeFrom.eq_def]
  simp only [ha, hb, h]

theorem decodeFrom_four (ha : one? a = none) (hb : two? a b = none) (hc : three? a b c = none)
    (h : four? a b c d = some ch) :
    decodeFrom n (a :: b :: c :: d :: bytes) = (decodeFrom (n + 4) bytes).map (ch :: ·) := by
  rw [decodeFrom.eq_def]
  simp only [ha, hb, hc, h]

/-- The bytes of a character are read as that character, whatever follows. -/
theorem decodeFrom_encodeChar (n : Nat) (ch : Char) (bytes : List Nat) :
    decodeFrom n (encodeChar ch ++ bytes) =
      (decodeFrom (n + (encodeChar ch).length) bytes).map (ch :: ·) := by
  have hvalid := toNat_isValid ch
  have hchar := Char.ofNat_toNat ch
  rw [encodeChar]
  generalize ch.toNat = k at hvalid hchar
  -- one case a length; a longer character's first byte is too large for the shorter forms
  split
  · next h1 => exact decodeFrom_one (by rw [one?_of_lt h1, hchar])
  · next h1 =>
      split
      · next h2 =>
          exact decodeFrom_two (one?_of_le (by omega)) (by rw [two?_encoded (by omega) h2, hchar])
      · next h2 =>
          split
          · next h3 =>
              exact decodeFrom_three (one?_of_le (by omega)) (two?_of_le (by omega))
                (by rw [three?_encoded (by omega) h3 (by omega), hchar])
          · next h3 =>
              exact decodeFrom_four (one?_of_le (by omega)) (two?_of_le (by omega))
                (three?_of_le (by omega)) (by rw [four?_encoded (by omega) (by omega), hchar])

theorem decodeFrom_encode (n : Nat) (text : List Char) : decodeFrom n (encode text) = .ok text := by
  induction text generalizing n with
  | nil => rfl
  | cons c text ih =>
      rw [encode, List.flatMap_cons, decodeFrom_encodeChar]
      exact congrArg (Except.map (c :: ·)) (ih _)

theorem decode_encode (text : List Char) : decode (encode text) = .ok text := decodeFrom_encode 0 text

end Utf8

theorem slice_append (before piece behind : List Char) :
    slice (before ++ piece ++ behind) (byteLength before) (byteLength (before ++ piece)) =
      Utf8.encode piece := by
  rw [slice, encode_append, encode_append, ← length_encode, ← length_encode, encode_append,
    List.append_assoc, List.drop_left, List.length_append, Nat.add_sub_cancel_left, List.take_left]

/-- Between two places there is a text of its own. -/
theorem exists_piece {text : List Char} {start stop : Nat} (hstart : isBoundary text start = true)
    (hstop : isBoundary text stop = true) (hle : start ≤ stop) : ∃ piece rest,
      text = takeBytes text start ++ piece ++ rest ∧ byteLength (takeBytes text start) = start ∧
        byteLength (takeBytes text start ++ piece) = stop := by
  obtain ⟨behind, hbehind⟩ := isBoundary_iff.1 hstart
  obtain ⟨rest, hrest⟩ := isBoundary_iff.1 hstop
  rw [← Nat.add_sub_cancel' hle, suffix?_add hbehind] at hrest
  have hlength := byteLength_takeBytes hbehind
  refine ⟨takeBytes behind (stop - start), rest, ?_, hlength, ?_⟩
  · rw [List.append_assoc, takeBytes_append_suffix hrest, takeBytes_append_suffix hbehind]
  · rw [byteLength_append, hlength, byteLength_takeBytes hrest, Nat.add_sub_cancel' hle]

namespace Point

/-- The place behind a text: the line breaks in it are its row, and what follows the last of them is as
long as its column. -/
def behind (before : List Char) : Point :=
  ⟨before.count '\n', byteLength (before.rtakeWhile (· != '\n'))⟩

theorem advance_eq_behind (before : List Char) : Point.zero.advance before = behind before := by
  induction before using List.reverseRecOn with
  | nil => rfl
  | append_singleton before c ih =>
      have hlast : Point.zero.advance (before ++ [c]) = (behind before).advance [c] := by
        rw [← ih, advance, advance, advance, List.foldl_append]
      rw [hlast, advance, List.foldl_cons, List.foldl_nil, behind, behind, List.count_append,
        List.count_singleton, List.rtakeWhile_concat]
      by_cases hc : (c == '\n') = true
      · simp [hc, bne, byteLength]
      · simp [hc, bne, byteLength_append, byteLength]

end Point

/-- The place of a byte between two characters is that behind the text before it. -/
theorem Lines.point_eq_behind {text : List Char} {n : Nat} (h : isBoundary text n = true) :
    (ofText text).point n = Point.behind (takeBytes text n) := by
  obtain ⟨rest, hrest⟩ := isBoundary_iff.1 h
  have hpoint := point_append (takeBytes text n) rest
  rwa [takeBytes_append_suffix hrest, byteLength_takeBytes hrest, Point.advance_eq_behind] at hpoint

end EarleyTree.Text

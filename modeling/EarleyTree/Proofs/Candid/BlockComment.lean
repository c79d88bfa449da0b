import EarleyTree.Proofs.Lexing.Boundaries

/-!
Block comments by a grammar: an opening, items and a closing, where an item is a comment, a line comment
or a character. The scanner, which only counts how many comments are open, accepts just these.
-/
namespace EarleyTree

open Text

namespace ScanCursor

variable {c : ScanCursor}

theorem rest_advanceTimes (k : Nat) (skip : Bool) (c : ScanCursor) :
    (advanceTimes k skip c).rest = c.rest.drop k := by
  induction k generalizing c with
  | zero => rfl
  | succ k ih =>
      have hnext : (c.advance skip).rest = c.rest.tail := by
        rw [advance]
        cases hr : c.rest with
        | nil => cases skip <;> exact hr
        | cons ch rest => cases skip <;> rfl
      rw [advanceTimes, ih, hnext, List.drop_tail]

theorem tokenStart_advanceTimes_false (k : Nat) (c : ScanCursor) :
    (advanceTimes k false c).tokenStart = c.tokenStart := by
  induction k generalizing c with
  | zero => rfl
  | succ k ih =>
      have hnext : (c.advance false).tokenStart = c.tokenStart := by
        rw [advance]
        cases c.rest <;> rfl
      rw [advanceTimes, ih, hnext]

theorem tokenStart_advanceTimes_true (k : Nat) (h : c.tokenStart = c.position) :
    (advanceTimes k true c).tokenStart = (advanceTimes k true c).position := by
  induction k generalizing c with
  | zero => exact h
  | succ k ih => exact ih rfl

theorem Aligned.advanceTimes {text : List Char} (h : c.Aligned text) (k : Nat) (skip : Bool) :
    (advanceTimes k skip c).Aligned text := (Reaches.refl.advanceTimes k skip).aligned h

end ScanCursor

namespace Candid.BlockComment

/-- What is read at once inside a comment. -/
inductive Piece
  | opening
  | closing
  | line
  | other (c : Char)
  deriving DecidableEq, Repr

/-- The text has a line end, a line feed, a carriage return or both, and `rest` follows the first. -/
inductive Line : List Char → List Char → Prop
  | feed (rest : List Char) : Line ('\n' :: rest) rest
  | both (rest : List Char) : Line ('\r' :: '\n' :: rest) rest
  | carriage {rest : List Char} (h : rest.head? ≠ some '\n') : Line ('\r' :: rest) rest
  | next {c : Char} {text rest : List Char} (hn : c ≠ '\n') (hr : c ≠ '\r') (h : Line text rest) :
      Line (c :: text) rest

/-- The character is taken together with the one behind it. -/
def Paired (c : Char) (behind : List Char) : Prop :=
  c = '/' ∧ (behind.head? = some '*' ∨ behind.head? = some '/') ∨ c = '*' ∧ behind.head? = some '/'

/-- The text is read from left to right as the pieces, and `rest` follows. What can be taken together is
never read as single characters. -/
inductive Reads : List Char → List Piece → List Char → Prop
  | done (rest : List Char) : Reads rest [] rest
  | opening {text rest : List Char} {ps : List Piece} (h : Reads text ps rest) :
      Reads ('/' :: '*' :: text) (.opening :: ps) rest
  | closing {text rest : List Char} {ps : List Piece} (h : Reads text ps rest) :
      Reads ('*' :: '/' :: text) (.closing :: ps) rest
  | line {text behind rest : List Char} {ps : List Piece} (hl : Line text behind)
      (h : Reads behind ps rest) : Reads ('/' :: '/' :: text) (.line :: ps) rest
  | other {c : Char} {text rest : List Char} {ps : List Piece} (hc : ¬Paired c text)
      (h : Reads text ps rest) : Reads (c :: text) (.other c :: ps) rest

inductive Items : List Piece → Prop
  | nil : Items []
  | line {ps : List Piece} (h : Items ps) : Items (.line :: ps)
  | other (c : Char) {ps : List Piece} (h : Items ps) : Items (.other c :: ps)
  | comment {inner ps : List Piece} (hi : Items inner) (h : Items ps) :
      Items (.opening :: inner ++ .closing :: ps)

/-- The text begins with a comment, and `rest` follows. -/
def Comment (text rest : List Char) : Prop :=
  ∃ inner, Items inner ∧ Reads text (.opening :: inner ++ [.closing]) rest

/-- Inside so many comments the pieces close them all, the last piece the last one. -/
inductive Unwinds : Nat → List Piece → Prop
  | nil : Unwinds 0 []
  | opening {n : Nat} {ps : List Piece} (h : Unwinds (n + 2) ps) : Unwinds (n + 1) (.opening :: ps)
  | closing {n : Nat} {ps : List Piece} (h : Unwinds n ps) : Unwinds (n + 1) (.closing :: ps)
  | line {n : Nat} {ps : List Piece} (h : Unwinds (n + 1) ps) : Unwinds (n + 1) (.line :: ps)
  | other {n : Nat} (c : Char) {ps : List Piece} (h : Unwinds (n + 1) ps) :
      Unwinds (n + 1) (.other c :: ps)

variable {n : Nat} {ps inner : List Piece} {text rest behind : List Char}

theorem Items.unwinds (h : Items inner) (hu : Unwinds n ps) :
    Unwinds (n + 1) (inner ++ .closing :: ps) := by
  induction h generalizing n ps with
  | nil => exact .closing hu
  | line _ ih => exact .line (ih hu)
  | other c _ ih => exact .other c (ih hu)
  | comment _ _ ihi ih =>
      rw [List.cons_append, List.cons_append, List.append_assoc, List.cons_append]
      exact .opening (ihi (ih hu))

/-- The induction is on the number of pieces: behind the inner comment there are fewer. -/
theorem Unwinds.exists_items (h : Unwinds (n + 1) ps) :
    ∃ inner qs, Items inner ∧ ps = inner ++ .closing :: qs ∧ Unwinds n qs := by
  induction hl : ps.length using Nat.strong_induction_on generalizing n ps with
  | _ k ih =>
      subst hl
      cases h with
      | opening h =>
          obtain ⟨inner, qs, hi, rfl, hq⟩ := ih _ (by simp) h rfl
          obtain ⟨inner', qs', hi', rfl, hq'⟩ := ih _ (by simp; omega) hq rfl
          exact ⟨.opening :: inner ++ .closing :: inner', qs', .comment hi hi', by simp, hq'⟩
      | closing h => exact ⟨[], _, .nil, rfl, h⟩
      | line h =>
          obtain ⟨inner, qs, hi, rfl, hq⟩ := ih _ (by simp) h rfl
          exact ⟨.line :: inner, qs, .line hi, rfl, hq⟩
      | other c h =>
          obtain ⟨inner, qs, hi, rfl, hq⟩ := ih _ (by simp) h rfl
          exact ⟨.other c :: inner, qs, .other c hi, rfl, hq⟩

/-- Counting the open comments finds just the items up to the closing of the outermost one. -/
theorem unwinds_one_iff : Unwinds 1 ps ↔ ∃ inner, Items inner ∧ ps = inner ++ [.closing] := by
  constructor
  · intro h
    obtain ⟨inner, qs, hi, rfl, hq⟩ := h.exists_items
    cases hq
    exact ⟨inner, hi, rfl⟩
  · rintro ⟨inner, hi, rfl⟩
    exact hi.unwinds .nil

theorem comment_iff :
    Comment text rest ↔ ∃ body ps, text = '/' :: '*' :: body ∧ Reads body ps rest ∧ Unwinds 1 ps := by
  constructor
  · rintro ⟨inner, hi, h⟩
    cases h with
    | opening h => exact ⟨_, _, rfl, h, unwinds_one_iff.2 ⟨inner, hi, rfl⟩⟩
  · rintro ⟨body, ps, rfl, h, hu⟩
    obtain ⟨inner, hi, rfl⟩ := unwinds_one_iff.1 hu
    exact ⟨inner, hi, .opening h⟩

theorem Line.readBody_eq (h : Line text rest) (depth : Nat) :
    readBody true depth text = readBody false depth rest := by
  induction h with
  | feed rest => rw [readBody.eq_2 _ _ _ (by simp)]; rfl
  | both rest => rw [readBody]
  | carriage h =>
      rw [readBody.eq_2 _ _ _ fun cs _ hcs => h (by rw [hcs]; rfl)]
      rfl
  | @next c _ _ hn hr _ ih =>
      have hc : (c != '\n' && c != '\r') = true := by simp [hn, hr]
      rw [readBody.eq_2 _ _ _ fun _ hc' _ => hr hc', hc]
      exact ih

theorem readBody_other {c : Char} (hc : ¬Paired c text) (depth : Nat) :
    readBody false depth (c :: text) = readBody false depth text := by
  refine readBody.eq_6 _ _ _ (fun cs h h' => hc ?_) (fun cs h h' => hc ?_) (fun cs h h' => hc ?_)
  · exact .inl ⟨h, .inl (h' ▸ rfl)⟩
  · exact .inl ⟨h, .inr (h' ▸ rfl)⟩
  · exact .inr ⟨h, h' ▸ rfl⟩

/-- The scanner stops behind the pieces that close all comments it is in. -/
theorem Reads.readBody_eq (h : Reads text ps rest) (hu : Unwinds (n + 1) ps) :
    readBody false (n + 1) text = ⟨true, 0, rest⟩ := by
  induction h generalizing n with
  | done => cases hu
  | opening _ ih =>
      cases hu with
      | opening hu => rw [readBody]; exact ih hu
  | closing h ih =>
      cases hu with
      | closing hu =>
          rw [readBody]
          cases n with
          | zero =>
              cases hu
              cases h
              rfl
          | succ n =>
              rw [if_neg (by omega)]
              exact ih hu
  | line hl _ ih =>
      cases hu with
      | line hu => rw [readBody, hl.readBody_eq]; exact ih hu
  | other hc _ ih =>
      cases hu with
      | other _ hu => rw [readBody_other hc]; exact ih hu

/-- What the scanner passes over when it comes to the end of all comments. In a line comment the pieces
begin behind its line. -/
theorem exists_reads {inLine : Bool} (depth : Nat) (text : List Char) (hd : 1 ≤ depth)
    (h : (readBody inLine depth text).closed = true) :
    ∃ ps, Unwinds depth ps ∧ if inLine then
      ∃ behind, Line text behind ∧ Reads behind ps (readBody inLine depth text).rest
    else Reads text ps (readBody inLine depth text).rest := by
  fun_induction readBody inLine depth text with
  | case1 depth cs ih =>
      obtain ⟨ps, hu, hr⟩ := ih hd h
      exact ⟨ps, hu, _, .both cs, hr⟩
  | case2 depth c cs hc ih =>
      obtain ⟨ps, hu, hr⟩ := ih hd h
      by_cases hn : c = '\n'
      · subst hn
        exact ⟨ps, hu, _, .feed cs, hr⟩
      · by_cases hcr : c = '\r'
        · subst hcr
          refine ⟨ps, hu, _, .carriage fun hh => ?_, hr⟩
          obtain ⟨cs', rfl⟩ := List.head?_eq_some_iff.1 hh
          exact hc cs' rfl rfl
        · rw [if_pos (by simp [hn, hcr])] at hr
          obtain ⟨behind, hl, hr⟩ := hr
          exact ⟨ps, hu, behind, .next hn hcr hl, hr⟩
  | case3 depth cs ih =>
      obtain ⟨ps, hu, hr⟩ := ih (by omega) h
      obtain ⟨n, rfl⟩ := Nat.exists_eq_add_of_le' hd
      exact ⟨_, .opening hu, .opening hr⟩
  | case4 depth cs ih =>
      obtain ⟨ps, hu, behind, hl, hr⟩ := ih hd h
      obtain ⟨n, rfl⟩ := Nat.exists_eq_add_of_le' hd
      exact ⟨_, .line hu, .line hl hr⟩
  | case5 depth cs hle =>
      obtain rfl : depth = 1 := Nat.le_antisymm hle hd
      exact ⟨_, .closing .nil, .closing (.done cs)⟩
  | case6 depth cs hle ih =>
      obtain ⟨ps, hu, hr⟩ := ih (by omega) h
      obtain ⟨n, rfl⟩ := Nat.exists_eq_add_of_le' hd
      exact ⟨_, .closing hu, .closing hr⟩
  | case7 depth c cs hopening hline hclosing ih =>
      obtain ⟨ps, hu, hr⟩ := ih hd h
      obtain ⟨n, rfl⟩ := Nat.exists_eq_add_of_le' hd
      refine ⟨_, .other c hu, .other ?_ hr⟩
      rintro (⟨hc, hh | hh⟩ | ⟨hc, hh⟩)
      · obtain ⟨cs', rfl⟩ := List.head?_eq_some_iff.1 hh
        exact hopening cs' hc rfl
      · obtain ⟨cs', rfl⟩ := List.head?_eq_some_iff.1 hh
        exact hline cs' hc rfl
      · obtain ⟨cs', rfl⟩ := List.head?_eq_some_iff.1 hh
        exact hclosing cs' hc rfl
  | case8 => cases h

/-- The text gives out inside a comment. -/
theorem readBody_open {inLine : Bool} (depth : Nat) (text : List Char) (hd : 1 ≤ depth)
    (h : (readBody inLine depth text).closed = false) :
    (readBody inLine depth text).rest = [] ∧ 1 ≤ (readBody inLine depth text).depth := by
  fun_induction readBody inLine depth text with
  | case5 => cases h
  | case8 => exact ⟨rfl, hd⟩
  | case3 depth cs ih => exact ih (by omega) h
  | case6 depth cs hle ih => exact ih (by omega) h
  | case1 _ _ ih | case2 _ _ _ _ ih | case4 _ _ ih | case7 _ _ _ _ _ _ ih => exact ih hd h

theorem comment_iff_readBody {body : List Char} :
    Comment ('/' :: '*' :: body) rest ↔ readBody false 1 body = ⟨true, 0, rest⟩ := by
  rw [comment_iff]
  constructor
  · rintro ⟨_, ps, ⟨⟩, h, hu⟩
    exact h.readBody_eq hu
  · intro h
    obtain ⟨ps, hu, hr⟩ := exists_reads 1 body (Nat.le_refl 1) (congrArg Ending.closed h)
    rw [h] at hr
    exact ⟨body, ps, rfl, hr, hu⟩

theorem exists_comment {body : List Char} (h : (readBody false 1 body).closed = true) :
    ∃ after, Comment ('/' :: '*' :: body) after := by
  obtain ⟨ps, hu, hr⟩ := exists_reads 1 body (Nat.le_refl 1) h
  exact ⟨_, comment_iff.2 ⟨body, ps, rfl, hr, hu⟩⟩

theorem readBody_suffix (inLine : Bool) (depth : Nat) (text : List Char) :
    (readBody inLine depth text).rest <:+ text := by
  fun_induction readBody inLine depth text with
  | case2 _ _ _ _ ih | case7 _ _ _ _ _ _ ih => exact ih.trans (List.suffix_cons _ _)
  | case1 _ _ ih | case3 _ _ ih | case4 _ _ ih | case6 _ _ _ ih =>
      exact ih.trans ((List.suffix_cons _ _).trans (List.suffix_cons _ _))
  | case5 => exact (List.suffix_cons _ _).trans (List.suffix_cons _ _)
  | case8 => exact List.suffix_rfl

/-- The reading with a depth of 32 bits, which gives nothing if the depth would leave its range. -/
def readWord : Bool → UInt32 → List Char → Option Ending
  | true, depth, '\r' :: '\n' :: cs => readWord false depth cs
  | true, depth, c :: cs => readWord (c != '\n' && c != '\r') depth cs
  | false, depth, '/' :: '*' :: cs =>
    if depth.toNat + 1 < UInt32.size then readWord false (depth + 1) cs else none
  | false, depth, '/' :: '/' :: cs => readWord true depth cs
  | false, depth, '*' :: '/' :: cs =>
    if depth = 0 then none
    else if depth - 1 = 0 then some ⟨true, 0, cs⟩
    else readWord false (depth - 1) cs
  | false, depth, _ :: cs => readWord false depth cs
  | _, depth, [] => some ⟨false, depth.toNat, []⟩

/-- The scan with depths of 32 bits. -/
def scanWord (depth : UInt32) (cursor : ScanCursor) (valid : List Bool) :
    Option (Bool × ScanCursor × Nat) :=
  if valid.head? != some true then some (false, cursor, depth.toNat)
  else
    let cursor := ScanCursor.advanceTimes (cursor.rest.takeWhile isBlank).length true cursor
    match cursor.rest with
    | '/' :: '*' :: body => do
      let ending ← readWord false 1 body
      let cursor :=
        (ScanCursor.advanceTimes (cursor.rest.length - ending.rest.length) false cursor).markEnd
      if ending.closed then some (true, cursor.setResult 0, ending.depth)
      else some (false, cursor, ending.depth)
    | '/' :: _ => some (false, cursor.advance false, depth.toNat)
    | _ => some (false, cursor, depth.toNat)

theorem toNat_sub_one {depth : UInt32} (hd : 1 ≤ depth.toNat) :
    (depth - 1).toNat = depth.toNat - 1 :=
  UInt32.toNat_sub_of_le _ _ (UInt32.le_iff_toNat_le.2 hd)

/-- Each opening takes two characters, so a text of less than 2³² never has the depth overflow; and it is
at least 1 wherever it is lowered. -/
theorem readWord_eq (inLine : Bool) (depth : UInt32) (text : List Char) (hd : 1 ≤ depth.toNat)
    (hlen : depth.toNat + text.length < UInt32.size) :
    readWord inLine depth text = some (readBody inLine depth.toNat text) := by
  fun_induction readWord inLine depth text with
  | case1 depth cs ih =>
      rw [List.length_cons, List.length_cons] at hlen
      rw [readBody, ih hd (by omega)]
  | case2 depth c cs hc ih =>
      rw [List.length_cons] at hlen
      rw [readBody.eq_2 _ _ _ hc, ih hd (by omega)]
  | case3 depth cs hlt ih =>
      have hnext : (depth + 1).toNat = depth.toNat + 1 := by
        rw [UInt32.toNat_add]
        exact Nat.mod_eq_of_lt hlt
      rw [List.length_cons, List.length_cons] at hlen
      rw [readBody, ih (by omega) (by omega), hnext]
  | case4 depth cs hlt =>
      rw [List.length_cons, List.length_cons] at hlen
      omega
  | case5 depth cs ih =>
      rw [List.length_cons, List.length_cons] at hlen
      rw [readBody, ih hd (by omega)]
  | case6 cs => cases hd
  | case7 depth cs _ h1 =>
      rw [← UInt32.toNat_inj, toNat_sub_one hd] at h1
      rw [readBody, if_pos (Nat.sub_eq_zero_iff_le.1 h1)]
  | case8 depth cs _ h1 ih =>
      rw [← UInt32.toNat_inj, toNat_sub_one hd] at h1
      rw [List.length_cons, List.length_cons] at hlen
      rw [readBody, if_neg fun hle => h1 (Nat.sub_eq_zero_of_le hle),
        ih (by rw [toNat_sub_one hd]; exact Nat.pos_of_ne_zero h1)
          (by rw [toNat_sub_one hd]; omega), toNat_sub_one hd]
  | case9 depth c cs hopening hline hclosing ih =>
      rw [List.length_cons] at hlen
      rw [readBody.eq_6 _ _ _ hopening hline hclosing, ih hd (by omega)]
  | case10 => rw [readBody]

theorem length_le_byteLength (text : List Char) : text.length ≤ byteLength text := by
  induction text with
  | nil => exact Nat.le_refl 0
  | cons c text ih =>
      have hpos := c.utf8Size_pos
      rw [List.length_cons, byteLength]
      omega

/-- The cursor behind the blanks that it stands before. -/
def behindBlanks (c : ScanCursor) : ScanCursor :=
  ScanCursor.advanceTimes (c.rest.takeWhile isBlank).length true c

/-- The cursor where a reading ended. -/
def atEnding (c : ScanCursor) (ending : Ending) : ScanCursor :=
  (ScanCursor.advanceTimes (c.rest.length - ending.rest.length) false c).markEnd

variable {c : ScanCursor} {valid : List Bool} {body : List Char}

theorem rest_behindBlanks (c : ScanCursor) : (behindBlanks c).rest = c.rest.dropWhile isBlank := by
  have hsplit : c.rest.takeWhile isBlank ++ c.rest.dropWhile isBlank = c.rest :=
    List.takeWhile_append_dropWhile
  rw [behindBlanks, ScanCursor.rest_advanceTimes]
  exact (congrArg (List.drop _) hsplit.symm).trans List.drop_left

theorem scan_of_opening (hvalid : valid.head? = some true)
    (h : c.rest.dropWhile isBlank = '/' :: '*' :: body) (depth : Nat) :
    scan depth c valid =
      if (readBody false 1 body).closed then
        (true, (atEnding (behindBlanks c) (readBody false 1 body)).setResult 0,
          (readBody false 1 body).depth)
      else
        (false, atEnding (behindBlanks c) (readBody false 1 body), (readBody false 1 body).depth) := by
  rw [← rest_behindBlanks, behindBlanks] at h
  rw [scan, hvalid]
  simp only [bne_self_eq_false, Bool.false_eq_true, if_false, h]
  rw [atEnding, behindBlanks, h]

/-- The cursor where no comment is opened: behind the blanks and a slash, if one follows. -/
def besides (c : ScanCursor) : ScanCursor :=
  if (behindBlanks c).rest.head? = some '/' then (behindBlanks c).advance false else behindBlanks c

section

variable (hvalid : valid.head? = some true)
  (h : ∀ body, c.rest.dropWhile isBlank ≠ '/' :: '*' :: body)

include hvalid h

/-- Where no comment is opened the depth is let be. -/
theorem scan_of_not_opening (depth : Nat) : scan depth c valid = (false, besides c, depth) := by
  rw [← rest_behindBlanks, behindBlanks] at h
  rw [scan, hvalid, besides, behindBlanks]
  dsimp only
  split
  · contradiction
  · split
    · next hbody => exact absurd hbody (h _)
    · next hslash => rw [if_pos (by rw [hslash]; rfl)]
    · next hother =>
        rw [if_neg]
        intro hhead
        obtain ⟨cs, hcs⟩ := List.head?_eq_some_iff.1 hhead
        exact hother cs hcs

theorem scanWord_of_not_opening (depth : UInt32) :
    scanWord depth c valid = some (false, besides c, depth.toNat) := by
  rw [← rest_behindBlanks, behindBlanks] at h
  rw [scanWord, hvalid, besides, behindBlanks]
  dsimp only
  split
  · contradiction
  · split
    · next hbody => exact absurd hbody (h _)
    · next hslash => rw [if_pos (by rw [hslash]; rfl)]
    · next hother =>
        rw [if_neg]
        intro hhead
        obtain ⟨cs, hcs⟩ := List.head?_eq_some_iff.1 hhead
        exact hother cs hcs

end

theorem scanWord_eq {depth : UInt32} (hvalid : valid.head? = some true)
    (hlen : c.rest.length < UInt32.size) : scanWord depth c valid = some (scan depth.toNat c valid) := by
  by_cases hopening : ∃ body, c.rest.dropWhile isBlank = '/' :: '*' :: body
  · obtain ⟨body, hbody⟩ := hopening
    have hle := (hbody ▸ List.dropWhile_suffix isBlank).length_le
    rw [List.length_cons, List.length_cons] at hle
    have hread : readWord false 1 body = some (readBody false 1 body) :=
      readWord_eq false 1 body (Nat.le_refl 1) (by rw [UInt32.toNat_one]; omega)
    rw [scan_of_opening hvalid hbody, apply_ite some, atEnding, behindBlanks]
    rw [← rest_behindBlanks, behindBlanks] at hbody
    rw [scanWord, hvalid]
    simp only [bne_self_eq_false, Bool.false_eq_true, if_false, hbody, hread, Option.bind_eq_bind,
      Option.bind_some]
  · have hnot : ∀ body, c.rest.dropWhile isBlank ≠ '/' :: '*' :: body :=
      fun body hbody => hopening ⟨body, hbody⟩
    rw [scanWord_of_not_opening hvalid hnot, scan_of_not_opening hvalid hnot]

section

variable {position : Nat}

theorem aligned_behindBlanks (hrest : suffix? text position = some rest) :
    (behindBlanks (.ofText text position)).Aligned text :=
  (ScanCursor.aligned_ofText (isBoundary_iff.2 ⟨_, hrest⟩)).advanceTimes _ true

theorem rest_ofText (hrest : suffix? text position = some rest) :
    (ScanCursor.ofText text position).rest = rest := by rw [ScanCursor.ofText, hrest, Option.getD_some]

/-- The token begins behind the blanks. -/
theorem position_behindBlanks (hrest : suffix? text position = some rest) :
    (behindBlanks (.ofText text position)).position =
      position + byteLength (rest.takeWhile isBlank) := by
  have hc := add_byteLength_suffix (aligned_behindBlanks hrest).1
  rw [rest_behindBlanks, rest_ofText hrest] at hc
  have hsum := add_byteLength_suffix hrest
  rw [← List.takeWhile_append_dropWhile (p := isBlank) (l := rest), byteLength_append] at hsum
  omega

/-- The cursor comes to stand where the reading ended, and the token keeps its beginning. -/
theorem atEnding_behindBlanks (hrest : suffix? text position = some rest) (ending : Ending)
    (hsuffix : ending.rest <:+ rest.dropWhile isBlank) :
    suffix? text (atEnding (behindBlanks (.ofText text position)) ending).position = some ending.rest ∧
      (atEnding (behindBlanks (.ofText text position)) ending).tokenStart =
        position + byteLength (rest.takeWhile isBlank) := by
  constructor
  · have haligned := ((aligned_behindBlanks hrest).advanceTimes
      ((behindBlanks (.ofText text position)).rest.length - ending.rest.length) false).1
    rw [ScanCursor.rest_advanceTimes, rest_behindBlanks, rest_ofText hrest,
      ← List.suffix_iff_eq_drop.1 hsuffix] at haligned
    rw [atEnding, rest_behindBlanks, rest_ofText hrest]
    exact haligned
  · rw [← position_behindBlanks hrest]
    show (ScanCursor.advanceTimes _ false _).tokenStart = _
    rw [ScanCursor.tokenStart_advanceTimes_false]
    exact ScanCursor.tokenStart_advanceTimes_true _ rfl

section

variable (hrest : suffix? text position = some rest) (hvalid : valid.head? = some true)

include hrest hvalid

theorem scan_of_comment {after : List Char} (h : Comment (rest.dropWhile isBlank) after) :
    ∃ c, (∀ depth, scan depth (.ofText text position) valid = (true, c, 0)) ∧
      c.tokenStart = position + byteLength (rest.takeWhile isBlank) ∧
      suffix? text c.tokenEnd = some after ∧ c.position = c.tokenEnd ∧ c.resultSymbol = 0 := by
  obtain ⟨body, ps, hbody, -, -⟩ := comment_iff.1 h
  have hread := comment_iff_readBody.1 (hbody ▸ h)
  have hafter : after <:+ rest.dropWhile isBlank := by
    obtain ⟨before, hsplit⟩ := readBody_suffix false 1 body
    rw [hread] at hsplit
    exact ⟨'/' :: '*' :: before, (congrArg (fun cs => '/' :: '*' :: cs) hsplit).trans hbody.symm⟩
  obtain ⟨hposition, hstart⟩ := atEnding_behindBlanks hrest ⟨true, 0, after⟩ hafter
  refine ⟨(atEnding (behindBlanks (.ofText text position)) ⟨true, 0, after⟩).setResult 0,
    fun depth => ?_, hstart, hposition, rfl, rfl⟩
  rw [scan_of_opening hvalid (by rw [rest_ofText hrest]; exact hbody), hread]
  rfl

theorem scan_of_unclosed (h : rest.dropWhile isBlank = '/' :: '*' :: body)
    (hnone : ∀ after, ¬Comment (rest.dropWhile isBlank) after) :
    ∃ c inside, (∀ depth, scan depth (.ofText text position) valid = (false, c, inside)) ∧
      c.position = byteLength text ∧ 1 ≤ inside := by
  have hclosed : (readBody false 1 body).closed = false := by
    rw [Bool.eq_false_iff]
    intro hc
    obtain ⟨after, hcomment⟩ := exists_comment hc
    exact hnone after (h ▸ hcomment)
  obtain ⟨hnil, hinside⟩ := readBody_open 1 body (Nat.le_refl 1) hclosed
  obtain ⟨hposition, -⟩ := atEnding_behindBlanks hrest (readBody false 1 body)
    (hnil ▸ List.nil_suffix)
  have hsum := add_byteLength_suffix hposition
  rw [hnil] at hsum
  refine ⟨atEnding (behindBlanks (.ofText text position)) (readBody false 1 body),
    (readBody false 1 body).depth, fun depth => ?_, hsum, hinside⟩
  rw [scan_of_opening hvalid (by rw [rest_ofText hrest]; exact h), hclosed]
  rfl

theorem exists_comment_of_scan {depth : Nat}
    (h : (scan depth (.ofText text position) valid).1 = true) :
    ∃ after, Comment (rest.dropWhile isBlank) after := by
  by_cases hopening : ∃ body, rest.dropWhile isBlank = '/' :: '*' :: body
  · obtain ⟨body, hbody⟩ := hopening
    rw [scan_of_opening hvalid (by rw [rest_ofText hrest]; exact hbody)] at h
    rw [hbody]
    refine exists_comment ?_
    split at h
    · assumption
    · cases h
  · rw [scan_of_not_opening hvalid fun body hbody =>
      hopening ⟨body, by rw [← hbody, rest_ofText hrest]⟩] at h
    cases h

/-- From a place of the text on, behind the blanks there: the scanner accepts just the comments, each up
to its end and with none left open. If a comment is opened that does not end, it comes to the end of the
text inside of it. Nothing of this depends on the depth before, which is let be if no comment is opened.
The depth keeps within 32 bits if the length of the text does. -/
theorem scan_comment :
    (∀ depth, (scan depth (.ofText text position) valid).1 = true ↔
      ∃ after, Comment (rest.dropWhile isBlank) after) ∧
    (∀ after, Comment (rest.dropWhile isBlank) after →
      ∃ c, (∀ depth, scan depth (.ofText text position) valid = (true, c, 0)) ∧
        c.tokenStart = position + byteLength (rest.takeWhile isBlank) ∧
        suffix? text c.tokenEnd = some after ∧ c.position = c.tokenEnd ∧ c.resultSymbol = 0) ∧
    (∀ body, rest.dropWhile isBlank = '/' :: '*' :: body →
      (∀ after, ¬Comment (rest.dropWhile isBlank) after) →
      ∃ c inside, (∀ depth, scan depth (.ofText text position) valid = (false, c, inside)) ∧
        c.position = byteLength text ∧ 1 ≤ inside) ∧
    ((∀ body, rest.dropWhile isBlank ≠ '/' :: '*' :: body) →
      ∃ c, ∀ depth, scan depth (.ofText text position) valid = (false, c, depth)) ∧
    (byteLength text < UInt32.size → ∀ depth : UInt32,
      scanWord depth (.ofText text position) valid =
        some (scan depth.toNat (.ofText text position) valid)) := by
  refine ⟨fun depth => ⟨exists_comment_of_scan hrest hvalid, fun ⟨after, h⟩ => ?_⟩,
    fun after => scan_of_comment hrest hvalid, fun body => scan_of_unclosed hrest hvalid,
    fun h => ⟨_, scan_of_not_opening hvalid ((rest_ofText hrest).symm ▸ h)⟩, fun hlen depth => ?_⟩
  · obtain ⟨c, hc, -⟩ := scan_of_comment hrest hvalid h
    rw [hc depth]
  · refine scanWord_eq hvalid ?_
    have hle := length_le_byteLength rest
    have hsum := add_byteLength_suffix hrest
    rw [rest_ofText hrest]
    omega

end

end

/-- A comment in a comment, and a line in it that hides a closing. -/
def nestedComment : List Char := " /*/*//*/\r*/*/x".toList

theorem scan_comment_nested : suffix? nestedComment 0 = some nestedComment ∧
    [true].head? = some true ∧ Comment (nestedComment.dropWhile isBlank) ['x'] ∧
    ∃ c, (∀ depth, scan depth (.ofText nestedComment 0) [true] = (true, c, 0)) ∧ c.tokenStart = 1 ∧
      suffix? nestedComment c.tokenEnd = some ['x'] := by
  have hcomment : Comment (nestedComment.dropWhile isBlank) ['x'] :=
    comment_iff_readBody.2 (by decide +kernel)
  obtain ⟨-, haccepts, -⟩ := scan_comment
    (show suffix? nestedComment 0 = some nestedComment from rfl)
    (show [true].head? = some true from rfl)
  obtain ⟨c, hscan, hstart, hend, -⟩ := haccepts ['x'] hcomment
  exact ⟨rfl, rfl, hcomment, c, hscan, hstart, hend⟩

end Candid.BlockComment

end EarleyTree

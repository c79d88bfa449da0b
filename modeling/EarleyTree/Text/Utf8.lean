/-!
Strict UTF-8: shortest forms only, no surrogates, nothing above U+10FFFF.
-/
namespace EarleyTree.Text.Utf8

def isTail (b : Nat) : Bool := 0x80 ≤ b && b < 0xc0

def one? (a : Nat) : Option Char := if a < 0x80 then some (Char.ofNat a) else none

def two? (a b : Nat) : Option Char :=
  if 0xc2 ≤ a ∧ a < 0xe0 ∧ isTail b then some (Char.ofNat ((a - 0xc0) * 64 + (b - 0x80))) else none

def three? (a b c : Nat) : Option Char :=
  let n := (a - 0xe0) * 4096 + (b - 0x80) * 64 + (c - 0x80)
  if 0xe0 ≤ a ∧ a < 0xf0 ∧ isTail b ∧ isTail c ∧ 0x800 ≤ n ∧ (n < 0xd800 ∨ 0xdfff < n) then
    some (Char.ofNat n)
  else none

def four? (a b c d : Nat) : Option Char :=
  let n := (a - 0xf0) * 262144 + (b - 0x80) * 4096 + (c - 0x80) * 64 + (d - 0x80)
  if 0xf0 ≤ a ∧ a < 0xf8 ∧ isTail b ∧ isTail c ∧ isTail d ∧ 0x10000 ≤ n ∧ n < 0x110000 then
    some (Char.ofNat n)
  else none

/-- Decodes bytes that begin at offset `n`; an error is the offset of the first byte that does not
begin a character. -/
def decodeFrom (n : Nat) (bytes : List Nat) : Except Nat (List Char) :=
  match bytes with
  | [] => .ok []
  | a :: bytes =>
    match one? a with
    | some ch => (decodeFrom (n + 1) bytes).map (ch :: ·)
    | none =>
      match bytes with
      | [] => .error n
      | b :: bytes =>
        match two? a b with
        | some ch => (decodeFrom (n + 2) bytes).map (ch :: ·)
        | none =>
          match bytes with
          | [] => .error n
          | c :: bytes =>
            match three? a b c with
            | some ch => (decodeFrom (n + 3) bytes).map (ch :: ·)
            | none =>
              match bytes with
              | [] => .error n
              | d :: bytes =>
                match four? a b c d with
                | some ch => (decodeFrom (n + 4) bytes).map (ch :: ·)
                | none => .error n

def decode (bytes : List Nat) : Except Nat (List Char) := decodeFrom 0 bytes

def encodeChar (c : Char) : List Nat :=
  let n := c.toNat
  if n < 0x80 then [n]
  else if n < 0x800 then [n / 64 + 0xc0, n % 64 + 0x80]
  else if n < 0x10000 then [n / 4096 + 0xe0, n / 64 % 64 + 0x80, n % 64 + 0x80]
  else [n / 262144 + 0xf0, n / 4096 % 64 + 0x80, n / 64 % 64 + 0x80, n % 64 + 0x80]

def encode (text : List Char) : List Nat := text.flatMap encodeChar

end EarleyTree.Text.Utf8

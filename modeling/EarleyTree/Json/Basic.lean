/-!
JSON documents: values and their reader, and the compact written form.
-/
namespace EarleyTree

inductive Json
  | null
  | bool (b : Bool)
  | int (n : Int)
  /-- A number with a fraction or an exponent. -/
  | real
  | str (s : String)
  | arr (items : List Json)
  | obj (fields : List (String × Json))
  deriving Repr, Inhabited

namespace Json

def isSpace (c : Char) : Bool := c == ' ' || c == '\t' || c == '\n' || c == '\r'

def skipSpace (cs : List Char) : List Char := cs.dropWhile isSpace

def hexDigit? (c : Char) : Option Nat :=
  if c.isDigit then some (c.toNat - 48)
  else if 'a' ≤ c ∧ c ≤ 'f' then some (c.toNat - 87)
  else if 'A' ≤ c ∧ c ≤ 'F' then some (c.toNat - 55)
  else none

def readHex4 : List Char → Option (Nat × List Char)
  | a :: b :: c :: d :: rest => do
    let digits ← [a, b, c, d].mapM hexDigit?
    return (digits.foldl (fun n d => n * 16 + d) 0, rest)
  | _ => none

/-- The character of a `\u` escape, from behind the letter. The halves of a surrogate pair stand
next to each other. -/
def readUnicodeEscape (cs : List Char) : Option (Char × List Char) := do
  let (n, rest) ← readHex4 cs
  if n < 0xd800 ∨ 0xdfff < n then return (Char.ofNat n, rest)
  match rest with
  | '\\' :: 'u' :: rest =>
    let (m, rest) ← readHex4 rest
    if n < 0xdc00 ∧ 0xdc00 ≤ m ∧ m ≤ 0xdfff then
      return (Char.ofNat (0x10000 + (n - 0xd800) * 1024 + (m - 0xdc00)), rest)
    else none
  | _ => none

def simpleEscape? : Char → Option Char
  | '"' => some '"'
  | '\\' => some '\\'
  | '/' => some '/'
  | 'b' => some '\x08'
  | 'f' => some '\x0c'
  | 'n' => some '\n'
  | 'r' => some '\r'
  | 't' => some '\t'
  | _ => none

/-- Reads the contents of a string and its closing quote; the number counts characters that are used
up already. -/
def readString : List Char → Nat → Option (List Char × List Char)
  | [], _ => none
  | _ :: cs, n + 1 => readString cs n
  | '"' :: cs, 0 => some ([], cs)
  | '\\' :: cs, 0 =>
    match cs with
    | 'u' :: rest =>
      match readUnicodeEscape rest with
      | some (c, behind) =>
        (readString cs (cs.length - behind.length)).map fun (s, r) => (c :: s, r)
      | none => none
    | c :: _ =>
      match simpleEscape? c with
      | some c => (readString cs 1).map fun (s, r) => (c :: s, r)
      | none => none
    | [] => none
  | c :: cs, 0 => (readString cs 0).map fun (s, r) => (c :: s, r)

def isNumberChar (c : Char) : Bool := c.isDigit || "+-.eE".toList.contains c

def isReal (cs : List Char) : Bool :=
  let whole := cs.takeWhile Char.isDigit
  let rest := cs.dropWhile Char.isDigit
  let (fraction, rest) := match rest with
    | '.' :: rest => (rest.takeWhile Char.isDigit, rest.dropWhile Char.isDigit)
    | _ => ([], rest)
  let exponentOk := match rest with
    | [] => true
    | e :: '+' :: digits | e :: '-' :: digits | e :: digits =>
      (e == 'e' || e == 'E') && !digits.isEmpty && digits.all Char.isDigit
  !(whole.isEmpty && fraction.isEmpty) && exponentOk

def number? (cs : List Char) : Option Json :=
  let (negative, digits) := match cs with
    | '-' :: digits => (true, digits)
    | _ => (false, cs)
  if !digits.isEmpty && digits.all Char.isDigit then
    let n : Nat := digits.foldl (fun n c => n * 10 + (c.toNat - 48)) 0
    some (int (if negative then -(n : Int) else n))
  else if isReal digits then some real
  else none

def readWord (word : String) (value : Json) (cs : List Char) : Option (Json × List Char) :=
  if word.toList.isPrefixOf cs then some (value, cs.drop word.length) else none

mutual

def readValue : Nat → List Char → Option (Json × List Char)
  | 0, _ => none
  | fuel + 1, cs =>
    match skipSpace cs with
    | '"' :: rest => (readString rest 0).map fun (s, rest) => (str (String.ofList s), rest)
    | '[' :: rest =>
      match skipSpace rest with
      | ']' :: rest => some (arr [], rest)
      | _ => (readItems fuel rest).map fun (items, rest) => (arr items, rest)
    | '\x7b' :: rest =>
      match skipSpace rest with
      | '\x7d' :: rest => some (obj [], rest)
      | _ => (readFields fuel rest).map fun (fields, rest) => (obj fields, rest)
    | 't' :: rest => readWord "rue" (bool true) rest
    | 'f' :: rest => readWord "alse" (bool false) rest
    | 'n' :: rest => readWord "ull" null rest
    | c :: rest =>
      if c.isDigit || c == '-' then
        (number? (c :: rest.takeWhile isNumberChar)).map (·, rest.dropWhile isNumberChar)
      else none
    | [] => none

def readItems : Nat → List Char → Option (List Json × List Char)
  | 0, _ => none
  | fuel + 1, cs =>
    match readValue fuel cs with
    | none => none
    | some (item, rest) =>
      match skipSpace rest with
      | ',' :: rest => (readItems fuel rest).map fun (items, rest) => (item :: items, rest)
      | ']' :: rest => some ([item], rest)
      | _ => none

def readFields : Nat → List Char → Option (List (String × Json) × List Char)
  | 0, _ => none
  | fuel + 1, cs =>
    match skipSpace cs with
    | '"' :: rest =>
      match readString rest 0 with
      | none => none
      | some (name, rest) =>
        match skipSpace rest with
        | ':' :: rest =>
          match readValue fuel rest with
          | none => none
          | some (value, rest) =>
            match skipSpace rest with
            | ',' :: rest =>
              (readFields fuel rest).map fun (fields, rest) =>
                ((String.ofList name, value) :: fields, rest)
            | '\x7d' :: rest => some ([(String.ofList name, value)], rest)
            | _ => none
        | _ => none
    | _ => none

end

/-- The first value in a text; what follows it is not looked at. -/
def read? (text : List Char) : Option Json := (readValue (2 * text.length + 2) text).map (·.1)

def hexChar (n : Nat) : Char := Char.ofNat (if n < 10 then n + 48 else n + 87)

def escapeChar (c : Char) : List Char :=
  match c with
  | '"' => ['\\', '"']
  | '\\' => ['\\', '\\']
  | '\n' => ['\\', 'n']
  | '\r' => ['\\', 'r']
  | '\t' => ['\\', 't']
  | '\x08' => ['\\', 'b']
  | '\x0c' => ['\\', 'f']
  | c =>
    if c.toNat < 32 || c.toNat == 127 then
      ['\\', 'u', '0', '0', hexChar (c.toNat / 16), hexChar (c.toNat % 16)]
    else [c]

def quote (s : String) : String := String.ofList ('"' :: s.toList.flatMap escapeChar ++ ['"'])

/-- An object of fields whose values are written already. -/
def writeObject (fields : List (String × String)) : String :=
  "\x7b" ++ ",".intercalate (fields.map fun (name, value) => quote name ++ ":" ++ value) ++ "\x7d"

def writeArray (items : List String) : String := "[" ++ ",".intercalate items ++ "]"

def writeBool (b : Bool) : String := if b then "true" else "false"

end Json

end EarleyTree

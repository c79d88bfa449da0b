import EarleyTree.Text.Category
import EarleyTree.Text.CodeRange

/-!
Texts written between quotes with the characters escaped that would not show.
-/
namespace EarleyTree.Text

/-- The code point in braces behind `\u`. -/
def unicodeEscape (c : Char) : List Char :=
  ['\\', 'u', '\x7b'] ++ Nat.toDigits 16 c.toNat ++ ['\x7d']

/-- Everything but printable ASCII is escaped, and both kinds of quotes are. -/
def escapeAscii (c : Char) : List Char :=
  match c with
  | '\t' => ['\\', 't']
  | '\r' => ['\\', 'r']
  | '\n' => ['\\', 'n']
  | '\'' => ['\\', '\'']
  | '"' => ['\\', '"']
  | '\\' => ['\\', '\\']
  | c => if 0x20 ≤ c.toNat ∧ c.toNat < 0x7f then [c] else unicodeEscape c

/-- The characters that join the one before them without being nonspacing or enclosing marks. -/
def joiningRanges : CodeRanges :=
  [(0x9be, 0x9be), (0x9d7, 0x9d7), (0xb3e, 0xb3e), (0xb57, 0xb57), (0xbbe, 0xbbe), (0xbd7, 0xbd7),
    (0xcc2, 0xcc2), (0xcd5, 0xcd6), (0xd3e, 0xd3e), (0xd57, 0xd57), (0xdcf, 0xdcf), (0xddf, 0xddf),
    (0x1b35, 0x1b35), (0x302e, 0x302f), (0xff9e, 0xff9f), (0x1133e, 0x1133e), (0x11357, 0x11357),
    (0x114b0, 0x114b0), (0x114bd, 0x114bd), (0x115af, 0x115af), (0x11930, 0x11930),
    (0x1d165, 0x1d165), (0x1d16e, 0x1d172)]

/-- Characters without an image of their own: controls, separators other than the space, unassigned
ones, and those that join the character before them. -/
def isInvisible (c : Char) : Bool :=
  match categoryOf c.toNat with
  | .cc | .cf | .cs | .co | .cn | .zl | .zp | .mn | .me => true
  | .zs => c != ' '
  | _ => joiningRanges.contains c.toNat

def escapeInvisible (c : Char) : List Char :=
  match c with
  | '\x00' => ['\\', '0']
  | '\t' => ['\\', 't']
  | '\r' => ['\\', 'r']
  | '\n' => ['\\', 'n']
  | '"' => ['\\', '"']
  | '\\' => ['\\', '\\']
  | c => if isInvisible c then unicodeEscape c else [c]

def quoted (s : String) : String :=
  String.ofList ('"' :: s.toList.flatMap escapeInvisible ++ ['"'])

end EarleyTree.Text

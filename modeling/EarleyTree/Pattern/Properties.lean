import EarleyTree.Pattern.CharSet

/-!
Sets of characters that a pattern names by a property: general categories, the common binary
properties and the scripts in the table below. There are no tables for other scripts, script extensions,
ages, emoji, and the classes of breaks between graphemes, words and sentences: a pattern that names one
of these is refused here, and so is the grammar it stands in.
-/
namespace EarleyTree.Pattern.Property

def ofCategories (cs : List Text.Category) : CharSet :=
  cs.foldr (fun c s => .union (.category c) s) .none

def letters : List Text.Category := [.lu, .ll, .lt, .lm, .lo]

def categories : List (List String × CharSet) :=
  [(["lu", "uppercaseletter"], .category .lu), (["ll", "lowercaseletter"], .category .ll),
    (["lt", "titlecaseletter"], .category .lt), (["lm", "modifierletter"], .category .lm),
    (["lo", "otherletter"], .category .lo), (["lc", "casedletter"], ofCategories [.lu, .ll, .lt]),
    (["l", "letter"], ofCategories letters), (["mn", "nonspacingmark"], .category .mn),
    (["mc", "spacingmark"], .category .mc), (["me", "enclosingmark"], .category .me),
    (["m", "mark", "combiningmark"], ofCategories [.mn, .mc, .me]),
    (["nd", "decimalnumber", "digit"], .category .nd), (["nl", "letternumber"], .category .nl),
    (["no", "othernumber"], .category .no), (["n", "number"], ofCategories [.nd, .nl, .no]),
    (["pc", "connectorpunctuation"], .category .pc), (["pd", "dashpunctuation"], .category .pd),
    (["ps", "openpunctuation"], .category .ps), (["pe", "closepunctuation"], .category .pe),
    (["pi", "initialpunctuation"], .category .pi), (["pf", "finalpunctuation"], .category .pf),
    (["po", "otherpunctuation"], .category .po),
    (["p", "punctuation", "punct"], ofCategories [.pc, .pd, .ps, .pe, .pi, .pf, .po]),
    (["sm", "mathsymbol"], .category .sm), (["sc", "currencysymbol"], .category .sc),
    (["sk", "modifiersymbol"], .category .sk), (["so", "othersymbol"], .category .so),
    (["s", "symbol"], ofCategories [.sm, .sc, .sk, .so]),
    (["zs", "spaceseparator"], .category .zs), (["zl", "lineseparator"], .category .zl),
    (["zp", "paragraphseparator"], .category .zp),
    (["z", "separator"], ofCategories [.zs, .zl, .zp]), (["cc", "control", "cntrl"], .category .cc),
    (["cf", "format"], .category .cf), (["co", "privateuse"], .category .co),
    (["cn", "unassigned"], .category .cn), (["c", "other"], ofCategories [.cc, .cf, .co, .cn]),
    (["any"], .compl .none), (["assigned"], .compl (.category .cn)), (["ascii"], .range 0 127)]

def uppercase : CharSet :=
  .union (.category .lu) (.ofRanges [(0x2160, 0x216f), (0x24b6, 0x24cf), (0x1f130, 0x1f149),
    (0x1f150, 0x1f169), (0x1f170, 0x1f189)])

def lowercase : CharSet :=
  .union (.category .ll) (.ofRanges [(0xaa, 0xaa), (0xba, 0xba), (0x2b0, 0x2b8), (0x2c0, 0x2c1),
    (0x2e0, 0x2e4), (0x345, 0x345), (0x37a, 0x37a), (0x10fc, 0x10fc), (0x1d2c, 0x1d6a),
    (0x1d78, 0x1d78), (0x1d9b, 0x1dbf), (0x2071, 0x2071), (0x207f, 0x207f), (0x2090, 0x209c),
    (0x2170, 0x217f), (0x24d0, 0x24e9), (0x2c7c, 0x2c7d), (0xa69c, 0xa69d), (0xa770, 0xa770),
    (0xa7f2, 0xa7f4), (0xa7f8, 0xa7f9), (0xab5c, 0xab5f), (0xab69, 0xab69), (0x10780, 0x10780),
    (0x10783, 0x10785), (0x10787, 0x107b0), (0x107b2, 0x107ba), (0x1e030, 0x1e06d)])

def idStart : CharSet :=
  .diff
    (.union (ofCategories (.nl :: letters))
      (.ofRanges [(0x1885, 0x1886), (0x2118, 0x2118), (0x212e, 0x212e), (0x309b, 0x309c)]))
    (.range 0x2e2f 0x2e2f)

def idContinue : CharSet :=
  .union (.union idStart (ofCategories [.mn, .mc, .nd, .pc]))
    (.ofRanges [(0xb7, 0xb7), (0x387, 0x387), (0x1369, 0x1371), (0x19da, 0x19da)])

/-- The characters that would not stay in identifiers under normalisation. -/
def unstable : CharSet :=
  .ofRanges [(0x37a, 0x37a), (0x309b, 0x309c), (0xfc5e, 0xfc63), (0xfdfa, 0xfdfb), (0xfe70, 0xfe70),
    (0xfe72, 0xfe72), (0xfe74, 0xfe74), (0xfe76, 0xfe76), (0xfe78, 0xfe78), (0xfe7a, 0xfe7a),
    (0xfe7c, 0xfe7c), (0xfe7e, 0xfe7e)]

def unstableStart : CharSet :=
  .union unstable (.ofRanges [(0xe33, 0xe33), (0xeb3, 0xeb3), (0xff9e, 0xff9f)])

def hexDigits : List (Nat × Nat) := [(48, 57), (65, 70), (97, 102)]

def binary : List (List String × CharSet) :=
  [(["alphabetic", "alpha"], .alphabetic), (["uppercase", "upper"], uppercase),
    (["lowercase", "lower"], lowercase), (["whitespace", "wspace", "space"], .blank),
    (["idstart", "ids"], idStart), (["idcontinue", "idc"], idContinue),
    (["xidstart", "xids"], .diff idStart unstableStart),
    (["xidcontinue", "xidc"], .diff idContinue unstable),
    (["asciihexdigit", "ahex"], .ofRanges hexDigits),
    (["hexdigit", "hex"],
      .ofRanges (hexDigits ++ [(0xff10, 0xff19), (0xff21, 0xff26), (0xff41, 0xff46)]))]

def scripts : List (List String × CharSet) :=
  [(["latin", "latn"], .ofRanges [(0x41, 0x5a), (0x61, 0x7a), (0xaa, 0xaa), (0xba, 0xba),
      (0xc0, 0xd6), (0xd8, 0xf6), (0xf8, 0x2b8), (0x2e0, 0x2e4), (0x1d00, 0x1d25),
      (0x1d2c, 0x1d5c), (0x1d62, 0x1d65), (0x1d6b, 0x1d77), (0x1d79, 0x1dbe), (0x1e00, 0x1eff),
      (0x2071, 0x2071), (0x207f, 0x207f), (0x2090, 0x209c), (0x212a, 0x212b), (0x2132, 0x2132),
      (0x214e, 0x214e), (0x2160, 0x2188), (0x2c60, 0x2c7f), (0xa722, 0xa787), (0xa78b, 0xa7cd),
      (0xa7d0, 0xa7d1), (0xa7d3, 0xa7d3), (0xa7d5, 0xa7dc), (0xa7f2, 0xa7ff), (0xab30, 0xab5a),
      (0xab5c, 0xab64), (0xab66, 0xab69), (0xfb00, 0xfb06), (0xff21, 0xff3a), (0xff41, 0xff5a),
      (0x10780, 0x10785), (0x10787, 0x107b0), (0x107b2, 0x107ba), (0x1df00, 0x1df1e),
      (0x1df25, 0x1df2a)]),
    (["greek", "grek"], .ofRanges [(0x370, 0x373), (0x375, 0x377), (0x37a, 0x37d), (0x37f, 0x37f),
      (0x384, 0x384), (0x386, 0x386), (0x388, 0x38a), (0x38c, 0x38c), (0x38e, 0x3a1),
      (0x3a3, 0x3e1), (0x3f0, 0x3ff), (0x1d26, 0x1d2a), (0x1d5d, 0x1d61), (0x1d66, 0x1d6a),
      (0x1dbf, 0x1dbf), (0x1f00, 0x1f15), (0x1f18, 0x1f1d), (0x1f20, 0x1f45), (0x1f48, 0x1f4d),
      (0x1f50, 0x1f57), (0x1f59, 0x1f59), (0x1f5b, 0x1f5b), (0x1f5d, 0x1f5d), (0x1f5f, 0x1f7d),
      (0x1f80, 0x1fb4), (0x1fb6, 0x1fc4), (0x1fc6, 0x1fd3), (0x1fd6, 0x1fdb), (0x1fdd, 0x1fef),
      (0x1ff2, 0x1ff4), (0x1ff6, 0x1ffe), (0x2126, 0x2126), (0xab65, 0xab65), (0x10140, 0x1018e),
      (0x101a0, 0x101a0), (0x1d200, 0x1d245)]),
    (["cyrillic", "cyrl"], .ofRanges [(0x400, 0x484), (0x487, 0x52f), (0x1c80, 0x1c8a),
      (0x1d2b, 0x1d2b), (0x1d78, 0x1d78), (0x2de0, 0x2dff), (0xa640, 0xa69f), (0xfe2e, 0xfe2f),
      (0x1e030, 0x1e06d), (0x1e08f, 0x1e08f)]),
    (["hebrew", "hebr"], .ofRanges [(0x591, 0x5c7), (0x5d0, 0x5ea), (0x5ef, 0x5f4),
      (0xfb1d, 0xfb36), (0xfb38, 0xfb3c), (0xfb3e, 0xfb3e), (0xfb40, 0xfb41), (0xfb43, 0xfb44),
      (0xfb46, 0xfb4f)]),
    (["thai"], .ofRanges [(0xe01, 0xe3a), (0xe40, 0xe5b)]),
    (["hangul", "hang"], .ofRanges [(0x1100, 0x11ff), (0x302e, 0x302f), (0x3131, 0x318e),
      (0x3200, 0x321e), (0x3260, 0x327e), (0xa960, 0xa97c), (0xac00, 0xd7a3), (0xd7b0, 0xd7c6),
      (0xd7cb, 0xd7fb), (0xffa0, 0xffbe), (0xffc2, 0xffc7), (0xffca, 0xffcf), (0xffd2, 0xffd7),
      (0xffda, 0xffdc)]),
    (["hiragana", "hira"], .ofRanges [(0x3041, 0x3096), (0x309d, 0x309f), (0x1b001, 0x1b11f),
      (0x1b132, 0x1b132), (0x1b150, 0x1b152), (0x1f200, 0x1f200)]),
    (["katakana", "kana"], .ofRanges [(0x30a1, 0x30fa), (0x30fd, 0x30ff), (0x31f0, 0x31ff),
      (0x32d0, 0x32fe), (0x3300, 0x3357), (0xff66, 0xff6f), (0xff71, 0xff9d), (0x1aff0, 0x1aff3),
      (0x1aff5, 0x1affb), (0x1affd, 0x1affe), (0x1b000, 0x1b000), (0x1b120, 0x1b122),
      (0x1b155, 0x1b155), (0x1b164, 0x1b167)]),
    (["han", "hani"], .ofRanges [(0x2e80, 0x2e99), (0x2e9b, 0x2ef3), (0x2f00, 0x2fd5),
      (0x3005, 0x3005), (0x3007, 0x3007), (0x3021, 0x3029), (0x3038, 0x303b), (0x3400, 0x4dbf),
      (0x4e00, 0x9fff), (0xf900, 0xfa6d), (0xfa70, 0xfad9), (0x16fe2, 0x16fe3),
      (0x16ff0, 0x16ff1), (0x20000, 0x2a6df), (0x2a700, 0x2b739), (0x2b740, 0x2b81d),
      (0x2b820, 0x2cea1), (0x2ceb0, 0x2ebe0), (0x2ebf0, 0x2ee5d), (0x2f800, 0x2fa1d),
      (0x30000, 0x3134a), (0x31350, 0x323af)])]

/-- Case, blanks, hyphens and underscores do not count in a name, nor does `is` in front of it; only
`isc` is the name of a property, and not of the category `c`. -/
def normalize (name : List Char) : String :=
  let (led, name) := match name with
    | i :: s :: rest =>
      if i.toLower == 'i' && s.toLower == 's' then (true, rest) else (false, name)
    | _ => (false, name)
  let name := (name.filter fun c => c.toNat < 128 && !" _-".toList.contains c).map Char.toLower
  if led && name == ['c'] then "isc" else String.ofList name

def find? (sets : List (List String × CharSet)) (name : List Char) : Option CharSet :=
  (sets.find? fun (names, _) => names.contains (normalize name)).map (·.2)

def named? (name : List Char) : Option CharSet :=
  ((find? binary name).or (find? categories name)).or (find? scripts name)

/-- The characters for which a property has the given value. -/
def valued? (property value : List Char) : Option CharSet :=
  match normalize property with
  | "gc" | "generalcategory" => find? categories value
  | "sc" | "script" => find? scripts value
  | _ => none

/-- What stands before and behind the first occurrence of a mark. -/
def cutAt? (mark : List Char) : List Char → Option (List Char × List Char)
  | [] => none
  | c :: cs =>
    if mark.isPrefixOf (c :: cs) then some ([], (c :: cs).drop mark.length)
    else (cutAt? mark cs).map fun (before, behind) => (c :: before, behind)

/-- Reads what stands in braces: a name, or a property and its value; `!=` negates. -/
def read? (text : List Char) : Option (Bool × CharSet) :=
  match cutAt? ['!', '='] text, cutAt? [':'] text, cutAt? ['='] text with
  | some (property, value), _, _ => (valued? property value).map (true, ·)
  | none, some (property, value), _ | none, none, some (property, value) =>
    (valued? property value).map (false, ·)
  | none, none, none => (named? text).map (false, ·)

end EarleyTree.Pattern.Property

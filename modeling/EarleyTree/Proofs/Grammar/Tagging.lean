import EarleyTree.Grammar.Document
import Mathlib.Data.List.Basic

/-!
Documents are tagged before they are decoded. Whatever the layout of a well-formed document, the strings
and integers that a key `value` has for a value are wrapped, and all other tokens stay as they are.
-/
namespace EarleyTree

namespace Json

/-- What may stand between the quotes of a string. -/
inductive StringBody : List Char → Prop
  | nil : StringBody []
  | plain {c : Char} {cs : List Char} (hq : c ≠ '"') (hb : c ≠ '\\') (hc : 0x20 ≤ c.toNat)
      (h : StringBody cs) : StringBody (c :: cs)
  | escape {c : Char} {cs : List Char} (hc : (simpleEscape? c).isSome) (h : StringBody cs) :
      StringBody ('\\' :: c :: cs)
  | unicode {a b c d : Char} {cs : List Char} (hex : ∀ x ∈ [a, b, c, d], (hexDigit? x).isSome)
      (h : StringBody cs) : StringBody ('\\' :: 'u' :: a :: b :: c :: d :: cs)

structure StringToken where
  body : List Char
  valid : StringBody body

def StringToken.chars (s : StringToken) : List Char := '"' :: (s.body ++ ['"'])

def IsDigits (cs : List Char) : Prop := cs ≠ [] ∧ cs.all Char.isDigit = true

instance (cs : List Char) : Decidable (IsDigits cs) := inferInstanceAs (Decidable (_ ∧ _))

inductive Fraction : List Char → Prop
  | none : Fraction []
  | digits {ds : List Char} (h : IsDigits ds) : Fraction ('.' :: ds)

inductive Exponent : List Char → Prop
  | none : Exponent []
  | digits {letter : Char} {sign ds : List Char} (hl : letter ∈ ['e', 'E'])
      (hs : sign ∈ [[], ['+'], ['-']]) (h : IsDigits ds) : Exponent (letter :: (sign ++ ds))

structure NumberToken where
  sign : List Char
  whole : List Char
  fraction : List Char
  exponent : List Char
  sign_valid : sign ∈ [[], ['-']]
  whole_valid : IsDigits whole
  /-- A whole part of several digits does not begin with a zero. -/
  zero_valid : whole.head? = some '0' → whole = ['0']
  fraction_valid : Fraction fraction
  exponent_valid : Exponent exponent

namespace NumberToken

variable (n : NumberToken)

def chars : List Char := n.sign ++ (n.whole ++ (n.fraction ++ n.exponent))

def IsInteger : Prop := n.fraction = [] ∧ n.exponent = []

end NumberToken

inductive Token
  | openArray
  | closeArray
  | openObject
  | closeObject
  | colon
  | comma
  | null
  | bool (b : Bool)
  | number (n : NumberToken)
  | string (s : StringToken)

def Token.chars : Token → List Char
  | openArray => ['[']
  | closeArray => [']']
  | openObject => ['\x7b']
  | closeObject => ['\x7d']
  | colon => [':']
  | comma => [',']
  | null => ['n', 'u', 'l', 'l']
  | bool true => ['t', 'r', 'u', 'e']
  | bool false => ['f', 'a', 'l', 's', 'e']
  | number n => n.chars
  | string s => s.chars

/-- The text consists of the tokens, with any layout around them. -/
inductive Spells : List Token → List Char → Prop
  | nil {blanks : List Char} (hb : ∀ c ∈ blanks, isSpace c = true) : Spells [] blanks
  | cons {t : Token} {ts : List Token} {blanks rest : List Char} (hb : ∀ c ∈ blanks, isSpace c = true)
      (h : Spells ts rest) : Spells (t :: ts) (blanks ++ (t.chars ++ rest))

/-- A document with its tokens. -/
inductive Value
  | null
  | bool (b : Bool)
  | number (n : NumberToken)
  | string (s : StringToken)
  | array (items : List Value)
  | object (members : List (StringToken × Value))

mutual

def Value.tokens : Value → List Token
  | .null => [.null]
  | .bool b => [.bool b]
  | .number n => [.number n]
  | .string s => [.string s]
  | .array [] => [.openArray, .closeArray]
  | .array (v :: vs) => .openArray :: (v.tokens ++ itemTokens vs)
  | .object [] => [.openObject, .closeObject]
  | .object ((k, v) :: ms) => .openObject :: .string k :: .colon :: (v.tokens ++ memberTokens ms)

/-- What follows an item of an array: the items behind it, and the end of the array. -/
def itemTokens : List Value → List Token
  | [] => [.closeArray]
  | v :: vs => .comma :: (v.tokens ++ itemTokens vs)

def memberTokens : List (StringToken × Value) → List Token
  | [] => [.closeObject]
  | (k, v) :: ms => .comma :: .string k :: .colon :: (v.tokens ++ memberTokens ms)

end

def isPlain (c : Char) : Bool := c != '"' && c != '\\' && 0x20 ≤ c.toNat

theorem stringBody_of_all {cs : List Char} (h : cs.all isPlain = true) : StringBody cs := by
  induction cs with
  | nil => exact .nil
  | cons c cs ih =>
      rw [List.all_cons, Bool.and_eq_true] at h
      obtain ⟨hc, h⟩ := h
      simp only [isPlain, Bool.and_eq_true, bne_iff_ne, decide_eq_true_eq] at hc
      exact .plain hc.1.1 hc.1.2 hc.2 (ih h)

theorem StringBody.append {cs ds : List Char} (h : StringBody cs) (h' : StringBody ds) :
    StringBody (cs ++ ds) := by
  induction h with
  | nil => exact h'
  | plain hq hb hc _ ih => exact .plain hq hb hc ih
  | escape hc _ ih => exact .escape hc ih
  | unicode hex _ ih => exact .unicode hex ih

def valueToken : StringToken := ⟨"value".toList, stringBody_of_all (by decide)⟩

def stringTag : StringToken := ⟨"String".toList, stringBody_of_all (by decide)⟩

def integerTag : StringToken := ⟨"Integer".toList, stringBody_of_all (by decide)⟩

/-- The key is spelled `value`, letter by letter. -/
def StringToken.isValue (k : StringToken) : Bool := k.body == "value".toList

/-- A string or number under its tag. -/
def Value.wrapped? : Value → Option Value
  | .string s => some (.object [(stringTag, .string s)])
  | .number n => some (.object [(integerTag, .number n)])
  | _ => none

mutual

/-- Wraps each string and number that is the value of a key `value`. -/
def Value.tagged : Value → Value
  | .array items => .array (taggedItems items)
  | .object members => .object (taggedMembers members)
  | v => v

def taggedItems : List Value → List Value
  | [] => []
  | v :: vs => v.tagged :: taggedItems vs

def taggedMembers : List (StringToken × Value) → List (StringToken × Value)
  | [] => []
  | (k, v) :: ms =>
    (k, (if k.isValue then v.wrapped? else none).getD v.tagged) :: taggedMembers ms

end

def Value.IsIntegral : Value → Prop
  | .number n => n.IsInteger
  | _ => True

mutual

/-- Numbers that are values of a key `value` are integers. -/
def Value.Levelled : Value → Prop
  | .array items => LevelledItems items
  | .object members => LevelledMembers members
  | _ => True

def LevelledItems : List Value → Prop
  | [] => True
  | v :: vs => v.Levelled ∧ LevelledItems vs

def LevelledMembers : List (StringToken × Value) → Prop
  | [] => True
  | (k, v) :: ms => (k.isValue = true → v.IsIntegral) ∧ v.Levelled ∧ LevelledMembers ms

end

end Json

namespace Tagging

open Json Text

variable {cs rest body : List Char} {c : Char}

theorem stringRest_plain (hq : c ≠ '"') (hb : c ≠ '\\') :
    stringRest (c :: cs) = (stringRest cs).map fun (s, rest) => (c :: s, rest) := by
  rw [stringRest]
  · simp [hb]
  · exact fun h => hq h
  · exact fun _ _ h _ => hb h

theorem stringRest_body (h : StringBody body) (rest : List Char) :
    stringRest (body ++ '"' :: rest) = some (body ++ ['"'], rest) := by
  induction h with
  | nil => rfl
  | plain hq hb _ _ ih =>
      rw [List.cons_append, stringRest_plain hq hb, ih]
      rfl
  | @escape c cs hc _ ih =>
      have hn : c ≠ '\n' := by
        rintro rfl
        cases hc
      rw [List.cons_append, List.cons_append, stringRest, if_neg (by simpa using hn), ih]
      rfl
  | @unicode a b c d cs hex _ ih =>
      have hhex {x : Char} (hx : x ∈ [a, b, c, d]) (t : List Char) :
          stringRest (x :: t) = (stringRest t).map fun (s, rest) => (x :: s, rest) := by
        refine stringRest_plain ?_ ?_ <;> rintro rfl <;> cases hex _ hx
      simp only [List.cons_append]
      rw [stringRest, if_neg (by decide), hhex (by simp), hhex (by simp), hhex (by simp),
        hhex (by simp), ih]
      rfl

theorem stringToken?_chars (s : StringToken) (rest : List Char) :
    stringToken? (s.chars ++ rest) = some (s.chars, rest) := by
  rw [StringToken.chars, List.cons_append, List.append_assoc, stringToken?]
  have h := stringRest_body s.valid rest
  rw [← List.singleton_append] at h
  rw [h]
  rfl

theorem tagFrom_eq_drop (cs : List Char) (n : Nat) : tagFrom cs n = tagValues (cs.drop n) := by
  induction cs generalizing n with
  | nil =>
      rw [List.drop_nil, tagValues, tagFrom, tagFrom]
  | cons c cs ih =>
      cases n with
      | zero => rfl
      | succ n => exact ih n

theorem tagValues_of_token {pre out : List Char} (hne : pre ≠ [])
    (h : token? (pre ++ rest) = some (out, rest)) : tagValues (pre ++ rest) = out ++ tagValues rest := by
  obtain ⟨c, pre, rfl⟩ := List.exists_cons_of_ne_nil hne
  rw [List.cons_append] at h ⊢
  rw [tagValues, tagFrom, h]
  dsimp only
  rw [tagFrom_eq_drop, List.length_append, Nat.add_sub_cancel, List.drop_left]

theorem stringToken?_of_ne (h : c ≠ '"') : stringToken? (c :: cs) = none := by
  rw [stringToken?]
  exact fun _ he => h (List.cons.inj he).1

theorem taggedValue?_of_ne (h : c ≠ '"') : taggedValue? (c :: cs) = none := by
  rw [taggedValue?, if_neg]
  intro hp
  obtain ⟨_, hp⟩ := List.isPrefixOf_iff_prefix.1 hp
  exact h (List.cons.inj hp).1.symm

theorem token?_of_ne (h : c ≠ '"') : token? (c :: cs) = none := by
  rw [token?, taggedValue?_of_ne h, stringToken?_of_ne h]
  rfl

theorem tagValues_plain (h : '"' ∉ cs) (rest : List Char) :
    tagValues (cs ++ rest) = cs ++ tagValues rest := by
  induction cs with
  | nil => rfl
  | cons c cs ih =>
      obtain ⟨hc, hcs⟩ := not_or.1 (mt List.mem_cons.2 h)
      rw [List.cons_append, tagValues, tagFrom, token?_of_ne (Ne.symm hc), List.cons_append]
      exact congrArg _ (ih hcs)

/-- A string that spells something else is not taken for the key. -/
theorem taggedValue?_of_isValue (s : StringToken) (h : s.isValue = false) (rest : List Char) :
    taggedValue? (s.chars ++ rest) = none := by
  rw [taggedValue?, if_neg]
  intro hp
  obtain ⟨rest', hp⟩ := List.isPrefixOf_iff_prefix.1 hp
  have htokens := (stringToken?_chars valueToken rest').symm.trans
    ((congrArg stringToken? hp).trans (stringToken?_chars s rest))
  have hchars : valueToken.chars = s.chars := congrArg Prod.fst (Option.some.inj htokens)
  have hbody := List.append_cancel_right (List.cons.inj hchars).2
  rw [StringToken.isValue, ← hbody] at h
  cases h

theorem isBlank_of_isSpace (h : isSpace c = true) : isBlank c = true := by
  simp only [isSpace, Bool.or_eq_true, beq_iff_eq] at h
  obtain ((rfl | rfl) | rfl) | rfl := h <;> decide

theorem isBlank_of_isDigit (h : c.isDigit = true) : isBlank c = false := by
  obtain ⟨hlo, hhi⟩ : 48 ≤ c.toNat ∧ c.toNat ≤ 57 := by
    simpa [Char.isDigit, UInt32.le_iff_toNat_le] using h
  simp only [isBlank, blankRanges, CodeRanges.contains]
  simp [show ¬ c.toNat < 9 by omega, show ¬ c.toNat < 32 by omega, show ¬ c.toNat ≤ 13 by omega,
    show ¬ c.toNat ≤ 32 by omega, show c.toNat < 133 by omega]

theorem dropWhile_blanks_nil {blanks : List Char} (hb : ∀ c ∈ blanks, isSpace c = true) :
    blanks.dropWhile isBlank = [] := by
  have h : (blanks ++ []).dropWhile isBlank = [].dropWhile isBlank :=
    List.dropWhile_append_of_pos fun c hm => isBlank_of_isSpace (hb c hm)
  rwa [List.append_nil] at h

theorem dropWhile_blanks {blanks : List Char} (hb : ∀ c ∈ blanks, isSpace c = true)
    (hc : isBlank c = false) : (blanks ++ c :: cs).dropWhile isBlank = c :: cs := by
  rw [List.dropWhile_append_of_pos fun c hm => isBlank_of_isSpace (hb c hm),
    List.dropWhile_cons_of_neg (by simp [hc])]

theorem taggedValue?_value (rest : List Char) (h : ∀ cs, rest.dropWhile isBlank ≠ ':' :: cs) :
    taggedValue? (valueToken.chars ++ rest) = none := by
  have hkey : valueToken.chars = valueKey := rfl
  rw [hkey, taggedValue?, if_pos (List.isPrefixOf_iff_prefix.2 (List.prefix_append _ _)), List.drop_left]
  split
  · next cs heq => exact absurd heq (h cs)
  · rfl

/-- What a string or an integer that the text begins with is wrapped to, and what follows it. -/
def scalar? (cs : List Char) : Option (List Char × List Char) :=
  match stringToken? cs with
  | some (token, rest) => some (wrap "String" token, rest)
  | none => (integerToken? cs).map fun (token, rest) => (wrap "Integer" token, rest)

theorem taggedValue?_colon {blanks : List Char} (hb : ∀ c ∈ blanks, isSpace c = true)
    (rest : List Char) :
    taggedValue? (valueToken.chars ++ (blanks ++ ':' :: rest)) = scalar? (rest.dropWhile isBlank) := by
  have hkey : valueToken.chars = valueKey := rfl
  rw [hkey, taggedValue?, if_pos (List.isPrefixOf_iff_prefix.2 (List.prefix_append _ _)), List.drop_left,
    dropWhile_blanks hb (by decide)]
  rfl

/-- A number begins with a sign or a digit, and has no quotes in it. -/
theorem number_chars_eq (n : NumberToken) :
    (∃ c cs, n.chars = c :: cs ∧ (c = '-' ∨ c.isDigit = true)) ∧ '"' ∉ n.chars := by
  obtain ⟨sign, whole, fraction, exponent, hsign, ⟨hne, hdigits⟩, -, hfraction, hexponent⟩ := n
  have hquote {ds : List Char} (hds : ds.all Char.isDigit = true) : '"' ∉ ds :=
    fun hm => absurd (List.all_eq_true.1 hds '"' hm) (by decide)
  refine ⟨?_, ?_⟩
  · rw [NumberToken.chars]
    obtain rfl | rfl : sign = [] ∨ sign = ['-'] := by simpa using hsign
    · obtain ⟨c, cs, rfl⟩ := List.exists_cons_of_ne_nil hne
      exact ⟨c, _, rfl, .inr (List.all_eq_true.1 hdigits c List.mem_cons_self)⟩
    · exact ⟨'-', _, rfl, .inl rfl⟩
  · simp only [NumberToken.chars, List.mem_append, not_or]
    refine ⟨?_, hquote hdigits, ?_, ?_⟩
    · obtain rfl | rfl : sign = [] ∨ sign = ['-'] := by simpa using hsign
      · exact List.not_mem_nil
      · decide
    · cases hfraction with
      | none => exact List.not_mem_nil
      | digits h => simpa using hquote h.2
    · cases hexponent with
      | none => exact List.not_mem_nil
      | @digits letter sign ds hl hs h =>
          have hds := hquote h.2
          simp only [List.mem_cons, List.not_mem_nil, or_false] at hl hs
          obtain rfl | rfl := hl <;> obtain rfl | rfl | rfl := hs <;> simpa using hds

/-- By its first character a token is told from those of other kinds, and from layout. -/
theorem chars_eq (t : Token) : ∃ c cs, t.chars = c :: cs ∧ isBlank c = false ∧ (c = ':' → t = .colon) ∧
    (c = '"' → ∃ s, t = .string s) ∧ (c = '-' ∨ c.isDigit = true → ∃ n, t = .number n) := by
  cases t with
  | number n =>
      obtain ⟨⟨c, cs, hcs, hc⟩, -⟩ := number_chars_eq n
      refine ⟨c, cs, hcs, ?_, ?_, ?_, fun _ => ⟨n, rfl⟩⟩
      · obtain rfl | hc := hc
        · decide
        · exact isBlank_of_isDigit hc
      · rintro rfl
        simp at hc
      · rintro rfl
        simp at hc
  | string s =>
      exact ⟨'"', _, rfl, by decide, fun h => absurd h (by decide), fun _ => ⟨s, rfl⟩,
        fun h => absurd h (by decide)⟩
  | colon =>
      exact ⟨':', _, rfl, by decide, fun _ => rfl, fun h => absurd h (by decide),
        fun h => absurd h (by decide)⟩
  | bool b =>
      cases b <;> exact ⟨_, _, rfl, by decide, fun h => absurd h (by decide),
        fun h => absurd h (by decide), fun h => absurd h (by decide)⟩
  | openArray | closeArray | openObject | closeObject | comma | null =>
      exact ⟨_, _, rfl, by decide, fun h => absurd h (by decide), fun h => absurd h (by decide),
        fun h => absurd h (by decide)⟩

/-- Only strings have quotes in them. -/
theorem notMem_chars {t : Token} (h : ∀ s, t ≠ .string s) : '"' ∉ t.chars := by
  cases t with
  | bool b => cases b <;> decide
  | number n => exact (number_chars_eq n).2
  | string s => exact absurd rfl (h s)
  | openArray | closeArray | openObject | closeObject | colon | comma | null => decide

theorem integerToken?_of_ne (hc : ¬ (c = '-' ∨ c.isDigit = true)) : integerToken? (c :: cs) = none := by
  obtain ⟨hminus, hdigit⟩ := not_or.1 hc
  rw [integerToken?]
  · rw [List.takeWhile_cons_of_neg hdigit]
  · exact fun _ he => hminus (List.cons.inj he).1

/-- A run of digits is read to its end, where no digit stands behind it. -/
theorem digits_append {ds : List Char} (hds : ∀ c ∈ ds, c.isDigit = true)
    (hr : ∀ c ∈ rest.head?, c.isDigit = false) :
    (ds ++ rest).takeWhile Char.isDigit = ds ∧ (ds ++ rest).dropWhile Char.isDigit = rest := by
  rw [List.takeWhile_append_of_pos hds, List.dropWhile_append_of_pos hds]
  cases rest with
  | nil => exact ⟨List.append_nil ds, rfl⟩
  | cons c rest =>
      have hc : ¬ c.isDigit = true := by simp [hr c rfl]
      rw [List.takeWhile_cons_of_neg hc, List.dropWhile_cons_of_neg hc]
      exact ⟨List.append_nil ds, rfl⟩

theorem integerToken?_chars {n : NumberToken} (h : n.IsInteger)
    (hr : ∀ c ∈ rest.head?, c.isDigit = false) :
    integerToken? (n.chars ++ rest) = some (n.chars, rest) := by
  obtain ⟨hne, hall⟩ := n.whole_valid
  have hdigits := List.all_eq_true.1 hall
  obtain ⟨htake, hdrop⟩ := digits_append hdigits hr
  have hsign : n.sign = [] ∨ n.sign = ['-'] := by simpa using n.sign_valid
  obtain ⟨c, ds, hwhole⟩ := List.exists_cons_of_ne_nil hne
  rw [NumberToken.chars, h.1, h.2, List.append_nil, List.append_nil]
  rw [hwhole] at hdigits htake hdrop ⊢
  have hc : c ≠ '-' := by
    rintro rfl
    exact absurd (hdigits '-' List.mem_cons_self) (by decide)
  obtain hsign | hsign := hsign
  · rw [hsign, List.nil_append, integerToken?]
    · rw [htake, hdrop]
      rfl
    · exact fun _ he => hc (List.cons.inj he).1
  · rw [hsign, List.singleton_append, List.cons_append, integerToken?, htake, hdrop]
    rfl

variable {t : Token} {ts ts' : List Token} {text : List Char}

/-- In any layout, tagging turns the tokens into the others. -/
def Turns (ts ts' : List Token) : Prop := ∀ text, Spells ts text → Spells ts' (tagValues text)

theorem notMem_blanks {blanks : List Char} (hb : ∀ c ∈ blanks, isSpace c = true) : '"' ∉ blanks :=
  fun hm => absurd (hb '"' hm) (by decide)

theorem turns_nil : Turns [] [] := by
  intro text hs
  cases hs with
  | nil hb =>
      have h := tagValues_plain (notMem_blanks hb) []
      rw [List.append_nil] at h
      rw [h]
      exact .nil (by simpa [tagValues, tagFrom] using hb)

theorem turns_cons (ht : ∀ s, t ≠ .string s) (h : Turns ts ts') : Turns (t :: ts) (t :: ts') := by
  intro text hs
  cases hs with
  | cons hb hr =>
      rw [tagValues_plain (notMem_blanks hb), tagValues_plain (notMem_chars ht)]
      exact .cons hb (h _ hr)

/-- The string is not the key of a scalar, whatever the layout of what follows it. -/
def Inert (s : StringToken) (ts : List Token) : Prop :=
  ∀ rest, Spells ts rest → taggedValue? (s.chars ++ rest) = none

theorem turns_string {s : StringToken} (hi : Inert s ts) (h : Turns ts ts') :
    Turns (.string s :: ts) (.string s :: ts') := by
  intro text hs
  cases hs with
  | @cons _ _ blanks rest hb hr =>
      have htoken : token? (s.chars ++ rest) = some (s.chars, rest) := by
        rw [token?, hi rest hr, stringToken?_chars]
        rfl
      have hne : s.chars ≠ [] := List.cons_ne_nil _ _
      have htag := tagValues_of_token hne htoken
      rw [tagValues_plain (notMem_blanks hb), Token.chars, htag]
      exact .cons hb (h rest hr)

theorem inert_of_isValue {s : StringToken} (h : s.isValue = false) : Inert s ts :=
  fun rest _ => taggedValue?_of_isValue s h rest

theorem eq_valueToken {s : StringToken} (h : s.isValue = true) : s = valueToken := by
  obtain ⟨body, valid⟩ := s
  obtain rfl : body = "value".toList := by simpa [StringToken.isValue] using h
  rfl

/-- Without a colon behind it no string is a key. -/
theorem inert_of_head {s : StringToken} (h : ts.head? ≠ some .colon) : Inert s ts := by
  intro rest hs
  cases hv : s.isValue with
  | false => exact taggedValue?_of_isValue s hv rest
  | true =>
      rw [eq_valueToken hv]
      refine taggedValue?_value rest fun cs' heq => ?_
      cases hs with
      | nil hb =>
          rw [dropWhile_blanks_nil hb] at heq
          cases heq
      | @cons t _ _ _ hb _ =>
          obtain ⟨c, cs, hcs, hblank, hcolon, -⟩ := chars_eq t
          rw [hcs, List.cons_append, dropWhile_blanks hb hblank] at heq
          exact h (congrArg some (hcolon (List.cons.inj heq).1))

/-- A key with another value than a string or a number stays as it is. -/
theorem inert_of_colon {s : StringToken} (hs : ∀ s, ts.head? ≠ some (.string s))
    (hn : ∀ n, ts.head? ≠ some (.number n)) : Inert s (.colon :: ts) := by
  intro rest hspells
  cases hv : s.isValue with
  | false => exact taggedValue?_of_isValue s hv rest
  | true =>
      cases hspells with
      | cons hb hspells =>
          rw [eq_valueToken hv, Token.chars, List.singleton_append, taggedValue?_colon hb]
          cases hspells with
          | nil hb =>
              rw [dropWhile_blanks_nil hb]
              rfl
          | @cons t _ _ _ hb _ =>
              obtain ⟨c, cs, hcs, hblank, -, hstring, hnumber⟩ := chars_eq t
              have hquote : c ≠ '"' := by
                intro hc
                obtain ⟨s, rfl⟩ := hstring hc
                exact hs s rfl
              have hdigit : ¬ (c = '-' ∨ c.isDigit = true) := by
                intro hc
                obtain ⟨n, rfl⟩ := hnumber hc
                exact hn n rfl
              rw [hcs, List.cons_append, dropWhile_blanks hb hblank, scalar?, stringToken?_of_ne hquote,
                integerToken?_of_ne hdigit]
              rfl

theorem spells_next (h : Spells ts rest) : Spells (t :: ts) (t.chars ++ rest) :=
  .cons (fun _ hc => absurd hc List.not_mem_nil) h

theorem spells_spaced (h : Spells ts rest) : Spells (t :: ts) (' ' :: (t.chars ++ rest)) := by
  have hb : ∀ c ∈ [' '], isSpace c = true := List.forall_mem_singleton.2 rfl
  exact .cons hb h

theorem wrap_eq (tag : String) (token : List Char) : wrap tag token = valueToken.chars ++
    ':' :: ' ' :: '\x7b' :: '"' :: (tag.toList ++ '"' :: ':' :: ' ' :: (token ++ ['\x7d'])) := by
  have hopen : "\"value\": \x7b\"".toList = valueToken.chars ++ [':', ' ', '\x7b', '"'] := by decide
  have hclose : "\": ".toList = ['"', ':', ' '] := by decide
  have hend : "\x7d".toList = ['\x7d'] := by decide
  unfold wrap
  simp only [hopen, hclose, hend, List.append_assoc, List.cons_append, List.nil_append]

/-- What is put under a tag is spelled as the tokens of an object with one member. -/
theorem spells_wrap (k : StringToken) (h : Spells ts rest) :
    Spells (.string valueToken :: .colon :: .openObject :: .string k :: .colon :: t :: .closeObject :: ts)
      (wrap (String.ofList k.body) t.chars ++ rest) := by
  have hmember : Spells (.colon :: t :: .closeObject :: ts)
      (':' :: ' ' :: (t.chars ++ '\x7d' :: rest)) := spells_next (spells_spaced (spells_next h))
  have hobject : Spells (.openObject :: .string k :: .colon :: t :: .closeObject :: ts)
      (' ' :: '\x7b' :: (k.chars ++ ':' :: ' ' :: (t.chars ++ '\x7d' :: rest))) :=
    spells_spaced (spells_next hmember)
  have hentry : Spells (.string valueToken :: .colon :: .openObject :: .string k :: .colon :: t ::
      .closeObject :: ts) (valueToken.chars ++ ':' :: ' ' :: '\x7b' ::
        (k.chars ++ ':' :: ' ' :: (t.chars ++ '\x7d' :: rest))) :=
    spells_next (spells_next hobject)
  rw [wrap_eq, String.toList_ofList]
  simpa only [StringToken.chars, List.append_assoc, List.cons_append, List.nil_append] using hentry

theorem spells_blanks {blanks : List Char} (hb : ∀ c ∈ blanks, isSpace c = true) (h : Spells ts text) :
    Spells ts (blanks ++ text) := by
  cases h with
  | nil hb' => exact .nil (List.forall_mem_append.2 ⟨hb, hb'⟩)
  | cons hb' h =>
      rw [← List.append_assoc]
      exact .cons (List.forall_mem_append.2 ⟨hb, hb'⟩) h

/-- The value of the key is put under its tag if it is read to its end. -/
theorem turns_wrapped (k : StringToken) (h : Turns ts ts')
    (hread : ∀ rest, Spells ts rest →
      scalar? (t.chars ++ rest) = some (wrap (String.ofList k.body) t.chars, rest)) :
    Turns (.string valueToken :: .colon :: t :: ts) (.string valueToken :: .colon :: .openObject ::
      .string k :: .colon :: t :: .closeObject :: ts') := by
  intro text hs
  cases hs with
  | @cons _ _ before _ hb hs =>
  cases hs with
  | @cons _ _ blanks _ hcolon hs =>
  cases hs with
  | @cons _ _ behind rest hvalue hs =>
  obtain ⟨c, cs, hcs, hblank, -⟩ := chars_eq t
  let pre := valueToken.chars ++ (blanks ++ ':' :: (behind ++ t.chars))
  have htext : valueToken.chars ++ (blanks ++ ':' :: (behind ++ (t.chars ++ rest))) = pre ++ rest := by
    simp [pre]
  have htoken : token? (pre ++ rest) = some (wrap (String.ofList k.body) t.chars, rest) := by
    have hskip : (behind ++ (t.chars ++ rest)).dropWhile isBlank = t.chars ++ rest := by
      rw [hcs, List.cons_append]
      exact dropWhile_blanks hvalue hblank
    rw [← htext, token?, taggedValue?_colon hcolon, hskip, hread rest hs]
    rfl
  have htag := tagValues_of_token (by simp [pre, StringToken.chars]) htoken
  rw [← htext] at htag
  rw [tagValues_plain (notMem_blanks hb)]
  refine spells_blanks hb ?_
  change Spells _ (tagValues (valueToken.chars ++ (blanks ++ ':' :: (behind ++ (t.chars ++ rest)))))
  rw [htag]
  exact spells_wrap k (h rest hs)

/-- Nothing stands behind, or a token that ends the value before it. -/
def Closes (ts : List Token) : Prop :=
  ∀ t ∈ ts.head?, t = .comma ∨ t = .closeArray ∨ t = .closeObject

theorem isDigit_of_isSpace (h : isSpace c = true) : c.isDigit = false := by
  simp only [isSpace, Bool.or_eq_true, beq_iff_eq] at h
  obtain ((rfl | rfl) | rfl) | rfl := h <;> decide

theorem head_of_closes (h : Closes ts) (hs : Spells ts rest) : ∀ c ∈ rest.head?, c.isDigit = false := by
  cases hs with
  | nil hb => exact fun c hc => isDigit_of_isSpace (hb c (List.mem_of_mem_head? hc))
  | @cons t _ blanks rest hb _ =>
      intro c hc
      cases blanks with
      | nil => obtain rfl | rfl | rfl := h t rfl <;> obtain rfl := Option.some.inj hc <;> decide
      | cons b blanks =>
          obtain rfl := Option.some.inj hc
          exact isDigit_of_isSpace (hb b List.mem_cons_self)

theorem turns_string_value (s : StringToken) (h : Turns ts ts') :
    Turns (.string valueToken :: .colon :: .string s :: ts) (.string valueToken :: .colon ::
      .openObject :: .string stringTag :: .colon :: .string s :: .closeObject :: ts') := by
  refine turns_wrapped stringTag h fun rest _ => ?_
  have hs : stringToken? ((Token.string s).chars ++ rest) = some (s.chars, rest) := stringToken?_chars s rest
  rw [scalar?, hs]
  rfl

theorem turns_integer_value {n : NumberToken} (hn : n.IsInteger) (hc : Closes ts) (h : Turns ts ts') :
    Turns (.string valueToken :: .colon :: .number n :: ts) (.string valueToken :: .colon ::
      .openObject :: .string integerTag :: .colon :: .number n :: .closeObject :: ts') := by
  refine turns_wrapped integerTag h fun rest hr => ?_
  obtain ⟨⟨c, cs, hcs, hc'⟩, -⟩ := number_chars_eq n
  have hs : stringToken? (n.chars ++ rest) = none := by
    rw [hcs, List.cons_append]
    refine stringToken?_of_ne ?_
    rintro rfl
    simp at hc'
  rw [Token.chars, scalar?, hs, integerToken?_chars hn (head_of_closes hc hr)]
  rfl

theorem closes_itemTokens (vs : List Value) : Closes (itemTokens vs ++ ts) := by
  cases vs <;> rintro _ ⟨⟩ <;> simp

theorem closes_memberTokens (ms : List (StringToken × Value)) : Closes (memberTokens ms ++ ts) := by
  cases ms <;> rintro _ ⟨⟩ <;> simp

theorem head_ne_colon_of_closes (h : Closes ts) : ts.head? ≠ some .colon := by
  intro hcolon
  simpa using h .colon hcolon

/-- What is not put under a tag begins with another token than a string or a number. -/
theorem head_of_wrapped? {v : Value} (h : v.wrapped? = none) :
    (∀ ts s, (v.tokens ++ ts).head? ≠ some (.string s)) ∧
      ∀ ts n, (v.tokens ++ ts).head? ≠ some (.number n) := by
  cases v with
  | null | bool b => exact ⟨nofun, nofun⟩
  | number n | string s => cases h
  | array items => cases items <;> exact ⟨nofun, nofun⟩
  | object members => rcases members with _ | ⟨⟨k, v⟩, ms⟩ <;> exact ⟨nofun, nofun⟩

theorem turns_member {k : StringToken} {v : Value} (hn : k.isValue = true → v.IsIntegral)
    (hv : ∀ ts ts', Closes ts → Turns ts ts' → Turns (v.tokens ++ ts) (v.tagged.tokens ++ ts'))
    (hc : Closes ts) (h : Turns ts ts') : Turns (.string k :: .colon :: (v.tokens ++ ts))
      (.string k :: .colon ::
        (((if k.isValue then v.wrapped? else none).getD v.tagged).tokens ++ ts')) := by
  have hcolon : Turns (.colon :: (v.tokens ++ ts)) (.colon :: (v.tagged.tokens ++ ts')) :=
    turns_cons nofun (hv ts ts' hc h)
  cases hk : k.isValue with
  | false => exact turns_string (inert_of_isValue hk) hcolon
  | true =>
      rw [if_pos rfl]
      cases hw : v.wrapped? with
      | none =>
          obtain ⟨hs, hn⟩ := head_of_wrapped? hw
          exact turns_string (inert_of_colon (hs ts) (hn ts)) hcolon
      | some w =>
          obtain rfl := eq_valueToken hk
          cases v with
          | string s =>
              cases hw
              exact turns_string_value s h
          | number n =>
              cases hw
              exact turns_integer_value (hn rfl) hc h
          | null | bool | array | object => cases hw

mutual

/-- The induction is on the document, and goes on with what stands behind it. -/
theorem turns_tokens : (v : Value) → v.Levelled → (ts ts' : List Token) → Closes ts → Turns ts ts' →
    Turns (v.tokens ++ ts) (v.tagged.tokens ++ ts')
  | .null, _, _, _, _, h | .bool _, _, _, _, _, h | .number _, _, _, _, _, h => turns_cons nofun h
  | .string _, _, _, _, hc, h => turns_string (inert_of_head (head_ne_colon_of_closes hc)) h
  | .array [], _, _, _, _, h | .object [], _, _, _, _, h => turns_cons nofun (turns_cons nofun h)
  | .array (v :: vs), hl, ts, ts', _, h => by
    obtain ⟨hv, hvs⟩ := hl
    rw [Value.tagged, taggedItems, Value.tokens, Value.tokens, List.cons_append, List.cons_append,
      List.append_assoc, List.append_assoc]
    exact turns_cons nofun (turns_tokens v hv _ _ (closes_itemTokens vs) (turns_items vs hvs ts ts' h))
  | .object ((k, v) :: ms), hl, ts, ts', _, h => by
    obtain ⟨hn, hv, hms⟩ := hl
    simp only [Value.tagged, taggedMembers, Value.tokens, List.cons_append, List.append_assoc]
    exact turns_cons nofun (turns_member hn (turns_tokens v hv) (closes_memberTokens ms)
      (turns_members ms hms ts ts' h))

theorem turns_items : (vs : List Value) → LevelledItems vs → (ts ts' : List Token) → Turns ts ts' →
    Turns (itemTokens vs ++ ts) (itemTokens (taggedItems vs) ++ ts')
  | [], _, _, _, h => turns_cons nofun h
  | v :: vs, hl, ts, ts', h => by
    obtain ⟨hv, hvs⟩ := hl
    simp only [taggedItems, itemTokens, List.cons_append, List.append_assoc]
    exact turns_cons nofun (turns_tokens v hv _ _ (closes_itemTokens vs) (turns_items vs hvs ts ts' h))

theorem turns_members : (ms : List (StringToken × Value)) → LevelledMembers ms →
    (ts ts' : List Token) → Turns ts ts' →
    Turns (memberTokens ms ++ ts) (memberTokens (taggedMembers ms) ++ ts')
  | [], _, _, _, h => turns_cons nofun h
  | (k, v) :: ms, hl, ts, ts', h => by
    obtain ⟨hn, hv, hms⟩ := hl
    simp only [taggedMembers, memberTokens, List.cons_append, List.append_assoc]
    exact turns_cons nofun (turns_member hn (turns_tokens v hv) (closes_memberTokens ms)
      (turns_members ms hms ts ts' h))

end

/-- Tagging wraps the strings and integers that keys `value` have for values, and nothing else: in any
layout of a document with integers there, it gives a text of the tagged document. -/
theorem tagValues_spells {v : Value} (hv : v.Levelled) (h : Spells v.tokens text) :
    Spells v.tagged.tokens (tagValues text) := by
  have hturns := turns_tokens v hv [] [] nofun turns_nil
  rw [List.append_nil, List.append_nil] at hturns
  exact hturns text h

theorem spells_spacedTokens (ts : List Token) : Spells ts (ts.flatMap fun t => ' ' :: t.chars) := by
  induction ts with
  | nil => exact .nil fun _ hc => absurd hc List.not_mem_nil
  | cons t ts ih => exact spells_spaced ih

/-- Its contents look like a key with a value. -/
def quotedToken : StringToken where
  body := '\\' :: '"' :: ("value".toList ++ '\\' :: '"' :: ": 7".toList)
  valid := .escape rfl ((stringBody_of_all (by decide)).append
    (.escape rfl (stringBody_of_all (by decide))))

def slashedToken : StringToken where
  body := "value".toList ++ ['\\', '\\']
  valid := (stringBody_of_all (by decide)).append (.escape rfl .nil)

def levelToken : NumberToken where
  sign := ['-']
  whole := ['1', '2']
  fraction := []
  exponent := []
  sign_valid := by decide
  whole_valid := by decide
  zero_valid := by decide
  fraction_valid := .none
  exponent_valid := .none

def realToken : NumberToken where
  sign := []
  whole := ['0']
  fraction := ['.', '5']
  exponent := ['e', '+', '3']
  sign_valid := by decide
  whole_valid := by decide
  zero_valid := by decide
  fraction_valid := .digits (by decide)
  exponent_valid := .digits (by decide) (by decide : ['+'] ∈ [[], ['+'], ['-']]) (by decide)

def sampleDocument : Value :=
  .object [(valueToken, .string quotedToken),
    (slashedToken, .array
      [.string valueToken, .object [(valueToken, .number levelToken)], .number realToken]),
    (valueToken, .object [(stringTag, .string slashedToken)])]

def sampleText : List Char :=
  " \x7b \"value\" : \"\\\"value\\\": 7\" , \"value\\\\\" : [ \"value\" , ".toList ++
    "\x7b \"value\" : -12 \x7d , 0.5e+3 ] , ".toList ++
    "\"value\" : \x7b \"String\" : \"value\\\\\" \x7d \x7d".toList

def sampleTagged : List Char :=
  " \x7b \"value\": \x7b\"String\": \"\\\"value\\\": 7\"\x7d , \"value\\\\\" : [ \"value\" , ".toList ++
    "\x7b \"value\": \x7b\"Integer\": -12\x7d \x7d , 0.5e+3 ] , ".toList ++
    "\"value\" : \x7b \"String\" : \"value\\\\\" \x7d \x7d".toList

theorem tagValues_spells_sampleDocument : sampleDocument.Levelled ∧
    Spells sampleDocument.tokens sampleText ∧ tagValues sampleText = sampleTagged ∧
    Spells sampleDocument.tagged.tokens sampleTagged := by
  have hl : sampleDocument.Levelled := by
    simp [sampleDocument, Value.Levelled, LevelledMembers, LevelledItems, Value.IsIntegral,
      NumberToken.IsInteger, levelToken]
  have ht : sampleText = sampleDocument.tokens.flatMap fun t => ' ' :: t.chars := by decide +kernel
  have hs : Spells sampleDocument.tokens sampleText := ht ▸ spells_spacedTokens _
  have htag : tagValues sampleText = sampleTagged := by decide +kernel
  exact ⟨hl, hs, htag, htag ▸ tagValues_spells hl hs⟩

end Tagging

end EarleyTree

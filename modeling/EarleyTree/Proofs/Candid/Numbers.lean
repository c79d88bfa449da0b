import EarleyTree.Candid.Grammar
import EarleyTree.Proofs.Language.Anchors
import EarleyTree.Proofs.Pattern.LongestTexts

/-!
The numbers of Candid, as they may be written, and as the lexer takes them from a text: the longest of
them that the text begins with.
-/
namespace EarleyTree

open Computability Pattern

mutual

/-- The texts that a rule without names stands for. Those of a pattern are what it matches in full. -/
def Rule.texts : Rule → Rows Char
  | r@⟨kind, _, _, content, members, _, _, _⟩ =>
    match kind with
    | .blank => 1
    | .string => {(r.stringValue?.getD "").toList}
    | .pattern => {w | ∃ source regex, r.patternSource "" = .ok source ∧
        compile? source = some regex ∧ regex.MatchesAll w}
    | .symbol => 0
    | .sequence => (textsMembers members).prod
    | .choice => (textsMembers members).sum
    | .zeroOrMore => (textsContent content)∗
    | .oneOrMore => textsContent content * (textsContent content)∗
    | .token | .immediateToken | .precedence | .precedenceLeft | .precedenceRight
    | .precedenceDynamic | .field | .renamed | .reserved => textsContent content

def textsContent : Option Rule → Rows Char
  | none => 0
  | some r => r.texts

def textsMembers : List Rule → List (Rows Char)
  | [] => []
  | r :: rs => r.texts :: textsMembers rs

end

theorem Rule.texts_regex {source : String} {r : Regex} {A : Rows Char}
    (hr : compile? (group "(?:" source.toList ")") = some r) (h : r.Denotes A) :
    (Rule.regex source).texts = A := by
  ext w
  rw [← h none w [], ← Regex.matchesAll_iff]
  constructor
  · rintro ⟨source', r', hs, hr', hw⟩
    cases hs
    cases hr.symm.trans hr'
    exact hw
  · exact fun hw => ⟨_, r, rfl, hr, hw⟩

theorem textsMembers_eq_map (rs : List Rule) : textsMembers rs = rs.map Rule.texts := by
  induction rs with
  | nil => rfl
  | cons r rs ih => rw [textsMembers, ih, List.map_cons]

section

variable (r : Rule) (rs : List Rule)

@[simp]
theorem Rule.texts_literal (text : String) : (literal text).texts = {text.toList} := rfl

@[simp]
theorem Rule.texts_asToken : (asToken r).texts = r.texts := rfl

@[simp]
theorem Rule.texts_seq : (seq rs).texts = (rs.map Rule.texts).prod :=
  congrArg List.prod (textsMembers_eq_map rs)

@[simp]
theorem Rule.texts_oneOf : (oneOf rs).texts = (rs.map Rule.texts).sum :=
  congrArg List.sum (textsMembers_eq_map rs)

@[simp]
theorem Rule.texts_optional : (optional r).texts = r.texts + 1 := by
  rw [optional, texts_oneOf, List.map_cons, List.sum_cons]
  exact congrArg _ (add_zero 1)

end

namespace Candid

/-- Digits, with at most one underscore between two of them. -/
def digits (d : CharSet) : Rows Char := d.texts * (({['_']} + 1) * d.texts)∗

def digitsRegex (d : CharSet) : Regex :=
  .cat (.set d) (.rep 0 none true (.cat (.rep 0 (some 1) true (.char '_')) (.set d)))

def signs : Rows Char := {['+']} + {['-']} + 1

def signRegex : Regex := .alt (.alt (.char '+') (.char '-')) .empty

/-- The base of a number as it is seen from the text: what stands in front of the digits, the digits, and
the letters for an exponent. The characters around the digits are none of them. -/
structure Radix where
  lead : List Char
  digit : CharSet
  lower : Char
  upper : Char
  opens : lead.head?.all digit.contains = true
  apart : (['_', '.', '+', '-', lower, upper].any digit.contains) = false
  distinct : ['_', '.', lower, upper].Nodup

@[simps lower upper]
def decimal : Radix := ⟨[], .range 48 57, 'e', 'E', rfl, rfl, by decide⟩

@[simps lower upper]
def hexadecimal : Radix :=
  ⟨['0', 'x'], .ofRanges [(48, 57), (65, 70), (97, 102)], 'p', 'P', rfl, rfl, by decide⟩

namespace Radix

variable (x : Radix)

/-- A point, and digits behind it if there are any. -/
def point : Rows Char := {['.']} * (digits x.digit + 1)

def pointRegex : Regex := .cat (.char '.') (.alt (digitsRegex x.digit) .empty)

/-- The exponent, which is decimal always. -/
def scale : Rows Char := ({[x.lower]} + {[x.upper]}) * (signs * digits decimal.digit)

def scaleRegex : Regex :=
  .cat (.alt (.char x.lower) (.char x.upper)) (.cat signRegex (digitsRegex decimal.digit))

/-- A whole number that goes on with one of the texts. -/
def number (T : Rows Char) : Rows Char := signs * ({x.lead} * (digits x.digit * T))

def numberRegex (tail : Regex) : Regex :=
  .cat signRegex (x.lead.foldr (fun c r => .cat (.char c) r) (.cat (digitsRegex x.digit) tail))

def scaled : Rows Char := x.number ((x.point + 1) * x.scale)

def scaledRegex : Regex := x.numberRegex (.cat (.alt x.pointRegex .empty) x.scaleRegex)

end Radix

inductive Number
  | nat
  | int
  | float

namespace Number

def name : Number → String
  | nat => "nat"
  | int => "int"
  | float => "float"

def rule : Number → Rule
  | nat => natToken
  | int => intToken
  | float => floatToken

def forms : Number → Rows Char
  | nat => {hexadecimal.lead} * digits hexadecimal.digit + digits decimal.digit
  | int => signs * digits decimal.digit
  | float =>
    hexadecimal.scaled + (hexadecimal.number hexadecimal.point +
      (decimal.scaled + decimal.number decimal.point))

def regex : Number → Regex
  | nat =>
    .alt (.cat (.char '0') (.cat (.char 'x') (digitsRegex hexadecimal.digit)))
      (digitsRegex decimal.digit)
  | int => .cat signRegex (digitsRegex decimal.digit)
  | float =>
    .alt hexadecimal.scaledRegex (.alt (hexadecimal.numberRegex hexadecimal.pointRegex)
      (.alt decimal.scaledRegex (decimal.numberRegex decimal.pointRegex)))

end Number

/-- The digits of a number and what may stand between them. -/
def runOf (d : CharSet) : Set Char := {c | d.contains c = true ∨ c = '_'}

section

variable {d : CharSet}

theorem opens_digits (d : CharSet) : Opens (digits d) {c | d.contains c = true} := Opens.texts.mul _

theorem opens_digits_run (d : CharSet) : Opens (digits d) (runOf d) :=
  (opens_digits d).mono fun _ => .inl

theorem over_digits (d : CharSet) : Over (digits d) (runOf d) := by
  have htexts : Over d.texts (runOf d) := .texts fun _ => .inl
  exact htexts.mul (((Over.singleton (.inr rfl)).add .one).mul htexts).kstar

theorem denotes_digits (d : CharSet) : (digitsRegex d).Denotes (digits d) :=
  (Regex.denotes_set d).cat
    ((((Regex.denotes_char '_').opt true).cat (Regex.denotes_set d)).many true)

theorem digits_takesLongest (h : d.contains '_' = false) :
    (digitsRegex d).TakesLongest (digits d) (runOf d) := by
  have hround : Opens (({['_']} + 1) * d.texts) (runOf d) := by
    rw [add_one_mul]
    exact (Opens.singleton.mul _ |>.mono (by simp [runOf])).add (.mono .texts fun _ => .inl)
  have hdigit : {c | d.contains c = true} ⊆ {'_'}ᶜ := by simp [h]
  exact .set_cat d (.many (.cat_of_opens (.opt (.char '_') .singleton) (.set d) .texts hdigit) hround)

theorem over_signs : Over signs {'+', '-'} :=
  ((Over.singleton (by simp)).add (.singleton (by simp))).add .one

theorem signs_takesLongest : signRegex.TakesLongest signs {'+', '-'} := by
  have hminus : Avoids {['-']} {'+'} := Opens.singleton.avoids (by simp)
  have hsign : Opens ({['+']} + {['-']}) {'+', '-'} :=
    (Opens.singleton.mono (by simp)).add (Opens.singleton.mono (by simp))
  have heither : (Regex.alt (.char '+') (.char '-')).TakesLongest ({['+']} + {['-']}) {'+', '-'} :=
    .alt (.char '+') (.char '-') .singleton hminus fun hn => absurd hn Opens.singleton.nil_notMem
  exact heither.alt .empty hsign .one fun _ => subset_rfl

end

namespace Radix

variable {x : Radix} {S T : Rows Char} {X Y : Set Char} {tail : Regex} {text : List Char}

/-- The characters that can stand directly behind the digits. -/
def stops (x : Radix) : Set Char := {'.', x.lower, x.upper}

theorem contains_eq_false {c : Char} (hc : c ∈ ['_', '.', '+', '-', x.lower, x.upper]) :
    x.digit.contains c = false :=
  Bool.eq_false_iff.2 fun h => Bool.false_ne_true (x.apart.symm.trans (List.any_eq_true.2 ⟨c, hc, h⟩))

theorem stops_subset : x.stops ⊆ (runOf x.digit)ᶜ := by
  have hdistinct := x.distinct
  simp only [List.nodup_cons, List.mem_cons, List.not_mem_nil, or_false, not_or] at hdistinct
  obtain ⟨⟨hpoint, hlower, hupper⟩, -⟩ := hdistinct
  rintro c hc (hd | rfl)
  · rw [contains_eq_false] at hd
    · cases hd
    · simp only [stops, Set.mem_insert_iff, Set.mem_singleton_iff] at hc
      simp only [List.mem_cons, List.not_mem_nil, or_false]
      tauto
  · simp only [stops, Set.mem_insert_iff, Set.mem_singleton_iff] at hc
    tauto

/-- The letters for the exponent come neither within the digits nor at the point. -/
theorem marks_subset : {x.lower, x.upper} ⊆ ({'.'} ∪ runOf x.digit)ᶜ := by
  have hdistinct := x.distinct
  rintro c hc (rfl | hr)
  · simp_all
  · exact stops_subset (.inr hc) hr

theorem digit_subset : {c | x.digit.contains c = true} ⊆ {'+', '-'}ᶜ := by
  rintro c hc (rfl | rfl)
  · simp [contains_eq_false] at hc
  · simp [contains_eq_false] at hc

theorem opens_point : Opens x.point {'.'} := Opens.singleton.mul _

theorem opens_scale : Opens x.scale {x.lower, x.upper} :=
  ((Opens.singleton.mono (by simp)).add (.mono .singleton (by simp))).mul _

theorem opens_number (x : Radix) (T : Rows Char) :
    Opens ({x.lead} * (digits x.digit * T)) {c | x.digit.contains c = true} := by
  intro w hw
  obtain ⟨v, rfl, hv⟩ := mem_singleton_mul_iff.1 hw
  have hopens := x.opens
  cases hlead : x.lead with
  | nil => exact (opens_digits x.digit).mul T v hv
  | cons c lead =>
      rw [hlead] at hopens
      exact ⟨c, lead ++ v, rfl, hopens⟩

theorem point_takesLongest : x.pointRegex.TakesLongest x.point (runOf x.digit) := by
  rw [pointRegex, point, ← CharSet.texts_char]
  exact .set_cat _ (.alt (digits_takesLongest (contains_eq_false (by simp))) .empty (opens_digits_run _)
    .one fun _ => subset_rfl)

theorem scale_takesLongest : x.scaleRegex.TakesLongest x.scale (runOf decimal.digit) := by
  have hmarks : Avoids {[x.upper]} {x.lower} := by
    have hdistinct := x.distinct
    exact Opens.singleton.avoids (by simp_all [eq_comm])
  have hmark : (Regex.alt (.char x.lower) (.char x.upper)).TakesLongest
      ({[x.lower]} + {[x.upper]}) ∅ :=
    .alt (.char _) (.char _) .singleton hmarks fun hn => absurd hn Opens.singleton.nil_notMem
  refine hmark.cat ?_ fun _ _ => .empty
  exact .cat_of_opens signs_takesLongest (digits_takesLongest rfl) (opens_digits _) digit_subset

theorem lead_takesLongest {r : Regex} {R : Rows Char} (h : r.TakesLongest R Y) (lead : List Char) :
    (lead.foldr (fun c r => .cat (.char c) r) r).TakesLongest ({lead} * R) Y := by
  induction lead with
  | nil => exact (one_mul R).symm ▸ h
  | cons c lead ih =>
      rw [singleton_cons_mul, ← CharSet.texts_char]
      exact .set_cat _ ih

theorem number_takesLongest (h : tail.TakesLongest T Y) (hT : Opens T x.stops) :
    (x.numberRegex tail).TakesLongest (x.number T) Y := by
  have hrun : (digitsRegex x.digit).TakesLongest _ _ := digits_takesLongest (contains_eq_false (by simp))
  have hwhole := lead_takesLongest (hrun.cat_of_opens h hT stops_subset) x.lead
  exact .cat_of_opens signs_takesLongest hwhole (x.opens_number T) digit_subset

theorem opens_tail : Opens ((x.point + 1) * x.scale) x.stops := by
  rw [add_one_mul]
  exact (opens_point.mul _ |>.mono (by simp [stops])).add (opens_scale.mono (by simp [stops]))

theorem scaled_takesLongest : x.scaledRegex.TakesLongest x.scaled (runOf decimal.digit) := by
  refine number_takesLongest ?_ opens_tail
  have hpoint : (Regex.alt x.pointRegex .empty).TakesLongest (x.point + 1) ({'.'} ∪ runOf x.digit) :=
    .alt (point_takesLongest.mono Set.subset_union_right) .empty opens_point .one
      fun _ => Set.subset_union_left
  exact hpoint.cat_of_opens scale_takesLongest opens_scale marks_subset

/-- Behind the same sign and the same digits the texts go on from the same place. -/
theorem number_outruns (h : ∀ text, Outruns S T text) (hS : Opens S x.stops) (hT : Opens T x.stops)
    (text : List Char) : Outruns (x.number S) (x.number T) text := by
  have hdigits := Outruns.mul h (over_digits x.digit) (hS.mono stops_subset)
    (hT.mono stops_subset)
  have hsign {T : Rows Char} := (x.opens_number T).mono digit_subset
  exact Outruns.mul (Outruns.singleton_mul hdigits x.lead) over_signs hsign hsign text

/-- With an exponent a number goes on at least as far as without one. -/
theorem scaled_outruns (text : List Char) : Outruns x.scaled (x.number x.point) text := by
  refine number_outruns (fun text => ?_) opens_tail (opens_point.mono (by simp [stops])) text
  rw [add_one_mul]
  refine .of_add ?_ (opens_scale.outruns (opens_point.avoids fun _ hc hm => marks_subset hm (.inl hc)))
  -- Behind the same point the digits end at the exponent.
  rw [point, mul_assoc]
  refine Outruns.singleton_mul (fun text => .of_stop ((over_digits x.digit).add .one) ?_) ['.'] text
  exact opens_scale.mono fun _ hm hc => marks_subset hm (.inr hc)

end Radix

/-- Where there is a hexadecimal number, a decimal one does not go on behind the zero in front of it. -/
theorem hexadecimal_outruns {R S : Rows Char} (hS : Avoids S {'x'}) (text : List Char) :
    Outruns ({hexadecimal.lead} * R) (digits decimal.digit * S) text := by
  intro u hu hut v hv hvt
  refine ⟨u, hu, hut, ?_⟩
  obtain ⟨r, rfl, -⟩ := mem_singleton_mul_iff.1 hu
  obtain ⟨d, s, rfl, hd, hs⟩ := Regex.mem_mul_iff.1 hv
  obtain ⟨rest, rfl⟩ := hut
  have hstop : d <+: ['0'] :=
    prefix_of_stop (over_digits _ d hd) (by simp [runOf, decimal, CharSet.contains, CharSet.has])
      ((List.prefix_append d s).trans hvt)
  obtain ⟨c, d, rfl, -⟩ := opens_digits _ d hd
  obtain ⟨rfl, hnil⟩ := List.cons_prefix_cons.1 hstop
  obtain rfl := List.prefix_nil.1 hnil
  cases s with
  | nil => exact ⟨_, rfl⟩
  | cons c s =>
      obtain ⟨-, hx⟩ := List.cons_prefix_cons.1 hvt
      obtain ⟨rfl, -⟩ := List.cons_prefix_cons.1 hx
      exact absurd rfl (hS _ s hs)

theorem hexadecimal_number_outruns {R S : Rows Char} (hS : Opens S decimal.stops) (text : List Char) :
    Outruns (hexadecimal.number R) (decimal.number S) text := by
  have hsign {x : Radix} {T : Rows Char} :=
    (x.opens_number T).mono x.digit_subset
  refine Outruns.mul (fun text => ?_) over_signs hsign hsign text
  have hlead : ({decimal.lead} : Rows Char) = 1 := rfl
  rw [hlead, one_mul]
  exact hexadecimal_outruns (hS.avoids (by simp [Radix.stops, decimal])) text

namespace Number

theorem takesLongest (n : Number) (text : List Char) :
    TakesLongest [[.once n.regex]] n.forms text := by
  cases n with
  | nat =>
      have hhex : (digitsRegex hexadecimal.digit).TakesLongest _ _ := digits_takesLongest rfl
      refine .alt ((Radix.lead_takesLongest hhex hexadecimal.lead).settles text)
        ((digits_takesLongest rfl).settles text) ?_
      have houtruns := hexadecimal_outruns (R := digits hexadecimal.digit) (S := 1) .one text
      rwa [mul_one] at houtruns
  | int =>
      have hdec : (digitsRegex decimal.digit).TakesLongest _ _ := digits_takesLongest rfl
      exact (signs_takesLongest.cat_of_opens hdec (opens_digits _) decimal.digit_subset).settles text
  | float =>
      have hpoint (x : Radix) : Opens x.point x.stops := x.opens_point.mono (by simp [Radix.stops])
      have hscaled (x : Radix) := x.scaled_takesLongest.settles text
      have hpointed (x : Radix) :=
        (Radix.number_takesLongest x.point_takesLongest (hpoint x)).settles text
      have hexponent (x : Radix) := x.scaled_outruns text
      have hhex {R : Rows Char} :
          Outruns (hexadecimal.number R) (decimal.scaled + decimal.number decimal.point) text :=
        (hexadecimal_number_outruns decimal.opens_tail text).add
          (hexadecimal_number_outruns (hpoint decimal) text)
      have hdec := (hscaled decimal).alt (hpointed decimal) (hexponent decimal)
      exact (hscaled hexadecimal).alt ((hpointed hexadecimal).alt hdec hhex)
        ((hexponent hexadecimal).add hhex)

/-- The texts of the rule are the forms that a number can take. -/
theorem texts_rule (n : Number) : n.rule.texts = n.forms := by
  have hhex : (Rule.regex hexDigits).texts = digits hexadecimal.digit :=
    Rule.texts_regex (by decide +kernel) (denotes_digits _)
  have hdec : (Rule.regex decimalDigits).texts = digits decimal.digit :=
    Rule.texts_regex (by decide +kernel) (denotes_digits _)
  have hsign : sign.texts = signs := by simp [sign, signs]
  have h0x : "0x".toList = hexadecimal.lead := rfl
  have hlead : ({decimal.lead} : Rows Char) = 1 := rfl
  cases n with
  | nat => simp [rule, natToken, forms, hhex, hdec, h0x]
  | int => simp [rule, intToken, signed, forms, hdec, hsign]
  | float =>
      simp [rule, floatToken, signed, forms, hhex, hdec, hsign, h0x, hlead, Radix.scaled, Radix.number,
        Radix.point, Radix.scale]

/-- What the tokens are compiled to. -/
theorem exists_tokens : ∃ l, language = .ok l ∧ ∀ n : Number, ∃ s token,
    l.kindId? n.name true = some s ∧ l.tables.lexTokens.filter (·.symbol == s) = [token] ∧
      token.regex = .cat (.test .textStart) n.regex := by
  have htest : language.toOption.any (fun l => [nat, int, float].all fun n =>
      (l.kindId? n.name true).any fun s => (l.tables.lexTokens.filter (·.symbol == s)).map (·.regex) ==
        [.cat (.test .textStart) n.regex]) = true := by decide +kernel
  cases hl : language with
  | error e =>
      rw [hl] at htest
      cases htest
  | ok l =>
      rw [hl] at htest
      refine ⟨l, rfl, fun n => ?_⟩
      have hn : n ∈ [nat, int, float] := by cases n <;> simp
      obtain ⟨s, hs, hregex⟩ := (Option.any_eq_true _ _).1 (List.all_eq_true.1 htest n hn)
      obtain ⟨token, htoken, hregex⟩ := List.map_eq_singleton_iff.1 (eq_of_beq hregex)
      exact ⟨s, token, hs, htoken, hregex⟩

end Number

/-- Each of the number tokens matches, at the start of any text, the longest text of its rule that the
text begins with, and nothing if there is none. -/
theorem numbers_take_longest : ∃ l, language = .ok l ∧ ∀ n : Number,
    grammar.rules.find? n.name = some n.rule ∧ n.rule.texts = n.forms ∧
    ∃ s token, l.kindId? n.name true = some s ∧ l.tables.lexTokens.filter (·.symbol == s) = [token] ∧
      ∀ text, ∃ longest, LongestPrefix n.rule.texts text longest ∧
        token.regex.find? text = longest.map fun w => (0, Text.byteLength w) := by
  obtain ⟨l, hl, htokens⟩ := Number.exists_tokens
  refine ⟨l, hl, fun n => ⟨by cases n <;> rfl, n.texts_rule, ?_⟩⟩
  obtain ⟨s, token, hs, htoken, hregex⟩ := htokens n
  refine ⟨s, token, hs, htoken, fun text => ?_⟩
  obtain ⟨longest, hsettles, hlongest⟩ := n.takesLongest text none
  refine ⟨longest, n.texts_rule.symm ▸ hlongest, ?_⟩
  rw [hregex, Regex.find?_anchor, Regex.matchAt_settles hsettles, Option.map_map]
  simp [Function.comp_def]

/-- The exponent is taken, the underscore behind it is not. -/
example : Number.float.regex.matchAt none "-1_0.5E+3_x".toList 0 = some 9 := by decide +kernel

end Candid

end EarleyTree

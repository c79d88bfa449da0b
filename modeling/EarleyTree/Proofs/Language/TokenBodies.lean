import EarleyTree.Proofs.Lexing.LongestMatch
import EarleyTree.Proofs.Pattern.Fronts
import EarleyTree.Proofs.Pattern.Sources

/-!
The bodies of tokens as sets of texts, and the expressions that they are compiled to: an expression
matches a text in full just if the text is in the set.
-/
namespace EarleyTree

open Computability Pattern Text

mutual

/-- The rule is put together from literals, without patterns and names. What is around a part of it
does not matter. -/
def Rule.isPlain : Rule → Bool
  | ⟨kind, _, _, content, members, _, _, _⟩ =>
    match kind with
    | .blank | .string => true
    | .pattern | .symbol => false
    | .sequence => arePlain members
    | .choice => !members.isEmpty && arePlain members
    | .zeroOrMore | .oneOrMore | .token | .immediateToken | .precedence | .precedenceLeft
    | .precedenceRight | .precedenceDynamic | .field | .renamed | .reserved => isPlainContent content

def isPlainContent : Option Rule → Bool
  | none => false
  | some r => r.isPlain

def arePlain : List Rule → Bool
  | [] => true
  | r :: rs => r.isPlain && arePlain rs

end

mutual

/-- The texts that a rule without patterns and names stands for. -/
def Rule.strings : Rule → Rows Char
  | r@⟨kind, _, _, content, members, _, _, _⟩ =>
    match kind with
    | .blank => 1
    | .string => {(r.stringValue?.getD "").toList}
    | .pattern | .symbol => 0
    | .sequence => (stringsMembers members).prod
    | .choice => (stringsMembers members).sum
    | .zeroOrMore => (stringsContent content)∗
    | .oneOrMore => stringsContent content * (stringsContent content)∗
    | .token | .immediateToken | .precedence | .precedenceLeft | .precedenceRight
    | .precedenceDynamic | .field | .renamed | .reserved => stringsContent content

def stringsContent : Option Rule → Rows Char
  | none => 0
  | some r => r.strings

def stringsMembers : List Rule → List (Rows Char)
  | [] => []
  | r :: rs => r.strings :: stringsMembers rs

end

theorem Pattern.Renders.sequence {ss : List (List Char)} {As : List (Rows Char)}
    (h : List.Forall₂ Renders ss As) : Renders ss.flatten As.prod := by
  induction h with
  | nil => exact .nil
  | cons hs _ ih =>
      rw [List.flatten_cons, List.prod_cons]
      exact hs.append ih

section

variable (owner : String)

mutual

/-- The induction is on the rule. -/
theorem Rule.renders : (r : Rule) → r.isPlain = true →
    ∃ source, r.patternSource owner = .ok source ∧ Renders source r.strings
  | ⟨kind, value, name, content, members, named, flags, context⟩ => by
    intro h
    have hc := contentRenders kind content
    cases kind with
    | blank => exact ⟨[], rfl, .nil⟩
    | string =>
        rcases value with _ | text | level
        · exact ⟨[], rfl, .nil⟩
        · exact ⟨escape text.toList, rfl, .text text.toList⟩
        · exact ⟨[], rfl, .nil⟩
    | pattern | symbol => cases h
    | sequence =>
        obtain ⟨ss, hs, hss⟩ := membersRender members h
        exact ⟨ss.flatten, by rw [Rule.patternSource, hs]; rfl, .sequence hss⟩
    | choice =>
        obtain ⟨hne, h⟩ := Bool.and_eq_true_iff.1 h
        obtain ⟨ss, hs, hss⟩ := membersRender members h
        refine ⟨_, by rw [Rule.patternSource, hs]; rfl, .choice hss ?_⟩
        rintro rfl
        cases members with
        | nil => cases hne
        | cons r rs => cases hss
    | zeroOrMore =>
        obtain ⟨s, hs, hrenders⟩ := hc h
        exact ⟨_, by rw [Rule.patternSource, hs]; rfl, hrenders.repeated false⟩
    | oneOrMore =>
        obtain ⟨s, hs, hrenders⟩ := hc h
        exact ⟨_, by rw [Rule.patternSource, hs]; rfl, hrenders.repeated true⟩
    | token | immediateToken | precedence | precedenceLeft | precedenceRight | precedenceDynamic
    | field | renamed | reserved => exact hc h

theorem contentRenders (kind : RuleKind) : (content : Option Rule) → isPlainContent content = true →
    ∃ source, contentSource owner kind content = .ok source ∧
      Renders source (stringsContent content)
  | none => nofun
  | some r => Rule.renders r

theorem membersRender : (members : List Rule) → arePlain members = true →
    ∃ ss, sources owner members = .ok ss ∧ List.Forall₂ Renders ss (stringsMembers members)
  | [] => fun _ => ⟨[], rfl, .nil⟩
  | r :: rs => by
    intro h
    obtain ⟨hr, hrs⟩ := Bool.and_eq_true_iff.1 h
    obtain ⟨s, hs, hrenders⟩ := Rule.renders r hr
    obtain ⟨ss, hss, hrest⟩ := membersRender rs hrs
    exact ⟨s :: ss, by rw [sources, hs, hss]; rfl, .cons hrenders hrest⟩

end

end

namespace Pattern

namespace Regex

variable {r : Regex} {w : List Char}

/-- The whole text is matched: the match that is found first is one up to its end. -/
def MatchesAll (r : Regex) (w : List Char) : Prop :=
  (cat r (test .textEnd)).find? w = some (0, byteLength w)

instance : Decidable (r.MatchesAll w) := inferInstanceAs (Decidable (_ = _))

theorem find?_eq_zero_iff {text : List Char} {stop : Nat} :
    r.find? text = some (0, stop) ↔ r.matchAt none text 0 = some stop := by
  rw [find?, findFrom.eq_def]
  cases hm : r.matchAt none text 0 with
  | some stop' => simp
  | none =>
      refine iff_of_false (fun h => ?_) (Option.some_ne_none stop).symm
      cases text with
      | nil => cases h
      | cons c text =>
          dsimp only at h
          split at h
          · cases h
          · have hle := le_findFrom h
            have hpos := c.utf8Size_pos
            omega

theorem spells_toEnd_iff {before : Option Char} {rest : List Char} :
    Task.Spells before [.once (cat r (test .textEnd))] w rest ↔
      rest = [] ∧ Task.Spells before [.once r] w [] := by
  have hend (before : Option Char) (v : List Char) :
      Task.Spells before [.once (test .textEnd)] v rest ↔ v = [] ∧ rest = [] := by
    rw [Task.Spells.expand_iff (by simp)]
    cases v <;> cases rest <;> simp [Frame.expand, Boundary.holds, Task.Spells.nil_iff]
  rw [Task.Spells.expand_iff (by simp)]
  simp only [Frame.expand, List.mem_singleton, exists_eq_left]
  rw [Task.Spells.cons_iff]
  simp only [hend]
  constructor
  · rintro ⟨u, v, rfl, hu, rfl, rfl⟩
    exact ⟨rfl, by rwa [List.append_nil]⟩
  · rintro ⟨rfl, h⟩
    exact ⟨w, [], (List.append_nil w).symm, h, rfl, rfl⟩

theorem matchesAll_iff : r.MatchesAll w ↔ Task.Spells none [.once r] w [] := by
  rw [MatchesAll, find?_eq_zero_iff]
  constructor
  · intro h
    obtain ⟨u, rest, rfl, -, hs⟩ := matchAt_sound h
    obtain ⟨rfl, hs⟩ := spells_toEnd_iff.1 hs
    rwa [List.append_nil]
  · intro h
    have hsome : ((cat r (test .textEnd)).matchAt none w 0).isSome :=
      matchAt_isSome_iff.2 ⟨w, [], (List.append_nil w).symm, spells_toEnd_iff.2 ⟨rfl, h⟩⟩
    obtain ⟨stop, hstop⟩ := Option.isSome_iff_exists.1 hsome
    obtain ⟨u, rest, rfl, rfl, hs⟩ := matchAt_sound hstop
    obtain ⟨rfl, -⟩ := spells_toEnd_iff.1 hs
    rw [hstop, List.append_nil, Nat.zero_add]

end Regex

/-- The anchor stands in front of the group, and nothing is lost of what the group spells. -/
theorem Renders.parse_anchored {source : List Char} {A : Rows Char} (h : Renders source A) :
    ∃ piece, parse? (group "^(?:" source ")") = some piece ∧
      ∀ w, piece.regex.MatchesAll w ↔ w ∈ A := by
  obtain ⟨hhead, pieces, hreads, hA⟩ := Renders.choice (.cons h .nil) (List.cons_ne_nil source [])
  rw [List.sum_singleton] at hA
  refine ⟨_, ((Reads.anchor.append hreads hhead).parse?_eq).trans (if_pos List.nodup_nil), fun w => ?_⟩
  have hregex : (Yield.andThen ⟨[{ regex := .test .textStart }], []⟩ ⟨pieces, []⟩).piece.regex =
      Regex.catAll (.test .textStart :: pieces.map (·.regex)) := by
    simp [Yield.piece, Piece.ofSequence_regex, Yield.andThen]
  rw [hregex, Regex.matchesAll_iff, Regex.spells_catAll, List.map_cons,
    Task.Spells.expand_iff (by simp)]
  simp only [Frame.expand, Boundary.holds, Option.isNone_none, if_true, List.mem_singleton,
    exists_eq_left]
  exact hA none w []

end Pattern

/-- The expression of a token that is put together from literals is well-formed, and matches just the
texts in full that the body of the token stands for. -/
theorem Rule.matchesAll_iff_strings (owner : String) (r : Rule) (h : r.isPlain = true) :
    ∃ source piece, r.patternSource owner = .ok source ∧
      parse? (group "^(?:" source ")") = some piece ∧
      (piece.depth ≤ maxDepth ∧ piece.regex.memory ≤ maxMemory →
        anchoredRegex owner source = .ok piece.regex) ∧
      ∀ w, piece.regex.MatchesAll w ↔ w ∈ r.strings := by
  obtain ⟨source, hs, hrenders⟩ := r.renders owner h
  obtain ⟨piece, hpiece, hw⟩ := hrenders.parse_anchored
  refine ⟨source, piece, hs, hpiece, fun hlimits => ?_, hw⟩
  rw [anchoredRegex, compile?, hpiece, Option.bind_eq_bind, Option.bind_some, if_pos hlimits]

/-- Braces, bars, a question mark and a dot as literals, in choices and repetitions. -/
def bracedRule : Rule :=
  .asToken (.seq [.literal "\x7b", .many (.oneOf [.literal "a|b", .empty, .literal "?"]),
    .many1 (.ranked 2 (.literal ".*")), .literal "\x7d"])

theorem matchesAll_iff_strings_braced : ∃ source regex,
    bracedRule.patternSource "braced" = .ok source ∧ anchoredRegex "braced" source = .ok regex ∧
    ∀ w, regex.MatchesAll w ↔ w ∈ bracedRule.strings := by
  obtain ⟨source, piece, hs, hp, hlimits, hw⟩ := bracedRule.matchesAll_iff_strings "braced" (by decide)
  have hwithin : (bracedRule.patternSource "braced").toOption.any (fun source =>
      (parse? (group "^(?:" source ")")).any fun piece =>
        piece.depth ≤ maxDepth ∧ piece.regex.memory ≤ maxMemory) = true := by decide +kernel
  rw [hs, Except.toOption, Option.any_some, hp, Option.any_some, decide_eq_true_iff] at hwithin
  exact ⟨source, piece.regex, hs, hlimits hwithin, hw⟩

end EarleyTree

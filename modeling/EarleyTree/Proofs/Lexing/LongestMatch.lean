import EarleyTree.Proofs.Language.Literals
import EarleyTree.Proofs.Lexing.Bounds
import EarleyTree.Proofs.Lexing.Scans
import Mathlib.Data.Prod.Lex
import Mathlib.Order.OrderDual

/-!
The terminal that is read at a place: of those expected that match there, the one that ranks highest
by the length of the match, literal before pattern, precedence, and the order of definition.
-/
namespace EarleyTree

open Text

namespace Pattern.Regex

variable {r : Regex} {text : List Char}

/-- A match of the expression, if there is one, stands at the front of the text. -/
def Leads (r : Regex) (text : List Char) : Prop := ∀ m ∈ r.find? text, m.1 = 0

instance : Decidable (r.Leads text) := inferInstanceAs (Decidable (∀ m ∈ r.find? text, m.1 = 0))

theorem le_findFrom {before : Option Char} {offset start stop : Nat}
    (h : r.findFrom before text offset = some (start, stop)) : offset ≤ start := by
  induction text generalizing before offset with
  | nil =>
      rw [findFrom] at h
      split at h
      · cases h
        exact Nat.le_refl _
      · cases h
  | cons c text ih =>
      rw [findFrom] at h
      split at h
      · cases h
        exact Nat.le_refl _
      · split at h
        · cases h
        · exact Nat.le_of_add_right_le (ih h)

theorem find?_eq (h : r.Leads text) : r.find? text = (r.matchAt none text 0).map (0, ·) := by
  rw [find?, findFrom.eq_def]
  cases hm : r.matchAt none text 0 with
  | some stop => rfl
  | none =>
      cases text with
      | nil => rfl
      | cons c rest =>
          dsimp only
          split
          · rfl
          · next ha =>
              refine Option.eq_none_iff_forall_ne_some.2 fun m hfind => ?_
              have hle := le_findFrom hfind
              have hzero : m.1 = 0 := h m (by rw [find?, findFrom, hm]; exact (if_neg ha).trans hfind)
              have hpos := c.utf8Size_pos
              omega

theorem leads_of_anchored (h : r.anchored = true) : r.Leads text := by
  intro m hm
  rw [find?, findFrom.eq_def] at hm
  split at hm
  · cases hm
    rfl
  · split at hm
    · cases hm
    · rw [if_pos h] at hm
      cases hm

end Pattern.Regex

namespace Candidate

variable {a b : Candidate}

/-- What candidates are compared by, in this order. The smaller symbol ranks higher. -/
def rank (c : Candidate) : ℕ ×ₗ Bool ×ₗ ℤ ×ₗ ℕᵒᵈ :=
  toLex (c.length, toLex (c.isString, toLex (c.precedence, OrderDual.toDual c.symbol)))

theorem rank_injective : Function.Injective rank := by
  rintro ⟨s, n, lit, level⟩ ⟨s', n', lit', level'⟩ h
  cases h
  rfl

theorem beats_iff : a.beats b = true ↔ b.rank < a.rank := by
  rw [rank, rank, Prod.Lex.toLex_lt_toLex, Prod.Lex.toLex_lt_toLex, Prod.Lex.toLex_lt_toLex,
    OrderDual.toDual_lt_toDual, beats]
  by_cases hn : a.length = b.length
  · by_cases hlit : a.isString = b.isString
    · by_cases hlevel : a.precedence = b.precedence
      · simp [hn, hlit, hlevel]
      · simp [hn, hlit, hlevel, Ne.symm hlevel]
    · cases ha : a.isString <;> cases hb : b.isString <;> simp_all
  · simp [hn, Ne.symm hn]

end Candidate

namespace LexToken

variable {token : LexToken} {rest : List Char}

/-- The length of the match at the front of the text, if any of the text is matched. -/
def length? (token : LexToken) (rest : List Char) : Option Nat :=
  (token.regex.matchAt none rest 0).filter (0 < ·)

def candidate (token : LexToken) (n : Nat) : Candidate :=
  ⟨token.symbol, n, token.isString, token.precedence⟩

theorem candidate?_eq (h : token.regex.Leads rest) :
    Lexer.candidate? rest token = (token.length? rest).map token.candidate := by
  rw [Lexer.candidate?, Pattern.Regex.find?_eq h, length?]
  cases token.regex.matchAt none rest 0 with
  | none => rfl
  | some n => cases n <;> rfl

theorem length?_eq_none (h : Lexer.candidate? rest token = none) : token.length? rest = none := by
  rw [Lexer.candidate?, Pattern.Regex.find?, Pattern.Regex.findFrom.eq_def] at h
  rw [length?]
  cases hm : token.regex.matchAt none rest 0 with
  | none => rfl
  | some n =>
      rw [hm] at h
      cases n with
      | zero => rfl
      | succ n => cases h

end LexToken

namespace Lexer

variable {lx : Lexer} {rest : List Char} {welcome : Symbol → Bool} {c : Candidate}
  {cs cs' : List Candidate} {best : Option Candidate} {position : Nat} {afterExtra : Bool}

theorem isSome_foldl_better (cs : List Candidate) (best : Option Candidate) :
    (cs.foldl better best).isSome = (best.isSome || !cs.isEmpty) := by
  induction cs generalizing best with
  | nil => simp
  | cons c cs ih =>
      rw [List.foldl_cons, ih]
      cases best with
      | none => rfl
      | some b =>
          rw [better]
          split <;> rfl

/-- The better of two is one that neither of them outranks. -/
theorem exists_better (best : Option Candidate) (c : Candidate) :
    ∃ d, better best c = some d ∧ c.rank ≤ d.rank ∧ ∀ b ∈ best, b.rank ≤ d.rank := by
  cases best with
  | none => exact ⟨c, rfl, le_refl _, fun b hb => absurd hb (Option.not_mem_none _)⟩
  | some b =>
      rw [better]
      split
      · next h =>
          refine ⟨c, rfl, le_refl _, fun b' hb => ?_⟩
          rw [← Option.some.inj hb]
          exact (Candidate.beats_iff.1 h).le
      · next h =>
          refine ⟨b, rfl, not_lt.1 fun hlt => h (Candidate.beats_iff.2 hlt), fun b' hb => ?_⟩
          rw [Option.some.inj hb]

theorem foldl_better_ge (h : cs.foldl better best = some c) :
    (∀ d ∈ cs, d.rank ≤ c.rank) ∧ ∀ b ∈ best, b.rank ≤ c.rank := by
  induction cs generalizing best with
  | nil =>
      refine ⟨fun d hd => absurd hd List.not_mem_nil, fun b hb => ?_⟩
      rw [Option.some.inj (hb.symm.trans h)]
  | cons e cs ih =>
      obtain ⟨d, hd, he, hb⟩ := exists_better best e
      obtain ⟨hrest, hbest⟩ := ih h
      have hdc : d.rank ≤ c.rank := hbest d hd
      exact ⟨List.forall_mem_cons.2 ⟨he.trans hdc, hrest⟩, fun b hm => (hb b hm).trans hdc⟩

/-- Ranks are told apart, so the candidate that is kept does not depend on the order. -/
theorem foldl_better_eq_some :
    cs.foldl better none = some c ↔ c ∈ cs ∧ ∀ d ∈ cs, d.rank ≤ c.rank := by
  constructor
  · exact fun h => ⟨(foldl_better_mem h).resolve_right nofun, (foldl_better_ge h).1⟩
  · rintro ⟨hm, hge⟩
    obtain ⟨d, hd⟩ : ∃ d, cs.foldl better none = some d := by
      refine Option.isSome_iff_exists.1 ?_
      rw [isSome_foldl_better, List.isEmpty_eq_false_iff.2 (List.ne_nil_of_mem hm)]
      rfl
    have hdm : d ∈ cs := (foldl_better_mem hd).resolve_right nofun
    rw [hd, Candidate.rank_injective (le_antisymm (hge d hdm) ((foldl_better_ge hd).1 c hm))]

theorem foldl_better_perm (h : cs.Perm cs') : cs.foldl better none = cs'.foldl better none := by
  refine Option.ext fun c => ?_
  simp only [foldl_better_eq_some, h.mem_iff]

theorem bestMatch_candidate {c : Candidate} (h : lx.bestMatch rest welcome = some c) :
    ∃ token ∈ lx.tables.lexTokens, candidate? rest token = some c ∧ welcome c.symbol = true := by
  obtain hm | hb := foldl_better_mem h
  · obtain ⟨token, hm, hc⟩ := List.mem_filterMap.1 hm
    obtain ⟨hm, hw⟩ := List.mem_filter.1 hm
    exact ⟨token, hm, hc, candidate?_symbol hc ▸ hw⟩
  · cases hb

theorem candidate?_eq_none (h : lx.bestMatch rest welcome = none) {token : LexToken}
    (hm : token ∈ lx.tables.lexTokens) (hw : welcome token.symbol = true) :
    candidate? rest token = none := by
  refine Option.eq_none_iff_forall_ne_some.2 fun c hc => ?_
  have hmem : c ∈ (lx.tables.lexTokens.filter fun t => welcome t.symbol).filterMap (candidate? rest) :=
    List.mem_filterMap.2 ⟨token, List.mem_filter.2 ⟨hm, hw⟩, hc⟩
  have hsome := congrArg Option.isSome h
  rw [bestMatch, isSome_foldl_better, List.isEmpty_eq_false_iff.2 (List.ne_nil_of_mem hmem)] at hsome
  cases hsome

theorem length_pos_of_candidate? {token : LexToken} {c : Candidate}
    (h : candidate? rest token = some c) : 0 < c.length := by
  rw [candidate?] at h
  split at h
  · split at h
    · cases h
    · next hpos =>
        cases h
        exact Nat.pos_of_ne_zero hpos
  · cases h

/-- A terminal is welcome and matches, and no other that is and does ranks higher. -/
structure Wins (lx : Lexer) (rest : List Char) (welcome : Symbol → Bool) (token : LexToken) (n : Nat) :
    Prop where
  mem : token ∈ lx.tables.lexTokens
  isWelcome : welcome token.symbol = true
  length : token.length? rest = some n
  greatest : ∀ other ∈ lx.tables.lexTokens, welcome other.symbol = true →
    ∀ m, other.length? rest = some m → (other.candidate m).rank ≤ (token.candidate n).rank

section

variable (hleads : ∀ token ∈ lx.tables.lexTokens, welcome token.symbol = true → token.regex.Leads rest)

include hleads

theorem mem_candidates : c ∈ (lx.tables.lexTokens.filter fun t => welcome t.symbol).filterMap
      (candidate? rest) ↔ ∃ token ∈ lx.tables.lexTokens, welcome token.symbol = true ∧
        ∃ n, token.length? rest = some n ∧ token.candidate n = c := by
  rw [List.mem_filterMap]
  constructor
  · rintro ⟨token, hm, hc⟩
    obtain ⟨hm, he⟩ := List.mem_filter.1 hm
    rw [LexToken.candidate?_eq (hleads token hm he)] at hc
    exact ⟨token, hm, he, Option.map_eq_some_iff.1 hc⟩
  · rintro ⟨token, hm, he, hc⟩
    refine ⟨token, List.mem_filter.2 ⟨hm, he⟩, ?_⟩
    rw [LexToken.candidate?_eq (hleads token hm he)]
    exact Option.map_eq_some_iff.2 hc

theorem bestMatch_eq_some_iff : lx.bestMatch rest welcome = some c ↔
    ∃ token n, lx.Wins rest welcome token n ∧ token.candidate n = c := by
  rw [bestMatch, foldl_better_eq_some, mem_candidates hleads]
  constructor
  · rintro ⟨⟨token, hm, he, n, hn, rfl⟩, hge⟩
    refine ⟨token, n, ⟨hm, he, hn, fun other ho heo m hm => hge _ ?_⟩, rfl⟩
    exact (mem_candidates hleads).2 ⟨other, ho, heo, m, hm, rfl⟩
  · rintro ⟨token, n, hwins, rfl⟩
    refine ⟨⟨token, hwins.mem, hwins.isWelcome, n, hwins.length, rfl⟩, fun d hd => ?_⟩
    obtain ⟨other, ho, heo, m, hm, rfl⟩ := (mem_candidates hleads).1 hd
    exact hwins.greatest other ho heo m hm

theorem bestMatch_eq_none_iff : lx.bestMatch rest welcome = none ↔
    ∀ token ∈ lx.tables.lexTokens, welcome token.symbol = true → token.length? rest = none := by
  constructor
  · exact fun h token hm hw => LexToken.length?_eq_none (candidate?_eq_none h hm hw)
  · intro h
    refine Option.eq_none_iff_forall_ne_some.2 fun c hc => ?_
    obtain ⟨token, n, hwins, -⟩ := (bestMatch_eq_some_iff hleads).1 hc
    cases (h token hwins.mem hwins.isWelcome).symm.trans hwins.length

end

theorem token_eq_matched? (saved : Saved) (hs : lx.scanner = none) (hp : position < byteLength lx.text)
    {expected : Option (Symbol → Bool)} :
    (lx.token saved position expected afterExtra).1 = lx.matched? position expected afterExtra := by
  have hx : lx.scanExternal saved position (lx.welcomes expected) false = none := by
    rw [scanExternal, hs]
    rfl
  rw [token_eq hp, hx]

theorem matched?_eq_map (hrest : suffix? lx.text position = some rest) (welcome : Symbol → Bool) :
    lx.matched? position (some welcome) afterExtra =
      (lx.bestMatch rest welcome).map fun best =>
        ⟨(lx.keyword? best rest welcome).getD best.symbol, position, position + best.length,
          afterExtra, none⟩ := by
  have hall : (fun s => (some welcome).all (· s) && !((some welcome).isNone && lx.tables.isExtra s)) =
      welcome := funext fun s => Bool.and_true _
  rw [matched?, hrest, Option.bind_eq_bind, Option.bind_some, hall]
  cases lx.bestMatch rest welcome <;> rfl

/-- At the end of the text there is nothing to match. -/
theorem bestMatch_nil : lx.bestMatch [] welcome = none := by
  refine Option.eq_none_iff_forall_ne_some.2 fun c hc => ?_
  exact absurd (bestMatch_le hc) (Nat.not_le.2 (bestMatch_length hc))

theorem token_eq_map (hs : lx.scanner = none) (hrest : suffix? lx.text position = some rest)
    (welcome : Symbol → Bool) (saved : Saved) (afterExtra : Bool) :
    (lx.token saved position (some welcome) afterExtra).1 =
      (lx.bestMatch rest welcome).map fun best =>
        ⟨(lx.keyword? best rest welcome).getD best.symbol, position, position + best.length,
          afterExtra, none⟩ := by
  by_cases hp : position < byteLength lx.text
  · rw [token_eq_matched? saved hs hp, matched?_eq_map hrest]
  · have hsum := add_byteLength_suffix hrest
    cases rest with
    | nil =>
        rw [Lexer.token, if_pos (Nat.not_lt.1 hp), bestMatch_nil]
        rfl
    | cons c rest =>
        have hpos := c.utf8Size_pos
        rw [byteLength] at hsum
        omega

/-- The lexer with its terminals in another order. -/
def withTokens (lx : Lexer) (tokens : List LexToken) : Lexer :=
  { lx with tables := { lx.tables with lexTokens := tokens } }

section

variable {tokens : List LexToken} (h : tokens.Perm lx.tables.lexTokens)

include h

theorem bestMatch_withTokens (rest : List Char) (welcome : Symbol → Bool) :
    (lx.withTokens tokens).bestMatch rest welcome = lx.bestMatch rest welcome :=
  foldl_better_perm ((h.filter _).filterMap _)

theorem token_withTokens (saved : Saved) (position : Nat) (expected : Option (Symbol → Bool))
    (afterExtra : Bool) : (lx.withTokens tokens).token saved position expected afterExtra =
      lx.token saved position expected afterExtra := by
  rw [Lexer.token, Lexer.token]
  simp only [bestMatch_withTokens h]
  rfl

end

end Lexer

/-- The symbol under which a match is read: the keyword that the word token spells, if it is welcome,
and else the terminal itself. -/
inductive Tables.ReadsAs (t : Tables) (welcome : Symbol → Bool) (token : LexToken) (text : String) :
    Symbol → Prop
  | keyword {s : Symbol} (hword : t.word = some token.symbol) (hs : t.IsKeyword text s)
      (hw : welcome s = true) : ReadsAs t welcome token text s
  | itself (h : t.word = some token.symbol → ∀ s, t.IsKeyword text s → welcome s = false) :
      ReadsAs t welcome token text token.symbol

namespace Lexer

variable {lx : Lexer} {g : Grammar} {hasScanner : Bool} (ht : g.tables hasScanner = .ok lx.tables)
  {token : LexToken} {n : Nat} {rest : List Char} {welcome : Symbol → Bool} {s : Symbol}

include ht

theorem keyword?_eq_some_iff {c : Candidate} : lx.keyword? c rest welcome = some s ↔
    lx.tables.word = some c.symbol ∧
      lx.tables.IsKeyword (String.ofList (takeBytes rest c.length)) s ∧ welcome s = true := by
  rw [keyword?, ← Grammar.lookup_keywords_iff ht]
  by_cases hword : lx.tables.word = some c.symbol
  · rw [if_pos hword, Option.filter_eq_some_iff, and_iff_right hword]
  · rw [if_neg hword]
    exact iff_of_false (Option.some_ne_none s).symm fun h => hword h.1

theorem keyword?_getD_iff : (lx.keyword? (token.candidate n) rest welcome).getD token.symbol = s ↔
    lx.tables.ReadsAs welcome token (String.ofList (takeBytes rest n)) s := by
  constructor
  · rintro rfl
    cases hk : lx.keyword? (token.candidate n) rest welcome with
    | some k =>
        obtain ⟨hword, hs, hw⟩ := (keyword?_eq_some_iff ht).1 hk
        exact .keyword hword hs hw
    | none =>
        refine .itself fun hword k hs => Bool.eq_false_iff.2 fun hw => ?_
        cases hk.symm.trans ((keyword?_eq_some_iff ht).2 ⟨hword, hs, hw⟩)
  · intro h
    cases h with
    | keyword hword hs hw => rw [(keyword?_eq_some_iff ht).2 ⟨hword, hs, hw⟩, Option.getD_some]
    | itself h =>
        have hnone : lx.keyword? (token.candidate n) rest welcome = none := by
          refine Option.eq_none_iff_forall_ne_some.2 fun k hk => ?_
          obtain ⟨hword, hs, hw⟩ := (keyword?_eq_some_iff ht).1 hk
          cases hw.symm.trans (h hword k hs)
        rw [hnone, Option.getD_none]

end Lexer

/-- The token at a place, if the expected terminals match no further on: there is one exactly if one
of them matches, it is read as the highest of these, and their order does not matter. -/
theorem Language.reads_greatest {g : Grammar} {l : Language} {handle : Nat}
    (hl : Language.compile g none handle = .ok l) {text rest : List Char} {position : Nat}
    (hrest : suffix? text position = some rest) (expected : Symbol → Bool)
    (hleads : ∀ token ∈ l.tables.lexTokens, expected token.symbol = true → token.regex.Leads rest)
    (saved : Saved) (afterExtra : Bool) :
    (((l.lexer text).token saved position (some expected) afterExtra).1 = none ↔
      ∀ token ∈ l.tables.lexTokens, expected token.symbol = true → token.length? rest = none) ∧
    (∀ t, ((l.lexer text).token saved position (some expected) afterExtra).1 = some t ↔
      ∃ token n s, (l.lexer text).Wins rest expected token n ∧
        l.tables.ReadsAs expected token (String.ofList (takeBytes rest n)) s ∧
        t = ⟨s, position, position + n, afterExtra, none⟩) ∧
    ∀ tokens : List LexToken, tokens.Perm l.tables.lexTokens →
      ((l.lexer text).withTokens tokens).token saved position (some expected) afterExtra =
        (l.lexer text).token saved position (some expected) afterExtra := by
  have ht : g.tables false = .ok (l.lexer text).tables := Language.tables_of_compile hl
  have htoken : ((l.lexer text).token saved position (some expected) afterExtra).1 = _ :=
    Lexer.token_eq_map (Language.scanner_of_compile hl) hrest expected saved afterExtra
  refine ⟨?_, fun t => ?_, fun tokens hperm => Lexer.token_withTokens hperm _ _ _ _⟩
  · rw [htoken, Option.map_eq_none_iff]
    exact Lexer.bestMatch_eq_none_iff hleads
  · rw [htoken, Option.map_eq_some_iff]
    constructor
    · rintro ⟨best, hbest, rfl⟩
      obtain ⟨token, n, hwins, rfl⟩ := (Lexer.bestMatch_eq_some_iff hleads).1 hbest
      exact ⟨token, n, _, hwins, (Lexer.keyword?_getD_iff ht).1 rfl, rfl⟩
    · rintro ⟨token, n, s, hwins, hs, rfl⟩
      refine ⟨token.candidate n, (Lexer.bestMatch_eq_some_iff hleads).2 ⟨token, n, hwins, rfl⟩, ?_⟩
      rw [← (Lexer.keyword?_getD_iff ht).2 hs]
      rfl

/-- Names, and a keyword that could be one. -/
def wordedGrammar : Grammar :=
  { ({ name := "worded" } : Grammar).define "worded"
      (.seq [.oneOf [.literal "if", .ref "name"], .many (.ref "name")]) |>.define "name"
      (.regex "[a-z]+") with word := some "name" }

theorem reads_greatest_wordedGrammar : ∃ l t token n s,
    Language.compile wordedGrammar none 0 = .ok l ∧
    (∀ token ∈ l.tables.lexTokens, token.regex.Leads ['i', 'f', ' ']) ∧
    ((l.lexer ['i', 'f', ' ']).token [] 0 (some fun _ => true) false).1 = some t ∧
    (l.lexer ['i', 'f', ' ']).Wins ['i', 'f', ' '] (fun _ => true) token n ∧
    l.tables.ReadsAs (fun _ => true) token (String.ofList (takeBytes ['i', 'f', ' '] n)) s ∧
    t = ⟨s, 0, 0 + n, false, none⟩ := by
  obtain ⟨l, hl, htest⟩ := exists_of_compiles
    (show compiles wordedGrammar (fun l =>
        decide (∀ token ∈ l.tables.lexTokens, token.regex.Leads ['i', 'f', ' ']) &&
        ((l.lexer ['i', 'f', ' ']).token [] 0 (some fun _ => true) false).1.isSome) = true
      by decide +kernel)
  simp only [Bool.and_eq_true, decide_eq_true_iff] at htest
  obtain ⟨hleads, hsome⟩ := htest
  obtain ⟨t, ht⟩ := Option.isSome_iff_exists.1 hsome
  obtain ⟨-, hread, -⟩ := Language.reads_greatest hl (suffix?_zero ['i', 'f', ' ']) (fun _ => true)
    (fun token hm _ => hleads token hm) [] false
  obtain ⟨token, n, s, hwins, hs, he⟩ := (hread t).1 ht
  exact ⟨l, t, token, n, s, hl, hleads, ht, hwins, hs, he⟩

/-- A pattern that closes the group which the anchor stands in front of. -/
def looseGrammar : Grammar :=
  ({ name := "loose" } : Grammar).define "loose" (.seq [.ref "t"]) |>.define "t"
    (.regex "a))|(?:(?:b")

/-- Nothing matches at the front, and still there is a token. -/
theorem not_reads_looseGrammar : ∃ l t, Language.compile looseGrammar none 0 = .ok l ∧
    (∀ token ∈ l.tables.lexTokens, token.length? ['x', 'b'] = none) ∧
    ((l.lexer ['x', 'b']).token [] 0 (some fun _ => true) false).1 = some t ∧
    t.start = 0 ∧ t.stop = 2 := by
  obtain ⟨l, hl, htest⟩ := exists_of_compiles
    (show compiles looseGrammar (fun l =>
        decide (∀ token ∈ l.tables.lexTokens, token.length? ['x', 'b'] = none) &&
        ((l.lexer ['x', 'b']).token [] 0 (some fun _ => true) false).1.any fun t =>
          t.start == 0 && t.stop == 2) = true
      by decide +kernel)
  simp only [Bool.and_eq_true, decide_eq_true_iff, Option.any_eq_true, beq_iff_eq] at htest
  obtain ⟨hnone, t, ht, hstart, hstop⟩ := htest
  exact ⟨l, t, hl, hnone, ht, hstart, hstop⟩

end EarleyTree

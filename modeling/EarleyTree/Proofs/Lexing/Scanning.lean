import EarleyTree.Lexing.Lexer
import EarleyTree.Proofs.Language.Compiled

/-!
What the lexer finds at a place: an external token that was asked for, or what a terminal matches
there.
-/
namespace EarleyTree.Lexer

variable {lx : Lexer} {saved saved' : Saved} {position next : Nat} {afterExtra : Bool}
  {welcome : Symbol → Bool} {token : Token}

/-- Which externals the scanner is asked for. -/
def valid (lx : Lexer) (welcome : Symbol → Bool) (extrasOnly : Bool) : List Bool :=
  lx.tables.externals.map fun s => lx.tables.isExtra s || !extrasOnly && welcome s

theorem scanExternal_eq_some {extrasOnly : Bool}
    (h : lx.scanExternal saved position welcome extrasOnly = some (token, saved')) :
    ∃ scanner cursor, lx.scanner = some scanner ∧
      scanner.scan saved (.ofText lx.text position) (lx.valid welcome extrasOnly) =
        some (cursor, saved') ∧
      lx.tables.externals[cursor.resultSymbol]? = some token.symbol ∧
      (lx.tables.isExtra token.symbol || !extrasOnly && welcome token.symbol) = true ∧
      cursor.tokenStart < cursor.tokenEnd ∧ token = {
        symbol := token.symbol
        start := cursor.tokenStart
        stop := cursor.tokenEnd
        afterExtra := false
        wrapper := lx.tables.wrapper? token.symbol } := by
  rw [scanExternal] at h
  obtain ⟨scanner, hscanner, h⟩ := Option.bind_eq_some_iff.1 h
  dsimp only at h
  split at h
  · cases h
  · obtain ⟨⟨cursor, saved₁⟩, hscan, h⟩ := Option.bind_eq_some_iff.1 h
    obtain ⟨s, hs, h⟩ := Option.bind_eq_some_iff.1 h
    split at h
    · cases h
    · next hif =>
        cases h
        rw [Bool.or_eq_true, not_or, decide_eq_true_iff, Nat.not_le] at hif
        refine ⟨scanner, cursor, hscanner, hscan, hs, ?_, hif.1, rfl⟩
        obtain ⟨-, hvalid⟩ := hif
        rw [Bool.not_eq_true, Bool.not_eq_false', List.getD_eq_getElem?_getD, List.getElem?_map,
          hs] at hvalid
        exact hvalid

theorem scanExternal_mem {extrasOnly : Bool}
    (h : lx.scanExternal saved position welcome extrasOnly = some (token, saved')) :
    token.symbol ∈ lx.tables.externals := by
  obtain ⟨_, _, -, -, hs, -⟩ := scanExternal_eq_some h
  exact List.mem_of_getElem? hs

theorem better_eq_or {best : Option Candidate} {c d : Candidate} (h : better best c = some d) :
    d = c ∨ best = some d := by
  unfold better at h
  split at h
  · split at h
    · exact .inl (Option.some.inj h).symm
    · exact .inr h
  · exact .inl (Option.some.inj h).symm

theorem foldl_better_mem {cs : List Candidate} {best : Option Candidate} {c : Candidate}
    (h : cs.foldl better best = some c) : c ∈ cs ∨ best = some c := by
  induction cs generalizing best with
  | nil => exact .inr h
  | cons d cs ih =>
      obtain hm | hb := ih h
      · exact .inl (List.mem_cons_of_mem _ hm)
      · obtain rfl | hb := better_eq_or hb
        · exact .inl List.mem_cons_self
        · exact .inr hb

theorem candidate?_symbol {rest : List Char} {token : LexToken} {c : Candidate}
    (h : candidate? rest token = some c) : token.symbol = c.symbol := by
  rw [candidate?] at h
  split at h
  · split at h
    · cases h
    · cases h
      rfl
  · cases h

theorem bestMatch_mem {rest : List Char} {welcome : Symbol → Bool} {c : Candidate}
    (h : lx.bestMatch rest welcome = some c) :
    (∃ token ∈ lx.tables.lexTokens, token.symbol = c.symbol) ∧ welcome c.symbol = true := by
  obtain hm | hb := foldl_better_mem h
  · obtain ⟨token, hm, hc⟩ := List.mem_filterMap.1 hm
    obtain ⟨hm, hw⟩ := List.mem_filter.1 hm
    exact ⟨⟨token, hm, candidate?_symbol hc⟩, candidate?_symbol hc ▸ hw⟩
  · cases hb

theorem keyword?_mem {c : Candidate} {rest : List Char} {welcome : Symbol → Bool} {s : Symbol}
    (h : lx.keyword? c rest welcome = some s) : ∃ e ∈ lx.tables.keywords, e.2 = s := by
  rw [keyword?] at h
  split at h
  · obtain ⟨before, after, he, -⟩ := List.lookup_eq_some_iff.1 (Option.filter_eq_some_iff.1 h).1
    exact ⟨_, he ▸ List.mem_append_right before List.mem_cons_self, rfl⟩
  · cases h

/-- The ways in which a token is found: by the scanner, or as the best match at the place, with the
keyword that takes its place. -/
inductive Finds (lx : Lexer) (saved : Saved) (position : Nat) (token : Token) : Prop
  | external {t : Token} {saved' : Saved} {welcome : Symbol → Bool}
      (h : lx.scanExternal saved position welcome false = some (t, saved'))
      (hsymbol : token.symbol = t.symbol) (hstart : token.start = t.start)
      (hstop : token.stop = t.stop)
  | matched {rest : List Char} {best : Candidate} {welcome : Symbol → Bool}
      (hrest : Text.suffix? lx.text position = some rest)
      (hbest : lx.bestMatch rest welcome = some best)
      (hsymbol : token.symbol = best.symbol ∨ ∃ e ∈ lx.tables.keywords, e.2 = token.symbol)
      (hstart : token.start = position) (hstop : token.stop = position + best.length)

/-- What a token may be where `expected` is expected, or any where nothing is said. -/
def welcomes (lx : Lexer) (expected : Option (Symbol → Bool)) (s : Symbol) : Bool :=
  expected.elim (decide (s < lx.tables.symbols.size)) (· s)

/-- The token that a terminal matches, or a keyword in its place. -/
def matched? (lx : Lexer) (position : Nat) (expected : Option (Symbol → Bool)) (afterExtra : Bool) :
    Option Token := do
  let rest ← Text.suffix? lx.text position
  let best ← lx.bestMatch rest fun s =>
    expected.all (· s) && !(expected.isNone && lx.tables.isExtra s)
  return {
    symbol := (lx.keyword? best rest fun s => expected.all (· s)).getD best.symbol
    start := position
    stop := position + best.length
    afterExtra := afterExtra }

variable {expected : Option (Symbol → Bool)}

theorem matched?_eq_some (h : lx.matched? position expected afterExtra = some token) :
    ∃ rest best welcome, Text.suffix? lx.text position = some rest ∧
      lx.bestMatch rest welcome = some best ∧
      (token.symbol = best.symbol ∨ ∃ e ∈ lx.tables.keywords, e.2 = token.symbol) ∧
      token.start = position ∧ token.stop = position + best.length ∧
      token.afterExtra = afterExtra := by
  rw [matched?] at h
  obtain ⟨rest, hrest, h⟩ := Option.bind_eq_some_iff.1 h
  obtain ⟨best, hbest, h⟩ := Option.bind_eq_some_iff.1 h
  cases h
  refine ⟨rest, best, _, hrest, hbest, ?_, rfl, rfl, rfl⟩
  cases hk : lx.keyword? best rest fun s => expected.all (· s) with
  | none => exact .inl rfl
  | some s => exact .inr (keyword?_mem hk)

/-- A token of the scanner comes first, if it is accepted. -/
theorem token_eq (hp : position < Text.byteLength lx.text) :
    lx.token saved position expected afterExtra =
      match lx.scanExternal saved position (lx.welcomes expected) false with
      | some (token, saved) =>
        if expected.all (· token.symbol) then (some { token with afterExtra := afterExtra }, saved)
        else (lx.matched? position expected afterExtra, saved)
      | none => (lx.matched? position expected afterExtra, saved) := by
  have hw : (fun s => expected.elim (decide (s < lx.tables.symbols.size)) (· s)) =
      lx.welcomes expected := rfl
  rw [Lexer.token, if_neg (Nat.not_le.2 hp)]
  dsimp only
  rw [hw]
  rcases lx.scanExternal saved position (lx.welcomes expected) false with - | ⟨token, saved'⟩
  · rfl
  · dsimp only
    by_cases ht : expected.all (· token.symbol) = true
    · rw [if_pos ht, if_pos ht]
    · rw [if_neg ht, if_neg ht]
      rfl

theorem token_eq_some (h : (lx.token saved position expected afterExtra).1 = some token) :
    position < Text.byteLength lx.text ∧ token.afterExtra = afterExtra ∧
      lx.Finds saved position token := by
  have hp : position < Text.byteLength lx.text := by
    by_contra hp
    rw [Lexer.token, if_pos (Nat.not_lt.1 hp)] at h
    cases h
  have hmatched (h : lx.matched? position expected afterExtra = some token) :
      token.afterExtra = afterExtra ∧ lx.Finds saved position token := by
    obtain ⟨rest, best, _, hrest, hbest, hsymbol, hstart, hstop, hafter⟩ := matched?_eq_some h
    exact ⟨hafter, .matched hrest hbest hsymbol hstart hstop⟩
  rw [token_eq hp] at h
  refine ⟨hp, ?_⟩
  split at h
  · next hs =>
      split at h
      · cases h
        exact ⟨rfl, .external hs rfl rfl rfl⟩
      · exact hmatched h
  · exact hmatched h

theorem Finds.isTerminal (ht : lx.tables.WellFormed) (h : lx.Finds saved position token) :
    lx.tables.isTerminal token.symbol := by
  cases h with
  | external h hs => exact hs ▸ ht.externals _ (scanExternal_mem h)
  | matched _ hbest hs =>
      obtain hs | ⟨e, hm, hs⟩ := hs
      · obtain ⟨⟨lexToken, hm, hl⟩, -⟩ := bestMatch_mem hbest
        exact hs ▸ hl ▸ ht.lexTokens lexToken hm
      · exact hs ▸ ht.keywords e hm

theorem errorToken_eq_some (h : lx.errorToken position afterExtra = some token) :
    token.symbol = errorSymbol ∧ token.start = position ∧ token.afterExtra = afterExtra := by
  rw [errorToken] at h
  obtain ⟨rest, -, h⟩ := Option.bind_eq_some_iff.1 h
  obtain ⟨c, -, h⟩ := Option.bind_eq_some_iff.1 h
  cases h
  exact ⟨rfl, rfl, rfl⟩

/-- An extra that the lexer can find, with the rule that wraps it. -/
structure IsExtra (lx : Lexer) (token : Token) : Prop where
  extra : lx.tables.isExtra token.symbol = true
  wrapper : token.wrapper = lx.tables.wrapper? token.symbol
  symbol : token.symbol ∈ lx.tables.externals ∨
    ∃ lexToken ∈ lx.tables.lexTokens, lexToken.symbol = token.symbol

theorem IsExtra.isTerminal (h : lx.IsExtra token) (ht : lx.tables.WellFormed) :
    lx.tables.isTerminal token.symbol = true := by
  obtain hs | ⟨lexToken, hm, hs⟩ := h.symbol
  · exact ht.externals _ hs
  · exact hs ▸ ht.lexTokens lexToken hm

theorem IsExtra.exists_mem (h : lx.IsExtra token) :
    ∃ e ∈ lx.tables.extraTokens, token.wrapper.getD token.symbol = e.2.getD e.1 := by
  obtain ⟨w, hw⟩ := Option.isSome_iff_exists.1 h.extra
  obtain ⟨before, after, he, -⟩ := List.lookup_eq_some_iff.1 hw
  refine ⟨(token.symbol, w), he ▸ List.mem_append_right before List.mem_cons_self, ?_⟩
  rw [h.wrapper, Tables.wrapper?, hw]
  rfl

/-- The ways in which a piece is passed over: an extra of the scanner, an extra that a terminal matches,
or what is skipped in silence. -/
inductive Passes (lx : Lexer) (saved : Saved) (position : Nat) : Option Token → Nat → Prop
  | external {t : Token} {saved' : Saved} {welcome : Symbol → Bool}
      (h : lx.scanExternal saved position welcome true = some (t, saved')) :
      Passes lx saved position (some { t with afterExtra := true }) t.stop
  | matched {rest : List Char} {e : Candidate} (hrest : Text.suffix? lx.text position = some rest)
      (he : lx.bestMatch rest lx.tables.isExtra = some e) (afterExtra : Bool) :
      Passes lx saved position
        (some ⟨e.symbol, position, position + e.length, afterExtra, lx.tables.wrapper? e.symbol⟩)
        (position + e.length)
  | skipped {rest : List Char} (hrest : Text.suffix? lx.text position = some rest) :
      Passes lx saved position none (position + lx.skipLength rest)

/-- What is passed over is not empty: the scanner is asked first, then the longer of an extra and what is
blank is taken. -/
theorem skipOne_eq_some {extra : Option Token}
    (h : lx.skipOne saved position afterExtra welcome = (some (extra, next), saved')) :
    (∃ t, lx.scanExternal saved position welcome true = some (t, saved') ∧
        extra = some { t with afterExtra := true } ∧ next = t.stop) ∨
      ∃ rest, Text.suffix? lx.text position = some rest ∧
        ((∃ e, lx.bestMatch rest lx.tables.isExtra = some e ∧ 0 < e.length ∧
            extra = some ⟨e.symbol, position, position + e.length, afterExtra,
              lx.tables.wrapper? e.symbol⟩ ∧ next = position + e.length) ∨
          0 < lx.skipLength rest ∧ extra = none ∧ next = position + lx.skipLength rest) := by
  rw [skipOne] at h
  split at h
  · next hx =>
      split at h
      · cases h
        exact .inl ⟨_, hx, rfl, rfl⟩
      · cases h
  · split at h
    · cases h
    · next rest hrest =>
        refine .inr ⟨rest, hrest, ?_⟩
        dsimp only at h
        split at h
        · next e he =>
            split at h
            · next hlt =>
                cases h
                exact .inl ⟨e, he, Nat.zero_lt_of_lt hlt.1, rfl, rfl⟩
            · split at h
              · next hlt =>
                  cases h
                  exact .inr ⟨Nat.zero_lt_of_lt hlt, rfl, rfl⟩
              · cases h
        · split at h
          · next hlt =>
              cases h
              exact .inr ⟨Nat.zero_lt_of_lt hlt, rfl, rfl⟩
          · cases h

theorem skipOne_passes {extra : Option Token}
    (h : lx.skipOne saved position afterExtra welcome = (some (extra, next), saved')) :
    lx.Passes saved position extra next := by
  obtain ⟨t, hx, rfl, rfl⟩ | ⟨rest, hrest, ⟨e, he, -, rfl, rfl⟩ | ⟨-, rfl, rfl⟩⟩ := skipOne_eq_some h
  · exact .external hx
  · exact .matched hrest he afterExtra
  · exact .skipped hrest

theorem Passes.isExtra {extra : Option Token} (h : lx.Passes saved position extra next) :
    ∀ token ∈ extra, lx.IsExtra token := by
  cases h with
  | external hx =>
      obtain ⟨_, _, -, -, -, hextra, -, he⟩ := scanExternal_eq_some hx
      have hmem := scanExternal_mem hx
      rintro _ ⟨⟩
      exact ⟨by simpa using hextra, congrArg Token.wrapper he, .inl hmem⟩
  | matched _ he =>
      rintro _ ⟨⟩
      exact ⟨(bestMatch_mem he).2, rfl, .inr (bestMatch_mem he).1⟩
  | skipped => exact fun _ hm => absurd hm (Option.not_mem_none _)

/-- Each extra is a piece that is passed over somewhere. -/
theorem skipFrom_passes (welcome : Symbol → Bool) (fuel : Nat) (saved : Saved) (position : Nat)
    (afterExtra : Bool) : ∀ t ∈ (lx.skipFrom welcome fuel saved position afterExtra).1.extras,
      ∃ saved position next, lx.Passes saved position (some t) next := by
  induction fuel generalizing saved position afterExtra with
  | zero => exact fun t hm => absurd hm List.not_mem_nil
  | succ fuel ih =>
      rw [skipFrom]
      split
      · exact fun t hm => absurd hm List.not_mem_nil
      · split
        · exact fun t hm => absurd hm List.not_mem_nil
        · next token next saved' hone =>
            intro t hm
            obtain hm | hm := List.mem_append.1 hm
            · obtain rfl := Option.mem_toList.1 hm
              exact ⟨saved, position, next, skipOne_passes hone⟩
            · exact ih saved' next true t hm

theorem skipFrom_isExtra (welcome : Symbol → Bool) (fuel : Nat) (saved : Saved) (position : Nat)
    (afterExtra : Bool) :
    ∀ t ∈ (lx.skipFrom welcome fuel saved position afterExtra).1.extras, lx.IsExtra t := by
  intro t ht
  obtain ⟨_, _, _, h⟩ := skipFrom_passes welcome fuel saved position afterExtra t ht
  exact h.isExtra t rfl

/-- Where nothing is passed over, the token is looked for at once. -/
theorem skipFrom_afterExtra (welcome : Symbol → Bool) (fuel : Nat) (saved : Saved) (position : Nat) :
    (lx.skipFrom welcome fuel saved position true).1.afterExtra = true ∧
      ((lx.skipFrom welcome fuel saved position false).1.afterExtra = false →
        (lx.skipFrom welcome fuel saved position false).1 = ⟨[], position, false⟩) := by
  induction fuel generalizing saved position with
  | zero => exact ⟨rfl, fun _ => rfl⟩
  | succ fuel ih =>
      rw [skipFrom, skipFrom]
      split
      · exact ⟨rfl, fun _ => rfl⟩
      · constructor
        · split
          · rfl
          · exact (ih _ _).1
        · split
          · exact fun _ => rfl
          · exact fun h => absurd ((ih _ _).1.symm.trans h) Bool.noConfusion

end EarleyTree.Lexer

import EarleyTree.Proofs.Checked.Lookup
import EarleyTree.Proofs.Lexing.Boundaries

/-!
The lexer with checked slices of the text: where one does not begin and end between two characters,
there is a fault. From a place between characters on, none is met.
-/
namespace EarleyTree.Checked

open Text

/-- The text from a place on. -/
def textFrom (text : List Char) (n : Nat) : Except Fault (List Char) := demand .text (suffix? text n)

/-- The text up to a place. -/
def textUpTo (text : List Char) (n : Nat) : Except Fault (List Char) :=
  if isBoundary text n then return takeBytes text n else .error .text

section

variable (lx : Lexer)

def skipOne (saved : Saved) (position : Nat) (afterExtra : Bool) (welcome : Symbol → Bool) :
    Except Fault (Option (Option Token × Nat) × Saved) :=
  match lx.scanExternal saved position welcome true with
  | some (token, saved) =>
    if token.wrapper.isSome || lx.tables.isExtra token.symbol then
      return (some (some { token with afterExtra := true }, token.stop), saved)
    else return (none, saved)
  | none => do
    let rest ← textFrom lx.text position
    let skip := lx.skipLength rest
    let extra := lx.bestMatch rest lx.tables.isExtra
    let wanted := ((lx.bestMatch rest welcome).map (·.length)).getD 0
    match extra with
    | some e =>
      if wanted < e.length ∧ skip ≤ e.length then
        let token : Token := {
          symbol := e.symbol
          start := position
          stop := position + e.length
          afterExtra := afterExtra
          wrapper := lx.tables.wrapper? e.symbol }
        return (some (some token, token.stop), saved)
      else if wanted < skip then return (some (none, position + skip), saved)
      else return (none, saved)
    | none => if wanted < skip then return (some (none, position + skip), saved) else return (none, saved)

def skipFrom (welcome : Symbol → Bool) :
    Nat → Saved → Nat → Bool → Except Fault (Leading × Saved)
  | 0, _, _, _ => .error .endless
  | fuel + 1, saved, position, afterExtra =>
    if byteLength lx.text ≤ position then return (⟨[], position, afterExtra⟩, saved)
    else do
      let (passed, saved) ← skipOne lx saved position afterExtra welcome
      match passed with
      | none => return (⟨[], position, afterExtra⟩, saved)
      | some (token, next) =>
        let (leading, saved) ← skipFrom welcome fuel saved next true
        return ({ leading with extras := token.toList ++ leading.extras }, saved)

def skipExtras (saved : Saved) (position : Nat) (welcome : Symbol → Bool) :
    Except Fault (Leading × Saved) :=
  skipFrom lx welcome (byteLength lx.text + 1) saved position false

def matched? (position : Nat) (expected : Option (Symbol → Bool)) (afterExtra : Bool) :
    Except Fault (Option Token) := do
  let accepts (s : Symbol) : Bool := expected.all (· s)
  let rest ← textFrom lx.text position
  match lx.bestMatch rest fun s => accepts s && !(expected.isNone && lx.tables.isExtra s) with
  | none => return none
  | some best =>
    let keyword ←
      if lx.tables.word = some best.symbol then do
        let word ← textUpTo rest best.length
        pure ((lx.tables.keywords.lookup (String.ofList word)).filter accepts)
      else pure none
    return some {
      symbol := keyword.getD best.symbol
      start := position
      stop := position + best.length
      afterExtra := afterExtra }

def token (saved : Saved) (position : Nat) (expected : Option (Symbol → Bool)) (afterExtra : Bool) :
    Except Fault (Option Token × Saved) :=
  if byteLength lx.text ≤ position then return (none, saved)
  else
    match lx.scanExternal saved position (lx.welcomes expected) false with
    | some (token, saved) =>
      if expected.all (· token.symbol) then
        return (some { token with afterExtra := afterExtra }, saved)
      else return (← matched? lx position expected afterExtra, saved)
    | none => return (← matched? lx position expected afterExtra, saved)

/-- The token at a place: one that is expected, or else any, or else a single character. -/
def nextToken (saved : Saved) (position : Nat) (expected : List Symbol) (afterExtra : Bool) :
    Except Fault (Option Token × Saved) := do
  let (found, saved) ← token lx saved position (some expected.contains) afterExtra
  match found with
  | some found => return (some found, saved)
  | none =>
    let (found, saved) ← token lx saved position none afterExtra
    return (found.or (lx.errorToken position afterExtra), saved)

end

variable {lx : Lexer} {position : Nat}

theorem textFrom_eq {text rest : List Char} (h : suffix? text position = some rest) :
    textFrom text position = .ok rest := by rw [textFrom, h, demand_some]

theorem textUpTo_eq {text : List Char} (h : isBoundary text position = true) :
    textUpTo text position = .ok (takeBytes text position) := by
  rw [textUpTo, if_pos h]
  rfl

/-- What is passed over is not empty. -/
theorem lt_of_skipOne (hf : lx.Forward) {saved saved' : Saved} {next : Nat} {afterExtra : Bool}
    {welcome : Symbol → Bool} {extra : Option Token}
    (h : lx.skipOne saved position afterExtra welcome = (some (extra, next), saved')) :
    position < next := by
  obtain ⟨t, hx, -, rfl⟩ | ⟨rest, -, ⟨e, -, hpos, -, rfl⟩ | ⟨hpos, -, rfl⟩⟩ := Lexer.skipOne_eq_some h
  · obtain ⟨hle, hlt⟩ := Lexer.scanExternal_forward hf hx
    exact Nat.lt_of_le_of_lt hle hlt
  · exact Nat.lt_add_of_pos_right hpos
  · exact Nat.lt_add_of_pos_right hpos

section

variable (hp : isBoundary lx.text position = true)

include hp

theorem skipOne_eq (saved : Saved) (afterExtra : Bool) (welcome : Symbol → Bool) :
    skipOne lx saved position afterExtra welcome =
      .ok (lx.skipOne saved position afterExtra welcome) := by
  obtain ⟨rest, hrest⟩ := isBoundary_iff.1 hp
  rw [skipOne, Lexer.skipOne, textFrom_eq hrest, hrest, ok_bind]
  rcases lx.scanExternal saved position welcome true with - | ⟨token, saved'⟩
  · dsimp only
    cases lx.bestMatch rest lx.tables.isExtra with
    | none =>
        dsimp only
        split
        · rfl
        · rfl
    | some e =>
        dsimp only
        split
        · rfl
        · split
          · rfl
          · rfl
  · dsimp only
    split
    · rfl
    · rfl

theorem matched?_eq (expected : Option (Symbol → Bool)) (afterExtra : Bool) :
    matched? lx position expected afterExtra = .ok (lx.matched? position expected afterExtra) := by
  obtain ⟨rest, hrest⟩ := isBoundary_iff.1 hp
  rw [matched?, Lexer.matched?, textFrom_eq hrest, ok_bind, hrest]
  dsimp only
  rw [Option.bind_eq_bind, Option.bind_some]
  cases hbest : lx.bestMatch rest fun s =>
      expected.all (· s) && !(expected.isNone && lx.tables.isExtra s) with
  | none => rfl
  | some best =>
      dsimp only
      rw [Option.bind_eq_bind, Option.bind_some, Lexer.keyword?]
      split
      · rw [textUpTo_eq (Lexer.bestMatch_isBoundary hbest), ok_bind]
        rfl
      · rfl

theorem token_eq (saved : Saved) (expected : Option (Symbol → Bool)) (afterExtra : Bool) :
    token lx saved position expected afterExtra =
      .ok (lx.token saved position expected afterExtra) := by
  rw [token]
  split
  · next hle =>
      rw [Lexer.token, if_pos hle]
      rfl
  · next hlt =>
      rw [Lexer.token_eq (Nat.not_le.1 hlt), matched?_eq hp]
      rcases lx.scanExternal saved position (lx.welcomes expected) false with - | ⟨found, saved'⟩
      · rfl
      · dsimp only
        split
        · rfl
        · rfl

end

/-- The text bounds the rounds, as each passes over some of it. -/
theorem skipFrom_eq (hf : lx.Proper) (welcome : Symbol → Bool) (fuel : Nat) (saved : Saved)
    (position : Nat) (afterExtra : Bool) (hp : isBoundary lx.text position = true)
    (hfuel : byteLength lx.text < fuel + position) :
    skipFrom lx welcome fuel saved position afterExtra =
      .ok (lx.skipFrom welcome fuel saved position afterExtra) := by
  induction fuel generalizing saved position afterExtra with
  | zero =>
      have hle := le_of_isBoundary hp
      omega
  | succ fuel ih =>
      rw [skipFrom, Lexer.skipFrom]
      split
      · rfl
      · rw [skipOne_eq hp, ok_bind]
        rcases hone : lx.skipOne saved position afterExtra welcome with ⟨- | ⟨token, next⟩, saved'⟩
        · rfl
        · have hlt := lt_of_skipOne hf.forward hone
          have hnext := (Lexer.skipOne_passes hone).isBoundary hf hp
          dsimp only
          rw [ih saved' next true hnext (by omega)]
          rfl

theorem skipExtras_eq (hf : lx.Proper) (hp : isBoundary lx.text position = true) (saved : Saved)
    (welcome : Symbol → Bool) :
    skipExtras lx saved position welcome = .ok (lx.skipExtras saved position welcome) :=
  skipFrom_eq hf welcome _ saved position false hp (by omega)

end EarleyTree.Checked

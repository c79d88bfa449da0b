import EarleyTree.Proofs.Checked.Lexer
import EarleyTree.Proofs.Lexing.Cuts

/-!
Listing the tokens of a text with checked slices and rounds: none of them is missing.
-/
namespace EarleyTree.Checked

open Text

def tokenizeFrom (lx : Lexer) (lines : Lines) : Nat → Saved → Nat → Except Fault (List LexedToken)
  | 0, _, _ => .error .endless
  | fuel + 1, saved, position => do
    let (leading, saved) ← skipExtras lx saved position fun _ => false
    let extras := leading.extras.map (.ofToken lines true)
    let (found, saved) ← token lx saved leading.offset none leading.afterExtra
    match found.or (lx.errorToken leading.offset leading.afterExtra) with
    | none => return extras
    | some found =>
      return extras ++ .ofToken lines false { found with wrapper := none } ::
        (← tokenizeFrom lx lines fuel saved found.stop)

def tokenize (l : Language) (text : List Char) : Except Fault (List LexedToken) :=
  tokenizeFrom (l.lexer text) (.ofText text) (byteLength text + 1) [] 0

theorem tokenizeFrom_eq {lx : Lexer} (hf : lx.Proper) (lines : Lines) (fuel : Nat) (saved : Saved)
    (position : Nat) (hp : isBoundary lx.text position = true)
    (hfuel : byteLength lx.text < fuel + position) :
    tokenizeFrom lx lines fuel saved position =
      .ok (EarleyTree.tokenizeFrom lx lines fuel saved position) := by
  induction fuel generalizing saved position with
  | zero =>
      have hle := le_of_isBoundary hp
      omega
  | succ fuel ih =>
      have hskip := @Lexer.skipFrom_cuts lx (fun _ => false) (byteLength lx.text + 1) saved position
        false
      rw [tokenizeFrom, EarleyTree.tokenizeFrom, skipExtras_eq hf hp, ok_bind, Lexer.skipExtras]
      generalize lx.skipFrom (fun _ => false) (byteLength lx.text + 1) saved position false = skipped
        at hskip
      obtain ⟨⟨extras, offset, passed⟩, saved₁⟩ := skipped
      have hoffset := hskip.isBoundary hf hp
      have hle := (hskip.bounds hf.forward).1
      dsimp only at hskip hoffset hle ⊢
      rw [token_eq hoffset, ok_bind]
      cases h : (lx.token saved₁ offset none passed).1.or (lx.errorToken offset passed) with
      | none => rfl
      | some t =>
          have hcut := Lexer.cut_of_next hoffset h
          have hlt := (hcut.bounds hf.forward).1
          dsimp only
          rw [ih _ t.stop (hcut.isBoundary hf hoffset) (by omega)]
          rfl

theorem tokenize_eq {l : Language} (hs : ∀ s ∈ l.scanner, s.Proper) (text : List Char) :
    tokenize l text = .ok (EarleyTree.tokenize l text) :=
  have hstart : isBoundary text 0 = true := isBoundary_iff.2 ⟨_, suffix?_zero text⟩
  @tokenizeFrom_eq (l.lexer text) hs _ _ _ 0 hstart (Nat.lt_succ_self _)

end EarleyTree.Checked

import EarleyTree.Proofs.Lexing.Bounds

/-!
Where tokens end: between two characters, if the place at which they are looked for lies there.
-/
namespace EarleyTree

open Text

namespace ScanCursor

variable {c c' : ScanCursor} {text : List Char}

/-- What is left to read is the text behind the position, and the mark stands between characters. -/
def Aligned (text : List Char) (c : ScanCursor) : Prop :=
  suffix? text c.position = some c.rest ∧ ∀ m ∈ c.markedEnd, isBoundary text m = true

theorem Aligned.advance (h : c.Aligned text) (skip : Bool) : (c.advance skip).Aligned text := by
  obtain ⟨hp, hm⟩ := h
  rw [ScanCursor.advance]
  cases hr : c.rest with
  | nil =>
      cases skip
      · exact ⟨hp, hm⟩
      · exact ⟨hp, hm⟩
  | cons ch rest =>
      have hnext : suffix? text (c.position + ch.utf8Size) = some rest := suffix?_next (hr ▸ hp)
      cases skip
      · exact ⟨hnext, hm⟩
      · exact ⟨hnext, hm⟩

theorem Reaches.aligned (h : Reaches c c') (hc : c.Aligned text) : c'.Aligned text := by
  induction h with
  | refl => exact hc
  | advance skip _ ih => exact ih.advance skip
  | markEnd _ ih =>
      refine ⟨ih.1, fun m hm => ?_⟩
      obtain rfl := Option.some.inj hm
      exact isBoundary_iff.2 ⟨_, ih.1⟩
  | setResult _ _ ih => exact ih

theorem Aligned.tokenEnd (h : c.Aligned text) : isBoundary text c.tokenEnd = true := by
  rw [ScanCursor.tokenEnd]
  cases hm : c.markedEnd with
  | none => exact isBoundary_iff.2 ⟨_, h.1⟩
  | some m => exact h.2 m hm

theorem aligned_ofText {position : Nat} (h : isBoundary text position = true) :
    (ofText text position).Aligned text := by
  obtain ⟨rest, hrest⟩ := isBoundary_iff.1 h
  refine ⟨?_, fun m hm => by cases hm⟩
  rw [ofText, hrest, Option.getD_some]

end ScanCursor

namespace Lexer

variable {lx : Lexer} {saved saved' : Saved} {position next : Nat} {welcome : Symbol → Bool}
  {token : Token}

theorem scanExternal_isBoundary (hf : lx.Proper) (hp : isBoundary lx.text position = true)
    {extrasOnly : Bool} (h : lx.scanExternal saved position welcome extrasOnly = some (token, saved')) :
    isBoundary lx.text token.stop = true := by
  obtain ⟨scanner, cursor, hs, hc, -, -, -, htoken⟩ := scanExternal_eq_some h
  rw [htoken]
  exact ((hf scanner hs _ _ _ _ _ _ hc).aligned (ScanCursor.aligned_ofText hp)).tokenEnd

theorem Finds.isBoundary (hf : lx.Proper) (hp : isBoundary lx.text position = true)
    (h : lx.Finds saved position token) : Text.isBoundary lx.text token.stop = true := by
  cases h with
  | external h _ _ hstop => exact hstop ▸ scanExternal_isBoundary hf hp h
  | matched hrest hbest _ _ hstop => exact hstop ▸ isBoundary_add hrest (bestMatch_isBoundary hbest)

theorem errorToken_isBoundary {afterExtra : Bool}
    (h : lx.errorToken position afterExtra = some token) : isBoundary lx.text token.stop = true := by
  rw [errorToken] at h
  obtain ⟨rest, hrest, h⟩ := Option.bind_eq_some_iff.1 h
  obtain ⟨c, hc, h⟩ := Option.bind_eq_some_iff.1 h
  cases h
  obtain ⟨rest, rfl⟩ := List.head?_eq_some_iff.1 hc
  exact isBoundary_iff.2 ⟨rest, suffix?_next hrest⟩

theorem Passes.isBoundary (hf : lx.Proper) (hp : isBoundary lx.text position = true)
    {extra : Option Token} (h : lx.Passes saved position extra next) :
    Text.isBoundary lx.text next = true := by
  cases h with
  | external hx => exact scanExternal_isBoundary hf hp hx
  | matched hrest he => exact isBoundary_add hrest (bestMatch_isBoundary he)
  | skipped hrest => exact isBoundary_add hrest (lx.skipLength_isBoundary _)

theorem skipFrom_isBoundary (hf : lx.Proper) (welcome : Symbol → Bool) (fuel : Nat) (saved : Saved)
    (position : Nat) (afterExtra : Bool) (hp : isBoundary lx.text position = true) :
    isBoundary lx.text (lx.skipFrom welcome fuel saved position afterExtra).1.offset = true := by
  induction fuel generalizing saved position afterExtra with
  | zero => exact hp
  | succ fuel ih =>
      rw [skipFrom]
      split
      · exact hp
      · split
        · exact hp
        · next extra next saved' hs =>
            exact ih saved' next true ((skipOne_passes hs).isBoundary hf hp)

end Lexer

end EarleyTree

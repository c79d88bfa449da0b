import EarleyTree.Proofs.Parsing.Positions
import EarleyTree.Proofs.Text.Splices

/-!
Where the tokens of a text end: within it, provided that a scanner gets from place to place by the
operations of its cursor alone.
-/
namespace EarleyTree

open Text Pattern

namespace ScanCursor

/-- The cursors that a scanner gets from the one that it is given. -/
inductive Reaches (c : ScanCursor) : ScanCursor → Prop
  | refl : Reaches c c
  | advance {c' : ScanCursor} (skip : Bool) (h : Reaches c c') : Reaches c (c'.advance skip)
  | markEnd {c' : ScanCursor} (h : Reaches c c') : Reaches c c'.markEnd
  | setResult {c' : ScanCursor} (index : Nat) (h : Reaches c c') : Reaches c (c'.setResult index)

variable {c c' : ScanCursor} {n : Nat}

theorem Reaches.advanceTimes (h : Reaches c c') (k : Nat) (skip : Bool) :
    Reaches c (advanceTimes k skip c') := by
  induction k generalizing c' with
  | zero => exact h
  | succ k ih => exact ih (h.advance skip)

theorem Reaches.behind (h : Reaches c c') (hc : c.Behind n) : c'.Behind n := by
  induction h with
  | refl => exact hc
  | advance skip _ ih => exact ih.advance skip
  | markEnd _ ih => exact ih
  | setResult _ _ ih => exact ih

/-- What is left to read ends at the place, and the mark stands before it. -/
def Within (c : ScanCursor) (n : Nat) : Prop :=
  c.position + byteLength c.rest ≤ n ∧ ∀ m ∈ c.markedEnd, m ≤ n

theorem Within.advance (h : c.Within n) (skip : Bool) : (c.advance skip).Within n := by
  obtain ⟨hp, hm⟩ := h
  rw [ScanCursor.advance]
  cases hr : c.rest with
  | nil =>
      have hc : c.Within n := ⟨hp, hm⟩
      cases skip
      · exact hc
      · exact ⟨hp, hm⟩
  | cons ch rest =>
      rw [hr, byteLength] at hp
      have hp' : c.position + ch.utf8Size + byteLength rest ≤ n := by omega
      cases skip
      · exact ⟨hp', hm⟩
      · exact ⟨hp', hm⟩

theorem Reaches.within (h : Reaches c c') (hc : c.Within n) : c'.Within n := by
  induction h with
  | refl => exact hc
  | advance skip _ ih => exact ih.advance skip
  | markEnd _ ih =>
      refine ⟨ih.1, fun m hm => ?_⟩
      obtain rfl := Option.some.inj hm
      exact Nat.le_trans (Nat.le_add_right _ _) ih.1
  | setResult _ _ ih => exact ih

theorem Within.tokenEnd_le (h : c.Within n) : c.tokenEnd ≤ n := by
  rw [tokenEnd]
  cases hm : c.markedEnd with
  | none => exact Nat.le_trans (Nat.le_add_right _ _) h.1
  | some m => exact h.2 m hm

theorem within_ofText {text : List Char} {position : Nat} (h : position ≤ byteLength text) :
    (ScanCursor.ofText text position).Within (byteLength text) := by
  refine ⟨?_, fun m hm => by cases hm⟩
  rw [ofText]
  dsimp only
  cases hs : suffix? text position with
  | none => exact h
  | some rest => exact (add_byteLength_suffix hs).le

end ScanCursor

/-- A scanner moves the cursor that it is given, and does nothing else to it. -/
def Scanner.Proper (s : Scanner) : Prop :=
  ∀ saved text position valid c saved', s.scan saved (.ofText text position) valid = some (c, saved') →
    (ScanCursor.ofText text position).Reaches c

theorem Scanner.Proper.forward {s : Scanner} (h : s.Proper) : s.Forward := by
  intro saved text position valid c saved' hc
  exact ((h _ _ _ _ _ _ hc).behind ⟨Nat.le_refl _, Nat.le_refl _⟩).1

theorem Candid.BlockComment.scanner_proper : Candid.BlockComment.scanner.Proper := by
  intro saved text position valid c saved' h
  simp only [scanner, Scanner.ofMachine] at h
  split at h
  · next c₁ depth hs =>
      cases h
      rw [scan] at hs
      split at hs
      · cases hs
      · dsimp only at hs
        split at hs
        · split at hs
          · cases hs
            exact .setResult _ (.markEnd ((ScanCursor.Reaches.refl.advanceTimes _ _).advanceTimes _ _))
          · cases hs
        · cases hs
        · cases hs
  · cases h

namespace Pattern

/-- A run from a place of the text on ends at a place of the text. -/
theorem Front.run_isBoundary {whole text : List Char} {front : Front} {offset stop : Nat}
    {best : Option Nat} (hsuffix : suffix? whole offset = some text)
    (hb : ∀ b ∈ best, isBoundary whole b = true) (h : front.run text offset best = some stop) :
    isBoundary whole stop = true := by
  induction text generalizing front offset best with
  | nil =>
      rw [Front.run] at h
      split at h
      · cases h
        exact isBoundary_iff.2 ⟨_, hsuffix⟩
      · exact hb stop h
  | cons c text ih =>
      rw [Front.run] at h
      have hbest : ∀ b ∈ (if front.accepts = true then some offset else best),
          isBoundary whole b = true := by
        intro b hm
        split at hm
        · cases hm
          exact isBoundary_iff.2 ⟨_, hsuffix⟩
        · exact hb b hm
      split at h
      · exact hbest stop h
      · exact ih (suffix?_next hsuffix) hbest h

theorem Regex.findFrom_isBoundary {r : Regex} {before : Option Char} {whole text : List Char}
    {offset start stop : Nat} (hsuffix : suffix? whole offset = some text)
    (h : r.findFrom before text offset = some (start, stop)) : isBoundary whole stop = true := by
  induction text generalizing before offset with
  | nil =>
      rw [Regex.findFrom] at h
      split at h
      · next hm =>
          cases h
          exact Front.run_isBoundary hsuffix (by simp) hm
      · cases h
  | cons c text ih =>
      rw [Regex.findFrom] at h
      split at h
      · next hm =>
          cases h
          exact Front.run_isBoundary hsuffix (by simp) hm
      · split at h
        · cases h
        · exact ih (suffix?_next hsuffix) h

theorem Regex.find?_isBoundary {r : Regex} {text : List Char} {start stop : Nat}
    (h : r.find? text = some (start, stop)) : isBoundary text stop = true :=
  findFrom_isBoundary (suffix?_zero text) h

theorem Regex.find?_le {r : Regex} {text : List Char} {start stop : Nat}
    (h : r.find? text = some (start, stop)) : stop ≤ byteLength text :=
  le_of_isBoundary (find?_isBoundary h)

end Pattern

namespace Lexer

variable {lx : Lexer} {saved saved' : Saved} {position next : Nat} {welcome : Symbol → Bool}

def Proper (lx : Lexer) : Prop := ∀ s, lx.scanner = some s → s.Proper

theorem Proper.forward (h : lx.Proper) : lx.Forward := fun s hs => (h s hs).forward

theorem bestMatch_isBoundary {rest : List Char} {c : Candidate}
    (h : lx.bestMatch rest welcome = some c) : isBoundary rest c.length = true := by
  obtain hm | hb := foldl_better_mem h
  · obtain ⟨token, -, hc⟩ := List.mem_filterMap.1 hm
    rw [candidate?] at hc
    split at hc
    · next hfind =>
        split at hc
        · cases hc
        · cases hc
          exact Regex.find?_isBoundary hfind
    · cases hc
  · cases hb

theorem bestMatch_le {rest : List Char} {c : Candidate} (h : lx.bestMatch rest welcome = some c) :
    c.length ≤ byteLength rest :=
  le_of_isBoundary (bestMatch_isBoundary h)

theorem skipLength_isBoundary (rest : List Char) : isBoundary rest (lx.skipLength rest) = true := by
  have hfold : ∀ (ns : List Nat) (m : Nat), isBoundary rest m = true →
      (∀ n ∈ ns, isBoundary rest n = true) → isBoundary rest (ns.foldl max m) = true := by
    intro ns
    induction ns with
    | nil => exact fun m hm _ => hm
    | cons n ns ih =>
        intro m hm hns
        refine ih _ ?_ fun k hk => hns k (List.mem_cons_of_mem _ hk)
        rw [Nat.max_def]
        split
        · exact hns n List.mem_cons_self
        · exact hm
  refine hfold _ 0 (isBoundary_iff.2 ⟨_, suffix?_zero rest⟩) fun n hn => ?_
  obtain ⟨r, -, hr⟩ := List.mem_filterMap.1 hn
  obtain ⟨⟨start, stop⟩, hfind, rfl⟩ := Option.map_eq_some_iff.1 hr
  exact Regex.find?_isBoundary hfind

theorem skipLength_le (rest : List Char) : lx.skipLength rest ≤ byteLength rest :=
  le_of_isBoundary (lx.skipLength_isBoundary rest)

theorem scanExternal_le (hf : lx.Proper) (hp : position ≤ byteLength lx.text) {extrasOnly : Bool}
    {t : Token} (h : lx.scanExternal saved position welcome extrasOnly = some (t, saved')) :
    t.stop ≤ byteLength lx.text := by
  rw [scanExternal] at h
  obtain ⟨scanner, hs, h⟩ := Option.bind_eq_some_iff.1 h
  dsimp only at h
  split at h
  · cases h
  · obtain ⟨⟨c, saved₁⟩, hc, h⟩ := Option.bind_eq_some_iff.1 h
    obtain ⟨s, -, h⟩ := Option.bind_eq_some_iff.1 h
    split at h
    · cases h
    · cases h
      exact ((hf scanner hs _ _ _ _ _ _ hc).within (ScanCursor.within_ofText hp)).tokenEnd_le

theorem Finds.stop_le (hf : lx.Proper) (hp : position ≤ byteLength lx.text) {t : Token}
    (h : lx.Finds saved position t) : t.stop ≤ byteLength lx.text := by
  cases h with
  | external h _ _ hstop => exact hstop ▸ scanExternal_le hf hp h
  | @matched rest best _ hrest hbest _ _ hstop =>
      have hsum := add_byteLength_suffix hrest
      have hle := bestMatch_le hbest
      rw [hstop]
      omega

theorem errorToken_le {afterExtra : Bool} {t : Token}
    (h : lx.errorToken position afterExtra = some t) : t.stop ≤ byteLength lx.text := by
  rw [errorToken] at h
  obtain ⟨rest, hrest, h⟩ := Option.bind_eq_some_iff.1 h
  obtain ⟨c, hc, h⟩ := Option.bind_eq_some_iff.1 h
  cases h
  have hsum := add_byteLength_suffix hrest
  cases rest with
  | nil => cases hc
  | cons c' rest =>
      obtain rfl : c' = c := Option.some.inj hc
      rw [byteLength] at hsum
      show position + c'.utf8Size ≤ byteLength lx.text
      omega

theorem Passes.le (hf : lx.Proper) (hp : position ≤ byteLength lx.text) {extra : Option Token}
    (h : lx.Passes saved position extra next) : next ≤ byteLength lx.text := by
  cases h with
  | external hx => exact scanExternal_le hf hp hx
  | matched hrest he =>
      have hsum := add_byteLength_suffix hrest
      have hle := bestMatch_le he
      omega
  | @skipped rest hrest =>
      have hsum := add_byteLength_suffix hrest
      have hle := lx.skipLength_le rest
      omega

theorem skipFrom_le (hf : lx.Proper) (welcome : Symbol → Bool) (fuel : Nat) (saved : Saved)
    (position : Nat) (afterExtra : Bool) (hp : position ≤ byteLength lx.text) :
    (lx.skipFrom welcome fuel saved position afterExtra).1.offset ≤ byteLength lx.text := by
  induction fuel generalizing saved position afterExtra with
  | zero => exact hp
  | succ fuel ih =>
      rw [skipFrom]
      split
      · exact hp
      · split
        · exact hp
        · next extra next saved' hs => exact ih saved' next true ((skipOne_passes hs).le hf hp)

end Lexer

end EarleyTree

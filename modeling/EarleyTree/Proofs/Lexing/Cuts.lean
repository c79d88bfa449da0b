import EarleyTree.Proofs.Lexing.Boundaries
import EarleyTree.Proofs.Lexing.LongestMatch

/-!
The way of the lexer through a text whose tokens are listed: piece by piece, each of which is passed
over in silence or gives a token, from the beginning to the end.
-/
namespace EarleyTree

open Text

namespace Lexer

variable {lx : Lexer} {saved saved' : Saved} {position next last : Nat} {passed passed' passed'' : Bool}
  {welcome : Symbol → Bool} {found : Option (Token × Bool)} {tokens tokens' : List (Token × Bool)}

/-- A piece of the text from a place on: the token it gives, if any, with whether that is an extra, and
the place behind it. Carried along is whether something has been passed over since the last token
that is no extra. -/
inductive Cut (lx : Lexer) (position : Nat) (passed : Bool) : Option (Token × Bool) → Nat → Bool → Prop
  | blank {rest : List Char} (hrest : suffix? lx.text position = some rest)
      (hpos : 0 < lx.skipLength rest) : Cut lx position passed none (position + lx.skipLength rest) true
  | extra {rest : List Char} {e : Candidate} (hrest : suffix? lx.text position = some rest)
      (he : lx.bestMatch rest lx.tables.isExtra = some e) : Cut lx position passed
        (some (⟨e.symbol, position, position + e.length, passed, lx.tables.wrapper? e.symbol⟩, true))
        (position + e.length) true
  | scannedExtra {saved saved' : Saved} {welcome : Symbol → Bool} {t : Token}
      (h : lx.scanExternal saved position welcome true = some (t, saved')) :
      Cut lx position passed (some ({ t with afterExtra := true }, true)) t.stop true
  | token {t : Token} (h : lx.matched? position none passed = some t) :
      Cut lx position passed (some (t, false)) t.stop false
  | scanned {saved saved' : Saved} {t : Token}
      (h : lx.scanExternal saved position (lx.welcomes none) false = some (t, saved')) :
      Cut lx position passed (some ({ t with afterExtra := passed }, false)) t.stop false
  | error {t : Token} (hnone : lx.matched? position none passed = none)
      (h : lx.errorToken position passed = some t) :
      Cut lx position passed (some (t, false)) t.stop false

/-- One piece after the other, with the tokens that they give. -/
inductive Cuts (lx : Lexer) : Nat → Bool → List (Token × Bool) → Nat → Bool → Prop
  | nil (position : Nat) (passed : Bool) : Cuts lx position passed [] position passed
  | cons {position next last : Nat} {passed passed' passed'' : Bool} {found : Option (Token × Bool)}
      {tokens : List (Token × Bool)} (h : lx.Cut position passed found next passed')
      (hs : Cuts lx next passed' tokens last passed'') :
      Cuts lx position passed (found.toList ++ tokens) last passed''

theorem Cuts.append (h : lx.Cuts position passed tokens next passed')
    (h' : lx.Cuts next passed' tokens' last passed'') :
    lx.Cuts position passed (tokens ++ tokens') last passed'' := by
  induction h with
  | nil => exact h'
  | cons hc _ ih =>
      rw [List.append_assoc]
      exact .cons hc (ih h')

theorem skipOne_cut {extra : Option Token}
    (h : lx.skipOne saved position passed welcome = (some (extra, next), saved')) :
    lx.Cut position passed (extra.map (·, true)) next true := by
  obtain ⟨t, hx, rfl, rfl⟩ | ⟨rest, hrest, ⟨e, he, -, rfl, rfl⟩ | ⟨hpos, rfl, rfl⟩⟩ :=
    skipOne_eq_some h
  · exact .scannedExtra hx
  · exact .extra hrest he
  · exact .blank hrest hpos

theorem skipFrom_cuts (welcome : Symbol → Bool) (fuel : Nat) (saved : Saved) (position : Nat)
    (passed : Bool) : lx.Cuts position passed
      ((lx.skipFrom welcome fuel saved position passed).1.extras.map (·, true))
      (lx.skipFrom welcome fuel saved position passed).1.offset
      (lx.skipFrom welcome fuel saved position passed).1.afterExtra := by
  induction fuel generalizing saved position passed with
  | zero => exact .nil _ _
  | succ fuel ih =>
      rw [skipFrom]
      split
      · exact .nil _ _
      · split
        · exact .nil _ _
        · next extra next saved' hone =>
            have hcuts := Cuts.cons (skipOne_cut hone) (ih saved' next true)
            rw [Option.toList_map, ← List.map_append] at hcuts
            exact hcuts

/-- Before the end of the text there is a token, and be it a single character that is none. -/
theorem exists_cut (hp : isBoundary lx.text position = true) (hlt : position < byteLength lx.text)
    (saved : Saved) (passed : Bool) : ∃ t,
      (lx.token saved position none passed).1.or (lx.errorToken position passed) = some t ∧
        lx.Cut position passed (some (t, false)) t.stop false := by
  rw [token_eq hlt]
  cases hx : lx.scanExternal saved position (lx.welcomes none) false with
  | some r => exact ⟨_, rfl, .scanned hx⟩
  | none =>
      dsimp only
      cases hm : lx.matched? position none passed with
      | some t => exact ⟨t, rfl, .token hm⟩
      | none =>
          obtain ⟨rest, hrest⟩ := isBoundary_iff.1 hp
          cases rest with
          | nil =>
              have hsum := add_byteLength_suffix hrest
              exact absurd hsum hlt.ne
          | cons c rest =>
              have he : lx.errorToken position passed =
                  some ⟨errorSymbol, position, position + c.utf8Size, passed, none⟩ := by
                rw [errorToken, hrest]
                rfl
              exact ⟨_, he, .error hm he⟩

theorem token_or_errorToken_eq_none (h : byteLength lx.text ≤ position) (saved : Saved) (passed : Bool) :
    (lx.token saved position none passed).1.or (lx.errorToken position passed) = none := by
  rw [Lexer.token, if_pos h, Option.none_or]
  refine Option.eq_none_iff_forall_ne_some.2 fun t ht => ?_
  obtain ⟨hle, hlt⟩ := errorToken_forward ht
  have hstop := errorToken_le ht
  omega

theorem cut_of_next (hp : isBoundary lx.text position = true) {t : Token}
    (h : (lx.token saved position none passed).1.or (lx.errorToken position passed) = some t) :
    lx.Cut position passed (some (t, false)) t.stop false := by
  by_cases hlt : position < byteLength lx.text
  · obtain ⟨t', ht', hcut⟩ := exists_cut hp hlt saved passed
    obtain rfl := Option.some.inj (h.symm.trans ht')
    exact hcut
  · rw [token_or_errorToken_eq_none (Nat.not_lt.1 hlt)] at h
    cases h

section

variable (hf : lx.Forward)

include hf

theorem Cut.bounds (h : lx.Cut position passed found next passed') : position < next ∧
    ∀ t ∈ found, position ≤ t.1.start ∧ t.1.start < t.1.stop ∧ t.1.stop = next := by
  have hscan {t : Token} {saved saved' : Saved} {welcome : Symbol → Bool} {extrasOnly : Bool}
      (h : lx.scanExternal saved position welcome extrasOnly = some (t, saved')) :
      position < t.stop ∧ position ≤ t.start ∧ t.start < t.stop ∧ t.stop = t.stop := by
    obtain ⟨hle, hlt⟩ := scanExternal_forward hf h
    exact ⟨hle.trans_lt hlt, hle, hlt, rfl⟩
  cases h with
  | blank _ hpos => exact ⟨Nat.lt_add_of_pos_right hpos, nofun⟩
  | extra _ he =>
      have hlt : position < position + _ := Nat.lt_add_of_pos_right (bestMatch_length he)
      refine ⟨hlt, ?_⟩
      rintro _ ⟨⟩
      exact ⟨Nat.le_refl _, hlt, rfl⟩
  | scannedExtra h =>
      refine ⟨(hscan h).1, ?_⟩
      rintro _ ⟨⟩
      exact (hscan h).2
  | scanned h =>
      refine ⟨(hscan h).1, ?_⟩
      rintro _ ⟨⟩
      exact (hscan h).2
  | token h =>
      obtain ⟨_, _, _, _, hbest, -, hstart, hstop, -⟩ := matched?_eq_some h
      have hlt := @Nat.lt_add_of_pos_right _ position (bestMatch_length hbest)
      rw [← hstop] at hlt
      refine ⟨hlt, ?_⟩
      rintro _ ⟨⟩
      exact ⟨hstart.ge, hstart.trans_lt hlt, rfl⟩
  | error _ h =>
      obtain ⟨hle, hlt⟩ := errorToken_forward h
      refine ⟨hle.trans_lt hlt, ?_⟩
      rintro _ ⟨⟩
      exact ⟨hle, hlt, rfl⟩

theorem Cuts.bounds (h : lx.Cuts position passed tokens last passed') : position ≤ last ∧
    ∀ t ∈ tokens, position ≤ t.1.start ∧ t.1.stop ≤ last := by
  induction h with
  | nil => exact ⟨Nat.le_refl _, fun t ht => absurd ht List.not_mem_nil⟩
  | cons hc _ ih =>
      obtain ⟨hlt, hfound⟩ := hc.bounds hf
      obtain ⟨hle, htokens⟩ := ih
      refine ⟨hlt.le.trans hle, List.forall_mem_append.2 ⟨fun t ht => ?_, fun t ht => ?_⟩⟩
      · obtain ⟨hstart, -, hstop⟩ := hfound t (Option.mem_toList.1 ht)
        exact ⟨hstart, hstop.trans_le hle⟩
      · exact ⟨hlt.le.trans (htokens t ht).1, (htokens t ht).2⟩

theorem Cuts.pairwise (h : lx.Cuts position passed tokens last passed') :
    tokens.Pairwise fun a b => a.1.stop ≤ b.1.start := by
  induction h with
  | nil => exact .nil
  | @cons _ _ _ _ _ _ found _ hc hs ih =>
      cases found with
      | none => exact ih
      | some t =>
          obtain ⟨-, -, hstop⟩ := (hc.bounds hf).2 t rfl
          exact List.pairwise_cons.2 ⟨fun b hb => hstop.trans_le ((hs.bounds hf).2 b hb).1, ih⟩

end

/-- The piece that a byte belongs to. -/
theorem Cuts.exists_at (h : lx.Cuts position passed tokens last passed') {i : Nat} (hi : position ≤ i)
    (hlt : i < last) : ∃ before p b found n b' after, lx.Cuts position passed before p b ∧
      lx.Cut p b found n b' ∧ lx.Cuts n b' after last passed' ∧
      tokens = before ++ found.toList ++ after ∧ p ≤ i ∧ i < n := by
  induction h with
  | nil => exact absurd hi (Nat.not_le.2 hlt)
  | @cons position next last passed passed' passed'' found tokens hc hs ih =>
      by_cases hn : i < next
      · exact ⟨[], position, passed, found, next, passed', tokens, .nil _ _, hc, hs, rfl, hi, hn⟩
      · obtain ⟨before, p, b, found', n, b', after, hbefore, hcut, hafter, rfl, hp, hn⟩ :=
          ih (Nat.not_lt.1 hn) hlt
        refine ⟨found.toList ++ before, p, b, found', n, b', after, .cons hc hbefore, hcut, hafter, ?_,
          hp, hn⟩
        simp only [List.append_assoc]

/-- The piece that gives a token. -/
theorem Cuts.exists_token (h : lx.Cuts position passed tokens last passed')
    {before after : List (Token × Bool)} {t : Token × Bool} (htokens : tokens = before ++ t :: after) :
    ∃ p b n b', lx.Cuts position passed before p b ∧ lx.Cut p b (some t) n b' ∧
      lx.Cuts n b' after last passed' := by
  induction h generalizing before with
  | nil => cases before <;> cases htokens
  | @cons position next last passed passed' passed'' found tokens hc hs ih =>
      cases found with
      | none =>
          obtain ⟨p, b, n, b', hbefore, hcut, hafter⟩ := ih htokens
          exact ⟨p, b, n, b', .cons hc hbefore, hcut, hafter⟩
      | some u =>
          cases before with
          | nil =>
              obtain ⟨rfl, rfl⟩ := List.cons.inj htokens
              exact ⟨_, _, _, _, .nil _ _, hc, hs⟩
          | cons v before =>
              obtain ⟨rfl, htail⟩ := List.cons.inj htokens
              obtain ⟨p, b, n, b', hbefore, hcut, hafter⟩ := ih htail
              exact ⟨p, b, n, b', .cons hc hbefore, hcut, hafter⟩

theorem Cut.isBoundary (hf : lx.Proper) (hp : isBoundary lx.text position = true)
    (h : lx.Cut position passed found next passed') : isBoundary lx.text next = true := by
  cases h with
  | blank hrest => exact isBoundary_add hrest (lx.skipLength_isBoundary _)
  | extra hrest he => exact isBoundary_add hrest (bestMatch_isBoundary he)
  | scannedExtra h => exact scanExternal_isBoundary hf hp h
  | token h =>
      obtain ⟨rest, best, _, hrest, hbest, -, -, hstop, -⟩ := matched?_eq_some h
      exact hstop ▸ isBoundary_add hrest (bestMatch_isBoundary hbest)
  | scanned h => exact scanExternal_isBoundary hf hp h
  | error _ h => exact errorToken_isBoundary h

theorem Cuts.isBoundary (hf : lx.Proper) (hp : isBoundary lx.text position = true)
    (h : lx.Cuts position passed tokens last passed') : isBoundary lx.text last = true := by
  induction h with
  | nil => exact hp
  | cons hc _ ih => exact ih (hc.isBoundary hf hp)

/-- The tokens listed are those of the pieces up to the end of the text. -/
theorem listed_cuts (hf : lx.Proper) (fuel : Nat) (saved : Saved) (position : Nat)
    (hp : isBoundary lx.text position = true) (hfuel : byteLength lx.text < fuel + position) :
    ∃ passed, lx.Cuts position false (lx.listed fuel saved position) (byteLength lx.text) passed := by
  induction fuel generalizing saved position with
  | zero =>
      have hle := le_of_isBoundary hp
      omega
  | succ fuel ih =>
      have hskip : lx.Cuts position false
          ((lx.skipExtras saved position fun _ => false).1.extras.map (·, true))
          (lx.skipExtras saved position fun _ => false).1.offset
          (lx.skipExtras saved position fun _ => false).1.afterExtra :=
        skipFrom_cuts _ _ saved position false
      rw [listed, listedAt]
      generalize lx.skipExtras saved position (fun _ => false) = skipped at hskip
      obtain ⟨⟨extras, offset, passed⟩, saved₁⟩ := skipped
      have hoffset := hskip.isBoundary hf hp
      have hle := (hskip.bounds hf.forward).1
      dsimp only at hskip hoffset hle ⊢
      by_cases hlt : offset < byteLength lx.text
      · obtain ⟨t, ht, hcut⟩ := exists_cut hoffset hlt saved₁ passed
        rw [ht]
        dsimp only
        have hnext := (hcut.bounds hf.forward).1
        obtain ⟨passed', hrest⟩ := ih (lx.token saved₁ offset none passed).2 t.stop
          (hcut.isBoundary hf hoffset) (by omega)
        exact ⟨passed', hskip.append (.cons hcut hrest)⟩
      · have hend := Nat.not_lt.1 hlt
        rw [token_or_errorToken_eq_none hend]
        obtain rfl : offset = byteLength lx.text := Nat.le_antisymm (le_of_isBoundary hoffset) hend
        exact ⟨passed, hskip⟩

end Lexer

end EarleyTree

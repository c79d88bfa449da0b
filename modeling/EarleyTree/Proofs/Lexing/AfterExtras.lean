import EarleyTree.Proofs.Lexing.Partition

/-!
Which tokens are marked to stand behind whitespace or extras. The mark is right where a terminal is
matched; an extra of the scanner always has it, and what else the scanner gives is marked by what was
passed over before the scanner was asked.
-/
namespace EarleyTree

open Text

namespace LexedToken

variable {before : List LexedToken} {lines : Lines} {tokens : List (Token × Bool)} {start : Nat}

/-- Where the token before ends; before the first token the text begins. -/
def lastEnd (before : List LexedToken) : Nat := (before.getLast?.map (·.span.endByte)).getD 0

/-- Whitespace or an extra lies directly before a token at the place: the token before is an extra, or
it does not end there. -/
def Preceded (before : List LexedToken) (start : Nat) : Prop :=
  (∃ t ∈ before.getLast?, t.isExtra = true) ∨ start ≠ lastEnd before

instance : Decidable (Preceded before start) :=
  inferInstanceAs (Decidable ((∃ t ∈ before.getLast?, t.isExtra = true) ∨ _))

theorem lastEnd_append (e : Token × Bool) :
    lastEnd ((tokens ++ [e]).map (ofListed lines)) = e.1.stop := by
  simp [lastEnd]

theorem preceded_append (e : Token × Bool) :
    Preceded ((tokens ++ [e]).map (ofListed lines)) start ↔ e.2 = true ∨ start ≠ e.1.stop := by
  rw [Preceded, lastEnd_append]
  simp

end LexedToken

namespace Lexer

open LexedToken

variable {lx : Lexer} {position next last : Nat} {passed passed' : Bool} {lines : Lines}
  {found : Option (Token × Bool)} {before tokens : List (Token × Bool)} {t : Token} {extra : Bool}

section

variable (hf : lx.Forward)

include hf

/-- What is carried along says whether something lies directly before. -/
theorem Cut.preceded_iff (h : lx.Cut position passed found next passed')
    (hend : lastEnd (before.map (ofListed lines)) ≤ position) :
    lastEnd ((before ++ found.toList).map (ofListed lines)) ≤ next ∧
      (passed' = true ↔ Preceded ((before ++ found.toList).map (ofListed lines)) next) := by
  obtain ⟨hlt, hbounds⟩ := h.bounds hf
  have hfound (e : Token × Bool) (he : e ∈ found) (hp : passed' = e.2) :
      lastEnd ((before ++ found.toList).map (ofListed lines)) ≤ next ∧
        (passed' = true ↔ Preceded ((before ++ found.toList).map (ofListed lines)) next) := by
    obtain ⟨-, -, hstop⟩ := hbounds e he
    rw [Option.mem_def.1 he, Option.toList_some, lastEnd_append, preceded_append, hp, hstop]
    simp
  cases h with
  | blank =>
      rw [Option.toList_none, List.append_nil]
      exact ⟨hend.trans hlt.le, iff_of_true rfl (.inr (hend.trans_lt hlt).ne')⟩
  | extra | scannedExtra | token | scanned | error => exact hfound _ rfl rfl

theorem Cuts.preceded_iff (h : lx.Cuts position passed tokens last passed')
    (hend : lastEnd (before.map (ofListed lines)) ≤ position)
    (hp : passed = true ↔ Preceded (before.map (ofListed lines)) position) :
    lastEnd ((before ++ tokens).map (ofListed lines)) ≤ last ∧
      (passed' = true ↔ Preceded ((before ++ tokens).map (ofListed lines)) last) := by
  induction h generalizing before with
  | nil =>
      rw [List.append_nil]
      exact ⟨hend, hp⟩
  | cons hc _ ih =>
      obtain ⟨hend', hp'⟩ := hc.preceded_iff hf hend
      rw [← List.append_assoc]
      exact ih hend' hp'

end

/-- A token is marked by what was passed over, unless it is an extra that the scanner gives; the scanner
alone can begin it further on. -/
theorem Cut.mark (hf : lx.Proper) (h : lx.Cut position passed (some (t, extra)) next passed') :
    (t.start = position ∧ t.afterExtra = passed) ∨
      lx.scanner.isSome = true ∧ t.symbol ∈ lx.tables.externals ∧
        (extra = true → t.afterExtra = true) ∧
        (extra = false → t.afterExtra = passed ∧
          ∃ s ∈ lx.scanner, s.Skips lx.text position t.start t.stop) := by
  have hscan {saved saved' : Saved} {welcome : Symbol → Bool} {extrasOnly : Bool} {t : Token}
      (h : lx.scanExternal saved position welcome extrasOnly = some (t, saved')) :
      lx.scanner.isSome = true ∧ t.symbol ∈ lx.tables.externals := by
    obtain ⟨_, _, hs, -⟩ := scanExternal_eq_some h
    exact ⟨Option.isSome_of_eq_some hs, scanExternal_mem h⟩
  cases h with
  | extra => exact .inl ⟨rfl, rfl⟩
  | scannedExtra h => exact .inr ⟨(hscan h).1, (hscan h).2, fun _ => rfl, nofun⟩
  | token h =>
      obtain ⟨_, _, _, -, -, -, hstart, -, hafter⟩ := matched?_eq_some h
      exact .inl ⟨hstart, hafter⟩
  | scanned h =>
      obtain hstart | hskips := scanExternal_skips hf h
      · exact .inl ⟨hstart, rfl⟩
      · exact .inr ⟨(hscan h).1, (hscan h).2, nofun, fun _ => ⟨rfl, hskips⟩⟩
  | error _ h => exact .inl (errorToken_eq_some h).2

end Lexer

namespace Language

open LexedToken

variable {g : Grammar} {scanner : Option Scanner} {handle : Nat} {l : Language} {text : List Char}
  {before after : List LexedToken} {t : LexedToken}

theorem exists_mark (hf : (l.lexer text).Proper) (h : tokenize l text = before ++ t :: after) :
    ∃ token, (l.listed text)[before.length]? = some (token, t.isExtra) ∧
      t = .ofListed (.ofText text) (token, t.isExtra) ∧
      ((t.afterExtra = true ↔ Preceded before t.span.startByte) ∨
        l.scanner.isSome = true ∧ token.symbol ∈ l.tables.externals ∧
          (t.isExtra = true → t.afterExtra = true) ∧
          (t.isExtra = false → ∃ position, (t.afterExtra = true ↔ Preceded before position) ∧
            ∃ s ∈ l.scanner, s.Skips text position t.span.startByte t.span.endByte)) := by
  obtain ⟨passed, hcuts⟩ := listed_cuts hf
  rw [tokenize_eq] at h
  obtain ⟨before', rest, hsplit, rfl, hrest⟩ := List.map_eq_append_iff.1 h
  obtain ⟨e, after', rfl, rfl, rfl⟩ := List.map_eq_cons_iff.1 hrest
  obtain ⟨p, b, n, b', hbefore, hcut, -⟩ := hcuts.exists_token hsplit
  have hprior := @Lexer.Cuts.preceded_iff _ _ _ _ _ (.ofText text) [] _ hf.forward hbefore
    (Nat.zero_le _) (by simp [Preceded, lastEnd])
  rw [List.nil_append] at hprior
  obtain ⟨hend, hpassed⟩ := hprior
  refine ⟨e.1, ?_, rfl, ?_⟩
  · rw [hsplit, List.length_map, List.getElem?_append_right (Nat.le_refl _), Nat.sub_self]
    rfl
  · simp only [ofListed_startByte, ofListed_endByte, ofListed_afterExtra, ofListed_isExtra]
    obtain ⟨hstart, hafter⟩ | ⟨hs, hx, hextra, hother⟩ := hcut.mark hf
    · rw [hstart, hafter]
      exact .inl hpassed
    · refine .inr ⟨hs, hx, hextra, fun he => ?_⟩
      obtain ⟨hafter, hskips⟩ := hother he
      exact ⟨p, hafter ▸ hpassed, hskips⟩

/-- Without a scanner, and for all that the scanner does not give, the mark says whether whitespace or an
extra lies directly before the token. It is wrong only for an extra of the scanner, which always has it,
and for another token of the scanner that was begun further on. -/
theorem marks_preceded (hl : Language.compile g scanner handle = .ok l)
    (hs : ∀ s ∈ scanner, s.Proper) (h : tokenize l text = before ++ t :: after) :
    ∃ token, (l.listed text)[before.length]? = some (token, t.isExtra) ∧
      t = .ofListed (.ofText text) (token, t.isExtra) ∧
      (scanner = none ∨ token.symbol ∉ l.tables.externals →
        (t.afterExtra = true ↔ Preceded before t.span.startByte)) ∧
      (t.isExtra = true → Preceded before t.span.startByte → t.afterExtra = true) ∧
      (t.isExtra = false → (t.afterExtra = true ↔ Preceded before t.span.startByte) ∨
        ∃ s ∈ scanner, ∃ position, s.Skips text position t.span.startByte t.span.endByte) := by
  obtain rfl := Language.scanner_of_compile hl
  have hf : (l.lexer text).Proper := hs
  obtain ⟨token, hget, he, hmark | ⟨hsome, hx, hextra, hother⟩⟩ := exists_mark hf h
  · exact ⟨token, hget, he, fun _ => hmark, fun _ => hmark.2, fun _ => .inl hmark⟩
  · refine ⟨token, hget, he, fun hnone => ?_, fun ht _ => hextra ht, fun ht => .inr ?_⟩
    · obtain hnone | hnot := hnone
      · rw [hnone] at hsome
        cases hsome
      · exact absurd hx hnot
    · obtain ⟨position, -, s, hscanner, hskips⟩ := hother ht
      exact ⟨s, hscanner, position, hskips⟩

/-- The letter behind a comment. -/
theorem marks_preceded_commentedLetters : ∃ l a comment t,
    Language.compile commentedLetters (some Candid.BlockComment.scanner) 0 = .ok l ∧
    tokenize l ['a', '/', '*', '*', '/', 'a'] = [a, comment] ++ t :: [] ∧ t.span.startByte = 5 ∧
    t.afterExtra = true ∧ Preceded [a, comment] 5 := by
  obtain ⟨l, hl, htest⟩ := Language.exists_of_compile_any
    (show (Language.compile commentedLetters (some Candid.BlockComment.scanner) 0).toOption.any
      (fun l => (tokenize l ['a', '/', '*', '*', '/', 'a']).length == 3 &&
        (tokenize l ['a', '/', '*', '*', '/', 'a'])[2]?.any
          (fun t => t.afterExtra && t.span.startByte == 5) &&
        (l.listed ['a', '/', '*', '*', '/', 'a'])[2]?.all fun e =>
          decide (e.1.symbol ∉ l.tables.externals)) = true
      by decide +kernel)
  simp only [Bool.and_eq_true, beq_iff_eq, Option.all_eq_true, decide_eq_true_iff] at htest
  obtain ⟨⟨hlength, hlast⟩, hx⟩ := htest
  obtain ⟨a, comment, t, htokens⟩ := List.length_eq_three.1 hlength
  rw [htokens] at hlast
  obtain ⟨hafter, hstart⟩ := Bool.and_eq_true_iff.1 hlast
  have hstart := beq_iff_eq.1 hstart
  have hproper : ∀ s ∈ some Candid.BlockComment.scanner, s.Proper := by
    rintro _ ⟨⟩
    exact Candid.BlockComment.scanner_proper
  have hsplit : tokenize l ['a', '/', '*', '*', '/', 'a'] = [a, comment] ++ t :: [] := htokens
  obtain ⟨token, hget, -, hmark, -⟩ := marks_preceded hl hproper hsplit
  have hpreceded := (hmark (.inr (hx _ hget))).1 hafter
  exact ⟨l, a, comment, t, hl, hsplit, hstart, hafter, hstart ▸ hpreceded⟩

/-- A comment at the very beginning is marked, though nothing lies before it. -/
theorem not_preceded_commentedLetters : ∃ l t,
    Language.compile commentedLetters (some Candid.BlockComment.scanner) 0 = .ok l ∧
    tokenize l ['/', '*', '*', '/'] = [t] ∧ t.afterExtra = true ∧
    ¬Preceded [] t.span.startByte := by
  obtain ⟨l, hl, htest⟩ := Language.exists_of_compile_any
    (show (Language.compile commentedLetters (some Candid.BlockComment.scanner) 0).toOption.any
      (fun l => (tokenize l ['/', '*', '*', '/']).map (fun t => (t.afterExtra, t.span.startByte)) ==
        [(true, 0)]) = true
      by decide +kernel)
  obtain ⟨t, ht, hmark⟩ := List.map_eq_singleton_iff.1 (beq_iff_eq.1 htest)
  obtain ⟨hafter, hstart⟩ := Prod.mk.inj hmark
  refine ⟨l, t, hl, ht, hafter, ?_⟩
  rw [hstart]
  decide

end Language

end EarleyTree

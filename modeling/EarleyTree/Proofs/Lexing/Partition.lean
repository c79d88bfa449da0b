import EarleyTree.Proofs.Checked.Tokens

/-!
Listing the tokens of a text takes it apart: the tokens lie one behind the other, and what is in none of
them is blank or was skipped by the scanner.
-/
namespace EarleyTree

open Text

namespace ScanCursor

variable {c c' : ScanCursor} {text : List Char}

/-- The token begins where a skipping advance led, or else where the cursor was at first. -/
theorem Reaches.tokenStart (h : c.Reaches c') : c'.tokenStart = c.tokenStart ∨ ∃ before,
    c.Reaches before ∧ (before.advance true).Reaches c' ∧
      c'.tokenStart = (before.advance true).position := by
  induction h with
  | refl => exact .inl rfl
  | @advance c' skip h ih =>
      cases skip with
      | true => exact .inr ⟨c', h, .refl, rfl⟩
      | false =>
          have hstart : (c'.advance false).tokenStart = c'.tokenStart := by
            rw [ScanCursor.advance]
            cases c'.rest <;> rfl
          rw [hstart]
          obtain he | ⟨before, hb, hr, he⟩ := ih
          · exact .inl he
          · exact .inr ⟨before, hb, hr.advance false, he⟩
  | markEnd _ ih =>
      obtain he | ⟨before, hb, hr, he⟩ := ih
      · exact .inl he
      · exact .inr ⟨before, hb, hr.markEnd, he⟩
  | setResult index _ ih =>
      obtain he | ⟨before, hb, hr, he⟩ := ih
      · exact .inl he
      · exact .inr ⟨before, hb, hr.setResult index, he⟩

end ScanCursor

/-- Asked at a place, the scanner finds a token whose start it has set by a skipping advance. -/
def Scanner.Skips (s : Scanner) (text : List Char) (position start stop : Nat) : Prop :=
  ∃ saved valid cursor saved' before,
    s.scan saved (.ofText text position) valid = some (cursor, saved') ∧
      (ScanCursor.ofText text position).Reaches before ∧ (before.advance true).Reaches cursor ∧
      cursor.tokenStart = start ∧ cursor.tokenEnd = stop ∧ start = (before.advance true).position

namespace Lexer

variable {lx : Lexer} {saved saved' : Saved} {position next : Nat} {passed passed' : Bool}
  {welcome : Symbol → Bool} {extrasOnly : Bool} {token : Token} {found : Option (Token × Bool)}

theorem scanExternal_skips (hf : lx.Proper)
    (h : lx.scanExternal saved position welcome extrasOnly = some (token, saved')) :
    token.start = position ∨ ∃ s ∈ lx.scanner, s.Skips lx.text position token.start token.stop := by
  obtain ⟨scanner, cursor, hs, hc, -, -, -, htoken⟩ := scanExternal_eq_some h
  have hstart : token.start = cursor.tokenStart := by rw [htoken]
  have hstop : token.stop = cursor.tokenEnd := by rw [htoken]
  obtain he | ⟨before, hb, hr, he⟩ := (hf scanner hs _ _ _ _ _ _ hc).tokenStart
  · exact .inl (hstart.trans he)
  · exact .inr ⟨scanner, hs, saved, _, cursor, _, before, hc, hb, hr, hstart.symm, hstop.symm,
      hstart.trans he⟩

theorem scanExternal_start_isBoundary (hf : lx.Proper) (hp : isBoundary lx.text position = true)
    (h : lx.scanExternal saved position welcome extrasOnly = some (token, saved')) :
    isBoundary lx.text token.start = true := by
  obtain he | ⟨_, -, _, _, _, _, before, -, hb, -, -, -, he⟩ := scanExternal_skips hf h
  · exact he ▸ hp
  · have halign := (hb.aligned (ScanCursor.aligned_ofText hp)).advance true
    exact he ▸ isBoundary_iff.2 ⟨_, halign.1⟩

theorem Cut.isBoundary_start (hf : lx.Proper) (hp : Text.isBoundary lx.text position = true)
    (h : lx.Cut position passed found next passed') :
    ∀ t ∈ found, Text.isBoundary lx.text t.1.start = true := by
  cases h with
  | blank => exact nofun
  | extra =>
      rintro _ ⟨⟩
      exact hp
  | scannedExtra h =>
      have hstart := scanExternal_start_isBoundary hf hp h
      rintro _ ⟨⟩
      exact hstart
  | token h =>
      obtain ⟨_, _, _, -, -, -, hstart, -⟩ := matched?_eq_some h
      rintro _ ⟨⟩
      exact hstart ▸ hp
  | scanned h =>
      have hstart := scanExternal_start_isBoundary hf hp h
      rintro _ ⟨⟩
      exact hstart
  | error _ h =>
      rintro _ ⟨⟩
      exact (errorToken_eq_some h).2.1 ▸ hp

theorem Cut.start_or_skips {t : Token × Bool} (hf : lx.Proper)
    (h : lx.Cut position passed (some t) next passed') :
    t.1.start = position ∨ ∃ s ∈ lx.scanner, s.Skips lx.text position t.1.start t.1.stop := by
  cases h with
  | extra => exact .inl rfl
  | scannedExtra h =>
      have hstart := scanExternal_skips hf h
      exact hstart
  | token h =>
      obtain ⟨_, _, _, -, -, -, hstart, -⟩ := matched?_eq_some h
      exact .inl hstart
  | scanned h =>
      have hstart := scanExternal_skips hf h
      exact hstart
  | error _ h => exact .inl (errorToken_eq_some h).2.1

theorem foldl_max_eq_or_mem (ns : List Nat) (m : Nat) :
    ns.foldl max m = m ∨ ns.foldl max m ∈ ns := by
  induction ns generalizing m with
  | nil => exact .inl rfl
  | cons n ns ih =>
      rw [List.foldl_cons]
      obtain he | hm := ih (max m n)
      · obtain hmax | hmax := max_choice m n
        · exact .inl (he.trans hmax)
        · refine .inr ?_
          rw [he, hmax]
          exact List.mem_cons_self
      · exact .inr (List.mem_cons_of_mem _ hm)

/-- Something is blank where a skip pattern matches as much. -/
theorem exists_of_skipLength {rest : List Char} (h : 0 < lx.skipLength rest) :
    ∃ r ∈ lx.tables.skip, ∃ start, r.find? rest = some (start, lx.skipLength rest) := by
  obtain he | hm :=
    foldl_max_eq_or_mem (lx.tables.skip.filterMap fun r => (r.find? rest).map (·.2)) 0
  · exact absurd he h.ne'
  · obtain ⟨r, hr, hfind⟩ := List.mem_filterMap.1 hm
    obtain ⟨⟨start, stop⟩, hfind, he⟩ := Option.map_eq_some_iff.1 hfind
    exact ⟨r, hr, start, hfind.trans (congrArg (fun n => some (start, n)) he)⟩

end Lexer

/-- A token in the list, with its place in the text. -/
def LexedToken.ofListed (lines : Lines) (e : Token × Bool) : LexedToken :=
  .ofToken lines e.2 (if e.2 then e.1 else { e.1 with wrapper := none })

namespace LexedToken

variable {lines : Lines} {e : Token × Bool}

@[simp] theorem ofListed_startByte : (ofListed lines e).span.startByte = e.1.start := by
  rcases e with ⟨t, - | -⟩ <;> rfl

@[simp] theorem ofListed_endByte : (ofListed lines e).span.endByte = e.1.stop := by
  rcases e with ⟨t, - | -⟩ <;> rfl

@[simp] theorem ofListed_afterExtra : (ofListed lines e).afterExtra = e.1.afterExtra := by
  rcases e with ⟨t, - | -⟩ <;> rfl

@[simp] theorem ofListed_isExtra : (ofListed lines e).isExtra = e.2 := rfl

end LexedToken

namespace Language

theorem tokenize_eq (l : Language) (text : List Char) :
    tokenize l text = (l.listed text).map (.ofListed (.ofText text)) :=
  Lexer.tokenizeFrom_eq (l.lexer text) _ _ _ _

theorem listed_cuts {l : Language} {text : List Char} (hf : (l.lexer text).Proper) :
    ∃ passed, (l.lexer text).Cuts 0 false (l.listed text) (byteLength text) passed :=
  Lexer.listed_cuts hf _ _ 0 (isBoundary_iff.2 ⟨_, suffix?_zero text⟩) (Nat.lt_succ_self _)

/-- A skip pattern matches that much at the front of what follows the place. -/
def Blank (l : Language) (text : List Char) (position n : Nat) : Prop :=
  ∃ rest, suffix? text position = some rest ∧ ∃ r ∈ l.tables.skip, r.matchAt none rest 0 = some n

/-- What a byte of the text belongs to: a token, something blank between tokens, or what the scanner
skipped in front of a token. -/
inductive Places (l : Language) (text : List Char) (i : Nat) : Prop
  | token {t : LexedToken} (ht : t ∈ tokenize l text) (hle : t.span.startByte ≤ i)
      (hlt : i < t.span.endByte) : Places l text i
  | blank {position n : Nat} (hblank : l.Blank text position n) (hle : position ≤ i)
      (hlt : i < position + n)
      (hapart : ∀ t ∈ tokenize l text,
        t.span.endByte ≤ position ∨ position + n ≤ t.span.startByte) : Places l text i
  | skipped {s : Scanner} {position : Nat} {t : LexedToken} (hs : s ∈ l.scanner)
      (ht : t ∈ tokenize l text)
      (hskips : s.Skips text position t.span.startByte t.span.endByte) (hle : position ≤ i)
      (hlt : i < t.span.startByte) : Places l text i

section

variable {l : Language} {text : List Char} (hf : (l.lexer text).Proper)

include hf

theorem pairwise_tokenize :
    (tokenize l text).Pairwise fun a b => a.span.endByte ≤ b.span.startByte := by
  obtain ⟨passed, hcuts⟩ := listed_cuts hf
  rw [tokenize_eq, List.pairwise_map]
  simp only [LexedToken.ofListed_startByte, LexedToken.ofListed_endByte]
  exact hcuts.pairwise (hf.forward)

theorem bounds_of_mem_tokenize {t : LexedToken} (ht : t ∈ tokenize l text) :
    t.span.startByte < t.span.endByte ∧ isBoundary text t.span.startByte = true ∧
      isBoundary text t.span.endByte = true := by
  obtain ⟨passed, hcuts⟩ := listed_cuts hf
  rw [tokenize_eq] at ht
  obtain ⟨e, he, rfl⟩ := List.mem_map.1 ht
  obtain ⟨before, after, hsplit⟩ := List.append_of_mem he
  obtain ⟨p, b, n, b', hbefore, hcut, -⟩ := hcuts.exists_token hsplit
  have hp := hbefore.isBoundary hf (isBoundary_iff.2 ⟨_, suffix?_zero text⟩)
  obtain ⟨-, hbounds⟩ := hcut.bounds (hf.forward)
  obtain ⟨-, hlt, hstop⟩ := hbounds e rfl
  rw [LexedToken.ofListed_startByte, LexedToken.ofListed_endByte]
  exact ⟨hlt, hcut.isBoundary_start hf hp e rfl, hstop ▸ hcut.isBoundary hf hp⟩

theorem places_of_lt
    (hskip : ∀ r ∈ l.tables.skip, ∀ n rest, suffix? text n = some rest → r.Leads rest) {i : Nat}
    (hi : i < byteLength text) : l.Places text i := by
  obtain ⟨passed, hcuts⟩ := listed_cuts hf
  obtain ⟨before, p, b, found, n, b', after, hbefore, hcut, hafter, hsplit, hp, hn⟩ :=
    hcuts.exists_at (Nat.zero_le i) hi
  cases found with
  | some t =>
      have ht : LexedToken.ofListed (.ofText text) t ∈ tokenize l text := by
        rw [tokenize_eq, hsplit]
        exact List.mem_map_of_mem (by simp)
      obtain ⟨-, hbounds⟩ := hcut.bounds (hf.forward)
      obtain ⟨-, -, rfl⟩ := hbounds t rfl
      by_cases hle : t.1.start ≤ i
      · exact .token ht (by simpa using hle) (by simpa using hn)
      · obtain he | ⟨s, hscanner, hskips⟩ := hcut.start_or_skips hf
        · exact absurd (he ▸ hp) hle
        · exact .skipped hscanner ht (by simpa [lexer] using hskips) hp (by simpa using hle)
  | none =>
      cases hcut with
      | @blank rest hrest hpos =>
          obtain ⟨r, hr, start, hfind⟩ := Lexer.exists_of_skipLength hpos
          rw [Pattern.Regex.find?_eq (hskip r hr p rest hrest)] at hfind
          obtain ⟨m, hm, he⟩ := Option.map_eq_some_iff.1 hfind
          obtain rfl := (Prod.mk.inj he).2
          refine .blank ⟨rest, hrest, r, hr, hm⟩ hp hn fun t ht => ?_
          rw [tokenize_eq, hsplit, Option.toList_none, List.append_nil] at ht
          obtain ⟨e, he, rfl⟩ := List.mem_map.1 ht
          rw [LexedToken.ofListed_startByte, LexedToken.ofListed_endByte]
          obtain he | he := List.mem_append.1 he
          · exact .inl ((hbefore.bounds hf.forward).2 e he).2
          · exact .inr ((hafter.bounds hf.forward).2 e he).1

end

/-- Without a scanner an error is a character at which no terminal but an extra matches. -/
theorem error_of_mem_tokenize {l : Language} {text : List Char} (ht : l.tables.WellFormed)
    (hc : l.tables.Closed) (hs : l.scanner = none) {t : LexedToken} (hm : t ∈ tokenize l text)
    (hk : t.kind = errorSymbol) : ∃ c rest, suffix? text t.span.startByte = some (c :: rest) ∧
      t.span.endByte = t.span.startByte + c.utf8Size ∧
      ∀ token ∈ l.tables.lexTokens, l.tables.isExtra token.symbol = false →
        token.length? (c :: rest) = none := by
  have hscan {saved saved' : Saved} {position : Nat} {welcome : Symbol → Bool} {extrasOnly : Bool}
      {token : Token} (h : (l.lexer text).scanExternal saved position welcome extrasOnly =
        some (token, saved')) : False := by
    obtain ⟨_, _, hscanner, -⟩ := Lexer.scanExternal_eq_some h
    cases hs.symm.trans hscanner
  have hne {s : Symbol} (hlt : s < l.tables.symbols.size) (hk : s = errorSymbol) : False :=
    hc.ne_errorSymbol hlt hk
  have hf : (l.lexer text).Proper := fun s h => by cases hs.symm.trans h
  obtain ⟨passed, hcuts⟩ := listed_cuts hf
  rw [tokenize_eq] at hm
  obtain ⟨e, he, rfl⟩ := List.mem_map.1 hm
  obtain ⟨before, after, hsplit⟩ := List.append_of_mem he
  obtain ⟨p, b, n, b', -, hcut, -⟩ := hcuts.exists_token hsplit
  cases hcut with
  | @extra rest best hrest hbest =>
      obtain ⟨⟨token, hm, hsymbol⟩, -⟩ := Lexer.bestMatch_mem hbest
      have hlt := Tables.lt_size_of_any (ht.lexTokens token hm)
      exact (hne (hc.wrapper?_getD_lt (hsymbol ▸ hlt)) hk).elim
  | scannedExtra h => exact (hscan h).elim
  | token h =>
      obtain ⟨_, _, _, hrest, hbest, hsymbol, hstart, hstop, -⟩ := Lexer.matched?_eq_some h
      have hfinds : (l.lexer text).Finds [] p _ := .matched hrest hbest hsymbol hstart hstop
      exact (hne (Tables.lt_size_of_any (hfinds.isTerminal ht)) hk).elim
  | scanned h => exact (hscan h).elim
  | @error t hnone h =>
      obtain ⟨rest, hrest, h⟩ := Option.bind_eq_some_iff.1 h
      obtain ⟨c, hc, h⟩ := Option.bind_eq_some_iff.1 h
      obtain ⟨rest, rfl⟩ := List.head?_eq_some_iff.1 hc
      cases h
      have hbest : (l.lexer text).bestMatch (c :: rest) (fun s => !l.tables.isExtra s) = none := by
        refine Option.eq_none_iff_forall_ne_some.2 fun best hbest => ?_
        have hmatched : (l.lexer text).matched? p none b = some _ :=
          Option.bind_eq_some_iff.2 ⟨_, hrest, Option.bind_eq_some_iff.2 ⟨best, hbest, rfl⟩⟩
        cases hnone.symm.trans hmatched
      refine ⟨c, rest, hrest, rfl, fun token hm hextra => LexToken.length?_eq_none ?_⟩
      exact Lexer.candidate?_eq_none hbest hm (by rw [hextra]; rfl)

/-- The tokens of a text are listed without end or fault, each within the text and behind the one
before it. If the matches of the skip patterns begin where they are looked for, nothing of the text is
lost between the tokens. -/
theorem tokenize_partitions {g : Grammar} {scanner : Option Scanner} {handle : Nat} {l : Language}
    (hl : Language.compile g scanner handle = .ok l) (hs : ∀ s ∈ scanner, s.Proper) (text : List Char)
    (hskip : ∀ r ∈ l.tables.skip, ∀ n rest, suffix? text n = some rest → r.Leads rest) :
    Checked.tokenize l text = .ok (tokenize l text) ∧
    (∀ t ∈ tokenize l text, t.span.startByte < t.span.endByte ∧
      isBoundary text t.span.startByte = true ∧ isBoundary text t.span.endByte = true ∧
      t.span.endByte ≤ byteLength text) ∧
    ((tokenize l text).Pairwise fun a b => a.span.endByte ≤ b.span.startByte) ∧
    (∀ i < byteLength text, l.Places text i) ∧
    (scanner = none → ∀ t ∈ tokenize l text, t.kind = errorSymbol →
      ∃ c rest, suffix? text t.span.startByte = some (c :: rest) ∧
        t.span.endByte = t.span.startByte + c.utf8Size ∧
        ∀ token ∈ l.tables.lexTokens, l.tables.isExtra token.symbol = false →
          token.length? (c :: rest) = none) := by
  obtain rfl := Language.scanner_of_compile hl
  have hf : (l.lexer text).Proper := hs
  refine ⟨Checked.tokenize_eq hs text, fun t ht => ?_, pairwise_tokenize hf,
    fun i => places_of_lt hf hskip, fun hnone t => ?_⟩
  · obtain ⟨hlt, hstart, hend⟩ := bounds_of_mem_tokenize hf ht
    exact ⟨hlt, hstart, hend, le_of_isBoundary hend⟩
  · exact error_of_mem_tokenize (compile_wellFormed hl) (compile_closed hl) hnone

end Language

/-- Letters with blanks and nested comments between them. -/
def commentedLetters : Grammar :=
  { ({ name := "commented" } : Grammar).define "commented" (.many1 (.literal "a")) with
    extras := some [.regex "\\s", .ref "comment"]
    externals := some [.ref "comment"] }

theorem tokenize_partitions_commentedLetters : ∃ l,
    Language.compile commentedLetters (some Candid.BlockComment.scanner) 0 = .ok l ∧
    (∀ r ∈ l.tables.skip, r.anchored = true) ∧
    (tokenize l ['a', ' ', '/', '*', '*', '/', '?']).map (·.span.startByte) = [0, 2, 6] ∧
    ∀ i < 7, l.Places ['a', ' ', '/', '*', '*', '/', '?'] i := by
  obtain ⟨l, hl, htest⟩ := Language.exists_of_compile_any
    (show (Language.compile commentedLetters (some Candid.BlockComment.scanner) 0).toOption.any
      (fun l => decide (∀ r ∈ l.tables.skip, r.anchored = true) &&
        (tokenize l ['a', ' ', '/', '*', '*', '/', '?']).map (·.span.startByte) == [0, 2, 6]) = true
      by decide +kernel)
  simp only [Bool.and_eq_true, decide_eq_true_iff, beq_iff_eq] at htest
  obtain ⟨hskip, hstarts⟩ := htest
  have hproper : ∀ s ∈ some Candid.BlockComment.scanner, s.Proper := by
    rintro _ ⟨⟩
    exact Candid.BlockComment.scanner_proper
  obtain ⟨-, -, -, hplaces, -⟩ := Language.tokenize_partitions hl hproper
    ['a', ' ', '/', '*', '*', '/', '?'] fun r hr _ _ _ => Pattern.Regex.leads_of_anchored (hskip r hr)
  exact ⟨l, hl, hskip, hstarts, hplaces⟩

/-- A skip pattern that closes the group which the anchor stands in front of. -/
def looseExtras : Grammar :=
  { ({ name := "loose" } : Grammar).define "loose" (.seq [.ref "t"]) |>.define "t" (.regex "c") with
    extras := some [.regex "a))|(?:(?:b"] }

/-- The first character is lost: no skip pattern matches there, and it is in no token. -/
theorem not_places_looseExtras : ∃ l, Language.compile looseExtras none 0 = .ok l ∧
    ¬ l.Places ['x', 'b', 'c'] 0 := by
  obtain ⟨l, hl, htest⟩ := exists_of_compiles
    (show compiles looseExtras (fun l =>
        decide (∀ t ∈ tokenize l ['x', 'b', 'c'], 0 < t.span.startByte) &&
        decide (∀ r ∈ l.tables.skip, r.matchAt none ['x', 'b', 'c'] 0 = none)) = true
      by decide +kernel)
  simp only [Bool.and_eq_true, decide_eq_true_iff] at htest
  obtain ⟨htokens, hskip⟩ := htest
  refine ⟨l, hl, fun h => ?_⟩
  cases h with
  | token ht hle => exact absurd (htokens _ ht) (Nat.not_lt.2 hle)
  | blank hblank hle =>
      obtain ⟨rest, hrest, r, hr, hm⟩ := hblank
      obtain rfl := Nat.le_zero.1 hle
      cases hrest
      cases (hskip r hr).symm.trans hm
  | skipped hs => cases (Language.scanner_of_compile hl).symm.trans hs

end EarleyTree

import EarleyTree.Proofs.Language.Closed
import EarleyTree.Proofs.Lexing.LongestMatch
import EarleyTree.Proofs.Parsing.Trace

/-!
Which of the terminals that match is read, and whether the chart goes on with it. The lexer chooses
among the terminals that are waited for. Behind extras the steps that are immediate wait in vain, but
their terminals are still chosen from.
-/
namespace EarleyTree

open Text

namespace Chart

variable {t : Tables} {c : Chart} {s : Symbol} {afterExtra : Bool}

/-- A step waits for the terminal, and an immediate one only where no extras came before. -/
def CanTake (t : Tables) (c : Chart) (s : Symbol) (afterExtra : Bool) : Prop :=
  ∃ item ∈ c.current, ∃ step, item.nextStep? t = some step ∧ step.symbol = s ∧
    (step.immediate = true → afterExtra = false)

instance : Decidable (c.CanTake t s afterExtra) :=
  decidable_of_iff ((c.current.items.toList.any fun item => (item.nextStep? t).any fun step =>
      step.symbol == s && (!step.immediate || !afterExtra)) = true) (by
    simp only [List.any_eq_true, Array.mem_toList_iff, Option.any_eq_true, Bool.and_eq_true,
      beq_iff_eq, Bool.or_eq_true, Bool.not_eq_true', Bool.not_eq_true, CanTake, imp_iff_not_or]
    rfl)

theorem exists_scan?_iff : (∃ d, c.scan? t s afterExtra = some d) ↔ c.CanTake t s afterExtra := by
  let u : InputUnit := .token ⟨s, 0, 0, afterExtra, none⟩
  have hnil : (∃ d, c.scan? t s afterExtra = some d) ↔ c.scanned t s afterExtra ≠ [] := by
    rw [scan?]
    split
    · next h => simp [h]
    · next h => exact iff_of_true ⟨_, rfl⟩ h
  rw [hnil]
  constructor
  · intro h
    obtain ⟨new, hnew⟩ := List.exists_mem_of_ne_nil _ h
    obtain ⟨item, hi, step, hstep, ⟨hs, himmediate⟩, -⟩ := mem_scanned (u := u).1 hnew
    exact ⟨item, hi, step, hstep, hs, fun h => Bool.eq_false_iff.2 fun hafter => himmediate ⟨h, hafter⟩⟩
  · rintro ⟨item, hi, step, hstep, hs, himmediate⟩
    refine List.ne_nil_of_mem (mem_scanned (u := u).2 ⟨item, hi, step, hstep, ⟨hs, ?_⟩, rfl⟩)
    rintro ⟨h, hafter⟩
    exact Bool.noConfusion ((himmediate h).symm.trans hafter)

theorem mem_expectedTerminals {set : ItemSet} : s ∈ set.expectedTerminals t ↔
    t.isNonterminal s = false ∧ ∃ item ∈ set, item.next? t = some s := by
  rw [ItemSet.expectedTerminals, List.mem_filter, ItemSet.nextSymbols, List.mem_filterMap, and_comm,
    Bool.not_eq_true']
  simp only [Array.mem_toList_iff]
  rfl

theorem CanTake.mem_expectedTerminals (h : c.CanTake t s afterExtra) (hs : t.isTerminal s = true) :
    s ∈ c.current.expectedTerminals t := by
  obtain ⟨item, hi, step, hstep, rfl, -⟩ := h
  refine Chart.mem_expectedTerminals.2 ⟨?_, item, hi, Item.next?_eq_some.2 ⟨step, hstep, rfl⟩⟩
  by_contra hn
  rw [t.not_isTerminal (by simpa using hn)] at hs
  cases hs

/-- Where no extras came before, every terminal that is waited for can be taken. -/
theorem canTake_of_mem (h : s ∈ c.current.expectedTerminals t) : c.CanTake t s false := by
  obtain ⟨-, item, hi, hnext⟩ := Chart.mem_expectedTerminals.1 h
  obtain ⟨step, hstep, hs⟩ := Item.next?_eq_some.1 hnext
  exact ⟨item, hi, step, hstep, hs, fun _ => rfl⟩

end Chart

namespace Lexer

variable {lx : Lexer} {rest : List Char} {welcome : Symbol → Bool} {s : Symbol} {position : Nat}
  {afterExtra : Bool} {token : Token}

/-- The terminal matches at least one character. -/
def Matches (lx : Lexer) (rest : List Char) (s : Symbol) : Prop :=
  ∃ token ∈ lx.tables.lexTokens, token.symbol = s ∧ (candidate? rest token).isSome = true

instance : Decidable (lx.Matches rest s) := List.decidableBEx _ _

/-- The terminals that may be read: those that match, and the keyword that the word token spells. -/
inductive Offers (lx : Lexer) (rest : List Char) : Symbol → Prop
  | matched {s : Symbol} (h : lx.Matches rest s) : Offers lx rest s
  | keyword {token : LexToken} {c : Candidate} {s : Symbol} (ht : token ∈ lx.tables.lexTokens)
      (hw : lx.tables.word = some c.symbol) (hc : candidate? rest token = some c)
      (hs : lx.tables.keywords.lookup (String.ofList (takeBytes rest c.length)) = some s) :
      Offers lx rest s

theorem exists_bestMatch (h : lx.Matches rest s) (hw : welcome s = true) :
    ∃ c, lx.bestMatch rest welcome = some c := by
  obtain ⟨token, ht, rfl, hc⟩ := h
  refine Option.ne_none_iff_exists'.1 fun hnone => ?_
  rw [candidate?_eq_none hnone ht hw] at hc
  cases hc

/-- The token is one that is welcome, and that the text offers. -/
theorem matched?_offers (hrest : suffix? lx.text position = some rest)
    (h : lx.matched? position (some welcome) afterExtra = some token) :
    lx.Offers rest token.symbol ∧ welcome token.symbol = true ∧ token.start = position ∧
      token.start < token.stop := by
  rw [matched?] at h
  obtain ⟨rest', hrest', h⟩ := Option.bind_eq_some_iff.1 h
  obtain rfl : rest = rest' := Option.some.inj (hrest.symm.trans hrest')
  obtain ⟨best, hbest, h⟩ := Option.bind_eq_some_iff.1 h
  cases h
  obtain ⟨lexToken, ht, hc, hw⟩ := bestMatch_candidate hbest
  have hpos := length_pos_of_candidate? hc
  rw [show (some welcome).all (· best.symbol) = welcome best.symbol from rfl, Option.isNone_some,
    Bool.false_and, Bool.not_false, Bool.and_true] at hw
  dsimp only
  cases hk : lx.keyword? best rest fun s => (some welcome).all (· s) with
  | none =>
      have hmatches : lx.Matches rest best.symbol := ⟨lexToken, ht, candidate?_symbol hc, by rw [hc]; rfl⟩
      exact ⟨.matched hmatches, hw, rfl, Nat.lt_add_of_pos_right hpos⟩
  | some s =>
      rw [keyword?] at hk
      split at hk
      · next hword =>
          obtain ⟨hs, hwelcome⟩ := Option.filter_eq_some_iff.1 hk
          exact ⟨.keyword ht hword hc hs, hwelcome, rfl, Nat.lt_add_of_pos_right hpos⟩
      · cases hk

theorem exists_matched? (afterExtra : Bool) (hrest : suffix? lx.text position = some rest)
    (h : lx.Matches rest s) (hw : welcome s = true) :
    ∃ token, lx.matched? position (some welcome) afterExtra = some token := by
  obtain ⟨best, hbest⟩ : ∃ best, lx.bestMatch rest (fun s => (some welcome).all (· s) &&
      !((some welcome).isNone && lx.tables.isExtra s)) = some best :=
    exists_bestMatch h (by simpa using hw)
  exact ⟨_, by rw [matched?, hrest, Option.bind_eq_bind, Option.bind_some, hbest]; rfl⟩

theorem Matches.lt (hrest : suffix? lx.text position = some rest) (h : lx.Matches rest s) :
    position < byteLength lx.text := by
  obtain ⟨token, -, -, hc⟩ := h
  obtain ⟨c, hc⟩ := Option.isSome_iff_exists.1 hc
  have hpos := length_pos_of_candidate? hc
  have hsum := add_byteLength_suffix hrest
  rw [candidate?] at hc
  split at hc
  · next hfind =>
      have hle := Pattern.Regex.find?_le hfind
      split at hc
      · cases hc
      · cases hc
        dsimp only at hpos
        omega
  · cases hc

end Lexer

namespace ParseState

variable {p : ParseInput} {st : ParseState} {rest : List Char} {s : Symbol}

/-- The terminals that are waited for where the next token is read. -/
def expected (p : ParseInput) (st : ParseState) : List Symbol :=
  (st.reading p).chart.current.expectedTerminals p.tables

/-- Whether the chart can go on with the terminal where the next token is read. -/
def CanTake (p : ParseInput) (st : ParseState) (s : Symbol) : Prop :=
  (st.reading p).chart.CanTake p.tables s (st.opened p).2

instance : Decidable (st.CanTake p s) := inferInstanceAs (Decidable (Chart.CanTake _ _ _ _))

section

variable (ht : p.tables.WellFormed) (hc : p.tables.Closed) (hr : p.reusable = [])
  (hscanner : p.language.scanner = none)
  (hrest : suffix? p.text (st.reading p).position = some rest)

include ht hc hr hscanner hrest

/-- If a terminal that can be taken matches, the token read is one that is waited for, and the chart
goes on with it if it can. -/
theorem exists_offered (hm : p.lexer.Matches rest s) (hs : st.CanTake p s) :
    ∃ t, p.lexer.Offers rest t.symbol ∧ t.symbol ∈ st.expected p ∧
      t.start = (st.reading p).position ∧ t.start < t.stop ∧
      (st.CanTake p t.symbol → st.taken p = some (.unit (.token t))) ∧
      (¬st.CanTake p t.symbol → st.taken p = some (.skip t)) := by
  obtain ⟨lexToken, hlex, hsymbol, -⟩ := id hm
  have hmem : (st.expected p).contains s = true :=
    List.contains_iff_mem.2 (hs.mem_expectedTerminals (hsymbol ▸ ht.lexTokens lexToken hlex))
  obtain ⟨t, htoken⟩ := Lexer.exists_matched? (st.opened p).2 hrest hm hmem
  obtain ⟨hoffers, hwelcome, hstart, hlt⟩ := Lexer.matched?_offers hrest htoken
  obtain ⟨_, _, _, -, -, -, -, -, hafter⟩ := Lexer.matched?_eq_some htoken
  rw [← Lexer.token_eq_matched? (st.reading p).saved hscanner (hm.lt hrest)] at htoken
  have hnext : ((st.reading p).nextToken p (st.opened p).2).1 = some t := by
    rw [nextToken]
    dsimp only
    split
    · next he => exact he.symm.trans htoken
    · next he => cases he.symm.trans htoken
  have hne : t.symbol ≠ errorSymbol := by
    obtain ⟨-, -, hfound⟩ := Lexer.token_eq_some htoken
    exact hc.ne_errorSymbol (Tables.lt_size_of_any (hfound.isTerminal ht))
  have htaken : st.taken p = some (((st.reading p).chart.scan? p.tables t.symbol
      (st.opened p).2).elim (.skip t) fun _ => .unit (.token t)) := by
    rw [taken, reuse?_of_fresh hr]
    dsimp only
    rw [hnext, Option.map_some, if_neg hne, hafter]
    rcases (st.reading p).chart.scan? p.tables t.symbol (st.opened p).2 with - | d
    · rfl
    · rfl
  refine ⟨t, hoffers, List.contains_iff_mem.1 hwelcome, hstart, hlt, fun htake => ?_, fun htake => ?_⟩
  · obtain ⟨d, hd⟩ := Chart.exists_scan?_iff.2 htake
    rw [htaken, hd, Option.elim_some]
  · have hscan : (st.reading p).chart.scan? p.tables t.symbol (st.opened p).2 = none :=
      Option.eq_none_iff_forall_ne_some.2 fun d hd => htake (Chart.exists_scan?_iff.1 ⟨d, hd⟩)
    rw [htaken, hscan, Option.elim_none]

/-- Behind extras this asks that no terminal which the text offers is waited for by immediate steps
alone. -/
theorem exists_taken (hm : p.lexer.Matches rest s) (hs : st.CanTake p s)
    (hall : (st.opened p).2 = true → ∀ a ∈ st.expected p, p.lexer.Offers rest a → st.CanTake p a) :
    ∃ t st', st.taken p = some (.unit (.token t)) ∧ st.step p = .more st' ∧
      st'.units = st.units.push (.token t) ∧ t.start = (st.reading p).position ∧ t.start < t.stop := by
  obtain ⟨t, hoffers, hmem, hstart, hlt, htaken, -⟩ := exists_offered ht hc hr hscanner hrest hm hs
  have htake : st.CanTake p t.symbol := by
    cases hafter : (st.opened p).2 with
    | true => exact hall hafter _ hmem hoffers
    | false =>
        rw [CanTake, hafter]
        exact Chart.canTake_of_mem hmem
  have htaken := htaken htake
  have hleads := step_leads (p := p) st
  cases hstep : st.step p with
  | more st' =>
      rw [hstep] at hleads
      cases hleads with
      | unit hu hunits =>
          obtain rfl : _ = InputUnit.token t := by simpa using hu.symm.trans htaken
          exact ⟨t, st', htaken, rfl, hunits, hstart, hlt⟩
      | skip hskip => cases hskip.symm.trans htaken
  | finished st' =>
      rw [hstep] at hleads
      cases hleads with
      | finished hnone => cases hnone.symm.trans htaken

end

end ParseState

namespace Language

open ParseState

variable {g : Grammar} {l : Language} {handle : Nat}

/-- In whatever state: if a terminal that the chart can take matches behind the extras, then the token
read there is taken, provided that behind extras no terminal which the text offers is waited for by
immediate steps alone. -/
theorem takes_offered (hl : Language.compile g none handle = .ok l) {text rest : List Char} {era : Nat}
    {st : ParseState} {s : Symbol}
    (hrest : suffix? text (st.reading (.fresh l text era)).position = some rest)
    (hm : (ParseInput.fresh l text era).lexer.Matches rest s) (hs : st.CanTake (.fresh l text era) s)
    (hall : (st.opened (.fresh l text era)).2 = true → ∀ a ∈ st.expected (.fresh l text era),
      (ParseInput.fresh l text era).lexer.Offers rest a → st.CanTake (.fresh l text era) a) :
    ∃ t st', st.taken (.fresh l text era) = some (.unit (.token t)) ∧
      st.step (.fresh l text era) = .more st' ∧ st'.units = st.units.push (.token t) ∧
      t.start = (st.reading (.fresh l text era)).position ∧ t.start < t.stop := by
  exact exists_taken (p := .fresh l text era) (compile_wellFormed hl) (compile_closed hl) rfl
    (scanner_of_compile hl) hrest hm hs hall

/-- Two letters of their own, or both as one token right behind the first. -/
def doubled : Grammar :=
  ({ name := "doubled" } : Grammar).define "doubled"
    (.seq [.literal "a", .oneOf [.immediate (.literal "bb"), .seq [.literal "b", .literal "b"]]])

/-- A grammar compiles, and behind the first unit or token of a text a test succeeds. -/
def stepsTo (g : Grammar) (text : List Char) (test : Language → ParseState → Bool) : Bool :=
  match Language.compile g none 0 with
  | .error _ => false
  | .ok l =>
    match (ParseState.initial (.fresh l text 0)).step (.fresh l text 0) with
    | .finished _ => false
    | .more st => test l st

theorem exists_of_stepsTo {text : List Char} {test : Language → ParseState → Bool}
    (h : stepsTo g text test = true) : ∃ l st, Language.compile g none 0 = .ok l ∧
      Visits (.fresh l text 0) st ∧ test l st = true := by
  rw [stepsTo] at h
  split at h
  · cases h
  · next l hl =>
      split at h
      · cases h
      · next st hs => exact ⟨l, st, hl, Visits.initial.step hs, h⟩

theorem takes_offered_doubled : ∃ l st t st', Language.compile doubled none 0 = .ok l ∧
    Visits (.fresh l ['a', ' ', 'b', ' ', 'b'] 0) st ∧
    (st.opened (.fresh l ['a', ' ', 'b', ' ', 'b'] 0)).2 = true ∧
    st.taken (.fresh l ['a', ' ', 'b', ' ', 'b'] 0) = some (.unit (.token t)) ∧
    st.step (.fresh l ['a', ' ', 'b', ' ', 'b'] 0) = .more st' ∧
    st'.units = st.units.push (.token t) ∧ t.start = 2 := by
  obtain ⟨l, st, hl, hv, htest⟩ := exists_of_stepsTo
    (show stepsTo doubled ['a', ' ', 'b', ' ', 'b'] (fun l st =>
        let p : ParseInput := .fresh l ['a', ' ', 'b', ' ', 'b'] 0
        (st.reading p).position == 2 && (st.opened p).2 && l.tables.word.isNone &&
          (st.expected p).any (fun s => decide (p.lexer.Matches ['b', ' ', 'b'] s ∧ st.CanTake p s)) &&
          decide (∀ a ∈ st.expected p, p.lexer.Matches ['b', ' ', 'b'] a → st.CanTake p a)) = true
      by decide +kernel)
  simp only [Bool.and_eq_true, beq_iff_eq, List.any_eq_true, decide_eq_true_iff,
    Option.isNone_iff_eq_none] at htest
  obtain ⟨⟨⟨⟨hposition, hafter⟩, hword⟩, s, -, hm, hs⟩, hall⟩ := htest
  obtain ⟨t, st', htaken, hstep, hunits, hstart, -⟩ := takes_offered hl
    (show _ = some ['b', ' ', 'b'] by rw [hposition]; decide) hm hs (fun _ a ha hoffers => by
      cases hoffers with
      | matched hm => exact hall a ha hm
      | keyword _ hw => cases hword.symm.trans hw)
  exact ⟨l, st, t, st', hl, hv, hafter, htaken, hstep, hunits, hstart.trans hposition⟩

/-- The longer token is chosen behind the blank, where it may not stand, and ends up in an error. -/
theorem not_takes_doubled : ∃ l st s t, Language.compile doubled none 0 = .ok l ∧
    Visits (.fresh l ['a', ' ', 'b', 'b'] 0) st ∧
    suffix? ['a', ' ', 'b', 'b'] (st.reading (.fresh l ['a', ' ', 'b', 'b'] 0)).position =
      some ['b', 'b'] ∧
    (ParseInput.fresh l ['a', ' ', 'b', 'b'] 0).lexer.Matches ['b', 'b'] s ∧
    st.CanTake (.fresh l ['a', ' ', 'b', 'b'] 0) s ∧
    st.taken (.fresh l ['a', ' ', 'b', 'b'] 0) = some (.skip t) ∧
    (l.parse ['a', ' ', 'b', 'b'] none 0).root.hasError = true := by
  obtain ⟨l, st, hl, hv, htest⟩ := exists_of_stepsTo
    (show stepsTo doubled ['a', ' ', 'b', 'b'] (fun l st =>
        let p : ParseInput := .fresh l ['a', ' ', 'b', 'b'] 0
        (st.reading p).position == 2 &&
          (st.expected p).any (fun s => decide (p.lexer.Matches ['b', 'b'] s ∧ st.CanTake p s)) &&
          ((st.taken p).bind Event.skip?).isSome &&
          (l.parseFor 32 ['a', ' ', 'b', 'b'] none 0).any (·.root.hasError)) = true by decide +kernel)
  simp only [Bool.and_eq_true, beq_iff_eq, List.any_eq_true, decide_eq_true_iff] at htest
  obtain ⟨⟨⟨hposition, s, -, hm, hs⟩, hskip⟩, herror⟩ := htest
  obtain ⟨t, ht⟩ := Option.isSome_iff_exists.1 hskip
  obtain ⟨e, he, ht⟩ := Option.bind_eq_some_iff.1 ht
  obtain rfl : e = .skip t := by
    cases e with
    | skip t' => exact congrArg Event.skip (Option.some.inj ht)
    | extra | unit => cases ht
  exact ⟨l, st, s, t, hl, hv, by rw [hposition]; decide, hm, hs, he, Language.parse_of_any herror⟩

end Language

end EarleyTree

import EarleyTree.Proofs.Lexing.Scans
import EarleyTree.Proofs.Parsing.Advance

/-!
The state of the scanner along a parse. It follows the tokens that are taken, but is led astray by
those that are found and dropped: in search of the place where a subtree might be taken over, and where
an extra is found that is not expected.
-/
namespace EarleyTree

/-- The token of an event; a subtree that is taken over is none. -/
def Event.token? : Event → Option Token
  | extra t => some t
  | unit (.token t) => some t
  | unit (.reused _) => none
  | skip t => some t

/-- The same input with another scanner in place of that of its language. -/
def ParseInput.withScanner (p : ParseInput) (other : Scanner) : ParseInput :=
  { p with language := { p.language with scanner := some other } }

namespace ParseState

variable {p : ParseInput} {st st' : ParseState} {es : List Event}

/-- The scans in search of the place where a subtree might be taken over. -/
def probes (p : ParseInput) (st : ParseState) : List Scan :=
  if p.reusable.isEmpty then []
  else (p.lexer.skipScans st.saved st.position fun _ => false).map Scan.drop

def passScans (p : ParseInput) (st : ParseState) : List Scan :=
  p.lexer.skipScans (st.candidates p).2 st.position
    ((st.chart.close p.tables (st.suppressed p)).current.expectedTerminals p.tables).contains

def nextScans (p : ParseInput) (st : ParseState) (afterExtra : Bool) : List Scan :=
  let expected := (st.chart.current.expectedTerminals p.tables).contains
  p.lexer.tokenScans st.saved st.position (some expected) ++
    match p.lexer.token st.saved st.position (some expected) afterExtra with
    | (some _, _) => []
    | (none, saved) => p.lexer.tokenScans saved st.position none

/-- The scans of one step. -/
def scans (p : ParseInput) (st : ParseState) : List Scan :=
  st.probes p ++ (st.passScans p ++
    match (st.opened p).1.reuse? p (st.candidates p).1 with
    | some _ => []
    | none => (st.reading p).nextScans p (st.opened p).2)

/-- What a token is like that is found and dropped in a step. -/
structure Unwelcome (p : ParseInput) (st : ParseState) (token : Token) : Prop where
  extra : p.tables.isExtra token.symbol = true
  unexpected : p.reusable = [] →
    token.symbol ∉ (st.reading p).chart.current.expectedTerminals p.tables

theorem probes_logs (ha : p.tables.Apart) (st : ParseState) :
    p.lexer.Logs (st.Unwelcome p) st.saved (st.probes p) (st.candidates p).2 [] := by
  rw [probes, candidates]
  split
  · exact .nil st.saved
  · next hr =>
      have hskip := p.lexer.skipExtras_logs ha st.saved st.position fun _ => false
      refine hskip.drop (fun _ h => h.elim) fun token ht => ⟨?_, fun hn => absurd hn ?_⟩
      · obtain ⟨t, hm, rfl⟩ := List.mem_map.1 ht
        exact (Lexer.skipFrom_isExtra _ _ _ _ _ t (List.mem_filter.1 hm).1).extra
      · rwa [List.isEmpty_iff] at hr

theorem pushExtras_saved (extras : List Token) (st : ParseState) :
    (extras.foldl (pushExtra p) st).saved = st.saved := by
  induction extras generalizing st with
  | nil => rfl
  | cons t extras ih => exact ih (st.pushExtra p t)

theorem flushSkipped_saved (st : ParseState) : (st.flushSkipped p).saved = st.saved := by
  rw [flushSkipped]
  split <;> rfl

theorem reading_saved (st : ParseState) : (st.reading p).saved = (st.opened p).1.saved := by
  rw [reading]
  split <;> rfl

theorem pass_logs (ha : p.tables.Apart) {drops : Token → Prop} (st : ParseState) :
    p.lexer.Logs drops (st.candidates p).2 (st.passScans p) (st.opened p).1.saved (st.passed p) := by
  have hsaved : (st.opened p).1.saved = (p.lexer.skipExtras (st.candidates p).2 st.position
      ((st.chart.close p.tables (st.suppressed p)).current.expectedTerminals p.tables).contains).2 :=
    pushExtras_saved _ _
  rw [hsaved]
  exact (p.lexer.skipExtras_logs ha _ _ _).mono fun _ h => h.elim

theorem next_logs (ha : p.tables.Apart) (st : ParseState) (afterExtra : Bool) :
    p.lexer.Logs (fun token => p.tables.isExtra token.symbol = true ∧
        token.symbol ∉ st.chart.current.expectedTerminals p.tables) st.saved
      (st.nextScans p afterExtra) (st.nextToken p afterExtra).2
      (st.nextToken p afterExtra).1.toList := by
  have hfirst := p.lexer.token_logs ha st.saved st.position
    (some (st.chart.current.expectedTerminals p.tables).contains) afterExtra
  have hfirst := hfirst.mono fun token h =>
    (⟨h.1, fun hm => Bool.false_ne_true (h.2.symm.trans (List.contains_iff_mem.2 hm))⟩ :
      p.tables.isExtra token.symbol = true ∧
        token.symbol ∉ st.chart.current.expectedTerminals p.tables)
  rw [nextScans, nextToken]
  dsimp only
  rcases hx : p.lexer.token st.saved st.position
    (some (st.chart.current.expectedTerminals p.tables).contains) afterExtra with
    ⟨- | token, saved⟩
  · rw [hx] at hfirst
    have hsecond := p.lexer.token_logs ha saved st.position none afterExtra
    refine hfirst.append ((hsecond.mono fun _ h => Bool.noConfusion h.2).congr ?_)
    exact Lexer.scanned_or_errorToken ha _ _ _
  · rw [hx] at hfirst
    exact hfirst.append (.nil saved)

/-- What is read behind the extras in a step, if no subtree is taken over. -/
theorem events_tokens (st : ParseState) : (st.events p).filterMap Event.token? =
    st.passed p ++ match (st.opened p).1.reuse? p (st.candidates p).1 with
      | some _ => []
      | none => ((st.reading p).nextToken p (st.opened p).2).1.toList := by
  have htaken : (st.taken p).toList.filterMap Event.token? =
      match (st.opened p).1.reuse? p (st.candidates p).1 with
      | some _ => []
      | none => ((st.reading p).nextToken p (st.opened p).2).1.toList := by
    rw [taken]
    rcases (st.opened p).1.reuse? p (st.candidates p).1 with - | ⟨t, c⟩
    · dsimp only
      rcases ((st.reading p).nextToken p (st.opened p).2).1 with - | token
      · rfl
      · rw [Option.map_some]
        split <;> rfl
    · rfl
  rw [events, List.filterMap_append, List.filterMap_map, htaken]
  congr 1
  exact List.filterMap_some

def Progress.state : Progress → ParseState
  | more st | finished st => st

theorem step_saved (st : ParseState) : (st.step p).state.saved =
    match (st.opened p).1.reuse? p (st.candidates p).1 with
    | some _ => (st.opened p).1.saved
    | none => ((st.reading p).nextToken p (st.opened p).2).2 := by
  rw [step_eq]
  rcases (st.opened p).1.reuse? p (st.candidates p).1 with - | ⟨t, c⟩
  · dsimp only
    split
    · rw [shift]
      split
      · exact flushSkipped_saved _
      · rfl
    · exact flushSkipped_saved _
  · exact flushSkipped_saved _

/-- What one step does with the scanner. -/
theorem step_logs (ha : p.tables.Apart) (st : ParseState) :
    p.lexer.Logs (st.Unwelcome p) st.saved (st.scans p) (st.step p).state.saved
      ((st.events p).filterMap Event.token?) := by
  rw [scans, events_tokens, step_saved]
  refine (probes_logs ha st).append ((pass_logs ha st).append ?_)
  split
  · exact .nil _
  · rw [← reading_saved]
    exact (next_logs ha (st.reading p) (st.opened p).2).mono fun token h => ⟨h.1, fun _ => h.2⟩

/-- The states of the first `n` steps. -/
def states (p : ParseInput) : Nat → ParseState → List ParseState
  | 0, _ => []
  | n + 1, st =>
    st :: match st.step p with
      | .more st => states p n st
      | .finished _ => []

theorem states_logs (ha : p.tables.Apart) (n : Nat) (st : ParseState) :
    ∃ s', p.lexer.Logs (fun token => p.tables.isExtra token.symbol = true) st.saved
      ((states p n st).flatMap (scans p)) s'
      (((states p n st).flatMap (events p)).filterMap Event.token?) := by
  induction n generalizing st with
  | zero => exact ⟨st.saved, .nil st.saved⟩
  | succ n ih =>
      have hstep := (step_logs ha st).mono fun token h => h.extra
      rw [states, List.flatMap_cons, List.flatMap_cons, List.filterMap_append]
      cases hs : st.step p with
      | more st' =>
          rw [hs] at hstep
          obtain ⟨s', hrest⟩ := ih st'
          exact ⟨s', hstep.append hrest⟩
      | finished st' =>
          rw [hs] at hstep
          exact ⟨st'.saved, hstep.append (.nil st'.saved)⟩

theorem Traces.endsWith_states (h : Traces p st es) {n : Nat} (hr : st.runFor p n = some st') :
    EndsWith p st' (es ++ (states p n st).flatMap (events p)) := by
  induction n generalizing st es with
  | zero => cases hr
  | succ n ih =>
      rw [runFor] at hr
      rw [states, List.flatMap_cons, ← List.append_assoc]
      cases hs : st.step p with
      | more st₁ =>
          rw [hs] at hr
          exact ih (h.more hs) hr
      | finished st₁ =>
          rw [hs] at hr
          obtain rfl := Option.some.inj hr
          exact ⟨st, es, h, hs, by simp⟩

section

variable {other : Scanner}

@[simp] theorem reusable_withScanner : (p.withScanner other).reusable = p.reusable := rfl

@[simp] theorem tables_withScanner : (p.withScanner other).tables = p.tables := rfl

@[simp] theorem lexer_withScanner : (p.withScanner other).lexer = p.lexer.withScanner other := rfl

theorem candidates_withScanner (hs : p.language.scanner.isSome)
    (h : p.lexer.Concurs other (st.probes p)) :
    st.candidates (p.withScanner other) = st.candidates p := by
  rw [probes] at h
  rw [candidates, candidates, reusable_withScanner, lexer_withScanner]
  by_cases hr : p.reusable.isEmpty = true
  · rw [if_pos hr, if_pos hr]
  · rw [if_neg hr, Lexer.concurs_drop] at h
    rw [if_neg hr, if_neg hr, Lexer.skipExtras_withScanner hs h]

theorem opened_withScanner (hs : p.language.scanner.isSome)
    (hprobes : p.lexer.Concurs other (st.probes p))
    (hpass : p.lexer.Concurs other (st.passScans p)) :
    st.opened (p.withScanner other) = st.opened p := by
  have hskip := Lexer.skipExtras_withScanner hs hpass
  rw [opened, opened, suppressed, candidates_withScanner hs hprobes]
  dsimp only [passExtras, tables_withScanner, lexer_withScanner]
  rw [show (List.map _ _ : List Symbol) = st.suppressed p from rfl, hskip]
  rfl

theorem nextToken_withScanner (hs : p.language.scanner.isSome) {afterExtra : Bool}
    (h : p.lexer.Concurs other (st.nextScans p afterExtra)) :
    st.nextToken (p.withScanner other) afterExtra = st.nextToken p afterExtra := by
  rw [nextScans] at h
  rw [Lexer.concurs_append] at h
  rw [nextToken, nextToken, tables_withScanner, lexer_withScanner, Lexer.token_withScanner hs h.1]
  rcases hx : p.lexer.token st.saved st.position
    (some (st.chart.current.expectedTerminals p.tables).contains) afterExtra with
    ⟨- | token, saved⟩
  · rw [hx] at h
    dsimp only
    rw [Lexer.token_withScanner hs h.2]
    rfl
  · rfl

theorem step_withScanner (hs : p.language.scanner.isSome)
    (h : p.lexer.Concurs other (st.scans p)) : st.step (p.withScanner other) = st.step p := by
  rw [scans, Lexer.concurs_append, Lexer.concurs_append] at h
  obtain ⟨hprobes, hpass, hnext⟩ := h
  have hopened := opened_withScanner hs hprobes hpass
  have hcandidates := candidates_withScanner hs hprobes
  have hreading : st.reading (p.withScanner other) = st.reading p := by
    rw [reading, reading, suppressed, hcandidates, hopened]
    rfl
  have hreuse : (st.opened p).1.reuse? (p.withScanner other) (st.candidates p).1 =
      (st.opened p).1.reuse? p (st.candidates p).1 := rfl
  rw [step_eq, step_eq, hopened, hreading, hcandidates, hreuse]
  rcases hr : (st.opened p).1.reuse? p (st.candidates p).1 with - | ⟨t, c⟩
  · rw [hr] at hnext
    dsimp only
    rw [nextToken_withScanner hs hnext]
    rfl
  · rfl

/-- The scans are all that a run depends on: with another scanner that answers them alike it is the
same. -/
theorem runFor_withScanner (hs : p.language.scanner.isSome) {n : Nat}
    (h : p.lexer.Concurs other ((states p n st).flatMap (scans p))) :
    st.runFor (p.withScanner other) n = st.runFor p n := by
  induction n generalizing st with
  | zero => rfl
  | succ n ih =>
      rw [states, List.flatMap_cons, Lexer.concurs_append] at h
      rw [runFor, runFor, step_withScanner hs h.1]
      cases hstep : st.step p with
      | more st' =>
          rw [hstep] at h
          exact ih h.2
      | finished st' => rfl

end

end ParseState

namespace ParseInput

open ParseState

/-- The scans of the first `n` steps. -/
def scans (p : ParseInput) (n : Nat) : List Scan :=
  (states p n (.initial p)).flatMap (ParseState.scans p)

/-- The events of the first `n` steps. -/
def events (p : ParseInput) (n : Nat) : List Event :=
  (states p n (.initial p)).flatMap (ParseState.events p)

/-- What a parse has to do with the scans of its first `n` steps. -/
structure Scanned (p : ParseInput) (n : Nat) : Prop where
  /-- Each scan is given what the one before it left, and the tokens taken are those of the events. -/
  logs : ∃ s', p.lexer.Logs (fun token => p.tables.isExtra token.symbol = true) [] (p.scans n) s'
    ((p.events n).filterMap Event.token?)
  dropped : ∀ st ∈ states p n (.initial p), ∀ e ∈ st.scans p, ∀ r ∈ e.dropped?, st.Unwelcome p r.1
  ends : ∀ st, (initial p).runFor p n = some st → EndsWith p st (p.events n)
  /-- The scans are all that the parse depends on. -/
  complete : p.language.scanner.isSome → ∀ other, p.lexer.Concurs other (p.scans n) →
    (initial (p.withScanner other)).runFor (p.withScanner other) n = (initial p).runFor p n
  follows_iff : Scan.Follows [] (p.scans n) ↔
    ∀ e ∈ (p.scans n).dropLast, ∀ r ∈ e.dropped?, r.2 = e.given
  follows_of_keeps : p.lexer.Keeps → Scan.Follows [] (p.scans n)

theorem scanned {p : ParseInput} (ha : p.tables.Apart) (n : Nat) : p.Scanned n := by
  obtain ⟨s', hlogs⟩ := states_logs ha n (.initial p)
  refine ⟨⟨s', hlogs⟩, fun st _ => (step_logs ha st).dropped, fun st hr => ?_,
    fun hs other h => runFor_withScanner hs h, hlogs.threads.follows_iff,
    hlogs.follows_of_keeps fun _ => id⟩
  exact Traces.initial.endsWith_states hr

end ParseInput

namespace Language

def listedScans (l : Language) (text : List Char) : List Scan :=
  (l.lexer text).listedScans (Text.byteLength text + 1) [] 0

/-- What splitting a text into tokens has to do with the scans for them. -/
structure Lists (l : Language) (text : List Char) : Prop where
  tokenize : tokenize l text = (l.listed text).map fun (token, isExtra) =>
    .ofToken (.ofText text) isExtra (if isExtra then token else { token with wrapper := none })
  logs : ∃ s', (l.lexer text).Logs (fun _ => False) [] (l.listedScans text) s'
    ((l.listed text).map Prod.fst)
  complete : l.scanner.isSome → ∀ other, (l.lexer text).Concurs other (l.listedScans text) →
    EarleyTree.tokenize { l with scanner := some other } text = EarleyTree.tokenize l text
  follows : Scan.Follows [] (l.listedScans text)

theorem lists {l : Language} (ha : l.tables.Apart) (text : List Char) : l.Lists text := by
  obtain ⟨s', hlogs⟩ := (l.lexer text).listed_logs ha (Text.byteLength text + 1) [] 0
  refine ⟨(l.lexer text).tokenizeFrom_eq _ _ _ _, ⟨s', hlogs⟩, fun hs other h => ?_,
    hlogs.threads.follows_iff.2 fun e he r hr => ?_⟩
  · rw [EarleyTree.tokenize, EarleyTree.tokenize, Lexer.tokenizeFrom_eq, Lexer.tokenizeFrom_eq]
    exact congrArg _ (Lexer.listed_withScanner hs h)
  · exact (hlogs.dropped e (List.mem_of_mem_dropLast he) r hr).elim

/-- Whatever the scanner, its state follows the tokens of a text that is split into tokens; along a
parse, with an old tree or without, it does so exactly where each token that is dropped before another
scan had left the state as it was, and so always if the scanner keeps its state at extras. -/
theorem scans_follow {g : Grammar} {scanner : Option Scanner} {handle : Nat} {l : Language}
    (hl : Language.compile g scanner handle = .ok l) :
    (∀ text, l.Lists text) ∧
      ∀ text reusable era n, (ParseInput.mk l text reusable era).Scanned n := by
  have ha : l.tables.Apart := Grammar.apart_of_tables (Language.tables_of_compile hl)
  exact ⟨lists ha, fun text reusable era n =>
    ParseInput.scanned (p := ⟨l, text, reusable, era⟩) ha n⟩

/-- A letter in a node of its own, and one behind it; there may be a mark between them. -/
def markedRow : Grammar :=
  { (({ name := "row" } : Grammar).define "row" (.seq [.ref "letter", .literal "b"])).define "letter"
      (.seq [.literal "a"]) with
    extras := some [.ref "mark"]
    externals := some [.ref "mark"] }

/-- Finds one mark in a text, and no more. -/
def markOnce : Scanner where
  scan saved cursor _ :=
    if saved = [] ∧ cursor.lookahead = some '#' then some (cursor.advance false, [1]) else none

theorem scans_follow_markedRow : ∃ l, Language.compile markedRow (some markOnce) 0 = .ok l ∧
    l.Lists ['a', '#', 'b'] ∧ (l.listed ['a', '#', 'b']).length = 3 ∧
    (ParseInput.fresh l ['a', '#', 'b'] 0).Scanned 9 ∧
    ((ParseInput.fresh l ['a', '#', 'b'] 0).scans 9).getLast?.map (·.given) = some [1] ∧
    Scan.Follows [] ((ParseInput.fresh l ['a', '#', 'b'] 0).scans 9) := by
  have htest : (Language.compile markedRow (some markOnce) 0).toOption.any (fun l =>
      let log := (ParseInput.fresh l ['a', '#', 'b'] 0).scans 9
      (l.listed ['a', '#', 'b']).length == 3 &&
        (log.getLast?.map (·.given) == some [1] &&
          decide (∀ e ∈ log.dropLast, ∀ r ∈ e.dropped?, r.2 = e.given))) = true := by
    decide +kernel
  obtain ⟨l, hl, htest⟩ := exists_of_compile_any htest
  simp only [Bool.and_eq_true, beq_iff_eq, decide_eq_true_iff] at htest
  obtain ⟨hlength, hlast, hdropped⟩ := htest
  obtain ⟨hlists, hscanned⟩ := scans_follow hl
  have hscanned := hscanned ['a', '#', 'b'] [] 0 9
  exact ⟨l, hl, hlists _, hlength, hscanned, hlast, hscanned.follows_iff.2 hdropped⟩

/-- A mark that is only come upon in search of a subtree to take over is lost, since the scanner is
then given what it saved with that mark, and the same text gets an error that it does not get when it
is parsed afresh. -/
theorem not_follows_markedRow : ∃ l e, Language.compile markedRow (some markOnce) 0 = .ok l ∧
    Text.Edit.replace? ['a', '#', 'b'] 2 3 ['b'] = some e ∧
    ¬Scan.Follows [] ((l.reparse ['a', '#', 'b'] e ['a', '#', 'b']).scans 9) ∧
    (l.parse ['a', '#', 'b'] none 2).root.hasError = false ∧
    (l.parse ['a', '#', 'b']
      (some ((l.parse ['a', '#', 'b'] none 0).edit e 1)) 2).root.hasError = true := by
  obtain ⟨l, e, hl, he, htest⟩ := exists_of_editedWith
    (show editedWith markedRow (some markOnce) ['a', '#', 'b'] 2 3 ['b'] ['a', '#', 'b']
        (fun l e first new =>
          let p := ParseInput.withOld l ['a', '#', 'b'] (first.edit e 1) 2
          decide (¬Scan.Follows [] (p.scans 9)) &&
            ((l.parseFor 32 ['a', '#', 'b'] none 2).any (fun t => t.root.hasError == false) &&
              new.root.hasError == true)) = true by decide +kernel)
  simp only [Bool.and_eq_true, beq_iff_eq, decide_eq_true_iff] at htest
  exact ⟨l, e, hl, he, htest.1, beq_iff_eq.1 (parse_of_any htest.2.1), htest.2.2⟩

end Language

end EarleyTree

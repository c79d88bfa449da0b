import EarleyTree.Parsing.Parser
import EarleyTree.Proofs.Lexing.Scanning
import EarleyTree.Proofs.Parsing.Exactness

/-!
What one step of a parse does to the chart and to the units, and what holds all along.
-/
namespace EarleyTree

/-- The input of a parse without an old tree. -/
abbrev ParseInput.fresh (l : Language) (text : List Char) (era : Nat) : ParseInput :=
  ⟨l, text, [], era⟩

namespace ParseState

variable {p : ParseInput} {st st' : ParseState}

theorem pushExtras_frame (extras : List Token) (st : ParseState) :
    (extras.foldl (pushExtra p) st).chart = st.chart ∧
      (extras.foldl (pushExtra p) st).units = st.units := by
  induction extras generalizing st with
  | nil => exact ⟨rfl, rfl⟩
  | cons t extras ih => exact ih (st.pushExtra p t)

theorem passExtras_frame (expected : List Symbol) (st : ParseState) :
    (st.passExtras p expected).1.chart = st.chart ∧
      (st.passExtras p expected).1.units = st.units := by
  rw [passExtras]
  exact pushExtras_frame _ _

theorem flushSkipped_frame (st : ParseState) :
    (st.flushSkipped p).chart = st.chart ∧ (st.flushSkipped p).units = st.units := by
  rw [flushSkipped]
  split
  · exact ⟨rfl, rfl⟩
  · exact ⟨rfl, rfl⟩

/-- The next token is one that is found in the text, or a single character. -/
theorem nextToken_eq_some {afterExtra : Bool} {token : Token}
    (h : (st.nextToken p afterExtra).1 = some token) : token.afterExtra = afterExtra ∧
      ((st.position < Text.byteLength p.text ∧ ∃ saved, p.lexer.Finds saved st.position token) ∨
        p.lexer.errorToken st.position afterExtra = some token) := by
  rw [nextToken] at h
  dsimp only at h
  split at h
  · next he =>
      cases h
      obtain ⟨hlt, hafter, hfound⟩ := Lexer.token_eq_some he
      exact ⟨hafter, .inl ⟨hlt, _, hfound⟩⟩
  · obtain h | ⟨-, h⟩ := Option.or_eq_some_iff.1 h
    · obtain ⟨hlt, hafter, hfound⟩ := Lexer.token_eq_some h
      exact ⟨hafter, .inl ⟨hlt, _, hfound⟩⟩
    · exact ⟨(Lexer.errorToken_eq_some h).2.2, .inr h⟩

theorem nextToken_symbol (ht : p.tables.WellFormed) {afterExtra : Bool} {token : Token}
    (h : (st.nextToken p afterExtra).1 = some token) :
    p.tables.isTerminal token.symbol ∨ token.symbol = errorSymbol := by
  obtain ⟨-, ⟨-, _, hfound⟩ | herror⟩ := nextToken_eq_some h
  · exact .inl (hfound.isTerminal ht)
  · exact .inr (Lexer.errorToken_eq_some herror).1

theorem reuse?_eq_some {candidates : List Subtree} {t : Subtree} {c : Chart}
    (h : st.reuse? p candidates = some (t, c)) :
    t ∈ candidates ∧ p.tables.isNonterminal t.symbol ∧
      st.chart.scan? p.tables t.symbol false = some c := by
  unfold reuse? at h
  dsimp only at h
  obtain ⟨r, hr, h⟩ := Option.bind_eq_some_iff.1 h
  obtain ⟨d, hd, h⟩ := Option.map_eq_some_iff.1 h
  cases h
  have hw := List.find?_some hr
  rw [Bool.and_eq_true, List.contains_iff_mem] at hw
  exact ⟨List.mem_of_find?_eq_some hr, (List.mem_filter.1 hw.2).2, hd⟩

/-- The symbols that are not predicted before it is known whether a subtree is taken over. -/
def suppressed (p : ParseInput) (st : ParseState) : List Symbol :=
  (st.candidates p).1.map fun t => t.symbol

/-- The state behind the extras, and whether there were any. -/
def opened (p : ParseInput) (st : ParseState) : ParseState × Bool :=
  let st' := { st with
    saved := (st.candidates p).2
    chart := st.chart.close p.tables (st.suppressed p) }
  st'.passExtras p (st'.chart.current.expectedTerminals p.tables)

/-- The state in which a token is read. -/
def reading (p : ParseInput) (st : ParseState) : ParseState :=
  if (st.suppressed p).isEmpty then (st.opened p).1
  else { (st.opened p).1 with chart := (st.opened p).1.chart.close p.tables [] }

theorem step_eq (st : ParseState) : st.step p =
    match (st.opened p).1.reuse? p (st.candidates p).1 with
    | some (t, c) => .more ((st.opened p).1.push p c (.reused t))
    | none =>
      let next := (st.reading p).nextToken p (st.opened p).2
      let st' := { st.reading p with saved := next.2 }
      match next.1 with
      | some token => .more (st'.shift p token)
      | none => .finished (st'.flushSkipped p) :=
  rfl

theorem opened_frame (st : ParseState) :
    (st.opened p).1.chart = st.chart.close p.tables (st.suppressed p) ∧
      (st.opened p).1.units = st.units :=
  passExtras_frame _ _

theorem reading_units (st : ParseState) : (st.reading p).units = st.units := by
  rw [reading]
  split
  · exact (opened_frame st).2
  · exact (opened_frame st).2

theorem push_frame (st : ParseState) (c : Chart) (u : InputUnit) :
    (st.push p c u).chart = c ∧ (st.push p c u).units = st.units.push u :=
  ⟨rfl, congrArg (·.push u) (flushSkipped_frame st).2⟩

inductive Moves (p : ParseInput) (st : ParseState) : Progress → Prop
  | reused {t : Subtree} {st' : ParseState} (ht : t ∈ (st.candidates p).1)
      (hn : p.tables.isNonterminal t.symbol)
      (hs : (st.opened p).1.chart.scan? p.tables t.symbol false = some st'.chart)
      (hu : st'.units = st.units.push (.reused t)) : Moves p st (.more st')
  | shifted {t : Token} {st' : ParseState} (ht : p.tables.isTerminal t.symbol)
      (hs : (st.reading p).chart.scan? p.tables t.symbol t.afterExtra = some st'.chart)
      (hu : st'.units = st.units.push (.token t)) : Moves p st (.more st')
  | skipped {st' : ParseState} (hc : st'.chart = (st.reading p).chart) (hu : st'.units = st.units) :
      Moves p st (.more st')
  | finished {st' : ParseState} (hc : st'.chart = (st.reading p).chart) (hu : st'.units = st.units) :
      Moves p st (.finished st')

theorem step_moves (ht : p.tables.WellFormed) (st : ParseState) : Moves p st (st.step p) := by
  rw [step_eq]
  split
  · next t c hr =>
      obtain ⟨hm, hn, hs⟩ := reuse?_eq_some hr
      refine .reused hm hn hs ?_
      rw [(push_frame _ c _).2, (opened_frame st).2]
  · dsimp only
    split
    · next token hx =>
        rw [shift]
        split
        · next c hc =>
            split at hc
            · cases hc
            · next he =>
                refine .shifted ((nextToken_symbol ht hx).resolve_right he) hc ?_
                rw [(push_frame _ c _).2, reading_units]
        · exact .skipped rfl (reading_units st)
    · exact .finished (flushSkipped_frame _).1 ((flushSkipped_frame _).2.trans (reading_units st))

inductive Visits (p : ParseInput) : ParseState → Prop
  | initial : Visits p (.initial p)
  | step {st st' : ParseState} (h : Visits p st) (hs : st.step p = .more st') : Visits p st'

def Ends (p : ParseInput) (st : ParseState) : Prop := ∃ st₁, Visits p st₁ ∧ st₁.step p = .finished st

theorem Visits.final?_eq (h : Visits p st) : p.final? = st.run p := by
  induction h with
  | initial => rfl
  | step _ hs ih => rw [ih, run, hs]

/-- The loop comes to its end just where a visited state is the last one. -/
theorem final?_eq_some : p.final? = some st ↔ Ends p st := by
  refine ⟨fun h => ?_, fun ⟨st₁, hv, hs⟩ => ?_⟩
  · refine run.partial_correctness p (fun st₁ st => Visits p st₁ → Ends p st) ?_ _ st h .initial
    intro run ih st₁ st hrun hv
    cases hs : st₁.step p with
    | more st₂ =>
        rw [hs] at hrun
        exact ih st₂ st hrun (hv.step hs)
    | finished st₂ =>
        rw [hs] at hrun
        obtain rfl := Option.some.inj hrun
        exact ⟨st₁, hv, hs⟩
  · rw [hv.final?_eq, run, hs]

theorem Ends.unique (h : Ends p st) (h' : Ends p st') : st = st' :=
  Option.some.inj ((final?_eq_some.2 h).symm.trans (final?_eq_some.2 h'))

/-- The end of the text, if it is come to in so many steps. -/
def runFor (p : ParseInput) : Nat → ParseState → Option ParseState
  | 0, _ => none
  | n + 1, st =>
    match st.step p with
    | .more st => runFor p n st
    | .finished st => some st

theorem Visits.ends_of_runFor {n : Nat} (h : Visits p st) (hr : st.runFor p n = some st') :
    Ends p st' := by
  induction n generalizing st with
  | zero => cases hr
  | succ n ih =>
      rw [runFor] at hr
      cases hs : st.step p with
      | more st₁ =>
          rw [hs] at hr
          exact ih (h.step hs) hr
      | finished st₁ =>
          rw [hs] at hr
          obtain rfl := Option.some.inj hr
          exact ⟨st, h, hs⟩

theorem ends_of_runFor {n : Nat} (h : (initial p).runFor p n = some st) : Ends p st :=
  Visits.initial.ends_of_runFor h

/-- A parse without an old tree gives what is made of the state at its end. -/
theorem Ends.parse_none {l : Language} {text : List Char} {era : Nat}
    (h : Ends (.fresh l text era) st) (order : KeyOrder) :
    l.parse text none era order = ⟨l, st.tree (.fresh l text era) order⟩ := by
  have htree : l.parse text none era order = ⟨l, (ParseInput.fresh l text era).tree order⟩ := rfl
  rw [htree, ParseInput.tree, final?_eq_some.2 h, Option.getD_some]

theorem Ends.root_parse_none {l : Language} {text : List Char} {era : Nat}
    (h : Ends (.fresh l text era) st) (order : KeyOrder) :
    (l.parse text none era order).root = st.tree (.fresh l text era) order :=
  congrArg Tree.root (h.parse_none order)

/-- Tokens are terminals, and what was taken over is on offer and nonterminal. -/
def UnitKinds (p : ParseInput) (us : Array InputUnit) : Prop :=
  ∀ u ∈ us, match u with
    | .token t => p.tables.isTerminal t.symbol
    | .reused t => p.tables.isNonterminal t.symbol ∧ t ∈ p.reusable

theorem candidates_subset (st : ParseState) : ∀ t ∈ (st.candidates p).1, t ∈ p.reusable := by
  rw [candidates]
  split
  · exact fun t ht => absurd ht List.not_mem_nil
  · exact fun t ht => (List.mem_filter.1 ht).1

theorem UnitKinds.push {us : Array InputUnit} {u : InputUnit} (h : UnitKinds p us)
    (hu : UnitKinds p #[u]) : UnitKinds p (us.push u) := by
  intro v hv
  obtain hv | rfl := Array.mem_push.1 hv
  · exact h v hv
  · exact hu v (Array.mem_singleton.2 rfl)

theorem reading_sound (ht : p.tables.WellFormed) (h : st.chart.Sound p.tables st.units) :
    (st.reading p).chart.Sound p.tables st.units := by
  have ho : (st.opened p).1.chart.Sound p.tables st.units := by
    rw [(opened_frame st).1]
    exact h.close ht _
  rw [reading]
  split
  · exact ho
  · exact ho.close ht []

structure Consistent (p : ParseInput) (st : ParseState) : Prop where
  sound : st.chart.Sound p.tables st.units
  kinds : UnitKinds p st.units

theorem Moves.consistent_more (ht : p.tables.WellFormed) (h : st.Consistent p)
    (hm : Moves p st (.more st')) : st'.Consistent p := by
  cases hm with
  | @reused t _ hc hn hs hu =>
      have ho : (st.opened p).1.chart.Sound p.tables st.units := by
        rw [(opened_frame st).1]
        exact h.sound.close ht _
      refine ⟨hu ▸ ho.scan (u := .reused t) hs, hu ▸ h.kinds.push fun v hv => ?_⟩
      obtain rfl := Array.mem_singleton.1 hv
      exact ⟨hn, candidates_subset st t hc⟩
  | @shifted t _ hk hs hu =>
      have hr := reading_sound ht h.sound
      refine ⟨hu ▸ hr.scan (u := .token t) hs, hu ▸ h.kinds.push fun v hv => ?_⟩
      obtain rfl := Array.mem_singleton.1 hv
      exact hk
  | skipped hc hu => exact ⟨by rw [hc, hu]; exact reading_sound ht h.sound, hu ▸ h.kinds⟩

theorem Moves.consistent_finished (ht : p.tables.WellFormed) (h : st.Consistent p)
    (hm : Moves p st (.finished st')) : st'.Consistent p := by
  cases hm with
  | finished hc hu => exact ⟨by rw [hc, hu]; exact reading_sound ht h.sound, hu ▸ h.kinds⟩

theorem Visits.consistent (ht : p.tables.WellFormed) (h : Visits p st) : st.Consistent p := by
  induction h with
  | initial => exact ⟨.initial ht, fun u hu => absurd hu (Array.not_mem_empty u)⟩
  | step _ hs ih => exact (hs ▸ step_moves ht _ : Moves p _ (.more _)).consistent_more ht ih

theorem Ends.consistent (ht : p.tables.WellFormed) (h : Ends p st) : st.Consistent p := by
  obtain ⟨st₁, hv, hs⟩ := h
  exact (hs ▸ step_moves ht st₁ : Moves p _ (.finished _)).consistent_finished ht (hv.consistent ht)

end ParseState

end EarleyTree

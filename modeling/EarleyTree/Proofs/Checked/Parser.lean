import EarleyTree.Proofs.Checked.Chart
import EarleyTree.Proofs.Checked.Fragments
import EarleyTree.Proofs.Checked.Lexer
import EarleyTree.Proofs.Parsing.AcceptedTree
import EarleyTree.Proofs.Parsing.Progress

/-!
A parse with checked lookups: whatever the text, it meets no fault and gives the same tree. At the
beginning of each step the chart has one set more than there are units, and the position lies between
two characters.
-/
namespace EarleyTree

open Text

/-- The chart whose sets are the given ones; the last one is the current. -/
def Chart.ofSets (sets : Array ItemSet) : Chart := ⟨sets.pop, sets.back?.getD {}⟩

namespace Checked

section

variable (p : ParseInput)

def initial : Except Fault ParseState := do
  let sets ← initialSets p.tables
  return { ParseState.initial p with chart := .ofSets sets }

/-- A set that was put behind the last one for a token that does not fit is taken away again. -/
def shift (st : ParseState) (token : Token) : Except Fault ParseState :=
  let k := st.units.size
  if token.symbol = errorSymbol then
    return { st with chart := .ofSets (discardAfter st.chart.sets k) }.skip token
  else do
    let (advanced, sets) ← scan p.tables st.chart.sets k token.symbol token.afterExtra
    if advanced then return st.push p (.ofSets sets) (.token token)
    else return { st with chart := .ofSets (discardAfter sets k) }.skip token

def passExtras (st : ParseState) : Except Fault (ParseState × Bool) := do
  let expected ← expectedTerminals p.tables st.chart.sets st.units.size
  let (leading, saved) ← skipExtras p.lexer st.saved st.position expected.contains
  let st := leading.extras.foldl (.pushExtra p) { st with saved := saved }
  return ({ st with position := leading.offset }, leading.afterExtra)

def read (st : ParseState) (afterExtra : Bool) : Except Fault ParseState.Progress := do
  let expected ← expectedTerminals p.tables st.chart.sets st.units.size
  let (token, saved) ← nextToken p.lexer st.saved st.position expected afterExtra
  let st := { st with saved := saved }
  match token with
  | some token => return .more (← shift p st token)
  | none => return .finished (st.flushSkipped p)

/-- A step without subtrees to take over; what they would have to be is looked up all the same. -/
def step (st : ParseState) : Except Fault ParseState.Progress := do
  let sets ← close p.tables st.chart.sets st.units.size
  let (st, afterExtra) ← passExtras p { st with chart := .ofSets sets }
  let _ ← expectedNonterminals p.tables st.chart.sets st.units.size
  read p st afterExtra

end

end Checked

/-- Goes on to the end of the text, or to a fault; without either there is no result. -/
def ParseState.runChecked (p : ParseInput) (st : ParseState) :
    Option (Except Checked.Fault ParseState) :=
  match Checked.step p st with
  | .error fault => some (.error fault)
  | .ok (.more st) => st |>.runChecked p
  | .ok (.finished st) => some (.ok st)
partial_fixpoint

namespace Checked

section

variable (p : ParseInput)

/-- What is made of the chart and the units at the end of the text. -/
def treeOf (order : KeyOrder) (st : ParseState) : Except Fault Subtree := do
  let x := st.derivation p
  let (root, memory) ←
    if ← accepts p.tables st.chart.sets st.units.size then (acceptedRoot x).run {}
    else pure (none, {})
  match root with
  | some root => return st.finish p root
  | none =>
    let (root, _) ← (errorRoot x order).run memory
    return st.finish p root

def tree (order : KeyOrder) : Option (Except Fault Subtree) :=
  match initial p with
  | .error fault => some (.error fault)
  | .ok st => (st.runChecked p).map fun last => last.bind (treeOf p order)

end

def parse (l : Language) (text : List Char) (era : Nat) (order : KeyOrder) :
    Option (Except Fault Tree) :=
  (tree (.fresh l text era) order).map fun root => root.map (⟨l, ·⟩)

end Checked

@[simp] theorem Chart.ofSets_push (earlier : Array ItemSet) (set : ItemSet) :
    ofSets (earlier.push set) = ⟨earlier, set⟩ := by simp [ofSets]

@[simp] theorem Chart.ofSets_sets (c : Chart) : ofSets c.sets = c := ofSets_push c.earlier c.current

namespace ParseState

variable {p : ParseInput} {st st' : ParseState}

section

variable (hf : p.lexer.Proper) (hpos : isBoundary p.text st.position = true)

include hf hpos

theorem opened_isBoundary : isBoundary p.text (st.opened p).1.position = true := by
  rw [opened, passExtras]
  exact Lexer.skipFrom_isBoundary hf _ _ _ _ _ hpos

theorem step_isBoundary (hr : p.reusable = []) (hs : st.step p = .more st') :
    isBoundary p.text st'.position = true := by
  obtain ⟨t, ht, -⟩ | ⟨t, ht, hstop⟩ := step_more hs
  · rw [hr] at ht
    cases ht
  · have hopened := opened_isBoundary hf hpos
    rw [← reading_position] at hopened
    rw [hstop]
    obtain ⟨-, ⟨-, _, hfound⟩ | herror⟩ := nextToken_eq_some ht
    · exact hfound.isBoundary hf hopened
    · exact Lexer.errorToken_isBoundary herror

end

theorem Visits.isBoundary (hf : p.lexer.Proper) (hr : p.reusable = []) (h : Visits p st) :
    Text.isBoundary p.text st.position = true := by
  induction h with
  | initial => exact isBoundary_iff.2 ⟨_, suffix?_zero p.text⟩
  | step _ hs ih => exact step_isBoundary hf ih hr hs

/-- Goes on by the token that stands behind the extras. -/
def read (p : ParseInput) (st : ParseState) (afterExtra : Bool) : Progress :=
  let next := st.nextToken p afterExtra
  let st := { st with saved := next.2 }
  match next.1 with
  | some token => .more (st.shift p token)
  | none => .finished (st.flushSkipped p)

section

variable (hr : p.reusable = []) (st : ParseState)

include hr

theorem candidates_of_fresh : st.candidates p = ([], st.saved) := by simp [candidates, hr]

theorem opened_of_fresh : st.opened p = ({ st with chart := st.chart.close p.tables [] } :
    ParseState).passExtras p ((st.chart.close p.tables []).current.expectedTerminals p.tables) := by
  rw [opened, suppressed, candidates_of_fresh hr]
  rfl

theorem step_of_fresh : st.step p = (st.opened p).1.read p (st.opened p).2 := by
  have hreading : st.reading p = (st.opened p).1 := by
    rw [reading, suppressed, candidates_of_fresh hr]
    rfl
  rw [step_eq, reuse?_of_fresh hr, hreading]
  rfl

end

end ParseState

namespace Checked

variable {p : ParseInput} (st : ParseState)

theorem shift_eq (h : st.chart.Sound p.tables st.units) (token : Token) :
    shift p st token = .ok (st.shift p token) := by
  rw [shift, ParseState.shift]
  dsimp only
  split
  · rw [discardAfter_sets h, Chart.ofSets_sets]
    rfl
  · rw [scan_eq h, ok_bind, discardAfter_push h, Chart.ofSets_sets, Chart.ofSets_push]
    cases hscan : st.chart.scan? p.tables token.symbol token.afterExtra with
    | none => rfl
    | some c =>
        have hc : c = ⟨st.chart.sets,
            ({} : ItemSet).addAll (st.chart.scanned p.tables token.symbol token.afterExtra)⟩ := by
          rw [Chart.scan?] at hscan
          split at hscan
          · cases hscan
          · exact (Option.some.inj hscan).symm
        rw [hc]
        rfl

theorem nextToken_eq (hpos : isBoundary p.text st.position = true) (afterExtra : Bool) :
    nextToken p.lexer st.saved st.position (st.chart.current.expectedTerminals p.tables) afterExtra =
      .ok (st.nextToken p afterExtra) := by
  rw [nextToken, ParseState.nextToken, token_eq hpos, ok_bind]
  rcases p.lexer.token st.saved st.position
      (some (st.chart.current.expectedTerminals p.tables).contains) afterExtra with ⟨- | found, saved⟩
  · dsimp only
    rw [token_eq hpos]
    rfl
  · rfl

section

variable (ht : p.tables.WellFormed) (ha : p.tables.Addressed) (hf : p.lexer.Proper)
  (h : st.chart.Sound p.tables st.units) (hpos : isBoundary p.text st.position = true)

include ha hf h hpos in
theorem passExtras_eq : passExtras p st =
    .ok (st.passExtras p (st.chart.current.expectedTerminals p.tables)) := by
  rw [passExtras, expectedTerminals_eq ha h, ok_bind, skipExtras_eq hf hpos]
  rfl

include ha h hpos in
theorem read_eq (afterExtra : Bool) : read p st afterExtra = .ok (st.read p afterExtra) := by
  rw [read, ParseState.read, expectedTerminals_eq ha h, ok_bind, nextToken_eq st hpos, ok_bind]
  rcases st.nextToken p afterExtra with ⟨- | token, saved⟩
  · rfl
  · have hshift : shift p { st with saved := saved } token =
        .ok (({ st with saved := saved } : ParseState).shift p token) :=
      shift_eq { st with saved := saved } h token
    dsimp only
    rw [hshift]
    rfl

include ht ha hf h hpos

theorem step_eq (hr : p.reusable = []) : step p st = .ok (st.step p) := by
  have hclose := h.close ht []
  obtain ⟨hchart, hunits⟩ := ParseState.opened_frame (p := p) st
  rw [ParseState.suppressed, ParseState.candidates_of_fresh hr, List.map_nil] at hchart
  have hopened : (st.opened p).1.chart.Sound p.tables (st.opened p).1.units :=
    hchart.symm ▸ hunits.symm ▸ hclose
  have hpass : passExtras p { st with chart := st.chart.close p.tables [] } = .ok (st.opened p) :=
    (passExtras_eq { st with chart := st.chart.close p.tables [] } ha hf hclose hpos).trans
      (congrArg Except.ok (ParseState.opened_of_fresh hr st).symm)
  rw [step, close_eq ht ha h, ok_bind, Chart.ofSets_sets, hpass, ok_bind]
  dsimp only
  rw [expectedNonterminals_eq ha hopened, ok_bind,
    read_eq _ ha hopened (ParseState.opened_isBoundary hf hpos), ParseState.step_of_fresh hr]

end

section

variable {st} (ht : p.tables.WellFormed) (ha : p.tables.Addressed) (hf : p.lexer.Proper)
  (hr : p.reusable = [])

include ht ha hf hr

theorem runChecked_of_visits (h : ParseState.Visits p st) :
    (ParseState.initial p).runChecked p = st.runChecked p := by
  induction h with
  | initial => rfl
  | @step st st' hv hs ih =>
      rw [ih, ParseState.runChecked, step_eq st ht ha hf (hv.consistent ht).sound (hv.isBoundary hf hr) hr, hs]

theorem runChecked_of_ends (h : ParseState.Ends p st) :
    (ParseState.initial p).runChecked p = some (.ok st) := by
  obtain ⟨st₁, hv, hs⟩ := h
  rw [runChecked_of_visits ht ha hf hr hv, ParseState.runChecked,
    step_eq st₁ ht ha hf (hv.consistent ht).sound (hv.isBoundary hf hr) hr, hs]

omit hf in
theorem fits_derivation (h : ParseState.Ends p st) : Fits (st.derivation p) where
  addressed := ha
  size := size_sets (h.consistent ht).sound
  sound := (h.consistent ht).derivation_sound ht fun _ hm => absurd (hr ▸ hm) List.not_mem_nil

omit hf in
theorem treeOf_eq (hends : ParseState.Ends p st) (order : KeyOrder) :
    treeOf p order st = .ok (st.tree p order) := by
  have hcons := hends.consistent ht
  have hfits := fits_derivation ht ha hr hends
  have herror : ∀ m, (st.derivation p).Remembers True m → ∃ root m',
      ((st.derivation p).errorRoot order).run m = some (root, m') := by
    intro m hm
    obtain ⟨root, m', hrun, -⟩ := Derivation.errorRoot_meets hfits.sound order m hm
    exact ⟨root, m', hrun⟩
  have hnone : (st.derivation p).Remembers True {} := fun _ _ hm => absurd hm List.not_mem_nil
  rw [treeOf]
  simp only [ParseState.tree, accepts_eq hcons.sound, ok_bind, hfits.acceptedRoot_eq,
    hfits.errorRoot_eq]
  by_cases hacc : st.chart.accepts p.tables = true
  · obtain ⟨r, m, hroot, hm, -⟩ := Derivation.acceptedRoot_meets hfits.sound (.inl trivial)
      (hcons.completes_start hacc) (fun _ _ _ => trivial) {} hnone
    have haccepted : st.acceptedRoot? p = some (r, m) := (if_pos hacc).trans hroot
    rw [if_pos hacc, lift_run hroot, haccepted, ok_bind]
    cases r with
    | some root => rfl
    | none =>
        obtain ⟨root, m', herr⟩ := herror m hm
        simp only [Option.getD_some, lift_run herr, herr]
        rfl
  · have haccepted : st.acceptedRoot? p = some (none, {}) := if_neg hacc
    obtain ⟨root, m', herr⟩ := herror {} hnone
    rw [if_neg hacc, haccepted]
    simp only [Option.getD_some, pure_bind, lift_run herr, herr]
    rfl

theorem tree_eq (hends : ParseState.Ends p st) (order : KeyOrder) :
    tree p order = some (.ok (st.tree p order)) := by
  have hinitial : initial p = .ok (.initial p) := by
    rw [initial, initialSets_eq ha, ok_bind, Chart.ofSets_sets]
    rfl
  rw [tree, hinitial]
  dsimp only
  rw [runChecked_of_ends ht ha hf hr hends, Option.map_some]
  exact congrArg some (treeOf_eq ht ha hr hends order)

end

end Checked

namespace ParseState

variable {p : ParseInput} {st st' : ParseState}

theorem Visits.closed (ht : p.tables.WellFormed) (ha : p.tables.Addressed) (hr : p.reusable = [])
    (h : Visits p st) :
    ∀ k ≤ st.units.size, Checked.Closed p.tables (st.chart.close p.tables []).sets k := by
  have hexact := h.exact ht hr
  refine fun k hk => Checked.closed_of_exact ht ha st.units fun j hj => ?_
  exact ⟨_, Checked.setAt_eq (hexact.close ht).toSound (hj.trans hk), fun item =>
    hexact.mem_close_iff ht (hj.trans hk)⟩

/-- A step that takes no unit leaves the sets as they are once the last one is closed. -/
theorem chart_of_units_eq (ht : p.tables.WellFormed) (hr : p.reusable = [])
    (hs : st.step p = .more st') (hu : st'.units = st.units) :
    st'.chart = st.chart.close p.tables [] := by
  have hpush : ∀ u, st'.units ≠ st.units.push u := fun u h => by
    have hsize := congrArg Array.size (hu.symm.trans h)
    rw [Array.size_push] at hsize
    omega
  have hm : Moves p st (.more st') := hs ▸ step_moves ht st
  cases hm with
  | reused _ _ _ hu => exact absurd hu (hpush _)
  | shifted _ _ hu => exact absurd hu (hpush _)
  | skipped hc _ => exact hc.trans (reading_chart_of_fresh hr st)

end ParseState

namespace Language

open ParseState

/-- Whatever the text, a parse without an old tree finds all that it looks up: with every lookup
checked, it comes to its end and gives the same tree, in whatever order the keys come. At the beginning
of each step there is one set more than there are units; a token that is refused leaves the sets as they
were; and in the end every set is closed. -/
theorem parse_faultless {g : Grammar} {scanner : Option Scanner} {handle : Nat} {l : Language}
    (hl : Language.compile g scanner handle = .ok l) (hs : ∀ s ∈ l.scanner, s.Proper)
    (text : List Char) (era : Nat) :
    (∀ order, Checked.parse l text era order = some (.ok (l.parse text none era order))) ∧
      (∀ st, Visits (.fresh l text era) st →
        st.chart.sets.size = st.units.size + 1 ∧ isBoundary text st.position = true ∧
        Checked.step (.fresh l text era) st = .ok (st.step (.fresh l text era)) ∧
        ∃ sets, Checked.close l.tables st.chart.sets st.units.size = .ok sets ∧
          (∀ k ≤ st.units.size, Checked.Closed l.tables sets k) ∧
          (∀ s afterExtra, ∃ advanced after,
            Checked.scan l.tables sets st.units.size s afterExtra = .ok (advanced, after) ∧
              (advanced = false → Checked.discardAfter after st.units.size = sets)) ∧
          ∀ st', st.step (.fresh l text era) = .more st' → st'.units = st.units →
            st'.chart.sets = sets) ∧
      ∀ st, Ends (.fresh l text era) st →
        st.chart.sets.size = st.units.size + 1 ∧
        ∀ k ≤ st.units.size, Checked.Closed l.tables st.chart.sets k := by
  have ht : (ParseInput.fresh l text era).tables.WellFormed := Language.compile_wellFormed hl
  have ha : (ParseInput.fresh l text era).tables.Addressed :=
    (Grammar.intact_of_tables (Language.tables_of_compile hl)).addressed ht
  have hf : (ParseInput.fresh l text era).lexer.Proper := hs
  have hr : (ParseInput.fresh l text era).reusable = [] := rfl
  obtain ⟨last, hlast⟩ := ParseInput.exists_ends_fresh hs text era
  refine ⟨fun order => ?_, fun st hv => ?_, fun st he => ?_⟩
  · rw [Checked.parse, Checked.tree_eq ht ha hf hr hlast, hlast.parse_none]
    rfl
  · have hsound := (hv.consistent ht).sound
    have hclose := hsound.close ht []
    have hpos : isBoundary text st.position = true := hv.isBoundary hf hr
    have hstep := Checked.step_eq st ht ha hf hsound hpos hr
    have hsets := Checked.close_eq ht ha hsound
    refine ⟨Checked.size_sets hsound, hpos, hstep, _, hsets, hv.closed ht ha hr, ?_, ?_⟩
    · intro s afterExtra
      exact ⟨_, _, Checked.scan_eq hclose s afterExtra, fun _ => Checked.discardAfter_push hclose _⟩
    · exact fun st' hst hu => congrArg Chart.sets (chart_of_units_eq ht hr hst hu)
  · obtain ⟨st₁, hv, hst⟩ := id he
    have hm : Moves (.fresh l text era) st₁ (.finished st) := hst ▸ step_moves ht st₁
    refine ⟨Checked.size_sets (he.consistent ht).sound, ?_⟩
    cases hm with
    | finished hc hu =>
        rw [hc, hu, reading_chart_of_fresh hr]
        exact hv.closed ht ha hr

/-- Two letters in a row, with comments that a scanner finds. -/
def commentedRow : Grammar :=
  { ({ name := "row" } : Grammar).define "row" (.seq [.literal "a", .literal "b"]) with
    extras := some [.ref "comment"]
    externals := some [.ref "comment"] }

/-- A comment with a character of two bytes, and a letter out of place. -/
theorem parse_faultless_commentedRow : ∃ l st,
    Language.compile commentedRow (some Candid.BlockComment.scanner) 0 = .ok l ∧
      (∀ order, Checked.parse l "a/*é*/ab".toList 0 order =
        some (.ok (l.parse "a/*é*/ab".toList none 0 order))) ∧
      (l.parse "a/*é*/ab".toList none 0).root.hasError = true ∧
      Ends (.fresh l "a/*é*/ab".toList 0) st ∧ st.units.size = 2 ∧ st.chart.sets.size = 3 ∧
      ∀ k ≤ 2, Checked.Closed l.tables st.chart.sets k := by
  obtain ⟨l, st, hl, hends, htest⟩ := exists_of_endsWith
    (show endsWith commentedRow (some Candid.BlockComment.scanner) "a/*é*/ab".toList (fun l st =>
        (st.tree (.fresh l "a/*é*/ab".toList 0) .entered).hasError && st.units.size == 2) = true by
      decide +kernel)
  rw [Bool.and_eq_true, beq_iff_eq] at htest
  obtain ⟨herror, hsize⟩ := htest
  obtain ⟨hparse, -, hclosed⟩ :=
    parse_faultless hl (Candid.BlockComment.proper_of_compile hl) "a/*é*/ab".toList 0
  obtain ⟨hsets, hclosed⟩ := hclosed st hends
  rw [hsize] at hsets hclosed
  refine ⟨l, st, hl, hparse, ?_, hends, hsize, hsets, hclosed⟩
  rw [hends.root_parse_none]
  exact herror

end Language

end EarleyTree

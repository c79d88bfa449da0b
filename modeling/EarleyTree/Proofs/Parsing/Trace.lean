import EarleyTree.Proofs.Parsing.Progress
import EarleyTree.Proofs.Parsing.Reuse

/-!
The course of a parse: which extras it passed, which units it took and which tokens it skipped, and
what became of them.
-/
namespace EarleyTree

open Text

inductive Event
  | extra (t : Token)
  | unit (u : InputUnit)
  | skip (t : Token)

namespace Event

@[simp] def extra? : Event → Option Token
  | extra t => some t
  | unit _ | skip _ => none

@[simp] def unit? : Event → Option InputUnit
  | unit u => some u
  | extra _ | skip _ => none

@[simp] def skip? : Event → Option Token
  | skip t => some t
  | extra _ | unit _ => none

variable {e : Event} {t : Token} {u : InputUnit}

theorem extra?_eq_some (h : e.extra? = some t) : e = .extra t := by
  cases e <;> cases h
  rfl

theorem unit?_eq_some (h : e.unit? = some u) : e = .unit u := by
  cases e <;> cases h
  rfl

theorem skip?_eq_some (h : e.skip? = some t) : e = .skip t := by
  cases e <;> cases h
  rfl

end Event

/-- A node that belongs to no derivation: an extra, or an error over tokens skipped in a row. -/
inductive Floating
  | extra (t : Token)
  | error (ts : List Token) (h : ts ≠ [])

namespace Floating

@[simp] def extra? : Floating → Option Token
  | extra t => some t
  | error _ _ => none

@[simp] def skipped : Floating → List Token
  | extra _ => []
  | error ts _ => ts

def leaf (lines : Lines) (t : Token) : Subtree :=
  .leaf Subtree.anonymous t.symbol t.symbol (lines.span t.start t.stop)

def extraLeaf (lines : Lines) (t : Token) : Subtree :=
  let kind := t.wrapper.getD t.symbol
  let node := Subtree.leaf Subtree.anonymous kind kind (lines.span t.start t.stop)
  { node with data := { node.data with isExtra := true } }

def node (lines : Lines) : Floating → Subtree
  | extra t => extraLeaf lines t
  | error ts h =>
    .node Subtree.anonymous errorSymbol errorSymbol (lines.span (ts.head h).start (ts.getLast h).stop)
      (ts.map (leaf lines))

/-- The error node that tokens skipped in a row come to, if there are any. -/
def flushed (ts : List Token) : List Floating := if h : ts ≠ [] then [error ts h] else []

@[simp] theorem flatMap_skipped_flushed (ts : List Token) : (flushed ts).flatMap skipped = ts := by
  rw [flushed]
  split
  · simp
  · next h => simp [not_not.1 h]

@[simp] theorem filterMap_extra?_flushed (ts : List Token) : (flushed ts).filterMap extra? = [] := by
  rw [flushed]
  split <;> simp

end Floating

namespace ParseState

variable {p : ParseInput} {st st' : ParseState} {es : List Event} {fs : List Floating}

/-- The extras before the next unit. -/
def passed (p : ParseInput) (st : ParseState) : List Token :=
  (p.lexer.skipExtras (st.candidates p).2 st.position
    ((st.chart.close p.tables (st.suppressed p)).current.expectedTerminals p.tables).contains).1.extras

/-- What becomes of the subtree or the token behind the extras. -/
def taken (p : ParseInput) (st : ParseState) : Option Event :=
  match (st.opened p).1.reuse? p (st.candidates p).1 with
  | some (t, _) => some (.unit (.reused t))
  | none =>
    ((st.reading p).nextToken p (st.opened p).2).1.map fun t =>
      match if t.symbol = errorSymbol then none else
          (st.reading p).chart.scan? p.tables t.symbol t.afterExtra with
      | some _ => .unit (.token t)
      | none => .skip t

def events (p : ParseInput) (st : ParseState) : List Event :=
  (st.passed p).map .extra ++ (st.taken p).toList

inductive Traces (p : ParseInput) : ParseState → List Event → Prop
  | initial : Traces p (.initial p) []
  | more {st st' : ParseState} {es : List Event} (h : Traces p st es) (hs : st.step p = .more st') :
      Traces p st' (es ++ st.events p)

/-- The events of a whole parse. -/
def EndsWith (p : ParseInput) (st : ParseState) (es : List Event) : Prop :=
  ∃ st₁ es₁, Traces p st₁ es₁ ∧ st₁.step p = .finished st ∧ es = es₁ ++ st₁.events p

theorem Visits.exists_traces (h : Visits p st) : ∃ es, Traces p st es := by
  induction h with
  | initial => exact ⟨[], .initial⟩
  | step _ hs ih =>
      obtain ⟨es, h⟩ := ih
      exact ⟨_, h.more hs⟩

theorem Traces.visits (h : Traces p st es) : Visits p st := by
  induction h with
  | initial => exact .initial
  | more _ hs ih => exact .step ih hs

theorem Ends.exists_endsWith (h : Ends p st) : ∃ es, EndsWith p st es := by
  obtain ⟨st₁, hv, hs⟩ := h
  obtain ⟨es, h⟩ := hv.exists_traces
  exact ⟨_, st₁, es, h, hs, rfl⟩

theorem EndsWith.ends (h : EndsWith p st es) : Ends p st := by
  obtain ⟨st₁, es₁, ht, hs, -⟩ := h
  exact ⟨st₁, ht.visits, hs⟩

theorem floats_pushExtra (t : Token) (st : ParseState) :
    (st.pushExtra p t).floats = st.floats ++ [(Floating.extra t).node p.lines] := by
  rw [floats, floats, pushExtra, Array.toList_push, List.map_append]
  rfl

theorem pushExtras_floats (ts : List Token) (st : ParseState) :
    (ts.foldl (pushExtra p) st).floats =
        st.floats ++ ts.map (fun t => (Floating.extra t).node p.lines) ∧
      (ts.foldl (pushExtra p) st).skipped = st.skipped := by
  induction ts generalizing st with
  | nil => exact ⟨(List.append_nil _).symm, rfl⟩
  | cons t ts ih =>
      obtain ⟨hf, hs⟩ := ih (st.pushExtra p t)
      refine ⟨?_, hs⟩
      rw [List.foldl_cons, hf, floats_pushExtra, List.append_assoc]
      rfl

theorem opened_floats (st : ParseState) :
    (st.opened p).1.floats =
        st.floats ++ (st.passed p).map (fun t => (Floating.extra t).node p.lines) ∧
      (st.opened p).1.skipped = st.skipped := by
  rw [opened, passExtras]
  exact pushExtras_floats _ _

theorem reading_floats (st : ParseState) :
    (st.reading p).floats = (st.opened p).1.floats ∧
      (st.reading p).skipped = (st.opened p).1.skipped := by
  rw [reading]
  split <;> exact ⟨rfl, rfl⟩

/-- Behind the extras a step puts on the error over the tokens skipped before, or nothing. -/
theorem step_floating (h : st.step p = .more st' ∨ st.step p = .finished st') :
    ∃ st₁ : ParseState, st₁.floating = (st.opened p).1.floating ∧ st₁.skipped = st.skipped ∧
      (st'.floating = st₁.floating ∨ st'.floating = (st₁.flushSkipped p).floating) := by
  have hopened : (st.opened p).1.skipped = st.skipped := (opened_floats st).2
  have hread : ({ st.reading p with
        saved := ((st.reading p).nextToken p (st.opened p).2).2 } : ParseState).floating =
      (st.opened p).1.floating ∧ (st.reading p).skipped = st.skipped := by
    rw [reading]
    split <;> exact ⟨rfl, hopened⟩
  rw [step_eq] at h
  split at h
  · obtain h | h := h
    · cases h
      exact ⟨_, rfl, hopened, .inr rfl⟩
    · cases h
  · dsimp only at h
    split at h
    · obtain h | h := h
      · cases h
        refine ⟨_, hread.1, hread.2, ?_⟩
        rw [shift]
        split
        · exact .inr rfl
        · exact .inl rfl
      · cases h
    · obtain h | h := h
      · cases h
      · cases h
        exact ⟨_, hread.1, hread.2, .inr rfl⟩

theorem skeletonAll_mapIdx_tokenLeaf (trail : Nat → List Nat) (ts : List Token) :
    Subtree.skeletonAll (ts.mapIdx fun i t => tokenLeaf p (trail i) t) =
      ts.map (Floating.leaf p.lines) := by
  induction ts generalizing trail with
  | nil => rfl
  | cons t ts ih =>
      rw [List.mapIdx_cons, Subtree.skeletonAll, ih fun i => trail (i + 1)]
      rfl

theorem flushSkipped_floats (st : ParseState) :
    (st.flushSkipped p).floats =
        st.floats ++ (Floating.flushed st.skipped.toList).map (Floating.node p.lines) ∧
      (st.flushSkipped p).skipped = #[] := by
  rcases hs : st.skipped.toList with - | ⟨t, ts⟩
  · have hnil : st.skipped = #[] := Array.toList_eq_nil_iff.1 hs
    rw [flushSkipped, hnil]
    exact ⟨(List.append_nil _).symm, hnil⟩
  · have hfirst : st.skipped[0]? = some t := by
      rw [← Array.getElem?_toList, hs]
      rfl
    have hlast : st.skipped.back? = some ((t :: ts).getLast (List.cons_ne_nil t ts)) := by
      rw [← List.getLast?_eq_some_getLast, ← hs, Array.getLast?_toList]
    rw [flushSkipped, hfirst, hlast, Floating.flushed, dif_pos (List.cons_ne_nil t ts)]
    dsimp only
    refine ⟨?_, rfl⟩
    rw [floats, Array.toList_push, List.map_append, hs, List.map_singleton, List.map_singleton,
      Subtree.skeleton_node, skeletonAll_mapIdx_tokenLeaf]
    rfl

theorem flushed_floats (st₁ : ParseState) (hf : st₁.floats = (st.opened p).1.floats)
    (hs : st₁.skipped = (st.opened p).1.skipped) :
    (st₁.flushSkipped p).floats = st.floats ++
        ((st.passed p).map Floating.extra ++ Floating.flushed st.skipped.toList).map
          (Floating.node p.lines) ∧
      (st₁.flushSkipped p).skipped = #[] := by
  obtain ⟨hof, hos⟩ := opened_floats (p := p) st
  obtain ⟨hff, hfs⟩ := flushSkipped_floats (p := p) st₁
  refine ⟨?_, hfs⟩
  rw [hff, hf, hof, hs, hos, List.append_assoc, List.map_append, List.map_map]
  rfl

theorem taken_eq_some {e : Event} (h : st.taken p = some e) :
    (∃ t ∈ p.reusable, t.start = (st.opened p).1.position ∧ e = .unit (.reused t)) ∨
      ∃ t, ((st.reading p).nextToken p (st.opened p).2).1 = some t ∧
        (e = .unit (.token t) ∨ e = .skip t) := by
  rw [taken] at h
  split at h
  · next t _ hr =>
      exact .inl ⟨t, candidates_subset st t (reuse?_eq_some hr).1, start_of_reuse? hr,
        (Option.some.inj h).symm⟩
  · obtain ⟨t, ht, rfl⟩ := Option.map_eq_some_iff.1 h
    refine .inr ⟨t, ht, ?_⟩
    split
    · exact .inl rfl
    · exact .inr rfl

theorem taken_next {t : Token} {e : Event} (h : st.taken p = some e)
    (he : e = .unit (.token t) ∨ e = .skip t) :
    ((st.reading p).nextToken p (st.opened p).2).1 = some t := by
  obtain ⟨_, -, -, rfl⟩ | ⟨t', ht', rfl | rfl⟩ := taken_eq_some h
  · obtain he | he := he <;> cases he
  · obtain he | he := he <;> cases he
    exact ht'
  · obtain he | he := he <;> cases he
    exact ht'

theorem taken_reused {t : Subtree} (h : st.taken p = some (.unit (.reused t))) :
    t ∈ p.reusable ∧ t.start = (st.opened p).1.position := by
  obtain ⟨_, ht, hstart, he⟩ | ⟨_, -, he | he⟩ := taken_eq_some h
  · cases he
    exact ⟨ht, hstart⟩
  · cases he
  · cases he

/-- What a step leads to: the extras are put on, and then a unit is taken, a token is skipped, or the
text is at its end. The error over the tokens skipped before is put on where they are followed by no
other. -/
inductive Leads (p : ParseInput) (st : ParseState) : Progress → Prop
  | unit {st' : ParseState} {u : InputUnit} (ht : st.taken p = some (.unit u))
      (hu : st'.units = st.units.push u) (hp : st'.position = u.stop)
      (hf : st'.floats = st.floats ++
        ((st.passed p).map Floating.extra ++ Floating.flushed st.skipped.toList).map
          (Floating.node p.lines))
      (hs : st'.skipped = #[]) : Leads p st (.more st')
  | skip {st' : ParseState} {t : Token} (ht : st.taken p = some (.skip t))
      (hu : st'.units = st.units) (hp : st'.position = t.stop)
      (hf : st'.floats = st.floats ++ ((st.passed p).map Floating.extra).map (Floating.node p.lines))
      (hs : st'.skipped = st.skipped.push t) : Leads p st (.more st')
  | finished {st' : ParseState} (ht : st.taken p = none) (hu : st'.units = st.units)
      (hf : st'.floats = st.floats ++
        ((st.passed p).map Floating.extra ++ Floating.flushed st.skipped.toList).map
          (Floating.node p.lines))
      (hs : st'.skipped = #[]) : Leads p st (.finished st')

theorem step_leads (st : ParseState) : Leads p st (st.step p) := by
  obtain ⟨hof, hos⟩ := opened_floats (p := p) st
  obtain ⟨hrf, hrs⟩ := reading_floats (p := p) st
  rw [step_eq]
  split
  · next t c hr =>
      obtain ⟨hf, hs⟩ := flushed_floats (st.opened p).1 rfl rfl
      refine .unit (u := .reused t) ?_ ?_ rfl hf hs
      · rw [taken, hr]
      · rw [(push_frame _ c _).2, (opened_frame st).2]
  · next hr =>
      dsimp only
      split
      · next t hx =>
          have htaken : st.taken p = some
              (match if t.symbol = errorSymbol then none else
                  (st.reading p).chart.scan? p.tables t.symbol t.afterExtra with
                | some _ => .unit (.token t)
                | none => .skip t) := by
            rw [taken, hr]
            dsimp only
            rw [hx]
            rfl
          rw [shift]
          dsimp only
          split
          · next c hc =>
              rw [hc] at htaken
              obtain ⟨hf, hs⟩ := flushed_floats { st.reading p with
                saved := ((st.reading p).nextToken p (st.opened p).2).2 } hrf hrs
              refine .unit htaken ?_ rfl hf hs
              rw [(push_frame _ c _).2, reading_units]
          · next hc =>
              rw [hc] at htaken
              refine .skip htaken (reading_units st) rfl ?_ ?_
              · rw [List.map_map]
                exact hrf.trans hof
              · rw [skip, hrs, hos]
      · next hx =>
          obtain ⟨hf, hs⟩ := flushed_floats { st.reading p with
            saved := ((st.reading p).nextToken p (st.opened p).2).2 } hrf hrs
          refine .finished ?_ ((flushSkipped_frame _).2.trans (reading_units st)) hf hs
          rw [taken, hr]
          dsimp only
          rw [hx]
          rfl

/-- The units, the floating nodes and the tokens not yet in one are those of the events, each once and
in the order of the events. -/
structure Records (p : ParseInput) (st : ParseState) (es : List Event) (fs : List Floating) :
    Prop where
  units : st.units.toList = es.filterMap Event.unit?
  floats : st.floats = fs.map (Floating.node p.lines)
  extras : fs.filterMap Floating.extra? = es.filterMap Event.extra?
  skipped : fs.flatMap Floating.skipped ++ st.skipped.toList = es.filterMap Event.skip?

theorem Records.more (h : Records p st es fs) (hs : st.step p = .more st') :
    ∃ fs', Records p st' (es ++ st.events p) fs' := by
  have hl := step_leads (p := p) st
  rw [hs] at hl
  cases hl with
  | @unit _ u ht hunits _ hfloats hskipped =>
      refine ⟨fs ++ ((st.passed p).map .extra ++ Floating.flushed st.skipped.toList), ?_, ?_, ?_, ?_⟩
      · rw [hunits, Array.toList_push, h.units, events, ht]
        simp [Function.comp_def]
      · rw [hfloats, h.floats, ← List.map_append]
      · simp [h.extras, events, ht, Function.comp_def]
      · rw [hskipped, List.filterMap_append, ← h.skipped, events, ht]
        simp [Function.comp_def, List.filterMap_cons, List.flatMap_map]
  | @skip _ t ht hunits _ hfloats hskipped =>
      refine ⟨fs ++ (st.passed p).map .extra, ?_, ?_, ?_, ?_⟩
      · rw [hunits, h.units, events, ht]
        simp [Function.comp_def]
      · rw [hfloats, h.floats, ← List.map_append]
      · simp [h.extras, events, ht, Function.comp_def]
      · rw [hskipped]
        simp [← h.skipped, events, ht, Function.comp_def]

theorem Records.finished (h : Records p st es fs) (hs : st.step p = .finished st') :
    ∃ fs', Records p st' (es ++ st.events p) fs' ∧ st'.skipped = #[] := by
  have hl := step_leads (p := p) st
  rw [hs] at hl
  cases hl with
  | finished ht hunits hfloats hskipped =>
      refine ⟨fs ++ ((st.passed p).map .extra ++ Floating.flushed st.skipped.toList), ⟨?_, ?_, ?_, ?_⟩,
        hskipped⟩
      · rw [hunits, h.units, events, ht]
        simp
      · rw [hfloats, h.floats, ← List.map_append]
      · simp [h.extras, events, ht, Function.comp_def]
      · rw [hskipped]
        simp [← h.skipped, events, ht, Function.comp_def]

theorem Traces.exists_records (h : Traces p st es) : ∃ fs, Records p st es fs := by
  induction h with
  | initial => exact ⟨[], rfl, rfl, rfl, rfl⟩
  | more _ hs ih =>
      obtain ⟨fs, h⟩ := ih
      exact h.more hs

theorem EndsWith.exists_records (h : EndsWith p st es) :
    ∃ fs, Records p st es fs ∧ fs.flatMap Floating.skipped = es.filterMap Event.skip? := by
  obtain ⟨st₁, es₁, ht, hs, rfl⟩ := h
  obtain ⟨fs₁, h₁⟩ := ht.exists_records
  obtain ⟨fs, h, hnil⟩ := h₁.finished hs
  have hskipped := h.skipped
  rw [hnil, List.append_nil] at hskipped
  exact ⟨fs, h, hskipped⟩

end ParseState

end EarleyTree

import EarleyTree.Proofs.Parsing.Spans
import EarleyTree.Proofs.Parsing.Trace

/-!
What a parse finds lies within its text, and the units one behind the other.
-/
namespace EarleyTree

open Text

/-- The tokens that a floating node is made of lie one behind the other within the first `n` bytes. -/
def Floating.Within (n : Nat) : Floating → Prop
  | extra t => t.start < t.stop ∧ t.stop ≤ n
  | error ts _ =>
    ts.Pairwise (fun s t => s.stop ≤ t.start) ∧ ∀ t ∈ ts, t.start < t.stop ∧ t.stop ≤ n

namespace ParseState

variable {p : ParseInput} {st st' : ParseState}

/-- What may be taken over lies within the text. -/
def Offers (p : ParseInput) : Prop :=
  ∀ t ∈ p.reusable, t.start ≤ t.stop ∧ t.stop ≤ byteLength p.text

/-- The node is an extra or an error, made of tokens within the text. -/
def IsFloating (p : ParseInput) (g : Subtree) : Prop :=
  ∃ f : Floating, f.Within (byteLength p.text) ∧ g = f.node p.lines

/-- All that was found lies within the text, and the units and the skipped tokens one behind the
other. -/
structure Spread (p : ParseInput) (st : ParseState) : Prop where
  position : st.position ≤ byteLength p.text
  order : st.units.toList.Pairwise fun u v => u.stop ≤ v.start
  unit : ∀ u ∈ st.units, u.start ≤ u.stop ∧ u.stop ≤ st.position
  floats : ∀ g ∈ st.floats, IsFloating p g
  skippedOrder : st.skipped.toList.Pairwise fun s t => s.stop ≤ t.start
  skipped : ∀ t ∈ st.skipped, t.start < t.stop ∧ t.stop ≤ st.position

theorem passed_within (hf : p.lexer.Proper) (hp : st.position ≤ byteLength p.text) :
    ∀ f ∈ (st.passed p).map Floating.extra, f.Within (byteLength p.text) := by
  intro f hm
  obtain ⟨t, ht, rfl⟩ := List.mem_map.1 hm
  obtain ⟨-, hextras⟩ := Lexer.skipFrom_forward hf.forward _ _ _ _ _
  obtain ⟨-, hlt, hle⟩ := hextras t ht
  exact ⟨hlt, hle.trans (Lexer.skipFrom_le hf _ _ _ _ _ hp)⟩

theorem next_range (hf : p.lexer.Forward) {t : Token}
    (ht : ((st.reading p).nextToken p (st.opened p).2).1 = some t) :
    st.position ≤ t.start ∧ t.start < t.stop := by
  obtain ⟨hstart, hlt⟩ := nextToken_forward hf ht
  rw [reading_position] at hstart
  exact ⟨(le_opened_position hf st).trans hstart, hlt⟩

theorem unit_range (hf : p.lexer.Forward) (ho : Offers p) {u : InputUnit}
    (h : st.taken p = some (.unit u)) : st.position ≤ u.start ∧ u.start ≤ u.stop := by
  cases u with
  | token t =>
      obtain ⟨hstart, hlt⟩ := next_range hf (taken_next h (.inl rfl))
      exact ⟨hstart, hlt.le⟩
  | reused t =>
      obtain ⟨ht, hstart⟩ := taken_reused h
      exact ⟨(le_opened_position hf st).trans hstart.ge, (ho t ht).1⟩

namespace Spread

theorem initial (p : ParseInput) : Spread p (.initial p) where
  position := Nat.zero_le _
  order := .nil
  unit u hu := absurd hu (Array.not_mem_empty u)
  floats _g hg := absurd hg List.not_mem_nil
  skippedOrder := .nil
  skipped t ht := absurd ht (Array.not_mem_empty t)

theorem flushed (h : Spread p st) : ∀ f ∈ Floating.flushed st.skipped.toList,
    f.Within (byteLength p.text) := by
  intro f hf
  rw [Floating.flushed] at hf
  split at hf
  · obtain rfl := List.mem_singleton.1 hf
    refine ⟨h.skippedOrder, fun t ht => ?_⟩
    obtain ⟨hlt, hle⟩ := h.skipped t (Array.mem_toList_iff.1 ht)
    exact ⟨hlt, hle.trans h.position⟩
  · exact absurd hf List.not_mem_nil

theorem floats_append (h : Spread p st) {fs : List Floating}
    (hfs : ∀ f ∈ fs, f.Within (byteLength p.text)) :
    ∀ g ∈ st.floats ++ fs.map (Floating.node p.lines),
      IsFloating p g := by
  intro g hg
  obtain hg | hg := List.mem_append.1 hg
  · exact h.floats g hg
  · obtain ⟨f, hf, rfl⟩ := List.mem_map.1 hg
    exact ⟨f, hfs f hf, rfl⟩

theorem floats_flush (hf : p.lexer.Proper) (h : Spread p st) :
    ∀ g ∈ st.floats ++ ((st.passed p).map Floating.extra ++
        Floating.flushed st.skipped.toList).map (Floating.node p.lines),
      IsFloating p g := by
  refine h.floats_append fun f hm => ?_
  obtain hm | hm := List.mem_append.1 hm
  · exact passed_within hf h.position f hm
  · exact h.flushed f hm

theorem more (hf : p.lexer.Proper) (ho : Offers p) (h : Spread p st) (hs : st.step p = .more st') :
    Spread p st' := by
  have hposition := step_le hf (fun t ht => (ho t ht).2) hs
  have hl := step_leads (p := p) st
  rw [hs] at hl
  cases hl with
  | @unit _ u ht hunits hp hfloats hskipped =>
      obtain ⟨hstart, hle⟩ := unit_range hf.forward ho ht
      refine ⟨hposition, ?_, fun v hv => ?_, hfloats ▸ h.floats_flush hf, ?_, ?_⟩
      · rw [hunits, Array.toList_push]
        refine List.pairwise_append.2 ⟨h.order, List.pairwise_singleton _ _, fun v hv w hw => ?_⟩
        rw [List.mem_singleton.1 hw]
        exact (h.unit v (Array.mem_toList_iff.1 hv)).2.trans hstart
      · rw [hunits] at hv
        rw [hp]
        obtain hv | rfl := Array.mem_push.1 hv
        · obtain ⟨hv, hv'⟩ := h.unit v hv
          exact ⟨hv, (hv'.trans hstart).trans hle⟩
        · exact ⟨hle, Nat.le_refl _⟩
      · simp [hskipped]
      · simp [hskipped]
  | @skip _ t ht hunits hp hfloats hskipped =>
      obtain ⟨hstart, hlt⟩ := next_range hf.forward (taken_next ht (.inr rfl))
      have hle : st.position ≤ st'.position := by omega
      refine ⟨hposition, hunits ▸ h.order, fun v hv => ?_, ?_, ?_, fun s hs => ?_⟩
      · rw [hunits] at hv
        exact ⟨(h.unit v hv).1, (h.unit v hv).2.trans hle⟩
      · rw [hfloats]
        exact h.floats_append (passed_within hf h.position)
      · rw [hskipped, Array.toList_push]
        refine List.pairwise_append.2
          ⟨h.skippedOrder, List.pairwise_singleton _ _, fun s hs w hw => ?_⟩
        rw [List.mem_singleton.1 hw]
        exact (h.skipped s (Array.mem_toList_iff.1 hs)).2.trans hstart
      · rw [hskipped] at hs
        obtain hs | rfl := Array.mem_push.1 hs
        · exact ⟨(h.skipped s hs).1, (h.skipped s hs).2.trans hle⟩
        · exact ⟨hlt, hp.ge⟩

end Spread

theorem Visits.spread (hf : p.lexer.Proper) (ho : Offers p) (h : Visits p st) : Spread p st := by
  induction h with
  | initial => exact .initial p
  | step _ hs ih => exact ih.more hf ho hs

/-- Where a parse ends, what it found lies within the text. -/
theorem Ends.spread (hf : p.lexer.Proper) (ho : Offers p) (h : Ends p st) :
    Ordered st.units ∧ (∀ u ∈ st.units, u.stop ≤ byteLength p.text) ∧
      ∀ g ∈ st.floats, IsFloating p g := by
  obtain ⟨st₁, hv, hs⟩ := h
  have h₁ := hv.spread hf ho
  have hl := step_leads (p := p) st₁
  rw [hs] at hl
  cases hl with
  | finished ht hunits hfloats hskipped =>
      rw [hunits, hfloats]
      exact ⟨⟨h₁.order, fun u hu => (h₁.unit u hu).1⟩,
        fun u hu => (h₁.unit u hu).2.trans h₁.position, h₁.floats_flush hf⟩

/-- So many steps lead from the beginning of a parse to the state. -/
inductive ReachesIn (p : ParseInput) : Nat → ParseState → Prop
  | initial : ReachesIn p 0 (.initial p)
  | more {n : Nat} {st st' : ParseState} (h : ReachesIn p n st) (hs : st.step p = .more st') :
      ReachesIn p (n + 1) st'

def emptyUnits (st : ParseState) : Nat := st.units.toList.countP fun u => u.start == u.stop

theorem ReachesIn.visits {n : Nat} (h : ReachesIn p n st) : Visits p st := by
  induction h with
  | initial => exact .initial
  | more _ hs ih => exact .step ih hs

/-- A step moves on in the text, or adds a unit over no text. -/
theorem step_lt_add (hf : p.lexer.Forward) (ho : Offers p) (hs : st.step p = .more st') :
    st.position + st.emptyUnits < st'.position + st'.emptyUnits := by
  have hl := step_leads (p := p) st
  rw [hs] at hl
  cases hl with
  | @unit _ u ht hunits hp =>
      obtain ⟨hstart, hle⟩ := unit_range hf ho ht
      rw [emptyUnits, emptyUnits, hunits, Array.toList_push, List.countP_append,
        List.countP_singleton, hp]
      split
      · omega
      · next hne =>
          have hlt := Nat.lt_of_le_of_ne hle fun heq => hne (beq_iff_eq.2 heq)
          omega
  | skip ht hunits hp =>
      obtain ⟨hstart, hlt⟩ := next_range hf (taken_next ht (.inr rfl))
      rw [emptyUnits, emptyUnits, hunits, hp]
      omega

theorem ReachesIn.le (hf : p.lexer.Forward) (ho : Offers p) {n : Nat} (h : ReachesIn p n st) :
    n ≤ st.position + st.emptyUnits := by
  induction h with
  | initial => exact Nat.zero_le _
  | more _ hs ih => exact Nat.succ_le_of_lt (Nat.lt_of_le_of_lt ih (step_lt_add hf ho hs))

end ParseState

end EarleyTree

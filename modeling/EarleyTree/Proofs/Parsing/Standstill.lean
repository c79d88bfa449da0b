import EarleyTree.Proofs.Parsing.Advance

/-!
A parse that has no end. Where a grammar repeats what may be over nothing, a node over nothing that an
old tree offers is taken over again and again, and the place in the text stays the same.
-/
namespace EarleyTree

open Text

/-- Where neither blanks nor extras stand nothing is passed over, whatever else would be welcome. -/
theorem Lexer.skipExtras_of_none {lx : Lexer} {position : Nat} {rest : List Char}
    (hs : lx.scanner = none) (hrest : suffix? lx.text position = some rest)
    (hskip : lx.skipLength rest = 0) (hextra : lx.bestMatch rest lx.tables.isExtra = none)
    (saved : Saved) (welcome : Symbol → Bool) :
    lx.skipExtras saved position welcome = (⟨[], position, false⟩, saved) := by
  have hexternal : lx.scanExternal saved position welcome true = none := by
    rw [scanExternal, hs]
    rfl
  have hone : lx.skipOne saved position false welcome = (none, saved) := by
    simp only [skipOne, hexternal, hrest, hskip, hextra, Nat.not_lt_zero, if_false]
  rw [skipExtras, skipFrom, hone]
  exact ite_self _

namespace Chart

variable {t : Tables} {us : Array InputUnit} {c d : Chart} {q : Nat} {s : Symbol}

/-- The production makes more of the symbol on its left by one more of another symbol. It is begun in
the first set, and in the last set the other symbol comes next. -/
structure Repeats (t : Tables) (q : Nat) (s : Symbol) (c : Chart) : Prop where
  same : (⟨q, 0, 0⟩ : Item).next? t = some (t.lhs q)
  more : (⟨q, 1, 0⟩ : Item).next? t = some s
  whole : (⟨q, 2, 0⟩ : Item).next? t = none
  first : (⟨q, 0, 0⟩ : Item) ∈ c.setAt 0
  last : (⟨q, 1, 0⟩ : Item) ∈ c.current

instance : Decidable (c.Repeats t q s) :=
  decidable_of_iff ((⟨q, 0, 0⟩ : Item).next? t = some (t.lhs q) ∧ (⟨q, 1, 0⟩ : Item).next? t = some s ∧
      (⟨q, 2, 0⟩ : Item).next? t = none ∧ (c.setAt 0).contains ⟨q, 0, 0⟩ = true ∧
        c.current.contains ⟨q, 1, 0⟩ = true)
    ⟨fun ⟨hsame, hmore, hwhole, hfirst, hlast⟩ =>
      ⟨hsame, hmore, hwhole, ItemSet.contains_iff.1 hfirst, ItemSet.contains_iff.1 hlast⟩,
    fun h => ⟨h.same, h.more, h.whole, ItemSet.contains_iff.2 h.first, ItemSet.contains_iff.2 h.last⟩⟩

theorem Repeats.exists_scan? (h : c.Repeats t q s) :
    ∃ d, c.scan? t s false = some d ∧ (⟨q, 2, 0⟩ : Item) ∈ d.current := by
  have hmem : (⟨q, 2, 0⟩ : Item) ∈ c.scanned t s false := by
    refine List.mem_map.2 ⟨⟨q, 1, 0⟩, List.mem_filter.2 ⟨?_, ?_⟩, rfl⟩
    · exact ItemSet.mem_waitingOn.2 ⟨h.last, h.more⟩
    · rw [Bool.and_false, Bool.not_false]
  rw [scan?]
  split
  · next hnil => exact absurd (hnil ▸ hmem) List.not_mem_nil
  · exact ⟨_, rfl, ItemSet.mem_addAll.2 (.inr hmem)⟩

/-- Stepping over the symbol makes one more of the same, and so the symbol is asked for again. -/
theorem Repeats.scan? (ht : t.WellFormed) (h : c.Repeats t q s) (hd : c.scan? t s false = some d)
    (hsound : d.Sound t us) (hwhole : (⟨q, 2, 0⟩ : Item) ∈ d.current) (suppressed : List Symbol) :
    (d.close t suppressed).Repeats t q s := by
  have hsize : 0 < d.earlier.size := by
    rw [size_scan? (u := .token ⟨s, 0, 0, false, none⟩) hd]
    exact Nat.succ_pos _
  have hfirst : (⟨q, 0, 0⟩ : Item) ∈ d.setAt 0 := by
    rw [setAt_scan? (u := .token ⟨s, 0, 0, false, none⟩) hd (Nat.zero_le _)]
    exact h.first
  obtain ⟨hsub, -, hdone⟩ := hsound.close_spec ht suppressed
  refine ⟨h.same, h.more, h.whole, ?_, ?_⟩
  · rw [setAt_close hsize]
    exact hfirst
  · -- what is whole over the units so far moves on the item of the first set that waits for it
    obtain ⟨-, part, hpart⟩ := hdone _ (hsub _ hwhole)
    refine hpart _ ((mem_consequences_of_complete h.whole).2 ⟨⟨q, 0, 0⟩, ?_, h.same, rfl⟩)
    rw [getD_earlier hsize]
    exact hfirst

end Chart

/-- All that is on offer is a subtree over nothing at the beginning of the text, where neither blanks
nor extras stand. -/
structure ParseInput.Stalls (p : ParseInput) (s : Subtree) : Prop where
  offer : p.reusable = [s]
  nonterminal : p.tables.isNonterminal s.symbol
  start : s.start = 0
  stop : s.stop = 0
  stays : ∀ saved welcome, p.lexer.skipExtras saved 0 welcome = (⟨[], 0, false⟩, saved)

namespace ParseState

variable {p : ParseInput} {s : Subtree} {q : Nat} {st : ParseState}

/-- The subtree is taken over, and it is again all that there is to go on with. -/
theorem step_stalls (ht : p.tables.WellFormed) (ho : p.Stalls s) (hv : Visits p st)
    (hposition : st.position = 0)
    (hrep : (st.chart.close p.tables [s.symbol]).Repeats p.tables q s.symbol) :
    ∃ st', st.step p = .more st' ∧ st'.position = 0 ∧
      (st'.chart.close p.tables [s.symbol]).Repeats p.tables q s.symbol := by
  have hcandidates : st.candidates p = ([s], st.saved) := by
    simp [candidates, ho.offer, hposition, ho.stays, ho.start]
  have hchart : (st.opened p).1.chart = st.chart.close p.tables [s.symbol] := by
    rw [(opened_frame st).1, suppressed, hcandidates]
    rfl
  have hstays : (st.opened p).1.position = 0 := by
    simp [opened, passExtras, hcandidates, hposition, ho.stays]
  obtain ⟨d, hd, hwhole⟩ := hrep.exists_scan?
  have hwaits : ((st.opened p).1.chart.current.expectedNonterminals p.tables).contains s.symbol =
      true := by
    rw [List.contains_iff_mem, hchart]
    exact List.mem_filter.2 ⟨List.mem_filterMap.2 ⟨_, Array.mem_toList_iff.2 hrep.last, hrep.more⟩,
      ho.nonterminal⟩
  have hreuse : (st.opened p).1.reuse? p (st.candidates p).1 = some (s, d) := by
    rw [reuse?, hcandidates]
    dsimp only
    rw [List.find?_cons_of_pos, Option.bind_some, hchart, hd, Option.map_some]
    rw [hstays, ho.start, hwaits]
    rfl
  have hstep : st.step p = .more ((st.opened p).1.push p d (.reused s)) := by
    rw [step_eq, hreuse]
  have hsound := ((hv.step hstep).consistent ht).sound
  rw [(push_frame _ _ _).1] at hsound
  exact ⟨_, hstep, ho.stop, hrep.scan? ht hd hsound hwhole [s.symbol]⟩

end ParseState

open ParseState

/-- A parse has no end if all that is on offer is a subtree over nothing at the beginning of the text
and the grammar asks there for any number of them. -/
theorem ParseInput.Stalls.final?_eq_none {p : ParseInput} {s : Subtree} {q : Nat}
    (ht : p.tables.WellFormed) (ho : p.Stalls s)
    (hrep : ((initial p).chart.close p.tables [s.symbol]).Repeats p.tables q s.symbol) :
    p.final? = none := by
  have hvisits {st : ParseState} (hv : Visits p st) : st.position = 0 ∧
      (st.chart.close p.tables [s.symbol]).Repeats p.tables q s.symbol := by
    induction hv with
    | initial => exact ⟨rfl, hrep⟩
    | step hv hs ih =>
        obtain ⟨st₁, hs₁, h⟩ := step_stalls ht ho hv ih.1 ih.2
        cases hs.symm.trans hs₁
        exact h
  cases hfinal : p.final? with
  | none => rfl
  | some st =>
      obtain ⟨st₁, hv, hs⟩ := final?_eq_some.1 hfinal
      obtain ⟨st₂, hs₂, -⟩ := step_stalls ht ho hv (hvisits hv).1 (hvisits hv).2
      cases hs.symm.trans hs₂

namespace Language

/-- A letter behind any number of nodes, each over a node over nothing. -/
def hollowRow : Grammar :=
  ((({ name := "row" } : Grammar).define "row" (.seq [.many1 (.ref "outer"), .literal "b"])).define
    "outer" (.seq [.ref "inner"])).define "inner" (.optional (.literal "e"))

/-- A blank is put behind the letter, and the parse that takes over the node over nothing has no end. -/
theorem no_end_hollowRow : ∃ l e, Language.compile hollowRow none 0 = .ok l ∧
    Edit.replace? ['b'] 1 1 [' '] = some e ∧
    ((l.parse ['b'] none 0).edit e 1).Stands ['b', ' '] ∧
    (l.reparse ['b'] e ['b', ' ']).final? = none := by
  obtain ⟨l, hl, htest⟩ := exists_of_parsedWith
    (show parsedWith hollowRow none ['b'] (fun l first =>
        l.scanner.isNone && (Edit.replace? ['b'] 1 1 [' ']).any fun e =>
          let p := ParseInput.withOld l ['b', ' '] (first.edit e 1) 2
          p.lexer.skipLength ['b', ' '] == 0 && (p.lexer.bestMatch ['b', ' '] l.tables.isExtra).isNone &&
            p.reusable.length == 1 && p.reusable.head?.any fun s =>
              l.tables.isNonterminal s.symbol && decide (s.start = 0 ∧ s.stop = 0) &&
                decide (∃ q < l.tables.productions.size,
                  ((Chart.initial l.tables).close l.tables [s.symbol]).Repeats l.tables q s.symbol)) =
        true by decide +kernel)
  obtain ⟨hscanner, htest⟩ := Bool.and_eq_true_iff.1 htest
  obtain ⟨e, he, htest⟩ := (Option.any_eq_true _ _).1 htest
  simp only [Bool.and_eq_true, beq_iff_eq, decide_eq_true_iff, Option.any_eq_true] at htest
  obtain ⟨⟨⟨hskip, hextra⟩, hlength⟩, s, hs, ⟨hnonterminal, hstart, hstop⟩, q, -, hrep⟩ := htest
  refine ⟨l, e, hl, he, ?_, ?_⟩
  · have hparsed : (l.parse ['b'] none 0).Stands ['b'] :=
      .parsed hl (proper_of_isNone hscanner) (fun _ ho => absurd ho (Option.not_mem_none _)) 0 .entered
    exact .edited hparsed he 1
  · obtain ⟨s', hs'⟩ := List.length_eq_one_iff.1 hlength
    rw [hs'] at hs
    obtain rfl := Option.some.inj hs
    refine ParseInput.Stalls.final?_eq_none (Language.compile_wellFormed hl)
      ⟨hs', hnonterminal, hstart, hstop, Lexer.skipExtras_of_none ?_ rfl hskip ?_⟩ hrep
    · exact Option.isNone_iff_eq_none.1 hscanner
    · exact Option.isNone_iff_eq_none.1 hextra

end Language

end EarleyTree

import EarleyTree.Grammar.Combinators
import EarleyTree.Proofs.Language.Compiled
import EarleyTree.Proofs.Parsing.Run
import EarleyTree.Proofs.Parsing.Sentential

/-!
The chart of a parse without an old tree recognises just what the grammar derives.
-/
namespace EarleyTree

variable {t : Tables} {us : Array InputUnit} {k : Nat} {item : Item}

/-- In terms of sentential forms: the first steps derive the units behind the origin, and the start
symbol derives those before it, the symbol on the left and anything after it. -/
theorem Item.sound_iff_derives (hk : k ≤ us.size) : item.Sound t us k ↔
    item.production < t.productions.size ∧ item.dot ≤ (t.steps item.production).length ∧
      item.origin ≤ k ∧
      Derives t ((t.steps item.production).take item.dot) (letters us item.origin k) ∧
      ∃ y, Derives t [{ symbol := t.start }]
        (letters us 0 item.origin ++ .symbol (t.lhs item.production) :: y) := by
  constructor
  · intro h
    have ho := h.origin_le
    exact ⟨h.production, h.dot, ho, (exists_covers_iff ho hk).1 h.covers,
      (reaches_iff (ho.trans hk)).1 h.reaches⟩
  · rintro ⟨hp, hd, ho, hc, hr⟩
    exact ⟨hp, hd, (exists_covers_iff ho hk).2 hc, (reaches_iff (ho.trans hk)).2 hr⟩

namespace Chart

variable {c : Chart}

/-- The input is accepted just if the rule that the start symbol stands for derives it. -/
theorem accepts_iff (ht : t.WellFormed) {p : Nat} {rule : Symbol} (hsize : c.earlier.size = us.size)
    (hc : ∀ item, item ∈ c.setAt us.size ↔ item.Sound t us us.size)
    (hp : t.productionsOf t.start = [p]) (hs : t.steps p = [{ symbol := rule }]) :
    c.accepts t = true ↔ ∃ f : Forest, f.Covers t us [{ symbol := rule }] 0 us.size := by
  have hlhs : p < t.productions.size ∧ t.lhs p = t.start :=
    ht.mem_productionsOf.1 (by rw [hp]; exact List.mem_singleton_self p)
  rw [← hsize, setAt_index, hsize] at hc
  rw [accepts, ItemSet.completes_iff]
  constructor
  · rintro ⟨⟨q, d, o⟩, hi, ho, hcomp, hl⟩
    have hsound := (hc _).1 hi
    obtain rfl : o = 0 := ho
    obtain rfl : q = p := by
      have hm := ht.mem_productionsOf.2 ⟨hsound.production, hl⟩
      rwa [hp, List.mem_singleton] at hm
    obtain ⟨f, hf⟩ := hsound.covers
    rw [List.take_of_length_le (Item.isComplete_iff_le.1 hcomp)] at hf
    exact ⟨f, hs ▸ hf⟩
  · rintro ⟨f, hf⟩
    refine ⟨⟨p, 1, 0⟩, (hc _).2 ⟨hlhs.1, by simp [hs], ⟨f, by simpa [hs] using hf⟩, ?_⟩, rfl, ?_,
      hlhs.2⟩
    · exact hlhs.2 ▸ .start
    · exact Item.isComplete_iff_le.2 (by simp [hs])

end Chart

theorem Derivation.steps_startRule {x : Derivation} {p : Nat} {rule : Symbol}
    (hp : x.tables.productionsOf x.tables.start = [p])
    (hs : x.tables.steps p = [{ symbol := rule }]) : x.startRule = rule := by
  simp [startRule, hp, hs]

namespace ParseState

variable {p : ParseInput} {st st' : ParseState}

theorem reading_chart_of_fresh (hr : p.reusable = []) (st : ParseState) :
    (st.reading p).chart = st.chart.close p.tables [] := by
  have hc : (st.candidates p).1 = [] := by simp [candidates, hr]
  have hs : st.suppressed p = [] := by rw [suppressed, hc, List.map_nil]
  rw [reading, hs, List.isEmpty_nil, if_pos rfl, (opened_frame st).1, hs]

theorem Ends.units_eq_tokens (ht : p.tables.WellFormed) (hr : p.reusable = []) (h : Ends p st) :
    ∀ u ∈ st.units, ∃ t, u = .token t := by
  intro u hu
  have hkind := (h.consistent ht).kinds u hu
  cases u with
  | token t => exact ⟨t, rfl⟩
  | reused t => exact absurd (hr ▸ hkind.2) List.not_mem_nil

theorem Visits.exact (ht : p.tables.WellFormed) (hr : p.reusable = []) (h : Visits p st) :
    st.chart.Exact p.tables st.units := by
  induction h with
  | initial => exact .initial ht
  | @step st st' _ hs ih =>
      have hm : Moves p st (.more st') := hs ▸ step_moves ht st
      have hclose := reading_chart_of_fresh hr st
      cases hm with
      | @reused t _ hc =>
          have hmem := candidates_subset st t hc
          rw [hr] at hmem
          cases hmem
      | @shifted t _ hk hscan hu =>
          rw [hclose] at hscan
          rw [hu]
          exact .scan (u := .token t) (ih.toSound.close ht []) (fun hk => (ih.mem_close_iff ht hk).2)
            hscan
      | skipped hc hu =>
          rw [hc, hu, hclose]
          exact ih.close ht

theorem Ends.mem_iff (ht : p.tables.WellFormed) (hr : p.reusable = []) (h : Ends p st)
    (hk : k ≤ st.units.size) : item ∈ st.chart.setAt k ↔ item.Sound p.tables st.units k := by
  obtain ⟨st₁, hv, hs⟩ := h
  have hm : Moves p st₁ (.finished st) := hs ▸ step_moves ht st₁
  cases hm with
  | finished hc hu =>
      rw [hc, reading_chart_of_fresh hr]
      rw [hu] at hk ⊢
      exact (hv.exact ht hr).mem_close_iff ht hk

/-- Along a parse without an old tree the units are tokens, and a closed set holds an item just if
the first steps of its production derive the tokens behind its origin and the start symbol derives
the tokens before it with the symbol on the left next. -/
theorem Visits.recognises {g : Grammar} {scanner : Option Scanner} {handle era : Nat} {l : Language}
    {text : List Char} {st : ParseState} (hl : Language.compile g scanner handle = .ok l)
    (hv : Visits (.fresh l text era) st) :
    (∀ u ∈ st.units, ∃ token, u = .token token) ∧
      (∀ k ≤ st.units.size, ∀ p d o, (⟨p, d, o⟩ : Item) ∈ (st.chart.close l.tables []).setAt k ↔
        p < l.tables.productions.size ∧ d ≤ (l.tables.steps p).length ∧ o ≤ k ∧
          Derives l.tables ((l.tables.steps p).take d) (letters st.units o k) ∧
          ∃ y, Derives l.tables [{ symbol := l.tables.start }]
            (letters st.units 0 o ++ .symbol (l.tables.lhs p) :: y)) ∧
      ((st.chart.close l.tables []).accepts l.tables = true ↔
        Derives l.tables [{ symbol := (st.derivation (.fresh l text era)).startRule }]
          (letters st.units 0 st.units.size)) ∧
      ∀ st', st.step (.fresh l text era) = .finished st' →
        st'.chart = st.chart.close l.tables [] ∧ st'.units = st.units := by
  have ht : (ParseInput.fresh l text era).tables.WellFormed := Language.compile_wellFormed hl
  have hexact := hv.exact ht rfl
  have hclosed : ∀ {k}, k ≤ st.units.size → ∀ item,
      item ∈ (st.chart.close l.tables []).setAt k ↔ item.Sound l.tables st.units k :=
    fun hk item => hexact.mem_close_iff ht hk
  refine ⟨fun u hu => ?_, fun k hk p d o => ?_, ?_, fun st' hs => ?_⟩
  · have hkind := (hv.consistent ht).kinds u hu
    cases u with
    | token token => exact ⟨token, rfl⟩
    | reused t => exact absurd hkind.2 List.not_mem_nil
  · exact (hclosed hk _).trans (Item.sound_iff_derives hk)
  · obtain ⟨p, rule, hp, hs⟩ := ht.start
    rw [Derivation.steps_startRule (x := st.derivation (.fresh l text era)) hp hs,
      ← exists_covers_iff (Nat.zero_le _) le_rfl]
    exact Chart.accepts_iff ht hexact.size (hclosed le_rfl) hp hs
  · have hm : Moves (.fresh l text era) st (.finished st') := hs ▸ step_moves ht st
    cases hm with
    | finished hc hu => exact ⟨hc.trans (reading_chart_of_fresh rfl st), hu⟩

/-- Any number of letters, one after the other, by left recursion from nothing. -/
def letterRow : Grammar :=
  ({ name := "row" } : Grammar).define "row" (.oneOf [.empty, .seq [.ref "row", .literal "a"]])

/-- A grammar compiles, and where the parse of a text ends a test succeeds. -/
def endsWith (g : Grammar) (scanner : Option Scanner) (text : List Char)
    (test : Language → ParseState → Bool) : Bool :=
  match Language.compile g scanner 0 with
  | .error _ => false
  | .ok l => ((initial (.fresh l text 0)).runFor (.fresh l text 0) (Text.byteLength text + 1)).any
      (test l)

theorem exists_of_endsWith {g : Grammar} {scanner : Option Scanner} {text : List Char}
    {test : Language → ParseState → Bool} (h : endsWith g scanner text test = true) :
    ∃ l st, Language.compile g scanner 0 = .ok l ∧ Ends (.fresh l text 0) st ∧
      test l st = true := by
  rw [endsWith] at h
  split at h
  · cases h
  · next l hl =>
      obtain ⟨st, hst, ht⟩ := (Option.any_eq_true _ _).1 h
      exact ⟨l, st, hl, ends_of_runFor hst, ht⟩

theorem recognises_letterRow : ∃ l st, Language.compile letterRow none 0 = .ok l ∧
    Visits (.fresh l ['a', 'a'] 0) st ∧ st.units.size = 2 ∧
    Derives l.tables [{ symbol := (st.derivation (.fresh l ['a', 'a'] 0)).startRule }]
      (letters st.units 0 2) := by
  obtain ⟨l, st', hl, ⟨st, hv, hs⟩, htest⟩ := exists_of_endsWith
    (show endsWith letterRow none ['a', 'a'] (fun l st =>
        st.units.size == 2 && st.chart.accepts l.tables) = true by decide +kernel)
  rw [Bool.and_eq_true, beq_iff_eq] at htest
  obtain ⟨-, -, haccepts, hfin⟩ := hv.recognises hl
  obtain ⟨hchart, hunits⟩ := hfin st' hs
  rw [hchart, hunits] at htest
  have h := haccepts.1 htest.2
  rw [htest.1] at h
  exact ⟨l, st, hl, hv, htest.1, h⟩

end ParseState

end EarleyTree

import EarleyTree.Proofs.Language.Integrity
import EarleyTree.Proofs.Parsing.Errors
import EarleyTree.Proofs.Parsing.TokenLeaves

/-!
What is kept from standing before a token: at a place that bears the mark of an immediate token, in
whatever derivation of a text without errors, each token begins where the one before it ends.
-/
namespace EarleyTree

/-- A unit, and whether it was derived at a place before which there are no extras. -/
structure Marked where
  unit : InputUnit
  immediate : Bool

/-- The rules derive the units from a row of places, and each unit bears the mark of its place. -/
inductive Grammar.Generates (g : Grammar) (v : Vocabulary) : List Place → List Marked → Prop
  | nil : Generates g v [] []
  | unit {a : Place} {as : List Place} {u : InputUnit} {ms : List Marked} (hu : u.symbol = a.symbol)
      (h : Generates g v as ms) : Generates g v (a :: as) (⟨u, a.immediate⟩ :: ms)
  | rule {a : Place} {as row : List Place} {name : String} {rule : Rule} {ms ns : List Marked}
      (hr : g.rules.find? name = some rule) (hsyntactic : rule.isLexical = false)
      (ha : v.name? name = some a.symbol) (hrow : row ∈ rule.places v name)
      (hm : Generates g v row ms) (h : Generates g v as ns) : Generates g v (a :: as) (ms ++ ns)

namespace Grammar

variable {g : Grammar} {v : Vocabulary} {as bs : List Place} {ms ns : List Marked}

theorem Generates.append (hm : g.Generates v as ms) (hn : g.Generates v bs ns) :
    g.Generates v (as ++ bs) (ms ++ ns) := by
  induction hm with
  | nil => exact hn
  | unit hu _ ih => exact .unit hu ih
  | rule hr hs ha hrow hm _ _ ih =>
      rw [List.append_assoc]
      exact .rule hr hs ha hrow hm ih

end Grammar

section

variable {g : Grammar} {v : Vocabulary} {t : Tables} {us : Array InputUnit} {s : Symbol}

theorem Tables.not_auxiliary_of_isTerminal (h : t.isTerminal s = true) : t.isAuxiliary s = false := by
  obtain ⟨info, hi, hk⟩ := (Option.any_eq_true _ _).1 h
  rw [isAuxiliary, hi, Option.any_some]
  rw [SymbolInfo.isTerminal] at hk
  cases hkind : info.kind <;> simp_all

/-- A name stands for no auxiliary symbol. -/
theorem Grammar.Speaks.not_auxiliary {name : String} (hv : g.Speaks v t)
    (hs : v.name? name = some s) : t.isAuxiliary s = false := by
  obtain ⟨info, hi, -, ⟨hk, -⟩ | ⟨rule, -, hk⟩⟩ := hv.names hs
  · rw [Tables.isAuxiliary, hi, Option.any_some, hk]
    rfl
  · rw [Tables.isAuxiliary, hi, Option.any_some, hk]
    split <;> rfl

theorem Tables.Follows.exists_rule (hf : t.Follows g v) (hv : g.Speaks v t) (ht : t.Intact)
    {p : Production} (hp : p ∈ t.productions) (ha : t.isAuxiliary p.lhs = false) :
    ∃ name rule, g.rules.find? name = some rule ∧ rule.isLexical = false ∧
      v.name? name = some p.lhs ∧ t.places p.lhs = rule.places v name := by
  obtain ⟨name, rule, hr, hs⟩ := (hf.named p hp).resolve_left (Bool.eq_false_iff.1 ha)
  obtain ⟨info, hi, hn⟩ := (Option.any_eq_true _ _).1 (ht.lhs p hp)
  obtain ⟨info', hi', -, hk⟩ := hv.names hs
  obtain rfl : info = info' := Option.some.inj (hi.symm.trans hi')
  rw [SymbolInfo.isNonterminal] at hn
  obtain ⟨hk, -⟩ | ⟨rule', hr', hk⟩ := hk
  · rw [hk] at hn
    cases hn
  · obtain rfl : rule = rule' := Option.some.inj (hr.symm.trans hr')
    cases hlexical : rule.isLexical with
    | true =>
        rw [hk, hlexical] at hn
        cases hn
    | false =>
        refine ⟨name, rule, hr, hlexical, hs, hf.places hr hs ?_⟩
        rw [hi, Option.map_some, hk, hlexical]
        rfl

theorem Tables.exists_production {p : Nat} (hp : p < t.productions.size) :
    ∃ q ∈ t.productions, t.lhs p = q.lhs ∧ t.steps p = q.steps := by
  refine ⟨t.productions[p], Array.getElem_mem hp, ?_, ?_⟩
  · rw [lhs, Array.getElem?_eq_getElem hp]
    rfl
  · rw [steps, Array.getElem?_eq_getElem hp]
    rfl

/-- What the rules derive from a row of places, and how the steps of a derivation tree come to it. -/
structure Grammar.Reads (g : Grammar) (v : Vocabulary) (t : Tables) (us : Array InputUnit) (f : Forest)
    (ss : List Step) (i j : Nat) (ms : List Marked) : Prop where
  generates : ∃ w, t.Unfolds (Step.places ss) w ∧ g.Generates v w ms
  units : ms.map Marked.unit ++ us.toList.drop j = us.toList.drop i
  marks : ms.map Marked.immediate = (f.uses t ss).map Step.immediate
  free : ∀ m ∈ ms, m.immediate = true →
    m.unit.afterExtra = false ∧ t.kind? m.unit.symbol = some .terminal

/-- The induction is on the tree: a constituent of an auxiliary symbol is a part of the row around it,
one of a rule derives from a row of its own. -/
theorem Forest.Covers.exists_reads (hv : g.Speaks v t) (hfollows : t.Follows g v) (ht : t.Intact)
    (hus : ∀ u ∈ us, t.isTerminal u.symbol = true) {f : Forest} {ss : List Step} {i j : Nat}
    (hf : f.Covers t us ss i j)
    (hss : ∀ s ∈ ss, s.immediate = true → t.kind? s.symbol = some .terminal) :
    ∃ ms, g.Reads v t us f ss i j ms := by
  induction hf with
  | nil i =>
      exact ⟨[], ⟨[], .nil, .nil⟩, rfl, rfl, fun m hm => absurd hm List.not_mem_nil⟩
  | @unit f s ss u i j hu hs hf ih =>
      obtain ⟨hfirst, hss⟩ := List.forall_mem_cons.1 hss
      obtain ⟨ms, ⟨w, hw, hg⟩, hunits, hmarks, hfree⟩ := ih hss
      have hplain : t.isAuxiliary s.symbol = false :=
        t.not_auxiliary_of_isTerminal (hs.1 ▸ hus u (Array.mem_of_getElem? hu))
      refine ⟨⟨u, s.immediate⟩ :: ms, ⟨s.place :: w, .keep hplain hw, .unit hs.1.symm hg⟩, ?_, ?_, ?_⟩
      · obtain ⟨hlt, rfl⟩ := Array.getElem?_eq_some_iff.1 hu
        rw [List.map_cons, List.cons_append, hunits, ← Array.getElem_toList, List.getElem_cons_drop]
      · rw [List.map_cons, hmarks, Forest.uses, List.map_cons]
      · refine List.forall_mem_cons.2 ⟨fun himmediate => ?_, hfree⟩
        have hafter := hs.2
        rw [not_and, Bool.not_eq_true] at hafter
        exact ⟨hafter himmediate, hs.1 ▸ hfirst himmediate⟩
  | @expand p f h s ss i k j hp hl hf hh ihf ihh =>
      obtain ⟨q, hq, hlhs, hsteps⟩ := t.exists_production hp
      rw [hsteps] at ihf
      obtain ⟨ms, ⟨x, hx, hgx⟩, hunits, hmarks, hfree⟩ := ihf (ht.immediate q hq)
      obtain ⟨ns, ⟨w, hw, hgw⟩, hunits', hmarks', hfree'⟩ := ihh (List.forall_mem_cons.1 hss).2
      refine ⟨ms ++ ns, ?_, ?_, ?_, List.forall_mem_append.2 ⟨hfree, hfree'⟩⟩
      · have hsymbol : s.place.symbol = q.lhs := hl.symm.trans hlhs
        cases ha : t.isAuxiliary q.lhs with
        | true => exact ⟨x ++ w, .expand hq ha hsymbol hx hw, hgx.append hgw⟩
        | false =>
            obtain ⟨name, rule, hr, hlexical, hname, hplaces⟩ := hfollows.exists_rule hv ht hq ha
            have hrow : x ∈ rule.places v name := hplaces ▸ ⟨q, hq, rfl, hx⟩
            exact ⟨s.place :: w, .keep (hsymbol ▸ ha) hw,
              .rule hr hlexical (hsymbol ▸ hname) hrow hgx hgw⟩
      · rw [List.map_append, List.append_assoc, hunits', hunits]
      · rw [List.map_append, hmarks, hmarks', Forest.uses, hsteps, List.map_append]

end

namespace ParseState

variable {p : ParseInput} {st : ParseState} {es before : List Event} {t : Token}

/-- The unit begins where the one right before it ended, or the text begins. -/
inductive Adjoins : List Event → InputUnit → Prop
  | first {u : InputUnit} (h : u.start = 0) : Adjoins [] u
  | next {es : List Event} {u v : InputUnit} (h : u.start = v.stop) : Adjoins (es ++ [.unit v]) u

/-- Each terminal that was lexed without anything passed over before it adjoins what came before. -/
def Tight (p : ParseInput) (es : List Event) : Prop :=
  ∀ before t, before ++ [.unit (.token t)] <+: es → t.afterExtra = false →
    p.tables.kind? t.symbol = some .terminal → Adjoins before (.token t)

theorem prefix_of_extras {u : InputUnit} {extras : List Token}
    (h : before ++ [.unit u] <+: es ++ extras.map .extra) : before ++ [.unit u] <+: es := by
  induction extras using List.reverseRecOn with
  | nil => rwa [List.map_nil, List.append_nil] at h
  | append_singleton extras t ih =>
      rw [List.map_append, ← List.append_assoc, List.map_singleton, List.prefix_concat_iff] at h
      obtain h | h := h
      · cases (List.append_inj' h rfl).2
      · exact ih h

theorem taken_start (hx : ∀ s ∈ p.tables.externals, p.tables.kind? s = some .external)
    (h : st.taken p = some (.unit (.token t))) (hafter : t.afterExtra = false)
    (hk : p.tables.kind? t.symbol = some .terminal) : st.passed p = [] ∧ t.start = st.position := by
  have hnext := taken_next h (.inl rfl)
  obtain ⟨hflag, hfound⟩ := nextToken_eq_some hnext
  have hleading := (@Lexer.skipFrom_afterExtra p.lexer
    ((st.chart.close p.tables (st.suppressed p)).current.expectedTerminals p.tables).contains
    (Text.byteLength p.lexer.text + 1) (st.candidates p).2 st.position).2 (hflag.symm.trans hafter)
  have hposition : (st.reading p).position = st.position := by
    rw [reading_position]
    exact congrArg Leading.offset hleading
  refine ⟨congrArg Leading.extras hleading, ?_⟩
  rw [← hposition]
  obtain ⟨-, saved, hfound⟩ | herror := hfound
  · cases hfound with
    | external hscan hsymbol =>
        rw [hsymbol, hx _ (Lexer.scanExternal_mem hscan)] at hk
        cases hk
    | matched _ _ _ hstart => exact hstart
  · exact (Lexer.errorToken_eq_some herror).2.1

theorem Traces.position (h : Traces p st es) (hskip : es.filterMap Event.skip? = []) :
    (es = [] ∧ st.position = 0) ∨ ∃ es' u, es = es' ++ [.unit u] ∧ st.position = u.stop := by
  cases h with
  | initial => exact .inl ⟨rfl, rfl⟩
  | @more st _ es h hs =>
      have hleads := step_leads (p := p) st
      rw [hs] at hleads
      cases hleads with
      | unit ht _ hp =>
          refine .inr ⟨es ++ (st.passed p).map .extra, _, ?_, hp⟩
          rw [events, ht, List.append_assoc]
          rfl
      | skip ht => simp [events, ht] at hskip

theorem Traces.tight_events (hx : ∀ s ∈ p.tables.externals, p.tables.kind? s = some .external)
    (h : Traces p st es) (hskip : es.filterMap Event.skip? = []) (ht : Tight p es) :
    Tight p (es ++ st.events p) := by
  intro before t hbefore hafter hk
  rw [events, ← List.append_assoc] at hbefore
  cases htaken : st.taken p with
  | none =>
      rw [htaken, Option.toList_none, List.append_nil] at hbefore
      exact ht before t (prefix_of_extras hbefore) hafter hk
  | some e =>
      rw [htaken, Option.toList_some, List.prefix_concat_iff] at hbefore
      obtain heq | hbefore := hbefore
      · obtain ⟨rfl, he⟩ := List.append_inj' heq rfl
        obtain rfl := List.singleton_inj.1 he
        obtain ⟨hpassed, hstart⟩ := taken_start hx htaken hafter hk
        rw [hpassed, List.map_nil, List.append_nil]
        obtain ⟨rfl, hp⟩ | ⟨es', u, rfl, hp⟩ := h.position hskip
        · exact .first (hstart.trans hp)
        · exact .next (hstart.trans hp)
      · exact ht before t (prefix_of_extras hbefore) hafter hk

theorem Traces.tight (hx : ∀ s ∈ p.tables.externals, p.tables.kind? s = some .external)
    (h : Traces p st es) (hskip : es.filterMap Event.skip? = []) : Tight p es := by
  induction h with
  | initial => exact fun before t hbefore => absurd (List.prefix_nil.1 hbefore) (by simp)
  | more h _ ih =>
      rw [List.filterMap_append, List.append_eq_nil_iff] at hskip
      exact h.tight_events hx hskip.1 (ih hskip.1)

theorem EndsWith.tight (hx : ∀ s ∈ p.tables.externals, p.tables.kind? s = some .external)
    (h : EndsWith p st es) (hskip : es.filterMap Event.skip? = []) : Tight p es := by
  obtain ⟨st₁, es₁, h, -, rfl⟩ := h
  rw [List.filterMap_append, List.append_eq_nil_iff] at hskip
  exact h.tight_events hx hskip.1 (h.tight hx hskip.1)

/-- The rules derive the units of a parse as the tree does, and each unit that bears a mark adjoins
what came before it. -/
structure Observes (g : Grammar) (v : Vocabulary) (p : ParseInput) (st : ParseState)
    (es : List Event) (f : Forest) (ms : List Marked) : Prop where
  generates : ∃ name s, g.startRule? = some name ∧ v.name? name = some s ∧
    g.Generates v [⟨s, false⟩] ms
  units : ms.map Marked.unit = es.filterMap Event.unit?
  marks : ms.map Marked.immediate =
    (f.uses p.tables [{ symbol := (st.derivation p).startRule }]).map Step.immediate
  adjoins : ∀ before u m, before ++ [.unit u] <+: es →
    ms[(before.filterMap Event.unit?).length]? = some m → m.immediate = true → Adjoins before u

theorem Ends.exists_observes {g : Grammar} {v : Vocabulary} (hv : g.Speaks v p.tables)
    (hfollows : p.tables.Follows g v) (ht : p.tables.WellFormed) (hin : p.tables.Intact)
    (hx : ∀ s ∈ p.tables.externals, p.tables.kind? s = some .external) (hr : p.reusable = [])
    (h : Ends p st) (hes : EndsWith p st es) (hskip : es.filterMap Event.skip? = []) {f : Forest}
    (hf : (st.derivation p).Parses f) : ∃ ms, Observes g v p st es f ms := by
  have htoken := h.units_eq_tokens ht hr
  have hterminal : ∀ u ∈ st.units, p.tables.isTerminal u.symbol = true := by
    intro u hu
    obtain ⟨t, rfl⟩ := htoken u hu
    exact (h.consistent ht).kinds _ hu
  obtain ⟨ms, ⟨w, hw, hg⟩, hunits, hmarks, hfree⟩ := Forest.Covers.exists_reads hv hfollows hin
    hterminal hf (List.forall_mem_singleton.2 Bool.noConfusion)
  have hunits : ms.map Marked.unit = es.filterMap Event.unit? := by
    rw [← hes.units_eq, ← List.drop_zero (l := st.units.toList), ← hunits]
    simp [ParseState.derivation]
  refine ⟨ms, ?_, hunits, hmarks, ?_⟩
  · obtain ⟨name, rule, hstart, hname, i, hi, hsteps⟩ := hfollows.start
    have hrule : (st.derivation p).startRule = rule :=
      Derivation.steps_startRule (x := st.derivation p) hi hsteps
    rw [hrule] at hw
    refine ⟨name, rule, hstart, hname, ?_⟩
    rwa [(Tables.Unfolds.plain_iff (a := ⟨rule, false⟩) (hv.not_auxiliary hname)).1 hw] at hg
  · intro before u m hbefore hm himmediate
    obtain ⟨after, rfl⟩ := hbefore
    have hu : u = m.unit := by
      have hget : (ms.map Marked.unit)[(before.filterMap Event.unit?).length]? = some m.unit := by
        rw [List.getElem?_map, hm]
        rfl
      rw [hunits] at hget
      simpa using hget
    subst hu
    obtain ⟨hafter, hk⟩ := hfree m (List.mem_of_getElem? hm) himmediate
    have hmem : m.unit ∈ st.units.toList := by
      rw [hes.units_eq, ← hunits]
      exact List.mem_map_of_mem (List.mem_of_getElem? hm)
    obtain ⟨t, ht⟩ := htoken m.unit (Array.mem_toList_iff.1 hmem)
    rw [ht] at hafter hk ⊢
    exact hes.tight hx hskip before t ⟨after, by rw [ht]⟩ hafter hk

end ParseState

namespace Language

open ParseState

/-- In a text without errors no token is preceded by extras that stands at a place where the rules ask
for an immediate token: in any derivation of the text it begins where the token before it ends. -/
theorem parse_adjoins {g : Grammar} {scanner : Option Scanner} {handle : Nat} {l : Language}
    (hl : Language.compile g scanner handle = .ok l) : ∃ v : Vocabulary, g.Speaks v l.tables ∧
      ∀ text era order, (l.parse text none era order).root.hasError = false → ∃ st es,
        (ParseInput.fresh l text era).final? = some st ∧ EndsWith (.fresh l text era) st es ∧
        es.filterMap Event.skip? = [] ∧
        (∃ root f, (st.derivation (.fresh l text era)).Parses f ∧
          (l.parse text none era order).root = st.finish (.fresh l text era) root ∧
          root.skeleton = (st.derivation (.fresh l text era)).rootImage
            ((st.derivation (.fresh l text era)).shown f)) ∧
        ∀ f, (st.derivation (.fresh l text era)).Parses f →
          ∃ ms, Observes g v (.fresh l text era) st es f ms := by
  have htables := Language.tables_of_compile hl
  obtain ⟨v, hv, hfollows⟩ := Grammar.exists_follows htables
  refine ⟨v, hv, fun text era order herror => ?_⟩
  have ht : (ParseInput.fresh l text era).tables.WellFormed := Language.compile_wellFormed hl
  obtain ⟨st, hends⟩ : ∃ st, Ends (.fresh l text era) st :=
    exists_ends_of_hasError_eq_false ht order herror
  obtain ⟨es, hes⟩ := hends.exists_endsWith
  rw [hends.parse_none] at herror ⊢
  obtain ⟨hskip, root, m, hacc, htree⟩ := (hes.hasError_tree (Language.compile_closed hl) ht
    (fun t hm => absurd hm List.not_mem_nil) order).1 herror
  obtain ⟨f, hf, hroot⟩ := hends.exists_parses ht (fun t hm => absurd hm List.not_mem_nil) hacc
  exact ⟨st, es, final?_eq_some.2 hends, hes, hskip, ⟨root, f, hf, htree, hroot⟩, fun f hf =>
    hends.exists_observes (p := .fresh l text era) hv hfollows ht (Grammar.intact_of_tables htables)
      (Grammar.externals_kind htables) rfl hes hskip hf⟩

/-- Digits right behind a letter and behind commas; blanks may only stand before the commas. -/
def digitRow : Grammar :=
  ({ name := "digitRow" } : Grammar).define "digitRow"
    (.seq [.literal "a", .labelled "first" (.ranked 1 (.immediate (.regex "[0-9]"))),
      .many (.seq [.literal ",", .immediate (.regex "[0-9]")])])

theorem parse_adjoins_digitRow : ∃ l v st es f ms, Language.compile digitRow none 0 = .ok l ∧
    digitRow.Speaks v l.tables ∧
    (l.parse ['a', '1', ' ', ',', '2'] none 0).root.hasError = false ∧
    EndsWith (.fresh l ['a', '1', ' ', ',', '2'] 0) st es ∧
    (st.derivation (.fresh l ['a', '1', ' ', ',', '2'] 0)).Parses f ∧
    Observes digitRow v (.fresh l ['a', '1', ' ', ',', '2'] 0) st es f ms ∧
    ms.map Marked.immediate = [false, true, false, true] := by
  let f : Forest := .expand 3 (.unit (.unit (.expand 1 (.unit (.unit .nil)) .nil))) .nil
  obtain ⟨l, st, hl, hends, htest⟩ := exists_of_endsWith
    (show endsWith digitRow none ['a', '1', ' ', ',', '2'] (fun l st =>
        let x := st.derivation (.fresh l ['a', '1', ' ', ',', '2'] 0)
        (st.tree (.fresh l ['a', '1', ' ', ',', '2'] 0) .entered).hasError == false &&
          decide (f.Covers x.tables x.units [{ symbol := x.startRule }] 0 x.units.size) &&
          (f.uses l.tables [{ symbol := x.startRule }]).map Step.immediate ==
            [false, true, false, true]) = true by decide +kernel)
  simp only [Bool.and_eq_true, beq_iff_eq, decide_eq_true_iff] at htest
  obtain ⟨⟨herror, hf⟩, hmarks⟩ := htest
  obtain ⟨v, hv, h⟩ := parse_adjoins hl
  rw [← hends.root_parse_none] at herror
  obtain ⟨st', es, hst', hes, -, -, h⟩ := h ['a', '1', ' ', ',', '2'] 0 .entered herror
  obtain rfl := hends.unique (final?_eq_some.1 hst')
  obtain ⟨ms, hms⟩ := h f hf
  exact ⟨l, v, st, es, f, ms, hl, hv, herror, hes, hf, hms, hms.marks.trans hmarks⟩

/-- The immediate token is a rule of its own here. -/
def namedDigit : Grammar :=
  (({ name := "namedDigit" } : Grammar).define "namedDigit" (.seq [.literal "a", .ref "digit"])).define
    "digit" (.immediate (.regex "[0-9]"))

/-- A name takes the mark away: the digit is taken over behind a blank. -/
theorem not_adjoins_namedDigit : ∃ l st es before u,
    Language.compile namedDigit none 0 = .ok l ∧
    (l.parse ['a', ' ', '1'] none 0).root.hasError = false ∧
    EndsWith (.fresh l ['a', ' ', '1'] 0) st es ∧ before ++ [.unit u] <+: es ∧
    l.tables.symbols[u.symbol]?.map (·.name) = some "digit" ∧
    namedDigit.rules.find? "digit" = some (.immediate (.regex "[0-9]")) ∧ ¬Adjoins before u := by
  obtain ⟨l, st, hl, hends, htest⟩ := exists_of_endsWith
    (show endsWith namedDigit none ['a', ' ', '1'] (fun l st =>
        (st.tree (.fresh l ['a', ' ', '1'] 0) .entered).hasError == false &&
          st.units.toList.any (fun u => u.start == 2 &&
            l.tables.symbols[u.symbol]?.map (·.name) == some "digit") &&
          st.units.toList.all fun v => v.stop != 2) = true by decide +kernel)
  simp only [Bool.and_eq_true, beq_iff_eq, List.any_eq_true, List.all_eq_true, bne_iff_ne] at htest
  obtain ⟨⟨herror, u, hu, hstart, hname⟩, hstop⟩ := htest
  rw [← hends.root_parse_none] at herror
  obtain ⟨es, hes⟩ := hends.exists_endsWith
  rw [hes.units_eq] at hu hstop
  obtain ⟨e, he, hunit⟩ := List.mem_filterMap.1 hu
  obtain rfl : e = .unit u := by
    cases e with
    | unit u' => exact congrArg Event.unit (Option.some.inj hunit)
    | extra | skip => cases hunit
  obtain ⟨before, after, rfl⟩ := List.append_of_mem he
  refine ⟨l, st, _, before, u, hl, herror, hes, ⟨after, by simp⟩, hname, rfl, ?_⟩
  intro h
  cases h with
  | first hzero => exact absurd (hstart.symm.trans hzero) (by decide)
  | @next es' _ v hv =>
      refine hstop v (List.mem_filterMap.2 ⟨.unit v, by simp, rfl⟩) ?_
      exact hv.symm.trans hstart

end Language

end EarleyTree

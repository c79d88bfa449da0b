import EarleyTree.Proofs.Language.Kinds
import Mathlib.Data.List.Basic

/-!
What all compiled tables have in common: the index by left-hand sides is complete, the start symbol
has one production, and tokens and productions are of the right kinds.
-/
namespace EarleyTree

open Compile

structure Tables.WellFormed (t : Tables) : Prop where
  mem_productionsOf : ∀ {s p}, p ∈ t.productionsOf s ↔ p < t.productions.size ∧ t.lhs p = s
  isNonterminal_lhs : ∀ {p}, p < t.productions.size → t.isNonterminal (t.lhs p)
  nullable : t.nullable = nullableSymbols t.symbols.size t.productions
  start : ∃ p rule, t.productionsOf t.start = [p] ∧ t.steps p = [{ symbol := rule }]
  lexTokens : ∀ token ∈ t.lexTokens, t.isTerminal token.symbol
  externals : ∀ s ∈ t.externals, t.isTerminal s
  keywords : ∀ e ∈ t.keywords, t.isTerminal e.2

/-- The symbol that the start symbol stands for. -/
def Tables.StartsWith (t : Tables) (rule : Symbol) : Prop :=
  ∃ p, t.productionsOf t.start = [p] ∧ t.steps p = [{ symbol := rule }]

theorem Tables.WellFormed.isNonterminal_of_mem {t : Tables} (h : t.WellFormed) :
    ∀ p ∈ t.productions, t.isNonterminal p.lhs = true := by
  intro p hp
  obtain ⟨i, hi, rfl⟩ := Array.mem_iff_getElem.1 hp
  have hn := h.isNonterminal_lhs hi
  rwa [lhs, Array.getElem?_eq_getElem hi] at hn

theorem Tables.not_isTerminal {t : Tables} {s : Symbol} (h : t.isNonterminal s = true) :
    t.isTerminal s = false := by
  obtain ⟨info, hi, hn⟩ := (Option.any_eq_true _ _).1 h
  rw [isTerminal, hi, Option.any_some, SymbolInfo.isTerminal]
  rw [SymbolInfo.isNonterminal] at hn
  cases hk : info.kind <;> simp_all

namespace Grammar

variable (g : Grammar)

theorem declareExternals_ensures :
    Ensures (fun _ => True) g.declareExternals (fun ss d => ∀ s ∈ ss, d.isTerminal s) := by
  rw [declareExternals]
  induction g.externalNames with
  | nil => exact .of_pure fun _ _ s h => by simp at h
  | cons name names ih =>
      rw [List.mapM_cons]
      have hs : Ensures (fun _ => True)
          (do let s ← pushSymbol name .external (!isHiddenName name) (!isHiddenName name)
              bindName name s
              return s) (fun s d => d.isTerminal s) := by
        refine .bind (pushTerminal_ensures _ _ _ (.inr rfl)) fun s => ?_
        exact .bind ((bindName_ensures name s).keep (stable_isTerminal s)) fun _ =>
          .of_pure fun _ h => h.2
      refine .bind hs fun s => .bind (ih.keep (stable_isTerminal s)) fun ss => ?_
      refine .of_pure fun d hd s' hm => ?_
      rcases List.mem_cons.1 hm with rfl | hm
      · exact hd.2
      · exact hd.1 s' hm

theorem declareRules_ensures : Ensures (fun _ => True) g.declareRules (fun _ _ => True) := by
  refine .forM stable_true fun ⟨name, rule⟩ _ => .of_get fun d hd => ?_
  dsimp only
  split
  · exact .bind ((pushSymbol_ensures _ _ _ _).weaken (fun _ _ => trivial) fun _ _ _ => trivial)
      fun s => bindName_ensures name s
  · exact .of_pure fun _ _ => trivial

theorem defineRules_ensures : Ensures (fun _ => True) g.defineRules (fun _ _ => True) := by
  refine .forM stable_true fun ⟨name, rule⟩ _ => ?_
  refine .bind (symbol_ensures name) fun s => .of_get fun d hd => ?_
  split
  · next hk =>
      have ht : d.isTerminal s := by
        obtain ⟨info, hi, hk⟩ := Option.map_eq_some_iff.1 hk
        simp [Draft.isTerminal, hi, SymbolInfo.isTerminal, hk]
      refine .bind .of_lift fun source => .bind .of_lift fun regex => ?_
      refine (pushLexToken_ensures ⟨s, regex, _, _⟩).forget.weaken ?_ fun _ _ h => h
      rintro d' ⟨⟨⟨-, rfl⟩, -⟩, -⟩
      exact ht
  · next hk =>
      have hn : d.isNonterminal s := by
        obtain ⟨info, hi, hk⟩ := Option.map_eq_some_iff.1 hk
        simp [Draft.isNonterminal, hi, SymbolInfo.isNonterminal, hk]
      refine .bind (((rule.flatten_ensures name).keep (stable_isNonterminal s)).weaken ?_
        fun _ _ h => h.2) fun alternatives => ?_
      · rintro d' ⟨-, rfl⟩
        exact hn
      · exact (Ensures.forM (stable_isNonterminal s) fun a _ =>
          (pushProduction_ensures s a).forget).forget
  · exact .of_pure fun _ _ => trivial

theorem declareStart_eq_ok {d d' : Draft} {start : Symbol} (h : g.declareStart d = .ok (start, d')) :
    d.symbols.size < errorSymbol ∧ ∃ name rule, g.startRule? = some name ∧
      d.byName.lookup name = some rule ∧ start = d.symbols.size ∧ d' = { d with
        symbols := d.symbols.push ⟨"_start", .auxiliary, false, false⟩
        productions := d.productions.push ⟨start, [{ symbol := rule }], 0⟩ } := by
  rw [declareStart] at h
  cases hs : g.startRule? with
  | none => rw [hs] at h; cases h
  | some name =>
      rw [hs] at h
      obtain ⟨rule, d₁, hr, h⟩ := bind_eq_ok h
      obtain ⟨hl, rfl⟩ := symbol_lookup hr
      obtain ⟨s, d₂, hs, h⟩ := bind_eq_ok h
      obtain ⟨_, d₃, hp, h⟩ := bind_eq_ok h
      have hlt : d.symbols.size < errorSymbol := by
        obtain ⟨_, _, hg, hs⟩ := bind_eq_ok hs
        cases hg
        by_contra hge
        rw [if_pos (Nat.not_lt.1 hge)] at hs
        cases hs
      obtain ⟨rfl, rfl⟩ := pushSymbol_eq_ok hs
      cases hp
      cases h
      exact ⟨hlt, name, rule, rfl, hl, rfl, rfl⟩

/-- The drafts that lead to tables, one after each phase of the compilation. -/
theorem exists_phases {t : Tables} {hasScanner : Bool} (h : g.tables hasScanner = .ok t) :
    ∃ d₁ d₂ d₃ d₄ d₅ : Draft, (∃ s, pushSymbol "end" .endMarker false false {} = .ok (s, d₁)) ∧
      g.declareExternals d₁ = .ok (t.externals, d₂) ∧ (∃ u, g.declareRules d₂ = .ok (u, d₃)) ∧
      (∃ u, g.defineRules d₃ = .ok (u, d₄)) ∧ g.declareStart d₄ = .ok (t.start, d₅) ∧
      t.symbols = d₅.symbols ∧ t.productions = d₅.productions ∧
      t.productionsByLhs = groupByLhs d₅.symbols.size d₅.productions ∧
      t.nullable = nullableSymbols d₅.symbols.size d₅.productions ∧
      t.lexTokens = d₅.lexTokens ∧ g.compileKeywords d₅ = .ok (t.word, t.keywords) ∧
      t.fields = d₅.fields ∧ ∃ extras, g.compileExtras d₅ = .ok extras ∧
        t.extraTokens = extras.tokens ∧ t.skip = extras.skip := by
  rw [tables] at h
  simp only [bind, Except.bind] at h
  split at h
  · cases h
  · split at h
    · cases h
    · split at h
      · cases h
      · next _ r hr =>
          split at h
          · cases h
          · split at h
            · cases h
            · next _ extras hx _ kept hk =>
                cases h
                obtain ⟨⟨externals, start⟩, d₅⟩ := r
                obtain ⟨s, d₁, h₁, hr⟩ := bind_eq_ok hr
                obtain ⟨_, d₂, h₂, hr⟩ := bind_eq_ok hr
                obtain ⟨u₃, d₃, h₃, hr⟩ := bind_eq_ok hr
                obtain ⟨u₄, d₄, h₄, hr⟩ := bind_eq_ok hr
                obtain ⟨_, _, h₅, hr⟩ := bind_eq_ok hr
                cases hr
                exact ⟨d₁, d₂, d₃, d₄, d₅, ⟨s, h₁⟩, h₂, ⟨u₃, h₃⟩, ⟨u₄, h₄⟩, h₅, rfl, rfl, rfl, rfl,
                  rfl, hk, rfl, extras, hx, rfl, rfl⟩

/-- The draft from which tables are made, before the start symbol is added and after that. -/
theorem exists_draft {t : Tables} {hasScanner : Bool} (h : g.tables hasScanner = .ok t) :
    ∃ d d' : Draft, d.Valid ∧ (∀ s ∈ t.externals, d.isTerminal s) ∧
      g.declareStart d = .ok (t.start, d') ∧ t.symbols = d'.symbols ∧
      t.productions = d'.productions ∧
      t.productionsByLhs = groupByLhs d'.symbols.size d'.productions ∧
      t.nullable = nullableSymbols d'.symbols.size d'.productions ∧
      t.lexTokens = d'.lexTokens ∧ g.compileKeywords d' = .ok (t.word, t.keywords) := by
  obtain ⟨d₁, d₂, d₃, d₄, d₅, ⟨_, h₁⟩, h₂, ⟨_, h₃⟩, ⟨_, h₄⟩, h₅, hsymbols, hproductions, hindex,
    hnullable, htokens, hkeywords, -⟩ := g.exists_phases h
  have hv : Draft.Valid {} := ⟨by simp, by simp, by simp⟩
  obtain ⟨hv₁, -, -⟩ := pushSymbol_ensures _ _ _ _ _ hv trivial _ _ h₁
  obtain ⟨hv₂, -, hx⟩ := g.declareExternals_ensures _ hv₁ trivial _ _ h₂
  obtain ⟨hv₃, he₃, -⟩ := g.declareRules_ensures _ hv₂ trivial _ _ h₃
  obtain ⟨hv₄, he₄, -⟩ := g.defineRules_ensures _ hv₃ trivial _ _ h₄
  exact ⟨d₄, d₅, hv₄, fun s hs => (he₃.trans he₄).isTerminal (hx s hs), h₅, hsymbols, hproductions,
    hindex, hnullable, htokens, hkeywords⟩

end Grammar

theorem getD_groupByLhs {n : Nat} {productions : Array Production} {s : Symbol} (hs : s < n) :
    (groupByLhs n productions).getD s [] =
      (List.range productions.size).filter fun i => productions[i]?.any (·.lhs == s) := by
  simp [groupByLhs, hs]

theorem mem_getD_groupByLhs {n : Nat} {productions : Array Production} {s : Symbol} {i : Nat}
    (hlt : ∀ p ∈ productions, p.lhs < n) :
    i ∈ (groupByLhs n productions).getD s [] ↔
      i < productions.size ∧ productions[i]?.any (·.lhs == s) := by
  by_cases hs : s < n
  · rw [getD_groupByLhs hs, List.mem_filter, List.mem_range]
  · have hempty : (groupByLhs n productions).getD s [] = [] := by
      simp [groupByLhs, Nat.not_lt.1 hs]
    rw [hempty]
    refine ⟨fun h => by simp at h, fun ⟨hi, h⟩ => ?_⟩
    simp only [Array.getElem?_eq_getElem hi, Option.any_some, beq_iff_eq] at h
    exact absurd (h ▸ hlt _ (Array.getElem_mem hi)) hs

theorem getD_groupByLhs_push {n : Nat} {productions : Array Production} {last : Production}
    (hn : last.lhs < n) (hne : ∀ p ∈ productions, p.lhs ≠ last.lhs) :
    (groupByLhs n (productions.push last)).getD last.lhs [] = [productions.size] := by
  rw [getD_groupByLhs hn, Array.size_push, List.range_succ, List.filter_append,
    List.filter_eq_nil_iff.2, List.nil_append]
  · simp
  · intro i hi
    have hlt := List.mem_range.1 hi
    simp [Array.getElem?_push_lt hlt, hne _ (Array.getElem_mem hlt)]

namespace Grammar

variable (g : Grammar)

/-- The word token, and the literals that it matches up to their end. -/
theorem compileKeywords_eq_ok {d : Draft} {word : Option Symbol} {keywords : List (String × Symbol)}
    (h : g.compileKeywords d = .ok (word, keywords)) : (word = none ∧ keywords = []) ∨
      ∃ token ∈ d.lexTokens, word = some token.symbol ∧ keywords = d.literals.filter fun e =>
        (token.regex.find? e.1.toList).any fun m => m.2 == e.1.utf8ByteSize := by
  rw [compileKeywords] at h
  split at h
  · cases h
    exact .inl ⟨rfl, rfl⟩
  · split at h
    · cases h
    · split at h
      · cases h
      · next word _ _ token ht =>
          cases h
          have hs : token.symbol = word := by simpa using List.find?_some ht
          exact .inr ⟨token, List.mem_of_find?_eq_some ht, congrArg some hs.symm, rfl⟩

theorem compileKeywords_subset {d : Draft} {word : Option Symbol} {keywords : List (String × Symbol)}
    (h : g.compileKeywords d = .ok (word, keywords)) : ∀ e ∈ keywords, e ∈ d.literals := by
  intro e he
  obtain ⟨-, rfl⟩ | ⟨token, -, -, rfl⟩ := g.compileKeywords_eq_ok h
  · cases he
  · exact (List.mem_filter.1 he).1

/-- A word token is one of the tokens. -/
theorem compileKeywords_word {d : Draft} {s : Symbol} {keywords : List (String × Symbol)}
    (h : g.compileKeywords d = .ok (some s, keywords)) : ∃ token ∈ d.lexTokens, token.symbol = s := by
  obtain ⟨hw, -⟩ | ⟨token, ht, hw, -⟩ := g.compileKeywords_eq_ok h
  · cases hw
  · exact ⟨token, ht, (Option.some.inj hw).symm⟩

theorem tables_wellFormed {t : Tables} {hasScanner : Bool} (h : g.tables hasScanner = .ok t) :
    t.WellFormed := by
  obtain ⟨d, d', hv, hx, hs, hsym, hprod, hby, hnull, hlex, hkey⟩ := g.exists_draft h
  obtain ⟨-, -, rule, -, -, hstart, rfl⟩ := g.declareStart_eq_ok hs
  dsimp only at hsym hprod hby hnull hlex
  rw [← hsym, ← hprod] at hby hnull
  have he := extends_push d ⟨"_start", .auxiliary, false, false⟩
  have hterm {s : Symbol} (h : d.isTerminal s) : t.isTerminal s := by
    rw [Tables.isTerminal, hsym]
    exact he.isTerminal h
  have hne : ∀ p ∈ d.productions, p.lhs < t.start := by
    intro p hp
    have hn := hv.productions p hp
    rw [hstart]
    by_contra hge
    rw [Draft.isNonterminal, Array.getElem?_eq_none (Nat.not_lt.1 hge)] at hn
    cases hn
  have hsize : t.symbols.size = t.start + 1 := by rw [hsym, hstart, Array.size_push]
  have hnonterm : ∀ p ∈ t.productions, t.isNonterminal p.lhs := by
    intro p hp
    rw [hprod] at hp
    rw [Tables.isNonterminal, hsym]
    rcases Array.mem_push.1 hp with hp | rfl
    · exact he.isNonterminal (hv.productions p hp)
    · rw [hstart, Array.getElem?_push_size]
      rfl
  have hlt : ∀ p ∈ t.productions, p.lhs < t.symbols.size := by
    intro p hp
    rw [hprod] at hp
    rw [hsize]
    rcases Array.mem_push.1 hp with hp | rfl
    · exact Nat.lt_succ_of_lt (hne p hp)
    · exact Nat.lt_succ_self _
  refine ⟨?_, ?_, hnull, ⟨d.productions.size, rule, ?_, ?_⟩, ?_, ?_, ?_⟩
  · intro s p
    rw [Tables.productionsOf, hby, mem_getD_groupByLhs hlt]
    refine and_congr_right fun hp => ?_
    simp [Tables.lhs, hp]
  · intro p hp
    have hlhs : t.lhs p = t.productions[p].lhs := by simp [Tables.lhs, hp]
    rw [hlhs]
    exact hnonterm _ (Array.getElem_mem hp)
  · rw [Tables.productionsOf, hby, hprod]
    exact getD_groupByLhs_push (by rw [hsize]; exact Nat.lt_succ_self _)
      fun p hp => Nat.ne_of_lt (hne p hp)
  · rw [Tables.steps, hprod, Array.getElem?_push_size]
    rfl
  · rw [hlex]
    exact fun token ht => hterm (hv.lexTokens token ht)
  · exact fun s hs => hterm (hx s hs)
  · exact fun e he => hterm (hv.literals e (g.compileKeywords_subset hkey e he))

end Grammar

theorem Language.eq_of_compile {g : Grammar} {scanner : Option Scanner} {handle : Nat}
    {l : Language} (h : Language.compile g scanner handle = .ok l) :
    g.tables scanner.isSome = .ok l.tables ∧ l.scanner = scanner := by
  rw [Language.compile] at h
  cases ht : g.tables scanner.isSome with
  | error e => rw [ht] at h; cases h
  | ok t =>
      rw [ht] at h
      cases h
      exact ⟨rfl, rfl⟩

theorem Language.tables_of_compile {g : Grammar} {scanner : Option Scanner} {handle : Nat}
    {l : Language} (h : Language.compile g scanner handle = .ok l) :
    g.tables scanner.isSome = .ok l.tables := (eq_of_compile h).1

theorem Language.scanner_of_compile {g : Grammar} {scanner : Option Scanner} {handle : Nat}
    {l : Language} (h : Language.compile g scanner handle = .ok l) : l.scanner = scanner :=
  (eq_of_compile h).2

theorem Language.exists_of_compile_any {g : Grammar} {scanner : Option Scanner} {handle : Nat}
    {test : Language → Bool} (h : (Language.compile g scanner handle).toOption.any test = true) :
    ∃ l, Language.compile g scanner handle = .ok l ∧ test l = true := by
  cases hl : Language.compile g scanner handle with
  | error e => rw [hl] at h; cases h
  | ok l =>
      rw [hl] at h
      exact ⟨l, rfl, h⟩

theorem Language.compile_wellFormed {g : Grammar} {scanner : Option Scanner} {handle : Nat}
    {l : Language} (h : Language.compile g scanner handle = .ok l) : l.tables.WellFormed :=
  g.tables_wellFormed (Language.tables_of_compile h)

end EarleyTree

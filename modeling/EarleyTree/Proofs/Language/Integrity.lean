import EarleyTree.Proofs.Language.Closed
import Mathlib.Data.List.Nodup
import Mathlib.Data.List.Perm.Basic

/-!
Compiled tables can be looked up without checks: all that stands in them is of the right kind, each
terminal has one token, each nonterminal the list of its productions, and each field one name.
-/
namespace EarleyTree

open Compile

variable {symbols : Array SymbolInfo} {s : Symbol}

def terminalsOf (symbols : Array SymbolInfo) : List Symbol :=
  (List.range symbols.size).filter fun s => symbols[s]?.any (·.kind == .terminal)

theorem mem_terminalsOf :
    s ∈ terminalsOf symbols ↔ symbols[s]?.map (·.kind) = some .terminal := by
  rw [terminalsOf, List.mem_filter, List.mem_range]
  constructor
  · rintro ⟨hlt, h⟩
    rw [Array.getElem?_eq_getElem hlt] at h ⊢
    exact congrArg some (beq_iff_eq.1 h)
  · intro h
    obtain ⟨info, hi, hk⟩ := Option.map_eq_some_iff.1 h
    exact ⟨(Array.getElem?_eq_some_iff.1 hi).1, by simp [hi, hk]⟩

theorem nodup_terminalsOf (symbols : Array SymbolInfo) : (terminalsOf symbols).Nodup :=
  List.nodup_range.filter _

theorem terminalsOf_push (symbols : Array SymbolInfo) (info : SymbolInfo) :
    terminalsOf (symbols.push info) =
      terminalsOf symbols ++ if info.kind = .terminal then [symbols.size] else [] := by
  rw [terminalsOf, Array.size_push, List.range_succ, List.filter_append]
  congr 1
  · refine List.filter_congr fun s hs => ?_
    rw [Array.getElem?_push_lt (List.mem_range.1 hs), Array.getElem?_eq_getElem (List.mem_range.1 hs)]
  · by_cases hk : info.kind = .terminal <;> simp [hk]

/-- No auxiliary symbol shows, and rules are named if they show. -/
structure SymbolInfo.Plain (info : SymbolInfo) : Prop where
  auxiliary : info.kind = .auxiliary → info.visible = false
  nonterminal : info.kind = .nonterminal → info.named = info.visible

namespace Draft

/-- What holds of drafts at any time: no two fields have one name, and the symbols are plain. -/
structure Tidy (d : Draft) : Prop where
  fields : d.fields.Nodup
  symbols : ∀ info ∈ d.symbols, info.Plain

/-- The later draft has more symbols and fields, and a token for each new terminal and for those that
it owed one. -/
structure Adds (owed : List Symbol) (d d' : Draft) : Prop where
  symbols : d.Extends d'
  byName : d'.byName = d.byName
  fields : d.fields <+: d'.fields
  tidy : d.Tidy → d'.Tidy
  tokens : ∃ new : List LexToken, d'.lexTokens = d.lexTokens ++ new ∧
    (terminalsOf d'.symbols ++ owed).Perm (terminalsOf d.symbols ++ new.map (·.symbol))

variable {d d₁ d₂ d' f : Draft} {info : SymbolInfo} {owed owed' : List Symbol}

theorem Tidy.push (h : d.Tidy) (hinfo : info.Plain) (hs : d'.symbols = d.symbols.push info)
    (hf : d'.fields = d.fields) : d'.Tidy := by
  refine ⟨hf ▸ h.fields, fun i hi => ?_⟩
  rw [hs] at hi
  obtain hi | rfl := Array.mem_push.1 hi
  · exact h.symbols i hi
  · exact hinfo

theorem Adds.trans (h : Adds owed d d₁) (h' : Adds owed' d₁ d₂) : Adds (owed ++ owed') d d₂ := by
  obtain ⟨new, hl, ht⟩ := h.tokens
  obtain ⟨new', hl', ht'⟩ := h'.tokens
  refine ⟨h.symbols.trans h'.symbols, h'.byName.trans h.byName, h.fields.trans h'.fields,
    fun hd => h'.tidy (h.tidy hd), new ++ new', ?_, ?_⟩
  · rw [hl', hl, List.append_assoc]
  · rw [List.perm_iff_count] at ht ht' ⊢
    intro s
    have hs := ht s
    have hs' := ht' s
    simp only [List.map_append, List.count_append] at hs hs' ⊢
    omega

theorem Adds.of_symbols {new : List LexToken} (hs : d'.symbols = d.symbols)
    (hn : d'.byName = d.byName) (hf : d.fields <+: d'.fields)
    (hd : d.fields.Nodup → d'.fields.Nodup) (hl : d'.lexTokens = d.lexTokens ++ new) :
    Adds (new.map (·.symbol)) d d' :=
  ⟨extends_of_symbols hs, hn, hf, fun h => ⟨hd h.fields, hs ▸ h.symbols⟩, new, hl, by rw [hs]⟩

/-- Where no symbol comes in, no token does, and no field. -/
theorem Adds.of_same (hs : d'.symbols = d.symbols) (hn : d'.byName = d.byName)
    (hf : d'.fields = d.fields) (hl : d'.lexTokens = d.lexTokens) : Adds [] d d' :=
  .of_symbols hs hn (hf ▸ List.prefix_refl _) (hf ▸ id) (hl.trans (List.append_nil _).symm)

theorem Adds.refl (d : Draft) : Adds [] d d := .of_same rfl rfl rfl rfl

/-- One symbol more, and its token if it is a terminal. -/
theorem Adds.of_push {new : List LexToken} (hs : d'.symbols = d.symbols.push info)
    (hinfo : info.Plain) (hn : d'.byName = d.byName)
    (hf : d'.fields = d.fields) (hl : d'.lexTokens = d.lexTokens ++ new)
    (hnew : new.map (·.symbol) = if info.kind = .terminal then [d.symbols.size] else []) :
    Adds [] d d' := by
  refine ⟨?_, hn, hf ▸ List.prefix_refl _, fun h => h.push hinfo hs hf, new, hl, ?_⟩
  · intro s i hi
    rw [hs]
    exact extends_push d info s i hi
  · rw [hs, terminalsOf_push, hnew, List.append_nil]

theorem Adds.emit (h : Adds owed d d') (ps : List Production) : Adds owed d (d'.emit ps) := by
  have hsame : Adds [] d' (d'.emit ps) := .of_same rfl rfl rfl rfl
  simpa using h.trans hsame

def isSymbol (d : Draft) (s : Symbol) : Bool := d.isTerminal s || d.isNonterminal s

theorem isTerminal_of_terminal (h : d.symbols[s]?.map (·.kind) = some .terminal) :
    d.isTerminal s = true := by
  obtain ⟨info, hi, hk⟩ := Option.map_eq_some_iff.1 h
  simp [isTerminal, hi, SymbolInfo.isTerminal, hk]

/-- The step is over a terminal or a nonterminal of the draft, over a token if nothing may stand
before it, and its field has a name. -/
structure Fits (f : Draft) (step : Step) : Prop where
  symbol : f.isSymbol step.symbol = true
  field : ∀ id ∈ step.field, 1 ≤ id ∧ id ≤ f.fields.length
  immediate : step.immediate = true → f.symbols[step.symbol]?.map (·.kind) = some .terminal

theorem Fits.of_isSymbol (h : f.isSymbol s = true) : f.Fits { symbol := s } := ⟨h, nofun, nofun⟩

theorem Fits.of_terminal (h : f.symbols[s]?.map (·.kind) = some .terminal) (immediate : Bool) :
    f.Fits { symbol := s, immediate } :=
  ⟨by rw [isSymbol, isTerminal_of_terminal h, Bool.true_or], nofun, fun _ => h⟩

/-- What the draft has bound fits a later one, and so do the steps of its productions. -/
structure Sound (d f : Draft) : Prop where
  names : ∀ e ∈ d.byName, f.isSymbol e.2 = true
  literals : ∀ e ∈ d.literals, f.symbols[e.2]?.map (·.kind) = some .terminal
  inlineTokens : ∀ e ∈ d.inlineTokens, f.symbols[e.2]?.map (·.kind) = some .terminal
  productions : ∀ p ∈ d.productions, ∀ step ∈ p.steps, f.Fits step

end Draft

namespace Compile

variable {α β : Type} {f : Draft}

/-- The action adds to a draft, and what it makes and returns is right with regard to every draft
that has grown from what it leaves behind. -/
def Fills (f : Draft) (m : Compile α) (Q : α → Prop) : Prop :=
  ∀ d a d', m d = .ok (a, d') → Draft.Adds [] d d' ∧
    (d'.Extends f → d'.fields <+: f.fields → d.Sound f → d'.Sound f ∧ Q a)

namespace Fills

variable {m : Compile α} {Q Q' : α → Prop} {R : β → Prop}

theorem pure {a : α} (h : Q a) : Fills f (Pure.pure a) Q := by
  rintro d _ _ ⟨⟩
  exact ⟨.refl d, fun _ _ hd => ⟨hd, h⟩⟩

theorem throw {e : CompileError} : Fills f (throw e) Q := by
  intro _ _ _ h
  cases h

theorem bind {k : α → Compile β} (hm : Fills f m Q) (hk : ∀ a, Fills f (k a) fun b => Q a → R b) :
    Fills f (m >>= k) R := by
  intro d b d' h
  obtain ⟨a, d₁, h₁, h₂⟩ := bind_eq_ok h
  obtain ⟨ha₁, hd₁⟩ := hm d a d₁ h₁
  obtain ⟨ha₂, hd₂⟩ := hk a d₁ b d' h₂
  refine ⟨ha₁.trans ha₂, fun he hf hd => ?_⟩
  obtain ⟨hs₁, hq⟩ := hd₁ (ha₂.symbols.trans he) (ha₂.fields.trans hf) hd
  obtain ⟨hs₂, hr⟩ := hd₂ he hf hs₁
  exact ⟨hs₂, hr hq⟩

theorem weaken (hm : Fills f m Q) (h : ∀ a, Q a → Q' a) : Fills f m Q' := by
  intro d a d' hr
  obtain ⟨ha, hd⟩ := hm d a d' hr
  exact ⟨ha, fun he hf hs => (hd he hf hs).imp_right (h a)⟩

end Fills

theorem symbol_fills (name : String) : Fills f (symbol name) fun s => f.Fits { symbol := s } := by
  intro d s d' h
  obtain ⟨hl, rfl⟩ := symbol_lookup h
  exact ⟨.refl d, fun _ _ hd => ⟨hd, .of_isSymbol (hd.names _ (mem_of_lookup hl))⟩⟩

theorem kind_of_push {d d' : Draft} {info : SymbolInfo} (hs : d'.symbols = d.symbols.push info)
    (he : d'.Extends f) : f.symbols[d.symbols.size]?.map (·.kind) = some info.kind := by
  rw [he d.symbols.size info (by simp [hs])]
  rfl

theorem literal_terminal (text : String) :
    Fills f (literal text) fun s => f.symbols[s]?.map (·.kind) = some .terminal := by
  intro d s d' h
  obtain ⟨hl, rfl⟩ | ⟨-, rfl, regex, -, rfl⟩ := literal_eq_ok h
  · exact ⟨.refl _, fun _ _ hd => ⟨hd, hd.literals _ (mem_of_lookup hl)⟩⟩
  · refine ⟨.of_push rfl ⟨nofun, nofun⟩ rfl rfl rfl rfl, fun he _ hd => ?_⟩
    have hk : f.symbols[d.symbols.size]?.map (·.kind) = some .terminal := kind_of_push rfl he
    exact ⟨⟨hd.1, List.forall_mem_cons.2 ⟨hk, hd.2⟩, hd.3, hd.4⟩, hk⟩

theorem inlineToken_fills (r : Rule) (owner : String) :
    Fills f (inlineToken r owner) fun s => ∀ immediate, f.Fits { symbol := s, immediate } := by
  intro d s d' h
  obtain ⟨text, -, h⟩ | ⟨-, source, -, h⟩ := inlineToken_eq_ok h
  · exact (literal_terminal text).weaken (fun _ => Draft.Fits.of_terminal) d s d' h
  · obtain ⟨hl, rfl⟩ | ⟨-, rfl, name, regex, -, rfl⟩ := h
    · exact ⟨.refl _, fun _ _ hd => ⟨hd, .of_terminal (hd.inlineTokens _ (mem_of_lookup hl))⟩⟩
    · refine ⟨.of_push rfl ⟨nofun, nofun⟩ rfl rfl rfl rfl, fun he _ hd => ?_⟩
      have hk : f.symbols[d.symbols.size]?.map (·.kind) = some .terminal := kind_of_push rfl he
      exact ⟨⟨hd.1, hd.2, List.forall_mem_cons.2 ⟨hk, hd.3⟩, hd.4⟩, .of_terminal hk⟩

theorem fieldId_fills (name : String) : Fills f (fieldId name) fun id =>
    ∀ step, f.Fits step → f.Fits { step with field := step.field.or (some id) } := by
  intro d id d' h
  obtain ⟨rfl, rfl⟩ := fieldId_eq_ok h
  have hmem : name ∈ if name ∈ d.fields then d.fields else d.fields ++ [name] := by
    split
    · assumption
    · simp
  have hindex : d.fields.idxOf name = (if name ∈ d.fields then d.fields else d.fields ++ [name]).idxOf
      name := by
    split
    · rfl
    · next hn => simp [List.idxOf_append, hn]
  refine ⟨@Draft.Adds.of_symbols d _ [] rfl rfl ?_ ?_ (List.append_nil _).symm,
    fun _ hf hd => ⟨⟨hd.1, hd.2, hd.3, hd.4⟩, ?_⟩⟩
  · dsimp only
    split
    · exact List.prefix_refl _
    · exact List.prefix_append _ _
  · intro hd
    dsimp only
    split
    · exact hd
    · next hn => exact List.nodup_append_comm.1 (List.nodup_cons.2 ⟨hn, hd⟩)
  · rintro step ⟨hs, hfield, himm⟩
    refine ⟨hs, ?_, himm⟩
    cases hstep : step.field with
    | some id =>
        rw [Option.some_or, ← hstep]
        exact hfield
    | none =>
        rintro _ ⟨⟩
        rw [hindex]
        exact ⟨Nat.le_add_left 1 _,
          Nat.lt_of_lt_of_le (List.idxOf_lt_length_iff.2 hmem) hf.length_le⟩

theorem newKind_fills (name : String) (named : Bool) : Fills f (newKind name named) fun k =>
    ∀ s, f.Fits { symbol := s } → f.Fits { symbol := s, newKind := some k } := by
  intro d k d' h
  have hk : ∀ s, f.Fits { symbol := s } → f.Fits { symbol := s, newKind := some k } :=
    fun s hs => ⟨hs.symbol, nofun, nofun⟩
  obtain ⟨-, rfl⟩ | ⟨_, -, -, rfl⟩ | ⟨-, rfl⟩ := newKind_eq_ok h
  · exact ⟨.refl _, fun _ _ hd => ⟨hd, hk⟩⟩
  · exact ⟨.of_same rfl rfl rfl rfl, fun _ _ hd => ⟨⟨hd.1, hd.2, hd.3, hd.4⟩, hk⟩⟩
  · exact ⟨.of_push rfl ⟨nofun, nofun⟩ rfl rfl (List.append_nil _).symm rfl,
      fun _ _ hd => ⟨⟨hd.1, hd.2, hd.3, hd.4⟩, hk⟩⟩

theorem declare_fills {body : Compile (List Alternative)} {g : Symbol → Alternative → Compile PUnit}
    (ps : Symbol → Alternative → List Production)
    (hbody : Fills f body fun as => ∀ a ∈ as, a.All f.Fits)
    (hg : ∀ s a u d d', g s a d = .ok (u, d') →
      d' = { d with productions := d.productions ++ (ps s a).toArray })
    (hps : ∀ {s a p}, f.Fits { symbol := s } → a.All f.Fits → p ∈ ps s a →
      ∀ step ∈ p.steps, f.Fits step) (owner what : String) :
    Fills f (do
      let name ← freshName owner what
      let s ← pushSymbol name .auxiliary false false
      (← body).forM (g s)
      return s) fun s => f.Fits { symbol := s } := by
  intro d s d' h
  obtain ⟨rfl, name, as, d₁, has, rfl⟩ := declare_eq_ok hg h
  obtain ⟨ha, hd₁⟩ := hbody _ as d₁ has
  have hpush : Draft.Adds [] d (d.withAuxiliary name) :=
    .of_push rfl ⟨fun _ => rfl, nofun⟩ rfl rfl (List.append_nil _).symm rfl
  refine ⟨(hpush.trans ha).emit _, fun he hf hd => ?_⟩
  obtain ⟨hs₁, has⟩ := hd₁ he hf ⟨hd.1, hd.2, hd.3, hd.4⟩
  have hk := @kind_of_push f d (d.withAuxiliary name) _ rfl (ha.symbols.trans he)
  have hs : f.Fits { symbol := d.symbols.size } := .of_isSymbol (by
    obtain ⟨info, hi, hk⟩ := Option.map_eq_some_iff.1 hk
    simp [Draft.isSymbol, Draft.isNonterminal, hi, SymbolInfo.isNonterminal, hk])
  refine ⟨⟨hs₁.1, hs₁.2, hs₁.3, fun p hp => ?_⟩, hs⟩
  obtain hp | hp := Draft.mem_emit.1 hp
  · exact hs₁.productions p hp
  · obtain ⟨a, ham, hp⟩ := List.mem_flatMap.1 hp
    exact hps hs (has a ham) hp

theorem stepLogic_fills (f : Draft) : StepLogic (fun m Q => Fills f m Q) f.Fits where
  pure := .pure
  throw := .throw
  bind := .bind
  weaken := .weaken
  symbol := symbol_fills
  literal text := (literal_terminal text).weaken fun _ hs => .of_terminal hs false
  inlineToken := inlineToken_fills
  fieldId := fieldId_fills
  newKind := newKind_fills
  auxiliary owner what hb :=
    declare_fills (fun s a => [plainProduction s a]) hb (fun _ _ _ _ _ => pushProduction_eq_ok)
      (fun _ ha hp => List.mem_singleton.1 hp ▸ ha) owner what
  repetition owner hb :=
    declare_fills loopProductions hb (fun _ _ _ _ _ => pushLoop_eq_ok)
      Alternative.All.loopProductions owner "repeat"

end Compile

/-- The induction is on the length: the rest of the list is filtered before it is gone through. -/
theorem nodup_eraseDups {α : Type} [BEq α] [LawfulBEq α] : (l : List α) → l.eraseDups.Nodup
  | [] => List.nodup_nil
  | a :: l => by
    rw [List.eraseDups_cons, List.nodup_cons]
    exact ⟨by simp, nodup_eraseDups _⟩
termination_by l => l.length
decreasing_by exact Nat.lt_succ_of_le (List.length_filter_le _ _)

namespace Draft

variable {d d₁ d₂ d' : Draft} {name : String} {info : SymbolInfo} {rules : List (String × Rule)}

/-- Names have been given to new symbols, and nothing else has happened. -/
structure Declared (d d' : Draft) : Prop where
  symbols : d.Extends d'
  tidy : d.Tidy → d'.Tidy
  rest : { d' with symbols := #[], byName := [] } = { d with symbols := #[], byName := [] }

theorem Declared.refl (d : Draft) : d.Declared d := ⟨.refl d, id, rfl⟩

theorem Declared.trans (h : d.Declared d₁) (h' : d₁.Declared d₂) : d.Declared d₂ :=
  ⟨h.symbols.trans h'.symbols, fun hd => h'.tidy (h.tidy hd), h'.rest.trans h.rest⟩

theorem Declared.bindName (d : Draft) (name : String) (hinfo : info.Plain) :
    d.Declared { d with
      symbols := d.symbols.push info, byName := (name, d.symbols.size) :: d.byName } :=
  ⟨extends_push d info, fun h => h.push hinfo rfl rfl, rfl⟩

/-- The terminal that a rule is, if its name stands for one. -/
def terminal? (d : Draft) (name : String) : Option Symbol :=
  (d.byName.lookup name).filter fun s => d.symbols[s]?.any (·.kind == .terminal)

theorem terminal?_eq (hl : d.byName.lookup name = some s) (hi : d.symbols[s]? = some info) :
    d.terminal? name = if info.kind = .terminal then some s else none := by
  by_cases hk : info.kind = .terminal <;> simp [terminal?, hl, hi, hk, Option.filter]

def terminals (d : Draft) (rules : List (String × Rule)) : List Symbol :=
  rules.filterMap fun e => d.terminal? e.1

theorem terminals_cons (d : Draft) (e : String × Rule) (rules : List (String × Rule)) :
    d.terminals (e :: rules) = (d.terminal? e.1).toList ++ d.terminals rules := by
  cases h : d.terminal? e.1 <;> simp [terminals, h]

theorem terminals_eq
    (hb : ∀ e ∈ rules, ∃ s info, d.byName.lookup e.1 = some s ∧ d.symbols[s]? = some info)
    (he : d.Extends d') (hn : d'.byName = d.byName) : d'.terminals rules = d.terminals rules := by
  refine List.filterMap_congr fun e hm => ?_
  obtain ⟨s, info, hl, hi⟩ := hb e hm
  rw [terminal?_eq hl hi, terminal?_eq (hn ▸ hl) (he s info hi)]

end Draft

namespace Grammar

variable {g : Grammar} {t : Tables} {f d d' : Draft} {u : PUnit}

theorem nodup_orderedNames (g : Grammar) : g.orderedNames.Nodup := by
  refine List.nodup_append'.2 ⟨nodup_eraseDups _, ?_, fun n hr hn => ?_⟩
  · exact (sortNames_perm _).nodup_iff.2 (g.rules.nodup.filter _)
  · have hn := (List.mem_filter.1 ((sortNames_perm _).mem_iff.1 hn)).2
    simp [hr] at hn

theorem nodup_orderedRules (g : Grammar) : (g.orderedRules.map Prod.fst).Nodup := by
  rw [orderedRules, List.map_filterMap]
  refine g.nodup_orderedNames.filterMap fun n n' m hm hm' => ?_
  obtain ⟨rule, -, rfl⟩ := Option.map_eq_some_iff.1 (Option.map_map .. ▸ hm)
  obtain ⟨rule', -, he⟩ := Option.map_eq_some_iff.1 (Option.map_map .. ▸ hm')
  exact he.symm

theorem declareExternals_declared {names : List String} {ss : List Symbol}
    (h : names.mapM declareExternal d = .ok (ss, d')) : d.Declared d' ∧
      terminalsOf d'.symbols = terminalsOf d.symbols ∧
      (∀ s ∈ ss, d'.symbols[s]?.map (·.kind) = some .external) ∧
      ∀ e ∈ d'.byName, e ∈ d.byName ∨ d'.symbols[e.2]?.map (·.kind) = some .external := by
  induction names generalizing d ss with
  | nil =>
      cases h
      exact ⟨.refl _, rfl, fun s hs => absurd hs List.not_mem_nil, fun e he => .inl he⟩
  | cons name names ih =>
      rw [List.mapM_cons] at h
      obtain ⟨_, d₁, h₁, h⟩ := bind_eq_ok h
      obtain ⟨_, d₂, h₂, h⟩ := bind_eq_ok h
      cases h
      obtain ⟨rfl, rfl⟩ := declareExternal_eq_ok h₁
      obtain ⟨hd, ht, hss, hx⟩ := ih h₂
      have hk : d'.symbols[d.symbols.size]?.map (·.kind) = some .external :=
        hd.symbols.kind (by simp)
      refine ⟨(Draft.Declared.bindName _ name (by exact ⟨nofun, nofun⟩)).trans hd, ?_,
        List.forall_mem_cons.2 ⟨hk, hss⟩, fun e he => ?_⟩
      · rw [ht, terminalsOf_push, if_neg nofun, List.append_nil]
      · obtain he | hk' := hx e he
        · obtain rfl | he := List.mem_cons.1 he
          · exact .inr hk
          · exact .inl he
        · exact .inr hk'

/-- A rule of a name that an external has already makes no terminal. -/
theorem declareRules_declared {rules : List (String × Rule)}
    (hn : (rules.map Prod.fst).Nodup)
    (hx : ∀ e ∈ rules, ∀ s, d.byName.lookup e.1 = some s →
      d.symbols[s]?.map (·.kind) = some .external)
    (h : rules.forM declareRule d = .ok (u, d')) : d.Declared d' ∧
      (∀ {name s}, d.byName.lookup name = some s → d'.byName.lookup name = some s) ∧
      terminalsOf d'.symbols = terminalsOf d.symbols ++ d'.terminals rules := by
  induction rules generalizing d with
  | nil =>
      cases h
      exact ⟨.refl _, id, (List.append_nil _).symm⟩
  | cons e rules ih =>
      obtain ⟨name, rule⟩ := e
      obtain ⟨hne, hn⟩ := List.nodup_cons.1 hn
      obtain ⟨_, d₁, h₁, h₂⟩ := bind_eq_ok h
      rw [Draft.terminals_cons, ← List.append_assoc]
      obtain ⟨hl, rfl⟩ | ⟨hl, rfl⟩ := declareRule_eq_ok h₁
      · obtain ⟨hd, hkeep, ht⟩ := ih hn (fun e he => hx e (List.mem_cons_of_mem _ he)) h₂
        refine ⟨hd, hkeep, ?_⟩
        obtain ⟨s, hs⟩ := Option.isSome_iff_exists.1 hl
        obtain ⟨info, hi, hk⟩ := Option.map_eq_some_iff.1 (hx _ List.mem_cons_self s hs)
        rw [ht, Draft.terminal?_eq (hkeep hs) (hd.symbols s info hi), hk]
        simp
      · have hrest (info : SymbolInfo) : ∀ e ∈ rules, ∀ s,
            ((name, d.symbols.size) :: d.byName).lookup e.1 = some s →
              (d.symbols.push info)[s]?.map (·.kind) = some .external := by
          intro e he s hs
          have hne' : e.1 ≠ name := fun he' => hne (List.mem_map.2 ⟨e, he, he'⟩)
          rw [List.lookup_cons, beq_false_of_ne hne'] at hs
          exact (extends_push d info).kind (hx e (List.mem_cons_of_mem _ he) s hs)
        obtain ⟨hd, hkeep, ht⟩ := ih hn (hrest _) h₂
        refine ⟨(Draft.Declared.bindName _ name ⟨by split <;> nofun, fun _ => rfl⟩).trans hd,
          fun hs => ?_, ?_⟩
        · exact hkeep (lookup_cons_of_lookup hl hs)
        · rw [ht, terminalsOf_push, Draft.terminal?_eq (hkeep List.lookup_cons_self)
            (hd.symbols _ _ Array.getElem?_push_size)]
          split <;> rfl

theorem defineRule_fills {name : String} {rule : Rule} {info : SymbolInfo}
    (hl : d.byName.lookup name = some s) (hi : d.symbols[s]? = some info)
    (h : defineRule (name, rule) d = .ok (u, d')) : Draft.Adds (d.terminal? name).toList d d' ∧
      (d'.Extends f → d'.fields <+: f.fields → d.Sound f → d'.Sound f) := by
  obtain ⟨s', hl', ⟨hk, as, d₁, has, rfl⟩ | ⟨hk, tokens, htokens, rfl⟩⟩ := defineRule_eq_ok h
  all_goals
    obtain rfl : s = s' := Option.some.inj (hl.symm.trans hl')
    rw [hi, Option.map_some] at hk
    rw [Draft.terminal?_eq hl hi]
  · rw [if_neg (by rw [Option.some.inj hk]; nofun)]
    obtain ⟨hadds, hsound⟩ := (stepLogic_fills f).flatten name rule d as d₁ has
    refine ⟨hadds.emit _, fun he hf hd => ?_⟩
    obtain ⟨hd₁, has⟩ := hsound he hf hd
    refine ⟨hd₁.1, hd₁.2, hd₁.3, fun p hp => ?_⟩
    obtain hp | ⟨a, ha, rfl⟩ := Draft.mem_pushProductions.1 hp
    · exact hd₁.productions p hp
    · exact has a ha
  · simp only [hi, Option.map_some, Option.some_inj] at htokens
    have hown : (if info.kind = .terminal then some s else none).toList = tokens.map (·.symbol) := by
      rw [htokens]
      split <;> rfl
    rw [hown]
    exact ⟨.of_symbols rfl rfl (List.prefix_refl _) id rfl,
      fun _ _ hd => ⟨hd.1, hd.2, hd.3, hd.4⟩⟩

theorem defineRules_fills {rules : List (String × Rule)}
    (hb : ∀ e ∈ rules, ∃ s info, d.byName.lookup e.1 = some s ∧ d.symbols[s]? = some info)
    (h : rules.forM defineRule d = .ok (u, d')) : Draft.Adds (d.terminals rules) d d' ∧
      (d'.Extends f → d'.fields <+: f.fields → d.Sound f → d'.Sound f) := by
  induction rules generalizing d with
  | nil =>
      cases h
      exact ⟨.refl _, fun _ _ hd => hd⟩
  | cons e rules ih =>
      obtain ⟨name, rule⟩ := e
      obtain ⟨⟨s, info, hl, hi⟩, hb⟩ := List.forall_mem_cons.1 hb
      obtain ⟨_, d₁, h₁, h₂⟩ := bind_eq_ok h
      obtain ⟨hadds, hsound⟩ := defineRule_fills (f := f) hl hi h₁
      have hb₁ : ∀ e ∈ rules, ∃ s info, d₁.byName.lookup e.1 = some s ∧ d₁.symbols[s]? = some info := by
        intro e he
        obtain ⟨s, info, hl, hi⟩ := hb e he
        exact ⟨s, info, hadds.byName ▸ hl, hadds.symbols s info hi⟩
      obtain ⟨hadds', hsound'⟩ := ih hb₁ h₂
      rw [Draft.terminals_cons, ← Draft.terminals_eq hb hadds.symbols hadds.byName]
      exact ⟨hadds.trans hadds', fun he hf hd =>
        hsound' he hf (hsound (hadds'.symbols.trans he) (hadds'.fields.trans hf) hd)⟩

/-- The draft from which tables are made, before the start symbol is added. -/
theorem exists_sound {hasScanner : Bool} (h : g.tables hasScanner = .ok t) : ∃ d d' : Draft,
    d.Tidy ∧ (d.lexTokens.map (·.symbol)).Perm (terminalsOf d.symbols) ∧ d.Sound d ∧
      (∀ s ∈ t.externals, d.symbols[s]?.map (·.kind) = some .external) ∧
      g.declareStart d = .ok (t.start, d') ∧ t.symbols = d'.symbols ∧
      t.productions = d'.productions ∧ t.lexTokens = d'.lexTokens ∧ t.fields = d'.fields ∧
      g.compileKeywords d' = .ok (t.word, t.keywords) ∧
      ∃ extras, g.compileExtras d' = .ok extras ∧ t.extraTokens = extras.tokens := by
  obtain ⟨d₁, d₂, d₃, d₄, d₅, ⟨_, h₁⟩, h₂, ⟨_, h₃⟩, ⟨_, h₄⟩, h₅, hsymbols, hproductions, -, -,
    htokens, hkeywords, hfields, extras, hextras, hextra, -⟩ := g.exists_phases h
  obtain ⟨names, hdeclares, hnames⟩ := exists_declares h₁ h₂ h₃
  obtain ⟨-, rfl⟩ := pushSymbol_eq_ok h₁
  rw [declareExternals_eq] at h₂
  rw [declareRules_eq] at h₃
  rw [defineRules_eq] at h₄
  obtain ⟨hd₂, ht₂, hexternals, hx⟩ := declareExternals_declared h₂
  obtain ⟨hd₃, -, ht₃⟩ := declareRules_declared g.nodup_orderedRules
    (fun e _ s hs => (hx _ (mem_of_lookup hs)).resolve_left List.not_mem_nil) h₃
  have hrest := (hd₂.trans hd₃).rest
  have hbound : ∀ e ∈ g.orderedRules, ∃ s info,
      d₃.byName.lookup e.1 = some s ∧ d₃.symbols[s]? = some info := by
    intro e he
    have hname := hnames e.1 (.inr (by rw [g.mem_orderedRules.1 he]; rfl))
    obtain ⟨s, hs⟩ := Option.isSome_iff_exists.1 (hdeclares.bound _ hname)
    obtain ⟨info, hi, -⟩ := hdeclares.binds.names _ (mem_of_lookup hs)
    exact ⟨s, info, hs, hi⟩
  obtain ⟨hadds, hsound⟩ := defineRules_fills (f := d₄) hbound h₄
  have hsound₃ : d₃.Sound d₄ := by
    refine ⟨fun e he => ?_, ?_, ?_, ?_⟩
    · obtain ⟨info, hi, -, hk⟩ := hdeclares.binds.names e he
      have hi := hadds.symbols _ info hi
      obtain ⟨hk, -⟩ | ⟨rule, -, hk⟩ := hk
      · simp [Draft.isSymbol, Draft.isTerminal, hi, SymbolInfo.isTerminal, hk]
      · split at hk <;> simp [Draft.isSymbol, Draft.isTerminal, Draft.isNonterminal, hi,
          SymbolInfo.isTerminal, SymbolInfo.isNonterminal, hk]
    · rw [show d₃.literals = [] from congrArg Draft.literals hrest]
      exact fun _ he => absurd he List.not_mem_nil
    · rw [show d₃.inlineTokens = [] from congrArg Draft.inlineTokens hrest]
      exact fun _ he => absurd he List.not_mem_nil
    · rw [hdeclares.productions]
      exact fun _ hp => absurd hp (Array.not_mem_empty _)
  refine ⟨d₄, d₅, hadds.tidy (hd₃.tidy (hd₂.tidy ⟨List.nodup_nil, ?_⟩)), ?_,
    hsound (.refl _) (List.prefix_refl _) hsound₃, fun s hs => ?_, h₅, hsymbols, hproductions,
    htokens, hfields, hkeywords, extras, hextras, hextra⟩
  · intro info hi
    obtain rfl := Array.mem_singleton.1 hi
    constructor <;> intro hk <;> cases hk
  · obtain ⟨new, hl, hperm⟩ := hadds.tokens
    rw [ht₃, ht₂] at hperm
    rw [hl, show d₃.lexTokens = [] from congrArg Draft.lexTokens hrest, List.nil_append]
    have hperm := List.perm_append_comm.trans hperm
    exact ((List.perm_append_left_iff _).1 hperm).symm
  · exact hadds.symbols.kind (hd₃.symbols.kind (hexternals s hs))

end Grammar

namespace Tables

variable (t : Tables)

def kind? (s : Symbol) : Option SymbolKind := t.symbols[s]?.map (·.kind)

variable {t} in
theorem isNonterminal_of_kind? {s : Symbol} (h : t.kind? s = some .nonterminal) :
    t.isNonterminal s = true := by
  obtain ⟨info, hi, hk⟩ := Option.map_eq_some_iff.1 h
  rw [isNonterminal, hi, Option.any_some, SymbolInfo.isNonterminal, hk]
  rfl

/-- The places where a symbol stands in tables. -/
inductive Mentions : Symbol → Prop
  | lhs {p : Production} (hp : p ∈ t.productions) : Mentions p.lhs
  | step {p : Production} {step : Step} (hp : p ∈ t.productions) (hs : step ∈ p.steps) :
      Mentions step.symbol
  | newKind {p : Production} {step : Step} {k : Symbol} (hp : p ∈ t.productions)
      (hs : step ∈ p.steps) (hk : step.newKind = some k) : Mentions k
  | start : Mentions t.start
  | lexToken {token : LexToken} (ht : token ∈ t.lexTokens) : Mentions token.symbol
  | extra {e : Symbol × Option Symbol} (he : e ∈ t.extraTokens) : Mentions e.1
  | wrapper {e : Symbol × Option Symbol} {s : Symbol} (he : e ∈ t.extraTokens)
      (hs : e.2 = some s) : Mentions s
  | external {s : Symbol} (hs : s ∈ t.externals) : Mentions s
  | keyword {e : String × Symbol} (he : e ∈ t.keywords) : Mentions e.2
  | word {s : Symbol} (hs : t.word = some s) : Mentions s

/-- What can be relied on when tables are looked up without checks. -/
structure Intact : Prop where
  size_le : t.symbols.size ≤ errorSymbol
  lt_size : ∀ s, t.Mentions s → s < t.symbols.size
  steps : ∀ p ∈ t.productions, ∀ step ∈ p.steps,
    t.isTerminal step.symbol = true ∨ t.isNonterminal step.symbol = true
  immediate : ∀ p ∈ t.productions, ∀ step ∈ p.steps, step.immediate = true →
    t.kind? step.symbol = some .terminal
  lhs : ∀ p ∈ t.productions, t.isNonterminal p.lhs = true
  nodup_lexTokens : (t.lexTokens.map (·.symbol)).Nodup
  lexTokens : ∀ s, s ∈ t.lexTokens.map (·.symbol) ↔ t.kind? s = some .terminal
  newKinds : ∀ p ∈ t.productions, ∀ step ∈ p.steps, ∀ k ∈ step.newKind, t.isVisible k = true
  nodup_fields : t.fields.Nodup
  fields : ∀ p ∈ t.productions, ∀ step ∈ p.steps, ∀ id ∈ step.field,
    1 ≤ id ∧ id ≤ t.fields.length
  size_index : t.productionsByLhs.size = t.symbols.size
  index : ∀ s, t.productionsOf s = (List.range t.productions.size).filter fun p => t.lhs p == s
  start : t.kind? t.start = some .auxiliary ∧ ∃ p, t.productionsOf t.start = [p]
  start_fresh : ∀ p ∈ t.productions, ∀ step ∈ p.steps, step.symbol ≠ t.start
  auxiliary : ∀ s, t.kind? s = some .auxiliary → t.isVisible s = false
  extras : ∀ e ∈ t.extraTokens, t.isTerminal e.1 = true

end Tables

namespace Grammar

variable {g : Grammar} {t : Tables} {hasScanner : Bool}

theorem productionsByLhs_eq (h : g.tables hasScanner = .ok t) :
    t.productionsByLhs = groupByLhs t.symbols.size t.productions := by
  obtain ⟨d₁, d₂, d₃, d₄, d₅, -, -, -, -, -, hsymbols, hproductions, hindex, -⟩ := g.exists_phases h
  rw [hindex, hsymbols, hproductions]

theorem productionsOf_eq (h : g.tables hasScanner = .ok t) (s : Symbol) :
    t.productionsOf s = (List.range t.productions.size).filter fun p => t.lhs p == s := by
  have hlhs : ∀ p < t.productions.size, t.productions[p]?.any (·.lhs == s) = (t.lhs p == s) :=
    fun p hp => by simp [Tables.lhs, hp]
  rw [Tables.productionsOf, productionsByLhs_eq h]
  by_cases hs : s < t.symbols.size
  · rw [getD_groupByLhs hs]
    exact List.filter_congr fun p hp => hlhs p (List.mem_range.1 hp)
  · rw [List.filter_eq_nil_iff.2, groupByLhs]
    · simp [Nat.not_lt.1 hs]
    · intro p hp heq
      have hn := (g.tables_wellFormed h).isNonterminal_lhs (List.mem_range.1 hp)
      exact hs (beq_iff_eq.1 heq ▸ Tables.lt_size_of_any hn)

theorem extras_terminal (h : g.tables hasScanner = .ok t) :
    ∀ e ∈ t.extraTokens, t.isTerminal e.1 = true := by
  obtain ⟨d, d', -, -, -, -, -, hsymbols, -, -, -, -, extras, hextras, htokens⟩ := exists_sound h
  intro e he
  rw [Tables.isTerminal, hsymbols]
  exact (compileExtras_eq_ok hextras e (htokens ▸ he)).1

theorem externals_kind (h : g.tables hasScanner = .ok t) :
    ∀ s ∈ t.externals, t.kind? s = some .external := by
  obtain ⟨d, d', -, -, -, hexternals, hstart, hsymbols, -⟩ := exists_sound h
  obtain ⟨-, _, _, -, -, -, rfl⟩ := g.declareStart_eq_ok hstart
  intro s hs
  rw [Tables.kind?, hsymbols]
  exact (extends_push d _).kind (hexternals s hs)

theorem keywords_kind (h : g.tables hasScanner = .ok t) :
    ∀ e ∈ t.keywords, t.kind? e.2 = some .terminal := by
  obtain ⟨d, d', -, -, hsound, -, hstart, hsymbols, -, -, -, hkeywords, -⟩ := exists_sound h
  obtain ⟨-, _, _, -, -, -, rfl⟩ := g.declareStart_eq_ok hstart
  intro e he
  rw [Tables.kind?, hsymbols]
  exact (extends_push d _).kind (hsound.literals e (g.compileKeywords_subset hkeywords e he))

theorem mentions_lt (h : g.tables hasScanner = .ok t) (hs : t.Mentions s) : s < t.symbols.size := by
  obtain ⟨d, d', -, -, -, -, -, -, -, htokens, -, hkeywords, -⟩ := exists_sound h
  have hw := g.tables_wellFormed h
  have hc := tables_closed h
  cases hs with
  | lhs hp => exact Tables.lt_size_of_any (hw.isNonterminal_of_mem _ hp)
  | step hp hs => exact (hc.knows _ hp _ hs).symbol
  | newKind hp hs hk => exact Tables.lt_size_of_any ((hc.knows _ hp _ hs).newKind _ hk)
  | start =>
      obtain ⟨p, -, hp, -⟩ := hw.start
      obtain ⟨hlt, hlhs⟩ := hw.mem_productionsOf.1 (hp ▸ List.mem_singleton_self p)
      exact hlhs ▸ Tables.lt_size_of_any (hw.isNonterminal_lhs hlt)
  | lexToken ht => exact Tables.lt_size_of_any (hw.lexTokens _ ht)
  | extra he => exact Tables.lt_size_of_any (extras_terminal h _ he)
  | wrapper he hs => exact hc.wrappers _ he _ hs
  | external hs => exact Tables.lt_size_of_any (hw.externals _ hs)
  | keyword he => exact Tables.lt_size_of_any (hw.keywords _ he)
  | word hs =>
      obtain ⟨token, ht, rfl⟩ := g.compileKeywords_word (hs ▸ hkeywords)
      exact Tables.lt_size_of_any (hw.lexTokens _ (htokens ▸ ht))

theorem tidy_of_tables (h : g.tables hasScanner = .ok t) :
    Draft.Tidy { symbols := t.symbols, fields := t.fields } := by
  obtain ⟨d, d', htidy, -, -, -, hstart, hsymbols, -, -, hfields, -⟩ := exists_sound h
  obtain ⟨-, _, _, -, -, -, rfl⟩ := g.declareStart_eq_ok hstart
  exact htidy.push (by exact ⟨fun _ => rfl, nofun⟩) hsymbols hfields

theorem intact_of_tables (h : g.tables hasScanner = .ok t) : t.Intact := by
  obtain ⟨d, d', -, hperm, hsound, -, hstart, hsymbols, hproductions, htokens, hfields, -⟩ :=
    exists_sound h
  have hw := g.tables_wellFormed h
  have hc := tables_closed h
  obtain ⟨-, name, rule, -, hl, hs, rfl⟩ := g.declareStart_eq_ok hstart
  have hfits : ∀ p ∈ t.productions, ∀ step ∈ p.steps, d.Fits step := by
    intro p hp
    rw [hproductions] at hp
    obtain hp | rfl := Array.mem_push.1 hp
    · exact hsound.productions p hp
    · exact List.forall_mem_singleton.2 (.of_isSymbol (hsound.names _ (mem_of_lookup hl)))
  have he : d.Extends { symbols := t.symbols } := fun s info hi => by
    rw [hsymbols]
    exact extends_push d _ s info hi
  have hterminals : terminalsOf t.symbols = terminalsOf d.symbols := by
    rw [hsymbols, terminalsOf_push, if_neg nofun, List.append_nil]
  have htidy := tidy_of_tables h
  refine ⟨hc.size_le, fun s => mentions_lt h, ?_, ?_, hw.isNonterminal_of_mem, ?_, ?_, ?_,
    htidy.fields, ?_, ?_, productionsOf_eq h, ?_, ?_, ?_, extras_terminal h⟩
  · intro p hp step hm
    exact (Bool.or_eq_true_iff.1 (hfits p hp step hm).symbol).imp he.isTerminal he.isNonterminal
  · exact fun p hp step hm himm => he.kind ((hfits p hp step hm).immediate himm)
  · rw [htokens]
    exact hperm.nodup_iff.2 (nodup_terminalsOf _)
  · intro s
    rw [htokens, Tables.kind?, ← mem_terminalsOf, hterminals]
    exact hperm.mem_iff
  · exact fun p hp step hm => (hc.knows p hp step hm).newKind
  · intro p hp step hm id hid
    rw [hfields]
    exact (hfits p hp step hm).field id hid
  · rw [productionsByLhs_eq h]
    simp [groupByLhs]
  · obtain ⟨p, -, hp, -⟩ := hw.start
    refine ⟨?_, p, hp⟩
    rw [Tables.kind?, hsymbols, hs]
    simp
  · intro p hp step hm heq
    have hsymbol := (hfits p hp step hm).symbol
    rw [heq, hs] at hsymbol
    simp [Draft.isSymbol, Draft.isTerminal, Draft.isNonterminal] at hsymbol
  · intro s hk
    obtain ⟨info, hi, hk⟩ := Option.map_eq_some_iff.1 hk
    rw [Tables.isVisible, hi, Option.any_some]
    exact (htidy.symbols info (Array.mem_of_getElem? hi)).auxiliary hk

end Grammar

/-- Whatever the grammar, the tables that it compiles to can be relied on. -/
theorem Language.tables_intact {g : Grammar} {scanner : Option Scanner} {handle : Nat}
    {l : Language} (h : Language.compile g scanner handle = .ok l) : l.tables.Intact :=
  Grammar.intact_of_tables (Language.tables_of_compile h)

/-- An external, a token by itself and one among the extras, fields, an immediate token, and a
repetition under another name. -/
def mixedGrammar : Grammar :=
  { ({ name := "mixed" } : Grammar).define "sum" (.seq [.labelled "left" (.ref "digit"),
        .many (.seq [.literal "+", .labelled "right" (.immediate (.regex "[0-9]"))]),
        .renamedTo (.many1 (.literal "!")) "bang" true, .ref "newline"])
      |>.define "digit" (.regex "[0-9]") |>.define "note" (.literal "#") with
    extras := some [.regex " ", .ref "note"]
    externals := some [.ref "newline"] }

theorem tables_intact_mixedGrammar : ∃ l,
    Language.compile mixedGrammar (some ⟨fun _ _ _ => none⟩) 0 = .ok l ∧
      l.tables.fields = ["left", "right"] ∧ l.tables.lexTokens.length = 5 ∧ l.tables.Intact := by
  have htest : (Language.compile mixedGrammar (some ⟨fun _ _ _ => none⟩) 0).toOption.any (fun l =>
      l.tables.fields == ["left", "right"] && l.tables.lexTokens.length == 5) = true := by
    decide +kernel
  obtain ⟨l, hl, htest⟩ := Language.exists_of_compile_any htest
  rw [Bool.and_eq_true, beq_iff_eq, beq_iff_eq] at htest
  exact ⟨l, hl, htest.1, htest.2, Language.tables_intact hl⟩

end EarleyTree

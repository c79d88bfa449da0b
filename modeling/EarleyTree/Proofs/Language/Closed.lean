import EarleyTree.Proofs.Language.RuleRows

/-!
Compiled tables speak only of symbols that they have, and nodes are renamed only to visible ones.
-/
namespace EarleyTree

open Compile

theorem Alternative.All.loopProductions {K : Step → Prop} {s : Symbol} {a : Alternative}
    {p : Production} (hs : K { symbol := s }) (ha : a.All K) (hp : p ∈ loopProductions s a) :
    ∀ step ∈ p.steps, K step := by
  rw [EarleyTree.loopProductions] at hp
  split at hp
  · rw [List.mem_singleton.1 hp]
    exact ha
  · obtain rfl | hp := List.mem_cons.1 hp
    · exact List.forall_mem_cons.2 ⟨hs, ha⟩
    · rw [List.mem_singleton.1 hp]
      exact ha

namespace Tables

variable (t : Tables)

/-- The tables have all symbols of the draft. -/
def Holds (d : Draft) : Prop :=
  ∀ (s : Symbol) (info : SymbolInfo), d.symbols[s]? = some info → t.symbols[s]? = some info

structure Knows (step : Step) : Prop where
  symbol : step.symbol < t.symbols.size
  newKind : ∀ k ∈ step.newKind, t.isVisible k = true

/-- Some step has the nodes of the symbol bear another name. -/
def Renames (s : Symbol) : Prop :=
  ∃ p, ∃ step ∈ t.steps p, step.symbol = s ∧ step.newKind.isSome = true

/-- Nodes of the symbol may be shown as the kind. -/
def Labels (s kind : Symbol) : Prop := kind = s ∨ t.Renames s ∧ t.isVisible kind = true

/-- As what kind a node over a symbol is shown: as a step has it, or as the symbol itself where that is
derived outside of any step. -/
inductive Shows : Symbol → Symbol → Prop
  | step {p : Nat} {step : Step} (h : step ∈ t.steps p) :
      Shows step.symbol (step.newKind.getD step.symbol)
  | lhs {p : Nat} (h : p < t.productions.size) : Shows (t.lhs p) (t.lhs p)

def Covers (a : Alternative) : Prop := ∀ step ∈ a.steps, t.Knows step

/-- No number of a symbol is that of errors, and the steps of all productions are known, as are the
rules that wrap extras. -/
structure Closed : Prop where
  size_le : t.symbols.size ≤ errorSymbol
  knows : ∀ p ∈ t.productions, ∀ step ∈ p.steps, t.Knows step
  wrappers : ∀ e ∈ t.extraTokens, ∀ s ∈ e.2, s < t.symbols.size

variable {t} {d d' : Draft} {a b : Alternative} {s : Symbol}

theorem lt_size_of_any {f : SymbolInfo → Bool} (h : t.symbols[s]?.any f = true) :
    s < t.symbols.size := by
  obtain ⟨info, hi, -⟩ := (Option.any_eq_true _ _).1 h
  exact (Array.getElem?_eq_some_iff.1 hi).1

theorem Knows.of_symbol (hs : s < t.symbols.size) : t.Knows { symbol := s } :=
  ⟨hs, fun _ hk => absurd hk (Option.not_mem_none _)⟩

theorem Knows.kind_lt {step : Step} (h : t.Knows step) :
    step.newKind.getD step.symbol < t.symbols.size := by
  cases hk : step.newKind with
  | none => exact h.symbol
  | some k => exact lt_size_of_any (h.newKind k hk)

theorem exists_of_mem_steps {p : Nat} {step : Step} (hs : step ∈ t.steps p) :
    ∃ production ∈ t.productions, step ∈ production.steps := by
  rw [steps] at hs
  cases hp : t.productions[p]? with
  | none => rw [hp] at hs; cases hs
  | some production =>
      rw [hp] at hs
      exact ⟨production, Array.mem_of_getElem? hp, hs⟩

theorem Closed.knows_steps (h : t.Closed) (p : Nat) : ∀ step ∈ t.steps p, t.Knows step := by
  intro step hs
  obtain ⟨production, hp, hs⟩ := exists_of_mem_steps hs
  exact h.knows production hp step hs

theorem Shows.labels {kind : Symbol} (h : t.Shows s kind) (hc : t.Closed) : t.Labels s kind := by
  cases h with
  | @step p step hs =>
      cases hk : step.newKind with
      | none => exact .inl rfl
      | some k =>
          exact .inr ⟨⟨p, step, hs, rfl, hk ▸ rfl⟩, (hc.knows_steps p step hs).newKind k hk⟩
  | lhs _ => exact .inl rfl

theorem StartsWith.lt_size {rule : Symbol} (h : t.StartsWith rule) (hc : t.Closed) :
    rule < t.symbols.size := by
  obtain ⟨p, -, hsteps⟩ := h
  exact (hc.knows_steps p _ (hsteps ▸ List.mem_singleton_self _)).symbol

theorem Closed.ne_errorSymbol (h : t.Closed) (hs : s < t.symbols.size) : s ≠ errorSymbol :=
  Nat.ne_of_lt (Nat.lt_of_lt_of_le hs h.size_le)

theorem Closed.wrapper?_getD_lt (h : t.Closed) (hs : s < t.symbols.size) :
    (t.wrapper? s).getD s < t.symbols.size := by
  cases hw : t.wrapper? s with
  | none => exact hs
  | some w =>
      obtain ⟨before, after, he, -⟩ := List.lookup_eq_some_iff.1 (Option.join_eq_some_iff.1 hw)
      exact h.wrappers _ (he ▸ List.mem_append_right before List.mem_cons_self) w rfl

theorem Holds.of_extends (h : t.Holds d') (he : d.Extends d') : t.Holds d :=
  fun s info hs => h s info (he s info hs)

theorem Holds.lt_size (h : t.Holds d) (hs : s < d.symbols.size) : s < t.symbols.size :=
  (Array.getElem?_eq_some_iff.1 (h s _ (Array.getElem?_eq_getElem hs))).1

theorem covers_single (hs : s < t.symbols.size) : t.Covers (.single s) :=
  List.forall_mem_singleton.2 (.of_symbol hs)

end Tables

/-- What the draft has a symbol for is in the tables. -/
structure Draft.Closed (d : Draft) (t : Tables) : Prop where
  names : ∀ e ∈ d.byName, e.2 < t.symbols.size
  literals : ∀ e ∈ d.literals, e.2 < t.symbols.size
  inlineTokens : ∀ e ∈ d.inlineTokens, e.2 < t.symbols.size
  newKinds : ∀ e ∈ d.newKinds, t.isVisible e.2 = true
  productions : ∀ p ∈ d.productions, ∀ step ∈ p.steps, t.Knows step

theorem Draft.Closed.bindName {d : Draft} {t : Tables} (hc : d.Closed t) (info : SymbolInfo)
    (name : String) (ht : t.Holds { d with
      symbols := d.symbols.push info, byName := (name, d.symbols.size) :: d.byName }) :
    Draft.Closed { d with
      symbols := d.symbols.push info, byName := (name, d.symbols.size) :: d.byName } t :=
  ⟨List.forall_mem_cons.2 ⟨ht.lt_size (by simp), hc.names⟩, hc.2, hc.3, hc.4, hc.5⟩

namespace Compile

/-- The action takes no symbol away, and if the tables have the symbols behind it, they have what the
draft speaks of, and the result is as it should be. -/
def Closes {α : Type} (t : Tables) (m : Compile α) (Q : α → Prop) : Prop :=
  ∀ d a d', m d = .ok (a, d') →
    d.Extends d' ∧ (t.Holds d' → d.Closed t → d'.Closed t ∧ Q a)

namespace Closes

variable {α β : Type} {t : Tables} {m : Compile α} {Q Q' : α → Prop} {R : β → Prop}

theorem pure {a : α} (h : Q a) : Closes t (Pure.pure a) Q := by
  intro d _ _ hr
  cases hr
  exact ⟨.refl d, fun _ hc => ⟨hc, h⟩⟩

theorem throw {e : CompileError} : Closes t (throw e) Q := by
  intro _ _ _ h
  cases h

theorem bind {k : α → Compile β} (hm : Closes t m Q) (hk : ∀ a, Closes t (k a) fun b => Q a → R b) :
    Closes t (m >>= k) R := by
  intro d b d' h
  obtain ⟨a, d₁, h₁, h₂⟩ := bind_eq_ok h
  obtain ⟨he₁, hc₁⟩ := hm d a d₁ h₁
  obtain ⟨he₂, hc₂⟩ := hk a d₁ b d' h₂
  refine ⟨he₁.trans he₂, fun ht hc => ?_⟩
  obtain ⟨hd₁, hq⟩ := hc₁ (ht.of_extends he₂) hc
  obtain ⟨hd', hr⟩ := hc₂ ht hd₁
  exact ⟨hd', hr hq⟩

theorem weaken (hm : Closes t m Q) (h : ∀ a, Q a → Q' a) : Closes t m Q' := by
  intro d a d' hr
  obtain ⟨he, hc⟩ := hm d a d' hr
  exact ⟨he, fun ht hd => (hc ht hd).imp_right (h a)⟩

theorem forM {xs : List β} {f : β → Compile PUnit} (h : ∀ x ∈ xs, Closes t (f x) fun _ => True) :
    Closes t (xs.forM f) fun _ => True := by
  induction xs with
  | nil => exact .pure trivial
  | cons x xs ih =>
      exact .bind (h x List.mem_cons_self) fun _ =>
        (ih fun y hy => h y (List.mem_cons_of_mem x hy)).weaken fun _ _ _ => trivial

end Closes

variable {t : Tables}

theorem symbol_closes (name : String) : Closes t (symbol name) fun s => s < t.symbols.size := by
  intro d s d' h
  obtain ⟨hl, rfl⟩ := symbol_lookup h
  exact ⟨.refl d, fun _ hc => ⟨hc, hc.names _ (mem_of_lookup hl)⟩⟩

theorem fieldId_closes (name : String) : Closes t (fieldId name) fun _ => True := by
  intro d id d' h
  obtain ⟨-, rfl⟩ := fieldId_eq_ok h
  exact ⟨Draft.extends_of_symbols rfl, fun _ hc => ⟨⟨hc.1, hc.2, hc.3, hc.4, hc.5⟩, trivial⟩⟩

theorem newKind_closes (name : String) (named : Bool) :
    Closes t (newKind name named) fun k => t.isVisible k = true := by
  intro d k d' h
  -- the name is noted with a kind that shows, wherever that comes from
  have hnote {d₁ : Draft} (hc : d₁.Closed t) (hk : t.isVisible k = true) :
      Draft.Closed { d₁ with newKinds := ((name, named), k) :: d₁.newKinds } t := by
    refine ⟨hc.1, hc.2, hc.3, fun e hm => ?_, hc.5⟩
    obtain rfl | hm := List.mem_cons.1 hm
    · exact hk
    · exact hc.newKinds e hm
  obtain ⟨hl, rfl⟩ | ⟨info, hi, hvisible, rfl⟩ | ⟨rfl, rfl⟩ := newKind_eq_ok h
  · exact ⟨.refl _, fun _ hc => ⟨hc, hc.newKinds _ (mem_of_lookup hl)⟩⟩
  · refine ⟨Draft.extends_of_symbols rfl, fun ht hc => ?_⟩
    have hk : t.isVisible k = true := by rwa [Tables.isVisible, ht k info hi]
    exact ⟨hnote hc hk, hk⟩
  · refine ⟨extends_push d _, fun ht hc => ?_⟩
    have hk : t.isVisible d.symbols.size = true := by
      rw [Tables.isVisible, ht _ _ Array.getElem?_push_size]
      rfl
    have hc₁ : Draft.Closed { d with symbols := d.symbols.push ⟨name, .nameOnly, named, true⟩ } t :=
      ⟨hc.1, hc.2, hc.3, hc.4, hc.5⟩
    exact ⟨hnote hc₁ hk, hk⟩

theorem literal_closes (text : String) : Closes t (literal text) fun s => s < t.symbols.size := by
  intro d s d' h
  obtain ⟨hl, rfl⟩ | ⟨hl, rfl, regex, hr, rfl⟩ := literal_eq_ok h
  · exact ⟨.refl _, fun _ hc => ⟨hc, hc.literals _ (mem_of_lookup hl)⟩⟩
  · refine ⟨extends_push d _, fun ht hc => ?_⟩
    have hs : d.symbols.size < t.symbols.size := ht.lt_size (by simp)
    refine ⟨⟨hc.1, fun e hm => ?_, hc.3, hc.4, hc.5⟩, hs⟩
    obtain rfl | hm := List.mem_cons.1 hm
    · exact hs
    · exact hc.literals e hm

theorem inlineToken_closes (r : Rule) (owner : String) :
    Closes t (inlineToken r owner) fun s => s < t.symbols.size := by
  intro d s d' h
  obtain ⟨text, -, h⟩ | ⟨-, source, -, h⟩ := inlineToken_eq_ok h
  · exact literal_closes text d s d' h
  · obtain ⟨hl, rfl⟩ | ⟨hl, rfl, name, regex, hr, rfl⟩ := h
    · exact ⟨.refl _, fun _ hc => ⟨hc, hc.inlineTokens _ (mem_of_lookup hl)⟩⟩
    · refine ⟨extends_push d _, fun ht hc => ?_⟩
      have hs : d.symbols.size < t.symbols.size := ht.lt_size (by simp)
      refine ⟨⟨hc.1, hc.2, fun e hm => ?_, hc.4, hc.5⟩, hs⟩
      obtain rfl | hm := List.mem_cons.1 hm
      · exact hs
      · exact hc.inlineTokens e hm

/-- The productions that are emitted for the alternatives of a body are closed if the body is. -/
theorem declare_closes {body : Compile (List Alternative)} {f : Symbol → Alternative → Compile PUnit}
    (ps : Symbol → Alternative → List Production)
    (hbody : Closes t body fun as => ∀ a ∈ as, t.Covers a)
    (hf : ∀ s a u d d', f s a d = .ok (u, d') →
      d' = { d with productions := d.productions ++ (ps s a).toArray })
    (hps : ∀ {s a p}, t.Knows { symbol := s } → t.Covers a → p ∈ ps s a →
      ∀ step ∈ p.steps, t.Knows step)
    (owner what : String) :
    Closes t (do
      let name ← freshName owner what
      let s ← pushSymbol name .auxiliary false false
      (← body).forM (f s)
      return s) fun s => s < t.symbols.size := by
  intro d s d' h
  obtain ⟨rfl, name, as, d₁, has, rfl⟩ := declare_eq_ok hf h
  obtain ⟨he, hc₁⟩ := hbody _ as d₁ has
  refine ⟨(extends_push d _).trans he, fun ht hc => ?_⟩
  obtain ⟨hd₁, hcov⟩ := hc₁ ht ⟨hc.1, hc.2, hc.3, hc.4, hc.5⟩
  have hs : d.symbols.size < t.symbols.size :=
    (Tables.Holds.of_extends ht he).lt_size (by simp [Draft.withAuxiliary])
  refine ⟨⟨hd₁.1, hd₁.2, hd₁.3, hd₁.4, fun p hp => ?_⟩, hs⟩
  obtain hp | hp := Draft.mem_emit.1 hp
  · exact hd₁.productions p hp
  · obtain ⟨a, ha, hp⟩ := List.mem_flatMap.1 hp
    exact hps (.of_symbol hs) (hcov a ha) hp

section

variable {body : Compile (List Alternative)}
  (hbody : Closes t body fun as => ∀ a ∈ as, t.Covers a)

include hbody

theorem auxiliary_closes (owner what : String) :
    Closes t (auxiliary body owner what) fun s => s < t.symbols.size := by
  refine declare_closes (fun s a => [plainProduction s a]) hbody
    (fun _ _ _ _ _ => pushProduction_eq_ok) (fun _ ha hp => ?_) owner what
  rw [List.mem_singleton.1 hp]
  exact ha

theorem repetition_closes (owner : String) :
    Closes t (repetition body owner) fun s => s < t.symbols.size :=
  declare_closes loopProductions hbody (fun _ _ _ _ _ => pushLoop_eq_ok)
    Alternative.All.loopProductions owner "repeat"

end

end Compile

theorem stepLogic_closes (t : Tables) : StepLogic (fun m Q => Closes t m Q) t.Knows where
  pure := .pure
  throw := .throw
  bind := .bind
  weaken := .weaken
  symbol name := (symbol_closes name).weaken fun _ => .of_symbol
  literal text := (literal_closes text).weaken fun _ => .of_symbol
  inlineToken r owner := (inlineToken_closes r owner).weaken fun _ hs _ => ⟨hs, nofun⟩
  fieldId name := (fieldId_closes name).weaken fun _ _ _ hk => ⟨hk.symbol, hk.newKind⟩
  newKind name named := (newKind_closes name named).weaken fun _ hk _ hs =>
    ⟨hs.symbol, fun _ he => Option.some.inj he ▸ hk⟩
  auxiliary owner what hb := (auxiliary_closes hb owner what).weaken fun _ => .of_symbol
  repetition owner hb := (repetition_closes hb owner).weaken fun _ => .of_symbol

theorem Rule.flatten_closes (t : Tables) (owner : String) (r : Rule) :
    Closes t (r.flatten owner) fun as => ∀ a ∈ as, t.Covers a :=
  (stepLogic_closes t).flatten owner r

namespace Grammar

variable {g : Grammar} {t : Tables}

theorem declareExternal_closes (name : String) :
    Closes t (declareExternal name) fun _ => True := by
  intro d s d' h
  obtain ⟨-, rfl⟩ := declareExternal_eq_ok h
  exact ⟨extends_push d _, fun ht hc => ⟨hc.bindName _ name ht, trivial⟩⟩

theorem declareExternals_closes (names : List String) :
    Closes t (names.mapM declareExternal) fun _ => True := by
  induction names with
  | nil => exact .pure trivial
  | cons name names ih =>
      rw [List.mapM_cons]
      exact .bind (declareExternal_closes name) fun s =>
        .bind ih fun ss => .pure fun _ _ => trivial

theorem declareRule_closes (e : String × Rule) : Closes t (declareRule e) fun _ => True := by
  obtain ⟨name, rule⟩ := e
  intro d u d' h
  obtain ⟨-, rfl⟩ | ⟨-, rfl⟩ := declareRule_eq_ok h
  · exact ⟨.refl _, fun _ hc => ⟨hc, trivial⟩⟩
  · exact ⟨extends_push d _, fun ht hc => ⟨hc.bindName _ name ht, trivial⟩⟩

theorem defineRule_closes (e : String × Rule) : Closes t (defineRule e) fun _ => True := by
  obtain ⟨name, rule⟩ := e
  intro d u d' h
  obtain ⟨s, -, ⟨-, as, d₁, has, rfl⟩ | ⟨-, tokens, -, rfl⟩⟩ := defineRule_eq_ok h
  · obtain ⟨he, hc₁⟩ := Rule.flatten_closes t name rule d as d₁ has
    refine ⟨he, fun ht hc => ?_⟩
    obtain ⟨hd₁, hcov⟩ := hc₁ ht hc
    refine ⟨⟨hd₁.1, hd₁.2, hd₁.3, hd₁.4, fun p hp => ?_⟩, trivial⟩
    obtain hp | ⟨a, ha, rfl⟩ := Draft.mem_pushProductions.1 hp
    · exact hd₁.productions p hp
    · exact hcov a ha
  · exact ⟨.refl d, fun _ hc => ⟨⟨hc.1, hc.2, hc.3, hc.4, hc.5⟩, trivial⟩⟩

theorem declareStart_closes : Closes t g.declareStart fun _ => True := by
  intro d start d' h
  obtain ⟨-, name, rule, -, hl, rfl, rfl⟩ := g.declareStart_eq_ok h
  refine ⟨extends_push d _, fun ht hc => ⟨⟨hc.1, hc.2, hc.3, hc.4, fun p hp => ?_⟩, trivial⟩⟩
  obtain hp | rfl := Array.mem_push.1 hp
  · exact hc.productions p hp
  · exact Tables.covers_single (hc.names _ (mem_of_lookup hl))

theorem except_bind_eq_ok {ε α β : Type} {x : Except ε α} {f : α → Except ε β} {b : β}
    (h : x >>= f = .ok b) : ∃ a, x = .ok a ∧ f a = .ok b := by
  cases x with
  | error e => cases h
  | ok a => exact ⟨a, rfl, h⟩

/-- What holds at first, and is kept by each step, holds in the end. -/
theorem except_foldlM_induct {ε α β : Type} {f : β → α → Except ε β} {P : β → Prop} {as : List α}
    {b b' : β} (hstep : ∀ a ∈ as, ∀ b b', f b a = .ok b' → P b → P b') (h : as.foldlM f b = .ok b')
    (hb : P b) : P b' := by
  induction as generalizing b with
  | nil =>
      cases h
      exact hb
  | cons a as ih =>
      rw [List.foldlM_cons] at h
      obtain ⟨b₁, h₁, h⟩ := except_bind_eq_ok h
      obtain ⟨ha, has⟩ := List.forall_mem_cons.1 hstep
      exact ih has h (ha b b₁ h₁ hb)

theorem wrappedTokens_eq_ok {d : Draft} {name : String} {s : Symbol}
    {tokens : List (Symbol × Option Symbol)} (h : wrappedTokens d name s = .ok tokens) :
    ∀ e ∈ tokens, d.isTerminal e.1 = true ∧ e.2 = some s := by
  rw [wrappedTokens] at h
  generalize d.productions.toList.filter (·.lhs == s) = ps at h
  induction ps generalizing tokens with
  | nil =>
      cases h
      exact fun e he => absurd he List.not_mem_nil
  | cons p ps ih =>
      rw [List.mapM_cons] at h
      obtain ⟨token, htoken, h⟩ := except_bind_eq_ok h
      obtain ⟨rest, hrest, h⟩ := except_bind_eq_ok h
      cases h
      refine List.forall_mem_cons.2 ⟨?_, ih hrest⟩
      split at htoken
      · split at htoken
        · next hs =>
            cases htoken
            exact ⟨hs, rfl⟩
        · cases htoken
      · cases htoken

/-- An extra adds a skip pattern, or else terminals: one by itself, or those that a name stands for. -/
theorem addExtra_eq_ok {d : Draft} {extras extras' : Extras} {r : Rule}
    (h : addExtra d extras r = .ok extras') :
    (∃ source regex, r.patternSource "extras" = .ok source ∧
      anchoredRegex "extras" source = .ok regex ∧
      extras' = { extras with skip := extras.skip ++ [regex] }) ∨
    ∃ name s tokens, d.byName.lookup name = some s ∧
      extras' = { extras with tokens := tokens ++ extras.tokens } ∧
      ∀ e ∈ tokens, d.isTerminal e.1 = true ∧ ∀ s' ∈ e.2, s' = s := by
  have hregex (h : (do
      let regex ← anchoredRegex "extras" (← r.patternSource "extras")
      return { extras with skip := extras.skip ++ [regex] } : Except CompileError Extras) =
        .ok extras') : ∃ source regex, r.patternSource "extras" = .ok source ∧
          anchoredRegex "extras" source = .ok regex ∧
          extras' = { extras with skip := extras.skip ++ [regex] } := by
    obtain ⟨source, hs, h⟩ := except_bind_eq_ok h
    obtain ⟨regex, hr, h⟩ := except_bind_eq_ok h
    cases h
    exact ⟨source, regex, hs, hr, rfl⟩
  rw [addExtra] at h
  split at h
  · exact .inl (hregex h)
  · exact .inl (hregex h)
  · exact .inl (hregex h)
  · dsimp only at h
    split at h
    · cases h
    · next s hs =>
        refine .inr ⟨r.name.getD "", s, ?_⟩
        split at h
        · next ht =>
            cases h
            exact ⟨[(s, none)], hs, rfl, List.forall_mem_singleton.2 ⟨ht, by simp⟩⟩
        · obtain ⟨tokens, htokens, h⟩ := except_bind_eq_ok h
          cases h
          refine ⟨tokens.reverse, hs, rfl, fun e he => ?_⟩
          obtain ⟨ht, hw⟩ := wrappedTokens_eq_ok htokens e (List.mem_reverse.1 he)
          exact ⟨ht, fun s' hs' => Option.some.inj (hs'.symm.trans hw)⟩
  · cases h

/-- What holds of blanks alone, and of no extras, and is kept by each extra, holds of the extras. -/
@[elab_as_elim]
theorem compileExtras_induct {d : Draft} {extras : Extras} {P : Extras → Prop}
    (hblanks : ∀ regex, g.extras = none → anchoredRegex "extras" "\\s".toList = .ok regex →
      P { skip := [regex] })
    (hempty : P {})
    (hstep : ∀ rules, g.extras = some rules → ∀ r ∈ rules, ∀ before after,
      addExtra d before r = .ok after → P before → P after)
    (h : g.compileExtras d = .ok extras) : P extras := by
  rw [compileExtras] at h
  split at h
  · next hg =>
      obtain ⟨regex, hregex, h⟩ := except_bind_eq_ok h
      cases h
      exact hblanks regex hg hregex
  · next rules hg => exact except_foldlM_induct (hstep rules hg) h hempty

theorem compileExtras_eq_ok {d : Draft} {extras : Extras} (h : g.compileExtras d = .ok extras) :
    ∀ e ∈ extras.tokens,
      d.isTerminal e.1 = true ∧ ∀ s ∈ e.2, ∃ name, d.byName.lookup name = some s := by
  refine compileExtras_induct ?_ ?_ ?_ h
  · exact fun _ _ _ _ he => absurd he List.not_mem_nil
  · exact fun _ he => absurd he List.not_mem_nil
  · intro rules _ r _ before after hr hbefore
    obtain ⟨_, _, -, -, rfl⟩ | ⟨name, s, tokens, hs, rfl, htokens⟩ := addExtra_eq_ok hr
    · exact hbefore
    · refine List.forall_mem_append.2 ⟨fun e he => ?_, hbefore⟩
      exact ⟨(htokens e he).1, fun s' hs' => ⟨name, (htokens e he).2 s' hs' ▸ hs⟩⟩

theorem tables_closed {hasScanner : Bool} (h : g.tables hasScanner = .ok t) : t.Closed := by
  obtain ⟨d₁, d₂, d₃, d₄, d₅, ⟨_, h₁⟩, h₂, ⟨_, h₃⟩, ⟨_, h₄⟩, h₅, hsymbols, hproductions, -, -, -,
    -, -, extras, hextras, htokens, -⟩ := g.exists_phases h
  rw [declareExternals_eq] at h₂
  rw [declareRules_eq] at h₃
  rw [defineRules_eq] at h₄
  obtain ⟨he₂, hc₂⟩ := declareExternals_closes g.externalNames d₁ _ d₂ h₂
  obtain ⟨he₃, hc₃⟩ := Closes.forM (fun e _ => declareRule_closes e) d₂ _ d₃ h₃
  obtain ⟨he₄, hc₄⟩ := Closes.forM (fun e _ => defineRule_closes e) d₃ _ d₄ h₄
  obtain ⟨he₅, hc₅⟩ := declareStart_closes d₄ _ d₅ h₅
  have ht₅ : t.Holds d₅ := fun s info hs => hsymbols ▸ hs
  have ht₄ := ht₅.of_extends he₅
  have ht₃ := ht₄.of_extends he₄
  have hd₁ : d₁.Closed t := by
    obtain ⟨-, rfl⟩ := pushSymbol_eq_ok h₁
    exact ⟨by simp, by simp, by simp, by simp, by simp⟩
  have hd₂ := (hc₂ (ht₃.of_extends he₃) hd₁).1
  have hd₅ := (hc₅ ht₅ (hc₄ ht₄ (hc₃ ht₃ hd₂).1).1).1
  refine ⟨?_, fun p hp => hd₅.productions p (hproductions ▸ hp),
    fun e he s hs => ?_⟩
  · obtain ⟨hlt, -, rule, -, -, -, rfl⟩ := g.declareStart_eq_ok h₅
    rw [hsymbols, Array.size_push]
    exact hlt
  · obtain ⟨-, hw⟩ := compileExtras_eq_ok hextras e (htokens ▸ he)
    obtain ⟨name, hl⟩ := hw s hs
    exact hd₅.names _ (mem_of_lookup hl)

end Grammar

theorem Language.compile_closed {g : Grammar} {scanner : Option Scanner} {handle : Nat}
    {l : Language} (h : Language.compile g scanner handle = .ok l) : l.tables.Closed :=
  Grammar.tables_closed (Language.tables_of_compile h)

end EarleyTree

import EarleyTree.Language.Basic
import EarleyTree.Proofs.Language.StepLogic

/-!
The kinds of the symbols in compiled tables: productions stand for nonterminals, and all that the
lexer can find are terminals.
-/
namespace EarleyTree

namespace Draft

def isTerminal (d : Draft) (s : Symbol) : Bool := d.symbols[s]?.any (·.isTerminal)

def isNonterminal (d : Draft) (s : Symbol) : Bool := d.symbols[s]?.any (·.isNonterminal)

structure Valid (d : Draft) : Prop where
  productions : ∀ p ∈ d.productions, d.isNonterminal p.lhs
  lexTokens : ∀ token ∈ d.lexTokens, d.isTerminal token.symbol
  literals : ∀ e ∈ d.literals, d.isTerminal e.2

def Extends (d d' : Draft) : Prop :=
  ∀ (s : Symbol) (info : SymbolInfo), d.symbols[s]? = some info → d'.symbols[s]? = some info

variable {d d' d'' : Draft}

theorem Extends.refl (d : Draft) : d.Extends d := fun _ _ h => h

theorem Extends.trans (h : d.Extends d') (h' : d'.Extends d'') : d.Extends d'' :=
  fun s info hs => h' s info (h s info hs)

theorem Extends.any {s : Symbol} {f : SymbolInfo → Bool} (h : d.Extends d')
    (hs : d.symbols[s]?.any f) : d'.symbols[s]?.any f := by
  cases hi : d.symbols[s]? with
  | none => simp [hi] at hs
  | some info =>
      rw [h s info hi]
      rwa [hi] at hs

theorem Extends.isTerminal {s : Symbol} (h : d.Extends d') (hs : d.isTerminal s) :
    d'.isTerminal s := h.any hs

theorem Extends.isNonterminal {s : Symbol} (h : d.Extends d') (hs : d.isNonterminal s) :
    d'.isNonterminal s := h.any hs

theorem extends_of_symbols (h : d'.symbols = d.symbols) : d.Extends d' := by
  intro s info hs
  rw [h, hs]

/-- A draft stays valid if what is added to it is of the right kinds. -/
theorem Valid.extend (hv : d.Valid) (h : d.Extends d')
    (hp : ∀ p ∈ d'.productions, p ∈ d.productions ∨ d'.isNonterminal p.lhs)
    (ht : ∀ token ∈ d'.lexTokens, token ∈ d.lexTokens ∨ d'.isTerminal token.symbol)
    (hl : ∀ e ∈ d'.literals, e ∈ d.literals ∨ d'.isTerminal e.2) : d'.Valid where
  productions p hm := (hp p hm).elim (fun ho => h.isNonterminal (hv.productions p ho)) id
  lexTokens t hm := (ht t hm).elim (fun ho => h.isTerminal (hv.lexTokens t ho)) id
  literals e hm := (hl e hm).elim (fun ho => h.isTerminal (hv.literals e ho)) id

theorem Valid.of_same {r : Prop} (hv : d.Valid) (hr : r) (hs : d'.symbols = d.symbols)
    (hp : d'.productions = d.productions) (ht : d'.lexTokens = d.lexTokens)
    (hl : d'.literals = d.literals) : d'.Valid ∧ d.Extends d' ∧ r :=
  ⟨hv.extend (extends_of_symbols hs) (fun _ h => .inl (hp ▸ h)) (fun _ h => .inl (ht ▸ h))
    (fun _ h => .inl (hl ▸ h)), extends_of_symbols hs, hr⟩

end Draft

namespace Compile

variable {α β : Type}

theorem bind_eq_ok {m : Compile α} {k : α → Compile β} {d d' : Draft} {b : β}
    (h : (m >>= k) d = .ok (b, d')) : ∃ a d₁, m d = .ok (a, d₁) ∧ k a d₁ = .ok (b, d') := by
  cases hm : m d with
  | error e => simp [Bind.bind, StateT.bind, Except.bind, hm] at h
  | ok r =>
      simp only [Bind.bind, StateT.bind, Except.bind, hm] at h
      exact ⟨r.1, r.2, rfl, h⟩

/-- From a valid draft with `p` the action leads, if it succeeds, to a valid draft that has all the
old symbols, and to `q`. -/
def Ensures (p : Draft → Prop) (m : Compile α) (q : α → Draft → Prop) : Prop :=
  ∀ d, d.Valid → p d → ∀ a d', m d = .ok (a, d') → d'.Valid ∧ d.Extends d' ∧ q a d'

/-- A property of drafts that no new symbol takes away. -/
def Stable (p : Draft → Prop) : Prop := ∀ d d', d.Extends d' → p d → p d'

variable {p p' : Draft → Prop} {m : Compile α} {q q' : α → Draft → Prop}

theorem Ensures.bind {k : α → Compile β} {r : β → Draft → Prop} (hm : Ensures p m q)
    (hk : ∀ a, Ensures (q a) (k a) r) : Ensures p (m >>= k) r := by
  intro d hv hp b d' h
  obtain ⟨a, d₁, hr, hr'⟩ := bind_eq_ok h
  obtain ⟨hv₁, he₁, hp₁⟩ := hm d hv hp a d₁ hr
  obtain ⟨hv', he', hp'⟩ := hk a d₁ hv₁ hp₁ b d' hr'
  exact ⟨hv', he₁.trans he', hp'⟩

theorem Ensures.of_pure {a : α} (h : ∀ d, p d → q a d) : Ensures p (Pure.pure a) q := by
  intro d hv hp b d' hr
  cases hr
  exact ⟨hv, .refl d, h d hp⟩

theorem Ensures.of_throw {e : CompileError} : Ensures p (throw e) q := by
  intro d _ _ a d' h
  cases h

theorem Ensures.of_throw_bind {e : CompileError} {k : β → Compile α} :
    Ensures p (throw e >>= k) q :=
  .bind (q := fun _ _ => False) .of_throw fun _ _ _ h => h.elim

theorem Ensures.of_get {k : Draft → Compile α}
    (hk : ∀ d₀, d₀.Valid → Ensures (fun d => p d ∧ d = d₀) (k d₀) q) :
    Ensures p (MonadState.get >>= k) q :=
  fun d hv hp b d' h => hk d hv d hv ⟨hp, rfl⟩ b d' h

theorem Ensures.of_set_pure {d₁ : Draft} {a : α}
    (h : ∀ d, d.Valid → p d → d₁.Valid ∧ d.Extends d₁ ∧ q a d₁) :
    Ensures p (set d₁ >>= fun _ => pure a) q := by
  intro d hv hp b d' hr
  cases hr
  exact h d hv hp

theorem Ensures.of_modify {f : Draft → Draft} {r : PUnit → Draft → Prop}
    (h : ∀ d, d.Valid → p d → (f d).Valid ∧ d.Extends (f d) ∧ r ⟨⟩ (f d)) :
    Ensures p (modify f) r := by
  intro d hv hp a d' hr
  cases hr
  exact h d hv hp

theorem Ensures.of_lift {e : Except CompileError α} :
    Ensures p (liftM e) (fun a d => p d ∧ e = .ok a) := by
  intro d hv hp a d' hr
  cases he : e with
  | error err => rw [he] at hr; cases hr
  | ok b => rw [he] at hr; cases hr; exact ⟨hv, .refl d, hp, rfl⟩

theorem Ensures.weaken (h : Ensures p m q) (hp : ∀ d, p' d → p d) (hq : ∀ a d, q a d → q' a d) :
    Ensures p' m q' := by
  intro d hv hd a d' hr
  obtain ⟨hv', he, hd'⟩ := h d hv (hp d hd) a d' hr
  exact ⟨hv', he, hq a d' hd'⟩

theorem Ensures.forget (h : Ensures p m q) : Ensures p m (fun _ _ => True) :=
  h.weaken (fun _ hp => hp) fun _ _ _ => trivial

theorem Ensures.keep (h : Ensures (fun _ => True) m q) (hs : Stable p) :
    Ensures p m (fun a d => q a d ∧ p d) := by
  intro d hv hp a d' hr
  obtain ⟨hv', he, hq⟩ := h d hv trivial a d' hr
  exact ⟨hv', he, hq, hs d d' he hp⟩

theorem Ensures.forM {xs : List β} {f : β → Compile PUnit} (hs : Stable p)
    (h : ∀ x ∈ xs, Ensures p (f x) (fun _ _ => True)) :
    Ensures p (xs.forM f) (fun _ d => p d) := by
  induction xs with
  | nil => exact .of_pure fun _ hp => hp
  | cons x xs ih =>
      refine .bind (q := fun _ d => p d) ?_ fun _ => ih fun y hy => h y (List.mem_cons_of_mem x hy)
      intro d hv hp a d' hr
      obtain ⟨hv', he, -⟩ := h x List.mem_cons_self d hv hp a d' hr
      exact ⟨hv', he, hs d d' he hp⟩

theorem stable_true : Stable fun _ => True := fun _ _ _ _ => trivial

theorem stable_isTerminal (s : Symbol) : Stable fun d => d.isTerminal s :=
  fun _ _ he h => he.isTerminal h

theorem stable_isNonterminal (s : Symbol) : Stable fun d => d.isNonterminal s :=
  fun _ _ he h => he.isNonterminal h

theorem extends_push (d : Draft) (info : SymbolInfo) :
    d.Extends { d with symbols := d.symbols.push info } := by
  intro s i hs
  have hlt := (Array.getElem?_eq_some_iff.1 hs).1
  rw [Array.getElem?_push, if_neg (by omega)]
  exact hs

theorem pushSymbol_eq_ok {name : String} {kind : SymbolKind} {named visible : Bool} {d d' : Draft}
    {s : Symbol} (h : pushSymbol name kind named visible d = .ok (s, d')) :
    s = d.symbols.size ∧
      d' = { d with symbols := d.symbols.push ⟨name, kind, named, visible⟩ } := by
  obtain ⟨_, _, hg, h⟩ := bind_eq_ok h
  cases hg
  by_cases hs : errorSymbol ≤ d.symbols.size
  · rw [if_pos hs] at h
    cases h
  · rw [if_neg hs] at h
    cases h
    exact ⟨rfl, rfl⟩

theorem symbol_lookup {name : String} {d d' : Draft} {s : Symbol}
    (h : symbol name d = .ok (s, d')) : d.byName.lookup name = some s ∧ d = d' := by
  obtain ⟨_, _, hg, h⟩ := bind_eq_ok h
  cases hg
  cases hl : d.byName.lookup name with
  | none => rw [hl] at h; cases h
  | some _ => rw [hl] at h; cases h; exact ⟨rfl, rfl⟩

theorem pushSymbol_ensures (name : String) (kind : SymbolKind) (named visible : Bool) :
    Ensures (fun _ => True) (pushSymbol name kind named visible)
      (fun s d => d.symbols[s]? = some ⟨name, kind, named, visible⟩) := by
  refine .of_get fun d hd => ?_
  split
  · exact .of_throw_bind
  · refine .of_set_pure ?_
    rintro d₁ - ⟨-, rfl⟩
    have he := extends_push d₁ ⟨name, kind, named, visible⟩
    exact ⟨hd.extend he (fun _ h => .inl h) (fun _ h => .inl h) (fun _ h => .inl h), he, by simp⟩

theorem pushTerminal_ensures (name : String) (named visible : Bool) {kind : SymbolKind}
    (hk : kind = .terminal ∨ kind = .external) :
    Ensures (fun _ => True) (pushSymbol name kind named visible) (fun s d => d.isTerminal s) := by
  refine (pushSymbol_ensures _ _ _ _).weaken (fun _ h => h) fun s d h => ?_
  rw [Draft.isTerminal, h]
  rcases hk with rfl | rfl <;> rfl

theorem pushAuxiliary_ensures (name : String) (named visible : Bool) :
    Ensures (fun _ => True) (pushSymbol name .auxiliary named visible)
      (fun s d => d.isNonterminal s) := by
  refine (pushSymbol_ensures _ _ _ _).weaken (fun _ h => h) fun s d h => ?_
  rw [Draft.isNonterminal, h]
  rfl

theorem symbol_ensures (name : String) :
    Ensures (fun _ => True) (symbol name) (fun _ _ => True) := by
  refine .of_get fun d _ => ?_
  split
  · exact .of_pure fun _ _ => trivial
  · exact .of_throw

theorem bindName_ensures (name : String) (s : Symbol) :
    Ensures (fun _ => True) (bindName name s) (fun _ _ => True) :=
  .of_modify fun _ hv _ => hv.of_same trivial rfl rfl rfl rfl

theorem pushProduction_ensures (lhs : Symbol) (a : Alternative) :
    Ensures (fun d => d.isNonterminal lhs) (pushProduction lhs a)
      (fun _ d => d.isNonterminal lhs) := by
  refine .of_modify fun d hv hp => ?_
  have he : d.Extends { d with productions := d.productions.push ⟨lhs, a.steps, a.priority⟩ } :=
    Draft.extends_of_symbols rfl
  refine ⟨hv.extend he ?_ (fun _ h => .inl h) (fun _ h => .inl h), he, he.isNonterminal hp⟩
  intro p hm
  rcases Array.mem_push.1 hm with h | rfl
  · exact .inl h
  · exact .inr hp

theorem pushLexToken_ensures (token : LexToken) :
    Ensures (fun d => d.isTerminal token.symbol) (pushLexToken token)
      (fun _ d => d.isTerminal token.symbol) := by
  refine .of_modify fun d hv hp => ?_
  have he : d.Extends { d with lexTokens := d.lexTokens ++ [token] } :=
    Draft.extends_of_symbols rfl
  refine ⟨hv.extend he (fun _ h => .inl h) ?_ (fun _ h => .inl h), he, he.isTerminal hp⟩
  intro t hm
  rcases List.mem_append.1 hm with h | h
  · exact .inl h
  · rw [List.mem_singleton.1 h]
    exact .inr hp

theorem fieldId_ensures (name : String) :
    Ensures (fun _ => True) (fieldId name) (fun _ _ => True) := by
  refine .of_get fun d hd => ?_
  dsimp only
  split
  · exact .of_throw_bind
  · split
    · refine .of_set_pure ?_
      rintro d₁ - ⟨-, rfl⟩
      exact hd.of_same trivial rfl rfl rfl rfl
    · exact .of_pure fun _ _ => trivial

theorem freshName_ensures (owner what : String) :
    Ensures (fun _ => True) (freshName owner what) (fun _ _ => True) := by
  refine .of_get fun d hd => .of_set_pure ?_
  rintro d₁ - ⟨-, rfl⟩
  exact hd.of_same trivial rfl rfl rfl rfl

theorem pushLiteral_ensures (text : String) (s : Symbol) :
    Ensures (fun d => d.isTerminal s)
      (modify fun d => { d with literals := (text, s) :: d.literals } : Compile PUnit)
      (fun _ d => d.isTerminal s) := by
  refine .of_modify fun d hv hp => ?_
  have he : d.Extends { d with literals := (text, s) :: d.literals } :=
    Draft.extends_of_symbols rfl
  refine ⟨hv.extend he (fun _ h => .inl h) (fun _ h => .inl h) ?_, he, he.isTerminal hp⟩
  intro e hm
  rcases List.mem_cons.1 hm with rfl | h
  · exact .inr hp
  · exact .inl h

theorem literal_ensures (text : String) :
    Ensures (fun _ => True) (literal text) (fun s d => d.isTerminal s) := by
  refine .of_get fun d hd => ?_
  split
  · next s hs =>
      refine .of_pure ?_
      rintro _ ⟨-, rfl⟩
      obtain ⟨l, r, h, -⟩ := List.lookup_eq_some_iff.1 hs
      exact hd.literals (text, s) (by simp [h])
  · refine .bind ((pushTerminal_ensures _ _ _ (.inl rfl)).weaken (fun _ _ => trivial) fun _ _ h => h)
      fun s => ?_
    refine .bind (pushLiteral_ensures text s) fun _ => .bind .of_lift fun regex => ?_
    exact .bind ((pushLexToken_ensures ⟨s, regex, true, 0⟩).weaken (fun _ h => h.1)
      fun _ _ h => h) fun _ => .of_pure fun _ h => h

theorem inlineToken_ensures (r : Rule) (owner : String) :
    Ensures (fun _ => True) (inlineToken r owner) (fun _ _ => True) := by
  rw [inlineToken]
  split
  · exact (literal_ensures _).forget
  · refine .bind .of_lift fun source => .of_get fun d hd => ?_
    split
    · exact .of_pure fun _ _ => trivial
    · refine .bind ((freshName_ensures _ _).weaken (fun _ _ => trivial) fun _ _ h => h)
        fun name => ?_
      refine .bind (pushTerminal_ensures _ _ _ (.inl rfl)) fun s => .bind .of_lift fun regex => ?_
      refine .bind ((pushLexToken_ensures ⟨s, regex, false, _⟩).weaken (fun _ h => h.1)
        fun _ _ h => h) fun _ => ?_
      refine .bind (q := fun _ _ => True) (.of_modify fun d hv _ => ?_)
        fun _ => .of_pure fun _ _ => trivial
      exact hv.of_same trivial rfl rfl rfl rfl

theorem newKind_ensures (name : String) (named : Bool) :
    Ensures (fun _ => True) (newKind name named) (fun _ _ => True) := by
  have hlast (s : Symbol) : Ensures (fun _ => True)
      (do modify fun d => { d with newKinds := ((name, named), s) :: d.newKinds }; return s)
      (fun _ _ => True) := by
    refine .bind (q := fun _ _ => True) (.of_modify fun d hv _ => ?_)
      fun _ => .of_pure fun _ _ => trivial
    exact hv.of_same trivial rfl rfl rfl rfl
  refine .of_get fun d hd => ?_
  split
  · exact .of_pure fun _ _ => trivial
  · dsimp only
    split
    · exact .bind (.of_pure (q := fun _ _ => True) fun _ _ => trivial) hlast
    · exact .bind ((pushSymbol_ensures _ _ _ _).weaken (fun _ _ => trivial) fun _ _ _ => trivial)
        hlast

section

variable {body : Compile (List Alternative)}
  (hb : Ensures (fun _ => True) body (fun _ _ => True))

include hb

theorem auxiliary_ensures (owner what : String) :
    Ensures (fun _ => True) (auxiliary body owner what) (fun s d => d.isNonterminal s) := by
  refine .bind (freshName_ensures _ _) fun name => .bind (pushAuxiliary_ensures _ _ _) fun s => ?_
  refine .bind (hb.keep (stable_isNonterminal s)) fun alternatives => ?_
  refine .bind ((Ensures.forM (stable_isNonterminal s) fun a _ => ?_).weaken (fun _ h => h.2)
    fun _ _ h => h) fun _ => .of_pure fun _ h => h
  exact (pushProduction_ensures s a).forget

theorem repetition_ensures (owner : String) :
    Ensures (fun _ => True) (repetition body owner) (fun s d => d.isNonterminal s) := by
  refine .bind (freshName_ensures _ _) fun name => .bind (pushAuxiliary_ensures _ _ _) fun s => ?_
  refine .bind (hb.keep (stable_isNonterminal s)) fun alternatives => ?_
  refine .bind ((Ensures.forM (stable_isNonterminal s) fun a _ => ?_).weaken (fun _ h => h.2)
    fun _ _ h => h) fun _ => .of_pure fun _ h => h
  have hlast := (pushProduction_ensures s a).forget
  dsimp only
  split
  · exact .bind (pushProduction_ensures s _) fun _ => hlast
  · exact hlast

end

end Compile

open Compile

theorem stepLogic_ensures :
    StepLogic (fun m Q => Ensures (fun _ => True) m fun a _ => Q a) fun _ => True where
  pure hq := .of_pure fun _ _ => hq
  throw := .of_throw
  bind hm hk := hm.bind fun a d hv hq b d' hr =>
    (hk a d hv trivial b d' hr).imp_right (And.imp_right fun hb => hb hq)
  weaken hm hq := hm.weaken (fun _ hp => hp) fun a _ => hq a
  symbol name := symbol_ensures name
  literal text := (literal_ensures text).forget
  inlineToken r owner := (inlineToken_ensures r owner).weaken (fun _ hp => hp) fun _ _ _ _ => trivial
  fieldId name := (fieldId_ensures name).weaken (fun _ hp => hp) fun _ _ _ _ _ => trivial
  newKind name named :=
    (newKind_ensures name named).weaken (fun _ hp => hp) fun _ _ _ _ _ => trivial
  auxiliary owner what hb := (auxiliary_ensures hb.forget owner what).forget
  repetition owner hb := (repetition_ensures hb.forget owner).forget

theorem Rule.flatten_ensures (owner : String) (r : Rule) :
    Ensures (fun _ => True) (r.flatten owner) (fun _ _ => True) :=
  (stepLogic_ensures.flatten owner r).forget

end EarleyTree

import EarleyTree.Proofs.Language.Compiled
import EarleyTree.Proofs.Language.Places

/-!
Flattening keeps the meaning of a rule: its alternatives lead to just the rows of places that the
rule stands for.
-/
namespace EarleyTree

open Computability

section

variable (symbols : Array SymbolInfo) (tokens : List LexToken)

/-- The symbol of an external, or of the rule of that name. -/
def Grammar.Names (g : Grammar) (name : String) (s : Symbol) : Prop :=
  ∃ info, symbols[s]? = some info ∧ info.name = name ∧
    ((info.kind = .external ∧ name ∈ g.externalNames) ∨
      ∃ rule, g.rules.find? name = some rule ∧
        info.kind = if rule.isLexical then .terminal else .nonterminal)

/-- A visible terminal that is lexed as the text itself. -/
def SpellsLiteral (text : String) (s : Symbol) : Prop :=
  symbols[s]? = some ⟨text, .terminal, false, true⟩ ∧ ∃ regex,
    anchoredRegex text (Pattern.escape text.toList) = .ok regex ∧ ⟨s, regex, true, 0⟩ ∈ tokens

/-- A hidden terminal that is lexed by the pattern. -/
def SpellsPattern (source : List Char) (s : Symbol) : Prop :=
  ∃ name level regex, symbols[s]? = some ⟨name, .terminal, false, false⟩ ∧
    anchoredRegex name source = .ok regex ∧ ⟨s, regex, false, level⟩ ∈ tokens

end

section

variable {symbols symbols' : Array SymbolInfo} {tokens tokens' : List LexToken} {s : Symbol}
  (hs : ∀ (s : Symbol) info, symbols[s]? = some info → symbols'[s]? = some info)

include hs

theorem Grammar.Names.mono {g : Grammar} {name : String} (h : g.Names symbols name s) :
    g.Names symbols' name s := by
  obtain ⟨info, hi, h⟩ := h
  exact ⟨info, hs s info hi, h⟩

theorem SpellsLiteral.mono {text : String} (h : SpellsLiteral symbols tokens text s)
    (ht : tokens ⊆ tokens') : SpellsLiteral symbols' tokens' text s := by
  obtain ⟨hi, regex, hr, hm⟩ := h
  exact ⟨hs s _ hi, regex, hr, ht hm⟩

theorem SpellsPattern.mono {source : List Char} (h : SpellsPattern symbols tokens source s)
    (ht : tokens ⊆ tokens') : SpellsPattern symbols' tokens' source s := by
  obtain ⟨name, level, regex, hi, hr, hm⟩ := h
  exact ⟨name, level, regex, hs s _ hi, hr, ht hm⟩

end

namespace Draft

variable {g : Grammar} {d d' d'' : Draft}

def isAuxiliary (d : Draft) (s : Symbol) : Bool := d.symbols[s]?.any (·.kind == .auxiliary)

/-- What is bound in a draft is bound to a symbol that was made for it. -/
structure Binds (g : Grammar) (d : Draft) : Prop where
  productions : ∀ p ∈ d.productions, p.lhs < d.symbols.size
  names : ∀ e ∈ d.byName, g.Names d.symbols e.1 e.2
  literals : ∀ e ∈ d.literals, SpellsLiteral d.symbols d.lexTokens e.1 e.2
  patterns : ∀ e ∈ d.inlineTokens, SpellsPattern d.symbols d.lexTokens e.1 e.2

theorem Binds.extend (hb : d.Binds g) (he : d.Extends d') (ht : d.lexTokens ⊆ d'.lexTokens)
    (hp : ∀ p ∈ d'.productions, p ∈ d.productions ∨ p.lhs < d'.symbols.size)
    (hn : ∀ e ∈ d'.byName, e ∈ d.byName ∨ g.Names d'.symbols e.1 e.2)
    (hl : ∀ e ∈ d'.literals, e ∈ d.literals ∨ SpellsLiteral d'.symbols d'.lexTokens e.1 e.2)
    (hi : ∀ e ∈ d'.inlineTokens,
      e ∈ d.inlineTokens ∨ SpellsPattern d'.symbols d'.lexTokens e.1 e.2) : d'.Binds g where
  productions p hm := by
    obtain ho | hlt := hp p hm
    · have hlt := hb.productions p ho
      exact (Array.getElem?_eq_some_iff.1 (he _ _ (Array.getElem?_eq_getElem hlt))).1
    · exact hlt
  names e hm := (hn e hm).elim (fun ho => (hb.names e ho).mono he) id
  literals e hm := (hl e hm).elim (fun ho => (hb.literals e ho).mono he ht) id
  patterns e hm := (hi e hm).elim (fun ho => (hb.patterns e ho).mono he ht) id

/-- Nothing is taken away or bound anew, and the auxiliary symbols keep their productions. -/
structure Later (d d' : Draft) : Prop where
  symbols : d.Extends d'
  byName : d'.byName = d.byName
  literals : ∀ {text s}, d.literals.lookup text = some s → d'.literals.lookup text = some s
  patterns : ∀ {source s}, d.inlineTokens.lookup source = some s →
    d'.inlineTokens.lookup source = some s
  productions : ∀ p ∈ d.productions, p ∈ d'.productions
  old : ∀ p ∈ d'.productions, d'.isAuxiliary p.lhs = true → p.lhs < d.symbols.size →
    p ∈ d.productions

/-- All new productions are those of new symbols, which are auxiliary. -/
structure Grows (d d' : Draft) : Prop extends Later d d' where
  fresh : ∀ p ∈ d'.productions, p.lhs < d.symbols.size → p ∈ d.productions
  auxiliary : ∀ p ∈ d'.productions, p ∈ d.productions ∨ d'.isAuxiliary p.lhs = true

theorem Extends.isAuxiliary {s : Symbol} (h : d.Extends d') (hs : d.isAuxiliary s = true) :
    d'.isAuxiliary s = true := h.any hs

theorem Extends.size_le (h : d.Extends d') : d.symbols.size ≤ d'.symbols.size := by
  by_contra hlt
  have hsome := h d'.symbols.size _ (Array.getElem?_eq_getElem (by omega))
  rw [Array.getElem?_eq_none (Nat.le_refl _)] at hsome
  cases hsome

theorem Later.refl (d : Draft) : d.Later d :=
  ⟨.refl d, rfl, fun h => h, fun h => h, fun _ h => h, fun _ h _ _ => h⟩

theorem Later.trans (h : d.Later d') (h' : d'.Later d'') : d.Later d'' where
  symbols := h.symbols.trans h'.symbols
  byName := h'.byName.trans h.byName
  literals hl := h'.literals (h.literals hl)
  patterns hl := h'.patterns (h.patterns hl)
  productions p hp := h'.productions p (h.productions p hp)
  old p hp ha hlt := by
    have hlt' : p.lhs < d'.symbols.size := Nat.lt_of_lt_of_le hlt h.symbols.size_le
    have hp' := h'.old p hp ha hlt'
    apply h.old p hp' ?_ hlt
    rw [isAuxiliary, Array.getElem?_eq_getElem hlt']
    rwa [isAuxiliary, h'.symbols p.lhs _ (Array.getElem?_eq_getElem hlt')] at ha

theorem Grows.refl (d : Draft) : d.Grows d := ⟨.refl d, fun _ h _ => h, fun _ h => .inl h⟩

theorem Grows.trans (h : d.Grows d') (h' : d'.Grows d'') : d.Grows d'' where
  toLater := h.toLater.trans h'.toLater
  fresh p hp hlt :=
    h.fresh p (h'.fresh p hp (Nat.lt_of_lt_of_le hlt h.symbols.size_le)) hlt
  auxiliary p hp := by
    obtain hp | ha := h'.auxiliary p hp
    · exact (h.auxiliary p hp).imp_right h'.symbols.isAuxiliary
    · exact .inr ha

/-- Where no production is added, nothing needs to be said about them. -/
theorem Grows.of_productions (hs : d.Extends d') (hn : d'.byName = d.byName)
    (hl : ∀ {text s}, d.literals.lookup text = some s → d'.literals.lookup text = some s)
    (ht : ∀ {source s}, d.inlineTokens.lookup source = some s →
      d'.inlineTokens.lookup source = some s) (hp : d'.productions = d.productions) :
    d.Grows d' := by
  refine ⟨⟨hs, hn, hl, ht, ?_, ?_⟩, ?_, ?_⟩
  · exact fun p h => hp ▸ h
  · exact fun p h _ _ => hp ▸ h
  · exact fun p h _ => hp ▸ h
  · exact fun p h => .inl (hp ▸ h)

/-- The symbols that names, literals and patterns are bound to. -/
def vocabulary (d : Draft) : Vocabulary where
  name? name := d.byName.lookup name
  literal? text := d.literals.lookup text
  pattern? source := d.inlineTokens.lookup source

end Draft

/-- What is bound in the draft is in the vocabulary, its symbols and productions are in the tables,
and of the symbols made since the earlier draft the auxiliary ones have no other productions. -/
structure Tables.Keeps (t : Tables) (v : Vocabulary) (d d' : Draft) : Prop where
  symbols : ∀ {s : Symbol} {info}, d'.symbols[s]? = some info → t.symbols[s]? = some info
  names : ∀ {name s}, d'.byName.lookup name = some s → v.name? name = some s
  literals : ∀ {text s}, d'.literals.lookup text = some s → v.literal? text = some s
  patterns : ∀ {source s}, d'.inlineTokens.lookup source = some s → v.pattern? source = some s
  productions : ∀ p ∈ d'.productions, p ∈ t.productions
  only : ∀ p ∈ t.productions, t.isAuxiliary p.lhs = true → d.symbols.size ≤ p.lhs →
    p.lhs < d'.symbols.size → p ∈ d'.productions

namespace Tables.Keeps

variable {t : Tables} {v : Vocabulary} {d d₁ d₂ : Draft} {s : Symbol}

theorem left (h : t.Keeps v d d₂) (hl : d₁.Later d₂) : t.Keeps v d d₁ where
  symbols hs := h.symbols (hl.symbols _ _ hs)
  names hn := h.names (hl.byName ▸ hn)
  literals hl' := h.literals (hl.literals hl')
  patterns hp := h.patterns (hl.patterns hp)
  productions p hp := h.productions p (hl.productions p hp)
  only p hp ha hle hlt := by
    have hlt' := Nat.lt_of_lt_of_le hlt hl.symbols.size_le
    apply hl.old p (h.only p hp ha hle hlt') ?_ hlt
    rw [Draft.isAuxiliary, Array.getElem?_eq_getElem hlt']
    rwa [isAuxiliary, h.symbols (Array.getElem?_eq_getElem hlt')] at ha

theorem right (h : t.Keeps v d d₂) (hle : d.symbols.size ≤ d₁.symbols.size) : t.Keeps v d₁ d₂ where
  symbols := h.symbols
  names := h.names
  literals := h.literals
  patterns := h.patterns
  productions := h.productions
  only p hp ha hle' hlt := h.only p hp ha (hle.trans hle') hlt

theorem isAuxiliary_eq {info : SymbolInfo} (h : t.Keeps v d d₁) (hs : d₁.symbols[s]? = some info) :
    t.isAuxiliary s = (info.kind == .auxiliary) := by
  rw [isAuxiliary, h.symbols hs, Option.any_some]

theorem not_auxiliary {g : Grammar} {name : String} (h : t.Keeps v d d₁)
    (hs : g.Names d₁.symbols name s) : t.isAuxiliary s = false := by
  obtain ⟨info, hi, -, ⟨hk, -⟩ | ⟨rule, -, hk⟩⟩ := hs
  · rw [h.isAuxiliary_eq hi, hk]
    rfl
  · rw [h.isAuxiliary_eq hi, hk]
    split <;> rfl

end Tables.Keeps

namespace Draft

variable {g : Grammar} {t : Tables} {v : Vocabulary} {d d' : Draft} {ps : List Production}
  {s : Symbol} {p : Production}

def emit (d : Draft) (ps : List Production) : Draft :=
  { d with productions := d.productions ++ ps.toArray }

/-- The draft with a symbol more, to which nothing is bound yet. -/
def withAuxiliary (d : Draft) (name : String) : Draft :=
  { d with
    auxiliaries := d.auxiliaries + 1
    symbols := d.symbols.push ⟨name, .auxiliary, false, false⟩ }

theorem mem_emit : p ∈ (d.emit ps).productions ↔ p ∈ d.productions ∨ p ∈ ps := by
  simp [emit]

theorem Binds.emit (hb : d.Binds g) (hs : s < d.symbols.size) (hps : ∀ p ∈ ps, p.lhs = s) :
    (d.emit ps).Binds g := by
  refine hb.extend (extends_of_symbols rfl) (List.Subset.refl _) ?_ (fun _ h => .inl h)
    (fun _ h => .inl h) (fun _ h => .inl h)
  intro p hp
  obtain hp | hp := mem_emit.1 hp
  · exact .inl hp
  · exact .inr (hps p hp ▸ hs)

theorem Binds.withAuxiliary (hb : d.Binds g) (name : String) : (d.withAuxiliary name).Binds g :=
  hb.extend (Compile.extends_push d _) (List.Subset.refl _) (fun _ h => .inl h) (fun _ h => .inl h)
    (fun _ h => .inl h) (fun _ h => .inl h)

section

variable {name : String} (hg : (d.withAuxiliary name).Grows d')

include hg

theorem size_lt_of_withAuxiliary : d.symbols.size < d'.symbols.size :=
  Nat.lt_of_succ_le (by simpa [withAuxiliary] using hg.symbols.size_le)

theorem isAuxiliary_of_withAuxiliary : d'.isAuxiliary d.symbols.size = true := by
  rw [isAuxiliary, hg.symbols _ _ Array.getElem?_push_size]
  rfl

theorem isAuxiliary_of_emit (hk : t.Keeps v d (d'.emit ps)) :
    t.isAuxiliary d.symbols.size = true := by
  have hs : (d'.emit ps).symbols[d.symbols.size]? = some ⟨name, .auxiliary, false, false⟩ :=
    hg.symbols _ _ Array.getElem?_push_size
  exact hk.isAuxiliary_eq hs

theorem mem_of_lhs_le (hp : p ∈ d'.productions) (hle : p.lhs ≤ d.symbols.size) :
    p ∈ d.productions :=
  hg.fresh p hp (by simpa [withAuxiliary] using Nat.lt_succ_of_le hle)

variable (hps : ∀ p ∈ ps, p.lhs = d.symbols.size)

include hps

theorem grows_emit : d.Grows (d'.emit ps) := by
  have hold : ∀ p ∈ (d'.emit ps).productions, p.lhs < d.symbols.size → p ∈ d.productions := by
    intro p hp hlt
    obtain hp | hp := mem_emit.1 hp
    · exact mem_of_lhs_le hg hp hlt.le
    · exact absurd (hps p hp) hlt.ne
  refine ⟨⟨?_, hg.byName, hg.literals, hg.patterns, ?_, ?_⟩, hold, fun p hp => ?_⟩
  · exact (Compile.extends_push d _).trans (hg.symbols.trans (extends_of_symbols rfl))
  · exact fun p hp => mem_emit.2 (.inl (hg.productions p hp))
  · exact fun p hp _ hlt => hold p hp hlt
  · obtain hp | hp := mem_emit.1 hp
    · exact hg.auxiliary p hp
    · have ha : d'.isAuxiliary p.lhs = true := hps p hp ▸ isAuxiliary_of_withAuxiliary hg
      exact .inr ha

omit hg in
/-- Tables that keep the productions that are emitted keep what was there before them. -/
theorem keeps_of_emit (hk : t.Keeps v d (d'.emit ps)) : t.Keeps v (d.withAuxiliary name) d' := by
  refine ⟨hk.symbols, hk.names, hk.literals, hk.patterns, ?_, ?_⟩
  · exact fun p hp => hk.productions p (mem_emit.2 (.inl hp))
  · intro p hp ha hle hlt
    have hlt' : d.symbols.size < p.lhs :=
      Nat.lt_of_succ_le (by simpa [withAuxiliary] using hle)
    obtain hp | hp := mem_emit.1 (hk.only p hp ha hlt'.le hlt)
    · exact hp
    · exact absurd (hps p hp) hlt'.ne'

/-- The new symbol has the productions that are emitted for it, and no others. -/
theorem mem_iff_of_emit (hb : d.Binds g) (hk : t.Keeps v d (d'.emit ps)) :
    (p ∈ t.productions ∧ p.lhs = d.symbols.size) ↔ p ∈ ps := by
  constructor
  · rintro ⟨hp, hl⟩
    have ha : t.isAuxiliary p.lhs = true := hl ▸ isAuxiliary_of_emit hg hk
    have hlt : p.lhs < d'.symbols.size := hl ▸ size_lt_of_withAuxiliary hg
    obtain hp | hp := mem_emit.1 (hk.only p hp ha hl.ge hlt)
    · exact absurd hl (hb.productions p (mem_of_lhs_le hg hp hl.le)).ne
    · exact hp
  · exact fun hp => ⟨hk.productions p (mem_emit.2 (.inr hp)), hps p hp⟩

end

end Draft

theorem mem_of_lookup {α β : Type} [BEq α] [LawfulBEq α] {l : List (α × β)} {a : α} {b : β}
    (h : l.lookup a = some b) : (a, b) ∈ l := by
  obtain ⟨l₁, l₂, rfl, -⟩ := List.lookup_eq_some_iff.1 h
  exact List.mem_append_right _ List.mem_cons_self

theorem lookup_cons_of_lookup {α β : Type} [BEq α] [LawfulBEq α] {l : List (α × β)} {a a' : α}
    {b b' : β} (ha : l.lookup a = none) (h : l.lookup a' = some b') :
    ((a, b) :: l).lookup a' = some b' := by
  rw [List.lookup_cons]
  cases he : a' == a with
  | false => exact h
  | true => rw [beq_iff_eq.1 he, ha] at h; cases h

namespace Compile

variable {α β : Type} {g : Grammar} {t : Tables} {v : Vocabulary}

/-- If it succeeds the action only adds to a draft, and what it returns has the property with regard
to all tables that keep what it added. -/
def Makes (g : Grammar) (t : Tables) (v : Vocabulary) (m : Compile α) (Q : α → Prop) : Prop :=
  ∀ d a d', d.Binds g → m d = .ok (a, d') → d'.Binds g ∧ d.Grows d' ∧ (t.Keeps v d d' → Q a)

namespace Makes

variable {m : Compile α} {Q Q' : α → Prop} {R : β → Prop}

theorem pure {a : α} (h : Q a) : Makes g t v (Pure.pure a) Q := by
  rintro d _ _ hb ⟨⟩
  exact ⟨hb, .refl d, fun _ => h⟩

theorem throw {e : CompileError} : Makes g t v (throw e) Q := by
  intro d a d' _ h
  cases h

theorem bind {k : α → Compile β} (hm : Makes g t v m Q)
    (hk : ∀ a, Makes g t v (k a) fun b => Q a → R b) : Makes g t v (m >>= k) R := by
  intro d b d₂ hb h
  obtain ⟨a, d₁, hr, hr'⟩ := bind_eq_ok h
  obtain ⟨hb₁, hg₁, hq⟩ := hm d a d₁ hb hr
  obtain ⟨hb₂, hg₂, hr⟩ := hk a d₁ b d₂ hb₁ hr'
  refine ⟨hb₂, hg₁.trans hg₂, fun hkeep => ?_⟩
  exact hr (hkeep.right hg₁.symbols.size_le) (hq (hkeep.left hg₂.toLater))

theorem weaken (hm : Makes g t v m Q) (h : ∀ a, Q a → Q' a) : Makes g t v m Q' := by
  intro d a d' hb hr
  obtain ⟨hb', hg, hq⟩ := hm d a d' hb hr
  exact ⟨hb', hg, fun hkeep => h a (hq hkeep)⟩

theorem map {f : α → β} (hm : Makes g t v m Q) (h : ∀ a, Q a → R (f a)) :
    Makes g t v (do return f (← m)) R :=
  .bind hm fun a => .pure (h a)

/-- An action that adds no more than symbols, and does not bind them. -/
theorem of_frame
    (h : ∀ d a d', m d = .ok (a, d') → d.Extends d' ∧ d'.byName = d.byName ∧
      d'.productions = d.productions ∧ d'.literals = d.literals ∧
      d'.inlineTokens = d.inlineTokens ∧ d'.lexTokens = d.lexTokens) :
    Makes g t v m fun _ => True := by
  intro d a d' hb hr
  obtain ⟨he, hn, hp, hl, ht, hx⟩ := h d a d' hr
  refine ⟨hb.extend he (hx ▸ List.Subset.refl _) ?_ ?_ ?_ ?_, ?_, fun _ => trivial⟩
  · exact fun _ hm => .inl (hp ▸ hm)
  · exact fun _ hm => .inl (hn ▸ hm)
  · exact fun _ hm => .inl (hl ▸ hm)
  · exact fun _ hm => .inl (ht ▸ hm)
  · exact .of_productions he hn (fun h => hl ▸ h) (fun h => ht ▸ h) hp

end Makes

theorem symbol_makes (name : String) :
    Makes g t v (symbol name) fun s => v.name? name = some s ∧ t.isAuxiliary s = false := by
  intro d s d' hb h
  obtain ⟨hl, rfl⟩ := symbol_lookup h
  exact ⟨hb, .refl _, fun hk => ⟨hk.names hl, hk.not_auxiliary (hb.names _ (mem_of_lookup hl))⟩⟩

theorem freshName_eq_ok {owner what name : String} {d d' : Draft}
    (h : freshName owner what d = .ok (name, d')) :
    d' = { d with auxiliaries := d.auxiliaries + 1 } := by
  obtain ⟨_, _, hg, h⟩ := bind_eq_ok h
  cases hg
  cases h
  rfl

/-- A field is numbered by its place among the names, and put behind them when it is new. -/
theorem fieldId_eq_ok {name : String} {d d' : Draft} {id : FieldId}
    (h : fieldId name d = .ok (id, d')) : id = d.fields.idxOf name + 1 ∧
      d' = { d with fields := if name ∈ d.fields then d.fields else d.fields ++ [name] } := by
  obtain ⟨_, _, hg, h⟩ := bind_eq_ok h
  cases hg
  by_cases hs : errorSymbol ≤ d.fields.idxOf name
  · rw [if_pos hs] at h
    cases h
  · rw [if_neg hs] at h
    by_cases hn : name ∈ d.fields
    · rw [if_neg (Nat.not_le.2 (List.idxOf_lt_length_iff.2 hn))] at h
      cases h
      exact ⟨rfl, by rw [if_pos hn]⟩
    · rw [if_pos (Nat.not_lt.1 fun hlt => hn (List.idxOf_lt_length_iff.1 hlt))] at h
      cases h
      exact ⟨rfl, by rw [if_neg hn]⟩

theorem fieldId_makes (name : String) : Makes g t v (fieldId name) fun _ => True := by
  refine .of_frame fun d id d' h => ?_
  obtain ⟨-, rfl⟩ := fieldId_eq_ok h
  exact ⟨Draft.extends_of_symbols rfl, rfl, rfl, rfl, rfl, rfl⟩

/-- A kind that was noted before, a visible symbol of that name, or else a symbol of its own. -/
theorem newKind_eq_ok {name : String} {named : Bool} {d d' : Draft} {k : Symbol}
    (h : newKind name named d = .ok (k, d')) :
    (d.newKinds.lookup (name, named) = some k ∧ d' = d) ∨
      ((∃ info, d.symbols[k]? = some info ∧ info.visible = true ∧
          d' = { d with newKinds := ((name, named), k) :: d.newKinds }) ∨
        k = d.symbols.size ∧ d' = { d with
          symbols := d.symbols.push ⟨name, .nameOnly, named, true⟩
          newKinds := ((name, named), k) :: d.newKinds }) := by
  obtain ⟨_, _, hg, h⟩ := bind_eq_ok h
  cases hg
  cases hl : d.newKinds.lookup (name, named) with
  | some s =>
      rw [hl] at h
      cases h
      exact .inl ⟨rfl, rfl⟩
  | none =>
      rw [hl] at h
      dsimp only at h
      cases hi : d.symbols.findIdx? fun s =>
          s.name == name && s.named == named && s.visible && s.kind != .endMarker with
      | some index =>
          rw [hi] at h
          cases h
          obtain ⟨hlt, hs, -⟩ := Array.findIdx?_eq_some_iff_getElem.1 hi
          simp only [Bool.and_eq_true] at hs
          exact .inr (.inl ⟨_, Array.getElem?_eq_getElem hlt, hs.1.2, rfl⟩)
      | none =>
          rw [hi] at h
          obtain ⟨s, d₁, hs, h⟩ := bind_eq_ok h
          obtain ⟨rfl, rfl⟩ := pushSymbol_eq_ok hs
          cases h
          exact .inr (.inr ⟨rfl, rfl⟩)

theorem newKind_makes (name : String) (named : Bool) :
    Makes g t v (newKind name named) fun _ => True := by
  refine .of_frame fun d k d' h => ?_
  obtain ⟨-, rfl⟩ | ⟨_, -, -, rfl⟩ | ⟨-, rfl⟩ := newKind_eq_ok h
  · exact ⟨.refl _, rfl, rfl, rfl, rfl, rfl⟩
  · exact ⟨Draft.extends_of_symbols rfl, rfl, rfl, rfl, rfl, rfl⟩
  · exact ⟨extends_push d _, rfl, rfl, rfl, rfl, rfl⟩

theorem lift_eq_ok {e : Except CompileError α} {a : α} {d d' : Draft}
    (h : (liftM e : Compile α) d = .ok (a, d')) : e = .ok a ∧ d = d' := by
  cases e with
  | error err => cases h
  | ok b => cases h; exact ⟨rfl, rfl⟩

/-- A literal is looked up, or else it is made into a terminal of its own. -/
theorem literal_eq_ok {text : String} {d d' : Draft} {s : Symbol}
    (h : literal text d = .ok (s, d')) :
    (d.literals.lookup text = some s ∧ d' = d) ∨
      (d.literals.lookup text = none ∧ s = d.symbols.size ∧
        ∃ regex, anchoredRegex text (Pattern.escape text.toList) = .ok regex ∧ d' = { d with
          symbols := d.symbols.push ⟨text, .terminal, false, true⟩
          literals := (text, s) :: d.literals
          lexTokens := d.lexTokens ++ [⟨s, regex, true, 0⟩] }) := by
  obtain ⟨_, _, hg, h⟩ := bind_eq_ok h
  cases hg
  cases hl : d.literals.lookup text with
  | some s' =>
      rw [hl] at h
      cases h
      exact .inl ⟨rfl, rfl⟩
  | none =>
      rw [hl] at h
      obtain ⟨s₁, d₁, hs, h⟩ := bind_eq_ok h
      obtain ⟨rfl, rfl⟩ := pushSymbol_eq_ok hs
      obtain ⟨_, d₂, hm, h⟩ := bind_eq_ok h
      cases hm
      obtain ⟨regex, d₃, hr, h⟩ := bind_eq_ok h
      obtain ⟨hregex, rfl⟩ := lift_eq_ok hr
      obtain ⟨_, d₄, hp, h⟩ := bind_eq_ok h
      cases hp
      cases h
      exact .inr ⟨rfl, rfl, regex, hregex, rfl⟩

theorem literal_makes (text : String) :
    Makes g t v (literal text) fun s => v.literal? text = some s ∧ t.isAuxiliary s = false := by
  intro d s d' hb h
  obtain ⟨hl, rfl⟩ | ⟨hl, rfl, regex, hr, rfl⟩ := literal_eq_ok h
  · refine ⟨hb, .refl _, fun hk => ⟨hk.literals hl, ?_⟩⟩
    exact hk.isAuxiliary_eq (hb.literals _ (mem_of_lookup hl)).1
  · have he := extends_push d ⟨text, .terminal, false, true⟩
    have hs : (d.symbols.push ⟨text, .terminal, false, true⟩)[d.symbols.size]? =
        some ⟨text, .terminal, false, true⟩ := Array.getElem?_push_size
    refine ⟨hb.extend he (List.subset_append_left _ _) ?_ ?_ ?_ ?_, ?_, fun hk => ⟨?_, ?_⟩⟩
    · exact fun _ hm => .inl hm
    · exact fun _ hm => .inl hm
    · intro e hm
      obtain rfl | hm := List.mem_cons.1 hm
      · exact .inr ⟨hs, regex, hr, List.mem_append_right _ (List.mem_singleton_self _)⟩
      · exact .inl hm
    · exact fun _ hm => .inl hm
    · exact .of_productions he rfl (lookup_cons_of_lookup hl) (fun h => h) rfl
    · exact hk.literals List.lookup_cons_self
    · exact hk.isAuxiliary_eq hs

/-- So is any other token by its pattern, unless it stands for a literal. -/
theorem inlineToken_eq_ok {r : Rule} {owner : String} {d d' : Draft} {s : Symbol}
    (h : inlineToken r owner d = .ok (s, d')) :
    (∃ text, r.literalText? = some text ∧ literal text d = .ok (s, d')) ∨
      r.literalText? = none ∧ ∃ source, r.patternSource owner = .ok source ∧
        ((d.inlineTokens.lookup source = some s ∧ d' = d) ∨
          (d.inlineTokens.lookup source = none ∧ s = d.symbols.size ∧
            ∃ name regex, anchoredRegex name source = .ok regex ∧ d' = { d with
              auxiliaries := d.auxiliaries + 1
              symbols := d.symbols.push ⟨name, .terminal, false, false⟩
              inlineTokens := (source, s) :: d.inlineTokens
              lexTokens := d.lexTokens ++ [⟨s, regex, false, r.lexicalPrecedence⟩] })) := by
  rw [inlineToken] at h
  cases ht : r.literalText? with
  | some text =>
      rw [ht] at h
      exact .inl ⟨text, rfl, h⟩
  | none =>
      rw [ht] at h
      obtain ⟨source, d₁, hr, h⟩ := bind_eq_ok h
      obtain ⟨hsource, rfl⟩ := lift_eq_ok hr
      refine .inr ⟨rfl, source, hsource, ?_⟩
      obtain ⟨_, _, hg, h⟩ := bind_eq_ok h
      cases hg
      cases hl : d.inlineTokens.lookup source with
      | some s' =>
          rw [hl] at h
          cases h
          exact .inl ⟨rfl, rfl⟩
      | none =>
          rw [hl] at h
          obtain ⟨name, d₂, hn, h⟩ := bind_eq_ok h
          obtain rfl := freshName_eq_ok hn
          obtain ⟨s₁, d₃, hs, h⟩ := bind_eq_ok h
          obtain ⟨rfl, rfl⟩ := pushSymbol_eq_ok hs
          obtain ⟨regex, d₄, hr, h⟩ := bind_eq_ok h
          obtain ⟨hregex, rfl⟩ := lift_eq_ok hr
          obtain ⟨_, d₅, hp, h⟩ := bind_eq_ok h
          cases hp
          obtain ⟨_, d₆, hm, h⟩ := bind_eq_ok h
          cases hm
          cases h
          exact .inr ⟨rfl, rfl, name, regex, hregex, rfl⟩

theorem inlineToken_makes (r : Rule) (owner : String) :
    Makes g t v (inlineToken r owner) fun s =>
      v.token? owner r = some s ∧ t.isAuxiliary s = false := by
  intro d s d' hb h
  obtain ⟨text, ht, h⟩ | ⟨ht, source, hsource, h⟩ := inlineToken_eq_ok h
  · obtain ⟨hb', hg, hq⟩ := literal_makes text d s d' hb h
    refine ⟨hb', hg, fun hk => ⟨?_, (hq hk).2⟩⟩
    rw [Vocabulary.token?, ht]
    exact (hq hk).1
  · have htoken : v.token? owner r = v.pattern? source := by
      rw [Vocabulary.token?, ht, hsource]
    rw [htoken]
    obtain ⟨hl, rfl⟩ | ⟨hl, rfl, name, regex, hr, rfl⟩ := h
    · obtain ⟨name, level, regex, hs, -⟩ := hb.patterns _ (mem_of_lookup hl)
      exact ⟨hb, .refl _, fun hk => ⟨hk.patterns hl, hk.isAuxiliary_eq hs⟩⟩
    · have he := extends_push d ⟨name, .terminal, false, false⟩
      have hs : (d.symbols.push ⟨name, .terminal, false, false⟩)[d.symbols.size]? =
          some ⟨name, .terminal, false, false⟩ := Array.getElem?_push_size
      refine ⟨hb.extend he (List.subset_append_left _ _) ?_ ?_ ?_ ?_, ?_, fun hk => ⟨?_, ?_⟩⟩
      · exact fun _ hm => .inl hm
      · exact fun _ hm => .inl hm
      · exact fun _ hm => .inl hm
      · intro e hm
        obtain rfl | hm := List.mem_cons.1 hm
        · exact .inr ⟨name, _, regex, hs, hr, List.mem_append_right _ (List.mem_singleton_self _)⟩
        · exact .inl hm
      · exact .of_productions he rfl (fun h => h) (lookup_cons_of_lookup hl) rfl
      · exact hk.patterns List.lookup_cons_self
      · exact hk.isAuxiliary_eq hs

/-- A loop over alternatives that emits productions for each. -/
theorem forM_eq_ok {f : Alternative → Compile PUnit} {ps : Alternative → List Production}
    (hf : ∀ a u d d', f a d = .ok (u, d') →
      d' = { d with productions := d.productions ++ (ps a).toArray })
    {as : List Alternative} {u : PUnit} {d d' : Draft} (h : as.forM f d = .ok (u, d')) :
    d' = { d with productions := d.productions ++ (as.flatMap ps).toArray } := by
  induction as generalizing d with
  | nil =>
      cases h
      simp
  | cons a as ih =>
      obtain ⟨_, d₁, ha, h⟩ := bind_eq_ok h
      rw [ih h, hf a _ d d₁ ha, List.flatMap_cons, ← List.append_toArray, Array.append_assoc]

theorem pushProduction_eq_ok {s : Symbol} {a : Alternative} {u : PUnit} {d d' : Draft}
    (h : pushProduction s a d = .ok (u, d')) :
    d' = { d with productions := d.productions ++ [plainProduction s a].toArray } := by
  cases h
  simp [plainProduction]

theorem pushProductions_eq_ok {s : Symbol} {as : List Alternative} {u : PUnit} {d d' : Draft}
    (h : as.forM (pushProduction s) d = .ok (u, d')) :
    d' = { d with productions := d.productions ++ (as.map (plainProduction s)).toArray } := by
  have hf : ∀ a u d d', pushProduction s a d = .ok (u, d') →
      d' = { d with productions := d.productions ++ [plainProduction s a].toArray } :=
    fun _ _ _ _ => pushProduction_eq_ok
  rw [List.map_eq_flatMap]
  exact forM_eq_ok hf h

theorem pushLoop_eq_ok {s : Symbol} {a : Alternative} {u : PUnit} {d d' : Draft}
    (h : (do
      if !a.steps.isEmpty then pushProduction s ⟨{ symbol := s } :: a.steps, a.priority⟩
      pushProduction s a : Compile PUnit) d = .ok (u, d')) :
    d' = { d with productions := d.productions ++ (loopProductions s a).toArray } := by
  rw [loopProductions]
  cases hsteps : a.steps with
  | nil =>
      rw [hsteps] at h
      exact pushProduction_eq_ok h
  | cons step steps =>
      rw [hsteps] at h
      obtain ⟨_, d₁, h₁, h⟩ := bind_eq_ok h
      rw [pushProduction_eq_ok h, pushProduction_eq_ok h₁]
      simp only [Array.append_assoc, List.append_toArray]
      rfl

/-- The body is compiled once there is a symbol for it, and its alternatives are emitted after that. -/
theorem declare_eq_ok {body : Compile (List Alternative)} {f : Symbol → Alternative → Compile PUnit}
    {ps : Symbol → Alternative → List Production}
    (hf : ∀ s a u d d', f s a d = .ok (u, d') →
      d' = { d with productions := d.productions ++ (ps s a).toArray })
    {owner what : String} {d d' : Draft} {s : Symbol}
    (h : (do
      let name ← freshName owner what
      let s ← pushSymbol name .auxiliary false false
      (← body).forM (f s)
      return s : Compile Symbol) d = .ok (s, d')) :
    s = d.symbols.size ∧ ∃ name as d₁, body (d.withAuxiliary name) = .ok (as, d₁) ∧
      d' = d₁.emit (as.flatMap (ps s)) := by
  obtain ⟨name, d₁, hname, h⟩ := bind_eq_ok h
  obtain rfl := freshName_eq_ok hname
  obtain ⟨s', d₂, hpush, h⟩ := bind_eq_ok h
  obtain ⟨rfl, rfl⟩ := pushSymbol_eq_ok hpush
  obtain ⟨as, d₃, has, h⟩ := bind_eq_ok h
  obtain ⟨_, d₄, hloop, h⟩ := bind_eq_ok h
  have hd : d₄ = d₃.emit (as.flatMap (ps d.symbols.size)) := forM_eq_ok (hf d.symbols.size) hloop
  cases h
  exact ⟨rfl, name, as, d₃, has, hd⟩

/-- A symbol made for a body has the productions that are emitted for the alternatives of the body,
and no others. -/
theorem declare_makes {body : Compile (List Alternative)} {Q : List Alternative → Prop}
    {f : Symbol → Alternative → Compile PUnit} (ps : Symbol → Alternative → List Production)
    (hbody : Makes g t v body Q)
    (hf : ∀ s a u d d', f s a d = .ok (u, d') →
      d' = { d with productions := d.productions ++ (ps s a).toArray })
    (hps : ∀ {s a p}, p ∈ ps s a → p.lhs = s) (owner what : String) :
    Makes g t v (do
      let name ← freshName owner what
      let s ← pushSymbol name .auxiliary false false
      (← body).forM (f s)
      return s) fun s => t.isAuxiliary s = true ∧
        ∃ as, Q as ∧ ∀ p, (p ∈ t.productions ∧ p.lhs = s) ↔ ∃ a ∈ as, p ∈ ps s a := by
  intro d s d' hb h
  obtain ⟨rfl, name, as, d₁, has, rfl⟩ := declare_eq_ok hf h
  obtain ⟨hb₁, hg₁, hq⟩ := hbody (d.withAuxiliary name) as d₁ (hb.withAuxiliary name) has
  have hlhs : ∀ p ∈ as.flatMap (ps d.symbols.size), p.lhs = d.symbols.size := by
    intro p hp
    obtain ⟨a, -, hp⟩ := List.mem_flatMap.1 hp
    exact hps hp
  refine ⟨hb₁.emit (Draft.size_lt_of_withAuxiliary hg₁) hlhs, Draft.grows_emit hg₁ hlhs,
    fun hk => ?_⟩
  have hauxiliary : t.isAuxiliary d.symbols.size = true := Draft.isAuxiliary_of_emit hg₁ hk
  refine ⟨hauxiliary, as, hq (Draft.keeps_of_emit hlhs hk), fun p => ?_⟩
  rw [Draft.mem_iff_of_emit hg₁ hlhs hb hk, List.mem_flatMap]

section

variable {body : Compile (List Alternative)} {A : Rows Place}
  (hbody : Makes g t v body fun as => t.expansions as = A)

include hbody

theorem auxiliary_makes (owner what : String) :
    Makes g t v (auxiliary body owner what) fun s => t.isAuxiliary s = true ∧ t.places s = A := by
  refine (declare_makes (fun s a => [plainProduction s a]) hbody
    (fun _ _ _ _ _ => pushProduction_eq_ok) ?_ owner what).weaken ?_
  · intro s a p hp
    rw [List.mem_singleton.1 hp]
    rfl
  · rintro s ⟨hs, as, has, h⟩
    refine ⟨hs, ?_⟩
    rw [← has]
    exact Tables.places_eq_expansions fun p => by simpa using h p

theorem repetition_makes (owner : String) :
    Makes g t v (repetition body owner) fun s => t.isAuxiliary s = true ∧ t.places s = A * A∗ := by
  refine (declare_makes loopProductions hbody (fun _ _ _ _ _ => pushLoop_eq_ok)
    lhs_of_mem_loopProductions owner "repeat").weaken ?_
  rintro s ⟨hs, as, has, h⟩
  refine ⟨hs, ?_⟩
  rw [← has]
  exact Tables.places_eq_loop hs h

end

end Compile

open Compile

section

variable (g : Grammar) (t : Tables) (v : Vocabulary)

mutual

/-- The induction is on the rule. The members of a sequence come with what the members before them
lead to. -/
theorem Rule.flatten_makes (owner : String) :
    (r : Rule) → Makes g t v (r.flatten owner) fun as => t.expansions as = r.places v owner
  | ⟨kind, value, name, content, members, named, flags, context⟩ => by
    have hc := flattenContent_makes owner kind content
    cases kind with
    | blank => exact .pure Tables.expansions_empty
    | string =>
        refine .map (literal_makes _) fun s hs => ?_
        rw [Rule.places, hs.1]
        exact Tables.expansions_plain hs.2
    | pattern | token =>
        refine .map (inlineToken_makes _ owner) fun s hs => ?_
        rw [Rule.places, hs.1]
        exact Tables.expansions_plain hs.2
    | immediateToken =>
        refine .bind (inlineToken_makes _ owner) fun s => .pure fun hs => ?_
        rw [Rule.places, hs.1]
        exact Tables.expansions_plain hs.2
    | symbol =>
        refine .map (symbol_makes _) fun s hs => ?_
        rw [Rule.places, hs.1]
        exact Tables.expansions_plain hs.2
    | sequence =>
        refine (flattenSequence_makes owner [{}] members).weaken fun as has => ?_
        rw [has, Tables.expansions_empty, one_mul, Rule.places]
    | choice =>
        refine (flattenChoice_makes owner members).weaken fun as has => ?_
        rw [has, Rule.places]
    | zeroOrMore =>
        refine .bind (repetition_makes hc owner) fun s => .pure fun hs => ?_
        rw [Rule.places, ← Language.one_add_self_mul_kstar_eq_kstar, ← hs.2,
          ← Tables.expansions_empty, ← Tables.expansions_single hs.1]
        exact Tables.expansions_append [{}] [.single s]
    | oneOrMore =>
        refine .map (repetition_makes hc owner) fun s hs => ?_
        rw [Rule.places, ← hs.2]
        exact Tables.expansions_single hs.1
    | precedence | precedenceLeft | precedenceRight | precedenceDynamic =>
        refine .map hc fun as has => ?_
        rw [Rule.places, ← has]
        exact Tables.expansions_map (f := raise _) (fun _ => rfl) as
    | field =>
        refine .bind (fieldId_makes _) fun id => .bind hc fun as => .pure fun has _ => ?_
        rw [Rule.places, ← has]
        refine Tables.expansions_map (fun a => ?_) as
        simp [label, Step.places, Step.place]
    | renamed =>
        refine .bind (newKind_makes _ _) fun kindId => ?_
        dsimp only
        split
        · next name hname =>
            refine .bind (symbol_makes name) fun s => .pure fun hs _ => ?_
            obtain ⟨r, rfl, hr⟩ := Option.bind_eq_some_iff.1 hname
            rw [Rule.places, placesContent, Rule.places_of_symbolName? hr, hs.1]
            exact Tables.expansions_plain hs.2
        · refine .bind (auxiliary_makes hc owner "alias") fun s => .pure fun hs _ => ?_
          rw [Rule.places, ← hs.2]
          exact Tables.expansions_auxiliary hs.1
    | reserved =>
        refine hc.weaken fun as has => ?_
        rw [has, Rule.places]

theorem flattenContent_makes (owner : String) (kind : RuleKind) :
    (content : Option Rule) → Makes g t v (flattenContent owner kind content) fun as =>
      t.expansions as = placesContent v owner content
  | none => .throw
  | some r => Rule.flatten_makes owner r

theorem flattenSequence_makes (owner : String) (before : List Alternative) :
    (members : List Rule) → Makes g t v (flattenSequence owner before members) fun as =>
      t.expansions as = t.expansions before * placesSequence v owner members
  | [] => .pure (mul_one _).symm
  | r :: rs => by
    have hr := Rule.flatten_makes owner r
    refine .bind hr fun alternatives => ?_
    split
    · refine .bind (auxiliary_makes hr owner "seq") fun s => ?_
      refine (flattenSequence_makes owner _ rs).weaken fun as has hs _ => ?_
      rw [has, Tables.expansions_product, single, Tables.expansions_single hs.1, hs.2, mul_assoc]
      rfl
    · refine (flattenSequence_makes owner _ rs).weaken fun as has halternatives => ?_
      rw [has, Tables.expansions_product, halternatives, mul_assoc]
      rfl

theorem flattenChoice_makes (owner : String) :
    (members : List Rule) → Makes g t v (flattenChoice owner members) fun as =>
      t.expansions as = placesChoice v owner members
  | [] => .pure Tables.expansions_nil
  | r :: rs => by
    refine .bind (Rule.flatten_makes owner r) fun alternatives => ?_
    refine .bind (flattenChoice_makes owner rs) fun as => .pure fun has halternatives => ?_
    rw [Tables.expansions_append, halternatives, has]
    rfl

end

end

end EarleyTree

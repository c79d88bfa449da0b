import EarleyTree.Proofs.Language.Integrity
import EarleyTree.Proofs.Language.RuleRows

/-!
The literals of a draft are its anonymous visible terminals, and the keywords of tables are those that
the word token matches in full.
-/
namespace EarleyTree

/-- What a literal is made into: a visible terminal without a name of its own. -/
def SymbolInfo.isLiteral (info : SymbolInfo) : Bool :=
  info.kind == .terminal && !info.named && info.visible

namespace Draft

variable {d d' : Draft} {info : SymbolInfo} {text : String} {s : Symbol}

/-- The terminals that a literal is made into, and no other symbols, are listed with their texts. -/
structure Lists (d : Draft) : Prop where
  nodup : (d.literals.map Prod.fst).Nodup
  mem_iff : ∀ text s, (text, s) ∈ d.literals ↔ d.symbols[s]? = some ⟨text, .terminal, false, true⟩

theorem Lists.of_same (h : d.Lists) (hs : d'.symbols = d.symbols) (hl : d'.literals = d.literals) :
    d'.Lists :=
  ⟨hl ▸ h.nodup, hl ▸ hs ▸ h.mem_iff⟩

theorem Lists.not_mem_size (h : d.Lists) : (text, d.symbols.size) ∉ d.literals := by
  intro hm
  have hi := (h.mem_iff _ _).1 hm
  rw [Array.getElem?_eq_none (Nat.le_refl _)] at hi
  cases hi

theorem Lists.push (h : d.Lists) (hinfo : info.isLiteral = false)
    (hs : d'.symbols = d.symbols.push info) (hl : d'.literals = d.literals) : d'.Lists := by
  refine ⟨hl ▸ h.nodup, fun text s => ?_⟩
  rw [hl, hs, Array.getElem?_push]
  split
  · next hsize =>
      subst hsize
      refine iff_of_false h.not_mem_size fun he => ?_
      rw [Option.some.inj he] at hinfo
      cases hinfo
  · exact h.mem_iff text s

theorem Lists.pushLiteral (h : d.Lists) (hnew : d.literals.lookup text = none)
    (hs : d'.symbols = d.symbols.push ⟨text, .terminal, false, true⟩)
    (hl : d'.literals = (text, d.symbols.size) :: d.literals) : d'.Lists := by
  refine ⟨?_, fun text' s => ?_⟩
  · rw [hl, List.map_cons, List.nodup_cons]
    refine ⟨fun hm => ?_, h.nodup⟩
    obtain ⟨e, he, rfl⟩ := List.mem_map.1 hm
    exact absurd (List.lookup_eq_none_iff.1 hnew e he) (by simp)
  · rw [hl, hs, Array.getElem?_push, List.mem_cons]
    split
    · next hsize =>
        subst hsize
        rw [or_iff_left h.not_mem_size]
        simp [eq_comm]
    · next hsize =>
        rw [← h.mem_iff text' s, or_iff_right]
        exact fun he => hsize (congrArg Prod.snd he)

theorem Lists.emit (h : d.Lists) (ps : List Production) : (d.emit ps).Lists := h.of_same rfl rfl

end Draft

namespace Compile

variable {α β : Type}

/-- If the action succeeds, the literals stay listed. -/
def KeepsLists (m : Compile α) : Prop := ∀ d a d', m d = .ok (a, d') → d.Lists → d'.Lists

namespace KeepsLists

theorem pure (a : α) : KeepsLists (Pure.pure a) := by
  rintro d _ _ ⟨⟩ h
  exact h

theorem throw {e : CompileError} : KeepsLists (throw e : Compile α) := by
  intro _ _ _ h
  cases h

theorem bind {m : Compile α} {k : α → Compile β} (hm : KeepsLists m) (hk : ∀ a, KeepsLists (k a)) :
    KeepsLists (m >>= k) := by
  intro d b d' h hd
  obtain ⟨a, d₁, h₁, h₂⟩ := bind_eq_ok h
  exact hk a d₁ b d' h₂ (hm d a d₁ h₁ hd)

theorem forM {xs : List β} {f : β → Compile PUnit} (h : ∀ x, KeepsLists (f x)) :
    KeepsLists (xs.forM f) := by
  induction xs with
  | nil => exact .pure _
  | cons x xs ih => exact .bind (h x) fun _ => ih

theorem mapM {xs : List β} {f : β → Compile α} (h : ∀ x, KeepsLists (f x)) :
    KeepsLists (xs.mapM f) := by
  induction xs with
  | nil => exact .pure _
  | cons x xs ih =>
      rw [List.mapM_cons]
      exact .bind (h x) fun _ => .bind ih fun _ => .pure _

end KeepsLists

theorem literal_keepsLists (text : String) : KeepsLists (literal text) := by
  intro d s d' h hd
  obtain ⟨-, rfl⟩ | ⟨hnew, rfl, regex, -, rfl⟩ := literal_eq_ok h
  · exact hd
  · exact hd.pushLiteral hnew rfl rfl

/-- The symbol is auxiliary, and productions are no literals. -/
theorem declare_keepsLists {body : Compile (List Alternative)}
    {f : Symbol → Alternative → Compile PUnit} (ps : Symbol → Alternative → List Production)
    (hbody : KeepsLists body)
    (hf : ∀ s a u d d', f s a d = .ok (u, d') →
      d' = { d with productions := d.productions ++ (ps s a).toArray }) (owner what : String) :
    KeepsLists (do
      let name ← freshName owner what
      let s ← pushSymbol name .auxiliary false false
      (← body).forM (f s)
      return s) := by
  intro d s d' h hd
  obtain ⟨-, name, as, d₁, has, rfl⟩ := declare_eq_ok hf h
  exact (hbody (d.withAuxiliary name) as d₁ has (hd.push rfl rfl rfl)).emit _

theorem symbol_keepsLists (name : String) : KeepsLists (symbol name) := by
  intro d s d' h hd
  obtain ⟨-, rfl⟩ := symbol_lookup h
  exact hd

theorem inlineToken_keepsLists (r : Rule) (owner : String) : KeepsLists (inlineToken r owner) := by
  intro d s d' h hd
  obtain ⟨text, -, h⟩ | ⟨-, source, -, ⟨-, rfl⟩ | ⟨-, rfl, name, regex, -, rfl⟩⟩ :=
    inlineToken_eq_ok h
  · exact literal_keepsLists text d s d' h hd
  · exact hd
  · exact hd.push rfl rfl rfl

theorem fieldId_keepsLists (name : String) : KeepsLists (fieldId name) := by
  intro d id d' h hd
  obtain ⟨-, rfl⟩ := fieldId_eq_ok h
  exact hd.of_same rfl rfl

theorem newKind_keepsLists (name : String) (named : Bool) : KeepsLists (newKind name named) := by
  intro d k d' h hd
  obtain ⟨-, rfl⟩ | ⟨_, -, -, rfl⟩ | ⟨-, rfl⟩ := newKind_eq_ok h
  · exact hd
  · exact hd.of_same rfl rfl
  · exact hd.push rfl rfl rfl

theorem stepLogic_keepsLists : StepLogic (fun m _ => KeepsLists m) fun _ => True where
  pure _ := .pure _
  throw := .throw
  bind := .bind
  weaken h _ := h
  symbol := symbol_keepsLists
  literal := literal_keepsLists
  inlineToken := inlineToken_keepsLists
  fieldId := fieldId_keepsLists
  newKind := newKind_keepsLists
  auxiliary owner what hbody :=
    declare_keepsLists (fun s a => [plainProduction s a]) hbody
      (fun _ _ _ _ _ => pushProduction_eq_ok) owner what
  repetition owner hbody :=
    declare_keepsLists loopProductions hbody (fun _ _ _ _ _ => pushLoop_eq_ok) owner "repeat"

end Compile

namespace Grammar

open Compile

variable {g : Grammar} {t : Tables} {hasScanner : Bool}

/-- A symbol that is visible under its name is no literal. -/
theorem isLiteral_eq_false (name : String) (kind : SymbolKind) :
    SymbolInfo.isLiteral ⟨name, kind, !isHiddenName name, !isHiddenName name⟩ = false := by
  cases h : isHiddenName name <;> simp [SymbolInfo.isLiteral]

theorem declareExternal_keepsLists (name : String) : KeepsLists (declareExternal name) := by
  intro d s d' h hd
  obtain ⟨-, rfl⟩ := declareExternal_eq_ok h
  exact hd.push (isLiteral_eq_false name _) rfl rfl

theorem declareRule_keepsLists (e : String × Rule) : KeepsLists (declareRule e) := by
  intro d u d' h hd
  obtain ⟨-, rfl⟩ | ⟨-, rfl⟩ := declareRule_eq_ok h
  · exact hd
  · exact hd.push (isLiteral_eq_false e.1 _) rfl rfl

theorem defineRule_keepsLists (e : String × Rule) : KeepsLists (defineRule e) := by
  intro d u d' h hd
  obtain ⟨s, -, ⟨-, as, d₁, has, rfl⟩ | ⟨-, tokens, -, rfl⟩⟩ := defineRule_eq_ok h
  · exact (stepLogic_keepsLists.flatten e.1 e.2 d as d₁ has hd).of_same rfl rfl
  · exact hd.of_same rfl rfl

theorem declareStart_keepsLists : KeepsLists g.declareStart := by
  intro d s d' h hd
  obtain ⟨-, name, rule, -, -, rfl, rfl⟩ := g.declareStart_eq_ok h
  exact hd.push rfl rfl rfl

/-- The draft from which tables are made lists its literals. -/
theorem exists_lists (h : g.tables hasScanner = .ok t) : ∃ d : Draft, d.Lists ∧
    t.symbols = d.symbols ∧ t.lexTokens = d.lexTokens ∧
    g.compileKeywords d = .ok (t.word, t.keywords) := by
  obtain ⟨d₁, d₂, d₃, d₄, d₅, ⟨_, h₁⟩, h₂, ⟨_, h₃⟩, ⟨_, h₄⟩, h₅, hsymbols, -, -, -, htokens,
    hkeywords, -⟩ := g.exists_phases h
  obtain ⟨-, rfl⟩ := pushSymbol_eq_ok h₁
  have hempty : Draft.Lists {} := ⟨List.nodup_nil, by simp⟩
  have hd₂ := KeepsLists.mapM declareExternal_keepsLists _ _ _ h₂ (hempty.push rfl rfl rfl)
  have hd₃ := KeepsLists.forM declareRule_keepsLists _ _ _ h₃ hd₂
  have hd₄ := KeepsLists.forM defineRule_keepsLists _ _ _ h₄ hd₃
  exact ⟨d₅, declareStart_keepsLists _ _ _ h₅ hd₄, hsymbols, htokens, hkeywords⟩

end Grammar

theorem lookup_eq_some_iff_mem {α β : Type} [BEq α] [LawfulBEq α] {l : List (α × β)} {a : α} {b : β}
    (h : (l.map Prod.fst).Nodup) : l.lookup a = some b ↔ (a, b) ∈ l := by
  refine ⟨mem_of_lookup, fun hm => ?_⟩
  obtain ⟨l₁, l₂, rfl⟩ := List.append_of_mem hm
  refine List.lookup_eq_some_iff.2 ⟨l₁, l₂, rfl, fun e he => bne_iff_ne.2 fun hea => ?_⟩
  rw [List.map_append, List.nodup_append'] at h
  exact h.2.2 (List.mem_map_of_mem he) (hea ▸ List.mem_cons_self)

/-- The symbol is the literal of a text which the word token matches up to its end. -/
def Tables.IsKeyword (t : Tables) (text : String) (s : Symbol) : Prop :=
  t.symbols[s]? = some ⟨text, .terminal, false, true⟩ ∧ ∃ word ∈ t.lexTokens,
    t.word = some word.symbol ∧ ∃ start, word.regex.find? text.toList = some (start, text.utf8ByteSize)

namespace Grammar

variable {g : Grammar} {t : Tables} {hasScanner : Bool} {text : String} {s : Symbol}

/-- A text is looked up among the keywords as the literal that it spells. -/
theorem lookup_keywords_iff (h : g.tables hasScanner = .ok t) :
    t.keywords.lookup text = some s ↔ t.IsKeyword text s := by
  obtain ⟨d, hd, hsymbols, htokens, hkeywords⟩ := exists_lists h
  have hnodup := (intact_of_tables h).nodup_lexTokens
  obtain ⟨hword, hk⟩ | ⟨token, ht, hword, hk⟩ := g.compileKeywords_eq_ok hkeywords
  · rw [hk]
    refine iff_of_false nofun ?_
    rintro ⟨-, _, -, hw, -⟩
    cases hword.symm.trans hw
  · rw [← htokens] at ht
    have hfst : (t.keywords.map Prod.fst).Nodup := by
      rw [hk]
      exact hd.nodup.sublist (List.filter_sublist.map _)
    rw [lookup_eq_some_iff_mem hfst, hk, List.mem_filter, hd.mem_iff, ← hsymbols]
    refine and_congr_right fun _ => ?_
    rw [Option.any_eq_true]
    constructor
    · rintro ⟨⟨start, stop⟩, hfind, hstop⟩
      exact ⟨token, ht, hword, start, by rw [hfind, ← beq_iff_eq.1 hstop]⟩
    · rintro ⟨token', ht', hword', start, hfind⟩
      obtain rfl : token = token' :=
        List.inj_on_of_nodup_map hnodup ht ht' (Option.some.inj (hword.symm.trans hword'))
      exact ⟨_, hfind, beq_self_eq_true _⟩

end Grammar

end EarleyTree

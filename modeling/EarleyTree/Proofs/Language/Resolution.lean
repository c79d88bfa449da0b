import EarleyTree.Proofs.Language.Closed

/-!
What validation has accepted can be looked up: the names that a grammar uses are bound once they have
been declared, so that compilation misses a name only where a reference bears none.
-/
namespace EarleyTree

open Compile

namespace Draft

/-- All of the names are bound to symbols. -/
def Knows (d : Draft) (names : List String) : Prop := ∀ name ∈ names, (d.byName.lookup name).isSome

end Draft

namespace Compile

variable {α β : Type} {names : List String} {p : Prop} {d : Draft}

theorem bind_eq_error {m : Compile α} {k : α → Compile β} {e : CompileError}
    (h : (m >>= k) d = .error e) : m d = .error e ∨ ∃ a d₁, m d = .ok (a, d₁) ∧ k a d₁ = .error e := by
  cases hm : m d with
  | error e' =>
      simp only [Bind.bind, StateT.bind, Except.bind, hm] at h
      cases h
      exact .inl rfl
  | ok r =>
      simp only [Bind.bind, StateT.bind, Except.bind, hm] at h
      exact .inr ⟨r.1, r.2, rfl, h⟩

/-- Where the names are bound, they stay so, and the action misses no other name than the empty one, and
that only if the statement holds. -/
def Resolves (names : List String) (p : Prop) (m : Compile α) : Prop :=
  ∀ d, d.Knows names → (∀ a d', m d = .ok (a, d') → d'.Knows names) ∧
    ∀ name, m d = .error (.unknownSymbol name) → name = "" ∧ p

namespace Resolves

variable {m : Compile α}

theorem pure {a : α} : Resolves names p (Pure.pure a) := by
  refine fun d hd => ⟨?_, nofun⟩
  rintro _ _ ⟨⟩
  exact hd

theorem throw {e : CompileError} (he : ∀ name, e ≠ .unknownSymbol name) :
    Resolves names p (throw e : Compile α) := by
  refine fun d _ => ⟨nofun, fun name h => ?_⟩
  cases h
  exact absurd rfl (he name)

theorem lift {x : Except CompileError α} (hx : ∀ name, x ≠ .error (.unknownSymbol name)) :
    Resolves names p (liftM x : Compile α) := by
  intro d hd
  cases x with
  | ok a =>
      refine ⟨?_, nofun⟩
      rintro _ _ ⟨⟩
      exact hd
  | error e => exact Resolves.throw (fun name he => hx name (he ▸ rfl)) d hd

theorem bind {k : α → Compile β} (hm : Resolves names p m) (hk : ∀ a, Resolves names p (k a)) :
    Resolves names p (m >>= k) := by
  refine fun d hd => ⟨fun b d' h => ?_, fun name h => ?_⟩
  · obtain ⟨a, d₁, h₁, h₂⟩ := bind_eq_ok h
    exact (hk a d₁ ((hm d hd).1 a d₁ h₁)).1 b d' h₂
  · obtain h | ⟨a, d₁, h₁, h₂⟩ := bind_eq_error h
    · exact (hm d hd).2 name h
    · exact (hk a d₁ ((hm d hd).1 a d₁ h₁)).2 name h₂

theorem of_get {k : Draft → Compile α}
    (hk : ∀ d₀, d₀.Knows names → Resolves names p (k d₀)) :
    Resolves names p (MonadState.get >>= k) := fun d hd => hk d hd d hd

theorem of_set {d₁ : Draft} (h : d₁.Knows names) : Resolves names p (set d₁) := by
  refine fun d _ => ⟨?_, nofun⟩
  rintro _ _ ⟨⟩
  exact h

theorem of_modify {f : Draft → Draft} (h : ∀ d, d.Knows names → (f d).Knows names) :
    Resolves names p (modify f) := by
  refine fun d hd => ⟨?_, nofun⟩
  rintro _ _ ⟨⟩
  exact h d hd

theorem forM {xs : List β} {f : β → Compile PUnit} (h : ∀ x ∈ xs, Resolves names p (f x)) :
    Resolves names p (xs.forM f) := by
  induction xs with
  | nil => exact .pure
  | cons x xs ih =>
      obtain ⟨hx, hxs⟩ := List.forall_mem_cons.1 h
      exact .bind hx fun _ => ih hxs

end Resolves

theorem pushSymbol_resolves (name : String) (kind : SymbolKind) (named visible : Bool) :
    Resolves names p (pushSymbol name kind named visible) := by
  refine .of_get fun d hd => ?_
  split
  · exact .bind (.throw nofun) fun _ => .bind (.of_set hd) fun _ => .pure
  · exact .bind (.of_set hd) fun _ => .pure

theorem freshName_resolves (owner what : String) : Resolves names p (freshName owner what) :=
  .of_get fun _ hd => .bind (.of_set hd) fun _ => .pure

theorem pushProduction_resolves (s : Symbol) (a : Alternative) :
    Resolves names p (pushProduction s a) := .of_modify fun _ hd => hd

theorem pushLexToken_resolves (token : LexToken) : Resolves names p (pushLexToken token) :=
  .of_modify fun _ hd => hd

theorem anchoredRegex_ne_unknownSymbol (rule : String) (source : List Char) (name : String) :
    anchoredRegex rule source ≠ .error (.unknownSymbol name) := by
  rw [anchoredRegex]
  split <;> nofun

theorem fieldId_resolves (name : String) : Resolves names p (fieldId name) := by
  refine .of_get fun d hd => ?_
  dsimp only
  split
  · refine .bind (.throw nofun) fun _ => ?_
    split
    · exact .bind (.of_set hd) fun _ => .pure
    · exact .pure
  · split
    · exact .bind (.of_set hd) fun _ => .pure
    · exact .pure

theorem newKind_resolves (name : String) (named : Bool) :
    Resolves names p (newKind name named) := by
  have hnote (s : Symbol) : Resolves names p
      (do modify fun d => { d with newKinds := ((name, named), s) :: d.newKinds }; return s) :=
    .bind (.of_modify fun _ hd => hd) fun _ => .pure
  refine .of_get fun d _ => ?_
  split
  · exact .pure
  · dsimp only
    split
    · exact .bind .pure hnote
    · exact .bind (pushSymbol_resolves _ _ _ _) hnote

theorem literal_resolves (text : String) : Resolves names p (literal text) := by
  refine .of_get fun d _ => ?_
  split
  · exact .pure
  · refine .bind (pushSymbol_resolves _ _ _ _) fun s => .bind (.of_modify fun _ hd => hd) fun _ => ?_
    refine .bind (.lift (anchoredRegex_ne_unknownSymbol _ _)) fun regex => ?_
    exact .bind (pushLexToken_resolves _) fun _ => .pure

theorem symbol_resolves {name : String} (h : name ∈ names ∨ name = "" ∧ p) :
    Resolves names p (symbol name) := by
  refine .of_get fun d hd => ?_
  split
  · exact .pure
  · next hl =>
      refine fun _ _ => ⟨nofun, fun name' he => ?_⟩
      cases he
      refine h.resolve_left fun hm => ?_
      have hbound := hd name hm
      rw [hl] at hbound
      cases hbound

end Compile

theorem except_map_eq_error {ε α β : Type} {x : Except ε α} {f : α → β} {e : ε}
    (h : x.map f = .error e) : x = .error e := by
  cases x with
  | error e' =>
      cases h
      rfl
  | ok a => cases h

theorem except_bind_eq_error {ε α β : Type} {x : Except ε α} {f : α → Except ε β} {e : ε}
    (h : x >>= f = .error e) : x = .error e ∨ ∃ a, x = .ok a ∧ f a = .error e := by
  cases x with
  | error e' =>
      cases h
      exact .inl rfl
  | ok a => exact .inr ⟨a, rfl, h⟩

section

variable (owner name : String)

mutual

/-- A name inside a token is refused, whether it is bound or not. -/
theorem Rule.patternSource_ne_unknownSymbol : (r : Rule) →
    r.patternSource owner ≠ .error (.unknownSymbol name)
  | ⟨kind, value, ref, content, members, named, flags, context⟩ => by
    have hc := contentSource_ne_unknownSymbol kind content
    have hm := sources_ne_unknownSymbol members
    cases kind with
    | blank | pattern | symbol => nofun
    | string => rcases value with _ | text | level <;> nofun
    | sequence | choice => exact fun h => hm (except_map_eq_error h)
    | zeroOrMore | oneOrMore => exact fun h => hc (except_map_eq_error h)
    | token | immediateToken | precedence | precedenceLeft | precedenceRight | precedenceDynamic
    | field | renamed | reserved => exact hc

theorem contentSource_ne_unknownSymbol (kind : RuleKind) : (content : Option Rule) →
    contentSource owner kind content ≠ .error (.unknownSymbol name)
  | none => nofun
  | some r => Rule.patternSource_ne_unknownSymbol r

theorem sources_ne_unknownSymbol : (members : List Rule) →
    sources owner members ≠ .error (.unknownSymbol name)
  | [] => nofun
  | r :: rs => fun h => by
    obtain h | ⟨_, -, h⟩ := except_bind_eq_error h
    · exact Rule.patternSource_ne_unknownSymbol r h
    · obtain h | ⟨_, -, h⟩ := except_bind_eq_error h
      · exact sources_ne_unknownSymbol rs h
      · cases h

end

end

/-- If the rule is a reference, it is to one of the names, or it bears none and the statement holds. -/
def Rule.Refers (names : List String) (p : Prop) (r : Rule) : Prop :=
  r.isSymbol = true → match r.name with
    | some name => name ∈ names
    | none => p

theorem Rule.Refers.of_symbolName? {names : List String} {p : Prop} {r : Rule} {name : String}
    (h : r.Refers names p) (hname : r.symbolName? = some name) : name ∈ names := by
  rw [Rule.symbolName?] at hname
  split at hname
  · next hsymbol =>
      have hrefers := h hsymbol
      rwa [hname] at hrefers
  · cases hname

theorem Rule.mem_walk (r : Rule) : r ∈ r.walk := by
  obtain ⟨⟩ := r
  exact List.mem_cons_self

namespace Compile

variable {names : List String} {p : Prop}

theorem inlineToken_resolves (r : Rule) (owner : String) : Resolves names p (inlineToken r owner) := by
  rw [inlineToken]
  split
  · exact literal_resolves _
  · refine .bind (.lift (r.patternSource_ne_unknownSymbol owner)) fun source => .of_get fun d _ => ?_
    split
    · exact .pure
    · refine .bind (freshName_resolves _ _) fun name => .bind (pushSymbol_resolves _ _ _ _) fun s => ?_
      refine .bind (.lift (anchoredRegex_ne_unknownSymbol _ _)) fun regex => ?_
      refine .bind (pushLexToken_resolves _) fun _ => ?_
      exact .bind (.of_modify fun _ hd => hd) fun _ => .pure

section

variable {body : Compile (List Alternative)} (hbody : Resolves names p body)

include hbody

theorem auxiliary_resolves (owner what : String) : Resolves names p (auxiliary body owner what) := by
  refine .bind (freshName_resolves _ _) fun name => .bind (pushSymbol_resolves _ _ _ _) fun s => ?_
  refine .bind hbody fun as => .bind (.forM fun a _ => ?_) fun _ => .pure
  exact pushProduction_resolves s a

theorem repetition_resolves (owner : String) : Resolves names p (repetition body owner) := by
  refine .bind (freshName_resolves _ _) fun name => .bind (pushSymbol_resolves _ _ _ _) fun s => ?_
  refine .bind hbody fun as => .bind (.forM fun a _ => ?_) fun _ => .pure
  dsimp only
  split
  · exact .bind (pushProduction_resolves s _) fun _ => pushProduction_resolves s a
  · exact pushProduction_resolves s a

end

variable (owner : String)

mutual

/-- The induction is on the rule. All that it refers to stands in the walk through it. -/
theorem flatten_resolves : (r : Rule) → (∀ s ∈ r.walk, s.Refers names p) →
    Resolves names p (r.flatten owner)
  | ⟨kind, value, ref, content, members, named, flags, context⟩ => by
    intro hr
    rw [Rule.walk, List.forall_mem_cons, List.forall_mem_append] at hr
    obtain ⟨hself, hcontent, hmembers⟩ := hr
    have hc := flattenContent_resolves kind content hcontent
    cases kind with
    | blank => exact .pure
    | string => exact .bind (literal_resolves _) fun _ => .pure
    | pattern | token | immediateToken => exact .bind (inlineToken_resolves _ owner) fun _ => .pure
    | symbol =>
        refine .bind (symbol_resolves ?_) fun _ => .pure
        have hself := hself rfl
        cases ref with
        | none => exact .inr ⟨rfl, hself⟩
        | some name => exact .inl hself
    | sequence => exact flattenSequence_resolves [{}] members hmembers
    | choice => exact flattenChoice_resolves members hmembers
    | zeroOrMore | oneOrMore => exact .bind (repetition_resolves hc owner) fun _ => .pure
    | precedence | precedenceLeft | precedenceRight | precedenceDynamic =>
        exact .bind hc fun _ => .pure
    | field => exact .bind (fieldId_resolves _) fun id => .bind hc fun _ => .pure
    | renamed =>
        refine .bind (newKind_resolves _ _) fun kindId => ?_
        dsimp only
        split
        · next name hname =>
            obtain ⟨r, rfl, hname⟩ := Option.bind_eq_some_iff.1 hname
            have hrefers := hcontent r r.mem_walk
            exact .bind (symbol_resolves (.inl (hrefers.of_symbolName? hname))) fun _ => .pure
        · exact .bind (auxiliary_resolves hc owner "alias") fun _ => .pure
    | reserved => exact hc

theorem flattenContent_resolves (kind : RuleKind) : (content : Option Rule) →
    (∀ s ∈ Rule.walkContent content, s.Refers names p) →
    Resolves names p (flattenContent owner kind content)
  | none => fun _ => .throw nofun
  | some r => flatten_resolves r

theorem flattenSequence_resolves (before : List Alternative) : (members : List Rule) →
    (∀ s ∈ Rule.walkMembers members, s.Refers names p) →
    Resolves names p (flattenSequence owner before members)
  | [] => fun _ => .pure
  | r :: rs => by
    intro hr
    rw [Rule.walkMembers, List.forall_mem_append] at hr
    have hfirst := flatten_resolves r hr.1
    refine .bind hfirst fun alternatives => ?_
    split
    · exact .bind (auxiliary_resolves hfirst owner "seq") fun s =>
        flattenSequence_resolves _ rs hr.2
    · exact flattenSequence_resolves _ rs hr.2

theorem flattenChoice_resolves : (members : List Rule) →
    (∀ s ∈ Rule.walkMembers members, s.Refers names p) →
    Resolves names p (flattenChoice owner members)
  | [] => fun _ => .pure
  | r :: rs => by
    intro hr
    rw [Rule.walkMembers, List.forall_mem_append] at hr
    exact .bind (flatten_resolves r hr.1) fun _ => .bind (flattenChoice_resolves rs hr.2) fun _ => .pure

end

end Compile

namespace RuleTable

theorem lookup_of_mem {name : String} {rule : Rule} {es : List (String × Rule)}
    (hnodup : (es.map Prod.fst).Nodup) (hmem : (name, rule) ∈ es) : es.lookup name = some rule := by
  induction es with
  | nil => exact absurd hmem List.not_mem_nil
  | cons e es ih =>
      obtain ⟨hfresh, hnodup⟩ := List.nodup_cons.1 hnodup
      rw [List.lookup_cons]
      obtain rfl | hmem := List.mem_cons.1 hmem
      · rw [beq_self_eq_true]
      · have hne : name ≠ e.1 := fun he => hfresh (he ▸ List.mem_map_of_mem hmem)
        rw [beq_eq_false_iff_ne.2 hne]
        exact ih hnodup hmem

theorem exists_find?_of_mem (t : RuleTable) {name : String} (h : name ∈ t.names) :
    ∃ rule, t.find? name = some rule := by
  obtain ⟨⟨_, rule⟩, hmem, rfl⟩ := List.mem_map.1 h
  exact ⟨rule, lookup_of_mem t.nodup hmem⟩

end RuleTable

namespace Grammar

variable {g : Grammar}

variable (g) in
/-- The rules in which names are looked up. -/
def bodies : List Rule := g.rules.entries.map Prod.snd ++ g.extras.getD []

variable (g) in
/-- The names that compilation looks up. -/
def usedNames : List String :=
  g.bodies.flatMap Rule.references ++ g.word.toList ++ g.startRule?.toList

variable (g) in
def declaredNames : List String := g.externalNames ++ g.rules.names

variable (g) in
/-- Somewhere in a rule or an extra stands a reference that bears no name. -/
def HasNameless : Prop := ∃ body ∈ g.bodies, ∃ r ∈ body.walk, r.isSymbol = true ∧ r.name = none

theorem isDefined_iff {name : String} : g.isDefined name = true ↔ name ∈ g.declaredNames := by
  simp [isDefined, declaredNames, RuleTable.contains, or_comm]

theorem mem_names_of_mem_orderedNames {name : String} (h : name ∈ g.orderedNames) :
    name ∈ g.rules.names := by
  rw [orderedNames, List.mem_append, (sortNames_perm _).mem_iff, List.mem_filter, recordedNames,
    List.mem_eraseDups, List.mem_filter] at h
  obtain ⟨-, h⟩ | ⟨h, -⟩ := h
  · exact List.contains_iff_mem.1 h
  · exact h

theorem mem_names_of_startRule? {start : String} (h : g.startRule? = some start) :
    start ∈ g.rules.names := by
  rw [startRule?] at h
  split at h
  · next first hfirst =>
      cases h
      exact List.contains_iff_mem.1 (List.find?_some hfirst)
  · refine mem_names_of_mem_orderedNames ?_
    obtain h | ⟨-, h⟩ := Option.or_eq_some_iff.1 h
    · exact List.mem_of_find?_eq_some h
    · exact List.mem_of_mem_head? h

theorem checkReferences_eq_ok {context : String} {r : Rule} {u : Unit}
    (h : g.checkReferences context r = .ok u) : r.references ⊆ g.declaredNames := by
  rw [checkReferences] at h
  split at h
  · cases h
  · next hnone =>
      intro name hname
      simpa [isDefined_iff] using List.find?_eq_none.1 hnone name hname

theorem checks_eq_ok {α : Type} {check : α → Except ValidationError Unit} {xs : List α} {u : Unit}
    (h : xs.forM check = .ok u) : ∀ x ∈ xs, ∃ u, check x = .ok u := by
  induction xs with
  | nil => exact fun _ hx => absurd hx List.not_mem_nil
  | cons x xs ih =>
      obtain ⟨u₁, hx, hxs⟩ := except_bind_eq_ok h
      exact List.forall_mem_cons.2 ⟨⟨u₁, hx⟩, ih hxs⟩

theorem checkDeclarations_eq_ok {u : Unit} (h : g.checkDeclarations = .ok u) :
    (∀ word, g.word = some word → word ∈ g.rules.names) ∧
      ∀ r ∈ g.extras.getD [], r.references ⊆ g.declaredNames := by
  rw [checkDeclarations] at h
  dsimp only at h
  have hextras : (g.extras.getD []).forM (g.checkReferences "extras") = .ok u := by
    repeat' split at h
    all_goals first
      | exact h
      | cases h
  refine ⟨fun word hword => ?_, fun r hr => ?_⟩
  · rw [hword] at h
    dsimp only at h
    split at h
    · cases h
    · next hdefined => simpa [RuleTable.contains] using hdefined
  · obtain ⟨_, hcheck⟩ := checks_eq_ok hextras r hr
    exact checkReferences_eq_ok hcheck

/-- What validation accepts uses no name that is not declared, and has a rule to start with. -/
theorem validate_eq_ok {report : ValidationReport} (h : g.validate = .ok report) :
    g.usedNames ⊆ g.declaredNames ∧ ∃ start, g.startRule? = some start := by
  obtain ⟨_, hrules, h⟩ := except_bind_eq_ok h
  obtain ⟨_, hdeclarations, h⟩ := except_bind_eq_ok h
  obtain ⟨hword, hextras⟩ := checkDeclarations_eq_ok hdeclarations
  obtain ⟨start, hstart⟩ : ∃ start, g.startRule? = some start := by
    split at h
    · cases h
    · exact ⟨_, ‹_›⟩
  refine ⟨fun name hname => ?_, start, hstart⟩
  rw [usedNames, List.mem_append, List.mem_append, List.mem_flatMap, Option.mem_toList,
    Option.mem_toList] at hname
  obtain (⟨r, hr, hname⟩ | hw) | hs := hname
  · rw [bodies, List.mem_append, List.mem_map] at hr
    obtain ⟨⟨owner, r⟩, he, rfl⟩ | hr := hr
    · obtain ⟨_, hcheck⟩ := checks_eq_ok hrules (owner, r)
        (g.mem_orderedRules.2 (RuleTable.lookup_of_mem g.rules.nodup he))
      exact checkReferences_eq_ok hcheck hname
    · exact hextras r hr hname
  · exact List.mem_append_right _ (hword name hw)
  · exact List.mem_append_right _ (mem_names_of_startRule? hs)

/-- All that the bodies refer to is declared, or they have a reference without a name. -/
theorem refers_of_bodies (h : g.usedNames ⊆ g.declaredNames) {body r : Rule} (hb : body ∈ g.bodies)
    (hr : r ∈ body.walk) : r.Refers g.declaredNames g.HasNameless := by
  intro hsymbol
  split
  · next name hname =>
      refine h (List.mem_append_left _ (List.mem_append_left _ ?_))
      refine List.mem_flatMap.2 ⟨body, hb, List.mem_filterMap.2 ⟨r, hr, ?_⟩⟩
      rw [Rule.symbolName?, if_pos hsymbol, hname]
  · next hname => exact ⟨body, hb, r, hr, hsymbol, hname⟩

section

variable {names : List String} {p : Prop}

theorem bindName_resolves (name : String) (s : Symbol) : Resolves names p (bindName name s) := by
  refine .of_modify fun d hd n hn => ?_
  rw [List.lookup_cons]
  split
  · rfl
  · exact hd n hn

theorem declareExternal_resolves (name : String) : Resolves names p (declareExternal name) :=
  .bind (pushSymbol_resolves _ _ _ _) fun s => .bind (bindName_resolves name s) fun _ => .pure

theorem declareExternals_resolves : Resolves names p g.declareExternals := by
  rw [declareExternals_eq]
  induction g.externalNames with
  | nil => exact .pure
  | cons name externals ih =>
      rw [List.mapM_cons]
      exact .bind (declareExternal_resolves name) fun _ => .bind ih fun _ => .pure

theorem declareRule_resolves (e : String × Rule) : Resolves names p (declareRule e) := by
  refine .of_get fun d _ => ?_
  split
  · exact .bind (pushSymbol_resolves _ _ _ _) fun s => bindName_resolves e.1 s
  · exact .pure

theorem defineRule_resolves {e : String × Rule} (hname : e.1 ∈ names)
    (hbody : ∀ r ∈ e.2.walk, r.Refers names p) : Resolves names p (defineRule e) := by
  obtain ⟨name, rule⟩ := e
  refine .bind (symbol_resolves (.inl hname)) fun s => .of_get fun d _ => ?_
  split
  · refine .bind (.lift (rule.patternSource_ne_unknownSymbol name)) fun source => ?_
    exact .bind (.lift (anchoredRegex_ne_unknownSymbol _ _)) fun _ => pushLexToken_resolves _
  · refine .bind (flatten_resolves name rule hbody) fun as => .forM fun a _ => ?_
    exact pushProduction_resolves s a
  · exact .pure

theorem declareStart_resolves {start : String} (hstart : g.startRule? = some start)
    (hname : start ∈ names) : Resolves names p g.declareStart := by
  rw [declareStart, hstart]
  refine .bind (symbol_resolves (.inl hname)) fun rule => ?_
  exact .bind (pushSymbol_resolves _ _ _ _) fun s => .bind (pushProduction_resolves s _) fun _ => .pure

theorem wrappedTokens_ne_unknownSymbol (d : Draft) (owner : String) (s : Symbol) (name : String) :
    wrappedTokens d owner s ≠ .error (.unknownSymbol name) := by
  rw [wrappedTokens]
  generalize d.productions.toList.filter (·.lhs == s) = ps
  intro h
  induction ps with
  | nil => cases h
  | cons q qs ih =>
      rw [List.mapM_cons] at h
      obtain h | ⟨_, -, h⟩ := except_bind_eq_error h
      · split at h
        · split at h <;> cases h
        · cases h
      · obtain h | ⟨_, -, h⟩ := except_bind_eq_error h
        · exact ih h
        · cases h

variable {d : Draft}

theorem of_lookup_eq_none {r : Rule} (hd : d.Knows names) (hr : r.Refers names p)
    (hsymbol : r.kind = .symbol) (hl : d.byName.lookup (r.name.getD "") = none) :
    r.name.getD "" = "" ∧ p := by
  have hr := hr (by rw [Rule.isSymbol, hsymbol]; rfl)
  cases hname : r.name with
  | none =>
      rw [hname] at hr
      exact ⟨rfl, hr⟩
  | some name =>
      rw [hname] at hr hl
      have hbound := hd name hr
      rw [Option.getD_some] at hl
      rw [hl] at hbound
      cases hbound

theorem addExtra_eq_unknownSymbol {extras : Extras} {r : Rule} {name : String} (hd : d.Knows names)
    (hr : r.Refers names p) (h : addExtra d extras r = .error (.unknownSymbol name)) :
    name = "" ∧ p := by
  rw [addExtra] at h
  split at h
  case h_1 | h_2 | h_3 =>
    obtain h | ⟨source, -, h⟩ := except_bind_eq_error h
    · exact absurd h (r.patternSource_ne_unknownSymbol "extras" name)
    · obtain h | ⟨_, -, h⟩ := except_bind_eq_error h
      · exact absurd h (anchoredRegex_ne_unknownSymbol _ _ _)
      · cases h
  case h_4 hkind =>
    dsimp only at h
    split at h
    · next hl =>
        cases h
        exact of_lookup_eq_none hd hr hkind hl
    · split at h
      · cases h
      · obtain h | ⟨_, -, h⟩ := except_bind_eq_error h
        · exact absurd h (wrappedTokens_ne_unknownSymbol d _ _ name)
        · cases h
  case h_5 => cases h

theorem compileExtras_eq_unknownSymbol {name : String} (hd : d.Knows names)
    (hr : ∀ r ∈ g.extras.getD [], r.Refers names p)
    (h : g.compileExtras d = .error (.unknownSymbol name)) : name = "" ∧ p := by
  rw [compileExtras] at h
  split at h
  · obtain h | ⟨_, -, h⟩ := except_bind_eq_error h
    · exact absurd h (anchoredRegex_ne_unknownSymbol _ _ _)
    · cases h
  · next rules hrules =>
      rw [hrules, Option.getD_some] at hr
      clear hrules
      generalize ({} : Extras) = extras at h
      induction rules generalizing extras with
      | nil => cases h
      | cons r rules ih =>
          obtain ⟨hfirst, hr⟩ := List.forall_mem_cons.1 hr
          rw [List.foldlM_cons] at h
          obtain h | ⟨extras, -, h⟩ := except_bind_eq_error h
          · exact addExtra_eq_unknownSymbol hd hfirst h
          · exact ih hr extras h

theorem compileKeywords_ne_unknownSymbol (hd : d.Knows names)
    (hw : ∀ word, g.word = some word → word ∈ names) (name : String) :
    g.compileKeywords d ≠ .error (.unknownSymbol name) := by
  intro h
  rw [compileKeywords] at h
  split at h
  · cases h
  · next word hword =>
      split at h
      · next hl =>
          have hbound := hd word (hw word hword)
          rw [hl] at hbound
          cases hbound
      · split at h <;> cases h

end

variable (g) in
/-- Binds the names of all externals and rules, before there are any productions. -/
def declareNames : Compile (List Symbol) := do
  let _ ← pushSymbol "end" .endMarker false false
  let externals ← g.declareExternals
  g.declareRules
  return externals

variable (g) in
def defineNames (externals : List Symbol) : Compile (List Symbol × Symbol) := do
  g.defineRules
  let start ← g.declareStart
  return (externals, start)

theorem declareNames_bind_defineNames : (do
      let _ ← pushSymbol "end" .endMarker false false
      let externals ← g.declareExternals
      g.declareRules
      g.defineRules
      let start ← g.declareStart
      return (externals, start)) = g.declareNames >>= g.defineNames := by
  simp only [declareNames, defineNames, bind_assoc, pure_bind]

variable (g) in
/-- The drafts that a compilation comes to once all names are declared. -/
inductive Reaches : Draft → Prop
  | declared {ss : List Symbol} {d : Draft} (h : g.declareNames {} = .ok (ss, d)) : Reaches d
  | defined {e : String × Rule} {d d' : Draft} (he : e ∈ g.orderedRules) (hd : Reaches d)
      (h : defineRule e d = .ok ((), d')) : Reaches d'
  | started {s : Symbol} {d d' : Draft} (hd : Reaches d) (h : g.declareStart d = .ok (s, d')) :
      Reaches d'

theorem declareNames_ne_unknownSymbol (name : String) :
    g.declareNames {} ≠ .error (.unknownSymbol name) := by
  have hm : Resolves [] False g.declareNames := by
    refine .bind (pushSymbol_resolves _ _ _ _) fun _ => .bind declareExternals_resolves fun _ => ?_
    rw [declareRules_eq]
    exact .bind (.forM fun e _ => declareRule_resolves e) fun _ => .pure
  exact fun h => ((hm {} fun _ hn => absurd hn List.not_mem_nil).2 name h).2

theorem declareNames_knows {ss : List Symbol} {d : Draft} (h : g.declareNames {} = .ok (ss, d)) :
    d.Knows g.declaredNames := by
  obtain ⟨s, d₁, h₁, h⟩ := bind_eq_ok h
  obtain ⟨ss, d₂, h₂, h⟩ := bind_eq_ok h
  obtain ⟨u, d₃, h₃, h⟩ := bind_eq_ok h
  cases h
  obtain ⟨names, hd, hnames⟩ := exists_declares h₁ h₂ h₃
  refine fun name hname => hd.bound name (hnames name ?_)
  obtain hname | hname := List.mem_append.1 hname
  · exact .inl hname
  · obtain ⟨rule, hrule⟩ := g.rules.exists_find?_of_mem hname
    exact .inr (by rw [hrule]; rfl)

theorem declareStart_resolves_of_startRule? {start : String} (hstart : g.startRule? = some start) :
    Resolves g.declaredNames g.HasNameless g.declareStart :=
  declareStart_resolves hstart (List.mem_append_right _ (mem_names_of_startRule? hstart))

theorem defineRule_resolves_of_mem {e : String × Rule} (hused : g.usedNames ⊆ g.declaredNames)
    (he : e ∈ g.orderedRules) :
    Resolves g.declaredNames g.HasNameless (defineRule e) := by
  have hmem := mem_of_lookup (g.mem_orderedRules.1 he)
  refine defineRule_resolves (List.mem_append_right _ (List.mem_map_of_mem hmem)) fun r hr => ?_
  exact refers_of_bodies hused (List.mem_append_left _ (List.mem_map_of_mem hmem)) hr

/-- What has been declared stays bound to the end. -/
theorem Reaches.knows {start : String} (hused : g.usedNames ⊆ g.declaredNames)
    (hstart : g.startRule? = some start) {d : Draft} (hd : g.Reaches d) : d.Knows g.declaredNames := by
  induction hd with
  | declared h => exact declareNames_knows h
  | defined he _ h ih => exact (defineRule_resolves_of_mem hused he _ ih).1 _ _ h
  | started _ h ih => exact (declareStart_resolves_of_startRule? hstart _ ih).1 _ _ h

theorem defineNames_resolves (hused : g.usedNames ⊆ g.declaredNames) {start : String}
    (hstart : g.startRule? = some start) (externals : List Symbol) :
    Resolves g.declaredNames g.HasNameless (g.defineNames externals) := by
  refine .bind ?_ fun _ => .bind (declareStart_resolves_of_startRule? hstart) fun _ => .pure
  rw [defineRules_eq]
  exact .forM fun e he => defineRule_resolves_of_mem hused he

/-- No phase of a compilation misses a name, but for the empty one. -/
theorem tables_eq_unknownSymbol {name : String} {hasScanner : Bool} {report : ValidationReport}
    (hvalid : g.validate = .ok report) (h : g.tables hasScanner = .error (.unknownSymbol name)) :
    name = "" ∧ g.HasNameless := by
  obtain ⟨hused, start, hstart⟩ := validate_eq_ok hvalid
  rw [tables, hvalid, declareNames_bind_defineNames] at h
  dsimp only at h
  split at h
  · cases h
  obtain h | ⟨⟨r, d⟩, hr, h⟩ := except_bind_eq_error h
  · obtain h | ⟨externals, d, hd, h⟩ := bind_eq_error h
    · exact absurd h (declareNames_ne_unknownSymbol name)
    · exact (defineNames_resolves hused hstart externals d (declareNames_knows hd)).2 name h
  · obtain ⟨externals, d₁, hd, hr⟩ := bind_eq_ok hr
    have hd := (defineNames_resolves hused hstart externals d₁ (declareNames_knows hd)).1 r d hr
    obtain h | ⟨extras, -, h⟩ := except_bind_eq_error h
    · refine compileExtras_eq_unknownSymbol hd (fun r hr => ?_) h
      exact refers_of_bodies hused (List.mem_append_right _ hr) r.mem_walk
    obtain h | ⟨_, -, h⟩ := except_bind_eq_error h
    · refine absurd h (compileKeywords_ne_unknownSymbol hd (fun word hword => hused ?_) name)
      exact List.mem_append_left _ (List.mem_append_right _ (Option.mem_toList.2 hword))
    · cases h

theorem symbol_eq_ok_of_knows {names : List String} {d : Draft} {name : String} (hd : d.Knows names)
    (h : name ∈ names) : ∃ s, symbol name d = .ok (s, d) := by
  obtain ⟨s, hs⟩ := Option.isSome_iff_exists.1 (hd name h)
  refine ⟨s, ?_⟩
  simp only [symbol, bind, StateT.bind, get, getThe, MonadStateOf.get, StateT.get, Except.bind, pure,
    Except.pure, hs]
  rfl

/-- Validation rules out unresolved names: what it accepts has a rule to start with, all that is used is
bound in every draft once it has been declared, and a compilation that misses a name has come across a
reference that bears none. -/
theorem resolves_of_validate {report : ValidationReport} (h : g.validate = .ok report) :
    (∀ scanner handle name, Language.compile g scanner handle = .error (.unknownSymbol name) →
      name = "" ∧ ∃ body ∈ g.bodies, ∃ r ∈ body.walk, r.isSymbol = true ∧ r.name = none) ∧
    (∃ start, g.startRule? = some start) ∧
    ∀ d, g.Reaches d → ∀ name ∈ g.usedNames, ∃ s, symbol name d = .ok (s, d) := by
  obtain ⟨hused, start, hstart⟩ := validate_eq_ok h
  refine ⟨fun scanner handle name hc => ?_, ⟨start, hstart⟩, fun d hd name hname => ?_⟩
  · exact tables_eq_unknownSymbol h (except_map_eq_error hc)
  · exact symbol_eq_ok_of_knows (hd.knows hused hstart) (hused hname)

end Grammar

def fails {ε α : Type} [DecidableEq ε] (x : Except ε α) (e : ε) : Bool :=
  match x with
  | .error e' => e' = e
  | .ok _ => false

theorem eq_error_of_fails {ε α : Type} [DecidableEq ε] {x : Except ε α} {e : ε}
    (h : fails x e = true) : x = .error e := by
  cases x with
  | error e' => rw [of_decide_eq_true h]
  | ok a => cases h

def namelessRule : Rule := .seq [.renamedTo (.ref "item") "entry" true, { kind := .symbol }]

/-- An external has the name of a rule, and a reference at the end of the first rule bears none. -/
def namelessGrammar : Grammar :=
  { ((({ name := "nameless" } : Grammar).define "list" namelessRule).define "item"
      (.seq [.ref "layout", .ref "word"])).define "word" (.regex "[a-z]+")
    with
      externals := some [.ref "layout", .literal "item"]
      extras := some [.regex "\\s", .ref "layout"]
      word := some "word" }

theorem exists_of_toOption_isSome {ε α : Type} {x : Except ε α} (h : x.toOption.isSome = true) :
    ∃ a, x = .ok a := by
  cases x with
  | error e => cases h
  | ok a => exact ⟨a, rfl⟩

theorem resolves_namelessGrammar : ∃ report, namelessGrammar.validate = .ok report ∧
    (∀ sc : Scanner,
      Language.compile namelessGrammar (some sc) 0 = .error (.unknownSymbol "") ∧
      ∃ body ∈ namelessGrammar.bodies, ∃ r ∈ body.walk, r.isSymbol = true ∧ r.name = none) ∧
    namelessGrammar.usedNames = ["item", "layout", "word", "layout", "word", "list"] ∧
    ∃ d, namelessGrammar.Reaches d ∧
      ∀ name ∈ namelessGrammar.usedNames, ∃ s, symbol name d = .ok (s, d) := by
  obtain ⟨report, hreport⟩ : ∃ report, namelessGrammar.validate = .ok report :=
    exists_of_toOption_isSome (by decide +kernel)
  obtain ⟨⟨ss, d⟩, hd⟩ : ∃ r, namelessGrammar.declareNames {} = .ok r :=
    exists_of_toOption_isSome (by decide +kernel)
  have ht : namelessGrammar.tables true = .error (.unknownSymbol "") :=
    eq_error_of_fails (by decide +kernel)
  obtain ⟨hc, -, hnames⟩ := Grammar.resolves_of_validate hreport
  refine ⟨report, hreport, fun sc => ?_, by decide +kernel, d, .declared hd, hnames d (.declared hd)⟩
  have hcompile : Language.compile namelessGrammar (some sc) 0 = .error (.unknownSymbol "") := by
    rw [Language.compile, Option.isSome_some, ht]
    rfl
  exact ⟨hcompile, (hc (some sc) 0 "" hcompile).2⟩

end EarleyTree

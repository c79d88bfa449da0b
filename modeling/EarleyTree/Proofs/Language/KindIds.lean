import EarleyTree.Proofs.Language.TokenRuns

/-!
Kinds are looked up by their labels: which labels the visible symbols of a compiled language have, from
the literals and the new names that its rules mention in turn.
-/
namespace EarleyTree

open Compile

/-- What a kind is looked up by: its name, and whether it is a named one. -/
abbrev Label := String × Bool

/-- A part of a rule that needs a visible kind. -/
inductive Mention
  | literal (text : String)
  | renamed (name : String) (named : Bool)
  deriving DecidableEq

def Mention.label : Mention → Label
  | literal text => (text, false)
  | renamed name named => (name, named)

mutual

/-- What a syntactic rule mentions, in the order in which it is flattened. -/
def Rule.mentions : Rule → List Mention
  | r@⟨kind, _, name, content, members, named, _, _⟩ =>
    match kind with
    | .blank | .symbol => []
    | .string => [.literal (r.stringValue?.getD "")]
    | .pattern | .token | .immediateToken => r.literalText?.toList.map .literal
    | .sequence | .choice => mentionsMembers members
    | .zeroOrMore | .oneOrMore | .precedence | .precedenceLeft | .precedenceRight
    | .precedenceDynamic | .field | .reserved => mentionsContent content
    | .renamed => .renamed (name.getD "") (named.getD false) :: mentionsContent content

def mentionsContent : Option Rule → List Mention
  | none => []
  | some r => r.mentions

def mentionsMembers : List Rule → List Mention
  | [] => []
  | r :: rs => r.mentions ++ mentionsMembers rs

end

theorem Rule.mentions_of_symbolName? {name : String} {r : Rule} (h : r.symbolName? = some name) :
    r.mentions = [] := by
  obtain ⟨kind, value, n, content, members, named, flags, context⟩ := r
  rw [Rule.symbolName?, Rule.isSymbol] at h
  split at h
  · next hk =>
      obtain rfl : kind = .symbol := by simpa using hk
      rw [Rule.mentions]
  · cases h

/-- The labels of the visible symbols, and the texts that have terminals of their own. -/
structure Naming where
  labels : List Label
  texts : List String

namespace Naming

/-- A literal gets a kind unless that text has one, and a new name unless any kind bears it. -/
def note (n : Naming) : Mention → Naming
  | .literal text =>
    if text ∈ n.texts then n else ⟨n.labels ++ [(text, false)], text :: n.texts⟩
  | .renamed name named =>
    if (name, named) ∈ n.labels then n else ⟨n.labels ++ [(name, named)], n.texts⟩

def Knows (n : Naming) : Mention → Prop
  | .literal text => text ∈ n.texts
  | .renamed name named => (name, named) ∈ n.labels

variable {n : Naming} {m m' : Mention} {ms more : List Mention}

theorem note_of_knows (h : n.Knows m) : n.note m = n := by
  cases m with
  | literal text => exact if_pos h
  | renamed name named => exact if_pos h

theorem knows_note_self : (n.note m).Knows m := by
  cases m with
  | literal text =>
      rw [note, Knows]
      split
      · assumption
      · exact List.mem_cons_self
  | renamed name named =>
      rw [note, Knows]
      split
      · assumption
      · exact List.mem_append_right _ List.mem_cons_self

theorem labels_note : n.labels <+: (n.note m).labels := by
  cases m with
  | literal text =>
      rw [note]
      split
      · exact List.prefix_rfl
      · exact List.prefix_append _ _
  | renamed name named =>
      rw [note]
      split
      · exact List.prefix_rfl
      · exact List.prefix_append _ _

theorem texts_note : n.texts ⊆ (n.note m).texts := by
  cases m with
  | literal text =>
      rw [note]
      split
      · exact List.Subset.refl _
      · exact List.subset_cons_self _ _
  | renamed name named =>
      rw [note]
      split
      · exact List.Subset.refl _
      · exact List.Subset.refl _

theorem Knows.note (h : n.Knows m') : (n.note m).Knows m' := by
  cases m' with
  | literal text => exact texts_note h
  | renamed name named => exact labels_note.subset h

theorem Knows.notes (h : n.Knows m) : (ms.foldl Naming.note n).Knows m := by
  induction ms generalizing n with
  | nil => exact h
  | cons m' ms ih => exact ih h.note

theorem knows_of_mem (h : m ∈ ms) : (ms.foldl note n).Knows m := by
  induction ms generalizing n with
  | nil => exact absurd h List.not_mem_nil
  | cons m' ms ih =>
      obtain rfl | h := List.mem_cons.1 h
      · exact knows_note_self.notes
      · exact ih h

/-- To mention the same once more changes nothing. -/
theorem notes_again (h : more ⊆ ms) : more.foldl note (ms.foldl note n) = ms.foldl note n := by
  have hknown : ∀ m ∈ more, (ms.foldl note n).Knows m := fun m hm => knows_of_mem (h hm)
  clear h
  induction more with
  | nil => rfl
  | cons m more ih =>
      obtain ⟨hm, hmore⟩ := List.forall_mem_cons.1 hknown
      rw [List.foldl_cons, note_of_knows hm]
      exact ih hmore

end Naming

/-- The text is given to nodes as a new anonymous name before it is met as a literal. -/
def RenamesBefore (ms : List Mention) (text : String) : Prop :=
  ms.find? (·.label == (text, false)) = some (.renamed text false) ∧ .literal text ∈ ms

instance (ms : List Mention) (text : String) : Decidable (RenamesBefore ms text) :=
  inferInstanceAs (Decidable (_ ∧ _))

theorem RenamesBefore.append {ms : List Mention} {text : String} (h : RenamesBefore ms text)
    (more : List Mention) : RenamesBefore (ms ++ more) text := by
  refine ⟨?_, List.mem_append_left _ h.2⟩
  rw [List.find?_append, h.1]
  rfl

theorem find?_label {ms : List Mention} {text : String} (h : ∃ m ∈ ms, m.label = (text, false))
    (hl : .literal text ∉ ms) : ms.find? (·.label == (text, false)) = some (.renamed text false) := by
  obtain ⟨m, hm⟩ : ∃ m, ms.find? (·.label == (text, false)) = some m :=
    Option.isSome_iff_exists.1 (List.find?_isSome.2 (by simpa using h))
  have hlabel := List.find?_some hm
  cases m with
  | literal t =>
      obtain rfl : t = text := by simpa [Mention.label] using hlabel
      exact absurd (List.mem_of_find?_eq_some hm) hl
  | renamed name named =>
      obtain ⟨rfl, rfl⟩ : name = text ∧ named = false := by simpa [Mention.label] using hlabel
      exact hm

namespace Naming

variable {n : Naming} {m : Mention} {ms : List Mention} {name text : String} {k : Label}

theorem labels_note_of_not_knows (h : ¬ n.Knows m) : (n.note m).labels = n.labels ++ [m.label] := by
  cases m with
  | literal text => exact congrArg labels (if_neg h)
  | renamed name named => exact congrArg labels (if_neg h)

theorem mem_labels_note (h : k ∈ (n.note m).labels) : k ∈ n.labels ∨ k = m.label := by
  by_cases hm : n.Knows m
  · exact .inl (note_of_knows hm ▸ h)
  · rwa [labels_note_of_not_knows hm, List.mem_append, List.mem_singleton] at h

theorem mem_labels_notes (h : k ∈ (ms.foldl note n).labels) :
    k ∈ n.labels ∨ ∃ m ∈ ms, m.label = k := by
  induction ms generalizing n with
  | nil => exact .inl h
  | cons m ms ih =>
      obtain h | ⟨m', hm', hk⟩ := ih h
      · obtain h | rfl := mem_labels_note h
        · exact .inl h
        · exact .inr ⟨m, List.mem_cons_self, rfl⟩
      · exact .inr ⟨m', List.mem_cons_of_mem m hm', hk⟩

theorem count_note_of_ne (h : m.label ≠ k) : (n.note m).labels.count k = n.labels.count k := by
  by_cases hm : n.Knows m
  · rw [note_of_knows hm]
  · rw [labels_note_of_not_knows hm, List.count_append, List.count_singleton,
      if_neg (by simpa using h), Nat.add_zero]

theorem count_note_of_notMem (h : m.label ∉ n.labels) : (n.note m).labels.count m.label ≤ 1 := by
  by_cases hm : n.Knows m
  · rw [note_of_knows hm, List.count_eq_zero_of_not_mem h]
    exact Nat.zero_le 1
  · rw [labels_note_of_not_knows hm, List.count_append, List.count_eq_zero_of_not_mem h]
    simp

/-- A named kind is made only for a new name that no kind bears. -/
theorem count_notes_named :
    (ms.foldl note n).labels.count (name, true) ≤ max 1 (n.labels.count (name, true)) := by
  induction ms generalizing n with
  | nil => exact Nat.le_max_right _ _
  | cons m ms ih =>
      refine ih.trans (max_le (Nat.le_max_left _ _) ?_)
      by_cases hlabel : m.label = (name, true)
      · by_cases hm : n.Knows m
        · rw [note_of_knows hm]
          exact Nat.le_max_right _ _
        · refine le_max_of_le_left (hlabel ▸ count_note_of_notMem fun hmem => ?_)
          cases m with
          | literal text => cases hlabel
          | renamed name named => exact hm hmem
      · rw [count_note_of_ne hlabel]
        exact Nat.le_max_right _ _

/-- The induction is on the last mention. If that is a literal which makes a second kind, then the first
one was made for a new name. -/
theorem count_notes_anonymous (hnone : (text, false) ∉ n.labels) (h : ¬ RenamesBefore ms text) :
    (ms.foldl note n).labels.count (text, false) ≤ 1 := by
  induction ms using List.reverseRecOn with
  | nil =>
      rw [List.foldl_nil, List.count_eq_zero_of_not_mem hnone]
      exact Nat.zero_le 1
  | append_singleton ms m ih =>
      rw [List.foldl_append, List.foldl_cons, List.foldl_nil]
      have ih := ih fun hr => h (hr.append [m])
      by_cases hlabel : m.label = (text, false)
      · by_cases hm : (ms.foldl note n).Knows m
        · rwa [note_of_knows hm]
        · refine hlabel ▸ count_note_of_notMem fun hmem => ?_
          cases m with
          | literal t =>
              obtain rfl : t = text := congrArg Prod.fst hlabel
              have hbefore := (mem_labels_notes hmem).resolve_left hnone
              refine h ⟨?_, List.mem_append_right ms List.mem_cons_self⟩
              rw [List.find?_append, find?_label hbefore fun hl => hm (knows_of_mem hl)]
              rfl
          | renamed name named => exact hm hmem
      · rwa [count_note_of_ne hlabel]

end Naming

def visibleLabels (symbols : List SymbolInfo) : List Label :=
  (symbols.filter (·.visible)).map fun s => (s.name, s.named)

theorem mem_visibleLabels {symbols : List SymbolInfo} {name : String} {named : Bool} :
    (name, named) ∈ visibleLabels symbols ↔
      ∃ s ∈ symbols, s.visible = true ∧ s.name = name ∧ s.named = named := by
  simp [visibleLabels, and_assoc]

theorem visibleLabels_push_of_hidden (symbols : Array SymbolInfo) (info : SymbolInfo)
    (h : info.visible = false) :
    visibleLabels (symbols.push info).toList = visibleLabels symbols.toList := by
  simp [visibleLabels, List.filter_append, h]

theorem visibleLabels_push (symbols : Array SymbolInfo) (info : SymbolInfo) (h : info.visible = true) :
    visibleLabels (symbols.push info).toList =
      visibleLabels symbols.toList ++ [(info.name, info.named)] := by
  simp [visibleLabels, List.filter_append, h]

theorem visibleLabels_declare (symbols : Array SymbolInfo) (name : String) (kind : SymbolKind) :
    visibleLabels (symbols.push ⟨name, kind, !isHiddenName name, !isHiddenName name⟩).toList =
      visibleLabels symbols.toList ++ if isHiddenName name then [] else [(name, true)] := by
  cases isHiddenName name with
  | true => exact (visibleLabels_push_of_hidden _ _ rfl).trans (List.append_nil _).symm
  | false => exact visibleLabels_push _ _ rfl

namespace Draft

def naming (d : Draft) : Naming := ⟨visibleLabels d.symbols.toList, d.literals.map Prod.fst⟩

/-- Every new name is the label of a visible symbol, and the end of the text is not visible. -/
structure Renames (d : Draft) : Prop where
  newKinds : ∀ e ∈ d.newKinds, e.1 ∈ d.naming.labels
  marker : ∀ s ∈ d.symbols, s.visible = true → s.kind ≠ .endMarker

theorem Renames.push {d d' : Draft} {info : SymbolInfo} (h : d.Renames)
    (hs : d'.symbols = d.symbols.push info)
    (hk : ∀ e ∈ d'.newKinds, e ∈ d.newKinds ∨ e.1 ∈ d'.naming.labels)
    (hinfo : info.visible = true → info.kind ≠ .endMarker) : d'.Renames := by
  refine ⟨fun e he => ?_, fun s hm => ?_⟩
  · obtain he | he := hk e he
    · have hmem := h.newKinds e he
      rw [naming, visibleLabels] at hmem ⊢
      rw [hs, Array.toList_push, List.filter_append, List.map_append]
      exact List.mem_append_left _ hmem
    · exact he
  · obtain hm | rfl := Array.mem_push.1 (hs ▸ hm)
    · exact h.marker s hm
    · exact hinfo

/-- A new name is looked for among the visible symbols, and found if it is the label of one. -/
theorem Renames.mem_labels_iff {d : Draft} (h : d.Renames) {name : String} {named : Bool} :
    (name, named) ∈ d.naming.labels ↔ ∃ i, d.symbols.findIdx? (fun s =>
      s.name == name && s.named == named && s.visible && s.kind != .endMarker) = some i := by
  rw [← Option.isSome_iff_exists, Array.findIdx?_isSome, naming, mem_visibleLabels, Array.any_eq_true']
  simp only [Array.mem_toList_iff, Bool.and_eq_true, beq_iff_eq, bne_iff_ne]
  constructor
  · rintro ⟨s, hs, hv, rfl, rfl⟩
    exact ⟨s, hs, ⟨⟨rfl, rfl⟩, hv⟩, h.marker s hs hv⟩
  · rintro ⟨s, hs, ⟨⟨rfl, rfl⟩, hv⟩, -⟩
    exact ⟨s, hs, hv, rfl, rfl⟩

theorem Renames.of_same {d d' : Draft} (h : d.Renames) (hs : d'.symbols = d.symbols)
    (hk : d'.newKinds = d.newKinds) : d'.Renames := by
  refine ⟨fun e he => ?_, fun s hm => h.marker s (hs ▸ hm)⟩
  rw [naming, hs]
  exact h.newKinds e (hk ▸ he)

end Draft

namespace Compile

variable {α β : Type} {ms ms' : List Mention} {m : Compile α}

/-- If it succeeds, the action has noted the mentions. -/
def Notes (ms : List Mention) (m : Compile α) : Prop :=
  ∀ d a d', m d = .ok (a, d') → d.Renames → d'.Renames ∧ d'.naming = ms.foldl Naming.note d.naming

namespace Notes

theorem pure {a : α} : Notes [] (Pure.pure a) := by
  rintro d _ _ ⟨⟩ h
  exact ⟨h, rfl⟩

theorem throw {e : CompileError} : Notes ms (throw e : Compile α) := by
  intro _ _ _ h
  cases h

/-- What has just been noted may be noted again. -/
theorem bind_again {k : α → Compile β} (hm : Notes ms m)
    (hk : ∀ a, ∃ more, more ⊆ ms ∧ Notes (more ++ ms') (k a)) : Notes (ms ++ ms') (m >>= k) := by
  intro d b d' h hd
  obtain ⟨a, d₁, h₁, h₂⟩ := bind_eq_ok h
  obtain ⟨hd₁, hn₁⟩ := hm d a d₁ h₁ hd
  obtain ⟨more, hmore, hk⟩ := hk a
  obtain ⟨hd', hn⟩ := hk d₁ b d' h₂ hd₁
  exact ⟨hd', by rw [hn, hn₁, List.foldl_append, Naming.notes_again hmore, List.foldl_append]⟩

theorem bind {k : α → Compile β} (hm : Notes ms m) (hk : ∀ a, Notes ms' (k a)) :
    Notes (ms ++ ms') (m >>= k) :=
  hm.bind_again fun a => ⟨[], List.nil_subset ms, hk a⟩

theorem map {f : α → β} (hm : Notes ms m) : Notes ms (do return f (← m)) :=
  List.append_nil ms ▸ hm.bind fun _ => .pure

theorem of_same (h : ∀ d a d', m d = .ok (a, d') →
    d'.symbols = d.symbols ∧ d'.newKinds = d.newKinds ∧ d'.literals = d.literals) : Notes [] m := by
  intro d a d' hr hd
  obtain ⟨hs, hk, hl⟩ := h d a d' hr
  refine ⟨hd.of_same hs hk, ?_⟩
  rw [Draft.naming, hs, hl]
  rfl

end Notes

theorem symbol_notes (name : String) : Notes [] (symbol name) := by
  refine .of_same fun d s d' h => ?_
  obtain ⟨-, rfl⟩ := symbol_lookup h
  exact ⟨rfl, rfl, rfl⟩

theorem fieldId_notes (name : String) : Notes [] (fieldId name) := by
  refine .of_same fun d s d' h => ?_
  obtain ⟨-, rfl⟩ := fieldId_eq_ok h
  exact ⟨rfl, rfl, rfl⟩

theorem literal_notes (text : String) : Notes [.literal text] (literal text) := by
  intro d s d' h hd
  rw [List.foldl_cons, List.foldl_nil, Naming.note]
  obtain ⟨hl, rfl⟩ | ⟨hl, -, regex, -, rfl⟩ := literal_eq_ok h
  · refine ⟨hd, (if_pos ?_).symm⟩
    exact List.mem_map_of_mem (mem_of_lookup hl)
  · have hmem : text ∉ d.naming.texts := by
      intro hmem
      obtain ⟨e, he, rfl⟩ := List.mem_map.1 hmem
      exact absurd (List.lookup_eq_none_iff.1 hl e he) (by simp)
    rw [if_neg hmem]
    refine ⟨hd.push rfl (fun _ he => .inl he) nofun, ?_⟩
    simp only [Draft.naming, visibleLabels_push, List.map_cons]

theorem inlineToken_notes (r : Rule) (owner : String) :
    Notes (r.literalText?.toList.map .literal) (inlineToken r owner) := by
  intro d s d' h hd
  obtain ⟨text, ht, h⟩ | ⟨ht, source, -, ⟨-, rfl⟩ | ⟨-, -, name, regex, -, rfl⟩⟩ :=
    inlineToken_eq_ok h
  · rw [ht]
    exact literal_notes text d s d' h hd
  · rw [ht]
    exact ⟨hd, rfl⟩
  · rw [ht]
    refine ⟨hd.push rfl (fun _ he => .inl he) nofun, ?_⟩
    rw [Draft.naming, visibleLabels_push_of_hidden _ _ rfl]
    rfl

/-- A symbol of that label is looked for, and made if there is none. -/
theorem newKind_notes (name : String) (named : Bool) :
    Notes [.renamed name named] (newKind name named) := by
  intro d k d' h hd
  rw [List.foldl_cons, List.foldl_nil, Naming.note]
  obtain ⟨_, _, hg, h⟩ := bind_eq_ok h
  cases hg
  cases hl : d.newKinds.lookup (name, named) with
  | some s =>
      rw [hl] at h
      cases h
      rw [if_pos (hd.newKinds _ (mem_of_lookup hl))]
      exact ⟨hd, rfl⟩
  | none =>
      rw [hl] at h
      dsimp only at h
      cases hi : d.symbols.findIdx? fun s =>
          s.name == name && s.named == named && s.visible && s.kind != .endMarker with
      | some index =>
          rw [hi] at h
          cases h
          have hmem : (name, named) ∈ d.naming.labels := hd.mem_labels_iff.2 ⟨_, hi⟩
          rw [if_pos hmem]
          exact ⟨⟨List.forall_mem_cons.2 ⟨hmem, hd.newKinds⟩, hd.marker⟩, rfl⟩
      | none =>
          rw [hi] at h
          obtain ⟨s, d₁, hs, h⟩ := bind_eq_ok h
          obtain ⟨rfl, rfl⟩ := pushSymbol_eq_ok hs
          cases h
          have hmem : (name, named) ∉ d.naming.labels := by
            rw [hd.mem_labels_iff, hi]
            simp
          rw [if_neg hmem]
          have hlabels := visibleLabels_push d.symbols ⟨name, .nameOnly, named, true⟩ rfl
          refine ⟨hd.push rfl (List.forall_mem_cons.2 ⟨.inr ?_, fun _ he => .inl he⟩) nofun, ?_⟩
          · rw [Draft.naming, hlabels]
            exact List.mem_append_right _ List.mem_cons_self
          · simp only [Draft.naming, hlabels]

theorem declare_notes {body : Compile (List Alternative)} {f : Symbol → Alternative → Compile PUnit}
    (ps : Symbol → Alternative → List Production) (hbody : Notes ms body)
    (hf : ∀ s a u d d', f s a d = .ok (u, d') →
      d' = { d with productions := d.productions ++ (ps s a).toArray }) (owner what : String) :
    Notes ms (do
      let name ← freshName owner what
      let s ← pushSymbol name .auxiliary false false
      (← body).forM (f s)
      return s) := by
  intro d s d' h hd
  obtain ⟨-, name, as, d₁, has, rfl⟩ := declare_eq_ok hf h
  obtain ⟨hd₁, hn⟩ := hbody (d.withAuxiliary name) as d₁ has
    (hd.push rfl (fun _ he => .inl he) nofun)
  refine ⟨hd₁.of_same rfl rfl, ?_⟩
  have hsame : (d.withAuxiliary name).naming = d.naming := by
    rw [Draft.naming, Draft.withAuxiliary, visibleLabels_push_of_hidden _ _ rfl]
    rfl
  rw [← hsame, ← hn]
  rfl

theorem auxiliary_notes {body : Compile (List Alternative)} (hbody : Notes ms body)
    (owner what : String) : Notes ms (auxiliary body owner what) :=
  declare_notes (fun s a => [plainProduction s a]) hbody (fun _ _ _ _ _ => pushProduction_eq_ok)
    owner what

theorem repetition_notes {body : Compile (List Alternative)} (hbody : Notes ms body) (owner : String) :
    Notes ms (repetition body owner) :=
  declare_notes loopProductions hbody (fun _ _ _ _ _ => pushLoop_eq_ok) owner "repeat"

variable (owner : String)

mutual

/-- The induction is on the rule. A member of a sequence that is flattened once more mentions nothing
but what it has mentioned. -/
theorem flatten_notes : (r : Rule) → Notes r.mentions (r.flatten owner)
  | ⟨kind, value, name, content, members, named, flags, context⟩ => by
    have hc := flattenContent_notes kind content
    cases kind with
    | blank => exact .pure
    | string => exact .map (literal_notes _)
    | pattern | token | immediateToken => exact .map (inlineToken_notes _ owner)
    | symbol => exact .map (symbol_notes _)
    | sequence => exact flattenSequence_notes [{}] members
    | choice => exact flattenChoice_notes members
    | zeroOrMore | oneOrMore => exact .map (repetition_notes hc owner)
    | precedence | precedenceLeft | precedenceRight | precedenceDynamic => exact .map hc
    | field => exact .bind (fieldId_notes _) fun _ => .map hc
    | renamed =>
        refine .bind (newKind_notes _ _) fun kindId => ?_
        dsimp only
        split
        · next target htarget =>
            obtain ⟨r, rfl, hr⟩ := Option.bind_eq_some_iff.1 htarget
            rw [mentionsContent, Rule.mentions_of_symbolName? hr]
            exact .map (symbol_notes target)
        · exact .map (auxiliary_notes hc owner "alias")
    | reserved => exact hc

theorem flattenContent_notes (kind : RuleKind) : (content : Option Rule) →
    Notes (mentionsContent content) (flattenContent owner kind content)
  | none => .throw
  | some r => flatten_notes r

theorem flattenSequence_notes (before : List Alternative) : (members : List Rule) →
    Notes (mentionsMembers members) (flattenSequence owner before members)
  | [] => .pure
  | r :: rs => by
    rw [mentionsMembers]
    have hr := flatten_notes r
    refine hr.bind_again fun alternatives => ?_
    split
    · refine ⟨r.mentions, List.Subset.refl _, ?_⟩
      exact .bind (auxiliary_notes hr owner "seq") fun s => flattenSequence_notes _ rs
    · exact ⟨[], List.nil_subset _, flattenSequence_notes _ rs⟩

theorem flattenChoice_notes : (members : List Rule) →
    Notes (mentionsMembers members) (flattenChoice owner members)
  | [] => .pure
  | r :: rs => .bind (flatten_notes r) fun _ => .map (flattenChoice_notes rs)

end

end Compile

namespace Draft

variable {d : Draft} {limit limit' : String → Nat}

/-- All visible kinds are named, their names are bound, and of each there are no more than the limit. -/
structure Labelled (limit : String → Nat) (d : Draft) : Prop where
  renames : d.Renames
  count : ∀ name, d.naming.labels.count (name, true) ≤ limit name
  bound : ∀ name, (name, true) ∈ d.naming.labels → (d.byName.lookup name).isSome
  named : ∀ text, (text, false) ∉ d.naming.labels

theorem Labelled.declare (h : d.Labelled limit) {name : String} {kind : SymbolKind}
    (hkind : kind ≠ .endMarker) (hlimit : ∀ n, limit n ≤ limit' n)
    (hname : d.naming.labels.count (name, true) < limit' name) : Labelled limit' { d with
      symbols := d.symbols.push ⟨name, kind, !isHiddenName name, !isHiddenName name⟩
      byName := (name, d.symbols.size) :: d.byName } := by
  have hlabels := visibleLabels_declare d.symbols name kind
  have hnew : ∀ k ∈ if isHiddenName name then [] else [((name, true) : Label)], k = (name, true) := by
    split <;> simp
  refine ⟨h.renames.push rfl (fun _ he => .inl he) fun _ => hkind, fun n => ?_, fun n hn => ?_,
    fun text ht => ?_⟩
  · simp only [naming, hlabels, List.count_append]
    by_cases he : n = name
    · subst he
      have hone : (if isHiddenName n then [] else [((n, true) : Label)]).count (n, true) ≤ 1 :=
        List.count_le_length.trans (by split <;> simp)
      exact (Nat.add_le_add_left hone _).trans hname
    · rw [List.count_eq_zero_of_not_mem fun hm => he (congrArg Prod.fst (hnew _ hm))]
      exact (h.count n).trans (hlimit n)
  · simp only [naming, hlabels, List.mem_append] at hn
    rw [List.lookup_cons]
    split
    · rfl
    · next hne =>
        refine h.bound n (hn.resolve_right fun hm => ?_)
        exact absurd (congrArg Prod.fst (hnew _ hm)) (by simpa using hne)
  · simp only [naming, hlabels, List.mem_append] at ht
    obtain ht | ht := ht
    · exact h.named text ht
    · cases hnew _ ht

end Draft

namespace Grammar

variable (g : Grammar)

/-- What a rule mentions if it has productions. -/
def mentionsOf (e : String × Rule) : List Mention :=
  if g.kindOf e = .nonterminal then e.2.mentions else []

def mentions : List Mention := g.orderedRules.flatMap g.mentionsOf

/-- The grammar may have two kinds of the label: its name is declared by two externals, or, if it is
anonymous, it is a new name before it is a literal. -/
def Doubles : Label → Prop
  | (name, true) => 1 < g.externalNames.count name
  | (text, false) => RenamesBefore g.mentions text

instance : (k : Label) → Decidable (g.Doubles k)
  | (name, true) => inferInstanceAs (Decidable (1 < g.externalNames.count name))
  | (text, false) => inferInstanceAs (Decidable (RenamesBefore g.mentions text))

variable {g} {d d' : Draft}

theorem declareExternals_labelled {externals : List String} {ss : List Symbol} {limit : String → Nat}
    (hd : d.Labelled limit) (h : externals.mapM declareExternal d = .ok (ss, d')) :
    d'.Labelled fun name => limit name + externals.count name := by
  induction externals generalizing limit d ss with
  | nil =>
      cases h
      exact hd
  | cons name externals ih =>
      rw [List.mapM_cons] at h
      obtain ⟨_, d₁, h₁, h⟩ := bind_eq_ok h
      obtain ⟨_, d₂, h₂, h⟩ := bind_eq_ok h
      cases h
      obtain ⟨-, rfl⟩ := declareExternal_eq_ok h₁
      have hkind : SymbolKind.external ≠ .endMarker := nofun
      have hd₂ := ih (hd.declare hkind (fun n => Nat.le_add_right (limit n) ([name].count n))
        (Nat.lt_of_le_of_lt (hd.count name) (by simp))) h₂
      simp only [Nat.add_assoc, ← List.count_append, List.singleton_append] at hd₂
      exact hd₂

theorem declareRules_labelled {rules : List (String × Rule)} {u : PUnit} {limit : String → Nat}
    (hlimit : ∀ name, 0 < limit name) (hd : d.Labelled limit)
    (h : rules.forM declareRule d = .ok (u, d')) : d'.Labelled limit := by
  induction rules generalizing d with
  | nil =>
      cases h
      exact hd
  | cons e rules ih =>
      obtain ⟨name, rule⟩ := e
      obtain ⟨_, d₁, h₁, h⟩ := bind_eq_ok h
      refine ih ?_ h
      obtain ⟨-, rfl⟩ | ⟨hl, rfl⟩ := declareRule_eq_ok h₁
      · exact hd
      · refine hd.declare (by split <;> nofun) (fun _ => Nat.le_refl _) ?_
        have hnew : (name, true) ∉ d.naming.labels := by
          intro hmem
          have hbound := hd.bound name hmem
          rw [hl] at hbound
          cases hbound
        rw [List.count_eq_zero_of_not_mem hnew]
        exact hlimit name

theorem defineRule_notes {e : String × Rule} {u : PUnit} (hb : g.Binds d e) (hd : d.Renames)
    (h : defineRule e d = .ok (u, d')) :
    d'.Renames ∧ d'.naming = (g.mentionsOf e).foldl Naming.note d.naming := by
  obtain ⟨name, rule⟩ := e
  obtain ⟨s, hl, hk⟩ := hb
  obtain ⟨s', hl', hcases⟩ := defineRule_eq_ok h
  obtain rfl : s = s' := Option.some.inj (hl.symm.trans hl')
  rw [hk] at hcases
  obtain ⟨hn, as, d₁, has, rfl⟩ | ⟨hn, tokens, -, rfl⟩ := hcases
  · rw [mentionsOf, if_pos (Option.some.inj hn)]
    obtain ⟨hd₁, hn₁⟩ := flatten_notes name rule d as d₁ has hd
    exact ⟨hd₁.of_same rfl rfl, hn₁⟩
  · rw [mentionsOf, if_neg fun h => hn (congrArg some h)]
    exact ⟨hd.of_same rfl rfl, rfl⟩

theorem defineRules_notes {rules : List (String × Rule)} {u : PUnit} (hb : ∀ e ∈ rules, g.Binds d e)
    (hd : d.Renames) (h : rules.forM defineRule d = .ok (u, d')) :
    d'.Renames ∧ d'.naming = (rules.flatMap g.mentionsOf).foldl Naming.note d.naming := by
  let P (done : List (String × Rule)) (d₁ : Draft) : Prop :=
    d₁.Renames ∧ d₁.naming = (done.flatMap g.mentionsOf).foldl Naming.note d.naming
  have hstep (done : List (String × Rule)) (e : String × Rule) (d₁ : Draft) (u : PUnit) (d₂ : Draft)
      (hb : g.Binds d₁ e) (hd : P done d₁) (h : defineRule e d₁ = .ok (u, d₂)) : P (done ++ [e]) d₂ := by
    obtain ⟨hr, hn⟩ := defineRule_notes hb hd.1 h
    refine ⟨hr, ?_⟩
    rw [hn, hd.2, List.flatMap_append, List.foldl_append, List.flatMap_singleton]
  have hall : P ([] ++ rules) d' := defineRules_run hstep hb ⟨hd, rfl⟩ h
  exact hall

/-- The names of externals and rules are labels first, and then what the rules mention is noted. -/
theorem exists_naming {t : Tables} {hasScanner : Bool} (h : g.tables hasScanner = .ok t) :
    ∃ n : Naming, (∀ name, n.labels.count (name, true) ≤ max 1 (g.externalNames.count name)) ∧
      (∀ text, (text, false) ∉ n.labels) ∧
      visibleLabels t.symbols.toList = (g.mentions.foldl Naming.note n).labels := by
  obtain ⟨d₁, d₂, d₃, d₄, d₅, ⟨_, h₁⟩, h₂, ⟨_, h₃⟩, ⟨_, h₄⟩, h₅, hsymbols, -⟩ := g.exists_phases h
  obtain ⟨names, hd₃, hnames⟩ := exists_declares h₁ h₂ h₃
  obtain ⟨-, rfl⟩ := pushSymbol_eq_ok h₁
  obtain ⟨-, hbinds⟩ := binds_of_phases declares_end rfl hd₃ hnames h₂ h₃
  rw [declareExternals_eq] at h₂
  rw [declareRules_eq] at h₃
  rw [defineRules_eq] at h₄
  have hl₁ : Draft.Labelled (fun _ => 0) { symbols := #[⟨"end", .endMarker, false, false⟩] } :=
    ⟨⟨by simp, by simp⟩, by simp [Draft.naming, visibleLabels], by simp [Draft.naming, visibleLabels],
      by simp [Draft.naming, visibleLabels]⟩
  have hl₂ := declareExternals_labelled hl₁ h₂
  have hl₂ : d₂.Labelled fun name => max 1 (g.externalNames.count name) :=
    ⟨hl₂.renames, fun name => (hl₂.count name).trans (by simp), hl₂.bound, hl₂.named⟩
  have hl₃ := declareRules_labelled (fun _ => Nat.lt_of_lt_of_le Nat.zero_lt_one (Nat.le_max_left _ _))
    hl₂ h₃
  obtain ⟨-, hn₄⟩ := defineRules_notes hbinds hl₃.renames h₄
  obtain ⟨-, _, _, -, -, -, rfl⟩ := g.declareStart_eq_ok h₅
  refine ⟨d₃.naming, hl₃.count, hl₃.named, ?_⟩
  rw [hsymbols, visibleLabels_push_of_hidden _ _ rfl]
  exact congrArg Naming.labels hn₄

theorem count_visibleLabels {t : Tables} {hasScanner : Bool} (h : g.tables hasScanner = .ok t)
    {k : Label} (hk : ¬ g.Doubles k) : (visibleLabels t.symbols.toList).count k ≤ 1 := by
  obtain ⟨n, hnamed, hanonymous, hlabels⟩ := exists_naming h
  obtain ⟨name, named⟩ := k
  rw [hlabels]
  cases named with
  | true =>
      refine Naming.count_notes_named.trans (max_le (Nat.le_refl 1) ((hnamed name).trans ?_))
      exact max_le (Nat.le_refl 1) (Nat.not_lt.1 hk)
  | false => exact Naming.count_notes_anonymous (hanonymous name) hk

end Grammar

/-- Where a label is that of one visible symbol, this symbol is the first of that label. -/
theorem findIdx?_of_count_le {symbols : Array SymbolInfo} {id : Nat} {info : SymbolInfo}
    (hi : symbols[id]? = some info) (hv : info.visible = true)
    (hcount : (visibleLabels symbols.toList).count (info.name, info.named) ≤ 1) :
    symbols.findIdx? (fun s => s.name == info.name && s.named == info.named && s.visible) =
      some id := by
  obtain ⟨hlt, hget⟩ := Array.getElem?_eq_some_iff.1 hi
  have hsplit : symbols.toList = symbols.toList.take id ++ info :: symbols.toList.drop (id + 1) := by
    rw [← hget, ← Array.getElem_toList, List.cons_getElem_drop_succ, List.take_append_drop]
  have hfirst : (info.name, info.named) ∉ visibleLabels (symbols.toList.take id) := by
    intro hmem
    have htwo : 2 ≤ (visibleLabels symbols.toList).count (info.name, info.named) := by
      rw [hsplit]
      simp only [visibleLabels, List.filter_append, List.filter_cons, hv, if_true, List.map_append,
        List.map_cons, List.count_append, List.count_cons_self]
      have hpos := List.count_pos_iff.2 hmem
      rw [visibleLabels] at hpos
      omega
    omega
  rw [Array.findIdx?_eq_some_iff_getElem]
  refine ⟨hlt, by simp [hget, hv], fun j hj hs => hfirst (mem_visibleLabels.2 ?_)⟩
  simp only [Bool.and_eq_true, beq_iff_eq] at hs
  refine ⟨symbols[j], ?_, hs.2, hs.1.1, hs.1.2⟩
  rw [← Array.getElem_toList]
  exact List.mem_take_iff_getElem.2 ⟨j, by simpa using ⟨hj, hj.trans hlt⟩, rfl⟩

namespace Language

variable {g : Grammar} {scanner : Option Scanner} {handle : Nat} {l : Language}

/-- The label of a visible kind leads back to its id, unless it is that of error nodes. -/
theorem kindId?_kindName? (h : Language.compile g scanner handle = .ok l) {id : Symbol}
    (hv : l.isVisible id = true) : ∃ name, l.kindName? id = some name ∧
      (¬ g.Doubles (name, l.isNamed id) → l.kindId? name (l.isNamed id) =
        some (if name = "ERROR" ∧ l.isNamed id = true then errorSymbol else id)) := by
  have ht := tables_of_compile h
  by_cases he : id = errorSymbol
  · subst he
    exact ⟨"ERROR", if_pos rfl, fun _ => rfl⟩
  · rw [isVisible, beq_eq_false_iff_ne.2 he, Bool.false_or, Option.any_eq_true] at hv
    obtain ⟨info, hi, hvisible⟩ := hv
    have hnamed : l.isNamed id = info.named := by
      rw [isNamed, beq_eq_false_iff_ne.2 he, Bool.false_or, hi, Option.any_some]
    refine ⟨info.name, by rw [kindName?, if_neg he, hi]; rfl, fun hd => ?_⟩
    rw [hnamed] at hd ⊢
    rw [kindId?]
    split
    · rfl
    · exact findIdx?_of_count_le hi hvisible (Grammar.count_visibleLabels ht hd)

end Language

def sharedRule : Rule :=
  .seq [.literal "b", .ref "item", .renamedTo (.ref "item") "b" false,
    .renamedTo (.literal "c") "row" true, .renamedTo (.ref "item") "row" true,
    .many (.asToken (.literal "c"))]

/-- New names that are those of a literal, of a rule and of each other. -/
def sharedGrammar : Grammar :=
  (({ name := "shared" } : Grammar).define "list" sharedRule).define "item"
    (.renamedTo (.literal "a") "list" true)

def sharedNames : List String :=
  ["end", "list", "item", "b", "row", "list_alias1", "c", "list_repeat2", "item_alias3", "a", "_start"]

theorem kindId?_kindName?_sharedGrammar : ∃ l, Language.compile sharedGrammar none 0 = .ok l ∧
    l.tables.symbols.toList.map (·.name) = sharedNames ∧
    ∀ id < l.kindCount, l.isVisible id = true →
      ∃ name, l.kindName? id = some name ∧ l.kindId? name (l.isNamed id) = some id := by
  obtain ⟨l, hl, htest⟩ := exists_of_compiles
    (show compiles sharedGrammar (fun l => l.tables.symbols.toList.map (·.name) == sharedNames &&
      (List.range l.kindCount).all fun id => (l.kindName? id).all fun name =>
        name != "ERROR" && !decide (sharedGrammar.Doubles (name, l.isNamed id))) = true by decide +kernel)
  simp only [Bool.and_eq_true, beq_iff_eq, List.all_eq_true, List.mem_range] at htest
  refine ⟨l, hl, htest.1, fun id hid hv => ?_⟩
  obtain ⟨name, hname, hinverse⟩ := Language.kindId?_kindName? hl hv
  have hone := htest.2 id hid
  rw [hname, Option.all_some, Bool.and_eq_true] at hone
  refine ⟨name, hname, ?_⟩
  rw [hinverse (by simpa using hone.2), if_neg fun h => by simp [h.1] at hone]

/-- An external declared twice, a rule with the name of error nodes, and a new name that comes before
the literal of that text. -/
def shadowedGrammar : Grammar :=
  { (({ name := "shadowed" } : Grammar).define "list"
      (.seq [.ref "ERROR", .renamedTo (.ref "mark") "b" false, .literal "b"])).define "ERROR"
        (.seq [.literal "a"])
    with externals := some [.ref "mark", .ref "mark"] }

def silentScanner : Scanner := ⟨fun _ _ _ => none⟩

/-- Without the conditions the lookup leads elsewhere: to the first of two kinds, or to that of error
nodes. -/
theorem not_kindId?_kindName?_shadowedGrammar :
    ∃ l, Language.compile shadowedGrammar (some silentScanner) 0 = .ok l ∧
      ∀ e ∈ [(2, "mark", true, 1), (4, "ERROR", true, errorSymbol), (6, "b", false, 5)],
        l.isVisible e.1 = true ∧ l.kindName? e.1 = some e.2.1 ∧ l.isNamed e.1 = e.2.2.1 ∧
          l.kindId? e.2.1 e.2.2.1 = some e.2.2.2 ∧ e.2.2.2 ≠ e.1 := by
  obtain ⟨l, hl, htest⟩ := Language.exists_of_compile_any
    (show (Language.compile shadowedGrammar (some silentScanner) 0).toOption.any (fun l => decide
      (∀ e ∈ [(2, "mark", true, 1), (4, "ERROR", true, errorSymbol), (6, "b", false, 5)],
        l.isVisible e.1 = true ∧ l.kindName? e.1 = some e.2.1 ∧ l.isNamed e.1 = e.2.2.1 ∧
          l.kindId? e.2.1 e.2.2.1 = some e.2.2.2 ∧ e.2.2.2 ≠ e.1)) = true
      by decide +kernel)
  exact ⟨l, hl, of_decide_eq_true htest⟩

end EarleyTree

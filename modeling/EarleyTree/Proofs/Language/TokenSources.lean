import EarleyTree.Proofs.Language.TokenRuns

/-!
What the terminals and the skip patterns of a grammar are compiled from: the body of a rule, a literal,
a token inside a rule, or one of the extras.
-/
namespace EarleyTree

open Compile Pattern

namespace Vocabulary

variable {v v' : Vocabulary} {rules rules' tokens tokens' : List (String × Rule)} {s : Symbol}
  {source : List Char}

/-- The symbol is that of a rule, of a literal or of a token with this source. -/
inductive Spells (v : Vocabulary) (rules tokens : List (String × Rule)) (s : Symbol) :
    List Char → Prop
  | named {e : String × Rule} {source : List Char} (he : e ∈ rules) (hs : v.name? e.1 = some s)
      (h : e.2.patternSource e.1 = .ok source) : Spells v rules tokens s source
  | literal {text : String} (hs : v.literal? text = some s) :
      Spells v rules tokens s (escape text.toList)
  | inline {e : String × Rule} {source : List Char} (he : e ∈ tokens) (hs : v.token? e.1 e.2 = some s)
      (h : e.2.patternSource e.1 = .ok source) : Spells v rules tokens s source

/-- What has a symbol keeps it. -/
structure Within (v v' : Vocabulary) : Prop where
  names : ∀ {name s}, v.name? name = some s → v'.name? name = some s
  literals : ∀ {text s}, v.literal? text = some s → v'.literal? text = some s
  patterns : ∀ {source s}, v.pattern? source = some s → v'.pattern? source = some s

theorem Within.refl (v : Vocabulary) : v.Within v := ⟨id, id, id⟩

theorem Within.inline {owner : String} {r : Rule} (h : v.Within v') (hs : v.token? owner r = some s) :
    v'.token? owner r = some s := by
  rw [token?] at hs ⊢
  split at hs
  · exact h.literals hs
  · split at hs
    · exact h.patterns hs
    · cases hs

theorem Spells.mono (h : v.Spells rules tokens s source) (hv : v.Within v') (hr : rules ⊆ rules')
    (ht : tokens ⊆ tokens') : v'.Spells rules' tokens' s source := by
  cases h with
  | named he hs h => exact .named (hr he) (hv.names hs) h
  | literal hs => exact .literal (hv.literals hs)
  | inline he hs h => exact .inline (ht he) (hv.inline hs) h

end Vocabulary

/-- Each terminal is compiled from a source of its own. -/
def Draft.Spelled (rules tokens : List (String × Rule)) (d : Draft) : Prop :=
  ∀ token ∈ d.lexTokens, ∃ name source, anchoredRegex name source = .ok token.regex ∧
    d.vocabulary.Spells rules tokens token.symbol source

namespace Draft.Spelled

variable {d d' : Draft} {rules rules' met met' : List (String × Rule)}

theorem mono (hd : d.Spelled rules met) (hv : d.vocabulary.Within d'.vocabulary)
    (ht : d'.lexTokens = d.lexTokens) (hr : rules ⊆ rules') (hm : met ⊆ met') :
    d'.Spelled rules' met' := by
  intro token hmem
  obtain ⟨name, source, hregex, hs⟩ := hd token (ht ▸ hmem)
  exact ⟨name, source, hregex, hs.mono hv hr hm⟩

theorem push (hd : d.Spelled rules met) {token : LexToken} {name : String} {source : List Char}
    (ht : d'.lexTokens = d.lexTokens ++ [token]) (hv : d.vocabulary.Within d'.vocabulary)
    (hr : rules ⊆ rules') (hm : met ⊆ met') (hregex : anchoredRegex name source = .ok token.regex)
    (hs : d'.vocabulary.Spells rules' met' token.symbol source) : d'.Spelled rules' met' := by
  intro token hmem
  rw [ht] at hmem
  obtain hmem | hmem := List.mem_append.1 hmem
  · obtain ⟨name, source, hregex, hs⟩ := hd token hmem
    exact ⟨name, source, hregex, hs.mono hv hr hm⟩
  · obtain rfl := List.mem_singleton.1 hmem
    exact ⟨name, source, hregex, hs⟩

theorem literal {text : String} {s : Symbol} (hd : d.Spelled rules met)
    (h : literal text d = .ok (s, d')) : d'.Spelled rules met := by
  obtain ⟨-, rfl⟩ | ⟨hnew, rfl, regex, hregex, rfl⟩ := literal_eq_ok h
  · exact hd
  · refine hd.push rfl ⟨id, lookup_cons_of_lookup hnew, id⟩ (List.Subset.refl _) (List.Subset.refl _)
      hregex ?_
    exact .literal List.lookup_cons_self

theorem inlineToken {r : Rule} {owner : String} {s : Symbol} (hd : d.Spelled rules met)
    (h : inlineToken r owner d = .ok (s, d')) : d'.Spelled rules (met ++ [(owner, r)]) := by
  have hm : met ⊆ met ++ [(owner, r)] := List.subset_append_left _ _
  obtain ⟨text, -, h⟩ | ⟨ht, source, hsource, ⟨hl, rfl⟩ | ⟨hnew, rfl, name, regex, hregex, rfl⟩⟩ :=
    inlineToken_eq_ok h
  · exact (hd.literal h).mono (.refl _) rfl (List.Subset.refl _) hm
  · exact hd.mono (.refl _) rfl (List.Subset.refl _) hm
  · refine hd.push rfl ⟨id, id, lookup_cons_of_lookup hnew⟩ (List.Subset.refl _) hm hregex ?_
    refine .inline (List.mem_append_right _ (List.mem_singleton_self _)) ?_ hsource
    rw [Vocabulary.token?, ht, hsource]
    exact List.lookup_cons_self

theorem invariant (rules : List (String × Rule)) : TokenInvariant (Draft.Spelled rules) where
  forget hm hd := hd.mono (.refl _) rfl (List.Subset.refl _)
    (List.append_subset.2 ⟨List.Subset.refl _, hm⟩)
  same hd hn hl hi ht := by
    refine hd.mono ?_ ht (List.Subset.refl _) (List.Subset.refl _)
    rw [Draft.vocabulary, Draft.vocabulary, hn, hl, hi]
    exact .refl _
  literal := literal
  inlineToken := inlineToken

end Draft.Spelled

namespace Grammar

variable {g : Grammar} {d d' : Draft} {e : String × Rule} {done : List (String × Rule)} {u : PUnit}

theorem defineRule_spelled (hb : g.Binds d e) (hd : d.Spelled done (done.flatMap g.tokensOf))
    (h : defineRule e d = .ok (u, d')) :
    d'.Spelled (done ++ [e]) ((done ++ [e]).flatMap g.tokensOf) := by
  have hr : done ⊆ done ++ [e] := List.subset_append_left _ _
  rw [List.flatMap_append, List.flatMap_singleton]
  have hm : done.flatMap g.tokensOf ⊆ done.flatMap g.tokensOf ++ g.tokensOf e :=
    List.subset_append_left _ _
  obtain ⟨-, s, source, regex, hl, hsource, hregex, rfl⟩ | ⟨-, rfl⟩ | ⟨-, hmeets⟩ :=
    defineRule_cases hb h
  · refine hd.push rfl (.refl _) hr hm hregex ?_
    exact .named (List.mem_append_right _ (List.mem_singleton_self _)) hl hsource
  · exact hd.mono (.refl _) rfl hr hm
  · exact hmeets (Draft.Spelled.invariant _) (hd.mono (.refl _) rfl hr (List.Subset.refl _))

theorem exists_spelled {t : Tables} {hasScanner : Bool} (h : g.tables hasScanner = .ok t) :
    ∃ v : Vocabulary, g.Speaks v t ∧ t.Follows g v ∧ ∀ token ∈ t.lexTokens, ∃ name source,
      anchoredRegex name source = .ok token.regex ∧
      v.Spells g.orderedRules g.inlineTokens token.symbol source := by
  obtain ⟨d, -, hv, hf, hd, htokens⟩ :=
    exists_run (P := fun done d => d.Spelled done (done.flatMap g.tokensOf))
      (fun _ _ _ _ _ => defineRule_spelled)
      (fun d _ ht token hm => absurd (ht ▸ hm) List.not_mem_nil) h
  exact ⟨d.vocabulary, hv, hf, fun token hm => hd token (htokens ▸ hm)⟩

/-- What may be passed over has this source: blanks, or one of the extras. -/
inductive Skips (g : Grammar) : List Char → Prop
  | blanks (h : g.extras = none) : Skips g "\\s".toList
  | extra {extras : List Rule} {r : Rule} {source : List Char} (h : g.extras = some extras)
      (hr : r ∈ extras) (hs : r.patternSource "extras" = .ok source) : Skips g source

theorem compileExtras_skip {extras : Extras} (h : g.compileExtras d = .ok extras) :
    ∀ regex ∈ extras.skip, ∃ source, g.Skips source ∧ anchoredRegex "extras" source = .ok regex := by
  refine compileExtras_induct ?_ ?_ ?_ h
  · exact fun regex hg hregex => List.forall_mem_singleton.2 ⟨_, .blanks hg, hregex⟩
  · exact fun _ hm => absurd hm List.not_mem_nil
  · intro rules hg r hm before after hr hbefore
    obtain ⟨source, regex, hs, hregex, rfl⟩ | ⟨_, _, _, -, rfl, -⟩ := addExtra_eq_ok hr
    · exact List.forall_mem_append.2
        ⟨hbefore, List.forall_mem_singleton.2 ⟨source, .extra hg hm hs, hregex⟩⟩
    · exact hbefore

theorem exists_skips {t : Tables} {hasScanner : Bool} (h : g.tables hasScanner = .ok t) :
    ∀ regex ∈ t.skip, ∃ source, g.Skips source ∧ anchoredRegex "extras" source = .ok regex := by
  obtain ⟨_, _, _, _, d, -, -, -, -, -, -, -, -, -, -, -, -, extras, hextras, -, hskip⟩ :=
    g.exists_phases h
  rw [hskip]
  exact compileExtras_skip hextras

end Grammar

end EarleyTree

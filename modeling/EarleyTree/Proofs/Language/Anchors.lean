import EarleyTree.Proofs.Language.TokenBodies
import EarleyTree.Proofs.Language.TokenSources
import EarleyTree.Proofs.Pattern.Anchored
import EarleyTree.Proofs.Pattern.Grouping

/-!
Terminals and skip patterns match at the front of a text only, if the patterns in them fill their groups:
what the anchor is put in front of is then a group around the whole source.
-/
namespace EarleyTree

open Pattern Text

namespace Pattern

/-- Wherever the source stands, the same is read for it, and nothing in front of it is changed. -/
def SelfContained (source : List Char) : Prop := source.head? ≠ some '?' ∧ ∃ y, Reads source y

namespace SelfContained

variable {s t : List Char} {ss : List (List Char)}

theorem nil : SelfContained [] := ⟨by simp, _, .nil⟩

theorem append (hs : SelfContained s) (ht : SelfContained t) : SelfContained (s ++ t) := by
  obtain ⟨hhead, a, ha⟩ := hs
  obtain ⟨hhead', b, hb⟩ := ht
  refine ⟨?_, _, ha.append hb hhead'⟩
  cases s with
  | nil => exact hhead'
  | cons c s => exact hhead

theorem flatten (h : ∀ s ∈ ss, SelfContained s) : SelfContained ss.flatten := by
  induction ss with
  | nil => exact .nil
  | cons s ss ih =>
      obtain ⟨hs, hss⟩ := List.forall_mem_cons.1 h
      exact hs.append (ih hss)

theorem text (w : List Char) : SelfContained (escape w) := ⟨Reads.head?_escape w, _, .escape_text w⟩

theorem exists_yields (h : ∀ s ∈ ss, SelfContained s) : ∃ ys, List.Forall₂ Reads ss ys := by
  induction ss with
  | nil => exact ⟨[], .nil⟩
  | cons s ss ih =>
      obtain ⟨⟨-, y, hy⟩, hss⟩ := List.forall_mem_cons.1 h
      obtain ⟨ys, hys⟩ := ih hss
      exact ⟨y :: ys, .cons hy hys⟩

/-- A choice of nothing is written like one of the empty pattern. -/
theorem choice (h : ∀ s ∈ ss, SelfContained s) :
    SelfContained (Pattern.group "(?:" (joinAlternatives ss) ")") := by
  refine ⟨by simp [Pattern.group], ?_⟩
  cases ss with
  | nil =>
      have hreads := Reads.group (.cons .nil .nil) (List.cons_ne_nil ([] : List Char) [])
      exact ⟨_, hreads⟩
  | cons s ss =>
      obtain ⟨ys, hys⟩ := exists_yields h
      exact ⟨_, Reads.group hys (List.cons_ne_nil s ss)⟩

theorem repeated (h : SelfContained s) (once : Bool) :
    SelfContained (Pattern.group "(?:" s (if once then ")+" else ")*")) := by
  obtain ⟨-, y, hy⟩ := h
  obtain ⟨piece, -, hreads⟩ := hy.repeated once
  exact ⟨by simp [Pattern.group], _, hreads⟩

theorem blanks : SelfContained "\\s".toList := by
  refine ⟨by decide, ⟨[{ regex := .set .blank }], []⟩, fun st rest hf hr => ?_⟩
  have hstep : st.step '\\' (['s'] ++ rest) = some (st.pushAtom (.set .blank), rest) := by
    rw [Reading.step_eq, hf, readAction, Flags.skip_cons {} (by decide) (by decide), List.length_cons,
      if_neg (Nat.not_succ_le_self _)]
    rfl
  exact Reading.goOn_step hstep rfl

/-- A group without flags is written like any other. -/
theorem filled (letters : String) (h : fillsGroup letters.toList s = true) : SelfContained
    (if letters.isEmpty then Pattern.group "(?:" s ")"
      else Pattern.group "(?" letters.toList ":" ++ Pattern.group "" s ")") := by
  have hfilled : SelfContained
      (Pattern.group "(?" letters.toList ":" ++ Pattern.group "" s ")") :=
    ⟨by simp [Pattern.group], Reads.filled h⟩
  split
  · next hempty =>
      obtain rfl := String.isEmpty_iff.1 hempty
      exact hfilled
  · exact hfilled

end SelfContained

/-- The expression is that of the source, tied to the front of the text. -/
def Regex.Ties (r : Regex) (source : List Char) : Prop :=
  ∃ body, compile? source = some body ∧ ∀ text, r.find? text = (body.matchAt none text 0).map (0, ·)

theorem Regex.Ties.leads {r : Regex} {source : List Char} (h : r.Ties source) (text : List Char) :
    r.Leads text := by
  obtain ⟨body, -, hfind⟩ := h
  intro m hm
  rw [hfind] at hm
  obtain ⟨stop, -, rfl⟩ := Option.map_eq_some_iff.1 hm
  rfl

theorem Regex.find?_anchor (body : Regex) (text : List Char) :
    (cat (test .textStart) body).find? text = (body.matchAt none text 0).map (0, ·) := by
  have hleads : (cat (test .textStart) body).Leads text := leads_of_anchored rfl
  rw [find?_eq hleads, matchAt_anchor]

/-- What keeps the limits with the anchor keeps them without it. -/
theorem SelfContained.ties {source : List Char} {r : Regex} (h : SelfContained source)
    (hr : compile? (Pattern.group "^(?:" source ")") = some r) : r.Ties source := by
  obtain ⟨-, y, hy⟩ := h
  have hgroup : Reads (Pattern.group "(?:" source ")") ⟨[groupOf [y]], y.names⟩ :=
    Reads.group (.cons hy .nil) (List.cons_ne_nil source [])
  -- The group is read behind the anchor as it is by itself, one level deeper and one test larger.
  have hanchored := Reads.anchor.append hgroup (by simp [Pattern.group])
  have hsplit : Pattern.group "^(?:" source ")" = ['^'] ++ Pattern.group "(?:" source ")" := by
    simp [Pattern.group]
  rw [compile?, hsplit, hanchored.parse?_eq] at hr
  obtain ⟨piece, hp, hr⟩ := Option.bind_eq_some_iff.1 hr
  split at hp
  · next hnodup =>
      cases hp
      split at hr
      · next hlimits =>
          cases hr
          obtain ⟨hdepth, hmemory⟩ := hlimits
          have hdepth : max (max 0 (y.piece.depth + 1)) 0 + 1 ≤ maxDepth := hdepth
          have hmemory : 32 + y.piece.regex.memory ≤ maxMemory := hmemory
          refine ⟨y.piece.regex, ?_, y.piece.regex.find?_anchor⟩
          rw [compile?, hy.parse?_eq, if_pos (by simpa [Yield.andThen] using hnodup),
            Option.bind_eq_bind, Option.bind_some, if_pos ⟨by omega, by omega⟩]
      · cases hr
  · cases hp

end Pattern

/-- If the rule is a pattern, it fills the group that is written around it. -/
def Rule.PatternFills (r : Rule) : Prop :=
  r.kind = .pattern → fillsGroup (r.flags.getD "").toList (r.patternValue?.getD "").toList = true

/-- Each pattern in the rule fills its group. -/
def Rule.FillsGroups (r : Rule) : Prop := ∀ p ∈ r.walk, p.PatternFills

/-- Each pattern that the terminal is compiled from fills its group. -/
def Vocabulary.Fills (v : Vocabulary) (g : Grammar) (s : Symbol) : Prop :=
  (∀ e ∈ g.orderedRules, v.name? e.1 = some s → e.2.FillsGroups) ∧
    ∀ e ∈ g.inlineTokens, v.token? e.1 e.2 = some s → e.2.FillsGroups

/-- Each pattern among the extras fills its group. -/
def Grammar.ExtrasFill (g : Grammar) : Prop := ∀ extras ∈ g.extras, ∀ r ∈ extras, r.FillsGroups

instance (r : Rule) : Decidable r.PatternFills := inferInstanceAs (Decidable (_ → _))

instance (r : Rule) : Decidable r.FillsGroups :=
  inferInstanceAs (Decidable (∀ p ∈ r.walk, p.PatternFills))

instance (g : Grammar) : Decidable g.ExtrasFill :=
  inferInstanceAs (Decidable (∀ extras ∈ g.extras, ∀ r ∈ extras, r.FillsGroups))

theorem except_map_eq_ok {ε α β : Type} {x : Except ε α} {f : α → β} {b : β} (h : x.map f = .ok b) :
    ∃ a, x = .ok a ∧ f a = b := by
  cases x with
  | error e => cases h
  | ok a =>
      cases h
      exact ⟨a, rfl, rfl⟩

section

variable {owner : String}

mutual

/-- Whatever a rule is put together from, what is written for it can be read wherever it stands. The
induction is on the rule. -/
theorem Rule.selfContained : (r : Rule) → (∀ p ∈ r.walk, p.PatternFills) → {source : List Char} →
    r.patternSource owner = .ok source → SelfContained source
  | ⟨kind, value, name, content, members, named, flags, context⟩ => by
    intro hfills source hs
    rw [Rule.walk, List.forall_mem_cons, List.forall_mem_append] at hfills
    obtain ⟨hself, hcontent, hmembers⟩ := hfills
    have hc : ∀ {source}, contentSource owner kind content = .ok source → SelfContained source :=
      contentSelfContained kind content hcontent
    have hm : ∀ {ss}, sources owner members = .ok ss → ∀ s ∈ ss, SelfContained s :=
      membersSelfContained members hmembers
    cases kind with
    | blank =>
        cases hs
        exact .nil
    | string =>
        rcases value with _ | text | level
        all_goals cases hs
        · exact .nil
        · exact .text _
        · exact .nil
    | pattern =>
        rcases value with _ | text | level
        all_goals
          cases hs
          exact .filled _ (hself rfl)
    | symbol => cases hs
    | sequence =>
        obtain ⟨ss, hss, rfl⟩ := except_map_eq_ok hs
        exact .flatten (hm hss)
    | choice =>
        obtain ⟨ss, hss, rfl⟩ := except_map_eq_ok hs
        exact .choice (hm hss)
    | zeroOrMore =>
        obtain ⟨s, hcontent, rfl⟩ := except_map_eq_ok hs
        exact (hc hcontent).repeated false
    | oneOrMore =>
        obtain ⟨s, hcontent, rfl⟩ := except_map_eq_ok hs
        exact (hc hcontent).repeated true
    | token | immediateToken | precedence | precedenceLeft | precedenceRight | precedenceDynamic
    | field | renamed | reserved => exact hc hs

theorem contentSelfContained (kind : RuleKind) : (content : Option Rule) →
    (∀ p ∈ Rule.walkContent content, p.PatternFills) → {source : List Char} →
    contentSource owner kind content = .ok source → SelfContained source
  | none => fun _ _ hs => by cases hs
  | some r => Rule.selfContained r

theorem membersSelfContained : (members : List Rule) →
    (∀ p ∈ Rule.walkMembers members, p.PatternFills) → {ss : List (List Char)} →
    sources owner members = .ok ss → ∀ s ∈ ss, SelfContained s
  | [] => by
    intro _ ss hs
    cases hs
    exact fun s hm => absurd hm List.not_mem_nil
  | r :: rs => by
    intro hfills ss hs
    rw [Rule.walkMembers, List.forall_mem_append] at hfills
    obtain ⟨s, hr, hs⟩ := Grammar.except_bind_eq_ok hs
    obtain ⟨ss, hrs, hs⟩ := Grammar.except_bind_eq_ok hs
    cases hs
    exact List.forall_mem_cons.2
      ⟨Rule.selfContained r hfills.1 hr, membersSelfContained rs hfills.2 hrs⟩

end

end

theorem compile?_of_anchoredRegex {name : String} {source : List Char} {r : Regex}
    (h : anchoredRegex name source = .ok r) :
    compile? (Pattern.group "^(?:" source ")") = some r := by
  rw [anchoredRegex] at h
  split at h
  · next hr =>
      cases h
      exact hr
  · cases h

section

variable {g : Grammar} {v : Vocabulary} {s : Symbol} {source : List Char}

theorem Vocabulary.Fills.selfContained (hg : v.Fills g s)
    (h : v.Spells g.orderedRules g.inlineTokens s source) : SelfContained source := by
  cases h with
  | named he hs h => exact Rule.selfContained _ (hg.1 _ he hs) h
  | literal => exact .text _
  | inline he hs h => exact Rule.selfContained _ (hg.2 _ he hs) h

theorem Grammar.ExtrasFill.selfContained (hg : g.ExtrasFill) (h : g.Skips source) :
    SelfContained source := by
  cases h with
  | blanks => exact .blanks
  | extra h hr hs => exact Rule.selfContained _ (hg _ h _ hr) hs

end

namespace Lexer

variable {lx : Lexer} {t : Token} {token : LexToken} {rest : List Char} {position : Nat}
  {welcome : Symbol → Bool} {best : Candidate}

/-- The lexer gives the token where it is asked for one, or among the extras that it passes over. -/
inductive Gives (lx : Lexer) (t : Token) : Prop
  | token {saved : Saved} {position : Nat} {expected : Option (Symbol → Bool)} {afterExtra : Bool}
      (h : (lx.token saved position expected afterExtra).1 = some t) : Gives lx t
  | extra {saved : Saved} {position : Nat} {welcome : Symbol → Bool}
      (h : t ∈ (lx.skipExtras saved position welcome).1.extras) : Gives lx t

/-- The token is of the terminal, or else of a keyword, and then the terminal is the word. -/
def IsOf (lx : Lexer) (t : Token) (token : LexToken) : Prop :=
  t.symbol = token.symbol ∨
    lx.tables.word = some token.symbol ∧ ∃ text, lx.tables.IsKeyword text t.symbol

/-- The token covers what the expression matches where it begins. -/
def Covers (lx : Lexer) (t : Token) (r : Regex) : Prop :=
  ∃ rest n, suffix? lx.text t.start = some rest ∧ r.matchAt none rest 0 = some n ∧ 0 < n ∧
    t.stop = t.start + n

/-- A terminal is the best match where the token begins, and its match is as long as the token. -/
def Picks (lx : Lexer) (t : Token) (token : LexToken) : Prop :=
  ∃ rest best, suffix? lx.text t.start = some rest ∧ candidate? rest token = some best ∧
    t.stop = t.start + best.length

theorem token_external_or_matched {saved : Saved} {expected : Option (Symbol → Bool)} {afterExtra : Bool}
    (h : (lx.token saved position expected afterExtra).1 = some t) :
    t.symbol ∈ lx.tables.externals ∨ lx.matched? position expected afterExtra = some t := by
  obtain ⟨hp, -, -⟩ := token_eq_some h
  rw [token_eq hp] at h
  split at h
  · next hx =>
      split at h
      · have hm := scanExternal_mem hx
        cases h
        exact .inl hm
      · exact .inr h
  · exact .inr h

theorem exists_picks (hrest : suffix? lx.text t.start = some rest)
    (hbest : lx.bestMatch rest welcome = some best) (hstop : t.stop = t.start + best.length)
    (hsymbol : t.symbol = best.symbol ∨ lx.tables.word = some best.symbol ∧
      ∃ text, lx.tables.IsKeyword text t.symbol) :
    ∃ token ∈ lx.tables.lexTokens, lx.IsOf t token ∧ lx.Picks t token := by
  obtain ⟨token, hm, hc, -⟩ := bestMatch_candidate hbest
  rw [← candidate?_symbol hc] at hsymbol
  exact ⟨token, hm, hsymbol, rest, best, hrest, hc, hstop⟩

theorem Gives.exists_picks {g : Grammar} {hasScanner : Bool} (ht : g.tables hasScanner = .ok lx.tables)
    (h : lx.Gives t) : t.symbol ∈ lx.tables.externals ∨
      ∃ token ∈ lx.tables.lexTokens, lx.IsOf t token ∧ lx.Picks t token := by
  cases h with
  | token h =>
      refine (token_external_or_matched h).imp_right fun h => ?_
      rw [matched?] at h
      obtain ⟨rest, hrest, h⟩ := Option.bind_eq_some_iff.1 h
      obtain ⟨best, hbest, h⟩ := Option.bind_eq_some_iff.1 h
      cases h
      refine Lexer.exists_picks hrest hbest rfl ?_
      dsimp only
      cases hk : lx.keyword? best rest _ with
      | none => exact .inl rfl
      | some s =>
          obtain ⟨hword, hs, -⟩ := (keyword?_eq_some_iff ht).1 hk
          exact .inr ⟨hword, _, hs⟩
  | extra h =>
      obtain ⟨saved, position, next, h⟩ := skipFrom_passes _ _ _ _ _ t h
      cases h with
      | external hx =>
          have hm := scanExternal_mem hx
          exact .inl hm
      | matched hrest hbest => exact .inr (Lexer.exists_picks hrest hbest rfl (.inl rfl))

theorem Picks.covers {body : Regex} (h : lx.Picks t token)
    (hfind : ∀ text, token.regex.find? text = (body.matchAt none text 0).map (0, ·)) :
    lx.Covers t body := by
  obtain ⟨rest, best, hrest, hc, hstop⟩ := h
  rw [candidate?, hfind] at hc
  cases hmatch : body.matchAt none rest 0 with
  | none =>
      rw [hmatch] at hc
      cases hc
  | some n =>
      rw [hmatch, Option.map_some] at hc
      dsimp only at hc
      split at hc
      · cases hc
      · next hpos =>
          cases hc
          exact ⟨rest, n, hrest, hmatch, Nat.pos_of_ne_zero hpos, hstop⟩

end Lexer

/-- A terminal whose patterns fill their groups matches at the front of a text only, and there just what
its source matches, so that its tokens cover that. So do the skip patterns if those of the extras do. -/
theorem Language.matches_lead {g : Grammar} {scanner : Option Scanner} {handle : Nat} {l : Language}
    (h : Language.compile g scanner handle = .ok l) :
    ∃ v : Vocabulary, g.Speaks v l.tables ∧ l.tables.Follows g v ∧
      (∀ token ∈ l.tables.lexTokens, v.Fills g token.symbol →
        (∀ text, token.regex.Leads text) ∧ ∃ source,
          v.Spells g.orderedRules g.inlineTokens token.symbol source ∧ token.regex.Ties source) ∧
      (g.ExtrasFill → ∀ r ∈ l.tables.skip,
        (∀ text, r.Leads text) ∧ ∃ source, g.Skips source ∧ r.Ties source) ∧
      ∀ text t, (l.lexer text).Gives t → t.symbol ∉ l.tables.externals →
        ∃ token ∈ l.tables.lexTokens, (l.lexer text).IsOf t token ∧
          (v.Fills g token.symbol → ∃ source body,
            v.Spells g.orderedRules g.inlineTokens token.symbol source ∧
            compile? source = some body ∧ (l.lexer text).Covers t body) := by
  have ht := Language.tables_of_compile h
  obtain ⟨v, hv, hf, htokens⟩ := Grammar.exists_spelled ht
  have hties : ∀ token ∈ l.tables.lexTokens, v.Fills g token.symbol → ∃ source,
      v.Spells g.orderedRules g.inlineTokens token.symbol source ∧ token.regex.Ties source := by
    intro token hm hfills
    obtain ⟨name, source, hregex, hs⟩ := htokens token hm
    exact ⟨source, hs, (hfills.selfContained hs).ties (compile?_of_anchoredRegex hregex)⟩
  refine ⟨v, hv, hf, fun token hm hfills => ?_, fun hg r hr => ?_, fun text t hgives hx => ?_⟩
  · obtain ⟨source, hs, h⟩ := hties token hm hfills
    exact ⟨h.leads, source, hs, h⟩
  · obtain ⟨source, hs, hregex⟩ := Grammar.exists_skips ht r hr
    have h := (hg.selfContained hs).ties (compile?_of_anchoredRegex hregex)
    exact ⟨h.leads, source, hs, h⟩
  · obtain ⟨token, hm, hof, hpicks⟩ := (hgives.exists_picks ht).resolve_left hx
    refine ⟨token, hm, hof, fun hfills => ?_⟩
    obtain ⟨source, hs, body, hbody, hfind⟩ := hties token hm hfills
    exact ⟨source, body, hs, hbody, hpicks.covers hfind⟩

/-- Alternatives in a token with a name, in a token inside a rule and among the extras. -/
def barredGrammar : Grammar :=
  { ({ name := "barred" } : Grammar).define "barred"
      (.seq [.ref "bit", .many (.asToken (.seq [.literal ",", .regex "0|1"]))]) |>.define "bit"
      (.regex "0|1") with extras := some [.regex " |#"] }

theorem matches_lead_barred : ∃ l, ∃ v : Vocabulary, ∃ t, Language.compile barredGrammar none 0 = .ok l ∧
    (∀ s, v.Fills barredGrammar s) ∧ barredGrammar.ExtrasFill ∧
    (∀ token ∈ l.tables.lexTokens, ∀ text, token.regex.Leads text) ∧
    (∀ r ∈ l.tables.skip, ∀ text, r.Leads text) ∧
    ((l.lexer ['1', '#', ',', '0']).token [] 0 none false).1 = some t ∧
    ∃ source body, compile? source = some body ∧ (l.lexer ['1', '#', ',', '0']).Covers t body := by
  obtain ⟨l, hl, htest⟩ := exists_of_compiles
    (show compiles barredGrammar (fun l =>
        ((l.lexer ['1', '#', ',', '0']).token [] 0 none false).1.any fun t =>
          !l.tables.externals.contains t.symbol) = true
      by decide +kernel)
  obtain ⟨t, ht, hx⟩ := (Option.any_eq_true _ _).1 htest
  have hx : t.symbol ∉ l.tables.externals := fun hm => by
    rw [List.contains_iff_mem.2 hm] at hx
    cases hx
  have hrules : ∀ e ∈ barredGrammar.orderedRules, e.2.FillsGroups := by decide +kernel
  have htokens : ∀ e ∈ barredGrammar.inlineTokens, e.2.FillsGroups := by decide +kernel
  have hextras : barredGrammar.ExtrasFill := by decide +kernel
  obtain ⟨v, -, -, hleads, hskip, hcovers⟩ := Language.matches_lead hl
  have hfills (s : Symbol) : v.Fills barredGrammar s :=
    ⟨fun e he _ => hrules e he, fun e he _ => htokens e he⟩
  obtain ⟨token, -, -, h⟩ := hcovers _ t (.token ht) hx
  obtain ⟨source, body, -, hbody, h⟩ := h (hfills _)
  exact ⟨l, v, t, hl, hfills, hextras, fun token hm => (hleads token hm (hfills _)).1,
    fun r hr => (hskip hextras r hr).1, ht, source, body, hbody, h⟩

/-- The pattern that closes its group matches further on in the text. -/
theorem not_leads_looseGrammar : ∃ l token, Language.compile looseGrammar none 0 = .ok l ∧
    token ∈ l.tables.lexTokens ∧ token.regex.find? ['x', 'b'] = some (1, 2) := by
  obtain ⟨l, hl, htest⟩ := exists_of_compiles
    (show compiles looseGrammar (fun l =>
        l.tables.lexTokens.any fun token => token.regex.find? ['x', 'b'] == some (1, 2)) = true
      by decide +kernel)
  obtain ⟨token, hm, hfind⟩ := List.any_eq_true.1 htest
  exact ⟨l, token, hl, hm, eq_of_beq hfind⟩

end EarleyTree

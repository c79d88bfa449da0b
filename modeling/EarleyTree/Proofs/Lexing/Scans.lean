import EarleyTree.Proofs.Language.Integrity
import EarleyTree.Proofs.Lexing.Scanning

/-!
What the scanner is asked. The questions that the lexer puts to it are kept in a log, with the state
that the scanner is given at each, what it finds, and whether the token is taken or dropped.
-/
namespace EarleyTree

structure Scan where
  given : Saved
  position : Nat
  valid : List Bool
  /-- The token found, and what was saved with it. -/
  found : Option (Token × Saved)
  delivered : Bool
  deriving DecidableEq, Repr

namespace Scan

/-- The state behind a scan, whatever becomes of the token. -/
def left (e : Scan) : Saved := e.found.elim e.given (·.2)

def taken? (e : Scan) : Option (Token × Saved) := if e.delivered then e.found else none

def dropped? (e : Scan) : Option (Token × Saved) := if e.delivered then none else e.found

/-- The same scan at a place that is only looked at. -/
def drop (e : Scan) : Scan := { e with delivered := false }

/-- What was saved with the last token taken, or else `s`. -/
def lastSaved (s : Saved) (log : List Scan) : Saved :=
  ((log.filterMap taken?).map Prod.snd).getLastD s

/-- The scanner is given at each scan what it saved with the last token taken before. -/
def Follows (s : Saved) (log : List Scan) : Prop :=
  ∀ before e after, log = before ++ e :: after → e.given = lastSaved s before

/-- The scanner is given at each scan what the scan before it left. -/
inductive Threads : Saved → List Scan → Saved → Prop
  | nil (s : Saved) : Threads s [] s
  | cons {e : Scan} {log : List Scan} {s s' : Saved} (hgiven : e.given = s)
      (h : Threads e.left log s') : Threads s (e :: log) s'

variable {e : Scan} {s s₁ s' : Saved} {log log' : List Scan}

theorem Threads.append (h : Threads s log s₁) (h' : Threads s₁ log' s') :
    Threads s (log ++ log') s' := by
  induction h with
  | nil => exact h'
  | cons hgiven _ ih => exact .cons hgiven (ih h')

theorem Threads.drop (h : Threads s log s') : Threads s (log.map drop) s' := by
  induction h with
  | nil => exact .nil _
  | cons hgiven _ ih => exact .cons hgiven ih

theorem follows_nil : Follows s [] := fun before e after h => by cases before <;> cases h

theorem follows_cons :
    Follows s (e :: log) ↔ e.given = s ∧ Follows (e.taken?.elim s (·.2)) log := by
  have hlast : ∀ before, lastSaved s (e :: before) = lastSaved (e.taken?.elim s (·.2)) before := by
    intro before
    rw [lastSaved, lastSaved, List.filterMap_cons]
    cases e.taken? with
    | none => rfl
    | some r => rw [List.map_cons, List.getLastD_cons, Option.elim_some]
  constructor
  · refine fun h => ⟨h [] e log rfl, fun before e' after he => ?_⟩
    rw [← hlast]
    exact h (e :: before) e' after (congrArg (e :: ·) he)
  · rintro ⟨hgiven, h⟩ (- | ⟨e', before⟩) e'' after he
    · cases he
      exact hgiven
    · cases he
      rw [hlast]
      exact h before e'' after rfl

instance decidableFollows : (s : Saved) → (log : List Scan) → Decidable (Follows s log)
  | _, [] => isTrue follows_nil
  | s, e :: log =>
    have := decidableFollows (e.taken?.elim s (·.2)) log
    decidable_of_iff _ follows_cons.symm

theorem taken?_elim_eq_left :
    e.taken?.elim e.given (·.2) = e.left ↔ ∀ r ∈ e.dropped?, r.2 = e.given := by
  rw [taken?, dropped?, left]
  split
  · exact iff_of_true rfl nofun
  · cases e.found with
    | none => exact iff_of_true rfl nofun
    | some r => exact ⟨fun h _ hr => Option.mem_some_iff.1 hr ▸ h.symm, fun h => (h r rfl).symm⟩

/-- The state of the scanner follows the tokens taken exactly if each token that was dropped before
another scan had been found without a change of the state. -/
theorem Threads.follows_iff (h : Threads s log s') :
    Follows s log ↔ ∀ e ∈ log.dropLast, ∀ r ∈ e.dropped?, r.2 = e.given := by
  induction h with
  | nil => exact iff_of_true follows_nil fun e he => absurd he List.not_mem_nil
  | cons hgiven h ih =>
      rw [follows_cons, hgiven, eq_self, true_and]
      subst hgiven
      cases h with
      | nil => exact iff_of_true follows_nil fun e he => absurd he List.not_mem_nil
      | cons hleft _ =>
          rw [List.dropLast_cons_cons, List.forall_mem_cons, ← taken?_elim_eq_left]
          constructor
          · intro hf
            have heq := (follows_cons.1 hf).1.symm.trans hleft
            exact ⟨heq, ih.1 (heq ▸ hf)⟩
          · exact fun ⟨heq, hrest⟩ => heq ▸ ih.2 hrest

end Scan

/-- No token that a terminal matches is external. -/
structure Tables.Apart (t : Tables) : Prop where
  lexTokens : ∀ token ∈ t.lexTokens, token.symbol ∉ t.externals
  keywords : ∀ e ∈ t.keywords, e.2 ∉ t.externals
  error : errorSymbol ∉ t.externals

theorem Grammar.apart_of_tables {g : Grammar} {t : Tables} {hasScanner : Bool}
    (h : g.tables hasScanner = .ok t) : t.Apart := by
  have hkind : ∀ s, t.kind? s = some .terminal → s ∉ t.externals := by
    intro s hs hm
    rw [externals_kind h s hm] at hs
    cases hs
  have hclosed := tables_closed h
  refine ⟨fun token hm => hkind _ ?_, fun e he => hkind _ (keywords_kind h e he), fun hm => ?_⟩
  · exact ((intact_of_tables h).lexTokens _).1 (List.mem_map_of_mem hm)
  · exact hclosed.ne_errorSymbol (mentions_lt h (.external hm)) rfl

/-- The tokens that are from the scanner, as it gave them. -/
def Tables.scanned (t : Tables) (tokens : List Token) : List Token :=
  (tokens.filter fun token => t.externals.contains token.symbol).map
    fun token => { token with afterExtra := false }

namespace Lexer

variable {lx : Lexer} {saved saved' saved₁ s s₁ s' : Saved} {position : Nat}
  {afterExtra extrasOnly : Bool} {welcome : Symbol → Bool} {token : Token}
  {drops drops' : Token → Prop} {log log' : List Scan} {tokens tokens' : List Token}

theorem scanned_append (lx : Lexer) (tokens tokens' : List Token) :
    lx.tables.scanned (tokens ++ tokens') =
      lx.tables.scanned tokens ++ lx.tables.scanned tokens' := by
  rw [Tables.scanned, List.filter_append, List.map_append]
  rfl

theorem scanned_of_not_mem (h : token.symbol ∉ lx.tables.externals) :
    lx.tables.scanned [token] = [] := by
  rw [Tables.scanned, List.filter_cons_of_neg]
  · rfl
  · rwa [List.contains_iff_mem]

/-- A log that begins with the state `s` and comes to `s'`: each scan is a question that the lexer puts
to the scanner, the tokens taken are those of `tokens` that are from the scanner, and the dropped ones
are such as `drops` says. -/
structure Logs (lx : Lexer) (drops : Token → Prop) (s : Saved) (log : List Scan) (s' : Saved)
    (tokens : List Token) : Prop where
  threads : Scan.Threads s log s'
  asks : ∀ e ∈ log, ∃ welcome extrasOnly, e.valid = lx.valid welcome extrasOnly ∧
    e.found = lx.scanExternal e.given e.position welcome extrasOnly
  taken : (log.filterMap Scan.taken?).map Prod.fst = lx.tables.scanned tokens
  dropped : ∀ e ∈ log, ∀ r ∈ e.dropped?, drops r.1

theorem Logs.nil (s : Saved) : lx.Logs drops s [] s [] :=
  ⟨.nil s, fun _ he => absurd he List.not_mem_nil, rfl, fun _ he => absurd he List.not_mem_nil⟩

theorem Logs.append (h : lx.Logs drops s log s₁ tokens) (h' : lx.Logs drops s₁ log' s' tokens') :
    lx.Logs drops s (log ++ log') s' (tokens ++ tokens') where
  threads := h.threads.append h'.threads
  asks := List.forall_mem_append.2 ⟨h.asks, h'.asks⟩
  taken := by rw [List.filterMap_append, List.map_append, h.taken, h'.taken, scanned_append]
  dropped := List.forall_mem_append.2 ⟨h.dropped, h'.dropped⟩

/-- Tokens that are not from the scanner leave no trace. -/
theorem Logs.congr (h : lx.Logs drops s log s' tokens)
    (ht : lx.tables.scanned tokens' = lx.tables.scanned tokens) : lx.Logs drops s log s' tokens' :=
  { h with taken := h.taken.trans ht.symm }

theorem Logs.mono (h : lx.Logs drops s log s' tokens) (hd : ∀ token, drops token → drops' token) :
    lx.Logs drops' s log s' tokens :=
  { h with dropped := fun e he r hr => hd r.1 (h.dropped e he r hr) }

/-- At a place that is only looked at, each token is dropped. -/
theorem Logs.drop (h : lx.Logs drops s log s' tokens) (hd : ∀ token, drops token → drops' token)
    (ht : ∀ token ∈ lx.tables.scanned tokens, drops' token) :
    lx.Logs drops' s (log.map Scan.drop) s' [] where
  threads := h.threads.drop
  asks := by
    intro e he
    obtain ⟨e, hm, rfl⟩ := List.mem_map.1 he
    exact h.asks e hm
  taken := by
    have hnone : log.filterMap (Scan.taken? ∘ Scan.drop) = [] :=
      List.filterMap_eq_nil_iff.2 fun _ _ => rfl
    rw [List.filterMap_map, hnone]
    rfl
  dropped := by
    intro e he r hr
    obtain ⟨e, hm, rfl⟩ := List.mem_map.1 he
    have hfound : e.found = some r := hr
    cases hdelivered : e.delivered with
    | true =>
        refine ht r.1 (h.taken ▸ List.mem_map_of_mem (List.mem_filterMap.2 ⟨e, hm, ?_⟩))
        rw [Scan.taken?, if_pos hdelivered, hfound]
    | false =>
        refine hd r.1 (h.dropped e hm r ?_)
        rw [Scan.dropped?, hdelivered, hfound]
        rfl

/-- The scanner leaves its state as it is where it gives an extra. -/
def Keeps (lx : Lexer) : Prop :=
  ∀ saved position welcome extrasOnly token saved',
    lx.scanExternal saved position welcome extrasOnly = some (token, saved') →
      lx.tables.isExtra token.symbol = true → saved' = saved

/-- Where only extras are dropped, such a scanner is not led astray. -/
theorem Logs.follows_of_keeps (h : lx.Logs drops s log s' tokens)
    (hd : ∀ token, drops token → lx.tables.isExtra token.symbol = true) (hkeeps : lx.Keeps) :
    Scan.Follows s log := by
  refine h.threads.follows_iff.2 fun e he r hr => ?_
  have hm := List.mem_of_mem_dropLast he
  obtain ⟨welcome, extrasOnly, -, hfound⟩ := h.asks e hm
  refine hkeeps e.given e.position welcome extrasOnly r.1 r.2 ?_ (hd r.1 (h.dropped e hm r hr))
  rw [← hfound]
  rw [Scan.dropped?] at hr
  split at hr
  · cases hr
  · exact hr

theorem Logs.single {found : Option (Token × Saved)} {delivered : Bool}
    (h : lx.scanExternal saved position welcome extrasOnly = found)
    (ht : (if delivered then found else none).toList.map Prod.fst = lx.tables.scanned tokens)
    (hd : delivered = false → ∀ r ∈ found, drops r.1) :
    lx.Logs drops saved [⟨saved, position, lx.valid welcome extrasOnly, found, delivered⟩]
      (found.elim saved (·.2)) tokens where
  threads := .cons rfl (.nil _)
  asks := List.forall_mem_singleton.2 ⟨welcome, extrasOnly, rfl, h.symm⟩
  taken := by
    rw [← ht, List.filterMap_cons, Scan.taken?]
    cases (if delivered then found else none) <;> rfl
  dropped := by
    refine List.forall_mem_singleton.2 fun r hr => ?_
    cases delivered with
    | true => cases hr
    | false => exact hd rfl r hr

/-- The scan that is made, if the scanner is asked for anything. -/
def ask (lx : Lexer) (saved : Saved) (position : Nat) (welcome : Symbol → Bool) (extrasOnly : Bool)
    (takes : Token → Bool) : List Scan :=
  if lx.scanner.isSome && (lx.valid welcome extrasOnly).any id then
    let found := lx.scanExternal saved position welcome extrasOnly
    [⟨saved, position, lx.valid welcome extrasOnly, found, found.any fun r => takes r.1⟩]
  else []

theorem ask_of_none {takes : Token → Bool}
    (h : lx.scanExternal saved position welcome extrasOnly = none) :
    lx.Logs drops saved (lx.ask saved position welcome extrasOnly takes) saved [] := by
  rw [ask]
  split
  · dsimp only
    rw [h]
    exact .single h rfl fun _ r hr => absurd hr (Option.not_mem_none r)
  · exact .nil saved

theorem ask_of_some {takes : Token → Bool}
    (h : lx.scanExternal saved position welcome extrasOnly = some (token, saved')) :
    lx.ask saved position welcome extrasOnly takes =
      [⟨saved, position, lx.valid welcome extrasOnly, some (token, saved'), takes token⟩] := by
  obtain ⟨scanner, _, hscanner, -, hs, hvalid, -⟩ := scanExternal_eq_some h
  have hany : (lx.valid welcome extrasOnly).any id = true := by
    rw [valid, List.any_map]
    exact List.any_eq_true.2 ⟨_, List.mem_of_getElem? hs, hvalid⟩
  rw [ask, hscanner, hany]
  dsimp only
  rw [h]
  rfl

theorem scanned_of_scanExternal
    (h : lx.scanExternal saved position welcome extrasOnly = some (token, saved')) :
    lx.tables.scanned [{ token with afterExtra := afterExtra }] = [token] := by
  have hmem := scanExternal_mem h
  obtain ⟨_, _, -, -, -, -, -, htoken⟩ := scanExternal_eq_some h
  rw [htoken] at hmem ⊢
  simp [Tables.scanned, hmem]

theorem ask_taken {takes : Token → Bool} (afterExtra : Bool)
    (h : lx.scanExternal saved position welcome extrasOnly = some (token, saved'))
    (ht : takes token = true) :
    lx.Logs drops saved (lx.ask saved position welcome extrasOnly takes) saved'
      [{ token with afterExtra := afterExtra }] := by
  rw [ask_of_some h, ht]
  exact .single h (scanned_of_scanExternal h).symm Bool.noConfusion

theorem ask_dropped {takes : Token → Bool}
    (h : lx.scanExternal saved position welcome extrasOnly = some (token, saved'))
    (ht : takes token = false) (hd : drops token) :
    lx.Logs drops saved (lx.ask saved position welcome extrasOnly takes) saved' [] := by
  rw [ask_of_some h, ht]
  exact .single h rfl fun _ r hr => Option.some.inj hr ▸ hd

/-- Where the scanner finds nothing, its state stays and no token is from it. -/
theorem skipOne_of_none (ha : lx.tables.Apart) (afterExtra : Bool)
    (h : lx.scanExternal saved position welcome true = none) :
    (lx.skipOne saved position afterExtra welcome).2 = saved ∧
      lx.tables.scanned ((lx.skipOne saved position afterExtra welcome).1.bind Prod.fst).toList =
        [] := by
  rw [skipOne, h]
  dsimp only
  split
  · exact ⟨rfl, rfl⟩
  · split
    · next e he =>
        obtain ⟨⟨lexToken, hm, hs⟩, -⟩ := bestMatch_mem he
        split
        · exact ⟨rfl, scanned_of_not_mem (hs ▸ ha.lexTokens lexToken hm)⟩
        · split <;> exact ⟨rfl, rfl⟩
    · split <;> exact ⟨rfl, rfl⟩

def skipOneScans (lx : Lexer) (saved : Saved) (position : Nat) (welcome : Symbol → Bool) :
    List Scan :=
  lx.ask saved position welcome true fun token =>
    token.wrapper.isSome || lx.tables.isExtra token.symbol

theorem skipOne_logs (ha : lx.tables.Apart) (saved : Saved) (position : Nat) (afterExtra : Bool)
    (welcome : Symbol → Bool) :
    lx.Logs (fun _ => False) saved (lx.skipOneScans saved position welcome)
      (lx.skipOne saved position afterExtra welcome).2
      ((lx.skipOne saved position afterExtra welcome).1.bind Prod.fst).toList := by
  cases h : lx.scanExternal saved position welcome true with
  | none =>
      obtain ⟨hsaved, hscanned⟩ := skipOne_of_none ha afterExtra h
      rw [hsaved]
      exact (ask_of_none h).congr hscanned
  | some r =>
      obtain ⟨token, saved'⟩ := r
      obtain ⟨_, _, -, -, -, hextra, -⟩ := scanExternal_eq_some h
      have htakes : (token.wrapper.isSome || lx.tables.isExtra token.symbol) = true := by
        rw [show lx.tables.isExtra token.symbol = true by simpa using hextra, Bool.or_true]
      rw [skipOne, h]
      dsimp only
      rw [if_pos htakes]
      exact ask_taken true h htakes

def skipFromScans (lx : Lexer) (welcome : Symbol → Bool) :
    Nat → Saved → Nat → Bool → List Scan
  | 0, _, _, _ => []
  | fuel + 1, saved, position, afterExtra =>
    if Text.byteLength lx.text ≤ position then []
    else
      lx.skipOneScans saved position welcome ++
        match lx.skipOne saved position afterExtra welcome with
        | (none, _) => []
        | (some (_, next), saved) => skipFromScans lx welcome fuel saved next true

theorem skipFrom_logs (ha : lx.tables.Apart) (welcome : Symbol → Bool) (fuel : Nat) (saved : Saved)
    (position : Nat) (afterExtra : Bool) :
    lx.Logs (fun _ => False) saved (lx.skipFromScans welcome fuel saved position afterExtra)
      (lx.skipFrom welcome fuel saved position afterExtra).2
      (lx.skipFrom welcome fuel saved position afterExtra).1.extras := by
  induction fuel generalizing saved position afterExtra with
  | zero => exact .nil saved
  | succ fuel ih =>
      rw [skipFromScans, skipFrom]
      split
      · exact .nil saved
      · have hone := skipOne_logs ha saved position afterExtra welcome
        rcases h : lx.skipOne saved position afterExtra welcome with ⟨- | ⟨token, next⟩, saved'⟩
        · rw [h] at hone
          exact hone.append (.nil saved')
        · rw [h] at hone
          exact hone.append (ih saved' next true)

def skipScans (lx : Lexer) (saved : Saved) (position : Nat) (welcome : Symbol → Bool) : List Scan :=
  lx.skipFromScans welcome (Text.byteLength lx.text + 1) saved position false

variable {expected : Option (Symbol → Bool)}

theorem scanned_matched (ha : lx.tables.Apart) (afterExtra : Bool) :
    lx.tables.scanned (lx.matched? position expected afterExtra).toList = [] := by
  cases h : lx.matched? position expected afterExtra with
  | none => rfl
  | some token =>
      obtain ⟨_, _, _, -, hbest, hsymbol, -⟩ := matched?_eq_some h
      refine scanned_of_not_mem ?_
      obtain hs | ⟨e, he, hs⟩ := hsymbol
      · obtain ⟨⟨lexToken, hm, hl⟩, -⟩ := bestMatch_mem hbest
        exact hs ▸ hl ▸ ha.lexTokens lexToken hm
      · exact hs ▸ ha.keywords e he

theorem skipExtras_logs (lx : Lexer) (ha : lx.tables.Apart) (saved : Saved) (position : Nat)
    (welcome : Symbol → Bool) :
    lx.Logs (fun _ => False) saved (lx.skipScans saved position welcome)
      (lx.skipExtras saved position welcome).2 (lx.skipExtras saved position welcome).1.extras :=
  skipFrom_logs ha welcome _ saved position false

def tokenScans (lx : Lexer) (saved : Saved) (position : Nat) (expected : Option (Symbol → Bool)) :
    List Scan :=
  if Text.byteLength lx.text ≤ position then []
  else
    lx.ask saved position (lx.welcomes expected) false fun token => expected.all (· token.symbol)

/-- A token is dropped if it is an extra that is not expected. -/
theorem token_logs (lx : Lexer) (ha : lx.tables.Apart) (saved : Saved) (position : Nat)
    (expected : Option (Symbol → Bool)) (afterExtra : Bool) :
    lx.Logs (fun token => lx.tables.isExtra token.symbol = true ∧
        expected.all (· token.symbol) = false) saved
      (lx.tokenScans saved position expected)
      (lx.token saved position expected afterExtra).2
      (lx.token saved position expected afterExtra).1.toList := by
  rw [tokenScans]
  split
  · next hp =>
      rw [Lexer.token, if_pos hp]
      exact .nil saved
  · next hp =>
      rw [token_eq (Nat.not_le.1 hp)]
      rcases h : lx.scanExternal saved position (lx.welcomes expected) false with
        - | ⟨token, saved'⟩
      · exact (ask_of_none h).congr (scanned_matched ha afterExtra)
      · dsimp only
        split
        · next ht => exact ask_taken afterExtra h ht
        · next ht =>
            rw [Bool.not_eq_true] at ht
            refine (ask_dropped h ht ⟨?_, ht⟩).congr (scanned_matched ha afterExtra)
            obtain ⟨_, _, -, -, -, hvalid, -⟩ := scanExternal_eq_some h
            cases expected with
            | none => cases ht
            | some f =>
                have hf : f token.symbol = false := ht
                simpa [welcomes, hf] using hvalid

theorem scanned_or_errorToken (ha : lx.tables.Apart) (token : Option Token) (position : Nat)
    (afterExtra : Bool) :
    lx.tables.scanned (token.or (lx.errorToken position afterExtra)).toList =
      lx.tables.scanned token.toList := by
  cases token with
  | some token => rfl
  | none =>
      rw [Option.none_or]
      cases h : lx.errorToken position afterExtra with
      | none => rfl
      | some error =>
          exact scanned_of_not_mem ((errorToken_eq_some h).1 ▸ ha.error)

/-- What is passed over at a place where any token will do, and the token behind it. -/
def listedAt (lx : Lexer) (saved : Saved) (position : Nat) : Leading × Option Token × Saved :=
  let (leading, saved) := lx.skipExtras saved position fun _ => false
  let (token, saved) := lx.token saved leading.offset none leading.afterExtra
  (leading, token.or (lx.errorToken leading.offset leading.afterExtra), saved)

/-- The tokens that are listed, each with whether it is an extra. -/
def listed (lx : Lexer) : Nat → Saved → Nat → List (Token × Bool)
  | 0, _, _ => []
  | fuel + 1, saved, position =>
    match lx.listedAt saved position with
    | (leading, none, _) => leading.extras.map (·, true)
    | (leading, some token, saved) =>
      leading.extras.map (·, true) ++ (token, false) :: listed lx fuel saved token.stop

theorem tokenizeFrom_eq (lx : Lexer) (lines : Text.Lines) (fuel : Nat) (saved : Saved)
    (position : Nat) :
    tokenizeFrom lx lines fuel saved position = (lx.listed fuel saved position).map
      fun (token, isExtra) => .ofToken lines isExtra
        (if isExtra then token else { token with wrapper := none }) := by
  induction fuel generalizing saved position with
  | zero => rfl
  | succ fuel ih =>
      have hsucc : tokenizeFrom lx lines (fuel + 1) saved position =
          match lx.listedAt saved position with
          | (leading, none, _) => leading.extras.map (.ofToken lines true)
          | (leading, some token, saved) =>
            leading.extras.map (.ofToken lines true) ++
              .ofToken lines false { token with wrapper := none } ::
                tokenizeFrom lx lines fuel saved token.stop := by
        rw [tokenizeFrom, listedAt]
        dsimp only
        split <;> next h => rw [h]
      rw [hsucc, listed]
      split
      · rw [List.map_map]
        rfl
      · rw [List.map_append, List.map_map, List.map_cons, ih]
        rfl

def scansAt (lx : Lexer) (saved : Saved) (position : Nat) : List Scan :=
  let (leading, saved₁) := lx.skipExtras saved position fun _ => false
  lx.skipScans saved position (fun _ => false) ++ lx.tokenScans saved₁ leading.offset none

def listedScans (lx : Lexer) : Nat → Saved → Nat → List Scan
  | 0, _, _ => []
  | fuel + 1, saved, position =>
    lx.scansAt saved position ++
      match lx.listedAt saved position with
      | (_, none, _) => []
      | (_, some token, saved) => listedScans lx fuel saved token.stop

/-- Nothing is dropped where any token will do. -/
theorem listedAt_logs (ha : lx.tables.Apart) (saved : Saved) (position : Nat) :
    lx.Logs (fun _ => False) saved (lx.scansAt saved position) (lx.listedAt saved position).2.2
      ((lx.listedAt saved position).1.extras ++ (lx.listedAt saved position).2.1.toList) := by
  have htoken := token_logs lx ha (lx.skipExtras saved position fun _ => false).2
    (lx.skipExtras saved position fun _ => false).1.offset none
    (lx.skipExtras saved position fun _ => false).1.afterExtra
  refine (skipExtras_logs lx ha saved position fun _ => false).append
    ((htoken.mono fun token h => Bool.noConfusion h.2).congr ?_)
  exact scanned_or_errorToken ha _ _ _

theorem listed_logs (lx : Lexer) (ha : lx.tables.Apart) (fuel : Nat) (saved : Saved) (position : Nat) :
    ∃ s', lx.Logs (fun _ => False) saved (lx.listedScans fuel saved position) s'
      ((lx.listed fuel saved position).map Prod.fst) := by
  induction fuel generalizing saved position with
  | zero => exact ⟨saved, .nil saved⟩
  | succ fuel ih =>
      have hat := listedAt_logs ha saved position
      rw [listedScans, listed]
      rcases h : lx.listedAt saved position with ⟨leading, - | token, saved'⟩
      · rw [h] at hat
        refine ⟨saved', ?_⟩
        simpa [Function.comp_def] using hat
      · rw [h] at hat
        obtain ⟨s', hrest⟩ := ih saved' token.stop
        refine ⟨s', ?_⟩
        simpa [Function.comp_def] using hat.append hrest

section

variable {other : Scanner}

/-- The lexer with another scanner in place of its own. -/
def withScanner (lx : Lexer) (other : Scanner) : Lexer := { lx with scanner := some other }

@[simp] theorem text_withScanner : (lx.withScanner other).text = lx.text := rfl

@[simp] theorem welcomes_withScanner : (lx.withScanner other).welcomes = lx.welcomes := rfl

/-- The other scanner answers each question of the log as the lexer's own does. -/
def Concurs (lx : Lexer) (other : Scanner) (log : List Scan) : Prop :=
  ∀ e ∈ log, ∀ scanner ∈ lx.scanner,
    other.scan e.given (.ofText lx.text e.position) e.valid =
      scanner.scan e.given (.ofText lx.text e.position) e.valid

theorem concurs_append :
    lx.Concurs other (log ++ log') ↔ lx.Concurs other log ∧ lx.Concurs other log' :=
  List.forall_mem_append

theorem concurs_drop : lx.Concurs other (log.map Scan.drop) ↔ lx.Concurs other log :=
  List.forall_mem_map

theorem scanExternal_withScanner (hs : lx.scanner.isSome) {takes : Token → Bool}
    (h : lx.Concurs other (lx.ask saved position welcome extrasOnly takes)) :
    (lx.withScanner other).scanExternal saved position welcome extrasOnly =
      lx.scanExternal saved position welcome extrasOnly := by
  obtain ⟨scanner, hscanner⟩ := Option.isSome_iff_exists.1 hs
  cases hany : (lx.valid welcome extrasOnly).any id with
  | false =>
      rw [valid] at hany
      simp only [scanExternal, withScanner, hscanner, hany]
      rfl
  | true =>
      rw [ask, hscanner, hany] at h
      have hscan := h _ (List.mem_singleton_self _) scanner hscanner
      rw [valid] at hscan hany
      simp only [scanExternal, withScanner, hscanner, hany]
      dsimp only [Option.bind_eq_bind, Option.bind_some] at hscan ⊢
      rw [hscan]
      rfl

theorem skipOne_withScanner (hs : lx.scanner.isSome)
    (h : lx.Concurs other (lx.skipOneScans saved position welcome)) :
    (lx.withScanner other).skipOne saved position afterExtra welcome =
      lx.skipOne saved position afterExtra welcome := by
  rw [skipOne, skipOne, scanExternal_withScanner hs h]
  rfl

theorem skipFrom_withScanner (hs : lx.scanner.isSome) {fuel : Nat}
    (h : lx.Concurs other (lx.skipFromScans welcome fuel saved position afterExtra)) :
    (lx.withScanner other).skipFrom welcome fuel saved position afterExtra =
      lx.skipFrom welcome fuel saved position afterExtra := by
  induction fuel generalizing saved position afterExtra with
  | zero => rfl
  | succ fuel ih =>
      rw [skipFrom, skipFrom, text_withScanner]
      by_cases hp : Text.byteLength lx.text ≤ position
      · rw [if_pos hp, if_pos hp]
      · rw [skipFromScans, if_neg hp, concurs_append] at h
        rw [if_neg hp, if_neg hp, skipOne_withScanner hs h.1]
        rcases hone : lx.skipOne saved position afterExtra welcome with ⟨- | ⟨token, next⟩, saved'⟩
        · rfl
        · rw [hone] at h
          dsimp only
          rw [ih h.2]

theorem skipExtras_withScanner (hs : lx.scanner.isSome)
    (h : lx.Concurs other (lx.skipScans saved position welcome)) :
    (lx.withScanner other).skipExtras saved position welcome = lx.skipExtras saved position welcome :=
  skipFrom_withScanner hs h

theorem token_withScanner (hs : lx.scanner.isSome)
    (h : lx.Concurs other (lx.tokenScans saved position expected)) :
    (lx.withScanner other).token saved position expected afterExtra =
      lx.token saved position expected afterExtra := by
  by_cases hp : Text.byteLength lx.text ≤ position
  · rw [Lexer.token, Lexer.token, text_withScanner, if_pos hp, if_pos hp]
  · have hp' : position < Text.byteLength (lx.withScanner other).text := Nat.not_le.1 hp
    rw [tokenScans, if_neg hp] at h
    rw [token_eq hp', token_eq (Nat.not_le.1 hp), welcomes_withScanner,
      scanExternal_withScanner hs h]
    rfl

theorem listedAt_withScanner (hs : lx.scanner.isSome)
    (h : lx.Concurs other (lx.scansAt saved position)) :
    (lx.withScanner other).listedAt saved position = lx.listedAt saved position := by
  rw [scansAt] at h
  dsimp only at h
  obtain ⟨hskip, htoken⟩ := concurs_append.1 h
  rw [listedAt, listedAt, skipExtras_withScanner hs hskip]
  dsimp only
  rw [token_withScanner hs htoken]
  rfl

theorem listed_withScanner (hs : lx.scanner.isSome) {fuel : Nat}
    (h : lx.Concurs other (lx.listedScans fuel saved position)) :
    (lx.withScanner other).listed fuel saved position = lx.listed fuel saved position := by
  induction fuel generalizing saved position with
  | zero => rfl
  | succ fuel ih =>
      obtain ⟨hat, hrest⟩ := concurs_append.1 h
      rw [listed, listed, listedAt_withScanner hs hat]
      rcases hl : lx.listedAt saved position with ⟨leading, - | token, saved'⟩
      · rfl
      · rw [hl] at hrest
        dsimp only
        rw [ih hrest]

end

end Lexer

namespace Language

def lexer (l : Language) (text : List Char) : Lexer := ⟨l.tables, l.scanner, text⟩

/-- The tokens of a text that is only split into tokens, each with whether it is an extra. -/
def listed (l : Language) (text : List Char) : List (Token × Bool) :=
  (l.lexer text).listed (Text.byteLength text + 1) [] 0

end Language

end EarleyTree

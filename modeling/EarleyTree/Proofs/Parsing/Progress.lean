import EarleyTree.Proofs.Lexing.Bounds

/-!
A step of a parse that does not end it moves on, unless it takes over a subtree over no text; without
such subtrees a parse comes to its end within one step for each byte of the text and one more.
-/
namespace EarleyTree

open Text

namespace ParseState

variable {p : ParseInput} {st st' : ParseState}

theorem reading_position (st : ParseState) : (st.reading p).position = (st.opened p).1.position := by
  rw [reading]
  split <;> rfl

theorem le_opened_position (hf : p.lexer.Forward) (st : ParseState) :
    st.position ≤ (st.opened p).1.position := by
  rw [opened, passExtras]
  exact (Lexer.skipFrom_forward hf _ _ _ _ _).1

theorem start_of_reuse? {candidates : List Subtree} {t : Subtree} {c : Chart}
    (h : st.reuse? p candidates = some (t, c)) : t.start = st.position := by
  unfold reuse? at h
  dsimp only at h
  obtain ⟨r, hr, h⟩ := Option.bind_eq_some_iff.1 h
  obtain ⟨d, -, h⟩ := Option.map_eq_some_iff.1 h
  cases h
  have hw := List.find?_some hr
  rw [Bool.and_eq_true, beq_iff_eq] at hw
  exact hw.1

/-- A step goes on to the end of a subtree that begins behind the extras, or to that of the token. -/
theorem step_more (hs : st.step p = .more st') :
    (∃ t ∈ p.reusable, t.start = (st.opened p).1.position ∧ st'.position = t.stop ∧
        st'.units = st.units.push (.reused t)) ∨
      ∃ t, ((st.reading p).nextToken p (st.opened p).2).1 = some t ∧ st'.position = t.stop := by
  rw [step_eq] at hs
  split at hs
  · next t c hr =>
      cases hs
      refine .inl ⟨t, candidates_subset st t (reuse?_eq_some hr).1, start_of_reuse? hr, rfl, ?_⟩
      rw [(push_frame _ _ _).2, (opened_frame st).2]
  · dsimp only at hs
    split at hs
    · next t hx =>
        cases hs
        refine .inr ⟨t, hx, ?_⟩
        rw [shift]
        split <;> rfl
    · cases hs

/-- A step that does not end the parse moves on, unless it takes over a subtree over no text. -/
theorem step_lt_or_empty (hf : p.lexer.Forward) (hre : ∀ t ∈ p.reusable, t.start ≤ t.stop)
    (hs : st.step p = .more st') : st.position < st'.position ∨
      ∃ t ∈ p.reusable, t.start = t.stop ∧ st'.units = st.units.push (.reused t) := by
  have hle := le_opened_position hf st
  obtain ⟨t, ht, hstart, hstop, hunits⟩ | ⟨t, ht, hstop⟩ := step_more hs
  · obtain hlt | heq := Nat.lt_or_eq_of_le (hre t ht)
    · left
      omega
    · exact .inr ⟨t, ht, heq, hunits⟩
  · obtain ⟨hstart, hlt⟩ := nextToken_forward hf ht
    rw [reading_position] at hstart
    left
    omega

theorem step_le (hf : p.lexer.Proper) (hin : ∀ t ∈ p.reusable, t.stop ≤ byteLength p.text)
    (hs : st.step p = .more st') : st'.position ≤ byteLength p.text := by
  obtain ⟨t, ht, -, hstop, -⟩ | ⟨t, ht, hstop⟩ := step_more hs
  · exact hstop ▸ hin t ht
  · rw [hstop]
    obtain ⟨-, ⟨hlt, _, hfound⟩ | herror⟩ := nextToken_eq_some ht
    · exact hfound.stop_le hf hlt.le
    · exact Lexer.errorToken_le herror

/-- The induction is on the number of steps: the position bounds those that are left. -/
theorem exists_runFor (hf : p.lexer.Proper)
    (hre : ∀ t ∈ p.reusable, t.start < t.stop ∧ t.stop ≤ byteLength p.text) (n : Nat)
    (hp : st.position ≤ byteLength p.text) (hn : byteLength p.text < n + st.position) :
    ∃ st', st.runFor p n = some st' := by
  induction n generalizing st with
  | zero => omega
  | succ n ih =>
      rw [runFor]
      cases hs : st.step p with
      | finished st' => exact ⟨st', rfl⟩
      | more st' =>
          have hlt : st.position < st'.position := by
            refine (step_lt_or_empty hf.forward (fun t ht => (hre t ht).1.le) hs).resolve_right ?_
            rintro ⟨t, ht, heq, -⟩
            exact (hre t ht).1.ne heq
          exact ih (step_le hf (fun t ht => (hre t ht).2) hs) (by omega)

end ParseState

theorem Candid.BlockComment.proper_of_compile {g : Grammar} {handle : Nat} {l : Language}
    (hl : Language.compile g (some scanner) handle = .ok l) : ∀ s ∈ l.scanner, s.Proper := by
  rw [Language.scanner_of_compile hl]
  rintro _ ⟨⟩
  exact scanner_proper

theorem Language.proper_of_isNone {l : Language} (h : l.scanner.isNone = true) :
    ∀ s ∈ l.scanner, s.Proper := by
  rw [Option.isNone_iff_eq_none.1 h]
  exact fun s hs => nomatch hs

namespace ParseInput

open ParseState

variable {p : ParseInput}

theorem exists_ends (hf : p.lexer.Proper)
    (hre : ∀ t ∈ p.reusable, t.start < t.stop ∧ t.stop ≤ byteLength p.text) : ∃ st, Ends p st := by
  obtain ⟨st, hst⟩ : ∃ st, (initial p).runFor p (byteLength p.text + 1) = some st :=
    exists_runFor hf hre _ (Nat.zero_le _) (Nat.lt_add_right _ (Nat.lt_succ_self _))
  exact ⟨st, ends_of_runFor hst⟩

/-- Without an old tree a parse comes to its end. -/
theorem exists_ends_fresh {l : Language} (hf : ∀ s ∈ l.scanner, s.Proper) (text : List Char)
    (era : Nat) : ∃ st, Ends (fresh l text era) st :=
  exists_ends (p := fresh l text era) hf fun _ ht => absurd ht List.not_mem_nil

end ParseInput

end EarleyTree

import EarleyTree.Proofs.Parsing.FreshChart

/-!
The table of nullable symbols says which symbols derive nothing at all, and the loop that fills it
comes to an end.
-/
namespace EarleyTree

/-- Rounds over the productions go on as long as they change the table, and end with the second one. -/
inductive Settles (productions : Array Production) : Array Bool → Array Bool → Prop
  | stop {nullable : Array Bool} (h : nullableRound productions nullable = nullable) :
      Settles productions nullable nullable
  | again {nullable final : Array Bool} (h : nullableRound productions nullable ≠ nullable)
      (hs : Settles productions (nullableRound productions nullable) final) :
      Settles productions nullable final

variable {productions : Array Production} {nullable : Array Bool}

theorem Settles.unique {a b : Array Bool} (ha : Settles productions nullable a)
    (hb : Settles productions nullable b) : a = b := by
  induction ha with
  | stop h =>
      cases hb with
      | stop => rfl
      | again hne => exact absurd h hne
  | again hne _ ih =>
      cases hb with
      | stop h => exact absurd h hne
      | again _ hs => exact ih hs

/-- Where the given rounds end with a table that one more does not change, they are all of the loop. -/
theorem settles_nullableFrom {rounds : Nat} (h : nullableRound productions
      (nullableFrom productions rounds nullable) = nullableFrom productions rounds nullable) :
    Settles productions nullable (nullableFrom productions rounds nullable) := by
  induction rounds generalizing nullable with
  | zero => exact .stop h
  | succ rounds ih =>
      rw [nullableFrom] at h ⊢
      by_cases he : nullableRound productions nullable = nullable
      · simp only [he, BEq.rfl, if_true]
        exact .stop he
      · simp only [beq_iff_eq, he, if_false] at h ⊢
        exact .again he (ih h)

namespace Tables

variable {t : Tables}

theorem WellFormed.settles_iff (ht : t.WellFormed) {final : Array Bool} :
    Settles t.productions (Array.replicate t.symbols.size false) final ↔ final = t.nullable := by
  have hsettles : Settles t.productions (Array.replicate t.symbols.size false) t.nullable := by
    have hround := ht.closed_round.2
    rw [ht.nullable, nullableSymbols] at hround ⊢
    exact settles_nullableFrom hround
  refine ⟨fun h => h.unique hsettles, ?_⟩
  rintro rfl
  exact hsettles

theorem vanishes_iff_derives {s : Symbol} : t.Vanishes s ↔ Derives t [{ symbol := s }] [] := by
  have hcovers : (∃ f : Forest, f.Covers t #[] [{ symbol := s }] 0 0) ↔
      Derives t [{ symbol := s }] (letters #[] 0 0) :=
    exists_covers_iff (Nat.le_refl 0) (Nat.zero_le _)
  rw [letters_self] at hcovers
  rw [← hcovers]
  constructor
  · exact fun h => Forest.exists_covers_of_vanishes (s := { symbol := s }) h #[] 0
  · rintro ⟨f, hf⟩
    exact hf.vanishes rfl _ (List.mem_singleton_self _)

end Tables

/-- In the tables of a language the loop that looks for nullable symbols comes to an end, with one flag
for each symbol, and those are set that derive the empty row. -/
theorem Language.nullable_exact {g : Grammar} {scanner : Option Scanner} {handle : Nat} {l : Language}
    (hl : Language.compile g scanner handle = .ok l) :
    (∀ final, Settles l.tables.productions (Array.replicate l.tables.symbols.size false) final ↔
      final = l.tables.nullable) ∧
      l.tables.nullable.size = l.tables.symbols.size ∧
      ∀ s, l.tables.nullable.getD s false = true ↔ Derives l.tables [{ symbol := s }] [] := by
  have ht := Language.compile_wellFormed hl
  refine ⟨fun final => ht.settles_iff, ht.closed_round.1, fun s => ?_⟩
  rw [← Tables.vanishes_iff_derives]
  exact ht.isNullable_iff

/-- The row may be empty by its first alternative alone, whatever the second one asks for; its letter
may not. -/
theorem Language.nullable_exact_letterRow : ∃ l row letter,
    Language.compile ParseState.letterRow none 0 = .ok l ∧ l.kindId? "row" true = some row ∧
    l.kindId? "a" false = some letter ∧ Derives l.tables [{ symbol := row }] [] ∧
    ¬Derives l.tables [{ symbol := letter }] [] := by
  obtain ⟨l, hl, htest⟩ := Language.exists_of_compile_any
    (show (Language.compile ParseState.letterRow none 0).toOption.any (fun l =>
      (l.kindId? "row" true).any fun row => (l.kindId? "a" false).any fun letter =>
        l.tables.nullable.getD row false && !l.tables.nullable.getD letter false) = true by
      decide +kernel)
  obtain ⟨row, hrow, htest⟩ := (Option.any_eq_true _ _).1 htest
  obtain ⟨letter, hletter, htest⟩ := (Option.any_eq_true _ _).1 htest
  rw [Bool.and_eq_true, Bool.not_eq_true'] at htest
  obtain ⟨hnull, hfull⟩ := htest
  obtain ⟨-, -, hexact⟩ := Language.nullable_exact hl
  refine ⟨l, row, letter, hl, hrow, hletter, (hexact row).1 hnull, fun hd => ?_⟩
  rw [(hexact letter).2 hd] at hfull
  cases hfull

end EarleyTree

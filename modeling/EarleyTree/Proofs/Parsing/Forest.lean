import EarleyTree.Parsing.Derivation
import EarleyTree.Proofs.Language.Nullable

/-!
Derivation trees over rows of input units.
-/
namespace EarleyTree

namespace InputUnit

/-- What a step must ask for to be taken over the unit. -/
def symbol : InputUnit → Symbol
  | token t => t.symbol
  | reused t => t.symbol

def afterExtra : InputUnit → Bool
  | token t => t.afterExtra
  | reused _ => false

end InputUnit

def Step.Takes (s : Step) (u : InputUnit) : Prop :=
  s.symbol = u.symbol ∧ ¬(s.immediate = true ∧ u.afterExtra = true)

instance (s : Step) (u : InputUnit) : Decidable (s.Takes u) :=
  inferInstanceAs (Decidable (s.symbol = u.symbol ∧ ¬(s.immediate = true ∧ u.afterExtra = true)))

/-- One derivation tree for each step of a row: a single unit, or a production whose steps are
derived in turn. -/
inductive Forest
  | nil
  | unit (next : Forest)
  | expand (production : Nat) (inner next : Forest)
  deriving DecidableEq, Repr

namespace Forest

def append : Forest → Forest → Forest
  | nil, g => g
  | unit next, g => unit (next.append g)
  | expand p inner next, g => expand p inner (next.append g)

def width : Forest → Nat
  | nil => 0
  | unit next => next.width + 1
  | expand _ inner next => inner.width + next.width

/-- The trees derive from the steps the units from one place up to another. -/
inductive Covers (t : Tables) (us : Array InputUnit) : Forest → List Step → Nat → Nat → Prop
  | nil (i : Nat) : Covers t us .nil [] i i
  | unit {f : Forest} {s : Step} {ss : List Step} {u : InputUnit} {i j : Nat} (hu : us[i]? = some u)
      (hs : s.Takes u) (h : Covers t us f ss (i + 1) j) : Covers t us (.unit f) (s :: ss) i j
  | expand {p : Nat} {f g : Forest} {s : Step} {ss : List Step} {i k j : Nat}
      (hp : p < t.productions.size) (hs : t.lhs p = s.symbol) (hf : Covers t us f (t.steps p) i k)
      (hg : Covers t us g ss k j) : Covers t us (.expand p f g) (s :: ss) i j

def reach? (t : Tables) (us : Array InputUnit) : Forest → List Step → Nat → Option Nat
  | nil, [], i => some i
  | unit next, s :: ss, i =>
    if us[i]?.any fun u => decide (s.Takes u) then next.reach? t us ss (i + 1) else none
  | expand p inner next, s :: ss, i =>
    if p < t.productions.size ∧ t.lhs p = s.symbol then
      (inner.reach? t us (t.steps p) i).bind (next.reach? t us ss)
    else none
  | _, _, _ => none

variable {t : Tables} {us vs : Array InputUnit} {f g h : Forest} {ss ts : List Step} {i j k : Nat}

namespace Covers

theorem le (hf : Covers t us f ss i j) : i ≤ j := by
  induction hf with
  | nil => exact Nat.le_refl _
  | unit _ _ _ ih => exact Nat.le_of_succ_le ih
  | expand _ _ _ _ ihf ihg => exact Nat.le_trans ihf ihg

theorem le_size (hf : Covers t us f ss i j) (hi : i ≤ us.size) : j ≤ us.size := by
  induction hf with
  | nil => exact hi
  | unit hu _ _ ih => exact ih (Array.getElem?_eq_some_iff.1 hu).1
  | expand _ _ _ _ ihf ihg => exact ihg (ihf hi)

theorem add_width (hf : Covers t us f ss i j) : i + f.width = j := by
  induction hf with
  | nil => rfl
  | unit _ _ _ ih => rw [← ih, width]; omega
  | expand _ _ _ _ ihf ihg => rw [← ihg, ← ihf, width]; omega

theorem append (hf : Covers t us f ss i k) (hg : Covers t us g ts k j) :
    Covers t us (f.append g) (ss ++ ts) i j := by
  induction hf with
  | nil => exact hg
  | unit hu hs _ ih => exact .unit hu hs (ih hg)
  | expand hp hs hf _ _ ih => exact .expand hp hs hf (ih hg)

theorem split (hh : Covers t us h (ss ++ ts) i j) :
    ∃ f g k, h = f.append g ∧ Covers t us f ss i k ∧ Covers t us g ts k j := by
  induction ss generalizing h i with
  | nil => exact ⟨.nil, h, i, rfl, .nil i, hh⟩
  | cons s ss ih =>
      cases hh with
      | unit hu hs hh =>
          obtain ⟨f, g, k, rfl, hf, hg⟩ := ih hh
          exact ⟨.unit f, g, k, rfl, .unit hu hs hf, hg⟩
      | expand hp hs hi hh =>
          obtain ⟨f, g, k, rfl, hf, hg⟩ := ih hh
          exact ⟨.expand _ _ f, g, k, rfl, .expand hp hs hi hf, hg⟩

theorem congr (hv : ∀ k < j, us[k]? = vs[k]?) (hf : Covers t us f ss i j) :
    Covers t vs f ss i j := by
  induction hf with
  | nil i => exact .nil i
  | unit hu hs h ih => exact .unit ((hv _ h.le).symm.trans hu) hs (ih hv)
  | expand hp hs _ hg ihf ihg =>
      exact .expand hp hs (ihf fun i hi => hv i (Nat.lt_of_lt_of_le hi hg.le)) (ihg hv)

theorem vanishes (hf : Covers t us f ss i j) (hij : i = j) : ∀ s ∈ ss, t.Vanishes s.symbol := by
  induction hf with
  | nil => exact fun s hs => absurd hs List.not_mem_nil
  | unit _ _ h => exact absurd h.le (by omega)
  | expand hp hs hf hg ihf ihg =>
      have hi := hf.le
      have hj := hg.le
      intro s hm
      obtain rfl | hm := List.mem_cons.1 hm
      · exact hs ▸ .expand hp (ihf (by omega))
      · exact ihg (by omega) s hm

theorem of_singleton {s : Step} (hf : Covers t us f [s] i j) :
    (∃ u, f = .unit .nil ∧ us[i]? = some u ∧ s.Takes u ∧ j = i + 1) ∨
      ∃ p g, f = .expand p g .nil ∧ p < t.productions.size ∧ t.lhs p = s.symbol ∧
        Covers t us g (t.steps p) i j := by
  cases hf with
  | unit hu hs hn => cases hn with | nil => exact .inl ⟨_, rfl, hu, hs, rfl⟩
  | expand hp hs hf hn => cases hn with | nil => exact .inr ⟨_, _, rfl, hp, hs, hf⟩

theorem singleton_unit {s : Step} {u : InputUnit} (hu : us[i]? = some u) (hs : s.Takes u) :
    Covers t us (.unit .nil) [s] i (i + 1) :=
  .unit hu hs (.nil _)

theorem singleton_expand {s : Step} {p : Nat} (hp : p < t.productions.size)
    (hs : t.lhs p = s.symbol) (hf : Covers t us f (t.steps p) i j) :
    Covers t us (.expand p f .nil) [s] i j :=
  .expand hp hs hf (.nil _)

end Covers

theorem exists_covers_of_vanishes {s : Step} (hs : t.Vanishes s.symbol) (us : Array InputUnit)
    (i : Nat) : ∃ f, Covers t us f [s] i i := by
  have hrow : ∀ ss : List Step, (∀ s ∈ ss, ∃ f, Covers t us f [s] i i) →
      ∃ f, Covers t us f ss i i := by
    intro ss hss
    induction ss with
    | nil => exact ⟨.nil, .nil i⟩
    | cons s ss ih =>
        obtain ⟨f, hf⟩ := hss s List.mem_cons_self
        obtain ⟨g, hg⟩ := ih fun s hm => hss s (List.mem_cons_of_mem _ hm)
        exact ⟨f.append g, hf.append hg⟩
  generalize hA : s.symbol = A at hs
  induction hs generalizing s with
  | expand hp _ ih =>
      obtain ⟨f, hf⟩ := hrow _ fun s hm => ih s hm rfl
      exact ⟨_, .singleton_expand hp hA.symm hf⟩

theorem Covers.reach?_eq (hf : f.Covers t us ss i j) : f.reach? t us ss i = some j := by
  induction hf with
  | nil => rfl
  | unit hu hs _ ih =>
      rw [reach?, hu, if_pos (by simpa using hs), ih]
  | expand hp hs _ _ ihf ihg =>
      rw [reach?, if_pos ⟨hp, hs⟩, ihf, Option.bind_some, ihg]

theorem covers_of_reach? (h : f.reach? t us ss i = some j) : f.Covers t us ss i j := by
  induction f generalizing ss i j with
  | nil =>
      cases ss with
      | nil =>
          cases h
          exact .nil i
      | cons => cases h
  | unit next ih =>
      cases ss with
      | nil => cases h
      | cons s ss =>
          rw [reach?] at h
          split at h
          · next hu =>
              obtain ⟨u, hu, hs⟩ := (Option.any_eq_true _ _).1 hu
              exact .unit hu (of_decide_eq_true hs) (ih h)
          · cases h
  | expand p inner next ihi ihn =>
      cases ss with
      | nil => cases h
      | cons s ss =>
          rw [reach?] at h
          split at h
          · next hp =>
              obtain ⟨k, hk, hj⟩ := Option.bind_eq_some_iff.1 h
              exact .expand hp.1 hp.2 (ihi hk) (ihn hj)
          · cases h

theorem covers_iff_reach? : f.Covers t us ss i j ↔ f.reach? t us ss i = some j :=
  ⟨Covers.reach?_eq, covers_of_reach?⟩

instance : Decidable (f.Covers t us ss i j) := decidable_of_iff _ covers_iff_reach?.symm

/-- Where no symbol has two productions, there is nothing to choose. -/
theorem Covers.unique
    (hp : ∀ p q, p < t.productions.size → q < t.productions.size → t.lhs p = t.lhs q → p = q)
    (hu : ∀ (i : Nat) (u : InputUnit) (p : Nat), us[i]? = some u → p < t.productions.size →
      t.lhs p ≠ u.symbol)
    (hf : f.Covers t us ss i j) (hg : g.Covers t us ss i k) : f = g ∧ j = k := by
  induction hf generalizing g k with
  | nil =>
      cases hg
      exact ⟨rfl, rfl⟩
  | unit hi hs _ ih =>
      cases hg with
      | unit hi' hs' hg =>
          obtain ⟨rfl, rfl⟩ := ih hg
          exact ⟨rfl, rfl⟩
      | expand hq hl => exact absurd (hl.trans hs.1) (hu _ _ _ hi hq)
  | expand hq hl _ _ ihf ihg =>
      cases hg with
      | unit hi hs => exact absurd (hl.trans hs.1) (hu _ _ _ hi hq)
      | expand hq' hl' hf' hg' =>
          obtain rfl := hp _ _ hq hq' (hl.trans hl'.symm)
          obtain ⟨rfl, rfl⟩ := ihf hf'
          obtain ⟨rfl, rfl⟩ := ihg hg'
          exact ⟨rfl, rfl⟩

end Forest

/-- From the start symbol, the symbol is met behind the first units, whatever may follow. -/
inductive Reaches (t : Tables) (us : Array InputUnit) : Nat → Symbol → Prop
  | start : Reaches t us 0 t.start
  | predict {p o i : Nat} {f : Forest} {before after : List Step} {s : Step}
      (hp : p < t.productions.size) (h : Reaches t us o (t.lhs p))
      (hs : t.steps p = before ++ s :: after) (hf : f.Covers t us before o i) :
      Reaches t us i s.symbol

theorem Reaches.le_size {t : Tables} {us : Array InputUnit} {i : Nat} {s : Symbol}
    (h : Reaches t us i s) : i ≤ us.size := by
  induction h with
  | start => exact Nat.zero_le _
  | predict _ _ _ hf ih => exact hf.le_size ih

theorem Reaches.congr {t : Tables} {us vs : Array InputUnit} {i : Nat} {s : Symbol}
    (hv : ∀ k < i, us[k]? = vs[k]?) (h : Reaches t us i s) : Reaches t vs i s := by
  induction h with
  | start => exact .start
  | predict hp _ hs hf ih =>
      exact .predict hp (ih fun k hk => hv k (Nat.lt_of_lt_of_le hk hf.le)) hs (hf.congr hv)

end EarleyTree

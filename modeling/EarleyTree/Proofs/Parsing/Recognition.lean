import EarleyTree.Proofs.Parsing.Closure
import EarleyTree.Proofs.Parsing.Forest

/-!
What the items of a chart stand for. Closing a set and stepping over a unit add no item without a
derivation; if no prediction is withheld, no item that has one is left out.
-/
namespace EarleyTree

variable {t : Tables} {us : Array InputUnit} {u : InputUnit} {k : Nat} {item new : Item}

/-- The first steps of the production derive the units from the origin up to `k`, and the symbol on
its left is met at the origin. -/
structure Item.Sound (t : Tables) (us : Array InputUnit) (k : Nat) (item : Item) : Prop where
  production : item.production < t.productions.size
  dot : item.dot ≤ (t.steps item.production).length
  covers : ∃ f : Forest, f.Covers t us ((t.steps item.production).take item.dot) item.origin k
  reaches : Reaches t us item.origin (t.lhs item.production)

namespace Item

theorem take_succ_dot {step : Step} (hn : item.nextStep? t = some step) :
    (t.steps item.production).take (item.dot + 1) =
      (t.steps item.production).take item.dot ++ [step] := by
  rw [List.take_add_one, ← nextStep?, hn, Option.toList_some]

theorem steps_eq {step : Step} (hn : item.nextStep? t = some step) :
    t.steps item.production = (t.steps item.production).take item.dot ++
      step :: (t.steps item.production).drop (item.dot + 1) := by
  obtain ⟨hlt, hs⟩ := List.getElem?_eq_some_iff.1 hn
  rw [← hs, ← List.drop_eq_getElem_cons hlt, List.take_append_drop]

namespace Sound

theorem origin_le (h : item.Sound t us k) : item.origin ≤ k := h.covers.elim fun _ hf => hf.le

theorem le_size (h : item.Sound t us k) : k ≤ us.size :=
  h.covers.elim fun _ hf => hf.le_size h.reaches.le_size

theorem congr {vs : Array InputUnit} (hv : ∀ i < k, us[i]? = vs[i]?) (h : item.Sound t us k) :
    item.Sound t vs k :=
  ⟨h.production, h.dot, h.covers.imp fun _ hf => hf.congr hv,
    h.reaches.congr fun _ hi => hv _ (Nat.lt_of_lt_of_le hi h.origin_le)⟩

theorem push_iff (hk : k ≤ us.size) : item.Sound t (us.push u) k ↔ item.Sound t us k := by
  have hv : ∀ i < k, (us.push u)[i]? = us[i]? := fun i hi => by
    rw [Array.getElem?_push_lt (Nat.lt_of_lt_of_le hi hk), ← Array.getElem?_eq_getElem]
  exact ⟨.congr hv, .congr fun i hi => (hv i hi).symm⟩

theorem advance {step : Step} {f : Forest} {j : Nat} (h : item.Sound t us k)
    (hn : item.nextStep? t = some step) (hf : f.Covers t us [step] k j) :
    item.advance.Sound t us j := by
  obtain ⟨g, hg⟩ := h.covers
  refine ⟨h.production, (List.getElem?_eq_some_iff.1 hn).1, ⟨g.append f, ?_⟩, h.reaches⟩
  dsimp only [Item.advance]
  rw [take_succ_dot hn]
  exact hg.append hf

theorem predict (ht : t.WellFormed) {s : Symbol} {p : Nat} (h : item.Sound t us k)
    (hn : item.next? t = some s) (hp : p ∈ t.productionsOf s) : Sound t us k ⟨p, 0, k⟩ := by
  obtain ⟨step, hstep, rfl⟩ := next?_eq_some.1 hn
  obtain ⟨hlt, hs⟩ := ht.mem_productionsOf.1 hp
  obtain ⟨f, hf⟩ := h.covers
  have hr := Reaches.predict h.production h.reaches (steps_eq hstep) hf
  exact ⟨hlt, Nat.zero_le _, ⟨.nil, .nil k⟩, hs ▸ hr⟩

theorem start (ht : t.WellFormed) {p : Nat} (hp : p ∈ t.productionsOf t.start) :
    Sound t us 0 ⟨p, 0, 0⟩ := by
  obtain ⟨hlt, hs⟩ := ht.mem_productionsOf.1 hp
  exact ⟨hlt, Nat.zero_le _, ⟨.nil, .nil 0⟩, hs ▸ .start⟩

theorem skip (ht : t.WellFormed) {s : Symbol} (h : item.Sound t us k)
    (hn : item.next? t = some s) (hs : t.isNullable s) : item.advance.Sound t us k := by
  obtain ⟨step, hstep, rfl⟩ := next?_eq_some.1 hn
  obtain ⟨f, hf⟩ := Forest.exists_covers_of_vanishes (ht.vanishes_of_isNullable hs) us k
  exact h.advance hstep hf

theorem complete {waiting : Item} (h : item.Sound t us k) (hn : item.next? t = none)
    (hw : waiting.Sound t us item.origin) (hs : waiting.next? t = some (item.lhs t)) :
    waiting.advance.Sound t us k := by
  obtain ⟨step, hstep, hs⟩ := next?_eq_some.1 hs
  obtain ⟨f, hf⟩ := h.covers
  rw [List.take_of_length_le (isComplete_iff_le.1 (isComplete_iff.2 hn))] at hf
  exact hw.advance hstep (.singleton_expand h.production hs.symm hf)

theorem exists_before {p d o : Nat} {step : Step} (h : Sound t us k ⟨p, d + 1, o⟩)
    (hs : (t.steps p)[d]? = some step) :
    ∃ i f, Sound t us i ⟨p, d, o⟩ ∧ Forest.Covers t us f [step] i k := by
  obtain ⟨f, hf⟩ := h.covers
  dsimp only at hf
  rw [List.take_add_one, hs, Option.toList_some] at hf
  obtain ⟨g, f, i, -, hg, hf⟩ := hf.split
  exact ⟨i, f, ⟨h.production, Nat.le_of_succ_le h.dot, ⟨g, hg⟩, h.reaches⟩, hf⟩

end Sound

end Item

/-- What closing a set adds to the set. -/
structure SaturatedAt (t : Tables) (sets : Nat → ItemSet) (k : Nat) : Prop where
  predicted : ∀ {item s p}, item ∈ sets k → item.next? t = some s → t.isNonterminal s →
    p ∈ t.productionsOf s → ⟨p, 0, k⟩ ∈ sets k
  skipped : ∀ {item s}, item ∈ sets k → item.next? t = some s → t.isNonterminal s →
    t.isNullable s → item.advance ∈ sets k
  completed : ∀ {item waiting}, item ∈ sets k → item.next? t = none → item.origin < k →
    waiting ∈ sets item.origin → waiting.next? t = some (item.lhs t) → waiting.advance ∈ sets k

/-- What is in the set before it is closed. -/
structure SeededAt (t : Tables) (us : Array InputUnit) (sets : Nat → ItemSet) (k : Nat) : Prop where
  started : ∀ {p}, k = 0 → p ∈ t.productionsOf t.start → ⟨p, 0, 0⟩ ∈ sets k
  scanned : ∀ {i u item step}, k = i + 1 → us[i]? = some u → item ∈ sets i →
    item.nextStep? t = some step → step.Takes u → item.advance ∈ sets k

theorem SaturatedAt.of_exact (ht : t.WellFormed) {sets : Nat → ItemSet}
    (h : ∀ i ≤ k, ∀ item, item ∈ sets i ↔ item.Sound t us i) : SaturatedAt t sets k where
  predicted hi hn _ hp := (h k le_rfl _).2 (((h k le_rfl _).1 hi).predict ht hn hp)
  skipped hi hn _ hs := (h k le_rfl _).2 (((h k le_rfl _).1 hi).skip ht hn hs)
  completed hi hn ho hw hs :=
    (h k le_rfl _).2 (((h k le_rfl _).1 hi).complete hn ((h _ ho.le _).1 hw) hs)

theorem SeededAt.of_exact (ht : t.WellFormed) {sets : Nat → ItemSet}
    (h : ∀ i ≤ k, ∀ item, item ∈ sets i ↔ item.Sound t us i) : SeededAt t us sets k where
  started hk hp := by
    subst hk
    exact (h 0 le_rfl _).2 (.start ht hp)
  scanned hk hu hi hn hs := by
    subst hk
    exact (h _ le_rfl _).2 (((h _ (Nat.le_succ _) _).1 hi).advance hn (.singleton_unit hu hs))

section

variable {sets : Nat → ItemSet} {m : Nat}

/-- A derivation leads through the sets: the induction is on the tree, and over an empty stretch the
table of nullable symbols stands in for the completion. -/
theorem mem_of_covers (ht : t.WellFormed) (hsat : ∀ k ≤ m, SaturatedAt t sets k)
    (hseed : ∀ k ≤ m, SeededAt t us sets k) {f : Forest} {ss : List Step} {i j : Nat}
    (hf : f.Covers t us ss i j) (hj : j ≤ m) (q o : Nat) (before after : List Step)
    (hq : t.steps q = before ++ ss ++ after) (hm : ⟨q, before.length, o⟩ ∈ sets i) :
    ⟨q, before.length + ss.length, o⟩ ∈ sets j := by
  have hnext : ∀ {before ss after : List Step} {q o : Nat} {s : Step},
      t.steps q = before ++ (s :: ss) ++ after →
        (⟨q, before.length, o⟩ : Item).nextStep? t = some s := by
    intro before ss after q o s hq
    simp [Item.nextStep?, hq]
  induction hf generalizing q o before after with
  | nil => exact hm
  | @unit f s ss u i j hu hs hf ih =>
      have hi : (⟨q, before.length + 1, o⟩ : Item) ∈ sets (i + 1) :=
        (hseed (i + 1) (hf.le.trans hj)).scanned rfl hu hm (hnext hq) hs
      have hrec := ih hj q o (before ++ [s]) after
        (by simpa using hq) (by simpa using hi)
      simpa [Nat.add_assoc, Nat.add_comm 1] using hrec
  | @expand p f g s ss i k j hp hs hf hg ihf ihg =>
      have hk := hg.le.trans hj
      have hwait : (⟨q, before.length, o⟩ : Item).next? t = some s.symbol :=
        Item.next?_eq_some.2 ⟨s, hnext hq, rfl⟩
      have hnt : t.isNonterminal s.symbol := hs ▸ ht.isNonterminal_lhs hp
      have hadv : (⟨q, before.length + 1, o⟩ : Item) ∈ sets k := by
        obtain hik | rfl := Nat.lt_or_eq_of_le hf.le
        · have hpred := (hsat i (hf.le.trans hk)).predicted hm hwait hnt
            (ht.mem_productionsOf.2 ⟨hp, hs⟩)
          have hdone := ihf hk p i [] [] (by simp) hpred
          refine (hsat k hk).completed hdone ?_ hik hm (hwait.trans (congrArg some hs.symm))
          simp [Item.next?, Item.nextStep?]
        · refine (hsat i hk).skipped hm hwait hnt (ht.isNullable_of_vanishes ?_)
          exact hs ▸ .expand hp (hf.vanishes rfl)
      have hrec := ihg hj q o (before ++ [s]) after
        (by simpa using hq) (by simpa using hadv)
      simpa [Nat.add_assoc, Nat.add_comm 1] using hrec

theorem mem_of_reaches (ht : t.WellFormed) (hsat : ∀ k ≤ m, SaturatedAt t sets k)
    (hseed : ∀ k ≤ m, SeededAt t us sets k) {s : Symbol} {i p : Nat} (hr : Reaches t us i s)
    (hi : i ≤ m) (hp : p ∈ t.productionsOf s) : ⟨p, 0, i⟩ ∈ sets i := by
  induction hr generalizing p with
  | start => exact (hseed 0 hi).started rfl hp
  | @predict q o i f before after s hq _ hs hf ih =>
      have hpred := ih (hf.le.trans hi) (ht.mem_productionsOf.2 ⟨hq, rfl⟩)
      have hmem := mem_of_covers ht hsat hseed hf hi q o [] (s :: after) (by simpa using hs) hpred
      refine (hsat i hi).predicted hmem (Item.next?_eq_some.2 ⟨s, ?_, rfl⟩) ?_ hp
      · simp [Item.nextStep?, hs]
      · obtain ⟨hlt, hl⟩ := ht.mem_productionsOf.1 hp
        exact hl ▸ ht.isNonterminal_lhs hlt

theorem Item.Sound.mem (ht : t.WellFormed) (hsat : ∀ k ≤ m, SaturatedAt t sets k)
    (hseed : ∀ k ≤ m, SeededAt t us sets k) (h : item.Sound t us k) (hk : k ≤ m) :
    item ∈ sets k := by
  obtain ⟨f, hf⟩ := h.covers
  have hpred := mem_of_reaches ht hsat hseed h.reaches (h.origin_le.trans hk)
    (ht.mem_productionsOf.2 ⟨h.production, rfl⟩)
  have hmem := mem_of_covers ht hsat hseed hf hk item.production item.origin []
    ((t.steps item.production).drop item.dot) (by simp) hpred
  simpa [Nat.min_eq_left h.dot] using hmem

end

end EarleyTree

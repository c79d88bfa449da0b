import EarleyTree.Proofs.Parsing.Extraction
import EarleyTree.Proofs.Parsing.Positions
import EarleyTree.Proofs.Tree.Filling

/-!
Derivations over subtrees that were taken over, against derivations over the tokens below them. The
extras in the text of such a subtree are in it already.
-/
namespace EarleyTree

open Text

deriving instance DecidableEq for InputUnit

namespace InputUnit

def surrounds : InputUnit → Subtree → Bool
  | token _, _ => false
  | reused t, e => t.surrounds e

end InputUnit

namespace Derivation

variable {x y : Derivation} {F : List Subtree} {place : Nat → Nat} {step : Step} {ss : List Step}
  {f : Forest} {i j k : Nat}

/-- The node lies within a subtree that was taken over among the units of the stretch. -/
def isWithin (x : Derivation) (i j : Nat) (e : Subtree) : Bool :=
  (List.range' i (j - i)).any fun k => (x.units[k]?).any (·.surrounds e)

def inside (x : Derivation) (F : List Subtree) (i j : Nat) : List Subtree := F.filter (x.isWithin i j)

theorem isWithin_iff {e : Subtree} : x.isWithin i j e = true ↔
    ∃ k t, i ≤ k ∧ k < j ∧ x.units[k]? = some (.reused t) ∧ t.surrounds e = true := by
  rw [isWithin, List.any_eq_true]
  constructor
  · rintro ⟨k, hk, hu⟩
    obtain ⟨u, hu, hs⟩ := (Option.any_eq_true _ _).1 hu
    have hk := List.mem_range'_1.1 hk
    cases u with
    | token => cases hs
    | reused t => exact ⟨k, t, hk.1, by omega, hu, hs⟩
  · rintro ⟨k, t, hi, hj, hu, hs⟩
    exact ⟨k, List.mem_range'_1.2 ⟨hi, by omega⟩, by simp [hu, InputUnit.surrounds, hs]⟩

theorem mem_inside {e : Subtree} : e ∈ x.inside F i j ↔
    e ∈ F ∧ ∃ k t, i ≤ k ∧ k < j ∧ x.units[k]? = some (.reused t) ∧ t.surrounds e = true := by
  rw [inside, List.mem_filter, isWithin_iff]

theorem inside_self (x : Derivation) (F : List Subtree) (i : Nat) : x.inside F i i = [] := by
  simp [inside, isWithin]

theorem inside_succ {u : InputUnit} (hu : x.units[i]? = some u) :
    x.inside F i (i + 1) = F.filter u.surrounds := by
  have h : x.isWithin i (i + 1) = u.surrounds := by
    funext e
    simp [isWithin, hu]
  rw [inside, h]

theorem isWithin_split (hik : i ≤ k) (hkj : k ≤ j) (e : Subtree) :
    x.isWithin i j e = (x.isWithin i k e || x.isWithin k j e) := by
  have hrange : List.range' i (j - i) = List.range' i (k - i) ++ List.range' k (j - k) := by
    have h := List.range'_append_1 (s := i) (m := k - i) (n := j - k)
    rw [Nat.add_sub_cancel' hik, show k - i + (j - k) = j - i by omega] at h
    exact h.symm
  rw [isWithin, hrange, List.any_append, isWithin, isWithin]

/-- A property that tells what floats in the first part of a stretch from what floats in the second
one splits all that floats in it. -/
theorem filter_inside {p : Subtree → Bool} (hik : i ≤ k) (hkj : k ≤ j)
    (hp : ∀ e ∈ x.inside F i k, p e = true) (hn : ∀ e ∈ x.inside F k j, p e = false) :
    (x.inside F i j).filter p = x.inside F i k ∧
      ((x.inside F i j).filter fun e => !p e) = x.inside F k j := by
  rw [inside] at hp hn ⊢
  rw [List.filter_filter, List.filter_filter]
  constructor
  · apply List.filter_congr
    intro e he
    rw [isWithin_split hik hkj]
    cases h : x.isWithin i k e with
    | true => simp [hp e (List.mem_filter.2 ⟨he, h⟩)]
    | false =>
        cases h' : x.isWithin k j e with
        | true => simp [hn e (List.mem_filter.2 ⟨he, h'⟩)]
        | false => simp
  · apply List.filter_congr
    intro e he
    rw [isWithin_split hik hkj]
    cases h : x.isWithin k j e with
    | true => simp [hn e (List.mem_filter.2 ⟨he, h⟩)]
    | false =>
        cases h' : x.isWithin i k e with
        | true => simp [hp e (List.mem_filter.2 ⟨he, h'⟩)]
        | false => simp

theorem span_self (x : Derivation) (i : Nat) : x.span i i = x.emptySpan i := by
  rw [span]
  split
  · exact if_neg (Nat.lt_irrefl i)
  · rfl

theorem span_of_lt {first last : InputUnit} (hij : i < j) (hi : x.units[i]? = some first)
    (hj : x.units[j - 1]? = some last) : x.span i j = x.lines.span first.start last.stop := by
  rw [span, hi, hj]
  exact if_pos hij

theorem stop_span_le (h : Laid x.units F) {u : InputUnit} (hij : i ≤ j) (hjk : j ≤ k)
    (hk : x.units[k]? = some u) : (x.span i j).endByte ≤ u.start := by
  have hsize := (Array.getElem?_eq_some_iff.1 hk).1
  obtain hlt | rfl := Nat.lt_or_eq_of_le hij
  · have hlast : x.units[j - 1]? = some x.units[j - 1] := Array.getElem?_eq_getElem (by omega)
    rw [span_of_lt hlt (Array.getElem?_eq_getElem (by omega)) hlast]
    exact h.stop_le_start hlast hk (by omega)
  · rw [span_self, emptySpan]
    cases i with
    | zero =>
        have hfirst : x.units[0]? = some x.units[0] := Array.getElem?_eq_getElem (by omega)
        simp only [if_pos, hfirst]
        exact (h.le_of_le hfirst hk hjk).1
    | succ i =>
        have hlast : x.units[i]? = some x.units[i] := Array.getElem?_eq_getElem (by omega)
        rw [if_neg (Nat.succ_ne_zero i), Nat.add_sub_cancel, hlast]
        exact h.stop_le_start hlast hk hjk

theorem stop_image_le (h : Laid x.units F) (hf : f.Covers x.tables x.units ss i j) :
    ∀ s ∈ x.image f ss i, ∀ k u, j ≤ k → x.units[k]? = some u → s.stop ≤ u.start := by
  induction hf with
  | nil => simp
  | @unit f s ss u i j hu hs hf ih =>
      intro t ht k v hk hv
      rw [image, hu, Option.map_some, Option.getD_some] at ht
      rcases List.mem_append.1 ht with ht | ht
      · have hle : u.stop ≤ v.start := h.stop_le_start hu hv (Nat.lt_of_lt_of_le hf.le hk)
        cases u with
        | token u =>
            rw [unitImage] at ht
            split at ht
            · obtain rfl := List.mem_singleton.1 ht
              exact hle
            · cases ht
        | reused u =>
            obtain rfl := List.mem_singleton.1 ht
            cases u
            exact hle
      · exact ih t ht k v hk hv
  | @expand p f g s ss i k j hp hs hf hg ihf ihg =>
      intro t ht m v hm hv
      rw [image, hf.add_width] at ht
      rcases List.mem_append.1 ht with ht | ht
      · have hkm := hg.le.trans hm
        rw [nodeImage] at ht
        split at ht
        · obtain rfl := List.mem_singleton.1 ht
          exact stop_span_le h hf.le hkm hv
        · obtain ⟨s, hs, rfl⟩ := List.mem_map.1 ht
          exact ihf s hs m v hkm hv
      · exact ihg t ht m v hm hv

/-- The subtree is the node for some units by the production and the tree, filled with what floats
within it. -/
def Makes (x : Derivation) (F : List Subtree) (t : Subtree) (p : Nat) (f : Forest) (i j : Nat) :
    Prop :=
  p < x.tables.productions.size ∧ x.tables.lhs p = t.symbol ∧
    f.Covers x.tables x.units (x.tables.steps p) i j ∧ x.image f (x.tables.steps p) i ≠ [] ∧
    x.unitImage { symbol := t.symbol } (.reused t) =
      [Subtree.fill (F.filter t.surrounds) (.node Subtree.anonymous t.symbol t.symbol (x.span i j)
        (x.image f (x.tables.steps p) i))]

instance (x : Derivation) (F : List Subtree) (t : Subtree) (p : Nat) (f : Forest) (i j : Nat) :
    Decidable (x.Makes F t p f i j) := inferInstanceAs (Decidable (_ ∧ _ ∧ _ ∧ _ ∧ _))

def AlwaysShown (x : Derivation) (symbol : Symbol) : Prop :=
  ∀ p < x.tables.productions.size, ∀ s ∈ x.tables.steps p, s.symbol = symbol → x.isShown s = true

/-- The units of one derivation stand for stretches of the units of another: tokens for themselves,
and each subtree taken over for units that make it. -/
structure Refines (x y : Derivation) (F : List Subtree) (place : Nat → Nat) : Prop where
  tables : x.tables = y.tables
  lines : x.lines = y.lines
  first : place 0 = 0
  last : place x.units.size = y.units.size
  token : ∀ {i : Nat} {t : Token}, x.units[i]? = some (.token t) →
    y.units[place i]? = some (.token t) ∧ place (i + 1) = place i + 1
  reused : ∀ {i : Nat} {t : Subtree}, x.units[i]? = some (.reused t) →
    place i < place (i + 1) ∧ place (i + 1) ≤ y.units.size ∧ y.AlwaysShown t.symbol ∧
      ∃ p f, y.Makes F t p f (place i) (place (i + 1))

def refinesAt (x y : Derivation) (F : List Subtree) (place : Nat → Nat) (trees : Nat → Nat × Forest) :
    Bool :=
  (List.range x.units.size).all fun i =>
    match x.units[i]? with
    | none => true
    | some (.token t) => decide (y.units[place i]? = some (.token t) ∧ place (i + 1) = place i + 1)
    | some (.reused t) =>
      decide (place i < place (i + 1) ∧ place (i + 1) ≤ y.units.size ∧
        (∀ p < y.tables.productions.size, ∀ s ∈ y.tables.steps p, s.symbol = t.symbol →
          y.isShown s = true) ∧
        y.Makes F t (trees i).1 (trees i).2 (place i) (place (i + 1)))

theorem Refines.of_refinesAt {trees : Nat → Nat × Forest} (ht : x.tables = y.tables)
    (hl : x.lines = y.lines) (h0 : place 0 = 0) (hn : place x.units.size = y.units.size)
    (h : x.refinesAt y F place trees = true) : x.Refines y F place := by
  have hunit : ∀ {i : Nat} {u : InputUnit}, x.units[i]? = some u → i ∈ List.range x.units.size :=
    fun hu => List.mem_range.2 (Array.getElem?_eq_some_iff.1 hu).1
  refine ⟨ht, hl, h0, hn, ?_, ?_⟩
  · intro i t hu
    have hi := List.all_eq_true.1 h i (hunit hu)
    rw [hu] at hi
    exact of_decide_eq_true hi
  · intro i t hu
    have hi := List.all_eq_true.1 h i (hunit hu)
    rw [hu] at hi
    obtain ⟨hlt, hle, hshown, hmakes⟩ := of_decide_eq_true hi
    exact ⟨hlt, hle, hshown, _, _, hmakes⟩

theorem node_eq_mk (ident : Ident) (symbol kind : Symbol) (span : Span) (ts : List Subtree) :
    Subtree.node ident symbol kind span ts =
      ⟨{ ident, symbol, kind, span, hasError := symbol == errorSymbol || ts.any (·.hasError) }, ts⟩ :=
  rfl

/-- What looks like a filled node does so below every step that shows it. -/
theorem fill_nodeImage {t : Subtree} {span : Span} {children gs : List Subtree}
    (h : x.unitImage { symbol := t.symbol } (.reused t) =
      [Subtree.fill gs (.node Subtree.anonymous t.symbol t.symbol span children)]) :
    t.span = span ∧ (gs.any (·.hasError) = true → t.hasError = true) ∧
      ∀ step : Step, step.symbol = t.symbol → x.isShown step = true →
        (x.nodeImage step span children).map (Subtree.fill gs) = x.unitImage step (.reused t) := by
  rw [unitImage, node_eq_mk, Subtree.fill_mk] at h
  obtain ⟨h, -⟩ := List.cons.inj h
  cases t with
  | mk data ch =>
      obtain ⟨hdata, hch⟩ := Subtree.mk.inj h
      obtain ⟨-, -, -, hspan, -, hextra, herror, -⟩ := NodeData.mk.inj hdata
      refine ⟨hspan, ?_, ?_⟩
      · intro hgs
        simpa [hgs] using herror
      · intro step hs hshown
        rw [nodeImage, if_pos hshown, node_eq_mk, unitImage, List.map_singleton, Subtree.setField,
          Subtree.fill_mk]
        simp only [Subtree.skeleton, Subtree.setField] at hspan hextra herror hch ⊢
        rw [hspan, hextra, herror, hch, hs]

/-- When filled with what floats within subtrees taken over, each node in one that encloses it, the
first subtrees become the second ones. -/
structure Fills (x : Derivation) (F : List Subtree) (i j : Nat) (ts us : List Subtree) : Prop where
  encloses : ∀ e ∈ x.inside F i j, ts.any (·.encloses e) = true
  filled : Subtree.fillAll (x.inside F i j) ts = us

namespace Fills

variable {ts us ts' us' : List Subtree}

theorem of_inside_eq_nil (h : x.inside F i j = []) : x.Fills F i j ts ts := by
  constructor
  · simp [h]
  · rw [h]
    rfl

theorem append (hik : i ≤ k) (hkj : k ≤ j) (h : x.Fills F i k ts us) (h' : x.Fills F k j ts' us')
    (hn : ∀ e ∈ x.inside F k j, ts.any (·.encloses e) = false) :
    x.Fills F i j (ts ++ ts') (us ++ us') := by
  obtain ⟨hin, hout⟩ := filter_inside hik hkj h.encloses hn
  constructor
  · intro e he
    rw [List.any_append, Bool.or_eq_true]
    cases ht : ts.any (·.encloses e) with
    | true => exact .inl rfl
    | false =>
        refine .inr (h'.encloses e ?_)
        rw [← hout]
        exact List.mem_filter.2 ⟨he, by rw [ht]; rfl⟩
  · rw [Subtree.fillAll_append (fun e => ts.any (·.encloses e)) fun _ _ => rfl, hin, hout, h.filled,
      h'.filled]

theorem map_label (h : x.Fills F i j ts us) (field : Option FieldId) :
    x.Fills F i j (ts.map (Subtree.label field)) (us.map (Subtree.label field)) := by
  constructor
  · intro e he
    simpa [List.any_map, Function.comp_def] using h.encloses e he
  · rw [Subtree.fillAll_map_label, h.filled]

theorem fill_node (h : x.Fills F i j ts us) (hclean : ∀ e ∈ x.inside F i j, e.hasError = false)
    (ident : Ident) (symbol kind : Symbol) (span : Span) (field : Option FieldId) :
    Subtree.fill (x.inside F i j) ((Subtree.node ident symbol kind span ts).setField field) =
      (Subtree.node ident symbol kind span us).setField field := by
  have hany : (x.inside F i j).any (·.hasError) = false := by
    simpa using hclean
  have hus : us.any (·.hasError) = ts.any (·.hasError) := by
    have hmap := Subtree.map_hasError_fillAll hclean ts
    rw [h.filled] at hmap
    simpa [List.any_map, Function.comp_def] using congrArg (List.any · id) hmap
  rw [node_eq_mk, node_eq_mk, Subtree.setField, Subtree.fill_mk, hany,
    Subtree.fillAmong_eq h.encloses, h.filled, hus, Bool.or_false]
  rfl

theorem node (h : x.Fills F i j ts us) (hclean : ∀ e ∈ x.inside F i j, e.hasError = false)
    {symbol kind : Symbol} {span : Span} {field : Option FieldId}
    (hs : ∀ e ∈ x.inside F i j,
      ((Subtree.node Subtree.anonymous symbol kind span ts).setField field).surrounds e = true) :
    x.Fills F i j [(Subtree.node Subtree.anonymous symbol kind span ts).setField field]
      [(Subtree.node Subtree.anonymous symbol kind span us).setField field] := by
  have hmem : ∀ e ∈ x.inside F i j,
      ((Subtree.node Subtree.anonymous symbol kind span ts).setField field).encloses e = true := by
    intro e he
    have hne : ts ≠ [] := by
      rintro rfl
      exact Bool.false_ne_true (h.encloses e he)
    rw [Subtree.encloses_eq, hs e he]
    simpa [Subtree.setField, Subtree.node, Subtree.children, Subtree.isExtra] using hne
  constructor
  · intro e he
    simp [hmem e he]
  · rw [Subtree.fillAll_singleton hmem, h.fill_node hclean]

end Fills

namespace Refines

variable (h : x.Refines y F place)

include h

theorem ends {u : InputUnit} (hu : x.units[i]? = some u) :
    place i < place (i + 1) ∧ ∃ first last, y.units[place i]? = some first ∧
      y.units[place (i + 1) - 1]? = some last ∧ first.start = u.start ∧ last.stop = u.stop := by
  cases u with
  | token t =>
      obtain ⟨hy, hp⟩ := h.token hu
      rw [hp, Nat.add_sub_cancel]
      exact ⟨Nat.lt_succ_self _, _, _, hy, hy, rfl, rfl⟩
  | reused t =>
      obtain ⟨hlt, hle, -, p, f, -, -, -, -, himage⟩ := h.reused hu
      have hi : y.units[place i]? = some y.units[place i] := Array.getElem?_eq_getElem (by omega)
      have hj : y.units[place (i + 1) - 1]? = some y.units[place (i + 1) - 1] :=
        Array.getElem?_eq_getElem (by omega)
      have hspan := (fill_nodeImage himage).1
      rw [span_of_lt hlt hi hj] at hspan
      have hstart := congrArg Span.startByte hspan
      have hstop := congrArg Span.endByte hspan
      exact ⟨hlt, _, _, hi, hj, hstart.symm, hstop.symm⟩

theorem place_le (hij : i ≤ j) (hj : j ≤ x.units.size) : place i ≤ place j := by
  induction hij with
  | refl => exact Nat.le_refl _
  | step _ ih => exact (ih (Nat.le_of_succ_le hj)).trans (h.ends (Array.getElem?_eq_getElem hj)).1.le

theorem emptySpan_eq (hi : i ≤ x.units.size) : x.emptySpan i = y.emptySpan (place i) := by
  unfold emptySpan
  rw [h.lines]
  cases i with
  | zero =>
      rw [h.first]
      have hfirst : x.units[0]?.map InputUnit.start = y.units[0]?.map InputUnit.start := by
        cases hu : x.units[0]? with
        | none =>
            have hx : x.units.size = 0 := Nat.le_zero.1 (Array.getElem?_eq_none_iff.1 hu)
            have hy := h.last
            rw [hx, h.first] at hy
            rw [Array.getElem?_eq_none (by omega)]
        | some u =>
            obtain ⟨-, first, -, hy, -, hs, -⟩ := h.ends hu
            rw [h.first] at hy
            rw [hy, Option.map_some, Option.map_some, hs]
      rw [if_pos rfl, hfirst]
      rfl
  | succ i =>
      obtain ⟨hlt, -, last, -, hy, -, hs⟩ := h.ends (Array.getElem?_eq_getElem hi)
      rw [if_neg (Nat.succ_ne_zero i), if_neg (by omega), Nat.add_sub_cancel, hy,
        Array.getElem?_eq_getElem hi]
      dsimp only
      rw [hs]

theorem span_eq (hij : i ≤ j) (hj : j ≤ x.units.size) : x.span i j = y.span (place i) (place j) := by
  obtain hlt | rfl := Nat.lt_or_eq_of_le hij
  · obtain ⟨k, rfl⟩ : ∃ k, j = k + 1 := ⟨j - 1, by omega⟩
    have hi : x.units[i]? = some x.units[i] := Array.getElem?_eq_getElem (by omega)
    have hk : x.units[k]? = some x.units[k] := Array.getElem?_eq_getElem hj
    obtain ⟨hi', first, -, hfirst, -, hstart, -⟩ := h.ends hi
    obtain ⟨-, -, last, -, hlast, -, hstop⟩ := h.ends hk
    have hplace : place i < place (k + 1) := Nat.lt_of_lt_of_le hi' (h.place_le hlt hj)
    rw [span_of_lt hlt hi hk, span_of_lt hplace hfirst hlast, h.lines, hstart, hstop]
  · rw [span_self, span_self, h.emptySpan_eq hj]

theorem isShown_eq (step : Step) : x.isShown step = y.isShown step := by
  rw [isShown, isShown, h.tables]

variable (hlaid : Laid y.units F)
  (hclean : ∀ (i : Nat) (t : Subtree), x.units[i]? = some (.reused t) → t.hasError = false)

include hclean in
theorem hasError_of_mem_inside {e : Subtree} (he : e ∈ x.inside F i j) : e.hasError = false := by
  obtain ⟨he, k, t, -, -, hu, hs⟩ := mem_inside.1 he
  obtain ⟨-, -, -, p, f, -, -, -, -, himage⟩ := h.reused hu
  by_contra hne
  have hany : (F.filter t.surrounds).any (·.hasError) = true :=
    List.any_eq_true.2 ⟨e, List.mem_filter.2 ⟨he, hs⟩, by simpa using hne⟩
  have ht := (fill_nodeImage himage).2.1 hany
  rw [hclean k t hu] at ht
  cases ht

include hlaid

/-- What floats within a later unit is not enclosed by anything that ends before it. -/
theorem encloses_eq_false {s e : Subtree} (he : e ∈ x.inside F k j) (hj : j ≤ x.units.size)
    (hs : ∀ m u, place k ≤ m → y.units[m]? = some u → s.stop ≤ u.start) : s.encloses e = false := by
  obtain ⟨he, m, t, hkm, hmj, hu, ht⟩ := mem_inside.1 he
  obtain ⟨-, first, -, hfirst, -, hstart, -⟩ := h.ends hu
  have hle := hs (place m) first (h.place_le hkm (by omega)) hfirst
  have hlt := (hlaid.floating e he).1
  rw [Subtree.surrounds, Bool.and_eq_true, decide_eq_true_iff, decide_eq_true_iff] at ht
  rw [show first.start = t.start from hstart] at hle
  simp only [Subtree.encloses, Bool.and_eq_false_iff, decide_eq_false_iff_not]
  exact .inr (by omega)

/-- What floats within a unit floats within the span of every stretch around the unit. -/
theorem surrounds_of_mem_inside {s e : Subtree} (he : e ∈ x.inside F i k) (hk : k ≤ x.units.size)
    (hs : s.span = y.span (place i) (place k)) : s.surrounds e = true := by
  obtain ⟨-, m, t, him, hmk, hu, ht⟩ := mem_inside.1 he
  obtain ⟨j, rfl⟩ : ∃ j, k = j + 1 := ⟨k - 1, by omega⟩
  have hi : x.units[i]? = some x.units[i] := Array.getElem?_eq_getElem (by omega)
  have hj : x.units[j]? = some x.units[j] := Array.getElem?_eq_getElem (by omega)
  obtain ⟨hi', first, -, hfirst, -, -, -⟩ := h.ends hi
  obtain ⟨hj', -, last, -, hlast, -, -⟩ := h.ends hj
  obtain ⟨hm', tfirst, tlast, htfirst, htlast, hstart, hstop⟩ := h.ends hu
  have hpi := h.place_le him (by omega)
  have hpj := h.place_le (show m + 1 ≤ j + 1 by omega) hk
  rw [span_of_lt (by omega) hfirst hlast] at hs
  have h1 := (hlaid.le_of_le hfirst htfirst hpi).1
  have h2 := (hlaid.le_of_le htlast hlast (by omega)).2
  have h3 : s.start = first.start := congrArg Span.startByte hs
  have h4 : s.stop = last.stop := congrArg Span.endByte hs
  have h5 : tfirst.start = t.start := hstart
  have h6 : tlast.stop = t.stop := hstop
  rw [Subtree.surrounds, Bool.and_eq_true, decide_eq_true_iff, decide_eq_true_iff] at ht ⊢
  omega

theorem fills_reused {t : Subtree} (hu : x.units[i]? = some (.reused t))
    (hs : ∃ q < y.tables.productions.size, step ∈ y.tables.steps q) (hsym : step.symbol = t.symbol) :
    ∃ p f, p < y.tables.productions.size ∧ y.tables.lhs p = step.symbol ∧
      Forest.Covers y.tables y.units f (y.tables.steps p) (place i) (place (i + 1)) ∧
      x.Fills F i (i + 1) (y.nodeImage step (y.span (place i) (place (i + 1)))
        (y.image f (y.tables.steps p) (place i))) (y.unitImage step (.reused t)) := by
  obtain ⟨-, -, hshown, p, f, hp, hl, hf, hne, himage⟩ := h.reused hu
  obtain ⟨q, hq, hm⟩ := hs
  obtain ⟨-, -, hfill⟩ := fill_nodeImage himage
  have hshow := hshown q hq step hm hsym
  refine ⟨p, f, hp, hl.trans hsym.symm, hf, ?_⟩
  rw [← hfill step hsym hshow, nodeImage, if_pos hshow]
  have hmem : ∀ e ∈ x.inside F i (i + 1), ((Subtree.node Subtree.anonymous step.symbol
      (step.newKind.getD step.symbol) (y.span (place i) (place (i + 1)))
      (y.image f (y.tables.steps p) (place i))).setField step.field).encloses e = true := by
    intro e he
    rw [Subtree.encloses_eq, h.surrounds_of_mem_inside hlaid he
      (Array.getElem?_eq_some_iff.1 hu).1 (by rfl)]
    simpa [Subtree.setField, Subtree.node, Subtree.children, Subtree.isExtra] using hne
  constructor
  · intro e he
    simp [hmem e he]
  · rw [Subtree.fillAll_singleton hmem, inside_succ hu]
    rfl

theorem any_encloses_image {g : Forest} (hg : g.Covers y.tables y.units ss i (place k))
    (hj : j ≤ x.units.size) : ∀ e ∈ x.inside F k j, (y.image g ss i).any (·.encloses e) = false := by
  intro e he
  rw [List.any_eq_false]
  intro s hs
  rw [h.encloses_eq_false hlaid he hj (stop_image_le hlaid hg s hs)]
  exact Bool.false_ne_true

include hclean

theorem fills_nodeImage {ts us : List Subtree} (hij : i ≤ j) (hj : j ≤ x.units.size)
    (hfills : x.Fills F i j ts us) : x.Fills F i j
      (y.nodeImage step (y.span (place i) (place j)) ts) (x.nodeImage step (x.span i j) us) := by
  rw [nodeImage, nodeImage, h.isShown_eq, h.span_eq hij hj]
  split
  · exact hfills.node (fun e he => h.hasError_of_mem_inside hclean he)
      fun e he => h.surrounds_of_mem_inside hlaid he hj rfl
  · exact hfills.map_label step.field

/-- What a derivation tree over the units is shown as comes of what some tree over the units that they
stand for is shown as, by filling it. -/
theorem exists_image (hf : f.Covers x.tables x.units ss i j) (hj : j ≤ x.units.size)
    (hss : ∀ s ∈ ss, ∃ p < y.tables.productions.size, s ∈ y.tables.steps p) :
    ∃ g : Forest, g.Covers y.tables y.units ss (place i) (place j) ∧
      x.Fills F i j (y.image g ss (place i)) (x.image f ss i) := by
  induction hf with
  | nil i =>
      refine ⟨.nil, .nil _, ?_⟩
      rw [image_nil, image_nil]
      exact .of_inside_eq_nil (inside_self x F i)
  | @unit f s ss u i j hu hs hf ih =>
      obtain ⟨g, hg, hfills⟩ := ih hj fun s hm => hss s (List.mem_cons_of_mem _ hm)
      rw [image, hu, Option.map_some, Option.getD_some]
      cases u with
      | token t =>
          obtain ⟨hy, hp⟩ := h.token hu
          rw [hp] at hg
          have hone : (Forest.unit .nil).Covers y.tables y.units [s] (place i) (place (i + 1)) :=
            hp ▸ .singleton_unit hy hs
          have himage : x.unitImage s (.token t) = y.unitImage s (.token t) := by
            rw [unitImage, unitImage, h.isShown_eq, h.lines]
          refine ⟨.unit g, .unit hy hs hg, ?_⟩
          rw [image, hy, Option.map_some, Option.getD_some, himage, ← hp]
          refine .append (Nat.le_succ i) hf.le (.of_inside_eq_nil ?_) hfills ?_
          · rw [inside_succ hu]
            exact List.filter_eq_nil_iff.2 fun _ _ => Bool.false_ne_true
          · rw [← image_unit hy]
            exact h.any_encloses_image hlaid hone hj
      | reused t =>
          obtain ⟨p, f', hp, hl, hf', hhead⟩ :=
            h.fills_reused hlaid hu (hss s List.mem_cons_self) hs.1
          refine ⟨.expand p f' g, .expand hp hl hf' hg, ?_⟩
          rw [image, hf'.add_width]
          refine .append (Nat.le_succ i) hf.le hhead hfills ?_
          rw [← image_expand hf']
          exact h.any_encloses_image hlaid (.singleton_expand hp hl hf') hj
  | @expand p f f' s ss i k j hp hs hf hf' ihf ihg =>
      have hk := hf'.le.trans hj
      rw [h.tables] at hp hs
      obtain ⟨g, hg, hfills⟩ := ihf hk fun s hm => ⟨p, hp, h.tables ▸ hm⟩
      obtain ⟨g', hg', hfills'⟩ := ihg hj fun s hm => hss s (List.mem_cons_of_mem _ hm)
      rw [h.tables] at hg hfills
      refine ⟨.expand p g g', .expand hp hs hg hg', ?_⟩
      rw [image, image, hf.add_width, hg.add_width, h.tables]
      refine .append hf.le hf'.le (h.fills_nodeImage hlaid hclean hf.le hk hfills) hfills' ?_
      rw [← image_expand hg]
      exact h.any_encloses_image hlaid (.singleton_expand hp hs hg) hj

end Refines

end Derivation

end EarleyTree

import EarleyTree.Proofs.Parsing.Refinement
import EarleyTree.Proofs.Parsing.Roots
import EarleyTree.Proofs.Tree.Every

/-!
Where the nodes of a derivation lie: the trees of a row one behind the other, each between the end of
the units before it and the end of its own units.
-/
namespace EarleyTree

open Text

/-- The units lie one behind the other. -/
structure Ordered (us : Array InputUnit) : Prop where
  order : us.toList.Pairwise fun u v => u.stop ≤ v.start
  range : ∀ u ∈ us, u.start ≤ u.stop

theorem Laid.ordered {us : Array InputUnit} {floating : List Subtree} (h : Laid us floating) :
    Ordered us :=
  ⟨h.order, fun u hu => (h.unit u hu).le⟩

namespace Ordered

variable {us : Array InputUnit} {u v : InputUnit} {i j : Nat}

theorem stop_le_start (h : Ordered us) (hu : us[i]? = some u) (hv : us[j]? = some v)
    (hij : i < j) : u.stop ≤ v.start := by
  obtain ⟨hi, rfl⟩ := Array.getElem?_eq_some_iff.1 hu
  obtain ⟨hj, rfl⟩ := Array.getElem?_eq_some_iff.1 hv
  exact List.pairwise_iff_getElem.1 h.order i j hi hj hij

theorem le (h : Ordered us) (hu : us[i]? = some u) : u.start ≤ u.stop :=
  h.range u (Array.mem_of_getElem? hu)

theorem start_le (h : Ordered us) (hu : us[i]? = some u) (hv : us[j]? = some v) (hij : i ≤ j) :
    u.start ≤ v.start := by
  obtain hlt | rfl := Nat.lt_or_eq_of_le hij
  · exact (h.le hu).trans (h.stop_le_start hu hv hlt)
  · obtain rfl := Option.some.inj (hu.symm.trans hv)
    exact Nat.le_refl _

end Ordered

namespace Derivation

variable {x : Derivation} {i j k : Nat} {u : InputUnit} {f : Forest} {ss : List Step}

/-- Where the units before the `i`-th one end. -/
def place (x : Derivation) (i : Nat) : Nat := (x.emptySpan i).startByte

theorem place_zero (hu : x.units[0]? = some u) : x.place 0 = u.start := by
  rw [place, emptySpan, if_pos rfl, hu]
  rfl

theorem place_succ (hu : x.units[i]? = some u) : x.place (i + 1) = u.stop := by
  rw [place, emptySpan, if_neg (Nat.succ_ne_zero i), Nat.add_sub_cancel, hu]
  rfl

section

variable (h : Ordered x.units)

include h

theorem place_le_start (hu : x.units[i]? = some u) : x.place i ≤ u.start := by
  cases i with
  | zero => exact (place_zero hu).le
  | succ i =>
      have hlt := (Array.getElem?_eq_some_iff.1 hu).1
      have hbefore : x.units[i]? = some x.units[i] := Array.getElem?_eq_getElem (by omega)
      rw [place_succ hbefore]
      exact h.stop_le_start hbefore hu (Nat.lt_succ_self i)

theorem place_mono (hij : i ≤ j) (hj : j ≤ x.units.size) : x.place i ≤ x.place j := by
  induction hij with
  | refl => exact Nat.le_refl _
  | @step m hm ih =>
      have hu : x.units[m]? = some x.units[m] := Array.getElem?_eq_getElem hj
      refine (ih (Nat.le_of_succ_le hj)).trans ?_
      rw [place_succ hu]
      exact (place_le_start h hu).trans (h.le hu)

omit h in
theorem endByte_span (hij : i ≤ j) (hj : j ≤ x.units.size) : (x.span i j).endByte = x.place j := by
  obtain hlt | rfl := Nat.lt_or_eq_of_le hij
  · obtain ⟨k, rfl⟩ : ∃ k, j = k + 1 := ⟨j - 1, by omega⟩
    have hk : x.units[k]? = some x.units[k] := Array.getElem?_eq_getElem hj
    rw [span_of_lt hlt (Array.getElem?_eq_getElem (by omega)) hk, place_succ hk]
    rfl
  · rw [span_self]
    rfl

theorem startByte_span (hij : i ≤ j) (hj : j ≤ x.units.size) :
    x.place i ≤ (x.span i j).startByte ∧ (x.span i j).startByte ≤ x.place j := by
  obtain hlt | rfl := Nat.lt_or_eq_of_le hij
  · obtain ⟨k, rfl⟩ : ∃ k, j = k + 1 := ⟨j - 1, by omega⟩
    have hi : x.units[i]? = some x.units[i] := Array.getElem?_eq_getElem (by omega)
    have hk : x.units[k]? = some x.units[k] := Array.getElem?_eq_getElem hj
    rw [span_of_lt hlt hi hk, place_succ hk]
    exact ⟨place_le_start h hi, (h.start_le hi hk (by omega)).trans (h.le hk)⟩
  · rw [span_self]
    exact ⟨Nat.le_refl _, Nat.le_refl _⟩

omit h in
theorem startByte_span_of_lt (hij : i < j) (hj : j ≤ x.units.size) (hu : x.units[i]? = some u) :
    (x.span i j).startByte = u.start := by
  have hlast : x.units[j - 1]? = some x.units[j - 1] := Array.getElem?_eq_getElem (by omega)
  rw [span_of_lt hij hu hlast]
  rfl

theorem startByte_span_le (hik : i ≤ k) (hkj : k < j) (hj : j ≤ x.units.size) :
    (x.span i j).startByte ≤ (x.span k j).startByte := by
  have hi : x.units[i]? = some x.units[i] := Array.getElem?_eq_getElem (by omega)
  have hk : x.units[k]? = some x.units[k] := Array.getElem?_eq_getElem (by omega)
  rw [startByte_span_of_lt (by omega) hj hi, startByte_span_of_lt hkj hj hk]
  exact h.start_le hi hk hik

end

/-- The trees lie one behind the other among the units of a stretch. Only an empty one may lie before
the first unit. -/
structure Row (x : Derivation) (i j : Nat) (ts : List Subtree) : Prop where
  order : ts.Pairwise fun s t => s.stop ≤ t.start
  range : ∀ t ∈ ts, x.place i ≤ t.start ∧ t.start ≤ t.stop ∧ t.stop ≤ x.place j
  first : ∀ t ∈ ts, t.start < t.stop → (x.span i j).startByte ≤ t.start

namespace Row

variable {ts us : List Subtree} {t : Subtree}

theorem nil (i j : Nat) : x.Row i j [] := by
  constructor <;> simp

theorem singleton (hstart : x.place i ≤ t.start) (hle : t.start ≤ t.stop) (hstop : t.stop ≤ x.place j)
    (hfirst : (x.span i j).startByte ≤ t.start) : x.Row i j [t] := by
  constructor
  · exact List.pairwise_singleton _ _
  · intro s hs
    rw [List.mem_singleton.1 hs]
    exact ⟨hstart, hle, hstop⟩
  · intro s hs _
    rwa [List.mem_singleton.1 hs]

theorem map_label (h : x.Row i j ts) (field : Option FieldId) :
    x.Row i j (ts.map (Subtree.label field)) := by
  constructor
  · exact List.pairwise_map.2 h.order
  · intro t ht
    obtain ⟨t, hm, rfl⟩ := List.mem_map.1 ht
    exact h.range t hm
  · intro t ht
    obtain ⟨t, hm, rfl⟩ := List.mem_map.1 ht
    exact h.first t hm

/-- There is room for a tree that is not empty only where there are units. -/
theorem lt_of_nonempty (h : x.Row i j ts) (hij : i ≤ j) (ht : t ∈ ts) (hlt : t.start < t.stop) :
    i < j := by
  obtain ⟨hstart, -, hstop⟩ := h.range t ht
  obtain hij | rfl := Nat.lt_or_eq_of_le hij
  · exact hij
  · omega

theorem append (hx : Ordered x.units) (hik : i ≤ k) (hkj : k ≤ j) (hj : j ≤ x.units.size)
    (hts : x.Row i k ts) (hus : x.Row k j us) : x.Row i j (ts ++ us) := by
  constructor
  · refine List.pairwise_append.2 ⟨hts.order, hus.order, fun s hs t ht => ?_⟩
    exact (hts.range s hs).2.2.trans (hus.range t ht).1
  · intro t ht
    obtain ht | ht := List.mem_append.1 ht
    · obtain ⟨hstart, hle, hstop⟩ := hts.range t ht
      exact ⟨hstart, hle, hstop.trans (place_mono hx hkj hj)⟩
    · obtain ⟨hstart, hle, hstop⟩ := hus.range t ht
      exact ⟨(place_mono hx hik (hkj.trans hj)).trans hstart, hle, hstop⟩
  · intro t ht hlt
    obtain ht | ht := List.mem_append.1 ht
    · have hik' := hts.lt_of_nonempty hik ht hlt
      have hi : x.units[i]? = some x.units[i] := Array.getElem?_eq_getElem (by omega)
      have hfirst := hts.first t ht hlt
      rw [startByte_span_of_lt hik' (hkj.trans hj) hi] at hfirst
      rwa [startByte_span_of_lt (Nat.lt_of_lt_of_le hik' hkj) hj hi]
    · have hkj' := hus.lt_of_nonempty hkj ht hlt
      exact (startByte_span_le hx hik hkj' hj).trans (hus.first t ht hlt)

theorem unit (hx : Ordered x.units) (hu : x.units[i]? = some u) (hstart : t.start = u.start)
    (hstop : t.stop = u.stop) : x.Row i (i + 1) [t] := by
  have hi := (Array.getElem?_eq_some_iff.1 hu).1
  apply singleton
  · exact hstart ▸ place_le_start hx hu
  · rw [hstart, hstop]
    exact hx.le hu
  · rw [hstop, place_succ hu]
  · rw [startByte_span_of_lt (Nat.lt_succ_self i) hi hu, hstart]

theorem node (hx : Ordered x.units) (hij : i ≤ j) (hj : j ≤ x.units.size) (h : x.Row i j ts)
    (s : Step) : x.Row i j (x.nodeImage s (x.span i j) ts) := by
  rw [nodeImage]
  split
  · obtain ⟨hstart, hle⟩ := startByte_span hx hij hj
    have hstop := endByte_span hij hj
    exact singleton hstart (hle.trans hstop.ge) hstop.le (Nat.le_refl _)
  · exact h.map_label s.field

end Row

theorem unitImage_span {s : Step} {t : Subtree} (ht : t ∈ x.unitImage s u) :
    t.start = u.start ∧ t.stop = u.stop := by
  cases u with
  | token u =>
      rw [unitImage] at ht
      split at ht
      · obtain rfl := List.mem_singleton.1 ht
        exact ⟨rfl, rfl⟩
      · cases ht
  | reused u =>
      obtain rfl := List.mem_singleton.1 ht
      cases u
      exact ⟨rfl, rfl⟩

theorem unitImage_row (hx : Ordered x.units) (hu : x.units[i]? = some u) (s : Step) :
    x.Row i (i + 1) (x.unitImage s u) := by
  rcases hs : x.unitImage s u with - | ⟨t, - | ⟨t', ts⟩⟩
  · exact .nil _ _
  · obtain ⟨hstart, hstop⟩ := unitImage_span (hs ▸ List.mem_singleton_self t)
    exact .unit hx hu hstart hstop
  · cases u with
    | token u =>
        rw [unitImage] at hs
        split at hs <;> cases hs
    | reused u => cases hs

theorem image_row (hx : Ordered x.units) (hf : f.Covers x.tables x.units ss i j)
    (hj : j ≤ x.units.size) : x.Row i j (x.image f ss i) := by
  induction hf with
  | nil i =>
      rw [image_nil]
      exact .nil i i
  | unit hu hs hf ih =>
      rw [image, hu]
      exact .append hx (Nat.le_succ _) hf.le hj (unitImage_row hx hu _) (ih hj)
  | expand hp hs hf hg ihf ihg =>
      have hk := hg.le.trans hj
      rw [image, hf.add_width]
      exact .append hx hf.le hg.le hj (.node hx hf.le hk (ihf hk) _) (ihg hj)

/-- It holds of the nodes of every unit's trees, of every node over a row of trees of which it holds
throughout, and whatever the label. -/
structure Carries (x : Derivation) (P : Subtree → Prop) : Prop where
  unit : ∀ {i : Nat} {u : InputUnit}, x.units[i]? = some u →
    Subtree.Every P (x.strayImage u) ∧ ∀ s, ∀ t ∈ x.unitImage s u, Subtree.Every P t
  node : ∀ {i j : Nat} {ts : List Subtree} (symbol kind : Symbol), i ≤ j → j ≤ x.units.size →
    x.Row i j ts → (∀ t ∈ ts, Subtree.Every P t) →
      P (.node Subtree.anonymous symbol kind (x.span i j) ts)
  field : ∀ {t : Subtree} (field : Option FieldId), P t → P (t.setField field)

namespace Carries

variable {P : Subtree → Prop} (hP : x.Carries P) {ts : List Subtree} {t : Subtree}

include hP

theorem every_setField (h : Subtree.Every P t) (field : Option FieldId) :
    Subtree.Every P (t.setField field) :=
  .mk (hP.field field h.here) h.children

theorem every_node (hij : i ≤ j) (hj : j ≤ x.units.size) (hrow : x.Row i j ts)
    (h : ∀ t ∈ ts, Subtree.Every P t) (symbol kind : Symbol) :
    Subtree.Every P (.node Subtree.anonymous symbol kind (x.span i j) ts) :=
  .mk (hP.node symbol kind hij hj hrow h) h

theorem image (hx : Ordered x.units) (hf : f.Covers x.tables x.units ss i j)
    (hj : j ≤ x.units.size) : ∀ t ∈ x.image f ss i, Subtree.Every P t := by
  induction hf with
  | nil i => simp
  | @unit f s ss u i j hu hs hf ih =>
      intro t ht
      rw [Derivation.image, hu] at ht
      obtain ht | ht := List.mem_append.1 ht
      · exact (hP.unit hu).2 s t ht
      · exact ih hj t ht
  | @expand p f g s ss i k j hp hs hf hg ihf ihg =>
      have hk := hg.le.trans hj
      intro t ht
      rw [Derivation.image, hf.add_width] at ht
      obtain ht | ht := List.mem_append.1 ht
      · rw [nodeImage] at ht
        split at ht
        · obtain rfl := List.mem_singleton.1 ht
          exact hP.every_setField
            (hP.every_node hf.le hk (image_row hx hf hk) (ihf hk) _ _) s.field
        · obtain ⟨t, hm, rfl⟩ := List.mem_map.1 ht
          exact hP.every_setField (ihf hk t hm) _
      · exact ihg hj t ht

end Carries

theorem Pieces.row (hx : Ordered x.units) {uses : List (Option Step)} {ts : List Subtree}
    (h : x.Pieces i uses ts) (hi : i ≤ x.units.size) : x.Row i x.units.size ts := by
  induction h with
  | done => exact .nil _ _
  | @stray k u uses ts hu _ ih =>
      have hk := (Array.getElem?_eq_some_iff.1 hu).1
      have hspan : (x.strayImage u).start = u.start ∧ (x.strayImage u).stop = u.stop := by
        cases u with
        | token t => exact ⟨rfl, rfl⟩
        | reused t => exact ⟨Subtree.start_skeleton t, Subtree.stop_skeleton t⟩
      exact .append hx (Nat.le_succ k) hk le_rfl (.unit hx hu hspan.1 hspan.2) (ih hk)
  | constituent hf _ _ _ ih =>
      have hj := hf.le_size hi
      exact .append hx hf.le hj le_rfl (image_row hx hf hj) (ih hj)

theorem Pieces.every {P : Subtree → Prop} (hx : Ordered x.units) (hP : x.Carries P)
    {uses : List (Option Step)} {ts : List Subtree} (h : x.Pieces i uses ts)
    (hi : i ≤ x.units.size) : ∀ t ∈ ts, Subtree.Every P t := by
  induction h with
  | done => simp
  | stray hu _ ih =>
      intro t ht
      obtain rfl | ht := List.mem_cons.1 ht
      · exact (hP.unit hu).1
      · exact ih (Array.getElem?_eq_some_iff.1 hu).1 t ht
  | constituent hf _ _ _ ih =>
      have hj := hf.le_size hi
      intro t ht
      obtain ht | ht := List.mem_append.1 ht
      · exact hP.image hx hf hj t ht
      · exact ih hj t ht

theorem IsRoot.every {P : Subtree → Prop} (hx : Ordered x.units) (hP : x.Carries P)
    {uses : List (Option Step)} {t : Subtree} (h : x.IsRoot uses t) : Subtree.Every P t := by
  cases h with
  | accepted hf =>
      have hrow := image_row hx hf le_rfl
      have himage := hP.image hx hf le_rfl
      unfold rootImage
      split
      · next t ht =>
          rw [shown] at ht
          split
          · exact ht ▸ hP.every_node (Nat.zero_le _) le_rfl hrow himage _ _
          · exact hP.every_setField (himage t (ht ▸ List.mem_singleton_self t)) none
      · exact hP.every_node (Nat.zero_le _) le_rfl hrow himage _ _
  | error h =>
      exact hP.every_node (Nat.zero_le _) le_rfl (h.row hx (Nat.zero_le _))
        (h.every hx hP (Nat.zero_le _)) _ _

end Derivation

end EarleyTree

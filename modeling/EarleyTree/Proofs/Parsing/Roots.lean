import EarleyTree.Proofs.Parsing.AcceptedTree

/-!
The root of a tree before extras and errors are put in: it shows a derivation of all units, or else
it is an error node over the longest constituents and single units between them.
-/
namespace EarleyTree

open Text Extract

/-- The steps by which the units are taken, from left to right. -/
def Forest.uses (t : Tables) : Forest → List Step → List Step
  | .nil, _ => []
  | .unit next, s :: ss => s :: uses t next ss
  | .expand p inner next, _ :: ss => uses t inner (t.steps p) ++ uses t next ss
  | _, [] => []

namespace Derivation

variable {x : Derivation} {k : Nat}

/-- A unit that is part of no constituent. -/
def strayImage (x : Derivation) : InputUnit → Subtree
  | .token t => .leaf Subtree.anonymous t.symbol t.symbol (x.lines.span t.start t.stop)
  | .reused t => t.skeleton.setField none

/-- What the units from a place on are shown as where they have no derivation together, and the steps
by which they are taken, if they are. -/
inductive Pieces (x : Derivation) : Nat → List (Option Step) → List Subtree → Prop
  | done {k : Nat} (h : x.units.size ≤ k) : Pieces x k [] []
  | stray {k : Nat} {u : InputUnit} {uses : List (Option Step)} {ts : List Subtree}
      (hu : x.units[k]? = some u) (h : Pieces x (k + 1) uses ts) :
      Pieces x k (none :: uses) (x.strayImage u :: ts)
  | constituent {k j : Nat} {f : Forest} {s : Symbol} {uses : List (Option Step)}
      {ts : List Subtree} (hf : f.Covers x.tables x.units [{ symbol := s }] k j)
      (hv : x.tables.isVisible s = true) (hs : x.tables.isTerminal s = false)
      (h : Pieces x j uses ts) :
      Pieces x k ((f.uses x.tables [{ symbol := s }]).map some ++ uses)
        (x.image f [{ symbol := s }] k ++ ts)

theorem unitLeaf_meets (u : InputUnit) :
    Meets (x.Remembers True) (x.unitLeaf u) fun t => t.skeleton = x.strayImage u := by
  cases u with
  | token t => exact .bind (freshIdent_meets lasting_remembers) fun _ _ => .pure rfl
  | reused t => exact .pure (Subtree.skeleton_setField none t)

/-- The first visible symbol in the order that goes from one place just to the other. -/
def visibleFrom (x : Derivation) (order : KeyOrder) (k j : Nat) : Option (Symbol × Nat) :=
  (order.arrange j ((x.setAt j).completedPairs x.tables)).find? fun (s, i) =>
    i == k && x.tables.isVisible s

theorem visibleFrom_eq_some {order : KeyOrder} {j i : Nat} {s : Symbol}
    (h : x.visibleFrom order k j = some (s, i)) :
    i = k ∧ x.tables.isVisible s = true ∧ x.Completes ⟨s, k, j⟩ := by
  have htest := List.find?_some h
  rw [Bool.and_eq_true, beq_iff_eq] at htest
  obtain ⟨rfl, hv⟩ := htest
  have hkey := (order.perm _ _).mem_iff.1 (List.mem_of_find?_eq_some h)
  exact ⟨rfl, hv, ItemSet.mem_completedPairs.1 hkey⟩

theorem visibleFrom_eq_none {order : KeyOrder} {j : Nat} : x.visibleFrom order k j = none ↔
    ∀ s, x.tables.isVisible s = true → ¬x.Completes ⟨s, k, j⟩ := by
  rw [visibleFrom, List.find?_eq_none]
  constructor
  · intro h s hv hc
    refine h (s, k) ((order.perm _ _).mem_iff.2 (ItemSet.mem_completedPairs.2 hc)) ?_
    rw [Bool.and_eq_true, beq_iff_eq]
    exact ⟨rfl, hv⟩
  · rintro h ⟨s, i⟩ hm htest
    rw [Bool.and_eq_true, beq_iff_eq] at htest
    obtain ⟨rfl, hv⟩ := htest
    exact h s hv (ItemSet.mem_completedPairs.1 ((order.perm _ _).mem_iff.1 hm))

theorem longestFrom_eq_some_iff {order : KeyOrder} {j : Nat} {s : Symbol} :
    x.longestFrom order k = some (j, s) ↔ k < j ∧ x.visibleFrom order k j = some (s, k) ∧
      ∀ j', j < j' → ∀ s', x.tables.isVisible s' = true → ¬x.Completes ⟨s', k, j'⟩ := by
  have hfind : x.longestFrom order k = (List.range x.sets.size).reverse.findSome? fun j =>
      if j ≤ k then none else (x.visibleFrom order k j).map fun e => (j, e.1) := rfl
  have hrange : (List.range x.sets.size).reverse.Pairwise (· > ·) :=
    List.pairwise_reverse.2 List.pairwise_lt_range
  rw [hfind, List.findSome?_eq_some_iff]
  constructor
  · rintro ⟨before, i, after, hsplit, hi, hbefore⟩
    split at hi
    · cases hi
    · next hlt =>
        obtain ⟨⟨s', i'⟩, hfrom, he⟩ := Option.map_eq_some_iff.1 hi
        cases he
        obtain rfl := (visibleFrom_eq_some hfrom).1
        refine ⟨Nat.not_le.1 hlt, hfrom, fun j' hj s' hv hc => ?_⟩
        have hmem := List.mem_reverse.2 (List.mem_range.2 hc.lt_size)
        rw [hsplit] at hmem hrange
        have hafter : ∀ a ∈ after, j > a :=
          (List.pairwise_cons.1 (List.pairwise_append.1 hrange).2.1).1
        obtain hm | hm := List.mem_append.1 hmem
        · have hnone := hbefore j' hm
          rw [if_neg (by omega), Option.map_eq_none_iff, visibleFrom_eq_none] at hnone
          exact hnone s' hv hc
        · obtain rfl | hm := List.mem_cons.1 hm
          · exact Nat.lt_irrefl _ hj
          · exact Nat.lt_asymm hj (hafter j' hm)
  · rintro ⟨hlt, hfrom, hmax⟩
    have hc := (visibleFrom_eq_some hfrom).2.2
    obtain ⟨before, after, hsplit⟩ :=
      List.append_of_mem (List.mem_reverse.2 (List.mem_range.2 hc.lt_size))
    refine ⟨before, j, after, hsplit, ?_, fun j' hm => ?_⟩
    · rw [if_neg (Nat.not_le.2 hlt), hfrom, Option.map_some]
    · rw [hsplit] at hrange
      have hj : j' > j := (List.pairwise_append.1 hrange).2.2 j' hm j List.mem_cons_self
      rw [if_neg (by omega), visibleFrom_eq_none.2 (hmax j' hj), Option.map_none]

theorem longestFrom_eq_some {order : KeyOrder} {j : Nat} {s : Symbol}
    (h : x.longestFrom order k = some (j, s)) :
    k < j ∧ x.tables.isVisible s = true ∧ x.Completes ⟨s, k, j⟩ := by
  obtain ⟨hlt, hfrom, -⟩ := longestFrom_eq_some_iff.1 h
  exact ⟨hlt, (visibleFrom_eq_some hfrom).2⟩

end Derivation

/-- The order in which one key comes first, wherever it is. -/
def KeyOrder.first (key : Symbol × Nat) : KeyOrder where
  arrange _ keys := if key ∈ keys then key :: keys.erase key else keys
  perm _ keys := by
    split
    · next h => exact (List.perm_cons_erase h).symm
    · exact .refl keys

namespace Derivation

variable {x : Derivation} {k : Nat}

/-- Each of the visible symbols that go farthest is taken in one order or another, and no other symbol
is taken in any. -/
theorem exists_longestFrom_iff {j : Nat} {s : Symbol} :
    (∃ order, x.longestFrom order k = some (j, s)) ↔
      k < j ∧ x.tables.isVisible s = true ∧ x.Completes ⟨s, k, j⟩ ∧
        ∀ j', j < j' → ∀ s', x.tables.isVisible s' = true → ¬x.Completes ⟨s', k, j'⟩ := by
  constructor
  · rintro ⟨order, h⟩
    obtain ⟨hlt, hv, hc⟩ := longestFrom_eq_some h
    exact ⟨hlt, hv, hc, (longestFrom_eq_some_iff.1 h).2.2⟩
  · rintro ⟨hlt, hv, hc, hmax⟩
    refine ⟨.first (s, k), longestFrom_eq_some_iff.2 ⟨hlt, ?_, hmax⟩⟩
    rw [visibleFrom, KeyOrder.first]
    dsimp only
    rw [if_pos (ItemSet.mem_completedPairs.2 hc), List.find?_cons_of_pos]
    rw [Bool.and_eq_true, beq_iff_eq]
    exact ⟨rfl, hv⟩

/-- A letter in a node that is over just the same text, and another one behind it. -/
def boxedLetter : Grammar :=
  ((({ name := "row" } : Grammar).define "row" (.seq [.ref "box", .literal "c"])).define "box"
    (.seq [.ref "letter"])).define "letter" (.seq [.literal "b"])

-- Where the second letter is missing, either of the two nodes may be what is kept.
example : ParseState.endsWith boxedLetter none ['b'] (fun l st =>
    ["box", "letter"].all fun name => (l.kindId? name true).any fun s =>
      (st.derivation (.fresh l ['b'] 0)).longestFrom (.first (s, 0)) 0 == some (1, s)) = true := by
  decide +kernel

theorem Completes.not_terminal (hx : x.Sound) {s : Stretch} (h : x.Completes s) :
    x.tables.isTerminal s.symbol = false := by
  obtain ⟨p, f, hp, hl, -⟩ := hx.exists_of_completes h
  exact hl ▸ hx.not_terminal hp

/-- The induction is on the number of units left, which the fuel bounds. -/
theorem fragments_meets (hx : x.Sound) (order : KeyOrder) (fuel k : Nat)
    (hfuel : x.units.size ≤ fuel + k) :
    Meets (x.Remembers True) (x.fragments order fuel k) fun ts =>
      ∃ uses, x.Pieces k uses (Subtree.skeletonAll ts) := by
  induction fuel generalizing k with
  | zero => exact .pure ⟨[], .done (by omega)⟩
  | succ fuel ih =>
      rw [fragments]
      split
      · next hu => exact .pure ⟨[], .done (Array.getElem?_eq_none_iff.1 hu)⟩
      · next u hu =>
          have hstray : Meets (x.Remembers True)
              (do return (← x.unitLeaf u) :: (← x.fragments order fuel (k + 1))) fun ts =>
                ∃ uses, x.Pieces k uses (Subtree.skeletonAll ts) := by
            refine .bind (unitLeaf_meets u) fun t ht => .bind (ih (k + 1) (by omega)) fun ts hts => ?_
            obtain ⟨uses, hts⟩ := hts
            refine .pure ⟨none :: uses, ?_⟩
            rw [Subtree.skeletonAll, ht]
            exact .stray hu hts
          cases hlong : x.longestFrom order k with
          | none => exact hstray
          | some r =>
              obtain ⟨j, s⟩ := r
              obtain ⟨hlt, hv, hc⟩ := longestFrom_eq_some hlong
              have hk := hc.not_terminal hx
              have hmat : Meets (x.Remembers True)
                  (x.materialize x.deriveStretch { symbol := s } k j)
                  (Finds True (x.Shows [{ symbol := s }] k j)) :=
                materialize_nonterminal hk
                  (deriveStretch_meets hx (.inl trivial) hc fun _ _ _ => trivial)
              refine .bind hmat fun r hr => ?_
              rcases r with - | - | ⟨t, ts⟩
              · exact hstray
              · exact hstray
              · obtain ⟨f, hf, himage⟩ := hr
                have hrest : Meets (x.Remembers True)
                    (do return (t :: ts) ++ (← x.fragments order fuel j)) fun ts =>
                      ∃ uses, x.Pieces k uses (Subtree.skeletonAll ts) := by
                  refine .bind (ih j (by omega)) fun us hus => ?_
                  obtain ⟨uses, hus⟩ := hus
                  have hpieces := Pieces.constituent hf hv hk hus
                  rw [← himage, ← Subtree.skeletonAll_append] at hpieces
                  exact .pure ⟨_, hpieces⟩
                exact hrest

/-- A root before extras and errors are put in, identities aside: over a derivation of all units, or
else over what can be recognised. -/
inductive IsRoot (x : Derivation) : List (Option Step) → Subtree → Prop
  | accepted {f : Forest} (hf : x.Parses f) :
      IsRoot x ((f.uses x.tables [{ symbol := x.startRule }]).map some) (x.rootImage (x.shown f))
  | error {uses : List (Option Step)} {ts : List Subtree} (h : x.Pieces 0 uses ts) :
      IsRoot x uses
        (.node Subtree.anonymous errorSymbol errorSymbol (x.span 0 x.units.size) ts)

theorem errorRoot_meets (hx : x.Sound) (order : KeyOrder) :
    Meets (x.Remembers True) (x.errorRoot order) fun t => ∃ uses, x.IsRoot uses t.skeleton := by
  refine .bind (fragments_meets hx order _ 0 (Nat.le_refl _)) fun ts hts => .pure ?_
  obtain ⟨uses, hts⟩ := hts
  refine ⟨uses, ?_⟩
  rw [Subtree.skeleton_node]
  exact .error hts

end Derivation

namespace ParseState

variable {p : ParseInput} {st : ParseState}

/-- The root that extras and errors are put into. -/
def root (p : ParseInput) (st : ParseState) (order : KeyOrder) : Subtree :=
  let (root, memory) := (st.acceptedRoot? p).getD (none, {})
  let d := st.derivation p
  root.getD ((((d.errorRoot order).run memory).map (·.1)).getD
    (.node d.rootIdent errorSymbol errorSymbol (d.span 0 0) []))

theorem Ends.tree_eq (ht : p.tables.WellFormed) (hr : ∀ t ∈ p.reusable, t.isExtra = false)
    (h : Ends p st) (order : KeyOrder) : st.tree p order = st.finish p (st.root p order) ∧
      ∃ uses, (st.derivation p).IsRoot uses (st.root p order).skeleton := by
  have hcons := h.consistent ht
  have hsound := hcons.derivation_sound ht hr
  have herror : ∀ m, (st.derivation p).Remembers True m → ∃ root m',
      ((st.derivation p).errorRoot order).run m = some (root, m') ∧
        ∃ uses, (st.derivation p).IsRoot uses root.skeleton := by
    intro m hm
    obtain ⟨root, m', hrun, -, hroot⟩ := Derivation.errorRoot_meets hsound order m hm
    exact ⟨root, m', hrun, hroot⟩
  have hnone : (st.derivation p).Remembers True {} := fun _ _ hm => absurd hm List.not_mem_nil
  simp only [tree, root]
  by_cases hacc : st.chart.accepts p.tables = true
  · obtain ⟨r, m, hrun, hm, hfind⟩ := Derivation.acceptedRoot_meets hsound (.inl trivial)
      (hcons.completes_start hacc) (fun _ _ _ => trivial) {} hnone
    have hroot : st.acceptedRoot? p = some (r, m) := (if_pos hacc).trans hrun
    rw [hroot, Option.getD_some]
    cases r with
    | some root =>
        obtain ⟨f, hf, hskel⟩ := hfind
        have hroot := Derivation.IsRoot.accepted hf
        rw [← hskel] at hroot
        exact ⟨rfl, _, hroot⟩
    | none =>
        obtain ⟨root, m', hrun', hroot'⟩ := herror m hm
        simp only [hrun', Option.map_some, Option.getD_some, Option.getD_none]
        exact ⟨trivial, hroot'⟩
  · have hroot : st.acceptedRoot? p = some (none, {}) := if_neg hacc
    obtain ⟨root, m', hrun', hroot'⟩ := herror {} hnone
    rw [hroot, Option.getD_some]
    simp only [hrun', Option.map_some, Option.getD_some, Option.getD_none]
    exact ⟨trivial, hroot'⟩

end ParseState

end EarleyTree

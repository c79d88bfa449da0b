import EarleyTree.Proofs.Parsing.Extraction
import EarleyTree.Proofs.Parsing.FreshChart

/-!
The tree of an accepted text: it is what a derivation tree of the text is shown as, and there is one
if no derivation comes back to its own stretch.
-/
namespace EarleyTree

namespace Derivation

variable {x : Derivation} {C : Prop} {step : Step} {i j : Nat}

theorem exists_single (hx : x.Sound) {f : Forest} (hf : f.Covers x.tables x.units [step] i j)
    (hv : x.isShown step = true) :
    ∃ t : Subtree, x.image f [step] i = [t] ∧ t.isExtra = false ∧ t.field = step.field := by
  obtain ⟨u, rfl, hu, -, -⟩ | ⟨p, g, rfl, -, -, hg⟩ := hf.of_singleton
  · rw [image_unit hu]
    cases u with
    | token t =>
        rw [unitImage, if_pos hv]
        exact ⟨_, rfl, rfl, rfl⟩
    | reused t =>
        refine ⟨_, rfl, ?_, rfl⟩
        have he := (hx.reused hu).2
        cases t
        exact he
  · rw [image_expand hg, nodeImage, if_pos hv]
    exact ⟨_, rfl, rfl, rfl⟩

theorem deriveStretch_meets (hx : x.Sound) (hC : C ∨ x.Exact) {s : Stretch} (hs : x.Completes s)
    (hcycle : ∀ c, Relation.ReflTransGen x.Child c s → Relation.TransGen x.Child c c → C) :
    Extract.Meets (x.Remembers C) (x.deriveStretch s) (Finds C (x.Parts s)) := by
  refine derive_meets hx hC hcycle _ [] s ⟨List.nodup_nil, ?_, ?_, .refl⟩ (Nat.le_add_right _ _)
  · exact fun a ha => List.mem_singleton.1 ha ▸ hs
  · exact fun a ha => absurd ha List.not_mem_nil

/-- The tree derives all units from the start rule. -/
def Parses (x : Derivation) (f : Forest) : Prop :=
  f.Covers x.tables x.units [{ symbol := x.startRule }] 0 x.units.size

def shown (x : Derivation) (f : Forest) : List Subtree := x.image f [{ symbol := x.startRule }] 0

def ShownAlike (x : Derivation) : Prop := ∀ f g, x.Parses f → x.Parses g → x.shown f = x.shown g

/-- No stretch on the way down from the whole input is part of itself, in any derivation. -/
def Acyclic (x : Derivation) : Prop :=
  ∀ s, Relation.ReflTransGen x.Child s ⟨x.tables.start, 0, x.units.size⟩ →
    ¬Relation.TransGen x.Child s s

/-- The root over what was derived from the start rule. -/
def rootOf (x : Derivation) : List Subtree → Subtree
  | [t] =>
    if t.isExtra then
      .node x.rootIdent x.startRule x.startRule (x.span 0 x.units.size) [t]
    else (t.setIdent x.rootIdent).setField none
  | entries => .node x.rootIdent x.startRule x.startRule (x.span 0 x.units.size) entries

def rootImage (x : Derivation) : List Subtree → Subtree
  | [t] =>
    if t.isExtra then
      .node Subtree.anonymous x.startRule x.startRule (x.span 0 x.units.size) [t]
    else t.setField none
  | trees => .node Subtree.anonymous x.startRule x.startRule (x.span 0 x.units.size) trees

theorem skeleton_rootOf (x : Derivation) (entries : List Subtree) :
    (x.rootOf entries).skeleton = x.rootImage (Subtree.skeletonAll entries) := by
  rcases entries with - | ⟨t, - | ⟨t', entries⟩⟩
  · exact Subtree.skeleton_node _ _ _ _ _
  · rw [rootOf, Subtree.skeletonAll, Subtree.skeletonAll, rootImage, Subtree.isExtra_skeleton]
    split
    · rw [Subtree.skeleton_node, Subtree.skeletonAll, Subtree.skeletonAll]
    · rw [Subtree.skeleton_setField, Subtree.skeleton_setIdent]
  · exact Subtree.skeleton_node _ _ _ _ _

/-- The root is over what the children of the start symbol are shown as. -/
theorem acceptedRoot_of_deriveStretch {I : Memory → Prop} {P : List Subtree → Prop}
    (hd : Extract.Meets I (x.deriveStretch ⟨x.tables.start, 0, x.units.size⟩)
      (Finds C fun ts => P (Subtree.skeletonAll ts))) :
    Extract.Meets I x.acceptedRoot (Finds C fun root =>
      ∃ trees, P trees ∧ root.skeleton = x.rootImage trees) := by
  rw [acceptedRoot]
  refine .bind hd fun r hr => ?_
  cases r with
  | none => exact .pure hr
  | some entries =>
      have hroot : Extract.Meets I (pure (some (x.rootOf entries))) (Finds C fun root =>
          ∃ trees, P trees ∧ root.skeleton = x.rootImage trees) :=
        .pure ⟨_, hr, skeleton_rootOf x entries⟩
      rcases entries with - | ⟨t, - | ⟨t', entries⟩⟩
      · exact hroot
      · rw [rootOf] at hroot
        dsimp only
        split
        · next he => rwa [if_pos he] at hroot
        · next he => rwa [if_neg he] at hroot
      · exact hroot

/-- The start symbol has one production, for the symbol that it stands for. -/
theorem Sound.steps_start (hx : x.Sound) {p : Nat} (hp : p < x.tables.productions.size)
    (hl : x.tables.lhs p = x.tables.start) : x.tables.steps p = [{ symbol := x.startRule }] := by
  obtain ⟨q, rule, hq, hsteps⟩ := hx.wellFormed.start
  obtain rfl : p = q := by
    have hm := hx.wellFormed.mem_productionsOf.2 ⟨hp, hl⟩
    rwa [hq, List.mem_singleton] at hm
  rw [hsteps, steps_startRule hq hsteps]

theorem acceptedRoot_meets (hx : x.Sound) (hC : C ∨ x.Exact)
    (hs : x.Completes ⟨x.tables.start, 0, x.units.size⟩)
    (hcycle : ∀ c, Relation.ReflTransGen x.Child c ⟨x.tables.start, 0, x.units.size⟩ →
      Relation.TransGen x.Child c c → C) :
    Extract.Meets (x.Remembers C) x.acceptedRoot (Finds C fun root =>
      ∃ f, x.Parses f ∧ root.skeleton = x.rootImage (x.shown f)) := by
  have hshown : Extract.Meets (x.Remembers C) (x.deriveStretch ⟨x.tables.start, 0, x.units.size⟩)
      (Finds C fun ts => ∃ f, x.Parses f ∧ Subtree.skeletonAll ts = x.shown f) := by
    refine (deriveStretch_meets hx hC hs hcycle).weaken fun r hr => ?_
    cases r with
    | none => exact hr
    | some entries =>
        obtain ⟨p, hp, hl, f, hf, himage⟩ := hr
        rw [hx.steps_start hp hl] at hf himage
        exact ⟨f, hf, himage⟩
  refine (acceptedRoot_of_deriveStretch (P := fun trees => ∃ f, x.Parses f ∧ trees = x.shown f)
    hshown).weaken fun r hr => ?_
  cases r with
  | none => exact hr
  | some root =>
      obtain ⟨_, ⟨f, hf, rfl⟩, hroot⟩ := hr
      exact ⟨f, hf, hroot⟩

theorem Parses.shown_eq {f : Forest} (hx : x.Sound) (hf : x.Parses f)
    (hv : x.tables.isVisible x.startRule = true) : x.shown f = [x.rootImage (x.shown f)] := by
  have hshown : x.isShown { symbol := x.startRule } = true := by
    rw [isShown, hv]
    rfl
  obtain ⟨t, ht, he, hfield⟩ := exists_single hx hf hshown
  rw [shown, ht, rootImage, he, if_neg Bool.false_ne_true, Subtree.setField_eq_self hfield]

end Derivation

namespace Tables

variable {t : Tables}

/-- The first symbol is a step of a production of the other one, all of whose other steps are
nullable. -/
def Narrows (t : Tables) (inner outer : Symbol) : Prop :=
  ∃ (p : Nat) (before : List Step) (step : Step) (after : List Step),
    p < t.productions.size ∧ t.lhs p = outer ∧ t.steps p = before ++ step :: after ∧
      step.symbol = inner ∧ ∀ s ∈ before ++ after, t.isNullable s.symbol = true

/-- No symbol derives itself. -/
def Noncyclic (t : Tables) : Prop := ∀ A, ¬Relation.TransGen t.Narrows A A

/-- Each step of a production has a lower rank than the left-hand side, or there is another step
that is not nullable. -/
def stepsDescend (t : Tables) (rank : Symbol → Nat) : Bool :=
  (List.range t.productions.size).all fun p =>
    (List.range (t.steps p).length).all fun i =>
      ((t.steps p)[i]?).all fun step =>
        decide (rank step.symbol < rank (t.lhs p)) ||
          ((t.steps p).eraseIdx i).any fun s => !t.isNullable s.symbol

theorem Narrows.lt {rank : Symbol → Nat} (h : t.stepsDescend rank = true) {A B : Symbol}
    (hn : t.Narrows A B) : rank A < rank B := by
  obtain ⟨p, before, step, after, hp, rfl, hs, rfl, hnull⟩ := hn
  have hi := List.all_eq_true.1 (List.all_eq_true.1 h p (List.mem_range.2 hp)) before.length
    (List.mem_range.2 (by simp [hs]))
  simp only [hs, List.getElem?_append_right (Nat.le_refl _), Nat.sub_self, List.getElem?_cons_zero,
    Option.all_some, Bool.or_eq_true, decide_eq_true_iff] at hi
  apply hi.resolve_right
  intro hany
  obtain ⟨s, hm, hs⟩ := List.any_eq_true.1 hany
  rw [List.eraseIdx_append_of_length_le (Nat.le_refl _), Nat.sub_self] at hm
  rw [hnull s hm] at hs
  cases hs

theorem noncyclic_of_stepsDescend {rank : Symbol → Nat} (h : t.stepsDescend rank = true) :
    t.Noncyclic := by
  have hlt : ∀ {A B}, Relation.TransGen t.Narrows A B → rank A < rank B := by
    intro A B hn
    induction hn with
    | single hn => exact hn.lt h
    | tail _ hn ih => exact ih.trans (hn.lt h)
  intro A hA
  exact Nat.lt_irrefl _ (hlt hA)

end Tables

namespace Derivation

variable {x : Derivation}

/-- Below a stretch come shorter ones, or the same units again for a symbol that it narrows to. -/
theorem Child.narrows (ht : x.tables.WellFormed) {c s : Stretch} (h : x.Child c s) :
    c.stop - c.start < s.stop - s.start ∨
      c.stop - c.start = s.stop - s.start ∧ x.tables.Narrows c.symbol s.symbol := by
  obtain ⟨p, before, step, after, f, g, h, hp, hl, hs, hsym, hf, hg, hh⟩ := h
  have hf' := hf.le
  have hg' := hg.le
  have hh' := hh.le
  by_cases hw : s.start = c.start ∧ c.stop = s.stop
  · obtain ⟨hstart, hstop⟩ := hw
    refine .inr ⟨by rw [hstart, hstop], p, before, step, after, hp, hl, hs, hsym, ?_⟩
    intro s' hm
    rcases List.mem_append.1 hm with hm | hm
    · exact ht.isNullable_of_vanishes (hf.vanishes hstart s' hm)
    · exact ht.isNullable_of_vanishes (hh.vanishes hstop s' hm)
  · exact .inl (by omega)

theorem transGen_child_narrows (ht : x.tables.WellFormed) {c s : Stretch}
    (h : Relation.TransGen x.Child c s) : c.stop - c.start < s.stop - s.start ∨
      c.stop - c.start = s.stop - s.start ∧ Relation.TransGen x.tables.Narrows c.symbol s.symbol := by
  induction h with
  | single h => exact (Child.narrows ht h).imp_right fun ⟨hw, hn⟩ => ⟨hw, .single hn⟩
  | tail _ h ih =>
      rcases Child.narrows ht h with hlt | ⟨heq, hn⟩
      · rcases ih with hlt' | ⟨heq', -⟩
        · exact .inl (hlt'.trans hlt)
        · exact .inl (heq' ▸ hlt)
      · rcases ih with hlt' | ⟨heq', hn'⟩
        · exact .inl (heq ▸ hlt')
        · exact .inr ⟨heq'.trans heq, hn'.tail hn⟩

/-- Where no symbol derives itself, no stretch is part of itself. -/
theorem not_transGen_child (ht : x.tables.WellFormed) (hn : x.tables.Noncyclic) (s : Stretch) :
    ¬Relation.TransGen x.Child s s := by
  intro h
  rcases transGen_child_narrows ht h with hlt | ⟨-, hA⟩
  · exact Nat.lt_irrefl _ hlt
  · exact hn s.symbol hA

theorem Acyclic.of_noncyclic (ht : x.tables.WellFormed) (hn : x.tables.Noncyclic) : x.Acyclic :=
  fun s _ => not_transGen_child ht hn s

end Derivation

namespace ParseState

variable {p : ParseInput} {st : ParseState}

theorem Consistent.item_sound (h : st.Consistent p) {k : Nat} {item : Item}
    (hi : item ∈ (st.derivation p).setAt k) : item.Sound p.tables st.units k := by
  refine h.sound.sound ?_ hi
  by_contra hgt
  have hsize : (st.derivation p).sets.size ≤ k := by
    show st.chart.sets.size ≤ k
    rw [Chart.sets, Array.size_push, h.sound.size]
    omega
  rw [Derivation.setAt, Array.getD_eq_getD_getElem?, Array.getElem?_eq_none hsize] at hi
  exact ItemSet.not_mem_empty hi

theorem Consistent.derivation_sound (ht : p.tables.WellFormed) (h : st.Consistent p)
    (hr : ∀ t ∈ p.reusable, t.isExtra = false) : (st.derivation p).Sound where
  wellFormed := ht
  sound := h.item_sound
  token hu := h.kinds _ (Array.mem_of_getElem? hu)
  reused hu := (h.kinds _ (Array.mem_of_getElem? hu)).imp_right (hr _)

theorem Consistent.completes_start (h : st.Consistent p) (ha : st.chart.accepts p.tables = true) :
    (st.derivation p).Completes ⟨p.tables.start, 0, st.units.size⟩ := by
  have hcur : (st.derivation p).setAt st.units.size = st.chart.current := by
    rw [← h.sound.size]
    exact st.chart.setAt_index
  rw [Derivation.Completes, hcur]
  exact ha

theorem Ends.derivation_exact (ht : p.tables.WellFormed) (hr : p.reusable = []) (h : Ends p st) :
    (st.derivation p).Exact := fun hs => (h.mem_iff ht hr hs.le_size).2 hs

theorem Ends.exists_parses (ht : p.tables.WellFormed) (hr : ∀ t ∈ p.reusable, t.isExtra = false)
    (h : Ends p st) {root : Subtree} {m : Memory} (ha : st.acceptedRoot? p = some (some root, m)) :
    ∃ f, (st.derivation p).Parses f ∧
      root.skeleton = (st.derivation p).rootImage ((st.derivation p).shown f) := by
  have hcons := h.consistent ht
  rw [acceptedRoot?] at ha
  split at ha
  · next hacc =>
      obtain ⟨r, m', hrun, -, hfind⟩ := Derivation.acceptedRoot_meets (C := True)
        (hcons.derivation_sound ht hr) (.inl trivial) (hcons.completes_start hacc)
        (fun _ _ _ => trivial) {} (fun _ _ hm => absurd hm List.not_mem_nil)
      cases hrun.symm.trans ha
      exact hfind
  · cases ha

/-- A tree that is read off the chart of a text is exactly what some derivation tree of the start
rule over the tokens is shown as. -/
theorem Ends.acceptedRoot_eq_shown {g : Grammar} {scanner : Option Scanner} {handle era : Nat}
    {l : Language} {text : List Char} {st : ParseState} {root : Subtree} {m : Memory}
    (hl : Language.compile g scanner handle = .ok l) (h : Ends (.fresh l text era) st)
    (hv : l.tables.isVisible (st.derivation (.fresh l text era)).startRule = true)
    (ha : st.acceptedRoot? (.fresh l text era) = some (some root, m)) :
    (∀ u ∈ st.units, ∃ token, u = .token token) ∧
      ∃ f, (st.derivation (.fresh l text era)).Parses f ∧
        [root.skeleton] = (st.derivation (.fresh l text era)).shown f := by
  have ht : (ParseInput.fresh l text era).tables.WellFormed := Language.compile_wellFormed hl
  have hcons := h.consistent ht
  have hr : ∀ t ∈ (ParseInput.fresh l text era).reusable, t.isExtra = false :=
    fun t hm => absurd hm List.not_mem_nil
  obtain ⟨f, hf, hroot⟩ := h.exists_parses ht hr ha
  refine ⟨fun u hu => ?_, f, hf, ?_⟩
  · have hkind := hcons.kinds u hu
    cases u with
    | token token => exact ⟨token, rfl⟩
    | reused t => exact absurd hkind.2 List.not_mem_nil
  · rw [hf.shown_eq (hcons.derivation_sound ht hr) hv, hroot]

theorem acceptedRoot_eq_shown_letterRow : ∃ l st root m, Language.compile letterRow none 0 = .ok l ∧
    Ends (.fresh l ['a', 'a'] 0) st ∧
    st.acceptedRoot? (.fresh l ['a', 'a'] 0) = some (some root, m) ∧ root.children.length = 2 ∧
    ∃ f, (st.derivation (.fresh l ['a', 'a'] 0)).Parses f ∧
      [root.skeleton] = (st.derivation (.fresh l ['a', 'a'] 0)).shown f := by
  obtain ⟨l, st, hl, h, htest⟩ := exists_of_endsWith
    (show endsWith letterRow none ['a', 'a'] (fun l st =>
        l.tables.isVisible (st.derivation (.fresh l ['a', 'a'] 0)).startRule &&
          (st.acceptedRoot? (.fresh l ['a', 'a'] 0)).any fun r =>
            r.1.any fun root => root.children.length == 2) = true by decide +kernel)
  obtain ⟨hv, htest⟩ := Bool.and_eq_true_iff.1 htest
  obtain ⟨⟨r, m⟩, ha, htest⟩ := (Option.any_eq_true _ _).1 htest
  obtain ⟨root, rfl, hlen⟩ := (Option.any_eq_true _ _).1 htest
  exact ⟨l, st, root, m, hl, h, ha, beq_iff_eq.1 hlen, (h.acceptedRoot_eq_shown hl hv ha).2⟩

/-- An accepted text has a tree that is read off its chart, if no stretch is part of itself in any
derivation. -/
theorem Ends.exists_acceptedRoot {g : Grammar} {scanner : Option Scanner} {handle era : Nat}
    {l : Language} {text : List Char} {st : ParseState}
    (hl : Language.compile g scanner handle = .ok l) (h : Ends (.fresh l text era) st)
    (ha : st.chart.accepts l.tables = true) (hc : (st.derivation (.fresh l text era)).Acyclic) :
    ∃ root m, st.acceptedRoot? (.fresh l text era) = some (some root, m) ∧
      ∀ order, l.parse text none era order = ⟨l, st.finish (.fresh l text era) root⟩ := by
  have ht : (ParseInput.fresh l text era).tables.WellFormed := Language.compile_wellFormed hl
  have hcons := h.consistent ht
  obtain ⟨r, m, hrun, -, hfind⟩ := Derivation.acceptedRoot_meets (C := False)
    (hcons.derivation_sound ht fun t hm => absurd hm List.not_mem_nil)
    (.inr (h.derivation_exact ht rfl)) (hcons.completes_start ha) hc {}
    (fun _ _ hm => absurd hm List.not_mem_nil)
  cases r with
  | none => exact hfind.elim
  | some root =>
      have hroot : st.acceptedRoot? (.fresh l text era) = some (some root, m) :=
        (if_pos ha).trans hrun
      refine ⟨root, m, hroot, fun order => ?_⟩
      rw [h.parse_none, tree, hroot]
      rfl

theorem exists_acceptedRoot_letterRow : ∃ l st root m, Language.compile letterRow none 0 = .ok l ∧
    Ends (.fresh l ['a', 'a'] 0) st ∧ st.units.size = 2 ∧
    st.acceptedRoot? (.fresh l ['a', 'a'] 0) = some (some root, m) ∧
    ∀ order, l.parse ['a', 'a'] none 0 order = ⟨l, st.finish (.fresh l ['a', 'a'] 0) root⟩ := by
  obtain ⟨l, st, hl, h, htest⟩ := exists_of_endsWith
    (show endsWith letterRow none ['a', 'a'] (fun l st => st.units.size == 2 &&
        st.chart.accepts l.tables &&
          l.tables.stepsDescend fun s =>
            if s = l.tables.start then 2 else if l.tables.isNonterminal s then 1 else 0) = true by
      decide +kernel)
  simp only [Bool.and_eq_true, beq_iff_eq] at htest
  obtain ⟨⟨hsize, ha⟩, hrank⟩ := htest
  obtain ⟨root, m, hroot, hparse⟩ :=
    h.exists_acceptedRoot hl ha
      (.of_noncyclic (Language.compile_wellFormed hl) (Tables.noncyclic_of_stepsDescend hrank))
  exact ⟨l, st, root, m, hl, h, hsize, hroot, hparse⟩

def missingLetters : Grammar :=
  (({ name := "letters" } : Grammar).define "letters" (.many (.ref "letter"))).define "letter"
    (.optional (.literal "b"))

/-- The search for a derivation first leaves nothing to the last letter, is led back to the stretch
that it began with, and gives up. -/
theorem no_acceptedRoot_missingLetters : ∃ l st m, Language.compile missingLetters none 0 = .ok l ∧
    Ends (.fresh l ['b', 'b'] 0) st ∧ st.chart.accepts l.tables = true ∧
    st.acceptedRoot? (.fresh l ['b', 'b'] 0) = some (none, m) ∧
    (l.parse ['b', 'b'] none 0).root.symbol = errorSymbol := by
  obtain ⟨l, st, hl, h, htest⟩ := exists_of_endsWith
    (show endsWith missingLetters none ['b', 'b'] (fun l st => st.chart.accepts l.tables &&
        (st.acceptedRoot? (.fresh l ['b', 'b'] 0)).any (fun r => r.1.isNone) &&
          (st.tree (.fresh l ['b', 'b'] 0) .entered).symbol == errorSymbol) = true by decide +kernel)
  simp only [Bool.and_eq_true, beq_iff_eq] at htest
  obtain ⟨⟨ha, hroot⟩, hsym⟩ := htest
  obtain ⟨⟨r, m⟩, hr, hnone⟩ := (Option.any_eq_true _ _).1 hroot
  obtain rfl := Option.isNone_iff_eq_none.1 hnone
  exact ⟨l, st, m, hl, h, ha, hr, (h.parse_none .entered).symm ▸ hsym⟩

end ParseState

end EarleyTree

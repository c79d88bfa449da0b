import EarleyTree.Proofs.Parsing.AcceptedTree
import EarleyTree.Proofs.Parsing.Positions
import EarleyTree.Proofs.Parsing.Refinement

/-!
Parsing with an old tree against parsing afresh. Taking subtrees over does no harm where each of them
is what the tokens and extras of its stretch make; nothing makes sure that it is.
-/
namespace EarleyTree

open Text

namespace Derivation

variable {x y : Derivation} {F : List Subtree} {place : Nat → Nat} {i j : Nat}

theorem setField_fill (field : Option FieldId) (gs : List Subtree) (t : Subtree) :
    Subtree.fill gs (t.setField field) = (Subtree.fill gs t).setField field := by
  cases t
  rw [Subtree.setField, Subtree.fill_mk, Subtree.fill_mk, Subtree.setField]

theorem Fills.rootImage {ts us : List Subtree} (h : x.Fills F i j ts us)
    (hclean : ∀ e ∈ x.inside F i j, e.hasError = false) :
    Subtree.fill (x.inside F i j) (y.rootImage ts) = y.rootImage us := by
  have hlen : us.length = ts.length := by
    have hmap := congrArg List.length (Subtree.map_hasError_fillAll hclean ts)
    rwa [h.filled, List.length_map, List.length_map] at hmap
  rcases ts with - | ⟨t, - | ⟨t', ts⟩⟩
  · obtain rfl := List.length_eq_zero_iff.1 hlen
    exact h.fill_node hclean _ _ _ _ none
  · have hmem : ∀ e ∈ x.inside F i j, t.encloses e = true := by
      intro e he
      simpa using h.encloses e he
    obtain rfl : us = [Subtree.fill (x.inside F i j) t] := by
      rw [← h.filled, Subtree.fillAll_singleton hmem]
    by_cases he : t.isExtra = true
    · have hnil : x.inside F i j = [] := by
        apply List.eq_nil_iff_forall_not_mem.2
        intro e hm
        have hcl := hmem e hm
        simp [Subtree.encloses, he] at hcl
      rw [hnil]
      rfl
    · have he' : (Subtree.fill (x.inside F i j) t).isExtra = false := by
        cases t
        rw [Subtree.fill_mk]
        exact Bool.eq_false_iff.2 he
      rw [Derivation.rootImage, Derivation.rootImage, if_neg he, he', if_neg Bool.false_ne_true,
        setField_fill]
  · rcases us with - | ⟨u, - | ⟨u', us⟩⟩
    · cases hlen
    · simp at hlen
    · exact h.fill_node hclean _ _ _ _ none

theorem Refines.startRule_eq (h : x.Refines y F place) : x.startRule = y.startRule := by
  rw [startRule, startRule, h.tables]

theorem Refines.rootImage_eq (h : x.Refines y F place) (ts : List Subtree) :
    x.rootImage ts = y.rootImage ts := by
  have hspan : x.span 0 x.units.size = y.span 0 y.units.size := by
    rw [h.span_eq (Nat.zero_le _) le_rfl, h.first, h.last]
  unfold Derivation.rootImage
  rw [h.startRule_eq, hspan]

theorem Refines.exists_parses (h : x.Refines y F place) (hlaid : Laid y.units F)
    (hclean : ∀ (i : Nat) (t : Subtree), x.units[i]? = some (.reused t) → t.hasError = false)
    (ht : y.tables.WellFormed) {f : Forest} (hf : x.Parses f) :
    ∃ g, y.Parses g ∧ x.Fills F 0 x.units.size (y.shown g) (x.shown f) := by
  obtain ⟨q, rule, hq, hs⟩ := ht.start
  have hstart : q < y.tables.productions.size :=
    (ht.mem_productionsOf.1 (hq ▸ List.mem_singleton_self q)).1
  obtain ⟨g, hg, hfills⟩ := h.exists_image hlaid hclean hf le_rfl fun s hm => by
    rw [h.startRule_eq, steps_startRule hq hs] at hm
    exact ⟨q, hstart, hs ▸ hm⟩
  rw [h.first, h.last, h.startRule_eq] at hg
  rw [h.first] at hfills
  refine ⟨g, hg, ?_⟩
  rw [shown, ← h.startRule_eq]
  exact hfills

/-- What floats within a subtree taken over has nothing to do with what floats outside of all. -/
theorem Refines.apart (h : x.Refines y F place) (hlaid : Laid y.units F) {e e' : Subtree}
    (he : e ∈ F) (he' : e' ∈ F) (hin : x.isWithin 0 x.units.size e = true)
    (hout : x.isWithin 0 x.units.size e' = false) : Subtree.Apart e e' := by
  obtain ⟨k, t, -, hk, hu, ht⟩ := isWithin_iff.1 hin
  have hnot : ¬t.surrounds e' = true := by
    intro ht'
    rw [isWithin_iff.2 ⟨k, t, Nat.zero_le _, hk, hu, ht'⟩] at hout
    cases hout
  obtain ⟨-, first, last, hfirst, hlast, hstart, hstop⟩ := h.ends hu
  have hstart : first.start = t.start := hstart
  have hstop : last.stop = t.stop := hstop
  have hf := hlaid.unit first (Array.mem_of_getElem? hfirst)
  have hl := hlaid.unit last (Array.mem_of_getElem? hlast)
  obtain ⟨hpos, -⟩ := hlaid.floating e he
  obtain ⟨hpos', hdisj⟩ := hlaid.floating e' he'
  have h1 := hdisj first (Array.mem_of_getElem? hfirst)
  have h2 := hdisj last (Array.mem_of_getElem? hlast)
  simp only [Subtree.surrounds, Bool.and_eq_true, decide_eq_true_iff] at ht hnot
  have hsep : e'.stop < e.start ∨ e.stop < e'.start := by omega
  have hl : e.surrounds e' = false := by
    simp only [Subtree.surrounds, Bool.and_eq_false_iff, decide_eq_false_iff_not]
    omega
  have hr : e'.surrounds e = false := by
    simp only [Subtree.surrounds, Bool.and_eq_false_iff, decide_eq_false_iff_not]
    omega
  constructor
  · rw [Subtree.encloses_eq, hl, Bool.and_false]
  · rw [Subtree.encloses_eq, hr, Bool.and_false]
  · omega

end Derivation

namespace Subtree

mutual

theorem isReusable_of_mem_reusable {t : Tables} {s : Subtree} :
    ∀ u : Subtree, s ∈ u.reusable t → s.isReusable t = true
  | ⟨data, children⟩, h => by
      rw [reusable] at h
      split at h
      · next hr => exact List.mem_singleton.1 h ▸ hr
      · exact isReusable_of_mem_reusableAll children h

theorem isReusable_of_mem_reusableAll {t : Tables} {s : Subtree} :
    ∀ us : List Subtree, s ∈ reusableAll t us → s.isReusable t = true
  | [], h => absurd h List.not_mem_nil
  | u :: us, h => by
      rw [reusableAll] at h
      obtain h | h := List.mem_append.1 h
      · exact isReusable_of_mem_reusable u h
      · exact isReusable_of_mem_reusableAll us h

end

end Subtree

def ParseInput.withOld (l : Language) (text : List Char) (old : Tree) (era : Nat) : ParseInput :=
  ⟨l, text, if old.language.handle = l.handle then old.root.reusable l.tables else [], era⟩

theorem ParseInput.accepted?_eq_some {p : ParseInput} {t : Subtree} (h : p.accepted? = some t) :
    ∃ st root m, ParseState.Ends p st ∧ st.acceptedRoot? p = some (some root, m) ∧
      t = st.finish p root := by
  obtain ⟨st, hst, h⟩ := Option.bind_eq_some_iff.1 h
  obtain ⟨⟨r, m⟩, hr, h⟩ := Option.bind_eq_some_iff.1 h
  obtain ⟨root, rfl, rfl⟩ := Option.map_eq_some_iff.1 h
  exact ⟨st, root, m, ParseState.final?_eq_some.1 hst, hr, rfl⟩

namespace ParseState

variable {p : ParseInput} {st : ParseState} {n : Nat}

theorem skeleton_insertAll (era : Nat) (gs : List Subtree) (t : Subtree) (n : Nat) :
    ((gs.zipIdx n).foldl (fun root (g, n) => Subtree.insertFloating g era [n, 2] root) t).skeleton =
      Subtree.fill (gs.map Subtree.skeleton) t.skeleton := by
  induction gs generalizing t n with
  | nil => rfl
  | cons g gs ih =>
      rw [List.zipIdx_cons, List.foldl_cons, ih, Subtree.skeleton_insertFloating]
      rfl

def floats (st : ParseState) : List Subtree := st.floating.toList.map Subtree.skeleton

theorem skeleton_finish (p : ParseInput) (st : ParseState) (root : Subtree) :
    (st.finish p root).skeleton = (Subtree.fill st.floats root.skeleton).coverChildren := by
  rw [finish, Subtree.skeleton_coverChildren, skeleton_insertAll]
  rfl

/-- The units of one parse stand for stretches of the units of another, and outside of those the same
extras and errors were found. -/
def Refines (st : ParseState) (p q : ParseInput) (st' : ParseState) : Prop :=
  ∃ place, (st.derivation p).Refines (st'.derivation q) st'.floats place ∧
    st.floats = st'.floats.filter fun e => !(st.derivation p).isWithin 0 st.units.size e

theorem accepts_of_acceptedRoot? {root : Subtree} {m : Memory}
    (h : st.acceptedRoot? p = some (some root, m)) : st.chart.accepts p.tables = true := by
  rw [acceptedRoot?] at h
  split at h
  · assumption
  · cases h

theorem Ends.accepts_of_parses (ht : p.tables.WellFormed) (hr : p.reusable = []) (h : Ends p st)
    {f : Forest} (hf : (st.derivation p).Parses f) : st.chart.accepts p.tables = true := by
  obtain ⟨q, rule, hq, hs⟩ := ht.start
  rw [Derivation.Parses, Derivation.steps_startRule (x := st.derivation p) hq hs] at hf
  exact (Chart.accepts_iff ht (h.consistent ht).sound.size (fun item => h.mem_iff ht hr le_rfl) hq
    hs).2 ⟨f, hf⟩

end ParseState

namespace Language

open ParseState

variable {l : Language} {text : List Char} {old : Tree} {era : Nat}

theorem mem_of_mem_withOld {t : Subtree} (h : t ∈ (ParseInput.withOld l text old era).reusable) :
    t ∈ old.root.reusable l.tables := by
  rw [ParseInput.withOld] at h
  dsimp only at h
  split at h
  · exact h
  · exact absurd h List.not_mem_nil

theorem handle_of_mem_withOld {t : Subtree}
    (h : t ∈ (ParseInput.withOld l text old era).reusable) : old.language.handle = l.handle := by
  by_contra hne
  rw [ParseInput.withOld, if_neg hne] at h
  exact List.not_mem_nil h

theorem isReusable_of_mem_withOld {t : Subtree}
    (h : t ∈ (ParseInput.withOld l text old era).reusable) :
    t.isExtra = false ∧ t.hasError = false := by
  have ht := Subtree.isReusable_of_mem_reusable _ (mem_of_mem_withOld h)
  simp only [Subtree.isReusable, Bool.and_eq_true, Bool.not_eq_true'] at ht
  exact ⟨ht.1.1.2, ht.1.1.1.2⟩

theorem parse_some (l : Language) (text : List Char) (old : Tree) (era : Nat) (order : KeyOrder) :
    l.parse text (some old) era order =
      if (ParseInput.withOld l text old era).reusable.isEmpty then l.parse text none era order
      else ⟨l, (ParseInput.withOld l text old era).accepted?.getD (l.parse text none era order).root⟩ :=
  rfl

theorem language_parse (l : Language) (text : List Char) (old : Option Tree) (era : Nat)
    (order : KeyOrder) : (l.parse text old era order).language = l := by
  cases old with
  | none => rfl
  | some o =>
      rw [parse_some]
      split <;> rfl

/-- With an old tree, the parse gives the tree that it finds, or else the fresh one. -/
theorem parse_withOld (l : Language) (text : List Char) (old : Tree) (era : Nat) (order : KeyOrder) :
    l.parse text (some old) era order = l.parse text none era order ∨
      ∃ st root m, Ends (.withOld l text old era) st ∧
        st.acceptedRoot? (.withOld l text old era) = some (some root, m) ∧
        l.parse text (some old) era order = ⟨l, st.finish (.withOld l text old era) root⟩ := by
  rw [parse_some]
  split
  · exact .inl rfl
  · cases hacc : (ParseInput.withOld l text old era).accepted? with
    | none => exact .inl rfl
    | some tree =>
        obtain ⟨st, root, m, hst, hr, rfl⟩ := ParseInput.accepted?_eq_some hacc
        exact .inr ⟨st, root, m, hst, hr, rfl⟩

end Language

open ParseState

section

variable {g : Grammar} {scanner : Option Scanner} {handle era : Nat} {l : Language}
  {text : List Char} {old : Tree} {st st' : ParseState} {root' : Subtree} {m' : Memory}
  (hl : Language.compile g scanner handle = .ok l) (hforward : ∀ s, l.scanner = some s → s.Forward)
  (hst : Ends (.fresh l text era) st) (hc : (st.derivation (.fresh l text era)).Acyclic)
  (halike : (st.derivation (.fresh l text era)).ShownAlike)

include hl hforward hst hc halike

theorem ParseState.Ends.skeleton_finish_withOld (hst' : Ends (.withOld l text old era) st')
    (hroot' : st'.acceptedRoot? (.withOld l text old era) = some (some root', m'))
    (hrefines : st'.Refines (.withOld l text old era) (.fresh l text era) st) (order : KeyOrder) :
    (st'.finish (.withOld l text old era) root').skeleton =
      (l.parse text none era order).root.skeleton := by
  have ht : (ParseInput.fresh l text era).tables.WellFormed := Language.compile_wellFormed hl
  have ht' : (ParseInput.withOld l text old era).tables.WellFormed := ht
  obtain ⟨place, hplace, hfloats⟩ := hrefines
  obtain ⟨n, hplaced⟩ := Ends.placed (p := .fresh l text era) hforward rfl hst
  have hlaid := hplaced.toLaid.map_skeleton
  have hclean : ∀ (i : Nat) (t : Subtree), st'.units[i]? = some (.reused t) →
      t.hasError = false := fun i t hu =>
    (Language.isReusable_of_mem_withOld
      ((hst'.consistent ht').kinds _ (Array.mem_of_getElem? hu)).2).2
  obtain ⟨f', hf', hskel'⟩ :=
    hst'.exists_parses ht' (fun t hm => (Language.isReusable_of_mem_withOld hm).1) hroot'
  obtain ⟨f, hf, hfills⟩ := hplace.exists_parses hlaid hclean ht hf'
  have hacc : st.chart.accepts (ParseInput.fresh l text era).tables = true :=
    hst.accepts_of_parses ht rfl hf
  obtain ⟨root, m, hroot, hparse⟩ := hst.exists_acceptedRoot hl hacc hc
  obtain ⟨f₀, hf₀, hskel⟩ := hst.exists_parses ht (fun t hm => absurd hm List.not_mem_nil) hroot
  have hroots : Subtree.fill ((st'.derivation (.withOld l text old era)).inside st.floats 0
      st'.units.size) root.skeleton = root'.skeleton := by
    rw [hskel, halike f₀ f hf₀ hf, hskel', hplace.rootImage_eq]
    exact hfills.rootImage fun e he => hplace.hasError_of_mem_inside hclean he
  rw [hparse, skeleton_finish, skeleton_finish, hfloats, ← hroots]
  rw [Subtree.fill_partition ((st'.derivation (.withOld l text old era)).isWithin 0 st'.units.size)
    (fun e he e' he' hin hout => hplace.apart hlaid he he' hin hout) root.skeleton]
  rfl

/-- A parse with an old tree shows the same as one without, if it comes to its end, if the tokens have
derivations that are all shown alike, none of them cyclic, and if each subtree that was taken over on
the way to a tree is what the tokens and the extras of its stretch make. Where the tokens have a
derivation it makes no difference in which order either of the two goes through its keys. -/
theorem Language.skeleton_parse_withOld (hst' : Ends (.withOld l text old era) st')
    (hrefines : st'.chart.accepts l.tables = true →
      st'.Refines (.withOld l text old era) (.fresh l text era) st) :
    (∀ order, (l.parse text (some old) era order).root.skeleton =
      (l.parse text none era order).root.skeleton) ∧
    (st.chart.accepts l.tables = true → ∀ order order',
      (l.parse text (some old) era order).root.skeleton =
        (l.parse text none era order').root.skeleton) := by
  have hsame : ∀ order, (l.parse text (some old) era order).root.skeleton =
      (l.parse text none era order).root.skeleton := by
    intro order
    obtain heq | ⟨st₁, root', m', hst₁, hroot', heq⟩ := Language.parse_withOld l text old era order
    · rw [heq]
    · obtain rfl := hst'.unique hst₁
      have hacc' : st'.chart.accepts (ParseInput.withOld l text old era).tables = true :=
        accepts_of_acceptedRoot? hroot'
      rw [heq]
      exact hst.skeleton_finish_withOld hl hforward hc halike hst' hroot' (hrefines hacc') order
  refine ⟨hsame, fun hacc order order' => ?_⟩
  obtain ⟨root, m, -, hparse⟩ := hst.exists_acceptedRoot hl hacc hc
  rw [hsame, hparse, hparse]

end

theorem ParseState.Ends.shownAlike {p : ParseInput} {st : ParseState} (ht : p.tables.WellFormed)
    (hr : p.reusable = []) (h : Ends p st)
    (hn : ((List.range p.tables.productions.size).map p.tables.lhs).Nodup) :
    (st.derivation p).ShownAlike := by
  have hone := List.inj_on_of_nodup_map hn
  intro f g hf hg
  have hunique := Forest.Covers.unique
    (fun q q' hq hq' => hone (List.mem_range.2 hq) (List.mem_range.2 hq')) ?_ hf hg
  · rw [hunique.1]
  · intro i u q hu hq heq
    have hkind := (h.consistent ht).kinds u (Array.mem_of_getElem? hu)
    cases u with
    | token t =>
        have hterm : p.tables.isTerminal (p.tables.lhs q) = true := heq ▸ hkind
        rw [Tables.not_isTerminal (ht.isNonterminal_lhs hq)] at hterm
        cases hterm
    | reused t => exact absurd (hr ▸ hkind.2) List.not_mem_nil

namespace Language

/-- The tree of a text, if each run on the way to it ends within so many steps. -/
def parseFor (l : Language) (n : Nat) (text : List Char) (old : Option Tree) (era : Nat)
    (order : KeyOrder := .entered) : Option Tree :=
  let fresh := ((initial (.fresh l text era)).runFor (.fresh l text era) n).map fun st =>
    ⟨l, st.tree (.fresh l text era) order⟩
  match old with
  | none => fresh
  | some o =>
    if (ParseInput.withOld l text o era).reusable.isEmpty then fresh
    else ((initial (.withOld l text o era)).runFor (.withOld l text o era) n).bind fun st =>
      match st.accepted? (.withOld l text o era) with
      | some root => some ⟨l, root⟩
      | none => fresh

theorem parse_of_parseFor {l : Language} {n : Nat} {text : List Char} {old : Option Tree} {era : Nat}
    {order : KeyOrder} {t : Tree} (h : l.parseFor n text old era order = some t) :
    l.parse text old era order = t := by
  have hfresh : ∀ t, ((initial (.fresh l text era)).runFor (.fresh l text era) n).map (fun st =>
      (⟨l, st.tree (.fresh l text era) order⟩ : Tree)) = some t → l.parse text none era order = t := by
    intro t h
    obtain ⟨st, hst, rfl⟩ := Option.map_eq_some_iff.1 h
    exact (ends_of_runFor hst).parse_none order
  cases old with
  | none => exact hfresh t h
  | some o =>
      rw [parseFor] at h
      rw [parse_some]
      split at h
      · next hempty => rw [if_pos hempty, hfresh t h]
      · next hne =>
          obtain ⟨st, hst, h⟩ := Option.bind_eq_some_iff.1 h
          have hacc : (ParseInput.withOld l text o era).accepted? =
              st.accepted? (.withOld l text o era) := by
            rw [ParseInput.accepted?, final?_eq_some.2 (ends_of_runFor hst), Option.bind_some]
          rw [if_neg hne, hacc]
          split at h
          · next root hroot =>
              rw [hroot]
              exact Option.some.inj h
          · next hnone =>
              rw [hnone, Option.getD_none, hfresh t h]
              rw [← hfresh t h]
              rfl

theorem parse_of_any {l : Language} {n : Nat} {text : List Char} {old : Option Tree} {era : Nat}
    {order : KeyOrder} {test : Tree → Bool} (h : (l.parseFor n text old era order).any test = true) :
    test (l.parse text old era order) = true := by
  obtain ⟨t, ht, h⟩ := (Option.any_eq_true _ _).1 h
  rw [parse_of_parseFor ht, h]

/-- A grammar compiles, and a test succeeds on the tree of a text. -/
def parsedWith (g : Grammar) (scanner : Option Scanner) (text : List Char)
    (test : Language → Tree → Bool) : Bool :=
  match Language.compile g scanner 0 with
  | .error _ => false
  | .ok l => (l.parseFor 32 text none 0).any (test l)

theorem exists_of_parsedWith {g : Grammar} {scanner : Option Scanner} {text : List Char}
    {test : Language → Tree → Bool} (h : parsedWith g scanner text test = true) :
    ∃ l, Language.compile g scanner 0 = .ok l ∧ test l (l.parse text none 0) = true := by
  rw [parsedWith] at h
  split at h
  · cases h
  · next l hl => exact ⟨l, hl, parse_of_any h⟩

/-- A grammar compiles, and a test succeeds on an edit of a text, the tree of the text before, and the
tree that is parsed behind the edit with the old one. -/
def editedWith (g : Grammar) (scanner : Option Scanner) (text : List Char) (start oldEnd : Nat)
    (inserted after : List Char) (test : Language → Edit → Tree → Tree → Bool) : Bool :=
  match Language.compile g scanner 0, Edit.replace? text start oldEnd inserted with
  | .ok l, some e => (l.parseFor 32 text none 0).any fun first =>
      (l.parseFor 32 after (some (first.edit e 1)) 2).any (test l e first)
  | _, _ => false

theorem exists_of_editedWith {g : Grammar} {scanner : Option Scanner} {text : List Char}
    {start oldEnd : Nat} {inserted after : List Char} {test : Language → Edit → Tree → Tree → Bool}
    (h : editedWith g scanner text start oldEnd inserted after test = true) :
    ∃ l e, Language.compile g scanner 0 = .ok l ∧ Edit.replace? text start oldEnd inserted = some e ∧
      test l e (l.parse text none 0)
        (l.parse after (some ((l.parse text none 0).edit e 1)) 2) = true := by
  rw [editedWith] at h
  split at h
  · next l e hl he => exact ⟨l, e, hl, he, parse_of_any (parse_of_any h)⟩
  · cases h

/-- Two letters in a node of their own, then a third one. There may be marks between them. -/
def pairs : Grammar :=
  ((({ name := "pairs", extras := some [.regex " ", .ref "mark"] } : Grammar).define "pairs"
      (.seq [.ref "pair", .literal "c"])).define "pair" (.seq [.literal "a", .literal "b"])).define
    "mark" (.regex "#")

/-- The same with nested comments, which a scanner finds. -/
def commentedPairs : Grammar :=
  { pairs with
    extras := some [.regex " ", .ref "mark", .ref "comment"]
    externals := some [.ref "comment"] }

theorem skeleton_parse_commentedPairs : ∃ l e st,
    Language.compile commentedPairs (some Candid.BlockComment.scanner) 0 = .ok l ∧
    Edit.replace? "a#b/**/c".toList 7 7 [' '] = some e ∧
    Ends (.fresh l "a#b/**/ c".toList 2) st ∧ st.floating.size = 2 ∧
    st.chart.accepts l.tables = true ∧ ∀ order order',
      (l.parse "a#b/**/ c".toList (some ((l.parse "a#b/**/c".toList none 0).edit e 1)) 2
        order).root.skeleton = (l.parse "a#b/**/ c".toList none 2 order').root.skeleton := by
  obtain ⟨l, e, hl, he, htest⟩ := exists_of_editedWith
    (show editedWith commentedPairs (some Candid.BlockComment.scanner) "a#b/**/c".toList 7 7 [' ']
        "a#b/**/ c".toList (fun l e first _ =>
          let p := ParseInput.fresh l "a#b/**/ c".toList 2
          let q := ParseInput.withOld l "a#b/**/ c".toList (first.edit e 1) 2
          l.tables.stepsDescend (fun s => if s = l.tables.start then 8 else 7 - s) &&
            decide ((List.range l.tables.productions.size).map l.tables.lhs).Nodup &&
            ((initial p).runFor p 32).any fun st => st.floating.size == 2 &&
              st.chart.accepts l.tables &&
              ((initial q).runFor q 32).any fun st' =>
                decide ((fun i => if i = 0 then 0 else i + 1) st'.units.size = st.units.size) &&
                decide (st'.floats = st.floats.filter fun e =>
                  !(st'.derivation q).isWithin 0 st'.units.size e) &&
                (st'.derivation q).refinesAt (st.derivation p) st.floats
                  (fun i => if i = 0 then 0 else i + 1) fun _ => (1, .unit (.unit .nil))) = true by
      decide +kernel)
  dsimp only at htest
  rw [Bool.and_eq_true, Bool.and_eq_true, decide_eq_true_iff] at htest
  obtain ⟨⟨hrank, hnodup⟩, htest⟩ := htest
  obtain ⟨st, hst, htest⟩ := (Option.any_eq_true _ _).1 htest
  rw [Bool.and_eq_true, Bool.and_eq_true, beq_iff_eq] at htest
  obtain ⟨⟨hsize, hacc⟩, htest⟩ := htest
  obtain ⟨st', hst', htest⟩ := (Option.any_eq_true _ _).1 htest
  rw [Bool.and_eq_true, Bool.and_eq_true, decide_eq_true_iff, decide_eq_true_iff] at htest
  obtain ⟨⟨hlast, hfloats⟩, hrefines⟩ := htest
  have ht : (ParseInput.fresh l "a#b/**/ c".toList 2).tables.WellFormed :=
    Language.compile_wellFormed hl
  have hends := ends_of_runFor hst
  refine ⟨l, e, st, hl, he, hends, hsize, hacc, (skeleton_parse_withOld hl ?_ hends
    (.of_noncyclic ht (Tables.noncyclic_of_stepsDescend hrank)) (hends.shownAlike ht rfl hnodup)
    (ends_of_runFor hst') ?_).2 hacc⟩
  · rw [scanner_of_compile hl]
    rintro _ ⟨⟩
    exact Candid.BlockComment.scanner_forward
  · exact fun _ => ⟨_, .of_refinesAt rfl rfl rfl hlast hrefines, hfloats⟩

/-- What follows may belong to the first token, but only more of it than one letter. -/
def lookingAhead : Grammar :=
  ((({ name := "letters" } : Grammar).define "letters"
      (.seq [.ref "first", .oneOf [.literal "bd", .literal "bc"]])).define "first"
    (.seq [.ref "token"])).define "token" (.regex "a(bc)?")

/-- The node of the first token is taken over, though its token would now be read to the end. -/
theorem skeleton_parse_lookingAhead : ∃ l e, Language.compile lookingAhead none 0 = .ok l ∧
    Edit.replace? ['a', 'b', 'd'] 2 3 ['c'] = some e ∧
    splice ['a', 'b', 'd'] 2 3 ['c'] = ['a', 'b', 'c'] ∧
    (l.parse ['a', 'b', 'c'] (some ((l.parse ['a', 'b', 'd'] none 0).edit e 1)) 2).root.skeleton ≠
      (l.parse ['a', 'b', 'c'] none 2).root.skeleton := by
  obtain ⟨l, e, hl, he, htest⟩ := exists_of_editedWith
    (show editedWith lookingAhead none ['a', 'b', 'd'] 2 3 ['c'] ['a', 'b', 'c'] (fun l _ _ new =>
        !new.root.hasError && (l.parseFor 32 ['a', 'b', 'c'] none 2).any (·.root.hasError)) = true by
      decide +kernel)
  rw [Bool.and_eq_true, Bool.not_eq_true'] at htest
  refine ⟨l, e, hl, he, by decide, ?_⟩
  intro h
  have herror := congrArg Subtree.hasError h
  rw [Subtree.hasError_skeleton, Subtree.hasError_skeleton, htest.1, parse_of_any htest.2] at herror
  cases herror

end Language

end EarleyTree

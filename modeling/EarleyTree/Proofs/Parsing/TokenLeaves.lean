import EarleyTree.Proofs.Parsing.Roots
import EarleyTree.Proofs.Parsing.Trace
import EarleyTree.Proofs.Tree.Insertion
import EarleyTree.Proofs.Tree.Tips

/-!
Where the leaves of a tree come from: each token that was read is a leaf of its own, if it is shown at
all, and there are no others but nodes over nothing that is shown.
-/
namespace EarleyTree

open Text Subtree

namespace Derivation

variable {x : Derivation} {i j : Nat} {f : Forest} {ss : List Step} {uses : List (Option Step)}
  {b : Bool}

/-- The leaf of a token that is taken by a step, or by none. -/
def tokenLeaf (x : Derivation) (use : Option Step) (t : Token) : List Subtree :=
  match use with
  | none => [.leaf anonymous t.symbol t.symbol (x.lines.span t.start t.stop)]
  | some s =>
    if x.tables.isVisible t.symbol || s.newKind.isSome then
      [.leaf anonymous t.symbol (s.newKind.getD t.symbol) (x.lines.span t.start t.stop)]
    else []

def unitLeaf? (x : Derivation) (use : Option Step) : InputUnit → List Subtree
  | .token t => x.tokenLeaf use t
  | .reused _ => []

/-- The leaves of the units from a place on, each with what takes it. -/
def leavesFrom (x : Derivation) : Nat → List (Option Step) → List Subtree
  | _, [] => []
  | i, use :: uses => ((x.units[i]?).map (x.unitLeaf? use)).getD [] ++ x.leavesFrom (i + 1) uses

theorem leavesFrom_append (i : Nat) (us vs : List (Option Step)) :
    x.leavesFrom i (us ++ vs) = x.leavesFrom i us ++ x.leavesFrom (i + us.length) vs := by
  induction us generalizing i with
  | nil => rfl
  | cons u us ih =>
      rw [List.cons_append, leavesFrom, leavesFrom, ih, List.append_assoc, List.length_cons,
        Nat.add_assoc, Nat.add_comm 1]

theorem leavesFrom_eq_zip {tokens : List Token} (n : Nat)
    (hu : x.units.toList.drop n = tokens.map .token) (uses : List (Option Step)) :
    x.leavesFrom n uses = (tokens.zip uses).flatMap fun (t, use) => x.tokenLeaf use t := by
  induction uses generalizing n tokens with
  | nil => simp [leavesFrom]
  | cons use uses ih =>
      have hdrop := congrArg (List.drop 1) hu
      rw [List.drop_drop] at hdrop
      cases tokens with
      | nil =>
          have hnone : x.units[n]? = none := by
            rw [← Array.getElem?_toList, List.getElem?_eq_none (List.drop_eq_nil_iff.1 hu)]
          have hrest := ih (n + 1) (show _ = ([] : List Token).map InputUnit.token from hdrop)
          rw [leavesFrom, hnone, hrest]
          rfl
      | cons t tokens =>
          have hsome : x.units[n]? = some (.token t) := by
            have h := congrArg List.head? hu
            rw [List.head?_drop, Array.getElem?_toList] at h
            exact h
          rw [leavesFrom, hsome, ih (n + 1) hdrop]
          rfl

theorem length_uses (hf : f.Covers x.tables x.units ss i j) :
    i + (f.uses x.tables ss).length = j := by
  induction hf with
  | nil i => rfl
  | unit hu hs hf ih =>
      rw [Forest.uses, List.length_cons]
      omega
  | expand hp hs hf hg ihf ihg =>
      rw [Forest.uses, List.length_append]
      omega

/-- The tips are the leaves in their order, and between them only those of nodes over nothing that is
shown. -/
def Counts (x : Derivation) (leaves : List Subtree) (tips : List (Bool × Subtree)) : Prop :=
  ∃ own other, Merges own other tips ∧ own.map Prod.snd = leaves ∧
    ∀ tip ∈ other, x.tables.isNonterminal tip.2.symbol = true

namespace Counts

variable {ls ms : List Subtree} {ts us : List (Bool × Subtree)}

theorem nil : x.Counts [] [] := ⟨[], [], .refl [], rfl, by simp⟩

theorem own (tip : Bool × Subtree) : x.Counts [tip.2] [tip] := ⟨[tip], [], .refl _, rfl, by simp⟩

theorem append (h : x.Counts ls ts) (h' : x.Counts ms us) : x.Counts (ls ++ ms) (ts ++ us) := by
  obtain ⟨own, other, hm, hown, hother⟩ := h
  obtain ⟨own', other', hm', hown', hother'⟩ := h'
  refine ⟨_, _, hm.append hm', by rw [List.map_append, hown, hown'], ?_⟩
  intro tip ht
  obtain ht | ht := List.mem_append.1 ht
  · exact hother tip ht
  · exact hother' tip ht

/-- A node with children has their leaves, one without is a leaf itself. -/
theorem node {ts : List Subtree} (h : ∀ b, x.Counts ls (tipsAll b ts)) {symbol : Symbol}
    (hs : x.tables.isNonterminal symbol = true) (b : Bool) (kind : Symbol) (span : Span) :
    x.Counts ls (tips b (.node anonymous symbol kind span ts)) := by
  cases ts with
  | nil =>
      obtain ⟨own, other, hm, hown, -⟩ := h b
      obtain rfl := List.eq_nil_of_sublist_nil hm.sublist
      obtain rfl : [] = ls := hown
      refine ⟨[], _, .nil _, rfl, ?_⟩
      intro tip ht
      obtain rfl := List.mem_singleton.1 ht
      exact hs
  | cons t ts =>
      rw [Subtree.node, tips_of_ne_nil (List.cons_ne_nil t ts)]
      exact h _

end Counts

theorem tips_unitImage {t : Token} {s : Step} (hs : s.symbol = t.symbol) (b : Bool) :
    x.Counts (x.tokenLeaf (some s) t) (tipsAll b (x.unitImage s (.token t))) := by
  rw [unitImage, tokenLeaf, isShown, hs]
  split
  · rw [tipsAll_singleton, tips_setField]
    exact .own (b, _)
  · exact .nil

theorem tips_image (ht : x.tables.WellFormed) (hx : ∀ u ∈ x.units, ∃ t, u = .token t)
    (hf : f.Covers x.tables x.units ss i j) (b : Bool) :
    x.Counts (x.leavesFrom i ((f.uses x.tables ss).map some)) (tipsAll b (x.image f ss i)) := by
  induction hf generalizing b with
  | nil i =>
      rw [image_nil]
      exact .nil
  | @unit f s ss u i j hu hs hf ih =>
      obtain ⟨t, rfl⟩ := hx u (Array.mem_of_getElem? hu)
      rw [image, hu, Forest.uses, List.map_cons, leavesFrom, hu, Option.map_some, Option.map_some,
        Option.getD_some, Option.getD_some, tipsAll_append]
      exact (tips_unitImage hs.1 b).append (ih b)
  | @expand p f g s ss i k j hp hs hf hg ihf ihg =>
      rw [image, hf.add_width, Forest.uses, List.map_append, leavesFrom_append, List.length_map,
        length_uses hf, tipsAll_append]
      refine .append ?_ (ihg b)
      rw [nodeImage]
      split
      · rw [tipsAll_singleton, tips_setField]
        exact .node ihf (hs ▸ ht.isNonterminal_lhs hp) b _ _
      · rw [tipsAll_map_label]
        exact ihf b

theorem Pieces.tips (ht : x.tables.WellFormed) (hx : ∀ u ∈ x.units, ∃ t, u = .token t)
    {ts : List Subtree} (h : x.Pieces i uses ts) (b : Bool) :
    x.Counts (x.leavesFrom i uses) (tipsAll b ts) := by
  induction h with
  | done => exact .nil
  | @stray k u uses ts hu _ ih =>
      obtain ⟨t, rfl⟩ := hx u (Array.mem_of_getElem? hu)
      rw [leavesFrom, hu, Option.map_some, Option.getD_some, tipsAll]
      exact .append (.own (b, _)) ih
  | constituent hf hv hs _ ih =>
      rw [leavesFrom_append, List.length_map, length_uses hf, tipsAll_append]
      exact (tips_image ht hx hf b).append ih

theorem Pieces.length_uses {ts : List Subtree} (h : x.Pieces i uses ts) (hi : i ≤ x.units.size) :
    i + uses.length = x.units.size := by
  induction h with
  | done h => exact Nat.le_antisymm hi h
  | stray hu _ ih =>
      have hrest := ih (Array.getElem?_eq_some_iff.1 hu).1
      rw [List.length_cons]
      omega
  | constituent hf _ _ _ ih =>
      have hrest := ih (hf.le_size hi)
      rw [List.length_append, List.length_map]
      have hlen := Derivation.length_uses hf
      omega

theorem IsRoot.length_uses {t : Subtree} (h : x.IsRoot uses t) : uses.length = x.units.size := by
  cases h with
  | accepted hf =>
      have hlen := Derivation.length_uses hf
      rw [List.length_map]
      omega
  | error h =>
      have hlen := h.length_uses (Nat.zero_le _)
      omega

theorem IsRoot.tips (hx : x.Sound) (htoken : ∀ u ∈ x.units, ∃ t, u = .token t)
    (hv : x.tables.isVisible x.startRule = true) (hn : x.tables.isNonterminal x.startRule = true)
    {t : Subtree} (h : x.IsRoot uses t) (b : Bool) :
    x.Counts (x.leavesFrom 0 uses) (tipsAll b t.children) := by
  cases h with
  | @accepted f hf =>
      obtain ⟨u, rfl, hu, hs, -⟩ | ⟨p, g, rfl, hp, hl, hg⟩ := hf.of_singleton
      · obtain ⟨t, rfl⟩ := htoken u (Array.mem_of_getElem? hu)
        have hterminal := hx.token hu
        rw [show t.symbol = x.startRule from hs.1.symm, Tables.not_isTerminal hn] at hterminal
        cases hterminal
      · have hshown : x.isShown { symbol := x.startRule } = true := by
          rw [isShown, hv, Bool.true_or]
        have hchildren : (x.rootImage (x.shown (.expand p g .nil))).children =
            x.image g (x.tables.steps p) 0 := by
          rw [shown, image_expand hg, nodeImage, if_pos hshown]
          rfl
        rw [hchildren, Forest.uses, Forest.uses, List.append_nil]
        exact tips_image hx.wellFormed htoken hg b
  | error h => exact h.tips hx.wellFormed htoken b

end Derivation

theorem Floating.tips_node (lines : Lines) (b : Bool) : ∀ f : Floating, tips b (f.node lines) =
    f.skipped.map (fun t => (true, leaf lines t)) ++
      f.extra?.toList.map fun t => (b, extraLeaf lines t)
  | extra _ => rfl
  | error ts h => by
      have hne : ts.map (leaf lines) ≠ [] := by simpa using h
      have hleaves : ∀ ts : List Token, tipsAll true (ts.map (leaf lines)) =
          ts.map fun t => (true, leaf lines t) := by
        intro ts
        induction ts with
        | nil => rfl
        | cons t ts ih =>
            rw [List.map_cons, tipsAll, ih]
            rfl
      rw [node, Subtree.node, tips_of_ne_nil hne]
      exact (hleaves ts).trans (List.append_nil _).symm

/-- Putting floating nodes in adds a leaf in an error node for each skipped token and one for each
extra. -/
theorem Floating.tipsAll_fillAmong (lines : Lines) (b : Bool) (fs : List Floating)
    (ts : List Subtree) : ∃ extras, extras.map Prod.snd = (fs.filterMap extra?).map (extraLeaf lines) ∧
      Merges (tipsAll b ts)
        ((fs.flatMap skipped).map (fun t => (true, leaf lines t)) ++ extras)
        (tipsAll b (fillAmong (fs.map (node lines)) ts)) := by
  induction fs generalizing ts with
  | nil => exact ⟨[], rfl, .refl _⟩
  | cons f fs ih =>
      obtain ⟨b', hput⟩ := tipsAll_putAmong b (f.node lines) ts
      obtain ⟨extras, hextras, hfill⟩ := ih (putAmong (f.node lines) ts)
      refine ⟨f.extra?.toList.map (fun t => (b', extraLeaf lines t)) ++ extras, ?_, ?_⟩
      · rw [List.map_append, hextras]
        cases f <;> rfl
      · have hmerge := hput.trans hfill
        rw [tips_node, List.append_assoc] at hmerge
        rw [List.flatMap_cons, List.map_append, List.append_assoc]
        exact hmerge.perm_right ((List.perm_append_comm_assoc _ _ _).append_left _)

/-- The symbol that the start symbol stands for. -/
def Tables.startRule (t : Tables) : Symbol :=
  (((t.productionsOf t.start).head?.bind fun p => (t.steps p).head?).map (·.symbol)).getD 0

namespace ParseState

variable {p : ParseInput} {st : ParseState} {es : List Event} {uses : List (Option Step)}

/-- What a tree has to do with the events of the parse that it comes from. -/
structure Accounts (p : ParseInput) (st : ParseState) (order : KeyOrder) (es : List Event)
    (uses : List (Option Step)) (t : Subtree) : Prop where
  /-- Before extras and errors are put in, there is a root that takes each unit by the step given. -/
  root : (st.derivation p).IsRoot uses (st.root p order).skeleton
  /-- They are put in between the nodes below that root, which keep their labels. -/
  embeds : Embeds st.floats (st.root p order).skeleton t.skeleton
  /-- The leaves are those of the tokens taken, in their order, and between them one in an error node
  for each skipped token, one for each extra, and those of nodes over nothing that is shown. -/
  tips : ∃ (tokens : List Token) (own extras other : List (Bool × Subtree)),
    es.filterMap Event.unit? = tokens.map .token ∧ uses.length = tokens.length ∧
      Merges own ((es.filterMap Event.skip?).map (fun t => (true, Floating.leaf p.lines t)) ++
        extras ++ other) (t.tips false) ∧
      own.map Prod.snd =
        (tokens.zip uses).flatMap (fun (t, use) => (st.derivation p).tokenLeaf use t) ∧
      extras.map Prod.snd = (es.filterMap Event.extra?).map (Floating.extraLeaf p.lines) ∧
      ∀ tip ∈ other, p.tables.isNonterminal tip.2.symbol = true ∨ t.children = []

theorem skeletonAll_eq_nil {ts : List Subtree} (h : skeletonAll ts = []) : ts = [] := by
  cases ts with
  | nil => rfl
  | cons t ts => cases h

theorem exists_tokens {us : List InputUnit} (h : ∀ u ∈ us, ∃ t, u = .token t) :
    ∃ tokens : List Token, us = tokens.map .token := by
  induction us with
  | nil => exact ⟨[], rfl⟩
  | cons u us ih =>
      obtain ⟨t, rfl⟩ := h u List.mem_cons_self
      obtain ⟨tokens, rfl⟩ := ih fun u hu => h u (List.mem_cons_of_mem _ hu)
      exact ⟨t :: tokens, rfl⟩

/-- Filling a row whose tips are counted adds those of the events that are no units. -/
theorem EndsWith.merges (h : EndsWith p st es) {b : Bool} {ls ts : List Subtree}
    (hc : (st.derivation p).Counts ls (tipsAll b ts)) : ∃ own extras other,
      Merges own ((es.filterMap Event.skip?).map (fun t => (true, Floating.leaf p.lines t)) ++
        extras ++ other) (tipsAll b (fillAmong st.floats ts)) ∧
      own.map Prod.snd = ls ∧
      extras.map Prod.snd = (es.filterMap Event.extra?).map (Floating.extraLeaf p.lines) ∧
      ∀ tip ∈ other, p.tables.isNonterminal tip.2.symbol = true := by
  obtain ⟨fs, hrecords, hskipped⟩ := h.exists_records
  obtain ⟨own, other, hown, hleaves, hother⟩ := hc
  obtain ⟨extras, hextras, hfill⟩ := Floating.tipsAll_fillAmong p.lines b fs ts
  rw [hrecords.extras] at hextras
  have hmerge := (hown.trans hfill).perm_right List.perm_append_comm
  rw [← hrecords.floats, hskipped] at hmerge
  exact ⟨own, extras, other, hmerge, hleaves, hextras, hother⟩

theorem EndsWith.units_eq (h : EndsWith p st es) :
    st.units.toList = es.filterMap Event.unit? := by
  obtain ⟨fs, hrecords, -⟩ := h.exists_records
  exact hrecords.units

theorem EndsWith.accounts (ht : p.tables.WellFormed) (hr : p.reusable = [])
    (hv : p.tables.isVisible p.tables.startRule = true)
    (hn : p.tables.isNonterminal p.tables.startRule = true) (hes : EndsWith p st es)
    (order : KeyOrder) : ∃ uses, Accounts p st order es uses (st.tree p order) := by
  have hextra : ∀ t ∈ p.reusable, t.isExtra = false := fun t hm => absurd (hr ▸ hm) List.not_mem_nil
  have h := hes.ends
  obtain ⟨htree, uses, hroot⟩ := h.tree_eq ht hextra order
  have hsound := (h.consistent ht).derivation_sound ht hextra
  have htoken := h.units_eq_tokens ht hr
  obtain ⟨tokens, htokens⟩ : ∃ tokens : List Token, st.units.toList = tokens.map .token :=
    exists_tokens fun u hu => htoken u (Array.mem_toList_iff.1 hu)
  have hskel : (st.tree p order).skeleton =
      (fill st.floats (st.root p order).skeleton).coverChildren := by
    rw [htree, skeleton_finish]
  refine ⟨uses, hroot, ?_, ?_⟩
  · rw [hskel]
    exact ((Embeds.refl _ _).fill fun _ hg => hg).coverChildren
  · have hlength : uses.length = tokens.length := by
      rw [hroot.length_uses, ← List.length_map, ← htokens]
      rfl
    have hunits := hes.units_eq.symm.trans htokens
    rcases hdata : (st.root p order).skeleton with ⟨data, ts⟩
    have hcounts := hroot.tips hsound htoken hv hn (data.kind == errorSymbol)
    rw [Derivation.leavesFrom_eq_zip (x := st.derivation p) 0 htokens, hdata] at hcounts
    obtain ⟨own, extras, other, hmerge, hown, hextras, hother⟩ := hes.merges hcounts
    by_cases hnil : fillAmong st.floats ts = []
    · -- nothing was put in, and the root itself is the only leaf
      have hleaf : (st.tree p order).children = [] := by
        apply skeletonAll_eq_nil
        rw [← children_skeleton, hskel, hdata, fill_mk]
        exact hnil
      have hself := (Merges.nil ((st.tree p order).tips false)).append hmerge
      rw [hnil, tipsAll, List.append_nil, List.nil_append] at hself
      refine ⟨tokens, own, extras, other ++ (st.tree p order).tips false, hunits, hlength, ?_, hown,
        hextras, fun _ _ => .inr hleaf⟩
      exact hself.perm_right (List.perm_append_comm.trans (.of_eq (List.append_assoc _ _ _)))
    · refine ⟨tokens, own, extras, other, hunits, hlength, ?_, hown, hextras,
        fun tip htip => .inl (hother tip htip)⟩
      rw [← tips_skeleton, hskel, hdata, fill_mk]
      show Merges own _ (tips false ⟨(coverChildren ⟨_, fillAmong st.floats ts⟩).data, _⟩)
      rw [tips_of_ne_nil hnil]
      exact hmerge

end ParseState

namespace Language

open ParseState

/-- Nothing is lost and nothing comes twice: the parse of any text comes to an end, and whichever of
the constituents that go equally far an error root holds, the tree has one leaf for each token that
was taken and is shown, in their order, one in an error node for each token that was skipped and one
for each extra; and the labels of all other nodes are those that they had before. -/
theorem parse_accounts {g : Grammar} {scanner : Option Scanner} {handle : Nat} {l : Language}
    (hl : Language.compile g scanner handle = .ok l) (hscanner : ∀ s ∈ l.scanner, s.Proper)
    (hv : l.tables.isVisible l.tables.startRule = true)
    (hn : l.tables.isNonterminal l.tables.startRule = true) (text : List Char) (era : Nat) :
    ∃ st es, (ParseInput.fresh l text era).final? = some st ∧ EndsWith (.fresh l text era) st es ∧
      ∀ order, ∃ uses,
        Accounts (.fresh l text era) st order es uses (l.parse text none era order).root := by
  have ht : (ParseInput.fresh l text era).tables.WellFormed := Language.compile_wellFormed hl
  obtain ⟨st, hends⟩ := ParseInput.exists_ends_fresh hscanner text era
  obtain ⟨es, hes⟩ := hends.exists_endsWith
  refine ⟨st, es, final?_eq_some.2 hends, hes, fun order => ?_⟩
  rw [hends.parse_none]
  exact hes.accounts ht rfl hv hn order

/-- A mark, a comment and a letter out of place, and no derivation. -/
theorem parse_accounts_commentedPairs : ∃ l st es,
    Language.compile commentedPairs (some Candid.BlockComment.scanner) 0 = .ok l ∧
    (l.parse "a#xb/**/a".toList none 0).root.symbol = errorSymbol ∧
    (l.parse "a#xb/**/a".toList none 0).root.leaves.length = 6 ∧ st.floating.size = 4 ∧
    (ParseInput.fresh l "a#xb/**/a".toList 0).final? = some st ∧
    EndsWith (.fresh l "a#xb/**/a".toList 0) st es ∧ ∀ order, ∃ uses,
      Accounts (.fresh l "a#xb/**/a".toList 0) st order es uses
        (l.parse "a#xb/**/a".toList none 0 order).root := by
  obtain ⟨l, st, hl, hends, htest⟩ := exists_of_endsWith
    (show endsWith commentedPairs (some Candid.BlockComment.scanner) "a#xb/**/a".toList (fun l st =>
        let t := st.tree (.fresh l "a#xb/**/a".toList 0) .entered
        l.tables.isVisible l.tables.startRule && l.tables.isNonterminal l.tables.startRule &&
          t.symbol == errorSymbol && t.leaves.length == 6 && st.floating.size == 4) = true by
      decide +kernel)
  simp only [Bool.and_eq_true, beq_iff_eq] at htest
  obtain ⟨⟨⟨⟨hv, hn⟩, hsymbol⟩, hleaves⟩, hsize⟩ := htest
  obtain ⟨st', es, hst', hes, h⟩ := parse_accounts hl (Candid.BlockComment.proper_of_compile hl) hv hn
    "a#xb/**/a".toList 0
  obtain rfl := hends.unique (final?_eq_some.1 hst')
  have htree := hends.root_parse_none .entered
  exact ⟨l, st, es, hl, htree ▸ hsymbol, htree ▸ hleaves, hsize, hst', hes, h⟩

end Language

end EarleyTree

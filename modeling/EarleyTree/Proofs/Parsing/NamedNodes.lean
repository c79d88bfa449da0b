import EarleyTree.Proofs.Parsing.ShownKinds
import EarleyTree.Proofs.Tree.Writing

/-!
Which named nodes of a parse result are written. Rules are named if they show, so a node is below an
anonymous one only where a step gives a rule, or part of one, an anonymous name.
-/
namespace EarleyTree

open Text Subtree

namespace Language

variable (l : Language) (taken : Bool)

/-- What is derived bears no anonymous name. Nothing hidden that may be taken over from an old tree is
left without a name. -/
structure Uncovers : Prop where
  named : ∀ p ∈ l.tables.productions.toList, ∀ step ∈ p.steps,
    l.tables.isTerminal step.symbol = false → ∀ k ∈ step.newKind, l.isNamed k = true
  renamed : taken = true → ∀ p ∈ l.tables.productions.toList, ∀ step ∈ p.steps,
    step.newKind.isSome = true → l.tables.kind? step.symbol = some .nonterminal →
      l.tables.isVisible step.symbol = true
  start : taken = true → ∀ p ∈ l.tables.productionsOf l.tables.start, ∀ step ∈ l.tables.steps p,
    l.tables.isVisible step.symbol = true

instance : Decidable (l.Uncovers taken) :=
  decidable_of_iff (_ ∧ _ ∧ _) ⟨fun h => ⟨h.1, h.2.1, h.2.2⟩, fun h => ⟨h.named, h.renamed, h.start⟩⟩

/-- The node is named, or there is nothing below it. -/
def Bare (t : Subtree) : Prop := t.children = [] ∨ l.isNamed t.kind = true

/-- The nodes directly below are so. -/
def Bares (t : Subtree) : Prop := ∀ c ∈ t.children, l.Bare c

/-- The node is named if a rule was derived to it. -/
def NamesRule (t : Subtree) : Prop :=
  l.tables.kind? t.symbol = some .nonterminal → l.isNamed t.kind = true

variable {l : Language} {taken : Bool} {g t t' : Subtree} {ts : List Subtree}

theorem Bare.congr (h : l.Bare t) (hkind : t'.kind = t.kind)
    (hleaf : t.children = [] → t'.children = []) : l.Bare t' :=
  h.imp hleaf fun h => hkind ▸ h

theorem bare_skeleton : l.Bare t.skeleton ↔ l.Bare t :=
  ⟨fun h => h.congr (kind_skeleton t).symm children_skeleton_eq_nil.1,
    fun h => h.congr (kind_skeleton t) children_skeleton_eq_nil.2⟩

theorem bares_skeleton : l.Bares t.skeleton ↔ l.Bares t := by
  rw [Bares, children_skeleton, skeletonAll_eq_map, List.forall_mem_map]
  exact forall₂_congr fun c _ => bare_skeleton

theorem every_bares {data : NodeData} (hts : ∀ c ∈ ts, Every l.Bares c ∧ l.Bare c) :
    Every l.Bares ⟨data, ts⟩ :=
  .mk (fun c hm => (hts c hm).2) fun c hm => (hts c hm).1

theorem every_bares_nil {data : NodeData} : Every l.Bares ⟨data, []⟩ :=
  every_bares fun _ hm => absurd hm List.not_mem_nil

theorem every_bares_setData {data : NodeData} (h : Every l.Bares t) :
    Every l.Bares ⟨data, t.children⟩ :=
  .mk h.here h.children

theorem Bares.put (hg : l.Bare g) (h : l.Bares t) : l.Bares (t.put g) := by
  obtain ⟨data, ts⟩ := t
  intro c hc
  obtain rfl | hc | ⟨t, hm, he, rfl⟩ := mem_of_mem_putAmong hc
  · exact hg
  · exact h c hc
  · refine (h t hm).congr (kind_put g t) fun hnil => ?_
    rw [encloses, hnil] at he
    cases he

theorem every_bares_insertFloating (hg : Every l.Bares g) (hbare : l.Bare g) (era : Nat)
    (trail : List Nat) (h : Every l.Bares t) : Every l.Bares (insertFloating g era trail t) := by
  rw [← every_skeleton fun _ => bares_skeleton] at hg h ⊢
  have hbare : l.Bare g.skeleton := bare_skeleton.2 hbare
  rw [skeleton_insertFloating]
  generalize t.skeleton = t at h ⊢
  obtain ⟨data, ts⟩ := t
  exact .mk (h.here.put hbare) (.putAmong (fun _ h => h) (fun _ _ h => h.put hbare) hg h.children)

theorem bares_edit (e : Edit) (era : Nat) (h : Every l.Bares t) (htop : l.NamesRule t) :
    Every l.Bares (t.edit e era []) ∧ l.NamesRule (t.edit e era []) := by
  have hpairs := pairs_kept e era [] h
  refine ⟨hpairs.every h fun s t hp hs d hd => ?_, ?_⟩
  · obtain ⟨c, hc, hcd⟩ := hp.exists_child hd
    exact (hs c hc).congr hcd.here.kind hcd.here.leaf
  · rw [NamesRule, hpairs.here.symbol, hpairs.here.kind]
    exact htop

/-- What is taken over from where no node is covered by an anonymous one is named. -/
theorem isNamed_of_mem_reusable (h : Every l.Bares t) (htop : l.NamesRule t)
    (ht : t' ∈ t.reusable l.tables) : l.isNamed t'.kind = true := by
  have halone : Every (fun t => l.Bare t ∨ l.NamesRule t) t := by
    replace htop : l.Bare t ∨ l.NamesRule t := .inr htop
    clear ht
    induction h with
    | mk h _ ih => exact .mk htop fun c hc => ih c hc (.inl (h c hc))
  have hreusable := isReusable_of_mem_reusable t ht
  obtain hbare | hnames := (halone.of_mem_reusable t t' ht).here
  · exact hbare.resolve_left fun hnil => not_fallow_of_isReusable hreusable (.inl hnil)
  · exact hnames (kind?_of_isReusable hreusable)

section

variable {g : Grammar} {scanner : Option Scanner} {handle : Nat}
  (hl : Language.compile g scanner handle = .ok l)

include hl

/-- Of what is derived, only a rule shows, and it is named. -/
theorem isNamed_of_isVisible {s : Symbol} (hs : l.tables.isNonterminal s = true)
    (hv : l.tables.isVisible s = true) : l.isNamed s = true := by
  obtain ⟨info, hi, hk⟩ := (Option.any_eq_true _ _).1 hs
  have hplain := (Grammar.tidy_of_tables (tables_of_compile hl)).symbols info (Array.mem_of_getElem? hi)
  rw [Tables.isVisible, hi, Option.any_some] at hv
  have hrule : info.kind = .nonterminal := by
    rw [SymbolInfo.isNonterminal, Bool.or_eq_true, beq_iff_eq, beq_iff_eq] at hk
    refine hk.resolve_right fun haux => ?_
    rw [hplain.auxiliary haux] at hv
    cases hv
  have hnamed : info.named = true := (hplain.nonterminal hrule).trans hv
  rw [isNamed, hi, Option.any_some, hnamed, Bool.or_true]

theorem isNamed_of_shows {s kind : Symbol} (hu : l.Uncovers taken) (h : l.tables.Shows s kind)
    (hs : l.tables.isTerminal s = false) (hv : kind = s → l.tables.isVisible s = true) :
    l.isNamed kind = true := by
  cases h with
  | step hstep =>
      obtain ⟨p, hp, hstep⟩ := Tables.exists_of_mem_steps hstep
      cases hk : Step.newKind _ with
      | some k => exact hu.named p (Array.mem_toList_iff.2 hp) _ hstep hs k hk
      | none =>
          have hrule := ((tables_intact hl).steps p hp _ hstep).resolve_left (Bool.eq_false_iff.1 hs)
          rw [hk] at hv
          exact isNamed_of_isVisible hl hrule (hv rfl)
  | lhs hp => exact isNamed_of_isVisible hl ((compile_wellFormed hl).isNonterminal_lhs hp) (hv rfl)

omit hl in
theorem isVisible_of_renames (hu : l.Uncovers true) {s : Symbol} (h : l.tables.Renames s)
    (hs : l.tables.kind? s = some .nonterminal) : l.tables.isVisible s = true := by
  obtain ⟨p, step, hstep, rfl, hk⟩ := h
  obtain ⟨production, hp, hstep⟩ := Tables.exists_of_mem_steps hstep
  exact hu.renamed rfl production (Array.mem_toList_iff.2 hp) step hstep hk hs

/-- The properties are those of what is derived, twice those of what may be below a node, and those of
the whole. -/
theorem stages_bares (hu : l.Uncovers taken) {p : ParseInput} (hp : p.language = l)
    (h : ∀ t ∈ p.reusable, taken = true ∧ Every l.Bares t ∧ l.isNamed t.kind = true ∧
      l.tables.Labels t.symbol t.kind ∧ l.tables.kind? t.symbol = some .nonterminal) :
    p.Stages (fun t => Every l.Bares t ∧ l.Bare t ∧ l.NamesRule t)
      (fun t => Every l.Bares t ∧ l.Bare t) (fun t => Every l.Bares t ∧ l.Bare t)
      (fun t => Every l.Bares t ∧ (taken = true → l.NamesRule t)) := by
  subst hp
  exact {
    leaf hs _ _ := ⟨every_bares_nil, .inl rfl, fun hk => absurd hs (Bool.eq_false_iff.1
      (Tables.not_isTerminal (Tables.isNonterminal_of_kind? hk)))⟩
    node _ hs hshows hv hts := by
      have hnamed := isNamed_of_shows hl hu hshows hs fun he => he ▸ hv
      exact ⟨every_bares fun c hm => ⟨(hts c hm).1, (hts c hm).2.1⟩, .inr hnamed, fun _ => hnamed⟩
    reused ht := ⟨(h _ ht).2.1, .inr (h _ ht).2.2.1, fun _ => (h _ ht).2.2.1⟩
    rename {t ident kind} ht _ hne hshows := by
      obtain ⟨rfl, hbares, -, hlabel, hk⟩ := h t ht
      have hs := Tables.not_isTerminal (Tables.isNonterminal_of_kind? hk)
      have hnamed := isNamed_of_shows hl hu hshows hs fun he =>
        isVisible_of_renames hu (hlabel.resolve_left fun hsame => hne (hsame.trans he.symm)).1 hk
      exact ⟨every_bares_setData hbares, .inr hnamed, fun _ => hnamed⟩
    setField ht := ⟨every_bares_setData ht.1, ht.2⟩
    below ht := ⟨ht.1, ht.2.1⟩
    stray _ := ⟨every_bares_nil, .inl rfl⟩
    error hts := ⟨every_bares hts, .inr rfl⟩
    extra _ := ⟨every_bares_nil, .inl rfl⟩
    top {t ident} ht := ⟨every_bares_setData (t := t) ht.1, fun _ => ht.2.2⟩
    wrap {ident rule a b ts} hrule hts := by
      refine ⟨every_bares fun c hm => ⟨(hts c hm).1, (hts c hm).2.1⟩, fun htaken hk => ?_⟩
      obtain ⟨q, hq, hsteps⟩ := hrule
      have hv := hu.start htaken q (hq ▸ List.mem_singleton_self q) { symbol := rule }
        (hsteps ▸ List.mem_singleton_self _)
      exact isNamed_of_isVisible hl (Tables.isNonterminal_of_kind? hk) hv
    errorRoot hts := ⟨every_bares hts, fun _ _ => rfl⟩
    insert {g t trail} hg ht := by
      refine ⟨every_bares_insertFloating hg.1 hg.2 _ _ ht.1, fun htaken => ?_⟩
      rw [NamesRule, symbol_insertFloating, kind_insertFloating]
      exact ht.2 htaken
    cover ht := ⟨every_bares_setData ht.1, ht.2⟩ }

theorem bares_parse_of_bares (hu : l.Uncovers taken) {old : Option Tree}
    (htaken : old.isSome = true → taken = true)
    (hold : ∀ o ∈ old, o.language = l → Every l.Bares o.root ∧ l.NamesRule o.root)
    (hscreens : ∀ o ∈ old, o.language.Screens true o.root)
    (hhandle : ∀ o ∈ old, o.language.handle = l.handle → o.language = l) (text : List Char) (era : Nat)
    (order : KeyOrder) : Every l.Bares (l.parse text old era order).root ∧
      (taken = true → l.NamesRule (l.parse text old era order).root) := by
  have hoffers (o : Tree) (ho : o ∈ old) (t : Subtree)
      (ht : t ∈ (ParseInput.withOld l text o era).reusable) : taken = true ∧ Every l.Bares t ∧
        l.isNamed t.kind = true ∧ l.tables.Labels t.symbol t.kind ∧
          l.tables.kind? t.symbol = some .nonterminal := by
    have hl := hhandle o ho (handle_of_mem_withOld ht)
    have ht := mem_of_mem_withOld ht
    obtain ⟨hbares, hnames⟩ := hold o ho hl
    obtain ⟨harranges, -, hk⟩ := (hl ▸ hscreens o ho).of_mem_reusable ht
    exact ⟨htaken (Option.isSome_of_mem ho), hbares.of_mem_reusable _ t ht,
      isNamed_of_mem_reusable hbares hnames ht, harranges.here.label, hk⟩
  exact stages_parse hl (stages_bares hl hu rfl fun t ht => absurd ht List.not_mem_nil)
    (fun o ho => stages_bares hl hu rfl (hoffers o ho)) order

end

end Language

namespace Node

variable {n : Node}

/-- Below the node itself only what has nothing below it is anonymous, so it covers nothing. -/
theorem uncovered_of_bares (h : Every n.language.Bares n.subtree) : n.Uncovered := by
  intro d hd hnamed
  induction n using induct with
  | node n ih =>
      rw [preorder_eq, List.tail_cons] at hd
      obtain ⟨c, hc, hd⟩ := List.mem_flatMap.1 hd
      have hl := language_of_mem_children hc
      have hmem := (mem_children hc).1
      rw [opens_child hc hd, Bool.and_eq_true]
      obtain rfl | hbelow := mem_preorder.1 hd
      · exact ⟨hnamed, d.opens_self⟩
      · refine ⟨?_, ih c hc (hl ▸ h.children _ hmem) hbelow⟩
        obtain hnil | hnamed := h.here _ hmem
        · rw [preorder_eq, List.tail_cons, children, hnil] at hbelow
          exact absurd hbelow List.not_mem_nil
        · rw [isNamed, hl]
          exact hnamed

end Node

/-- Where nothing that is derived has an anonymous name, no tree that a parse or an edit has made covers a
named node. -/
theorem Tree.Coherent.bares {t : Tree} (h : t.Coherent) (hu : t.language.Uncovers true) :
    Every t.language.Bares t.root ∧ t.language.NamesRule t.root := by
  induction h with
  | parsed hl hold hhandle text era order ih =>
      rw [Language.language_parse] at hu ⊢
      obtain ⟨hbares, hnames⟩ := Language.bares_parse_of_bares hl hu (fun _ => rfl)
        (fun o ho he => he ▸ ih o ho (he ▸ hu)) (fun o ho => (hold o ho).screens) hhandle text era
        order
      exact ⟨hbares, hnames rfl⟩
  | edited _ e era ih => exact Language.bares_edit e era (ih hu).1 (ih hu).2

namespace Language

variable {g : Grammar} {scanner : Option Scanner} {handle : Nat} {l : Language} {old : Option Tree}

/-- What is written of a parse result are the nodes that no anonymous one closes off, in the order of the
tree, and where the names are plain they can be read off the text. So all named nodes are written, and an
error is if there is one, just where none is below an anonymous node other than the root. That is so of
every parse result if nothing that is derived has an anonymous name. -/
theorem writes_opened (hl : Language.compile g scanner handle = .ok l) (hold : ∀ o ∈ old, o.Coherent)
    (hhandle : ∀ o ∈ old, o.language.handle = l.handle → o.language = l) (text : List Char)
    (era : Nat) (order : KeyOrder) :
    let t := l.parse text old era order
    let n := t.rootNode
    let s := t.root.outline l none
    t.sexp = String.ofList s.write ∧
    s.heads = (n.preorder.filter n.opens).map (fun d => d.subtree.head l) ∧
    ((∀ d ∈ n.preorder, Sexp.Plain (d.subtree.head l)) →
      (∀ name ∈ l.tables.fields, Sexp.Plain name.toList) → Sexp.headsIn t.sexp.toList = s.heads) ∧
    (s.heads = t.root.head l :: (n.preorder.tail.filter Node.isNamed).map (·.kindName.toList) ↔
      n.Uncovered) ∧
    (n.Uncovered → t.root.hasError = true →
      "ERROR".toList ∈ s.heads ∧ "ERROR".toList <:+: t.sexp.toList) ∧
    (l.Uncovers old.isSome → n.Uncovered) := by
  have hflagged : Every Flagged (l.parse text old era order).root :=
    (Tree.Arises.parsed hl (fun o ho => (hold o ho).arises) text era order).flagged
  have hbares (hu : l.Uncovers old.isSome) : Every l.Bares (l.parse text old era order).root := by
    refine (bares_parse_of_bares hl hu id (fun o ho he => ?_) (fun o ho => (hold o ho).screens) hhandle
      text era order).1
    rw [Option.isSome_of_mem ho] at hu
    exact he ▸ (hold o ho).bares (he ▸ hu)
  have hlanguage := language_parse l text old era order
  generalize l.parse text old era order = t at hlanguage hflagged hbares
  subst hlanguage
  dsimp only
  have hwrite : (t.root.outline t.language none).write = t.root.sexp t.language :=
    write_outline t.language none t.root
  have htext : t.sexp.toList = t.root.sexp t.language := String.toList_ofList
  have hheads := t.rootNode.heads_outline none
  refine ⟨by rw [hwrite]; rfl, hheads, fun hplain hfields => ?_,
    t.rootNode.heads_outline_eq_iff none, fun hun herror => ?_, fun hu => ?_⟩
  · rw [htext]
    exact (t.rootNode.headsIn_sexp hplain hfields).trans hheads.symm
  · have hmem := Node.error_mem_heads hun hflagged herror none
    refine ⟨hmem, ?_⟩
    rw [htext, ← hwrite]
    exact Sexp.infix_write _ _ hmem
  · exact Node.uncovered_of_bares (hbares hu)

/-- The name of a pair is written in this one, and in the other one it is anonymous. -/
def dressedAs (named : Bool) : Grammar :=
  ((({ name := "row" } : Grammar).define "row"
      (.seq [.renamedTo (.ref "pair") "y" named, .literal ";"])).define "pair"
    (.seq [.ref "letter", .literal "b"])).define "letter" (.regex "a")

/-- The pair is taken over from an old tree, and a character that is no token stands behind it. -/
theorem writes_opened_dressedAs : ∃ l e, Language.compile (dressedAs true) none 0 = .ok l ∧
    Edit.replace? ['a', 'b', ';'] 2 2 ['?'] = some e ∧ l.Uncovers true ∧
    let t := l.parse ['a', 'b', '?', ';'] (some ((l.parse ['a', 'b', ';'] none 0).edit e 1)) 2
    (t.rootNode.preorder.tail.filter Node.isNamed).length = 4 ∧
    Sexp.headsIn t.sexp.toList = t.root.head l ::
      (t.rootNode.preorder.tail.filter Node.isNamed).map (·.kindName.toList) ∧
    "ERROR".toList <:+: t.sexp.toList := by
  obtain ⟨l, e, hl, he, htest⟩ := exists_of_editedWith
    (show editedWith (dressedAs true) none ['a', 'b', ';'] 2 2 ['?'] ['a', 'b', '?', ';']
        (fun l _ _ t => decide (l.Uncovers true) && t.root.hasError &&
          (t.rootNode.preorder.tail.filter Node.isNamed).length == 4 &&
          (t.rootNode.preorder.all fun d => decide (Sexp.Plain (d.subtree.head l))) &&
          l.tables.fields.all fun name => decide (Sexp.Plain name.toList)) = true by decide +kernel)
  simp only [Bool.and_eq_true, decide_eq_true_iff, beq_iff_eq, List.all_eq_true] at htest
  obtain ⟨⟨⟨⟨hu, herror⟩, hlength⟩, hheads⟩, hfields⟩ := htest
  have hcoherent : ((l.parse ['a', 'b', ';'] none 0).edit e 1).Coherent :=
    .edited (.parsed hl (fun o ho => absurd ho (Option.not_mem_none o))
      (fun o ho => absurd ho (Option.not_mem_none o)) ['a', 'b', ';'] 0 .entered) e 1
  obtain ⟨-, -, hread, hall, hshows, huncovered⟩ := writes_opened hl
    (fun o ho => Option.some.inj ho ▸ hcoherent) (fun o ho _ => Option.some.inj ho ▸ rfl)
    ['a', 'b', '?', ';'] 2 .entered
  have hn := huncovered hu
  exact ⟨l, e, hl, he, hu, hlength, (hread hheads hfields).trans (hall.2 hn), (hshows hn herror).2⟩

/-- The pair is anonymous, and so neither the letter in it nor the errors are written. -/
theorem not_writes_dressedAs : ∃ l, Language.compile (dressedAs false) none 0 = .ok l ∧
    let t := l.parse ['a', '?', 'b', ';'] none 0
    t.sexp = "(row)" ∧ t.root.hasError = true ∧
    (t.rootNode.preorder.tail.filter Node.isNamed).map (·.kindName) = ["letter", "ERROR", "ERROR"] ∧
    Sexp.headsIn t.sexp.toList ≠ t.root.head l ::
      (t.rootNode.preorder.tail.filter Node.isNamed).map (·.kindName.toList) ∧
    ¬"ERROR".toList <:+: t.sexp.toList := by
  obtain ⟨l, hl, htest⟩ := exists_of_parsedWith
    (show parsedWith (dressedAs false) none ['a', '?', 'b', ';'] (fun l t =>
        decide (t.sexp = "(row)" ∧ t.root.hasError = true ∧
          (t.rootNode.preorder.tail.filter Node.isNamed).map (·.kindName) =
            ["letter", "ERROR", "ERROR"] ∧
          Sexp.headsIn t.sexp.toList ≠ t.root.head l ::
            (t.rootNode.preorder.tail.filter Node.isNamed).map (·.kindName.toList) ∧
          ¬"ERROR".toList <:+: t.sexp.toList)) = true by decide +kernel)
  exact ⟨l, hl, of_decide_eq_true htest⟩

end Language

end EarleyTree

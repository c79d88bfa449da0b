import EarleyTree.Proofs.Language.Integrity
import EarleyTree.Proofs.Parsing.Advance
import EarleyTree.Proofs.Parsing.Errors

/-!
Of which kinds the nodes of a tree are. Hidden symbols have no nodes of their own, but a token that
floats or is skipped has one whatever its kind, a tree has a root, and what is taken over from an old
tree under another name is shown as itself where its new place has no name for it.
-/
namespace EarleyTree

open Text Subtree

/-- A hidden rule that an old tree may hold a node of: the node has another name, or it is the root. -/
structure Tables.Lingers (t : Tables) (s : Symbol) : Prop where
  kind : t.kind? s = some .nonterminal
  held : t.Renames s ∨ t.StartsWith s

namespace Language

variable (l : Language) (taken : Bool)

/-- The node is of a kind that shows, or it was taken over as it is. -/
def Stands (t : Subtree) : Prop :=
  l.isVisible t.kind = true ∨ taken = true ∧ t.kind = t.symbol ∧ l.tables.Lingers t.symbol

/-- How one node comes to be below another. -/
inductive Admits (parent t : Subtree) : Prop
  | stands (h : l.Stands taken t)
  | extra (h : t.isExtra = true) (hkind : ∃ e ∈ l.tables.extraTokens, t.kind = e.2.getD e.1)
  | stray (hparent : parent.kind = errorSymbol) (hleaf : t.children = [])
      (hkind : l.tables.isTerminal t.kind = true)

/-- The node is shown as its own symbol or as a step has it, and what is below comes to be there. -/
structure Arranges (t : Subtree) : Prop where
  label : l.tables.Labels t.symbol t.kind
  below : ∀ c ∈ t.children, l.Admits taken t c

/-- No node is of a hidden kind but those that are let in. -/
structure Screens (root : Subtree) : Prop where
  top : l.Stands taken root ∨ l.tables.StartsWith root.kind
  inner : Every (l.Arranges taken) root

/-- Nothing hidden is let in but what error nodes hold. -/
structure Bars : Prop where
  start : ∀ rule, l.tables.StartsWith rule → l.tables.isVisible rule = true
  extras : ∀ e ∈ l.tables.extraTokens, l.tables.isVisible (e.2.getD e.1) = true
  renamed : taken = true → ∀ s, l.tables.kind? s = some .nonterminal → l.tables.Renames s →
    l.tables.isVisible s = true

variable {l : Language} {taken : Bool} {parent parent' g t t' : Subtree} {ts : List Subtree}

theorem isVisible_of_tables {s : Symbol} (h : l.tables.isVisible s = true) : l.isVisible s = true :=
  Bool.or_eq_true_iff.2 (.inr h)

theorem Stands.congr (h : l.Stands taken t) (hsymbol : t'.symbol = t.symbol)
    (hkind : t'.kind = t.kind) : l.Stands taken t' := by
  rw [Stands, hsymbol, hkind]
  exact h

theorem Stands.mono (h : l.Stands taken t) : l.Stands true t :=
  h.imp_right fun ht => ⟨rfl, ht.2⟩

theorem Admits.mono (h : l.Admits taken parent t) : l.Admits true parent t := by
  cases h with
  | stands h => exact .stands h.mono
  | extra h hkind => exact .extra h hkind
  | stray hparent hleaf hkind => exact .stray hparent hleaf hkind

/-- What else changes at the two nodes does not matter. -/
theorem Admits.congr (h : l.Admits taken parent t) (hparent : parent'.kind = parent.kind)
    (hsymbol : t'.symbol = t.symbol) (hkind : t'.kind = t.kind) (hextra : t'.isExtra = t.isExtra)
    (hleaf : t.children = [] → t'.children = []) : l.Admits taken parent' t' := by
  cases h with
  | stands h => exact .stands (h.congr hsymbol hkind)
  | extra h hk => exact .extra (hextra.trans h) (hkind ▸ hk)
  | stray hp hl hk => exact .stray (hparent.trans hp) (hleaf hl) (hkind ▸ hk)

theorem Screens.mono (h : l.Screens taken t) : l.Screens true t where
  top := h.top.imp_left Stands.mono
  inner := h.inner.mono fun _ ht => ⟨ht.label, fun c hc => (ht.below c hc).mono⟩

theorem stands_error (h : t.kind = errorSymbol) : l.Stands taken t :=
  .inl (h ▸ rfl)

theorem kind_ne_errorSymbol (hc : l.tables.Closed) (h : l.Arranges taken t)
    (hkind : l.tables.kind? t.symbol = some .nonterminal) : t.kind ≠ errorSymbol := by
  obtain he | ⟨-, hv⟩ := h.label
  · obtain ⟨info, hinfo, -⟩ := Option.map_eq_some_iff.1 hkind
    exact he ▸ hc.ne_errorSymbol (Array.getElem?_eq_some_iff.1 hinfo).1
  · exact hc.ne_errorSymbol (Tables.lt_size_of_any hv)

theorem every_arranges {data : NodeData} (hlabel : l.tables.Labels data.symbol data.kind)
    (hts : ∀ c ∈ ts, Every (l.Arranges taken) c ∧ l.Admits taken ⟨data, ts⟩ c) :
    Every (l.Arranges taken) ⟨data, ts⟩ :=
  .mk ⟨hlabel, fun c hm => (hts c hm).2⟩ fun c hm => (hts c hm).1

theorem every_arranges_nil {data : NodeData} (hlabel : l.tables.Labels data.symbol data.kind) :
    Every (l.Arranges taken) ⟨data, []⟩ :=
  every_arranges hlabel fun _ hm => absurd hm List.not_mem_nil

theorem every_arranges_setData {data : NodeData} (h : Every (l.Arranges taken) t)
    (hsymbol : data.symbol = t.symbol) (hkind : data.kind = t.kind) :
    Every (l.Arranges taken) ⟨data, t.children⟩ := by
  refine h.setData ⟨?_, fun c hm => (h.here.below c hm).congr hkind rfl rfl rfl id⟩
  show l.tables.Labels data.symbol data.kind
  rw [hsymbol, hkind]
  exact h.here.label

theorem admits_skeleton : l.Admits taken parent.skeleton t.skeleton ↔ l.Admits taken parent t :=
  ⟨fun h => h.congr (kind_skeleton parent).symm (symbol_skeleton t).symm (kind_skeleton t).symm
      (isExtra_skeleton t).symm children_skeleton_eq_nil.1,
    fun h => h.congr (kind_skeleton parent) (symbol_skeleton t) (kind_skeleton t)
      (isExtra_skeleton t) children_skeleton_eq_nil.2⟩

theorem arranges_skeleton : l.Arranges taken t.skeleton ↔ l.Arranges taken t := by
  have hlabel : l.tables.Labels t.skeleton.symbol t.skeleton.kind ↔
      l.tables.Labels t.symbol t.kind := by rw [symbol_skeleton, kind_skeleton]
  have hbelow : (∀ c ∈ t.skeleton.children, l.Admits taken t.skeleton c) ↔
      ∀ c ∈ t.children, l.Admits taken t c := by
    rw [children_skeleton, skeletonAll_eq_map, List.forall_mem_map]
    exact forall₂_congr fun c _ => admits_skeleton
  exact ⟨fun h => ⟨hlabel.1 h.label, hbelow.1 h.below⟩,
    fun h => ⟨hlabel.2 h.label, hbelow.2 h.below⟩⟩

theorem Arranges.put (hg : ∀ parent, l.Admits taken parent g) (h : l.Arranges taken t) :
    l.Arranges taken (t.put g) := by
  obtain ⟨data, ts⟩ := t
  refine ⟨h.label, fun c hc => ?_⟩
  obtain rfl | hc | ⟨t, hm, he, rfl⟩ := mem_of_mem_putAmong hc
  · exact hg _
  · exact (h.below c hc).congr rfl rfl rfl rfl id
  · refine (h.below t hm).congr rfl (symbol_put g t) (kind_put g t) (isExtra_put g t) fun hnil => ?_
    rw [encloses, hnil] at he
    cases he

/-- What may be anywhere may be put in anywhere. -/
theorem Screens.insertFloating (h : l.Screens taken t) (hg : Every (l.Arranges taken) g)
    (hplace : ∀ parent, l.Admits taken parent g) (era : Nat) (trail : List Nat) :
    l.Screens taken (insertFloating g era trail t) := by
  have hkind := kind_insertFloating g era trail t
  refine ⟨?_, ?_⟩
  · rw [hkind]
    exact h.top.imp_left fun h => h.congr (symbol_insertFloating g era trail t) hkind
  · have ht := h.inner
    have hplace (parent : Subtree) : l.Admits taken parent g.skeleton :=
      (admits_skeleton.2 (hplace parent)).congr (kind_skeleton parent).symm rfl rfl rfl id
    rw [← every_skeleton fun _ => arranges_skeleton] at hg ht ⊢
    rw [skeleton_insertFloating]
    generalize t.skeleton = t at ht ⊢
    obtain ⟨data, ts⟩ := t
    exact .mk (ht.here.put hplace)
      (.putAmong (fun _ h => h) (fun _ _ h => h.put hplace) hg ht.children)

theorem Screens.edit (h : l.Screens taken t) (e : Edit) (era : Nat) :
    l.Screens taken (t.edit e era []) := by
  have hpairs := pairs_kept e era [] h.inner
  obtain ⟨hsymbol, hkind, -⟩ := hpairs.here
  refine ⟨?_, hpairs.every h.inner fun s t hp hs => ?_⟩
  · rw [hkind]
    exact h.top.imp_left fun h => h.congr hsymbol hkind
  · obtain ⟨hsymbol, hkind, -⟩ := hp.here
    refine ⟨hsymbol ▸ hkind ▸ hs.label, fun d hd => ?_⟩
    obtain ⟨c, hc, hcd⟩ := hp.exists_child hd
    have hkept := hcd.here
    exact (hs.below c hc).congr hkind hkept.symbol hkept.kind hkept.extra hkept.leaf

theorem Stands.visible (h : l.Stands taken t) (hl : l.Bars taken) : l.isVisible t.kind = true := by
  obtain h | ⟨htaken, he, ⟨hkind, hrenames | hstart⟩⟩ := h
  · exact h
  · exact isVisible_of_tables (he ▸ hl.renamed htaken _ hkind hrenames)
  · exact isVisible_of_tables (he ▸ hl.start _ hstart)

theorem Screens.visible (h : l.Screens taken t) (hl : l.Bars taken) (hflagged : Every Flagged t)
    (herror : t.hasError = false) : Every (fun t => l.isVisible t.kind = true) t := by
  have htop : l.isVisible t.kind = true :=
    h.top.elim (·.visible hl) fun hstart => isVisible_of_tables (hl.start _ hstart)
  have hinner := h.inner
  clear h
  induction hinner with
  | @mk t h _ ih =>
      obtain ⟨hkind, hnone⟩ := Bool.or_eq_false_iff.1 (hflagged.here.symm.trans herror)
      refine .mk htop fun c hc => ih c hc (hflagged.children c hc) ?_ ?_
      · exact Bool.eq_false_iff.2 (List.any_eq_false.1 hnone c hc)
      · cases h.below c hc with
        | stands h => exact h.visible hl
        | extra _ hk =>
            obtain ⟨e, he, hk⟩ := hk
            exact isVisible_of_tables (hk ▸ hl.extras e he)
        | stray hparent _ _ => exact absurd hparent (beq_eq_false_iff_ne.1 hkind)

/-- The properties are those of subtrees that stand wherever they are, of those below an error node,
and of those that may be anywhere. -/
theorem stages_screens {p : ParseInput} (hl : p.language = l) (hc : l.tables.Closed)
    (h : ∀ t ∈ p.reusable, taken = true ∧ Every (l.Arranges taken) t ∧ l.Stands taken t ∧
      l.tables.kind? t.symbol = some .nonterminal) :
    p.Stages (fun t => Every (l.Arranges taken) t ∧ l.Stands taken t)
      (fun t => Every (l.Arranges taken) t ∧
        ∀ parent, parent.kind = errorSymbol → l.Admits taken parent t)
      (fun t => Every (l.Arranges taken) t ∧ ∀ parent, l.Admits taken parent t)
      (l.Screens taken) := by
  subst hl
  exact {
    leaf _ hshows hk := ⟨every_arranges_nil (hshows.labels hc), .inl (isVisible_of_tables hk)⟩
    node _ _ hshows hk hts :=
      ⟨every_arranges (hshows.labels hc) fun c hm => ⟨(hts c hm).1, .stands (hts c hm).2⟩,
        .inl (isVisible_of_tables hk)⟩
    reused ht := ⟨(h _ ht).2.1, (h _ ht).2.2.1⟩
    rename {t ident kind} ht hk hne hshows := by
      have hlabel := hshows.labels hc
      obtain ⟨htaken, harranges, -, hnonterminal⟩ := h t ht
      have hbelow : ∀ c ∈ t.children, p.language.Admits taken
          ⟨{ t.data with ident := ident, kind := kind }, t.children⟩ c := by
        intro c hm
        cases harranges.here.below c hm with
        | stands h => exact .stands h
        | extra h hkind => exact .extra h hkind
        | stray hparent _ _ =>
            exact absurd hparent (kind_ne_errorSymbol hc harranges.here hnonterminal)
      refine ⟨every_arranges hlabel fun c hm => ⟨harranges.children c hm, hbelow c hm⟩, ?_⟩
      obtain rfl | ⟨-, hvisible⟩ := hlabel
      · obtain hlabel | ⟨hrenames, -⟩ := harranges.here.label
        · exact absurd hlabel hne
        · exact .inr ⟨htaken, rfl, hnonterminal, .inl hrenames⟩
      · exact .inl (isVisible_of_tables hvisible)
    setField ht := ⟨every_arranges_setData ht.1 rfl rfl, ht.2.congr rfl rfl⟩
    below ht := ⟨ht.1, fun _ _ => .stands ht.2⟩
    stray hs := ⟨every_arranges_nil (.inl rfl), fun _ hparent =>
      hs.elim (fun hs => .stray hparent rfl hs) fun hs => .stands (stands_error hs)⟩
    error hts := ⟨every_arranges (.inl rfl) fun c hm => ⟨(hts c hm).1, (hts c hm).2 _ rfl⟩,
      fun _ => .stands (stands_error rfl)⟩
    extra hkind := ⟨every_arranges_nil (.inl rfl), fun _ => .extra rfl hkind⟩
    top {t ident} ht := ⟨.inl (ht.2.congr rfl rfl), every_arranges_setData (t := t) ht.1 rfl rfl⟩
    wrap hrule hts := ⟨.inr hrule,
      every_arranges (.inl rfl) fun c hm => ⟨(hts c hm).1, .stands (hts c hm).2⟩⟩
    errorRoot hts := ⟨.inl (stands_error rfl),
      every_arranges (.inl rfl) fun c hm => ⟨(hts c hm).1, (hts c hm).2 _ rfl⟩⟩
    insert hg ht := ht.insertFloating hg.1 hg.2 _ _
    cover ht := ⟨ht.top, every_arranges_setData ht.inner rfl rfl⟩ }

end Language

/-- What a parse or an edit makes, where old trees are of the language that their handle tells. -/
inductive Tree.Coherent : Tree → Prop
  | parsed {g : Grammar} {scanner : Option Scanner} {handle : Nat} {l : Language} {old : Option Tree}
      (hl : Language.compile g scanner handle = .ok l) (hold : ∀ o ∈ old, Coherent o)
      (hhandle : ∀ o ∈ old, o.language.handle = l.handle → o.language = l) (text : List Char)
      (era : Nat) (order : KeyOrder) : Coherent (l.parse text old era order)
  | edited {t : Tree} (h : Coherent t) (e : Edit) (era : Nat) : Coherent (t.edit e era)

namespace Language

variable {g : Grammar} {scanner : Option Scanner} {handle : Nat} {l : Language} {old : Option Tree}

/-- Nothing about the parent is needed to tell how the node came to be there. -/
def Alone (l : Language) (t : Subtree) : Prop :=
  l.Stands true t ∨ l.tables.StartsWith t.kind ∨ t.isExtra = true ∨ t.children = []

theorem every_alone {taken : Bool} {t : Subtree} (h : Every (l.Arranges taken) t) (ht : l.Alone t) :
    Every l.Alone t := by
  induction h with
  | mk h _ ih =>
      refine .mk ht fun c hc => ih c hc ?_
      cases h.below c hc with
      | stands h => exact .inl h.mono
      | extra h _ => exact .inr (.inr (.inl h))
      | stray _ hleaf _ => exact .inr (.inr (.inr hleaf))

theorem kind?_of_isReusable {tables : Tables} {t : Subtree} (h : t.isReusable tables = true) :
    tables.kind? t.symbol = some .nonterminal := by
  rw [isReusable, Bool.and_eq_true] at h
  obtain ⟨info, hinfo, hk⟩ := (Option.any_eq_true _ _).1 h.2
  rw [Tables.kind?, hinfo, Option.map_some, beq_iff_eq.1 hk]

/-- What is taken over stands wherever it is put. -/
theorem Screens.of_mem_reusable {root t : Subtree} {taken : Bool} (h : l.Screens taken root)
    (ht : t ∈ root.reusable l.tables) : Every (l.Arranges true) t ∧ l.Stands true t ∧
      l.tables.kind? t.symbol = some .nonterminal := by
  have harranges := h.mono.inner.of_mem_reusable root t ht
  have halone := (every_alone h.inner (h.top.imp Stands.mono .inl)).of_mem_reusable root t ht
  have hreusable := isReusable_of_mem_reusable root ht
  have hkind := kind?_of_isReusable hreusable
  refine ⟨harranges, ?_, hkind⟩
  obtain hstands | hstart | hextra | hleaf := halone.here
  · exact hstands
  · obtain he | ⟨-, hvisible⟩ := harranges.here.label
    · exact .inr ⟨rfl, he, hkind, .inr (he ▸ hstart)⟩
    · exact .inl (isVisible_of_tables hvisible)
  · exact absurd (.inr (.inr hextra)) (not_fallow_of_isReusable hreusable)
  · exact absurd (.inl hleaf) (not_fallow_of_isReusable hreusable)

theorem screens_parse_of_screens (hl : Language.compile g scanner handle = .ok l)
    (hold : ∀ o ∈ old, o.language.Screens true o.root)
    (hhandle : ∀ o ∈ old, o.language.handle = l.handle → o.language = l) (text : List Char)
    (era : Nat) (order : KeyOrder) : l.Screens old.isSome (l.parse text old era order).root := by
  have hc := compile_closed hl
  have hoffers (o : Tree) (ho : o ∈ old) (t : Subtree)
      (ht : t ∈ (ParseInput.withOld l text o era).reusable) : old.isSome = true ∧
        Every (l.Arranges old.isSome) t ∧ l.Stands old.isSome t ∧
          l.tables.kind? t.symbol = some .nonterminal := by
    rw [Option.isSome_of_mem ho]
    have holds := hhandle o ho (handle_of_mem_withOld ht) ▸ hold o ho
    exact ⟨rfl, holds.of_mem_reusable (mem_of_mem_withOld ht)⟩
  exact stages_parse hl (stages_screens rfl hc fun t ht => absurd ht List.not_mem_nil)
    (fun o ho => stages_screens rfl hc (hoffers o ho)) order

end Language

theorem Tree.Coherent.arises {t : Tree} (h : t.Coherent) : t.Arises := by
  induction h with
  | parsed hl _ _ text era order ih => exact .parsed hl ih text era order
  | edited _ e era ih => exact .edited ih e era

theorem Tree.Coherent.screens {t : Tree} (h : t.Coherent) : t.language.Screens true t.root := by
  induction h with
  | parsed hl hold hhandle text era order ih =>
      rw [Language.language_parse]
      exact (Language.screens_parse_of_screens hl ih hhandle text era order).mono
  | edited _ e era ih => exact ih.edit e era

namespace Language

variable {g : Grammar} {scanner : Option Scanner} {handle : Nat} {l : Language} {old : Option Tree}

/-- No node of a parse result is of a hidden kind, but for tokens that float or that an error node
holds, a root that nothing else could be, and what was taken over from an old tree where that held it
under another name or as its root. Without errors, and where the tables let nothing hidden in, there
is none at all. -/
theorem screens_parse (hl : Language.compile g scanner handle = .ok l)
    (hold : ∀ o ∈ old, o.Coherent)
    (hhandle : ∀ o ∈ old, o.language.handle = l.handle → o.language = l) (text : List Char)
    (era : Nat) (order : KeyOrder) :
    l.Screens old.isSome (l.parse text old era order).root ∧
      (l.Bars old.isSome → (l.parse text old era order).root.hasError = false →
        Every (fun t => l.isVisible t.kind = true) (l.parse text old era order).root) := by
  have hscreens :=
    screens_parse_of_screens hl (fun o ho => (hold o ho).screens) hhandle text era order
  have harises : (l.parse text old era order).Arises :=
    .parsed hl (fun o ho => (hold o ho).arises) text era order
  exact ⟨hscreens, fun hbars => hscreens.visible hbars harises.flagged⟩

/-- A hidden pair, which is shown under another name before one of two marks. -/
def dressed : Grammar :=
  (({ name := "dressed" } : Grammar).define "dressed" (.oneOf [
      .seq [.renamedTo (.ref "_pair") "pair" true, .literal ";"],
      .seq [.ref "_pair", .literal "."]])).define "_pair" (.seq [.literal "a", .literal "b"])

theorem screens_parse_dressed : ∃ l e, Language.compile dressed none 0 = .ok l ∧
    Edit.replace? ['a', 'b', ' ', ';'] 3 4 ['.'] = some e ∧
    (l.reparse ['a', 'b', ' ', ';'] e ['a', 'b', ' ', '.']).reusable.length = 1 ∧
    ∀ order, l.Screens true (l.parse ['a', 'b', ' ', '.']
      (some ((l.parse ['a', 'b', ' ', ';'] none 0).edit e 1)) 2 order).root := by
  obtain ⟨l, e, hl, he, htest⟩ := exists_of_editedWith
    (show editedWith dressed none ['a', 'b', ' ', ';'] 3 4 ['.'] ['a', 'b', ' ', '.']
        (fun l e first _ => (ParseInput.withOld l ['a', 'b', ' ', '.'] (first.edit e 1) 2).reusable.length
          == 1) = true by decide +kernel)
  have hcoherent : ((l.parse ['a', 'b', ' ', ';'] none 0).edit e 1).Coherent :=
    .edited (.parsed hl (fun o ho => absurd ho (Option.not_mem_none o))
      (fun o ho => absurd ho (Option.not_mem_none o)) ['a', 'b', ' ', ';'] 0 .entered) e 1
  have hold : ∀ o ∈ some ((l.parse ['a', 'b', ' ', ';'] none 0).edit e 1), o.Coherent :=
    fun o ho => Option.some.inj ho ▸ hcoherent
  have hhandle : ∀ o ∈ some ((l.parse ['a', 'b', ' ', ';'] none 0).edit e 1),
      o.language.handle = l.handle → o.language = l := fun o ho _ => Option.some.inj ho ▸ rfl
  exact ⟨l, e, hl, he, beq_iff_eq.1 htest, fun order =>
    (screens_parse hl hold hhandle ['a', 'b', ' ', '.'] 2 order).1⟩

/-- The pair is taken over from where it has a name to where it has none, and is shown as itself.
Parsed afresh, the text has no node of a hidden kind. -/
theorem not_visible_parse_dressed : ∃ l e, Language.compile dressed none 0 = .ok l ∧
    Edit.replace? ['a', 'b', ' ', ';'] 3 4 ['.'] = some e ∧
    Every (fun t => l.isVisible t.kind = true) (l.parse ['a', 'b', ' ', '.'] none 2).root ∧
    ¬Every (fun t => l.isVisible t.kind = true) (l.parse ['a', 'b', ' ', '.']
      (some ((l.parse ['a', 'b', ' ', ';'] none 0).edit e 1)) 2).root := by
  obtain ⟨l, e, hl, he, htest⟩ := exists_of_editedWith
    (show editedWith dressed none ['a', 'b', ' ', ';'] 3 4 ['.'] ['a', 'b', ' ', '.']
        (fun l _ _ new =>
          ((l.parseFor 32 ['a', 'b', ' ', '.'] none 2).any fun t =>
            decide (Every (fun t => l.isVisible t.kind = true) t.root)) &&
          decide (¬Every (fun t => l.isVisible t.kind = true) new.root)) = true by decide +kernel)
  rw [Bool.and_eq_true, decide_eq_true_iff] at htest
  exact ⟨l, e, hl, he, of_decide_eq_true (parse_of_any htest.1), htest.2⟩

end Language

end EarleyTree

import EarleyTree.Proofs.Language.Closed
import EarleyTree.Proofs.Lexing.Scanning
import EarleyTree.Proofs.Parsing.Roots
import EarleyTree.Proofs.Parsing.Trace
import EarleyTree.Proofs.Tree.Every

/-!
Of what the tree of a text is built. What holds of leaves and subtrees taken over, and goes from
children to their parents, holds of the whole tree, however the parse went.
-/
namespace EarleyTree

open Text Subtree

/-- Whenever the action gives a result, it keeps the property of the memory, and the result has the
other one. -/
def Extract.Yields {α : Type} (I : Memory → Prop) (act : Extract α) (Q : α → Prop) : Prop :=
  ∀ m, I m → ∀ a m', act.run m = some (a, m') → I m' ∧ Q a

namespace Extract.Yields

variable {α β : Type} {I : Memory → Prop} {Q : α → Prop} {R : β → Prop}

theorem pure {a : α} (h : Q a) : Yields I (pure a) Q := by
  intro m hm b m' hr
  cases hr
  exact ⟨hm, h⟩

theorem bind {act : Extract α} {f : α → Extract β} (h : Yields I act Q)
    (hf : ∀ a, Q a → Yields I (f a) R) : Yields I (act >>= f) R := by
  intro m hm b m' hr
  rw [StateT.run_bind] at hr
  obtain ⟨⟨a, m₁⟩, ha, hb⟩ := Option.bind_eq_some_iff.1 hr
  obtain ⟨hm₁, hq⟩ := h m hm a m₁ ha
  exact hf a hq m₁ hm₁ b m' hb

theorem of_get {f : Memory → Extract β} (h : ∀ m, I m → Yields I (f m) R) :
    Yields I (get >>= f) R := fun m hm => h m hm m hm

theorem of_set {m' : Memory} {f : PUnit → Extract β} (hm' : I m') (h : Yields I (f ⟨⟩) R) :
    Yields I (set m' >>= f) R := fun _ _ => h m' hm'

end Extract.Yields

namespace Derivation

/-- A property of the subtrees that derivations are made into. New nodes are of kinds that show; what
is taken over is shown as its step says, whether that shows or not. -/
structure Builds (x : Derivation) (R : Subtree → Prop) : Prop where
  leaf : ∀ {ident symbol kind a b}, x.tables.isTerminal symbol = true → x.tables.Shows symbol kind →
    x.tables.isVisible kind = true → R (.leaf ident symbol kind (x.lines.span a b))
  node : ∀ {ident symbol kind a b ts}, symbol < x.tables.symbols.size →
    x.tables.isTerminal symbol = false → x.tables.Shows symbol kind →
    x.tables.isVisible kind = true → (∀ c ∈ ts, R c) →
    R (.node ident symbol kind (x.lines.span a b) ts)
  reused : ∀ {t}, .reused t ∈ x.units → R t
  rename : ∀ {t ident kind}, .reused t ∈ x.units → kind < x.tables.symbols.size →
    t.kind ≠ kind → x.tables.Shows t.symbol kind →
    R ⟨{ t.data with ident := ident, kind := kind }, t.children⟩
  setField : ∀ {t field}, R t → R (t.setField field)

variable {x : Derivation} {R : Subtree → Prop}

/-- All subtrees in the memory have the property. -/
def Recalls (R : Subtree → Prop) (m : Memory) : Prop :=
  ∀ s ts, (s, some ts) ∈ m.memo → ∀ c ∈ ts, R c

/-- All subtrees of the result have the property, if there is one. -/
def Throughout (R : Subtree → Prop) (r : Option (List Subtree)) : Prop := ∀ ts ∈ r, ∀ c ∈ ts, R c

open Extract

theorem freshIdent_yields : Yields (Recalls R) x.freshIdent fun _ => True :=
  .of_get fun _ hm => .of_set hm (.pure trivial)

theorem exists_span (x : Derivation) (i j : Nat) : ∃ a b, x.span i j = x.lines.span a b := by
  rw [span]
  split
  · split
    · exact ⟨_, _, rfl⟩
    · exact ⟨_, _, rfl⟩
  · exact ⟨_, _, rfl⟩

theorem throughout_none : Throughout R none := fun _ h => absurd h (Option.not_mem_none _)

theorem throughout_some {ts : List Subtree} (h : ∀ c ∈ ts, R c) : Throughout R (some ts) :=
  fun _ hts => Option.some.inj hts ▸ h

theorem firstSplit_yields {derive : Stretch → Extract (Option (List Subtree))} {step : Step}
    (hm : ∀ i j, Yields (Recalls R) (x.materialize derive step i j) (Throughout R)) (stop : Nat)
    (fits : Nat → Bool) (ks : List Nat) :
    Yields (Recalls R) (x.firstSplit derive step stop fits ks) fun r =>
      Throughout R (r.map Prod.snd) := by
  induction ks with
  | nil => exact .pure throughout_none
  | cons k ks ih =>
      rw [firstSplit]
      split
      · refine .bind (hm k stop) fun r hr => ?_
        split
        · exact .pure hr
        · exact ih
      · exact ih

theorem visible_of_isShown {step : Step} (hs : x.tables.Knows step) (h : x.isShown step = true) :
    x.tables.isVisible (step.newKind.getD step.symbol) = true := by
  rw [isShown] at h
  cases hk : step.newKind with
  | none => simpa [hk] using h
  | some k => exact hs.newKind k hk

theorem startsWith_startRule (ht : x.tables.WellFormed) : x.tables.StartsWith x.startRule := by
  obtain ⟨p, rule, hp, hsteps⟩ := ht.start
  rw [steps_startRule hp hsteps]
  exact ⟨p, hp, hsteps⟩

namespace Builds

variable (hx : x.Builds R)

include hx

theorem rename_yields {t : Subtree} (ht : .reused t ∈ x.units) {kind : Symbol}
    (hk : kind < x.tables.symbols.size) (hs : x.tables.Shows t.symbol kind) :
    Yields (Recalls R) (x.rename kind t) R := by
  rw [Derivation.rename]
  split
  · exact .pure (hx.reused ht)
  · next hne => exact .bind freshIdent_yields fun _ _ => .pure (hx.rename ht hk hne hs)

section

variable {derive : Stretch → Extract (Option (List Subtree))}
  (hd : ∀ s, Yields (Recalls R) (derive s) (Throughout R))

include hd

theorem materialize_yields {step : Step} (hs : x.tables.Knows step)
    (hl : x.tables.Shows step.symbol (step.newKind.getD step.symbol)) (i j : Nat) :
    Yields (Recalls R) (x.materialize derive step i j) (Throughout R) := by
  obtain ⟨a, b, hspan⟩ := x.exists_span i j
  rw [materialize]
  dsimp only
  split
  · next hterminal =>
      split
      · next hshown =>
          refine .bind freshIdent_yields fun ident _ => .pure (throughout_some ?_)
          rw [hspan]
          exact List.forall_mem_singleton.2
            (hx.setField (hx.leaf hterminal hl (visible_of_isShown hs hshown)))
      · exact .pure (throughout_some fun c hc => absurd hc List.not_mem_nil)
  · next hterminal =>
      have hterminal := Bool.eq_false_iff.2 hterminal
      refine .bind (hd _) fun r hr => ?_
      split
      · exact .pure throughout_none
      · next children =>
          have hchildren := hr _ rfl
          split
          · next hshown =>
              have hvisible := visible_of_isShown hs hshown
              refine .bind freshIdent_yields fun ident _ => .pure (throughout_some ?_)
              rw [hspan]
              exact List.forall_mem_singleton.2
                (hx.setField (hx.node hs.symbol hterminal hl hvisible hchildren))
          · exact .pure (throughout_some (List.forall_mem_map.2 fun c hc =>
              hx.setField (hchildren c hc)))

theorem deriveSteps_yields (production origin : Nat) {rev : List Step}
    (hrev : ∀ step ∈ rev, x.tables.Knows step ∧
      x.tables.Shows step.symbol (step.newKind.getD step.symbol)) (stop : Nat) {after : List Subtree}
    (ha : ∀ c ∈ after, R c) :
    Yields (Recalls R) (x.deriveSteps derive production origin rev stop after) (Throughout R) := by
  induction rev generalizing stop after with
  | nil =>
      rw [deriveSteps]
      split
      · exact .pure (throughout_some ha)
      · exact .pure throughout_none
  | cons step rev ih =>
      obtain ⟨⟨hstep, hshows⟩, hrev⟩ := List.forall_mem_cons.1 hrev
      rw [deriveSteps]
      dsimp only
      split
      · split
        · refine .bind (hx.materialize_yields hd hstep hshows (stop - 1) stop) fun r hr => ?_
          split
          · exact ih hrev _ (List.forall_mem_append.2 ⟨hr _ rfl, ha⟩)
          · exact .pure throughout_none
        · exact .pure throughout_none
      · split
        · next t ht =>
            obtain ⟨i, -, -, hu, hsymbol, -⟩ := reusedBefore_eq_some.1 ht
            refine .bind (hx.rename_yields (Array.mem_of_getElem? hu) hstep.kind_lt
              (hsymbol ▸ hshows)) fun t ht => ?_
            exact ih hrev _ (List.forall_mem_cons.2 ⟨hx.setField ht, ha⟩)
        · refine .bind (firstSplit_yields (hx.materialize_yields hd hstep hshows) _ _ _) fun r hr => ?_
          split
          · exact ih hrev _ (List.forall_mem_append.2 ⟨hr _ rfl, ha⟩)
          · exact .pure throughout_none

theorem firstProduction_yields (hc : x.tables.Closed) (s : Stretch) (ps : List Nat) :
    Yields (Recalls R) (x.firstProduction derive s ps) (Throughout R) := by
  induction ps with
  | nil => exact .pure throughout_none
  | cons p ps ih =>
      rw [firstProduction]
      refine .bind (hx.deriveSteps_yields hd p s.start (fun step hs => ?_) s.stop
        fun c hc => absurd hc List.not_mem_nil) fun r hr => ?_
      · have hs := List.mem_reverse.1 hs
        exact ⟨hc.knows_steps p step hs, .step hs⟩
      · split
        · exact .pure hr
        · exact ih

end

variable (hc : x.tables.Closed)

include hc

theorem derive_yields (depth : Nat) (active : List Stretch) (s : Stretch) :
    Yields (Recalls R) (x.derive depth active s) (Throughout R) := by
  induction depth generalizing active s with
  | zero => exact fun _ _ _ _ h => nomatch h
  | succ depth ih =>
      rw [derive]
      refine .of_get fun m hm => ?_
      split
      · next known hk => exact .pure fun ts hts => hm s ts (mem_of_lookup (hts ▸ hk))
      · split
        · exact .of_set hm (.pure throughout_none)
        · refine .bind (hx.firstProduction_yields (ih (s :: active)) hc s _) fun r hr => ?_
          refine .of_get fun m' hm' => ?_
          split
          · refine .of_set (fun s' ts hmem => ?_) (.pure hr)
            obtain he | hmem := List.mem_cons.1 hmem
            · exact hr ts (congrArg Prod.snd he).symm
            · exact hm' s' ts hmem
          · exact .pure hr

theorem deriveStretch_yields (s : Stretch) :
    Yields (Recalls R) (x.deriveStretch s) (Throughout R) :=
  hx.derive_yields hc x.depthBound [] s

theorem acceptedRoot_yields {P : Subtree → Prop}
    (htop : ∀ {t}, R t → P ((t.setIdent x.rootIdent).setField none))
    (hwrap : ∀ {a b ts}, (∀ c ∈ ts, R c) →
      P (.node x.rootIdent x.startRule x.startRule (x.lines.span a b) ts)) :
    Yields (Recalls R) x.acceptedRoot fun r => ∀ t ∈ r, P t := by
  obtain ⟨a, b, hspan⟩ := x.exists_span 0 x.units.size
  have hroot {entries : List Subtree} (h : ∀ c ∈ entries, R c) :
      P (.node x.rootIdent x.startRule x.startRule (x.span 0 x.units.size) entries) := by
    rw [hspan]
    exact hwrap h
  rw [acceptedRoot]
  refine .bind (hx.deriveStretch_yields hc _) fun r hr => ?_
  split
  · exact .pure fun _ h => absurd h (Option.not_mem_none _)
  · next t =>
      have htree := hr _ rfl
      split
      · exact .pure fun _ h => Option.some.inj h ▸ hroot htree
      · exact .pure fun _ h => Option.some.inj h ▸ htop (htree t List.mem_cons_self)
  · next entries _ => exact .pure fun _ h => Option.some.inj h ▸ hroot (hr _ rfl)

section

variable {E : Subtree → Prop} {order : KeyOrder}
  (hlong : ∀ {k j s}, x.longestFrom order k = some (j, s) → x.tables.Shows s s)
  (hbelow : ∀ {t}, R t → E t)
  (hstray : ∀ {ident t}, .token t ∈ x.units →
    E (.leaf ident t.symbol t.symbol (x.lines.span t.start t.stop)))

include hbelow hstray

omit hc hlong in
theorem unitLeaf_yields {u : InputUnit} (hu : u ∈ x.units) :
    Yields (Recalls R) (x.unitLeaf u) E := by
  cases u with
  | token t => exact .bind freshIdent_yields fun _ _ => .pure (hstray hu)
  | reused t => exact .pure (hbelow (hx.setField (hx.reused hu)))

include hlong

theorem fragments_yields (fuel k : Nat) :
    Yields (Recalls R) (x.fragments order fuel k) fun ts => ∀ c ∈ ts, E c := by
  induction fuel generalizing k with
  | zero => exact .pure fun c hc => absurd hc List.not_mem_nil
  | succ fuel ih =>
      rw [fragments]
      split
      · exact .pure fun c hc => absurd hc List.not_mem_nil
      · next u hu =>
          have hsingle : Yields (Recalls R)
              (do return (← x.unitLeaf u) :: (← x.fragments order fuel (k + 1)))
              fun ts => ∀ c ∈ ts, E c :=
            .bind (hx.unitLeaf_yields hbelow hstray (Array.mem_of_getElem? hu)) fun t ht =>
              .bind (ih _) fun us hus => .pure (List.forall_mem_cons.2 ⟨ht, hus⟩)
          cases hfrom : x.longestFrom order k with
          | none => exact hsingle
          | some r =>
              obtain ⟨stop, s⟩ := r
              have hknows : x.tables.Knows { symbol := s } :=
                .of_symbol (Tables.lt_size_of_any (longestFrom_eq_some hfrom).2.1)
              refine .bind (hx.materialize_yields (hx.deriveStretch_yields hc) hknows (hlong hfrom) k
                stop) fun r hr => ?_
              rcases r with - | - | ⟨t, ts⟩
              · exact hsingle
              · exact hsingle
              · have hrest : Yields (Recalls R)
                    (do return (t :: ts) ++ (← x.fragments order fuel stop)) fun ts => ∀ c ∈ ts, E c :=
                  .bind (ih _) fun us hus => .pure
                    (List.forall_mem_append.2 ⟨fun c hc => hbelow (hr _ rfl c hc), hus⟩)
                exact hrest

theorem errorRoot_yields {P : Subtree → Prop} (herror : ∀ {ident a b ts}, (∀ c ∈ ts, E c) →
      P (.node ident errorSymbol errorSymbol (x.lines.span a b) ts)) :
    Yields (Recalls R) (x.errorRoot order) P := by
  obtain ⟨a, b, hspan⟩ := x.exists_span 0 x.units.size
  refine .bind (hx.fragments_yields hc hlong hbelow hstray _ 0) fun ts hts => .pure ?_
  rw [hspan]
  exact herror hts

end

end Builds

end Derivation

/-- The properties that subtrees have as a tree is put together: those in derivations, those below an
error node, the extras and errors, and the trees that these are put into. -/
structure ParseInput.Stages (p : ParseInput) (R E G P : Subtree → Prop) : Prop where
  leaf : ∀ {ident symbol kind a b}, p.tables.isTerminal symbol = true → p.tables.Shows symbol kind →
    p.tables.isVisible kind = true → R (.leaf ident symbol kind (p.lines.span a b))
  node : ∀ {ident symbol kind a b ts}, symbol < p.tables.symbols.size →
    p.tables.isTerminal symbol = false → p.tables.Shows symbol kind →
    p.tables.isVisible kind = true → (∀ c ∈ ts, R c) →
    R (.node ident symbol kind (p.lines.span a b) ts)
  reused : ∀ {t}, t ∈ p.reusable → R t
  rename : ∀ {t ident kind}, t ∈ p.reusable → kind < p.tables.symbols.size →
    t.kind ≠ kind → p.tables.Shows t.symbol kind →
    R ⟨{ t.data with ident := ident, kind := kind }, t.children⟩
  setField : ∀ {t field}, R t → R (t.setField field)
  below : ∀ {t}, R t → E t
  stray : ∀ {ident symbol a b}, p.tables.isTerminal symbol = true ∨ symbol = errorSymbol →
    E (.leaf ident symbol symbol (p.lines.span a b))
  error : ∀ {ident a b ts}, (∀ c ∈ ts, E c) →
    G (.node ident errorSymbol errorSymbol (p.lines.span a b) ts)
  extra : ∀ {ident kind a b}, (∃ e ∈ p.tables.extraTokens, kind = e.2.getD e.1) →
    let t := Subtree.leaf ident kind kind (p.lines.span a b)
    G { t with data := { t.data with isExtra := true } }
  top : ∀ {t ident}, R t → P ((t.setIdent ident).setField none)
  wrap : ∀ {ident rule a b ts}, p.tables.StartsWith rule → (∀ c ∈ ts, R c) →
    P (.node ident rule rule (p.lines.span a b) ts)
  errorRoot : ∀ {ident a b ts}, (∀ c ∈ ts, E c) →
    P (.node ident errorSymbol errorSymbol (p.lines.span a b) ts)
  insert : ∀ {g t trail}, G g → P t → P (Subtree.insertFloating g p.era trail t)
  cover : ∀ {t}, P t → P t.coverChildren

/-- A property of all subtrees that a parse puts together. The kind of a node is its symbol, or both
are symbols of the grammar. -/
structure ParseInput.Builds (p : ParseInput) (R : Subtree → Prop) : Prop where
  leaf : ∀ {ident symbol kind a b}, (symbol = errorSymbol ↔ kind = errorSymbol) →
    R (.leaf ident symbol kind (p.lines.span a b))
  node : ∀ {ident symbol kind a b ts}, (symbol = errorSymbol ↔ kind = errorSymbol) →
    (∀ c ∈ ts, R c) → R (.node ident symbol kind (p.lines.span a b) ts)
  extra : ∀ {t}, R t → R { t with data := { t.data with isExtra := true } }
  reused : ∀ {t}, t ∈ p.reusable → R t
  rename : ∀ {t ident kind}, t ∈ p.reusable → kind ≠ errorSymbol →
    R ⟨{ t.data with ident := ident, kind := kind }, t.children⟩
  setIdent : ∀ {t ident}, R t → R (t.setIdent ident)
  setField : ∀ {t field}, R t → R (t.setField field)
  insert : ∀ {g t trail}, R g → R t → R (Subtree.insertFloating g p.era trail t)
  cover : ∀ {t}, R t → R t.coverChildren

theorem ParseInput.Builds.stages {p : ParseInput} {R : Subtree → Prop} (hp : p.Builds R)
    (hc : p.tables.Closed) : p.Stages R R R R := by
  have hsame {s k : Symbol} (hs : s < p.tables.symbols.size)
      (hk : p.tables.isVisible k = true) : s = errorSymbol ↔ k = errorSymbol :=
    iff_of_false (hc.ne_errorSymbol hs) (hc.ne_errorSymbol (Tables.lt_size_of_any hk))
  exact {
    leaf := fun hs _ hk => hp.leaf (hsame (Tables.lt_size_of_any hs) hk)
    node := fun hs _ _ hk => hp.node (hsame hs hk)
    reused := hp.reused
    rename := fun ht hk _ _ => hp.rename ht (hc.ne_errorSymbol hk)
    setField := hp.setField
    below := id
    stray := fun _ => hp.leaf Iff.rfl
    error := hp.node Iff.rfl
    extra := fun _ => hp.extra (hp.leaf Iff.rfl)
    top := fun h => hp.setField (hp.setIdent h)
    wrap := fun _ => hp.node Iff.rfl
    errorRoot := hp.node Iff.rfl
    insert := hp.insert
    cover := hp.cover }

/-- What depends on the places and the marks of nodes alone is so built. -/
theorem ParseInput.builds_of_data {p : ParseInput} {P : NodeData → Prop}
    (hmade : ∀ (d : NodeData) (a b : Nat), d.span = p.lines.span a b → d.hasChanges = false → P d)
    (hkept : ∀ d d' : NodeData, d'.span = d.span → d'.hasChanges = d.hasChanges → P d → P d')
    (hcover : ∀ t : Subtree, Every (fun t => P t.data) t → P t.coverChildren.data)
    (hreused : ∀ t ∈ p.reusable, Every (fun t => P t.data) t) :
    p.Builds (Every fun t => P t.data) where
  leaf _ := .mk (hmade _ _ _ rfl rfl) fun _ hc => absurd hc List.not_mem_nil
  node _ hts := .mk (hmade _ _ _ rfl rfl) hts
  extra {t} ht := ht.setData (hkept t.data _ rfl rfl ht.here)
  reused ht := hreused _ ht
  rename {t} _ _ ht _ := (hreused t ht).setData (hkept t.data _ rfl rfl (hreused t ht).here)
  setIdent {t} _ ht := ht.setData (hkept t.data _ rfl rfl ht.here)
  setField {t} _ ht := ht.setData (hkept t.data _ rfl rfl ht.here)
  insert hg ht := every_insertFloating hkept hg _ _ ht
  cover ht := .mk (hcover _ ht) ht.children

namespace ParseState

variable {p : ParseInput} {st st' : ParseState} {R E G P : Subtree → Prop}

/-- What is longest from somewhere on is on the left of a production. -/
theorem Consistent.shows_of_longestFrom (h : st.Consistent p) (order : KeyOrder) {k j : Nat}
    {s : Symbol} (hs : (st.derivation p).longestFrom order k = some (j, s)) :
    p.tables.Shows s s := by
  obtain ⟨-, -, hcompletes⟩ := Derivation.longestFrom_eq_some hs
  obtain ⟨item, hi, -, -, rfl⟩ := ItemSet.completes_iff.1 hcompletes
  exact .lhs (h.item_sound hi).production

/-- All extras and errors so far have the property. -/
def Floats (G : Subtree → Prop) (st : ParseState) : Prop := ∀ g ∈ st.floating, G g

section

variable (hp : p.Stages R E G P)

include hp

theorem derivation_builds (hu : UnitKinds p st.units) : (st.derivation p).Builds R where
  leaf := hp.leaf
  node := hp.node
  reused ht := hp.reused (hu _ ht).2
  rename ht := hp.rename (hu _ ht).2
  setField := hp.setField

theorem Floats.pushExtras {ts : List Token} (hts : ∀ t ∈ ts, p.lexer.IsExtra t) (h : st.Floats G) :
    (ts.foldl (pushExtra p) st).Floats G := by
  induction ts generalizing st with
  | nil => exact h
  | cons t ts ih =>
      obtain ⟨ht, hts⟩ := List.forall_mem_cons.1 hts
      refine ih hts fun g hg => ?_
      obtain hg | rfl := Array.mem_push.1 hg
      · exact h g hg
      · exact hp.extra ht.exists_mem

theorem Floats.opened (h : st.Floats G) : (st.opened p).1.Floats G := by
  have hstate {saved : Saved} {chart : Chart} :
      Floats G { st with saved := saved, chart := chart } := h
  rw [ParseState.opened, passExtras]
  exact fun g hg => hstate.pushExtras hp (p.lexer.skipFrom_isExtra _ _ _ _ _) g hg

/-- The skipped tokens are terminals, or single characters that are none. -/
def SkippedKinds (p : ParseInput) (st : ParseState) : Prop :=
  ∀ t ∈ st.skipped, p.tables.isTerminal t.symbol = true ∨ t.symbol = errorSymbol

theorem Floats.flushSkipped (hs : st.SkippedKinds p) (h : st.Floats G) :
    (st.flushSkipped p).Floats G := by
  rw [ParseState.flushSkipped]
  split
  · intro g hg
    obtain hg | rfl := Array.mem_push.1 hg
    · exact h g hg
    · refine hp.error fun c hc => ?_
      obtain ⟨i, hi, rfl⟩ := List.mem_mapIdx.1 hc
      exact hp.stray (hs _ (by simp))
  · exact h

theorem Floats.step (hk : st.SkippedKinds p) (h : st.Floats G)
    (hs : st.step p = .more st' ∨ st.step p = .finished st') : st'.Floats G := by
  obtain ⟨st₁, hfloating, hskipped, he⟩ := step_floating hs
  have hfloats : st₁.Floats G := by
    rw [Floats, hfloating]
    exact h.opened hp
  have hkinds : st₁.SkippedKinds p := by
    rw [SkippedKinds, hskipped]
    exact hk
  obtain he | he := he
  · rw [Floats, he]
    exact hfloats
  · rw [Floats, he]
    exact hfloats.flushSkipped hp hkinds

omit hp in
theorem SkippedKinds.step (ht : p.tables.WellFormed) (h : st.SkippedKinds p)
    (hs : st.step p = .more st') : st'.SkippedKinds p := by
  have hl := step_leads (p := p) st
  rw [hs] at hl
  cases hl with
  | unit _ _ _ _ hskipped =>
      rw [SkippedKinds, hskipped]
      exact fun t hm => absurd hm (Array.not_mem_empty t)
  | skip htaken _ _ _ hskipped =>
      intro t hm
      rw [hskipped] at hm
      obtain hm | rfl := Array.mem_push.1 hm
      · exact h t hm
      · exact nextToken_symbol ht (taken_next htaken (.inr rfl))

theorem Ends.floats (ht : p.tables.WellFormed) (h : Ends p st) : st.Floats G := by
  have hvisits {st : ParseState} (h : Visits p st) : st.Floats G ∧ st.SkippedKinds p := by
    induction h with
    | initial =>
        exact ⟨fun g hg => absurd hg (Array.not_mem_empty g),
          fun t hm => absurd hm (Array.not_mem_empty t)⟩
    | step _ hs ih => exact ⟨ih.1.step hp ih.2 (.inl hs), ih.2.step ht hs⟩
  obtain ⟨st₁, hv, hs⟩ := h
  exact (hvisits hv).1.step hp (hvisits hv).2 (.inr hs)

theorem insertAll_builds {gs : List Subtree} (hgs : ∀ g ∈ gs, G g) {root : Subtree} (hr : P root)
    (n : Nat) : P ((gs.zipIdx n).foldl
      (fun root (g, n) => Subtree.insertFloating g p.era [n, 2] root) root) := by
  induction gs generalizing root n with
  | nil => exact hr
  | cons g gs ih =>
      obtain ⟨hg, hgs⟩ := List.forall_mem_cons.1 hgs
      exact ih hgs (hp.insert hg hr) (n + 1)

theorem finish_builds (h : st.Floats G) {root : Subtree} (hr : P root) : P (st.finish p root) :=
  hp.cover (insertAll_builds hp (fun g hg => h g (Array.mem_toList_iff.1 hg)) hr 0)

variable (hc : p.tables.Closed) (ht : p.tables.WellFormed)

include hc ht

theorem acceptedRoot?_builds (hu : UnitKinds p st.units) {r : Option Subtree} {m : Memory}
    (hr : st.acceptedRoot? p = some (r, m)) : Derivation.Recalls R m ∧ ∀ t ∈ r, P t := by
  have hrule : p.tables.StartsWith (st.derivation p).startRule :=
    Derivation.startsWith_startRule (x := st.derivation p) ht
  rw [acceptedRoot?] at hr
  have hnil : Derivation.Recalls R {} := fun _ _ hm => absurd hm List.not_mem_nil
  split at hr
  · exact (derivation_builds hp hu).acceptedRoot_yields hc hp.top (hp.wrap hrule) {} hnil _ _ hr
  · cases hr
    exact ⟨hnil, fun _ hm => absurd hm (Option.not_mem_none _)⟩

end

end ParseState

namespace ParseInput.Stages

open ParseState

variable {p : ParseInput} {R E G P : Subtree → Prop} (hp : p.Stages R E G P)
  (hc : p.tables.Closed) (ht : p.tables.WellFormed)

include hp hc ht

theorem tree (order : KeyOrder) : P (p.tree order) := by
  have hstate : (p.final?.getD (initial p)).Consistent p ∧ (p.final?.getD (initial p)).Floats G := by
    cases hf : p.final? with
    | none => exact ⟨Visits.initial.consistent ht, fun g hg => absurd hg (Array.not_mem_empty g)⟩
    | some st =>
        have hends := final?_eq_some.1 hf
        exact ⟨hends.consistent ht, hends.floats hp ht⟩
  obtain ⟨hconsistent, hf⟩ := hstate
  rw [ParseInput.tree, ParseState.tree]
  dsimp only
  generalize p.final?.getD (initial p) = st at hconsistent hf
  have hu := hconsistent.kinds
  have hroot : Derivation.Recalls R ((st.acceptedRoot? p).getD (none, {})).2 ∧
      ∀ t ∈ ((st.acceptedRoot? p).getD (none, {})).1, P t := by
    cases hr : st.acceptedRoot? p with
    | none =>
        exact ⟨fun _ _ hm => absurd hm List.not_mem_nil, fun _ h => absurd h (Option.not_mem_none _)⟩
    | some r => exact acceptedRoot?_builds hp hc ht hu hr
  obtain ⟨hm, hroot⟩ := hroot
  have herrors := (derivation_builds hp hu).errorRoot_yields hc
    (hconsistent.shows_of_longestFrom order) hp.below (fun ht => hp.stray (.inl (hu _ ht)))
    hp.errorRoot _ hm
  split
  · next root he => exact finish_builds hp hf (hroot root he)
  · split
    · next root m he => exact finish_builds hp hf (herrors root m he).2
    · obtain ⟨a, b, hspan⟩ := (st.derivation p).exists_span 0 0
      rw [hspan]
      exact hp.errorRoot fun c hc => absurd hc List.not_mem_nil

theorem finish {st : ParseState} (h : Ends p st) {root : Subtree} {m : Memory}
    (hr : st.acceptedRoot? p = some (some root, m)) : P (st.finish p root) :=
  finish_builds hp (h.floats hp ht)
    ((acceptedRoot?_builds hp hc ht (h.consistent ht).kinds hr).2 root rfl)

end ParseInput.Stages

/-- What subtrees come to have at the last stage, afresh or with an old tree, holds of every parse
result. -/
theorem Language.stages_parse {g : Grammar} {scanner : Option Scanner} {handle era : Nat}
    {l : Language} {text : List Char} {old : Option Tree} {R E G R' E' G' P : Subtree → Prop}
    (hl : Language.compile g scanner handle = .ok l)
    (hfresh : (ParseInput.fresh l text era).Stages R E G P)
    (hold : ∀ o ∈ old, (ParseInput.withOld l text o era).Stages R' E' G' P)
    (order : KeyOrder) : P (l.parse text old era order).root := by
  have hc := compile_closed hl
  have ht := compile_wellFormed hl
  cases old with
  | none => exact hfresh.tree hc ht order
  | some o =>
      obtain heq | ⟨st, root, m, hst, hr, heq⟩ := parse_withOld l text o era order
      · rw [heq]
        exact hfresh.tree hc ht order
      · rw [heq]
        exact (hold o rfl).finish hc ht hst hr

/-- A property that goes from what is taken over, and from children to their parents, to what is put
together holds of every parse result. -/
theorem Language.builds_parse {g : Grammar} {scanner : Option Scanner} {handle era : Nat}
    {l : Language} {text : List Char} {old : Option Tree} {R : Subtree → Prop}
    (hl : Language.compile g scanner handle = .ok l) (hfresh : (ParseInput.fresh l text era).Builds R)
    (hold : ∀ o ∈ old, (ParseInput.withOld l text o era).Builds R)
    (order : KeyOrder) : R (l.parse text old era order).root :=
  stages_parse hl (hfresh.stages (compile_closed hl))
    (fun o ho => (hold o ho).stages (compile_closed hl)) order

end EarleyTree

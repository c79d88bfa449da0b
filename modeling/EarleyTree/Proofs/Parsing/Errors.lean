import EarleyTree.CommandLine
import EarleyTree.Proofs.Parsing.Building
import EarleyTree.Proofs.Parsing.Edits
import EarleyTree.Proofs.Parsing.Trace
import EarleyTree.Proofs.Tree.Errors

/-!
When a tree bears an error flag: the flags of its nodes are those that the error nodes call for,
whatever parses and edits it went through, and the root bears one just if its parse went astray.
-/
namespace EarleyTree

open Text Subtree

namespace Floating

theorem hasError_node (lines : Lines) (t : Tables) (hc : t.Closed) {f : Floating}
    (hf : ∀ e ∈ f.extra?, e.wrapper.getD e.symbol < t.symbols.size) :
    (f.node lines).hasError = false ↔ f.skipped = [] := by
  cases f with
  | extra e => exact iff_of_true (beq_eq_false_iff_ne.2 (hc.ne_errorSymbol (hf e rfl))) rfl
  | error ts h => exact iff_of_false Bool.noConfusion h

end Floating

namespace ParseState

variable {p : ParseInput} {st : ParseState} {es : List Event}

theorem filterMap_extra?_events (st : ParseState) :
    (st.events p).filterMap Event.extra? = st.passed p := by
  have htaken : (st.taken p).toList.filterMap Event.extra? = [] := by
    rw [List.filterMap_eq_nil_iff]
    intro e he
    obtain ⟨_, -, -, rfl⟩ | ⟨_, -, rfl | rfl⟩ := taken_eq_some (Option.mem_toList.1 he) <;> rfl
  rw [events, List.filterMap_append, htaken, List.append_nil, List.filterMap_map]
  exact List.filterMap_some

theorem EndsWith.extra_kind (hc : p.tables.Closed) (ht : p.tables.WellFormed)
    (h : EndsWith p st es) :
    ∀ t ∈ es.filterMap Event.extra?, t.wrapper.getD t.symbol < p.tables.symbols.size := by
  have hpassed (st : ParseState) :
      ∀ t ∈ st.passed p, t.wrapper.getD t.symbol < p.tables.symbols.size := by
    intro t hm
    have hextra := p.lexer.skipFrom_isExtra _ _ _ _ _ t hm
    rw [hextra.wrapper]
    exact hc.wrapper?_getD_lt (Tables.lt_size_of_any (hextra.isTerminal ht))
  obtain ⟨st₁, es₁, htraces, -, rfl⟩ := h
  rw [List.filterMap_append, filterMap_extra?_events]
  refine List.forall_mem_append.2 ⟨?_, hpassed st₁⟩
  induction htraces with
  | initial => exact fun t hm => absurd hm List.not_mem_nil
  | more _ _ ih =>
      rw [List.filterMap_append, filterMap_extra?_events]
      exact List.forall_mem_append.2 ⟨ih, hpassed _⟩

/-- What floats is free of errors if no token was skipped. -/
theorem EndsWith.any_hasError_floats (hc : p.tables.Closed) (ht : p.tables.WellFormed)
    (h : EndsWith p st es) :
    st.floats.any (·.hasError) = false ↔ es.filterMap Event.skip? = [] := by
  obtain ⟨fs, hrecords, hskipped⟩ := h.exists_records
  have hkind := h.extra_kind hc ht
  rw [← hrecords.extras] at hkind
  rw [hrecords.floats, ← hskipped, List.any_eq_false, List.flatMap_eq_nil_iff, List.forall_mem_map]
  refine forall₂_congr fun f hf => ?_
  rw [Bool.not_eq_true]
  exact Floating.hasError_node p.lines p.tables hc fun e he =>
    hkind e (List.mem_filterMap.2 ⟨f, hf, he⟩)

theorem hasError_finish (p : ParseInput) (st : ParseState) (root : Subtree) :
    (st.finish p root).hasError = (root.hasError || st.floats.any (·.hasError)) := by
  rw [← hasError_skeleton, skeleton_finish, ← hasError_skeleton root]
  rcases root.skeleton with ⟨data, ts⟩
  rw [fill_mk]
  rfl

theorem hasError_acceptedRoot (hc : p.tables.Closed) (ht : p.tables.WellFormed)
    (hu : UnitKinds p st.units) (hr : ∀ t ∈ p.reusable, t.hasError = false) {root : Subtree}
    {m : Memory} (h : st.acceptedRoot? p = some (some root, m)) : root.hasError = false := by
  have hnode {s : Symbol} {ts : List Subtree} (hs : s < p.tables.symbols.size)
      (hts : ∀ c ∈ ts, c.hasError = false) : (s == errorSymbol || ts.any (·.hasError)) = false :=
    Bool.or_eq_false_iff.2 ⟨beq_eq_false_iff_ne.2 (hc.ne_errorSymbol hs),
      List.any_eq_false.2 fun c hm => Bool.eq_false_iff.1 (hts c hm)⟩
  have hbuilds : (st.derivation p).Builds fun t => t.hasError = false := {
    leaf := fun hs _ _ => beq_eq_false_iff_ne.2 (hc.ne_errorSymbol (Tables.lt_size_of_any hs))
    node := fun hs _ _ _ => hnode hs
    reused := fun ht => hr _ (hu _ ht).2
    rename := fun {t} _ _ ht _ _ _ => (hr t (hu _ ht).2 : t.hasError = false)
    setField := id }
  have hrule : (st.derivation p).startRule < p.tables.symbols.size :=
    Tables.StartsWith.lt_size (Derivation.startsWith_startRule (x := st.derivation p) ht) hc
  rw [acceptedRoot?] at h
  split at h
  · refine (hbuilds.acceptedRoot_yields (P := fun t => t.hasError = false) hc id (hnode hrule) {}
      (fun _ _ hm => absurd hm List.not_mem_nil) _ _ h).2 root rfl
  · cases h

theorem hasError_errorRoot (x : Derivation) {order : KeyOrder} {m m' : Memory} {root : Subtree}
    (h : (x.errorRoot order).run m = some (root, m')) : root.hasError = true := by
  rw [Derivation.errorRoot, StateT.run_bind] at h
  obtain ⟨_, -, h⟩ := Option.bind_eq_some_iff.1 h
  cases h
  rfl

theorem hasError_root (hc : p.tables.Closed) (ht : p.tables.WellFormed) (hu : UnitKinds p st.units)
    (hr : ∀ t ∈ p.reusable, t.hasError = false) (order : KeyOrder) :
    (st.root p order).hasError = false ↔ ∃ root m, st.acceptedRoot? p = some (some root, m) := by
  have herror (m : Memory) : (((((st.derivation p).errorRoot order).run m).map
      fun r : Subtree × Memory => r.1).getD (.node (st.derivation p).rootIdent errorSymbol errorSymbol
        ((st.derivation p).span 0 0) [])).hasError = true := by
    cases he : ((st.derivation p).errorRoot order).run m with
    | none => rfl
    | some r => exact hasError_errorRoot _ he
  rw [ParseState.root]
  rcases hroot : st.acceptedRoot? p with _ | ⟨_ | root, m⟩
  · exact iff_of_false (fun h => Bool.noConfusion ((herror {}).symm.trans h)) (by simp)
  · exact iff_of_false (fun h => Bool.noConfusion ((herror m).symm.trans h)) (by simp)
  · exact iff_of_true (hasError_acceptedRoot hc ht hu hr hroot) ⟨root, m, rfl⟩

/-- The tree of a text is free of errors if its parse skipped no token and came to a derivation. -/
theorem EndsWith.hasError_tree (hc : p.tables.Closed) (ht : p.tables.WellFormed)
    (hr : ∀ t ∈ p.reusable, t.isExtra = false ∧ t.hasError = false) (h : EndsWith p st es)
    (order : KeyOrder) : (st.tree p order).hasError = false ↔ es.filterMap Event.skip? = [] ∧
      ∃ root m, st.acceptedRoot? p = some (some root, m) ∧ st.tree p order = st.finish p root := by
  obtain ⟨htree, -⟩ := h.ends.tree_eq ht (fun t hm => (hr t hm).1) order
  have hroot := hasError_root hc ht (h.ends.consistent ht).kinds (fun t hm => (hr t hm).2) order
  rw [htree, hasError_finish, Bool.or_eq_false_iff, hroot, h.any_hasError_floats hc ht, and_comm]
  refine and_congr_right fun _ => exists₂_congr fun root m => ?_
  refine ⟨fun hacc => ⟨hacc, ?_⟩, And.left⟩
  rw [ParseState.root, hacc]
  rfl

theorem not_accepts_initial (ht : p.tables.WellFormed) :
    (initial p).chart.accepts p.tables = false := by
  rw [← Bool.not_eq_true, Chart.accepts, ItemSet.completes_iff]
  rintro ⟨item, hm, -, hcomplete, -⟩
  obtain hm | hm := ItemSet.mem_addAll.1 hm
  · exact ItemSet.not_mem_empty hm
  · obtain ⟨q, hq, rfl⟩ := List.mem_map.1 hm
    obtain ⟨q', rule, hstart, hsteps⟩ := ht.start
    obtain rfl : q = q' := List.mem_singleton.1 (hstart ▸ hq)
    rw [Item.isComplete, Item.nextStep?, hsteps] at hcomplete
    cases hcomplete

/-- A parse that does not come to its end leaves an error: nothing is complete before the first unit. -/
theorem exists_ends_of_hasError_eq_false (ht : p.tables.WellFormed) (order : KeyOrder)
    (h : (p.tree order).hasError = false) : ∃ st, Ends p st := by
  cases hfinal : p.final? with
  | some st => exact ⟨st, final?_eq_some.1 hfinal⟩
  | none =>
      have hroot : (initial p).acceptedRoot? p = some (none, {}) := by
        rw [acceptedRoot?, not_accepts_initial ht]
        rfl
      simp only [ParseInput.tree, tree, hfinal, Option.getD_none, hroot, Option.getD_some] at h
      split at h
      · next root m hrun =>
          rw [hasError_finish, hasError_errorRoot _ hrun] at h
          cases h
      · cases h

end ParseState

/-- What a parse or an edit makes, of whatever language the trees before were. -/
inductive Tree.Arises : Tree → Prop
  | parsed {g : Grammar} {scanner : Option Scanner} {handle : Nat} {l : Language} {old : Option Tree}
      (hl : Language.compile g scanner handle = .ok l) (hold : ∀ o ∈ old, Arises o)
      (text : List Char) (era : Nat) (order : KeyOrder) : Arises (l.parse text old era order)
  | edited {t : Tree} (h : Arises t) (e : Edit) (era : Nat) : Arises (t.edit e era)

namespace ParseInput

variable {p : ParseInput} {l : Language} {text : List Char} {era : Nat}

theorem builds_flagged (h : ∀ t ∈ p.reusable, Every Flagged t ∧ t.hasError = false) :
    p.Builds (Every Flagged) where
  leaf he := .mk (flagged_leaf he) fun c hc => absurd hc List.not_mem_nil
  node he hts := .mk (flagged_node he) hts
  extra ht := ht.setData ht.here
  reused ht := (h _ ht).1
  rename {t ident kind} ht hk := by
    obtain ⟨hflagged, herror⟩ := h t ht
    have hchildren := Bool.or_eq_false_iff.1 (hflagged.here.symm.trans herror)
    refine hflagged.setData ?_
    show t.hasError = (kind == errorSymbol || t.children.any (·.hasError))
    rw [herror, hchildren.2, beq_eq_false_iff_ne.2 hk]
    rfl
  setIdent ht := ht.setData ht.here
  setField ht := ht.setData ht.here
  insert hg ht := every_flagged_insertFloating hg ht _ _
  cover ht := ht.setData ht.here

end ParseInput

theorem Tree.Arises.flagged {t : Tree} (h : t.Arises) : Every Flagged t.root := by
  induction h with
  | parsed hl hold text era order ih =>
      refine Language.builds_parse hl
        (ParseInput.builds_flagged fun t ht => absurd ht List.not_mem_nil) (fun o ho =>
          ParseInput.builds_flagged fun t ht => ?_) order
      exact ⟨(ih o ho).of_mem_reusable _ t (Language.mem_of_mem_withOld ht),
        (Language.isReusable_of_mem_withOld ht).2⟩
  | edited _ e era ih => exact every_flagged_edit e era [] ih

namespace CommandLine

variable {readFile : String → Id (Except FileError (List Nat))}

end CommandLine

open ParseInput ParseState

end EarleyTree

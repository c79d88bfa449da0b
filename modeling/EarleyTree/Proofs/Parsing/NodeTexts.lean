import EarleyTree.Proofs.Checked.Parser
import EarleyTree.Proofs.Lexing.Partition
import EarleyTree.Proofs.Parsing.Errors
import EarleyTree.Proofs.Parsing.ReusedText
import EarleyTree.Proofs.Text.Decoding

/-!
The texts of nodes. Tokens begin and end between two characters, and the ends of nodes are ends of
tokens, so each node has a text of its own, and its rows and columns are counted in the text before.
-/
namespace EarleyTree

open Text

/-- Both places lie between two characters of the text. -/
structure Text.Aligned (text : List Char) (start stop : Nat) : Prop where
  start : isBoundary text start = true
  stop : isBoundary text stop = true

namespace Lexer

variable {lx : Lexer} {saved : Saved} {position last : Nat} {passed passed' : Bool} {token : Token}
  {tokens : List (Token × Bool)}

theorem Cuts.aligned (hf : lx.Proper) (hp : Text.isBoundary lx.text position = true)
    (h : lx.Cuts position passed tokens last passed') :
    ∀ t ∈ tokens, Aligned lx.text t.1.start t.1.stop := by
  induction h with
  | nil => exact fun t ht => absurd ht List.not_mem_nil
  | cons hc _ ih =>
      have hnext := hc.isBoundary hf hp
      refine List.forall_mem_append.2 ⟨fun t ht => ?_, ih hnext⟩
      have ht := Option.mem_toList.1 ht
      obtain ⟨-, -, hstop⟩ := (hc.bounds hf.forward).2 t ht
      exact ⟨hc.isBoundary_start hf hp t ht, hstop ▸ hnext⟩

theorem Finds.aligned (hf : lx.Proper) (hp : Text.isBoundary lx.text position = true)
    (h : lx.Finds saved position token) : Aligned lx.text token.start token.stop := by
  refine ⟨?_, h.isBoundary hf hp⟩
  cases h with
  | external h _ hstart => exact hstart ▸ scanExternal_start_isBoundary hf hp h
  | matched _ _ _ hstart => exact hstart ▸ hp

theorem errorToken_aligned {afterExtra : Bool} (hp : Text.isBoundary lx.text position = true)
    (h : lx.errorToken position afterExtra = some token) : Aligned lx.text token.start token.stop :=
  ⟨(errorToken_eq_some h).2.1 ▸ hp, errorToken_isBoundary h⟩

end Lexer

namespace Event

def start : Event → Nat
  | extra t | skip t => t.start
  | unit u => u.start

def stop : Event → Nat
  | extra t | skip t => t.stop
  | unit u => u.stop

end Event

namespace Subtree

variable {text : List Char} {P : Subtree → Prop} {gs : List Subtree} {t : Subtree}

theorem Every.fill (hput : ∀ g t, P t → P (t.put g)) (hgs : ∀ g ∈ gs, Every P g) (h : Every P t) :
    Every P (fill gs t) := by
  induction gs generalizing t with
  | nil => exact h
  | cons g gs ih =>
      obtain ⟨hg, hgs⟩ := List.forall_mem_cons.1 hgs
      obtain ⟨data, ts⟩ := t
      refine ih hgs (.mk (hput g _ h.here) fun c hc => ?_)
      exact .putAmong (fun _ h => h) (fun t _ h => hput g t h) hg h.children c hc

/-- The node begins and ends between two characters of the text. -/
def Aligned (text : List Char) (t : Subtree) : Prop := Text.Aligned text t.start t.stop

theorem aligned_skeleton : Aligned text t.skeleton ↔ Aligned text t := by
  rw [Aligned, start_skeleton, stop_skeleton, Aligned]

theorem Aligned.coverChildren (h : Every (Aligned text) t) : Every (Aligned text) t.coverChildren := by
  have halign : ∀ a ∈ t :: t.children, Aligned text a :=
    List.forall_mem_cons.2 ⟨h.here, fun c hc => (h.children c hc).here⟩
  obtain ⟨a, ha, b, hb, hspan⟩ := exists_span_coverChildren t
  refine .mk (?_ : Text.Aligned text t.coverChildren.span.startByte t.coverChildren.span.endByte)
    h.children
  rw [hspan]
  exact ⟨(halign a ha).start, (halign b hb).stop⟩

theorem Aligned.cover_fill (hgs : ∀ g ∈ gs, Every (Aligned text) g) (h : Every (Aligned text) t) :
    Every (Aligned text) (Subtree.fill gs t).coverChildren := by
  refine Aligned.coverChildren (h.fill (fun g t ht => ?_) hgs)
  rwa [Aligned, start_put, stop_put]

end Subtree

open Subtree (Every)

theorem Floating.aligned_node {text : List Char} (lines : Lines) : ∀ {f : Floating},
    (∀ t ∈ f.extra?.toList ++ f.skipped, Aligned text t.start t.stop) →
      Every (Subtree.Aligned text) (f.node lines)
  | extra t, h => .mk (h t (List.mem_singleton_self t)) fun _ hc => absurd hc List.not_mem_nil
  | error ts hne, h => by
      refine .mk ⟨(h _ (List.head_mem hne)).start, (h _ (List.getLast_mem hne)).stop⟩ fun c hc => ?_
      obtain ⟨t, ht, rfl⟩ := List.mem_map.1 hc
      exact .mk (h t ht) fun _ hc => absurd hc List.not_mem_nil

namespace Derivation

variable {x : Derivation} {text : List Char} {i j : Nat} {t : Subtree}

/-- The units begin and end between two characters, and so do the nodes of the trees among them. -/
def Aligned (x : Derivation) (text : List Char) : Prop :=
  ∀ u ∈ x.units, Text.Aligned text u.start u.stop ∧ ∀ t, u = .reused t → Every (Subtree.Aligned text) t

theorem isBoundary_place (hx : x.Aligned text) (hi : i ≤ x.units.size) :
    isBoundary text (x.place i) = true := by
  cases i with
  | zero =>
      cases hu : x.units[0]? with
      | none =>
          rw [place, emptySpan, if_pos rfl, hu]
          exact isBoundary_iff.2 ⟨_, suffix?_zero text⟩
      | some u =>
          rw [place_zero hu]
          exact (hx u (Array.mem_of_getElem? hu)).1.start
  | succ i =>
      have hu : x.units[i]? = some x.units[i] := Array.getElem?_eq_getElem hi
      rw [place_succ hu]
      exact (hx _ (Array.mem_of_getElem? hu)).1.stop

theorem aligned_span (hx : x.Aligned text) (hij : i ≤ j) (hj : j ≤ x.units.size) :
    Text.Aligned text (x.span i j).startByte (x.span i j).endByte := by
  refine ⟨?_, endByte_span hij hj ▸ isBoundary_place hx hj⟩
  obtain hlt | rfl := Nat.lt_or_eq_of_le hij
  · have hu : x.units[i]? = some x.units[i] := Array.getElem?_eq_getElem (Nat.lt_of_lt_of_le hlt hj)
    rw [startByte_span_of_lt hlt hj hu]
    exact (hx _ (Array.mem_of_getElem? hu)).1.start
  · rw [span_self]
    exact isBoundary_place hx hj

theorem carries_aligned (hx : x.Aligned text) : x.Carries (Subtree.Aligned text) where
  unit {i u} hu := by
    obtain ⟨halign, hreused⟩ := hx u (Array.mem_of_getElem? hu)
    cases u with
    | token t =>
        have hleaf {s : Subtree} (hs : s.start = t.start) (hs' : s.stop = t.stop)
            (hnil : s.children = []) : Every (Subtree.Aligned text) s := by
          refine .mk ?_ (by simp [hnil])
          rwa [Subtree.Aligned, hs, hs']
        refine ⟨hleaf rfl rfl rfl, fun s t' ht' => ?_⟩
        rw [unitImage] at ht'
        split at ht'
        · obtain rfl := List.mem_singleton.1 ht'
          exact hleaf rfl rfl rfl
        · cases ht'
    | reused t =>
        have hevery := (Subtree.every_skeleton fun _ => Subtree.aligned_skeleton).2 (hreused t rfl)
        refine ⟨hevery.setData hevery.here, fun s t' ht' => ?_⟩
        obtain rfl := List.mem_singleton.1 ht'
        exact hevery.setData hevery.here
  node _ _ hij hj _ _ := aligned_span hx hij hj
  field _ h := h

end Derivation

namespace ParseState

variable {p : ParseInput} {st : ParseState} {es : List Event}

section

variable (hf : p.lexer.Proper) (hr : p.reusable = [])

include hf hr

/-- What a step passes over or takes begins and ends between two characters. -/
theorem aligned_events (hp : isBoundary p.text st.position = true) :
    ∀ e ∈ st.events p, Text.Aligned p.text e.start e.stop := by
  refine List.forall_mem_append.2 ⟨List.forall_mem_map.2 fun t ht => ?_, fun e he => ?_⟩
  · exact (Lexer.skipFrom_cuts _ _ _ _ _).aligned hf hp (t, true) (List.mem_map_of_mem ht)
  · obtain ⟨t, ht, -, -⟩ | ⟨t, ht, he⟩ := taken_eq_some (Option.mem_toList.1 he)
    · rw [hr] at ht
      cases ht
    · have hopened := opened_isBoundary hf hp
      rw [← reading_position] at hopened
      have htoken : Text.Aligned p.text t.start t.stop := by
        obtain ⟨-, ⟨-, _, hfound⟩ | herror⟩ := nextToken_eq_some ht
        · exact hfound.aligned hf hopened
        · exact Lexer.errorToken_aligned hopened herror
      obtain rfl | rfl := he
      · exact htoken
      · exact htoken

theorem Traces.aligned (h : Traces p st es) : ∀ e ∈ es, Text.Aligned p.text e.start e.stop := by
  induction h with
  | initial => exact fun e he => absurd he List.not_mem_nil
  | more ht _ ih =>
      exact List.forall_mem_append.2 ⟨ih, aligned_events hf hr (ht.visits.isBoundary hf hr)⟩

theorem EndsWith.aligned (h : EndsWith p st es) : ∀ e ∈ es, Text.Aligned p.text e.start e.stop := by
  obtain ⟨st₁, es₁, ht, -, rfl⟩ := h
  exact List.forall_mem_append.2
    ⟨ht.aligned hf hr, aligned_events hf hr (ht.visits.isBoundary hf hr)⟩

theorem Ends.aligned (ht : p.tables.WellFormed) (h : Ends p st) :
    (st.derivation p).Aligned p.text ∧ ∀ g ∈ st.floats, Every (Subtree.Aligned p.text) g := by
  obtain ⟨es, hes⟩ := h.exists_endsWith
  have halign := hes.aligned hf hr
  obtain ⟨fs, hrecords, hskipped⟩ := hes.exists_records
  refine ⟨fun u hu => ⟨?_, ?_⟩, fun g hg => ?_⟩
  · have hm : u ∈ es.filterMap Event.unit? := hrecords.units ▸ Array.mem_toList_iff.2 hu
    obtain ⟨e, he, hue⟩ := List.mem_filterMap.1 hm
    obtain rfl := Event.unit?_eq_some hue
    exact halign _ he
  · rintro t rfl
    have hm := ((h.consistent ht).kinds _ hu).2
    rw [hr] at hm
    cases hm
  · rw [hrecords.floats] at hg
    obtain ⟨f, hf, rfl⟩ := List.mem_map.1 hg
    refine f.aligned_node p.lines (List.forall_mem_append.2 ⟨fun t ht => ?_, fun t ht => ?_⟩)
    · have hm := List.mem_filterMap.2 ⟨f, hf, Option.mem_toList.1 ht⟩
      rw [hrecords.extras] at hm
      obtain ⟨e, he, hte⟩ := List.mem_filterMap.1 hm
      obtain rfl := Event.extra?_eq_some hte
      exact halign _ he
    · have hm := List.mem_flatMap.2 ⟨f, hf, ht⟩
      rw [hskipped] at hm
      obtain ⟨e, he, hte⟩ := List.mem_filterMap.1 hm
      obtain rfl := Event.skip?_eq_some hte
      exact halign _ he

theorem Ends.aligned_finish (ht : p.tables.WellFormed) (h : Ends p st) {root : Subtree}
    {uses : List (Option Step)} (hroot : (st.derivation p).IsRoot uses root.skeleton) :
    Every (Subtree.Aligned p.text) (st.finish p root) := by
  obtain ⟨hunits, hfloats⟩ := h.aligned hf hr ht
  obtain ⟨hordered, -⟩ := h.spread hf fun t hm => absurd (hr ▸ hm) List.not_mem_nil
  have hevery := hroot.every hordered (Derivation.carries_aligned hunits)
  rw [← Subtree.every_skeleton fun _ => Subtree.aligned_skeleton, skeleton_finish]
  exact Subtree.Aligned.cover_fill hfloats hevery

end

end ParseState

/-- The node is over a text of its own: it begins and ends between two characters, its rows and columns
are those of the text before, and the text that is read for it is the one in between. -/
structure Node.Reads (text : List Char) (n : Node) : Prop where
  range : n.subtree.start ≤ n.subtree.stop ∧ n.subtree.stop ≤ byteLength text
  start : isBoundary text n.subtree.start = true
  stop : isBoundary text n.subtree.stop = true
  startPoint : n.subtree.span.startPoint = .behind (takeBytes text n.subtree.start)
  endPoint : n.subtree.span.endPoint = .behind (takeBytes text n.subtree.stop)
  piece : ∃ piece rest, text = takeBytes text n.subtree.start ++ piece ++ rest ∧
    byteLength piece = n.subtree.stop - n.subtree.start ∧ n.text (Utf8.encode text) = .ok piece

theorem Node.Reads.of_aligned {text : List Char} {n : Node}
    (hle : n.subtree.start ≤ n.subtree.stop) (halign : n.subtree.Aligned text)
    (hfits : n.subtree.span.Fits (.ofText text)) : n.Reads text := by
  have hstop := le_of_isBoundary halign.stop
  refine ⟨⟨hle, hstop⟩, halign.start, halign.stop, ?_, ?_, ?_⟩
  · exact hfits.start.trans (Lines.point_eq_behind halign.start)
  · exact hfits.stop.trans (Lines.point_eq_behind halign.stop)
  · obtain ⟨piece, rest, htext, hstart, hsum⟩ := exists_piece halign.start halign.stop hle
    have hlength : byteLength piece = n.subtree.stop - n.subtree.start := by
      rw [byteLength_append] at hsum
      omega
    have hslice : slice text n.subtree.start n.subtree.stop = Utf8.encode piece := by
      have hpiece := slice_append (takeBytes text n.subtree.start) piece rest
      rwa [← htext, hsum, hstart] at hpiece
    refine ⟨piece, rest, htext, hlength, ?_⟩
    rw [Node.text, length_encode, Nat.min_eq_left hstop, Nat.min_eq_left hle]
    exact (congrArg Utf8.decode hslice).trans (Utf8.decode_encode piece)

namespace Language

open ParseState

variable {g : Grammar} {scanner : Option Scanner} {handle : Nat} {l : Language}

theorem aligned_parse_none (hl : Language.compile g scanner handle = .ok l)
    (hscanner : ∀ s ∈ l.scanner, s.Proper) (text : List Char) (era : Nat) (order : KeyOrder) :
    Every (Subtree.Aligned text) (l.parse text none era order).root := by
  have ht : (ParseInput.fresh l text era).tables.WellFormed := Language.compile_wellFormed hl
  obtain ⟨st, hends⟩ := ParseInput.exists_ends_fresh hscanner text era
  obtain ⟨htree, uses, hroot⟩ := hends.tree_eq ht (fun t hm => absurd hm List.not_mem_nil) order
  have hproper : (ParseInput.fresh l text era).lexer.Proper := hscanner
  rw [hends.parse_none, htree]
  exact hends.aligned_finish hproper rfl ht hroot

/-- Each node of the tree of a text that was parsed without an old tree is over a text of its own,
whichever constituents an error root has. -/
theorem reads_of_mem_preorder (hl : Language.compile g scanner handle = .ok l)
    (hscanner : ∀ s ∈ l.scanner, s.Proper) (text : List Char) (era : Nat) (order : KeyOrder) :
    ∀ n ∈ (l.parse text none era order).rootNode.preorder, n.Reads text := by
  have hevery := ((settled_parse_none hl hscanner text era order).tidy.and
    (aligned_parse_none hl hscanner text era order)).and (fits_parse_none hl text era order)
  intro n hn
  obtain ⟨⟨htidy, halign⟩, hfits⟩ :=
    (Node.every_of_mem_preorder (n := (l.parse text none era order).rootNode) hevery n hn).here
  exact .of_aligned htidy.le halign hfits

/-- The error over what stands between the two letters reaches into the second line, and so does the
comment behind it. -/
theorem reads_of_mem_preorder_commentedPairs : ∃ l n,
    Language.compile commentedPairs (some Candid.BlockComment.scanner) 0 = .ok l ∧
    n ∈ (l.parse "a#é\nb/**/".toList none 0).rootNode.preorder ∧
    (l.parse "a#é\nb/**/".toList none 0).root.kind = errorSymbol ∧
    n.subtree.span = ⟨2, 5, ⟨0, 2⟩, ⟨1, 0⟩⟩ ∧ n.Reads "a#é\nb/**/".toList ∧
    n.text (Utf8.encode "a#é\nb/**/".toList) = .ok ['é', '\n'] := by
  obtain ⟨l, hl, htest⟩ := exists_of_parsedWith
    (show parsedWith commentedPairs (some Candid.BlockComment.scanner) "a#é\nb/**/".toList
        (fun _ tree => tree.root.kind == errorSymbol && tree.rootNode.preorder.any fun n =>
          decide (n.subtree.span = ⟨2, 5, ⟨0, 2⟩, ⟨1, 0⟩⟩)) = true by decide +kernel)
  rw [Bool.and_eq_true, beq_iff_eq] at htest
  obtain ⟨hkind, htest⟩ := htest
  obtain ⟨n, hn, hspan⟩ := List.any_eq_true.1 htest
  have hspan := of_decide_eq_true hspan
  have hreads := reads_of_mem_preorder hl (Candid.BlockComment.proper_of_compile hl) _ 0 .entered n hn
  refine ⟨l, n, hl, hn, hkind, hspan, hreads, ?_⟩
  have hstart : n.subtree.start = 2 := congrArg Span.startByte hspan
  have hstop : n.subtree.stop = 5 := congrArg Span.endByte hspan
  rw [Node.text, hstart, hstop]
  decide +kernel

end Language

end EarleyTree

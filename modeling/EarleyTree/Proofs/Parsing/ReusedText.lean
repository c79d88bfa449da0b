import EarleyTree.Proofs.Parsing.Advance
import EarleyTree.Proofs.Parsing.Building

/-!
What may be taken over after edits of a text describes the text as it is now.
-/
namespace EarleyTree

open Text Subtree

/-- The rows and columns of the span are those of its bytes. -/
structure Text.Span.Fits (lines : Lines) (s : Span) : Prop where
  start : s.startPoint = lines.point s.startByte
  stop : s.endPoint = lines.point s.endByte

theorem Text.Span.Fits.eq {lines : Lines} {s : Span} (h : s.Fits lines) :
    s = lines.span s.startByte s.endByte := by
  obtain ⟨a, b, p, q⟩ := s
  have hstart : p = lines.point a := h.start
  have hstop : q = lines.point b := h.stop
  rw [hstart, hstop]
  rfl

namespace Subtree

variable {lines : Lines} {text text₀ text₁ inserted : List Char} {start oldEnd : Nat} {e : Edit}
  {s t u : Subtree}

/-- The span of a covering node begins with that of the node or a child, and so it ends. -/
theorem exists_span_coverChildren (t : Subtree) : ∃ a ∈ t :: t.children, ∃ b ∈ t :: t.children,
    t.coverChildren.span = ⟨a.start, b.stop, a.span.startPoint, b.span.endPoint⟩ := by
  by_cases hne : t.children = []
  · refine ⟨t, List.mem_cons_self, t, List.mem_cons_self, ?_⟩
    simp only [coverChildren, hne, List.head?_nil, List.getLast?_nil]
  · have hfirst := List.head?_eq_some_head hne
    have hlast := List.getLast?_eq_some_getLast hne
    have hm := List.mem_cons_of_mem t (List.head_mem hne)
    have hm' := List.mem_cons_of_mem t (List.getLast_mem hne)
    simp only [coverChildren, hfirst, hlast]
    split
    · split
      · exact ⟨_, hm, _, hm', rfl⟩
      · exact ⟨_, hm, t, List.mem_cons_self, rfl⟩
    · split
      · exact ⟨t, List.mem_cons_self, _, hm', rfl⟩
      · exact ⟨t, List.mem_cons_self, t, List.mem_cons_self, rfl⟩

theorem fits_coverChildren (h : Every (fun t => t.data.span.Fits lines) t) :
    t.coverChildren.data.span.Fits lines := by
  have hfits : ∀ a ∈ t :: t.children, a.span.Fits lines :=
    List.forall_mem_cons.2 ⟨h.here, fun c hc => (h.children c hc).here⟩
  obtain ⟨a, ha, b, hb, hspan⟩ := exists_span_coverChildren t
  have hspan : t.coverChildren.data.span = _ := hspan
  rw [hspan]
  exact ⟨(hfits a ha).start, (hfits b hb).stop⟩

/-- The second node is what became of the first when one text became another: where it bears no mark
and might be taken over, it is over the same bytes, and if the first one fitted its text, so does the
second. -/
structure Keeps (text₀ text : List Char) (s t : Subtree) : Prop where
  fallow : Fallow s ↔ Fallow t
  unmarked : t.hasChanges = false → s.hasChanges = false
  same : t.hasChanges = false → Fallow s ∨
    slice text t.start t.stop = slice text₀ s.start s.stop ∧
      (s.span.Fits (.ofText text₀) → t.span.Fits (.ofText text))

theorem Keeps.refl (text : List Char) (t : Subtree) : Keeps text text t t :=
  ⟨Iff.rfl, id, fun _ => .inr ⟨rfl, id⟩⟩

theorem Keeps.trans (h : Keeps text₀ text₁ s t) (h' : Keeps text₁ text t u) :
    Keeps text₀ text s u := by
  refine ⟨h.fallow.trans h'.fallow, fun hu => h.unmarked (h'.unmarked hu), fun hu => ?_⟩
  obtain hf | ⟨hslice, hfits⟩ := h.same (h'.unmarked hu)
  · exact .inl hf
  · obtain hf | ⟨hslice', hfits'⟩ := h'.same hu
    · exact .inl (h.fallow.2 hf)
    · exact .inr ⟨hslice'.trans hslice, fun hs => hfits' (hfits hs)⟩

/-- An edit falls before or behind each node that it leaves without a mark. -/
theorem pairs_keeps (he : Edit.replace? text start oldEnd inserted = some e) {n : Nat}
    (h : Settled n t) (era : Nat) (trail : List Nat) :
    Pairs (Keeps text (splice text start oldEnd inserted)) t (t.edit e era trail) := by
  obtain ⟨hs, ho, -, hle, -⟩ := Edit.replace?_eq_some he
  refine pairs_edit (fun t hlt h => ?_) (fun t ident ts hlength hge h => ?_) era trail
    (h.tidy.and h.bounded)
  · have hbounded := bounded_of_stop_le (h.mono fun _ h => h.2) (.inr (Nat.le_of_lt hlt))
    refine (h.and hbounded).mono fun c hc => ⟨Iff.rfl, id, fun _ => ?_⟩
    obtain hb | hstop := hc.2.stop_le
    · exact .inl hb.fallow
    · obtain ⟨hslice, hspan⟩ := Edit.span_before he hc.1.1.le hstop
      refine .inr ⟨hslice, fun hfits => ?_⟩
      have hspan' := hfits.eq.trans hspan.symm
      exact ⟨congrArg Span.startPoint hspan', congrArg Span.endPoint hspan'⟩
  · have hnil : ts = [] ↔ t.children = [] := by
      rw [← List.length_eq_zero_iff, hlength, List.length_eq_zero_iff]
    refine ⟨or_congr_left hnil.symm, fun hu => (Bool.or_eq_false_iff.1 hu).1, fun hu => ?_⟩
    have hbehind := of_decide_eq_false (Bool.or_eq_false_iff.1 hu).2
    obtain ⟨hslice, hspan⟩ := Edit.span_behind he (Nat.le_of_not_le hbehind) h.1.le
    refine .inr ⟨hslice, fun hfits => ?_⟩
    have hspan' := (congrArg e.shiftSpan hfits.eq).trans hspan.symm
    exact ⟨congrArg Span.startPoint hspan', congrArg Span.endPoint hspan'⟩

/-- Each node lies in its text, the second one over the bytes that the first one is over, and the rows
and columns of the second one are right. -/
structure Describes (text₀ text : List Char) (s t : Subtree) : Prop where
  source : s.start ≤ s.stop ∧ s.stop ≤ byteLength text₀
  range : t.start ≤ t.stop ∧ t.stop ≤ byteLength text
  slice : slice text t.start t.stop = slice text₀ s.start s.stop
  fits : t.span.Fits (.ofText text)

end Subtree

/-- The second tree is the first one after edits, which make the second text of the first one. -/
inductive Tree.Becomes (text₀ : List Char) (t₀ : Tree) : List Char → Tree → Prop
  | same : Becomes text₀ t₀ text₀ t₀
  | edited {text inserted : List Char} {start oldEnd : Nat} {e : Edit} {t : Tree}
      (h : Becomes text₀ t₀ text t) (he : Edit.replace? text start oldEnd inserted = some e)
      (era : Nat) : Becomes text₀ t₀ (splice text start oldEnd inserted) (t.edit e era)

theorem Tree.Becomes.keeps {text₀ text : List Char} {t₀ t : Tree} (h : Becomes text₀ t₀ text t)
    (hs : Settled (byteLength text₀) t₀.root) :
    Pairs (Keeps text₀ text) t₀.root t.root ∧ Settled (byteLength text) t.root := by
  induction h with
  | same => exact ⟨.refl (hs.tidy.mono fun t _ => .refl text₀ t), hs⟩
  | edited h he era ih =>
      obtain ⟨hkeeps, hsettled⟩ := ih
      exact ⟨hkeeps.trans (pairs_keeps he hsettled era []) fun _ _ _ => .trans,
        hsettled.edit he era []⟩

namespace Language

variable {g : Grammar} {scanner : Option Scanner} {handle : Nat} {l : Language}

theorem fits_parse_none (hl : Language.compile g scanner handle = .ok l) (text : List Char)
    (era : Nat) (order : KeyOrder) :
    Every (fun t => t.data.span.Fits (.ofText text)) (l.parse text none era order).root := by
  have hbuilds : (ParseInput.fresh l text era).Builds
      (Every fun t => t.data.span.Fits (.ofText text)) := by
    refine ParseInput.builds_of_data (P := fun d => d.span.Fits (.ofText text))
      (fun d a b hd _ => ?_) (fun d d' hd _ h => ?_) (fun t => fits_coverChildren)
      fun t ht => absurd ht List.not_mem_nil
    · rw [hd]
      exact ⟨rfl, rfl⟩
    · rw [hd]
      exact h
  exact builds_parse hl hbuilds (fun o ho => absurd ho (Option.not_mem_none o)) order

/-- However a text was edited since it was parsed, and the tree along with it, what may be taken over
from the tree describes the text as it is now: it is over the bytes that it was over, and its rows and
columns are right. This holds of the constituents of an error root too, whichever it has. -/
theorem describes_of_isReusable (hl : Language.compile g scanner handle = .ok l)
    (hscanner : ∀ s ∈ l.scanner, s.Proper) {text₀ text : List Char} {era : Nat} {order : KeyOrder}
    {t : Tree} (h : Tree.Becomes text₀ (l.parse text₀ none era order) text t) (tables : Tables) :
    Pairs (fun s u => u.isReusable tables = true → Describes text₀ text s u)
      (l.parse text₀ none era order).root t.root := by
  have hparsed := settled_parse_none hl hscanner text₀ era order
  obtain ⟨hkeeps, hsettled⟩ := h.keeps hparsed
  refine (hkeeps.and ((hparsed.tidy.and hparsed.bounded).and (fits_parse_none hl text₀ era order))
    (hsettled.tidy.and hsettled.bounded)).mono ?_
  rintro s u ⟨hk, ⟨hs, hfits⟩, hu⟩ hreusable
  have hfallow := not_fallow_of_isReusable hreusable
  obtain hf | ⟨hslice, hkept⟩ := hk.same (unmarked_of_isReusable hreusable)
  · exact absurd (hk.fallow.1 hf) hfallow
  · have hsource := hs.2.stop_le.resolve_left fun hb => hfallow (hk.fallow.1 hb.fallow)
    have hrange := hu.2.stop_le.resolve_left fun hb => hfallow hb.fallow
    exact ⟨⟨hs.1.le, hsource⟩, ⟨hu.1.le, hrange⟩, hslice, hkept hfits⟩

/-- A line is put before all that is there, a comment and a letter without its pair among it. -/
theorem describes_of_isReusable_commentedPairs : ∃ l e s u,
    Language.compile commentedPairs (some Candid.BlockComment.scanner) 0 = .ok l ∧
    Edit.replace? "/**/a#ba".toList 0 0 ['\n'] = some e ∧
    (l.parse "/**/a#ba".toList none 0).root.kind = errorSymbol ∧
    (l.parse "/**/a#ba".toList none 0).root.children[1]? = some s ∧
    ((l.parse "/**/a#ba".toList none 0).edit e 1).root.children[1]? = some u ∧
    u.isReusable l.tables = true ∧ u.span = ⟨5, 8, ⟨1, 4⟩, ⟨1, 7⟩⟩ ∧
    Describes "/**/a#ba".toList "\n/**/a#ba".toList s u := by
  obtain ⟨l, e, hl, he, htest⟩ := exists_of_editedWith
    (show editedWith commentedPairs (some Candid.BlockComment.scanner) "/**/a#ba".toList 0 0 ['\n']
        "\n/**/a#ba".toList (fun l e first _ => first.root.kind == errorSymbol &&
          (first.edit e 1).root.children[1]?.any fun u =>
            u.isReusable l.tables && decide (u.span = ⟨5, 8, ⟨1, 4⟩, ⟨1, 7⟩⟩)) = true by
      decide +kernel)
  obtain ⟨herror, htest⟩ := Bool.and_eq_true_iff.1 htest
  obtain ⟨u, hu, htest⟩ := (Option.any_eq_true _ _).1 htest
  obtain ⟨hreusable, hspan⟩ := Bool.and_eq_true_iff.1 htest
  have hbecomes : Tree.Becomes "/**/a#ba".toList (l.parse "/**/a#ba".toList none 0)
      "\n/**/a#ba".toList ((l.parse "/**/a#ba".toList none 0).edit e 1) := .edited .same he 1
  have hpairs := describes_of_isReusable hl (Candid.BlockComment.proper_of_compile hl) hbecomes l.tables
  obtain ⟨s, hs⟩ := hpairs.exists_left hu
  exact ⟨l, e, s, u, hl, he, beq_iff_eq.1 herror, hs, hu, hreusable, of_decide_eq_true hspan,
    (hpairs.inner hs hu).here hreusable⟩

end Language

end EarleyTree

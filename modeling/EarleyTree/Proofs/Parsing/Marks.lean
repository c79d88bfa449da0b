import EarleyTree.Proofs.Parsing.Advance
import EarleyTree.Proofs.Parsing.Building

/-!
The marks that edits leave: when no node of a parse result bears one.
-/
namespace EarleyTree

open Text Subtree

namespace Subtree

variable {e : Edit} {era n : Nat} {trail : List Nat} {t : Subtree} {ts : List Subtree}

/-- A child with a mark in a node without one begins before the node. -/
def Lags (t : Subtree) : Prop :=
  t.hasChanges = false → ∀ c ∈ t.children, c.hasChanges = true → c.start < t.start

/-- No child begins before the node. -/
def Leads (t : Subtree) : Prop := ∀ c ∈ t.children, t.start ≤ c.start

instance : DecidablePred Leads := fun t =>
  inferInstanceAs (Decidable (∀ c ∈ t.children, t.start ≤ c.start))

/-- No node bears a mark. -/
abbrev Unmarked (t : Subtree) : Prop := Every (fun t => t.data.hasChanges = false) t

theorem Unmarked.lags (h : Unmarked t) : Every Lags t := by
  refine h.withChildren.mono fun t ht _ c hc hmark => ?_
  exact Bool.noConfusion ((ht.2 c hc).symm.trans hmark)

/-- Where the root bears no mark, and no child begins before its parent, nothing does. -/
theorem unmarked_of_lags (h : Every Lags t) (hleads : Every Leads t) (ht : t.hasChanges = false) :
    Unmarked t := by
  induction h with
  | @mk t h hs ih =>
      refine .mk ht fun c hc => ih c hc (hleads.children c hc) (Bool.eq_false_iff.2 fun hmark => ?_)
      exact absurd (h ht c hc hmark) (Nat.not_lt.2 (hleads.here c hc))

theorem hasChanges_edit (h : (t.edit e era trail).hasChanges = true) :
    t.hasChanges = true ∨ t.start ≤ e.oldEndByte := by
  obtain ⟨data, ts⟩ := t
  rw [edit] at h
  split at h
  · exact .inl h
  · obtain h | h := Bool.or_eq_true_iff.1 h
    · exact .inl h
    · exact .inr (of_decide_eq_true h)

section

variable (he : e.startByte ≤ e.oldEndByte) (hne : e.startByte ≤ e.newEndByte)

include hne

/-- What is behind an edit and behind another place stays behind it. -/
theorem shiftByte_lt {m n : Nat} (hn : e.oldEndByte < n) (h : m < n) :
    e.shiftByte m < e.shiftByte n := by
  grind [Edit.shiftByte]

include he

theorem every_lags_edit (era : Nat) (trail : List Nat) (ht : Every Tidy t) (h : Every Lags t) :
    Every Lags (t.edit e era trail) := by
  induction t using induct generalizing trail with
  | node data ts ih =>
      rw [edit]
      split
      · exact h
      · refine .mk (fun hmark c hc hcmark => ?_) fun c hc => ?_
        · obtain ⟨hdata, hbehind⟩ := Bool.or_eq_false_iff.1 hmark
          have hbehind := Nat.not_le.1 (of_decide_eq_false hbehind)
          obtain ⟨c, hm, trail', rfl⟩ := mem_editAll hc
          rw [start_edit he era trail' (ht.children c hm).here.le]
          refine shiftByte_lt hne hbehind ?_
          obtain hc | hc := hasChanges_edit hcmark
          · exact h.here hdata c hm hc
          · exact Nat.lt_of_le_of_lt hc hbehind
        · obtain ⟨c, hm, trail', rfl⟩ := mem_editAll hc
          exact ih c hm trail' (ht.children c hm) (h.children c hm)

end

end Subtree

/-- The tree stands for the text, and at no parse on the way to it did a node on offer begin behind
one of its children. -/
inductive Tree.Orderly : List Char → Tree → Prop
  | parsed {g : Grammar} {scanner : Option Scanner} {handle : Nat} {l : Language} {text : List Char}
      {old : Option Tree} {era : Nat} (hl : Language.compile g scanner handle = .ok l)
      (hscanner : ∀ s ∈ l.scanner, s.Proper) (hold : ∀ o ∈ old, Orderly text o)
      (hoffers : ∀ o ∈ old, ∀ t ∈ (ParseInput.withOld l text o era).reusable, Every Leads t)
      (order : KeyOrder) : Orderly text (l.parse text old era order)
  | edited {text inserted : List Char} {start oldEnd : Nat} {e : Edit} {t : Tree}
      (h : Orderly text t) (he : Edit.replace? text start oldEnd inserted = some e) (era : Nat) :
      Orderly (splice text start oldEnd inserted) (t.edit e era)

theorem Tree.Orderly.stands {text : List Char} {t : Tree} (h : t.Orderly text) : t.Stands text := by
  induction h with
  | parsed hl hscanner hold hoffers order ih => exact .parsed hl hscanner ih _ order
  | edited _ he era ih => exact .edited ih he era

namespace Language

variable {g : Grammar} {scanner : Option Scanner} {handle era : Nat} {l : Language}
  {text : List Char} {old : Option Tree}

theorem unmarked_parse_of_lags (hl : Language.compile g scanner handle = .ok l)
    (hold : ∀ o ∈ old, Every Lags o.root)
    (hoffers : ∀ o ∈ old, ∀ t ∈ (ParseInput.withOld l text o era).reusable, Every Leads t)
    (order : KeyOrder) : Unmarked (l.parse text old era order).root := by
  have hbuilds {p : ParseInput} (h : ∀ t ∈ p.reusable, Unmarked t) : p.Builds Unmarked :=
    ParseInput.builds_of_data (P := fun d => d.hasChanges = false) (fun _ _ _ _ h => h)
      (fun _ _ _ hd h => hd.trans h) (fun _ h => h.here) h
  refine builds_parse hl (hbuilds fun t ht => absurd ht List.not_mem_nil) (fun o ho => hbuilds ?_)
    order
  intro t ht
  have hm := mem_of_mem_withOld ht
  exact unmarked_of_lags ((hold o ho).of_mem_reusable _ t hm) (hoffers o ho t ht)
    (unmarked_of_isReusable (isReusable_of_mem_reusable _ hm))

end Language

theorem Tree.Orderly.lags {text : List Char} {t : Tree} (h : t.Orderly text) :
    Every Lags t.root := by
  induction h with
  | parsed hl _ _ hoffers order ih =>
      exact (Language.unmarked_parse_of_lags hl ih hoffers order).lags
  | edited h he era ih =>
      obtain ⟨hs, ho, hn, hle, -⟩ := Edit.replace?_eq_some he
      exact every_lags_edit (by omega) (by omega) era [] h.stands.settled.tidy ih

namespace Language

variable {g : Grammar} {scanner : Option Scanner} {handle era : Nat} {l : Language}
  {text : List Char} {old : Option Tree}

/-- No node of a parse result bears a mark, whatever edits and parses came before, as long as no node
on offer begins behind one of its children. -/
theorem unmarked_parse (hl : Language.compile g scanner handle = .ok l)
    (hold : ∀ o ∈ old, o.Orderly text)
    (hoffers : ∀ o ∈ old, ∀ t ∈ (ParseInput.withOld l text o era).reusable, Every Leads t)
    (order : KeyOrder) : Unmarked (l.parse text old era order).root :=
  unmarked_parse_of_lags hl (fun o ho => (hold o ho).lags) hoffers order

theorem unmarked_parse_commentedPairs : ∃ l e,
    Language.compile commentedPairs (some Candid.BlockComment.scanner) 0 = .ok l ∧
    Edit.replace? "a#b/**/c".toList 7 7 [' '] = some e ∧
    (l.reparse "a#b/**/c".toList e "a#b/**/ c".toList).reusable.length = 1 ∧
    ¬Unmarked ((l.parse "a#b/**/c".toList none 0).edit e 1).root ∧
    ∀ order, Unmarked (l.parse "a#b/**/ c".toList
      (some ((l.parse "a#b/**/c".toList none 0).edit e 1)) 2 order).root := by
  obtain ⟨l, e, hl, he, htest⟩ := exists_of_editedWith
    (show editedWith commentedPairs (some Candid.BlockComment.scanner) "a#b/**/c".toList 7 7 [' ']
        "a#b/**/ c".toList (fun l e first _ =>
          let p := ParseInput.withOld l "a#b/**/ c".toList (first.edit e 1) 2
          p.reusable.length == 1 && decide (¬Unmarked (first.edit e 1).root) &&
            decide (∀ t ∈ p.reusable, Every Leads t)) = true by decide +kernel)
  dsimp only at htest
  rw [Bool.and_eq_true, Bool.and_eq_true, beq_iff_eq, decide_eq_true_iff, decide_eq_true_iff] at htest
  obtain ⟨⟨hlength, hmarked⟩, hleads⟩ := htest
  have horderly : ((l.parse "a#b/**/c".toList none 0).edit e 1).Orderly "a#b/**/ c".toList :=
    .edited (.parsed hl (Candid.BlockComment.proper_of_compile hl)
      (fun o ho => absurd ho (Option.not_mem_none o))
      (fun o ho => absurd ho (Option.not_mem_none o)) .entered) he 1
  refine ⟨l, e, hl, he, hlength, hmarked, unmarked_parse hl (fun o ho => ?_) fun o ho => ?_⟩
  · obtain rfl := Option.some.inj ho
    exact horderly
  · obtain rfl := Option.some.inj ho
    exact hleads

/-- A letter, then a node that begins with a node over nothing. -/
def gapped : Grammar :=
  ((({ name := "gapped" } : Grammar).define "gapped"
      (.seq [.literal "x", .ref "item", .literal ";"])).define "item"
    (.seq [.ref "gap", .literal "a"])).define "gap" (.optional (.literal "b"))

/-- The node over nothing lies before the blank, and so outside of its parent; an edit of the blank
marks it, but the parent is taken over with it. -/
theorem marked_parse_gapped : ∃ l e, Language.compile gapped none 0 = .ok l ∧
    Edit.replace? ['x', ' ', ' ', 'a', ';'] 1 2 [] = some e ∧
    ((l.parse ['x', ' ', ' ', 'a', ';'] none 0).edit e 1).Stands ['x', ' ', 'a', ';'] ∧
    ¬Unmarked (l.parse ['x', ' ', 'a', ';']
      (some ((l.parse ['x', ' ', ' ', 'a', ';'] none 0).edit e 1)) 2).root := by
  obtain ⟨l, e, hl, he, htest⟩ := exists_of_editedWith
    (show editedWith gapped none ['x', ' ', ' ', 'a', ';'] 1 2 [] ['x', ' ', 'a', ';']
        (fun l _ _ new => l.scanner.isNone && decide (¬Unmarked new.root)) = true by decide +kernel)
  rw [Bool.and_eq_true, decide_eq_true_iff] at htest
  obtain ⟨hscanner, hmarked⟩ := htest
  refine ⟨l, e, hl, he, ?_, hmarked⟩
  have hparsed : (l.parse ['x', ' ', ' ', 'a', ';'] none 0).Stands ['x', ' ', ' ', 'a', ';'] :=
    .parsed hl (proper_of_isNone hscanner) (fun _ ho => absurd ho (Option.not_mem_none _)) 0 .entered
  exact .edited hparsed he 1

end Language

end EarleyTree

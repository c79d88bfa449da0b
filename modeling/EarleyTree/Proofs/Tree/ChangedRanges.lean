import EarleyTree.Proofs.Parsing.Reuse
import EarleyTree.Tree.Changes
import Mathlib.Data.List.Forall2
import Mathlib.Data.List.Induction

/-!
The ranges in which the leaves of two trees differ: what the walk along both rows of leaves lists, and
what the joined ranges hold.
-/
namespace EarleyTree

open Text

/-- The leaves lie one behind the other. -/
structure Subtree.InLine (ts : List Subtree) : Prop where
  le : ∀ t ∈ ts, t.start ≤ t.stop
  order : ts.Pairwise fun c d => c.stop ≤ d.start

namespace Subtree

variable {a b t : Subtree} {old new ts : List Subtree} {ss : List Span} {s : Span}

/-- The leaf is there again as the other one, and no edit touched it. -/
def Remains (a b : Subtree) : Prop :=
  a.kind = b.kind ∧ a.start = b.start ∧ a.stop = b.stop ∧ a.hasChanges = false

theorem agrees_iff : a.agrees b = true ↔ a.Remains b := by
  simp only [Remains, agrees, Bool.and_eq_true, beq_iff_eq, Bool.not_eq_true', and_assoc]

/-- The span is that of a leaf in one of the rows that is not in the other. -/
def OneRow (old new : List Subtree) (s : Span) : Prop :=
  (∃ a ∈ old, a.span = s ∧ ∀ b ∈ new, ¬a.Remains b) ∨ ∃ b ∈ new, b.span = s ∧ ∀ a ∈ old, ¬a.Remains b

theorem OneRow.cons_old (h : OneRow old new s) (hne : ¬(a.start = s.startByte ∧ a.stop = s.endByte)) :
    OneRow (a :: old) new s := by
  refine h.imp (fun ⟨c, hc, h⟩ => ⟨c, List.mem_cons_of_mem a hc, h⟩) fun ⟨b, hb, hs, hnone⟩ => ?_
  refine ⟨b, hb, hs, List.forall_mem_cons.2 ⟨fun hab => hne ?_, hnone⟩⟩
  rw [← hs]
  exact ⟨hab.2.1, hab.2.2.1⟩

theorem OneRow.cons_new (h : OneRow old new s) (hne : ¬(b.start = s.startByte ∧ b.stop = s.endByte)) :
    OneRow old (b :: new) s := by
  refine h.imp (fun ⟨a, ha, hs, hnone⟩ => ?_) fun ⟨c, hc, h⟩ => ⟨c, List.mem_cons_of_mem b hc, h⟩
  refine ⟨a, ha, hs, List.forall_mem_cons.2 ⟨fun hab => hne ?_, hnone⟩⟩
  rw [← hs]
  exact ⟨hab.2.1.symm, hab.2.2.1.symm⟩

namespace InLine

instance : Decidable (InLine ts) :=
  decidable_of_iff ((∀ t ∈ ts, t.start ≤ t.stop) ∧ ts.Pairwise fun c d => c.stop ≤ d.start)
    ⟨fun h => ⟨h.1, h.2⟩, fun h => ⟨h.le, h.order⟩⟩

theorem tail (h : InLine (t :: ts)) : InLine ts :=
  ⟨fun c hc => h.le c (List.mem_cons_of_mem t hc), (List.pairwise_cons.1 h.order).2⟩

theorem stop_le (h : InLine (t :: ts)) : ∀ c ∈ ts, t.stop ≤ c.start := (List.pairwise_cons.1 h.order).1

theorem start_le (h : InLine (t :: ts)) : ∀ c ∈ t :: ts, t.start ≤ c.start :=
  List.forall_mem_cons.2
    ⟨Nat.le_refl _, fun c hc => (h.le t List.mem_cons_self).trans (h.stop_le c hc)⟩

/-- A byte lies in one leaf only. -/
theorem eq_of_mem (h : InLine ts) (ha : a ∈ ts) (hb : b ∈ ts) {i : Nat} (hai : a.start ≤ i ∧ i < a.stop)
    (hbi : b.start ≤ i ∧ i < b.stop) : a = b := by
  induction ts with
  | nil => cases ha
  | cons t ts ih =>
      obtain rfl | hat := List.mem_cons.1 ha
      · obtain rfl | hbt := List.mem_cons.1 hb
        · rfl
        · have hle := h.stop_le b hbt
          omega
      · obtain rfl | hbt := List.mem_cons.1 hb
        · have hle := h.stop_le a hat
          omega
        · exact ih h.tail hat hbt

end InLine

/-- The way along both rows of leaves, with the spans that it lists. -/
inductive Compares : List Subtree → List Subtree → List Span → Prop
  | added (new : List Subtree) : Compares [] new (new.map (·.span))
  | gone (old : List Subtree) : Compares old [] (old.map (·.span))
  | same {a b : Subtree} {old new : List Subtree} {ss : List Span} (hab : a.Remains b)
      (h : Compares old new ss) : Compares (a :: old) (b :: new) ss
  | before {a b : Subtree} {old new : List Subtree} {ss : List Span} (hab : a.stop ≤ b.start)
      (h : Compares old (b :: new) ss) : Compares (a :: old) (b :: new) (a.span :: ss)
  | behind {a b : Subtree} {old new : List Subtree} {ss : List Span} (hba : b.stop ≤ a.start)
      (h : Compares (a :: old) new ss) : Compares (a :: old) (b :: new) (b.span :: ss)
  | across {a b : Subtree} {old new : List Subtree} {ss : List Span} (hne : ¬a.Remains b)
      (hab : b.start < a.stop) (hba : a.start < b.stop) (h : Compares old new ss) :
      Compares (a :: old) (b :: new) (b.span :: ss)

theorem differences_compares (fuel : Nat) (old new : List Subtree)
    (hfuel : old.length + new.length ≤ fuel) : Compares old new (differences fuel old new) := by
  induction fuel, old, new using differences.induct with
  | case1 old new =>
      obtain ⟨hold, hnew⟩ := Nat.add_eq_zero_iff.1 (Nat.le_zero.1 hfuel)
      rw [List.length_eq_zero_iff.1 hold, List.length_eq_zero_iff.1 hnew]
      exact .added []
  | case2 fuel new => exact .added new
  | case3 fuel old hne =>
      rw [differences.eq_3 _ _ hne]
      exact .gone old
  | case4 fuel a old b new hab ih =>
      rw [differences, if_pos hab]
      exact .same (agrees_iff.1 hab) (ih (by simp at hfuel; omega))
  | case5 fuel a old b new hne hab ih =>
      rw [differences, if_neg hne, if_pos hab]
      exact .before hab (ih (by simp at hfuel ⊢; omega))
  | case6 fuel a old b new hne hab hba ih =>
      rw [differences, if_neg hne, if_neg hab, if_pos hba]
      exact .behind hba (ih (by simp at hfuel ⊢; omega))
  | case7 fuel a old b new hne hab hba ih =>
      rw [differences, if_neg hne, if_neg hab, if_neg hba]
      exact .across (fun h => hne (agrees_iff.2 h)) (Nat.lt_of_not_le hab) (Nat.lt_of_not_le hba)
        (ih (by simp at hfuel; omega))

namespace Compares

/-- What is listed are spans of leaves. -/
theorem forall_mem {P : Span → Prop} (h : Compares old new ss) (ho : ∀ a ∈ old, P a.span)
    (hn : ∀ b ∈ new, P b.span) : ∀ s ∈ ss, P s := by
  induction h with
  | added new => exact List.forall_mem_map.2 hn
  | gone old => exact List.forall_mem_map.2 ho
  | same _ _ ih => exact ih (List.forall_mem_cons.1 ho).2 (List.forall_mem_cons.1 hn).2
  | before _ _ ih =>
      obtain ⟨ha, ho⟩ := List.forall_mem_cons.1 ho
      exact List.forall_mem_cons.2 ⟨ha, ih ho hn⟩
  | behind _ _ ih =>
      obtain ⟨hb, hn⟩ := List.forall_mem_cons.1 hn
      exact List.forall_mem_cons.2 ⟨hb, ih ho hn⟩
  | across _ _ _ _ ih =>
      obtain ⟨hb, hn⟩ := List.forall_mem_cons.1 hn
      exact List.forall_mem_cons.2 ⟨hb, ih (List.forall_mem_cons.1 ho).2 hn⟩

/-- The spans are listed in the order in which they begin. -/
theorem ordered (h : Compares old new ss) (ho : InLine old) (hn : InLine new) :
    ss.Pairwise fun s t => s.startByte ≤ t.startByte := by
  have hrow {ts : List Subtree} (h : InLine ts) :
      (ts.map (·.span)).Pairwise fun s t => s.startByte ≤ t.startByte :=
    List.pairwise_map.2 (h.order.imp_of_mem fun hs _ hle => (h.le _ hs).trans hle)
  induction h with
  | added new => exact hrow hn
  | gone old => exact hrow ho
  | same _ _ ih => exact ih ho.tail hn.tail
  | @before a b _ _ _ hab h ih =>
      have hle : a.start ≤ b.start := (ho.le a List.mem_cons_self).trans hab
      refine List.pairwise_cons.2 ⟨h.forall_mem ?_ ?_, ih ho.tail hn⟩
      · exact (List.forall_mem_cons.1 ho.start_le).2
      · exact fun c hc => hle.trans (hn.start_le c hc)
  | @behind a b _ _ _ hba h ih =>
      have hle : b.start ≤ a.start := (hn.le b List.mem_cons_self).trans hba
      refine List.pairwise_cons.2 ⟨h.forall_mem ?_ ?_, ih ho hn.tail⟩
      · exact fun c hc => hle.trans (ho.start_le c hc)
      · exact (List.forall_mem_cons.1 hn.start_le).2
  | across _ hab _ h ih =>
      refine List.pairwise_cons.2 ⟨h.forall_mem ?_ ?_, ih ho.tail hn.tail⟩
      · exact fun c hc => hab.le.trans (ho.stop_le c hc)
      · exact (List.forall_mem_cons.1 hn.start_le).2

/-- The leaves of the new row of which none is listed are in the old row, in the same order. -/
theorem sublist {p : Subtree → Bool} (h : Compares old new ss)
    (hp : ∀ b, p b = true → b.span ∉ ss) :
    List.SublistForall₂ (fun b a => a.Remains b) (new.filter p) old := by
  induction h with
  | added new =>
      have hnil : new.filter p = [] := List.filter_eq_nil_iff.2 fun b hb h =>
        hp b h (List.mem_map_of_mem hb)
      rw [hnil]
      exact .nil
  | gone old => exact .nil
  | @same a b _ _ _ hab _ ih =>
      rw [List.filter_cons]
      split
      · exact .cons hab (ih hp)
      · exact .cons_right (ih hp)
  | before _ _ ih => exact .cons_right (ih fun b hb h => hp b hb (List.mem_cons_of_mem _ h))
  | @behind _ b _ _ _ _ _ ih =>
      rw [List.filter_cons_of_neg fun hb => hp b hb List.mem_cons_self]
      exact ih fun c hc h => hp c hc (List.mem_cons_of_mem _ h)
  | @across _ b _ _ _ _ _ _ _ ih =>
      rw [List.filter_cons_of_neg fun hb => hp b hb List.mem_cons_self]
      exact .cons_right (ih fun c hc h => hp c hc (List.mem_cons_of_mem _ h))

/-- A leaf of the old row is listed, or it is in the new row, or a leaf of that lies across it. -/
theorem old_leaf (h : Compares old new ss) : ∀ a ∈ old, a.span ∈ ss ∨
    ∃ b ∈ new, a.Remains b ∨ b.start < a.stop ∧ a.start < b.stop := by
  induction h with
  | added => exact fun a ha => absurd ha List.not_mem_nil
  | gone old => exact fun a ha => .inl (List.mem_map_of_mem ha)
  | @same a b _ _ _ hab _ ih =>
      refine List.forall_mem_cons.2 ⟨.inr ⟨b, List.mem_cons_self, .inl hab⟩, fun c hc => ?_⟩
      exact (ih c hc).imp_right fun ⟨d, hd, h⟩ => ⟨d, List.mem_cons_of_mem b hd, h⟩
  | before _ _ ih =>
      exact List.forall_mem_cons.2
        ⟨.inl List.mem_cons_self, fun c hc => (ih c hc).imp_left (List.mem_cons_of_mem _)⟩
  | @behind _ b _ _ _ _ _ ih =>
      exact fun c hc => (ih c hc).imp (List.mem_cons_of_mem _) fun ⟨d, hd, h⟩ =>
        ⟨d, List.mem_cons_of_mem b hd, h⟩
  | @across a b _ _ _ _ hab hba _ ih =>
      refine List.forall_mem_cons.2 ⟨.inr ⟨b, List.mem_cons_self, .inr ⟨hab, hba⟩⟩, fun c hc => ?_⟩
      exact (ih c hc).imp (List.mem_cons_of_mem _) fun ⟨d, hd, h⟩ => ⟨d, List.mem_cons_of_mem b hd, h⟩

/-- A leaf of the new row is listed, or it was in the old row. -/
theorem new_leaf (h : Compares old new ss) : ∀ b ∈ new, b.span ∈ ss ∨
    ∃ a ∈ old, a.Remains b := by
  induction h with
  | added new => exact fun b hb => .inl (List.mem_map_of_mem hb)
  | gone => exact fun b hb => absurd hb List.not_mem_nil
  | @same a _ _ _ _ hab _ ih =>
      refine List.forall_mem_cons.2 ⟨.inr ⟨a, List.mem_cons_self, hab⟩, fun c hc => ?_⟩
      exact (ih c hc).imp_right fun ⟨d, hd, h⟩ => ⟨d, List.mem_cons_of_mem a hd, h⟩
  | @before a _ _ _ _ _ _ ih =>
      exact fun c hc => (ih c hc).imp (List.mem_cons_of_mem _) fun ⟨d, hd, h⟩ =>
        ⟨d, List.mem_cons_of_mem a hd, h⟩
  | behind _ _ ih =>
      exact List.forall_mem_cons.2
        ⟨.inl List.mem_cons_self, fun c hc => (ih c hc).imp_left (List.mem_cons_of_mem _)⟩
  | @across a _ _ _ _ _ _ _ _ ih =>
      refine List.forall_mem_cons.2 ⟨.inl List.mem_cons_self, fun c hc => ?_⟩
      exact (ih c hc).imp (List.mem_cons_of_mem _) fun ⟨d, hd, h⟩ => ⟨d, List.mem_cons_of_mem a hd, h⟩

/-- What is listed and not empty is the span of a leaf that is in one row only. -/
theorem oneRow (h : Compares old new ss) (ho : InLine old) (hn : InLine new) :
    ∀ s ∈ ss, s.startByte < s.endByte → OneRow old new s := by
  induction h with
  | added new =>
      exact List.forall_mem_map.2 fun b hb _ => .inr ⟨b, hb, rfl, fun a ha => absurd ha List.not_mem_nil⟩
  | gone old =>
      exact List.forall_mem_map.2 fun a ha _ => .inl ⟨a, ha, rfl, fun b hb => absurd hb List.not_mem_nil⟩
  | @same a b _ _ _ hab h ih =>
      obtain ⟨-, hstart, hstop, -⟩ := hab
      have hbound := h.forall_mem (P := fun s => a.stop ≤ s.startByte) ho.stop_le (hstop ▸ hn.stop_le)
      intro s hs hlt
      have hle := hbound s hs
      exact ((ih ho.tail hn.tail s hs hlt).cons_new (by omega)).cons_old (by omega)
  | @before a b _ _ _ hab h ih =>
      have hnew : ∀ c ∈ b :: _, a.stop ≤ c.start := fun c hc => hab.trans (hn.start_le c hc)
      have hbound := h.forall_mem (P := fun s => a.stop ≤ s.startByte) ho.stop_le hnew
      refine List.forall_mem_cons.2 ⟨fun (hlt : a.start < a.stop) => ?_, fun s hs hlt => ?_⟩
      · refine .inl ⟨a, List.mem_cons_self, rfl, fun c hc hac => ?_⟩
        have hle := hnew c hc
        have hstart := hac.2.1
        omega
      · have hle := hbound s hs
        exact (ih ho.tail hn s hs hlt).cons_old (by omega)
  | @behind a b _ _ _ hba h ih =>
      have hold : ∀ c ∈ a :: _, b.stop ≤ c.start := fun c hc => hba.trans (ho.start_le c hc)
      have hbound := h.forall_mem (P := fun s => b.stop ≤ s.startByte) hold hn.stop_le
      refine List.forall_mem_cons.2 ⟨fun (hlt : b.start < b.stop) => ?_, fun s hs hlt => ?_⟩
      · refine .inr ⟨b, List.mem_cons_self, rfl, fun c hc hcb => ?_⟩
        have hle := hold c hc
        have hstart := hcb.2.1
        omega
      · have hle := hbound s hs
        exact (ih ho hn.tail s hs hlt).cons_new (by omega)
  | @across a b _ _ _ hne hab hba h ih =>
      have hbound := h.forall_mem (P := fun s => a.stop ≤ s.startByte ∨ b.stop ≤ s.startByte)
        (fun c hc => .inl (ho.stop_le c hc)) fun c hc => .inr (hn.stop_le c hc)
      refine List.forall_mem_cons.2 ⟨fun _ => ?_, fun s hs hlt => ?_⟩
      · refine .inr ⟨b, List.mem_cons_self, rfl, List.forall_mem_cons.2 ⟨hne, fun c hc hcb => ?_⟩⟩
        have hle := ho.stop_le c hc
        have hstart := hcb.2.1
        omega
      · have hle := hbound s hs
        exact ((ih ho.tail hn.tail s hs hlt).cons_new (by omega)).cons_old (by omega)

end Compares

end Subtree

/-- The bytes of the span are among those of the range. -/
def Text.Span.holds (r s : Span) : Bool := r.startByte ≤ s.startByte && s.endByte ≤ r.endByte

theorem Text.Span.holds_iff {r s : Span} :
    r.holds s = true ↔ r.startByte ≤ s.startByte ∧ s.endByte ≤ r.endByte := by
  rw [holds, Bool.and_eq_true, decide_eq_true_iff, decide_eq_true_iff]

/-- The ranges, the last one first, are apart from each other, and hold the bytes of the spans that were
joined and no others. -/
structure Joins (ss ranges : List Span) : Prop where
  le : ∀ r ∈ ranges, r.startByte ≤ r.endByte
  apart : ranges.Pairwise fun r s => s.endByte < r.startByte
  begins : ∀ r ∈ ranges, ∃ s ∈ ss, r.startByte = s.startByte
  holds : ∀ s ∈ ss, ∃ r ∈ ranges, r.holds s = true
  only : ∀ r ∈ ranges, ∀ i, r.startByte ≤ i → i < r.endByte →
    ∃ s ∈ ss, s.startByte ≤ i ∧ i < s.endByte

namespace Joins

variable {ss ranges : List Span} {s : Span}

/-- The span is a range of its own behind the others. -/
theorem push (h : Joins ss ranges) (hle : s.startByte ≤ s.endByte)
    (hs : ∀ r ∈ ranges, r.endByte < s.startByte) : Joins (ss ++ [s]) (s :: ranges) where
  le := List.forall_mem_cons.2 ⟨hle, h.le⟩
  apart := List.pairwise_cons.2 ⟨hs, h.apart⟩
  begins := List.forall_mem_cons.2 ⟨⟨s, by simp, rfl⟩, fun r hr =>
    (h.begins r hr).imp fun _ hd => ⟨List.mem_append_left _ hd.1, hd.2⟩⟩
  holds := List.forall_mem_append.2 ⟨fun d hd =>
      (h.holds d hd).imp fun _ hr => ⟨List.mem_cons_of_mem s hr.1, hr.2⟩,
    List.forall_mem_singleton.2 ⟨s, List.mem_cons_self, Span.holds_iff.2 ⟨le_rfl, le_rfl⟩⟩⟩
  only := List.forall_mem_cons.2 ⟨fun _ hi hi' => ⟨s, by simp, hi, hi'⟩, fun r hr i hi hi' =>
    (h.only r hr i hi hi').imp fun _ hd => ⟨List.mem_append_left _ hd.1, hd.2⟩⟩

/-- The span begins within the last range, or right behind it, and the range is made to reach as far. -/
theorem extend {last other : Span} {before : List Span} (h : Joins ss (last :: before))
    (hlast : last.startByte ≤ s.startByte) (hjoin : s.startByte ≤ last.endByte)
    (hstart : other.startByte = last.startByte)
    (hstop : other.endByte = max last.endByte s.endByte) : Joins (ss ++ [s]) (other :: before) := by
  obtain ⟨hle, hbeforele⟩ := List.forall_mem_cons.1 h.le
  obtain ⟨hgap, hbefore⟩ := List.pairwise_cons.1 h.apart
  have hother : last.endByte ≤ other.endByte := hstop ▸ le_max_left _ _
  have hs : s.endByte ≤ other.endByte := hstop ▸ le_max_right _ _
  have hbegins : ∀ r ∈ last :: before, ∃ d ∈ ss ++ [s], r.startByte = d.startByte := fun r hr =>
    (h.begins r hr).imp fun _ hd => ⟨List.mem_append_left _ hd.1, hd.2⟩
  have honly : ∀ r ∈ last :: before, ∀ i, r.startByte ≤ i → i < r.endByte →
      ∃ d ∈ ss ++ [s], d.startByte ≤ i ∧ i < d.endByte := fun r hr i hi hi' =>
    (h.only r hr i hi hi').imp fun _ hd => ⟨List.mem_append_left _ hd.1, hd.2⟩
  obtain ⟨⟨d, hd, hlastd⟩, hbeforebegins⟩ := List.forall_mem_cons.1 hbegins
  obtain ⟨hlastonly, hbeforeonly⟩ := List.forall_mem_cons.1 honly
  refine ⟨List.forall_mem_cons.2 ⟨by omega, hbeforele⟩,
    List.pairwise_cons.2 ⟨fun r hr => hstart ▸ hgap r hr, hbefore⟩,
    List.forall_mem_cons.2 ⟨⟨d, hd, hstart.trans hlastd⟩, hbeforebegins⟩,
    List.forall_mem_append.2 ⟨fun d hd => ?_, List.forall_mem_singleton.2 ?_⟩,
    List.forall_mem_cons.2 ⟨fun i hi hi' => ?_, hbeforeonly⟩⟩
  · obtain ⟨r, hr, hrd⟩ := h.holds d hd
    obtain rfl | hr := List.mem_cons.1 hr
    · obtain ⟨hbegin, hend⟩ := Span.holds_iff.1 hrd
      exact ⟨other, List.mem_cons_self, Span.holds_iff.2 ⟨hstart.trans_le hbegin, hend.trans hother⟩⟩
    · exact ⟨r, List.mem_cons_of_mem other hr, hrd⟩
  · exact ⟨other, List.mem_cons_self, Span.holds_iff.2 ⟨hstart.trans_le hlast, hs⟩⟩
  · by_cases hlt : i < last.endByte
    · exact hlastonly i (hstart ▸ hi) hlt
    · exact ⟨s, by simp, by omega, by omega⟩

theorem join (h : Joins ss ranges) (hle : s.startByte ≤ s.endByte)
    (hs : ∀ r ∈ ss, r.startByte ≤ s.startByte) : Joins (ss ++ [s]) (joinSpan ranges s) := by
  cases ranges with
  | nil => exact h.push hle fun r hr => absurd hr List.not_mem_nil
  | cons last before =>
      obtain ⟨d, hd, heq⟩ := h.begins last List.mem_cons_self
      have hlast : last.startByte ≤ s.startByte := heq.trans_le (hs d hd)
      rw [joinSpan]
      split
      · next hjoin =>
          split
          · next hlt => exact h.extend hlast hjoin rfl (max_eq_right hlt.le).symm
          · next hge => exact h.extend hlast hjoin rfl (max_eq_left (Nat.le_of_not_lt hge)).symm
      · next hapart =>
          have hlt : last.endByte < s.startByte := Nat.lt_of_not_le hapart
          have hgap := (List.pairwise_cons.1 h.apart).1
          refine h.push hle (List.forall_mem_cons.2 ⟨hlt, fun r hr => ?_⟩)
          exact ((hgap r hr).trans_le (h.le last List.mem_cons_self)).trans hlt

theorem foldl (hle : ∀ s ∈ ss, s.startByte ≤ s.endByte)
    (hs : ss.Pairwise fun s t => s.startByte ≤ t.startByte) : Joins ss (ss.foldl joinSpan []) := by
  induction ss using List.reverseRecOn with
  | nil => exact ⟨by simp, .nil, by simp, by simp, by simp⟩
  | append_singleton ss s ih =>
      obtain ⟨hss, -, hlast⟩ := List.pairwise_append.1 hs
      obtain ⟨hle, hles⟩ := List.forall_mem_append.1 hle
      rw [List.foldl_append]
      exact (ih hle hss).join (hles s (List.mem_singleton_self s)) fun r hr =>
        hlast r hr s (List.mem_singleton_self s)

end Joins

namespace Tree

open Subtree

variable {old new : Tree}

theorem exists_joins (ho : InLine old.root.leaves) (hn : InLine new.root.leaves) : ∃ ss,
    Compares old.root.leaves new.root.leaves ss ∧ Joins ss (old.changedRanges new).reverse := by
  have hcompares := differences_compares _ old.root.leaves new.root.leaves le_rfl
  have hle := hcompares.forall_mem (P := fun s => s.startByte ≤ s.endByte) ho.le hn.le
  refine ⟨_, hcompares, ?_⟩
  rw [changedRanges, List.reverse_reverse]
  exact .foldl hle (hcompares.ordered ho hn)

/-- There is a gap between any two of the ranges, the leaves of the new tree that none of them holds are
leaves of the old tree, in the same order, and a byte in a range lies in a leaf that is in one of the
trees only. -/
structure Reports (old new : Tree) (ranges : List Span) : Prop where
  le : ∀ r ∈ ranges, r.startByte ≤ r.endByte
  apart : ranges.Pairwise fun r s => r.endByte < s.startByte
  remains : List.SublistForall₂ (fun b a => a.Remains b)
    (new.root.leaves.filter fun b => !ranges.any (·.holds b.span)) old.root.leaves
  differs : ∀ r ∈ ranges, ∀ i, r.startByte ≤ i → i < r.endByte →
    ∃ s, s.startByte ≤ i ∧ i < s.endByte ∧ OneRow old.root.leaves new.root.leaves s

theorem reports_changedRanges (ho : InLine old.root.leaves) (hn : InLine new.root.leaves) :
    Reports old new (old.changedRanges new) := by
  obtain ⟨ss, hcompares, hjoins⟩ := exists_joins ho hn
  refine ⟨fun r hr => hjoins.le r (List.mem_reverse.2 hr), List.pairwise_reverse.1 hjoins.apart,
    hcompares.sublist fun b hb hs => ?_, fun r hr i hi hi' => ?_⟩
  · obtain ⟨r, hr, hrb⟩ := hjoins.holds b.span hs
    have hany : (old.changedRanges new).any (·.holds b.span) = true :=
      List.any_eq_true.2 ⟨r, List.mem_reverse.1 hr, hrb⟩
    rw [hany] at hb
    cases hb
  · obtain ⟨s, hs, hsi, hsi'⟩ := hjoins.only r (List.mem_reverse.2 hr) i hi hi'
    exact ⟨s, hsi, hsi', hcompares.oneRow ho hn s hs (hsi.trans_lt hsi')⟩

/-- A byte of a leaf of the old tree that has no like in the new one, or that an edit touched, lies in a
range if it lies in a leaf of the new tree, or if no leaf of the new tree lies across the old one. -/
theorem changedRanges_hold_old (ho : InLine old.root.leaves) (hn : InLine new.root.leaves)
    {a : Subtree} (ha : a ∈ old.root.leaves)
    (hchanged : a.hasChanges = true ∨
      ∀ b ∈ new.root.leaves, ¬(a.kind = b.kind ∧ a.start = b.start ∧ a.stop = b.stop))
    {i : Nat} (hi : a.start ≤ i ∧ i < a.stop)
    (hnew : (∃ b ∈ new.root.leaves, b.start ≤ i ∧ i < b.stop) ∨
      ∀ b ∈ new.root.leaves, b.stop ≤ a.start ∨ a.stop ≤ b.start) :
    ∃ r ∈ old.changedRanges new, r.startByte ≤ i ∧ i < r.endByte := by
  obtain ⟨ss, hcompares, hjoins⟩ := exists_joins ho hn
  have hnone : ∀ b ∈ new.root.leaves, ¬a.Remains b := by
    rintro b hb ⟨hkind, hstart, hstop, hunmarked⟩
    obtain hmarked | hnone := hchanged
    · rw [hmarked] at hunmarked
      cases hunmarked
    · exact hnone b hb ⟨hkind, hstart, hstop⟩
  have hlisted {t : Subtree} (ht : t.span ∈ ss) (hit : t.start ≤ i ∧ i < t.stop) :
      ∃ r ∈ old.changedRanges new, r.startByte ≤ i ∧ i < r.endByte := by
    obtain ⟨r, hr, hrt⟩ := hjoins.holds t.span ht
    obtain ⟨hstart, hstop⟩ := Span.holds_iff.1 hrt
    exact ⟨r, List.mem_reverse.1 hr, hstart.trans hit.1, hit.2.trans_le hstop⟩
  obtain ⟨b, hb, hib⟩ | hapart := hnew
  · obtain hs | ⟨c, hc, hcb⟩ := hcompares.new_leaf b hb
    · exact hlisted hs hib
    · have hstart := hcb.2.1
      have hstop := hcb.2.2.1
      obtain rfl := ho.eq_of_mem hc ha (by rwa [hstart, hstop]) hi
      exact absurd hcb (hnone b hb)
  · obtain hs | ⟨b, hb, hab | ⟨hstart, hstop⟩⟩ := hcompares.old_leaf a ha
    · exact hlisted hs hi
    · exact absurd hab (hnone b hb)
    · have hsides := hapart b hb
      omega

end Tree

namespace Language

open Subtree

def wordRow : Grammar :=
  (({ name := "words" } : Grammar).define "words" (.many (.ref "word"))).define "word"
    (.regex "[a-z]+")

/-- The tree of a text behind an edit of the text. -/
def edited (l : Language) (text : List Char) (e : Edit) : Tree := (l.parse text none 0).edit e 1

/-- The tree of the text that an edit led to, with what could be taken over. -/
def reparsed (l : Language) (text : List Char) (e : Edit) (after : List Char) : Tree :=
  l.parse after (some (l.edited text e)) 2

/-- The second of three words becomes another one. -/
theorem reports_changedRanges_wordRow : ∃ l e, Language.compile wordRow none 0 = .ok l ∧
    Edit.replace? ['a', ' ', 'b', ' ', 'c'] 2 3 ['x', 'y'] = some e ∧
    let old := l.edited ['a', ' ', 'b', ' ', 'c'] e
    let new := l.reparsed ['a', ' ', 'b', ' ', 'c'] e ['a', ' ', 'x', 'y', ' ', 'c']
    InLine old.root.leaves ∧ InLine new.root.leaves ∧
      old.changedRanges new = [⟨2, 4, ⟨0, 2⟩, ⟨0, 4⟩⟩] ∧
      (new.root.leaves.filter fun b => !(old.changedRanges new).any (·.holds b.span)).length = 2 ∧
      Tree.Reports old new (old.changedRanges new) := by
  obtain ⟨l, e, hl, he, htest⟩ := exists_of_editedWith
    (show editedWith wordRow none ['a', ' ', 'b', ' ', 'c'] 2 3 ['x', 'y']
        ['a', ' ', 'x', 'y', ' ', 'c'] (fun _ e first new =>
        let old := first.edit e 1
        decide (InLine old.root.leaves ∧ InLine new.root.leaves ∧
          old.changedRanges new = [⟨2, 4, ⟨0, 2⟩, ⟨0, 4⟩⟩] ∧ (new.root.leaves.filter fun b =>
            !(old.changedRanges new).any (·.holds b.span)).length = 2)) = true by decide +kernel)
  obtain ⟨ho, hn, hranges, hlength⟩ := of_decide_eq_true htest
  exact ⟨l, e, hl, he, ho, hn, hranges, hlength, Tree.reports_changedRanges ho hn⟩

/-- A word becomes two words. Each of the bytes of these is in a range. -/
theorem changedRanges_hold_old_wordRow : ∃ l e a, Language.compile wordRow none 0 = .ok l ∧
    Edit.replace? ['a', 'b', 'c'] 1 2 [' '] = some e ∧
    let old := l.edited ['a', 'b', 'c'] e
    let new := l.reparsed ['a', 'b', 'c'] e ['a', ' ', 'c']
    InLine old.root.leaves ∧ InLine new.root.leaves ∧ a ∈ old.root.leaves ∧ a.hasChanges = true ∧
      (a.start ≤ 2 ∧ 2 < a.stop) ∧ (∃ b ∈ new.root.leaves, b.start ≤ 2 ∧ 2 < b.stop) ∧
      ∃ r ∈ old.changedRanges new, r.startByte ≤ 2 ∧ 2 < r.endByte := by
  obtain ⟨l, e, hl, he, htest⟩ := exists_of_editedWith
    (show editedWith wordRow none ['a', 'b', 'c'] 1 2 [' '] ['a', ' ', 'c'] (fun _ e first new =>
        let old := first.edit e 1
        decide (InLine old.root.leaves ∧ InLine new.root.leaves ∧
          (∃ a ∈ old.root.leaves, a.hasChanges = true ∧ a.start ≤ 2 ∧ 2 < a.stop) ∧
          ∃ b ∈ new.root.leaves, b.start ≤ 2 ∧ 2 < b.stop)) = true by decide +kernel)
  obtain ⟨ho, hn, ⟨a, ha, hmarked, hi⟩, b, hb, hib⟩ := of_decide_eq_true htest
  exact ⟨l, e, a, hl, he, ho, hn, ha, hmarked, hi, ⟨b, hb, hib⟩,
    Tree.changedRanges_hold_old ho hn ha (.inl hmarked) hi (.inl ⟨b, hb, hib⟩)⟩

/-- The byte at which the word was cut in two was part of it, and is in no range. -/
theorem not_changedRanges_hold_old_wordRow : ∃ l e, Language.compile wordRow none 0 = .ok l ∧
    Edit.replace? ['a', 'b', 'c'] 1 2 [' '] = some e ∧
    let old := l.edited ['a', 'b', 'c'] e
    let new := l.reparsed ['a', 'b', 'c'] e ['a', ' ', 'c']
    InLine old.root.leaves ∧ InLine new.root.leaves ∧
      (∃ a ∈ old.root.leaves, a.hasChanges = true ∧ a.start ≤ 1 ∧ 1 < a.stop) ∧
      ¬∃ r ∈ old.changedRanges new, r.startByte ≤ 1 ∧ 1 < r.endByte := by
  obtain ⟨l, e, hl, he, htest⟩ := exists_of_editedWith
    (show editedWith wordRow none ['a', 'b', 'c'] 1 2 [' '] ['a', ' ', 'c'] (fun _ e first new =>
        let old := first.edit e 1
        decide (InLine old.root.leaves ∧ InLine new.root.leaves ∧
          (∃ a ∈ old.root.leaves, a.hasChanges = true ∧ a.start ≤ 1 ∧ 1 < a.stop) ∧
          ¬∃ r ∈ old.changedRanges new, r.startByte ≤ 1 ∧ 1 < r.endByte)) = true by decide +kernel)
  exact ⟨l, e, hl, he, of_decide_eq_true htest⟩

end Language

end EarleyTree

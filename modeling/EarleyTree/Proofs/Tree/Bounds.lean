import EarleyTree.Proofs.Tree.Nesting

/-!
Trees within the bounds of a text. Of errors and extras less is said: they may reach beyond their
parents, and after an edit beyond the text, but nothing is taken over from them.
-/
namespace EarleyTree.Subtree

open Text

/-- Nothing can be taken over from it, in any language. -/
def Barren (t : Subtree) : Prop :=
  Every (fun t => t.children = [] ∨ t.hasError = true ∨ t.isExtra = true) t

/-- The node ends where it begins or behind, its children come in the order in which they begin, and
the last of them ends within the node. -/
structure Tidy (t : Subtree) : Prop where
  le : t.start ≤ t.stop
  sorted : t.children.Pairwise fun c d => c.start ≤ d.start
  last : ∀ c ∈ t.children.getLast?, c.stop ≤ t.stop

/-- The node ends within the first `n` bytes, and each of its children within the node, but for what
is barren. -/
structure Bounded (n : Nat) (t : Subtree) : Prop where
  stop_le : Barren t ∨ t.stop ≤ n
  inside : ∀ c ∈ t.children, Barren c ∨ c.stop ≤ t.stop

variable {m n : Nat} {g s t : Subtree} {gs ts us : List Subtree}

theorem barren_skeleton : Barren t.skeleton ↔ Barren t := by
  refine every_skeleton fun t => ?_
  rw [children_skeleton, skeletonAll_eq_map, List.map_eq_nil_iff, hasError_skeleton,
    isExtra_skeleton]

theorem tidy_skeleton : Tidy t.skeleton ↔ Tidy t := by
  have hsorted : ((t.children.map skeleton).Pairwise fun c d => c.start ≤ d.start) ↔
      t.children.Pairwise fun c d => c.start ≤ d.start := by
    simp only [List.pairwise_map, start_skeleton]
  have hlast : (∀ c ∈ (t.children.map skeleton).getLast?, c.stop ≤ t.skeleton.stop) ↔
      ∀ c ∈ t.children.getLast?, c.stop ≤ t.stop := by
    simp [List.getLast?_map, stop_skeleton]
  rw [← skeletonAll_eq_map, ← children_skeleton] at hsorted hlast
  have hle : t.skeleton.start ≤ t.skeleton.stop ↔ t.start ≤ t.stop := by
    rw [start_skeleton, stop_skeleton]
  exact ⟨fun h => ⟨hle.1 h.le, hsorted.1 h.sorted, hlast.1 h.last⟩,
    fun h => ⟨hle.2 h.le, hsorted.2 h.sorted, hlast.2 h.last⟩⟩

theorem bounded_skeleton : Bounded n t.skeleton ↔ Bounded n t := by
  have hstop : Barren t.skeleton ∨ t.skeleton.stop ≤ n ↔ Barren t ∨ t.stop ≤ n := by
    rw [barren_skeleton, stop_skeleton]
  have hinside : (∀ c ∈ t.children.map skeleton, Barren c ∨ c.stop ≤ t.skeleton.stop) ↔
      ∀ c ∈ t.children, Barren c ∨ c.stop ≤ t.stop := by
    simp only [List.forall_mem_map, barren_skeleton, stop_skeleton]
  rw [← skeletonAll_eq_map, ← children_skeleton] at hinside
  exact ⟨fun h => ⟨hstop.1 h.stop_le, hinside.1 h.inside⟩,
    fun h => ⟨hstop.2 h.stop_le, hinside.2 h.inside⟩⟩

theorem Tidy.setData {data : NodeData} (h : Tidy t) (hspan : data.span = t.span) :
    Tidy ⟨data, t.children⟩ := by
  refine ⟨?_, h.sorted, ?_⟩
  · show data.span.startByte ≤ data.span.endByte
    rw [hspan]
    exact h.le
  · show ∀ c ∈ t.children.getLast?, c.stop ≤ data.span.endByte
    rw [hspan]
    exact h.last

/-- Neither the label nor the kind of a node matters. -/
theorem Bounded.setData {data : NodeData} (h : Bounded n t) (hspan : data.span = t.span)
    (herror : data.hasError = t.hasError) (hextra : data.isExtra = t.isExtra) :
    Bounded n ⟨data, t.children⟩ := by
  have hbarren : Barren t → Barren ⟨data, t.children⟩ := by
    intro hb
    refine hb.setData ?_
    show t.children = [] ∨ data.hasError = true ∨ data.isExtra = true
    rw [herror, hextra]
    exact hb.here
  refine ⟨?_, ?_⟩
  · show _ ∨ data.span.endByte ≤ n
    rw [hspan]
    exact h.stop_le.imp_left hbarren
  · show ∀ c ∈ t.children, Barren c ∨ c.stop ≤ data.span.endByte
    rw [hspan]
    exact h.inside

theorem Barren.bounded (h : Barren t) (n : Nat) : Every (Bounded n) t := by
  induction h with
  | mk h hs ih => exact .mk ⟨.inl (.mk h hs), fun c hc => .inl (hs c hc)⟩ ih

/-- What ends in time bounds all that something can be taken over from. -/
theorem bounded_of_stop_le (h : Every (Bounded n) t) (hm : Barren t ∨ t.stop ≤ m) :
    Every (Bounded m) t := by
  induction h with
  | mk h hs ih =>
      obtain hb | hm := hm
      · exact hb.bounded m
      · refine .mk ⟨.inr hm, h.inside⟩ fun c hc => ih c hc ?_
        exact (h.inside c hc).imp_right fun hstop => Nat.le_trans hstop hm

theorem Barren.put (hg : Barren g) (he : t.encloses g = true) (h : Barren t) :
    Barren (t.put g) := by
  refine Every.put (fun _ h => h) (fun t he h => ?_) hg t he h
  simp only [encloses, Bool.and_eq_true, Bool.not_eq_true', List.isEmpty_eq_false_iff] at he
  obtain ⟨⟨⟨hne, hextra⟩, -⟩, -⟩ := he
  obtain hnil | herror | hx := h
  · exact absurd hnil hne
  · exact .inr (.inl (by rw [hasError_put, herror, Bool.true_or]))
  · rw [hextra] at hx
    cases hx

theorem Bounded.put (hg : Barren g) (he : t.encloses g = true) (h : Bounded n t) :
    Bounded n (t.put g) := by
  refine ⟨?_, fun c hc => ?_⟩
  · rw [stop_put]
    exact h.stop_le.imp_left (.put hg he)
  · rw [stop_put]
    obtain ⟨data, ts⟩ := t
    obtain rfl | hc | ⟨t, ht, he, rfl⟩ := mem_of_mem_putAmong hc
    · exact .inl hg
    · exact h.inside c hc
    · rw [stop_put]
      exact (h.inside t ht).imp_left (.put hg he)

theorem sorted_insertAmong (h : ts.Pairwise fun c d => c.start ≤ d.start) (g : Subtree) :
    (insertAmong g ts).Pairwise fun c d => c.start ≤ d.start := by
  induction ts with
  | nil => exact List.pairwise_singleton _ _
  | cons t ts ih =>
      obtain ⟨hhead, hrest⟩ := List.pairwise_cons.1 h
      rw [insertAmong_cons]
      split
      · next hlt =>
          refine List.pairwise_cons.2 ⟨fun d hd => ?_, ih hrest⟩
          obtain rfl | hd := mem_insertAmong.1 hd
          · exact Nat.le_of_lt hlt
          · exact hhead d hd
      · next hge =>
          refine List.pairwise_cons.2 ⟨fun d hd => ?_, h⟩
          obtain rfl | hd := List.mem_cons.1 hd
          · exact Nat.not_lt.1 hge
          · exact Nat.le_trans (Nat.not_lt.1 hge) (hhead d hd)

theorem sorted_putAmong (h : ts.Pairwise fun c d => c.start ≤ d.start) (g : Subtree) :
    (putAmong g ts).Pairwise fun c d => c.start ≤ d.start := by
  rw [putAmong]
  cases hu : putInside g ts with
  | none => exact sorted_insertAmong h g
  | some us =>
      have hspan : (us.map (·.span)).Pairwise fun s s' => s.startByte ≤ s'.startByte := by
        rw [map_span_putInside hu]
        exact List.pairwise_map.2 h
      have hstarts := List.pairwise_map.1 hspan
      exact hstarts

theorem head_le_getLast {α : Type} {place : α → Nat} {l : List α}
    (h : l.Pairwise fun a b => place a ≤ place b) (hne : l ≠ []) :
    place (l.head hne) ≤ place (l.getLast hne) := by
  obtain ⟨a, l, rfl⟩ := List.exists_cons_of_ne_nil hne
  obtain he | hm := List.mem_cons.1 (List.getLast_mem hne)
  · exact Nat.le_of_eq (congrArg place he.symm)
  · exact (List.pairwise_cons.1 h).1 _ hm

theorem getLast?_insertAmong {c : Subtree} (h : c ∈ (insertAmong g ts).getLast?) :
    c = g ∨ c ∈ ts.getLast? := by
  have hsplit : ts.getLast? = (ts.dropWhile (·.start < g.start)).getLast?.or
      (ts.takeWhile (·.start < g.start)).getLast? := by
    rw [← List.getLast?_append, List.takeWhile_append_dropWhile]
  rw [insertAmong, List.getLast?_append] at h
  cases hd : ts.dropWhile (·.start < g.start) with
  | nil =>
      rw [hd] at h
      exact .inl (Option.some.inj h).symm
  | cons d ds =>
      rw [hd, List.getLast?_cons_cons] at h
      rw [hsplit, hd]
      exact .inr h

/-- What is last ends where the one put in does, or where the one that was last did. -/
theorem getLast?_putAmong {c : Subtree} (h : c ∈ (putAmong g ts).getLast?) :
    c = g ∨ ∃ d ∈ ts.getLast?, c.stop = d.stop := by
  rw [putAmong] at h
  cases hu : putInside g ts with
  | none =>
      rw [hu] at h
      exact (getLast?_insertAmong h).imp_right fun hc => ⟨c, hc, rfl⟩
  | some us =>
      rw [hu] at h
      have hspan : (us.map (·.span)).getLast? = (ts.map (·.span)).getLast? :=
        congrArg List.getLast? (map_span_putInside hu)
      have hc : us.getLast? = some c := h
      rw [List.getLast?_map, List.getLast?_map, hc, Option.map_some] at hspan
      obtain ⟨d, hd, heq⟩ := Option.map_eq_some_iff.1 hspan.symm
      exact .inr ⟨d, hd, congrArg Span.endByte heq.symm⟩

theorem Tidy.put (he : t.encloses g = true) (h : Tidy t) : Tidy (t.put g) := by
  obtain ⟨data, ts⟩ := t
  refine ⟨h.le, sorted_putAmong h.sorted g, fun c hc => ?_⟩
  obtain rfl | ⟨d, hd, heq⟩ := getLast?_putAmong hc
  · simp only [encloses, Bool.and_eq_true, decide_eq_true_iff] at he
    exact Nat.le_of_lt he.2
  · exact heq ▸ h.last d hd

/-- A tree within the first `n` bytes. -/
structure Settled (n : Nat) (t : Subtree) : Prop where
  tidy : Every Tidy t
  bounded : Every (Bounded n) t

theorem settled_skeleton : Settled n t.skeleton ↔ Settled n t :=
  ⟨fun h => ⟨(every_skeleton fun _ => tidy_skeleton).1 h.tidy,
      (every_skeleton fun _ => bounded_skeleton).1 h.bounded⟩,
    fun h => ⟨(every_skeleton fun _ => tidy_skeleton).2 h.tidy,
      (every_skeleton fun _ => bounded_skeleton).2 h.bounded⟩⟩

/-- What may be put into a tree: an extra or an error within the first `n` bytes. -/
structure Floats (n : Nat) (g : Subtree) : Prop where
  barren : Barren g
  tidy : Every Tidy g
  stop_le : g.stop ≤ n

/-- The children of a root while extras and errors are put in between them. -/
structure Shelf (n stop : Nat) (ts : List Subtree) : Prop where
  sorted : ts.Pairwise fun c d => c.start ≤ d.start
  last : ∀ c ∈ ts.getLast?, c.stop ≤ n
  inside : ∀ c ∈ ts, Barren c ∨ c.stop ≤ stop
  tidy : ∀ c ∈ ts, Every Tidy c
  bounded : ∀ c ∈ ts, Every (Bounded n) c

theorem Settled.shelf (h : Settled n t) (hn : t.stop ≤ n) : Shelf n t.stop t.children where
  sorted := h.tidy.here.sorted
  last c hc := Nat.le_trans (h.tidy.here.last c hc) hn
  inside := h.bounded.here.inside
  tidy := h.tidy.children
  bounded := h.bounded.children

namespace Shelf

variable {stop : Nat}

theorem put (hg : Floats n g) (h : Shelf n stop ts) : Shelf n stop (putAmong g ts) := by
  refine ⟨sorted_putAmong h.sorted g, fun c hc => ?_, fun c hc => ?_, ?_, ?_⟩
  · obtain rfl | ⟨d, hd, heq⟩ := getLast?_putAmong hc
    · exact hg.stop_le
    · exact heq ▸ h.last d hd
  · obtain rfl | hc | ⟨t, ht, he, rfl⟩ := mem_of_mem_putAmong hc
    · exact .inl hg.barren
    · exact h.inside c hc
    · rw [stop_put]
      exact (h.inside t ht).imp_left (.put hg.barren he)
  · exact .putAmong (fun _ h => h) (fun t he h => h.put he) hg.tidy h.tidy
  · exact .putAmong (fun _ h => h) (fun t he h => h.put hg.barren he) (hg.barren.bounded n)
      h.bounded

theorem fill (hgs : ∀ g ∈ gs, Floats n g) (h : Shelf n stop ts) :
    Shelf n stop (fillAmong gs ts) := by
  induction gs generalizing ts with
  | nil => exact h
  | cons g gs ih =>
      exact ih (fun g' hg' => hgs g' (List.mem_cons_of_mem g hg')) (h.put (hgs g List.mem_cons_self))

theorem coverChildren (hle : t.start ≤ t.stop) (hn : t.stop ≤ n) (h : Shelf n t.stop t.children) :
    Settled n t.coverChildren := by
  by_cases hne : t.children = []
  · obtain ⟨data, ts⟩ := t
    obtain rfl : ts = [] := hne
    exact ⟨.mk ⟨hle, h.sorted, fun c hc => nomatch hc⟩ h.tidy, .mk ⟨.inr hn, h.inside⟩ h.bounded⟩
  · have hlast := List.getLast?_eq_some_getLast hne
    obtain ⟨hstart, hstop, hself, hcases⟩ := span_coverChildren (List.head?_eq_some_head hne) hlast
    have hhead := head_le_getLast h.sorted hne
    have htidy := (h.tidy _ (List.getLast_mem hne)).here.le
    have hin := h.last _ hlast
    refine ⟨.mk ⟨by omega, h.sorted, fun c hc => ?_⟩ h.tidy,
      .mk ⟨.inr (by omega), fun c hc => ?_⟩ h.bounded⟩
    · obtain rfl := Option.some.inj (hlast.symm.trans hc)
      exact hstop
    · exact (h.inside c hc).imp_right fun hc => Nat.le_trans hc hself

end Shelf

/-- Extras and errors leave a tree within the bounds of its text. -/
theorem Settled.cover_fill (hgs : ∀ g ∈ gs, Floats n g) (hn : t.stop ≤ n) (h : Settled n t) :
    Settled n (Subtree.fill gs t).coverChildren := by
  have hshelf := (h.shelf hn).fill hgs
  obtain ⟨data, ts⟩ := t
  rw [fill_mk]
  exact hshelf.coverChildren h.tidy.here.le hn

end EarleyTree.Subtree

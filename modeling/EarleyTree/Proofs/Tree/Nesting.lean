import EarleyTree.Proofs.Tree.Every

/-!
Trees whose nodes lie one behind the other within their parents, and when they stay such trees while
nodes are put in.
-/
namespace EarleyTree.Subtree

open Text

/-- One of the nodes lies behind the other. -/
def Parted (f g : Subtree) : Prop := f.stop ≤ g.start ∨ g.stop ≤ f.start

/-- The children lie one behind the other within the node. -/
structure Spaced (t : Subtree) : Prop where
  order : t.children.Pairwise fun c d => c.stop ≤ d.start
  inside : ∀ c ∈ t.children, t.start ≤ c.start ∧ c.start ≤ c.stop ∧ c.stop ≤ t.stop

def Nested (t : Subtree) : Prop := Every Spaced t

/-- The first node lies behind the second, before it, or is to be put into it. -/
def Clears (g c : Subtree) : Prop :=
  c.start < g.start ∧ c.stop ≤ g.start ∨ g.stop ≤ c.start ∨ c.encloses g = true

/-- The node has room between its children for those of the nodes that are to be put into it. -/
structure Ready (gs : List Subtree) (t : Subtree) : Prop extends Spaced t where
  room : ∀ g ∈ gs, t.encloses g = true → ∀ c ∈ t.children, g.Clears c

/-- The child is not in the way of the node that is to be put beside it or into it. -/
def StandsClear (g c : Subtree) : Prop :=
  c.start ≠ g.start ∧ (c.surrounds g = true → c.children ≠ [])

/-- The nodes lie apart from each other, and there is room for each in the tree, in which no node
begins before its parent. -/
structure LeavesRoom (gs : List Subtree) (root : Subtree) : Prop where
  apart : gs.Pairwise Parted
  begins : Every (fun t => ∀ c ∈ t.children, t.start ≤ c.start) root
  here : ∀ g ∈ gs, ∀ c ∈ root.children, g.StandsClear c
  below : Every (fun t => ∀ g ∈ gs, t.surrounds g = true → ∀ c ∈ t.children, g.StandsClear c) root

instance (f g : Subtree) : Decidable (Parted f g) := inferInstanceAs (Decidable (_ ∨ _))

instance (g c : Subtree) : Decidable (StandsClear g c) := inferInstanceAs (Decidable (_ ∧ _))

instance (gs : List Subtree) (root : Subtree) : Decidable (LeavesRoom gs root) :=
  decidable_of_iff (_ ∧ _ ∧ _ ∧ _)
    ⟨fun h => ⟨h.1, h.2.1, h.2.2.1, h.2.2.2⟩, fun h => ⟨h.apart, h.begins, h.here, h.below⟩⟩

variable {f g t : Subtree} {gs ts us : List Subtree}

theorem nested_skeleton : Nested t.skeleton ↔ Nested t := by
  refine every_skeleton fun t => ?_
  have horder : ((t.children.map skeleton).Pairwise fun c d => c.stop ≤ d.start) ↔
      t.children.Pairwise fun c d => c.stop ≤ d.start := by
    simp only [List.pairwise_map, start_skeleton, stop_skeleton]
  have hinside : (∀ c ∈ t.children.map skeleton,
        t.skeleton.start ≤ c.start ∧ c.start ≤ c.stop ∧ c.stop ≤ t.skeleton.stop) ↔
      ∀ c ∈ t.children, t.start ≤ c.start ∧ c.start ≤ c.stop ∧ c.stop ≤ t.stop := by
    simp only [List.forall_mem_map, start_skeleton, stop_skeleton]
  rw [← skeletonAll_eq_map, ← children_skeleton] at horder hinside
  exact ⟨fun h => ⟨horder.1 h.order, hinside.1 h.inside⟩,
    fun h => ⟨horder.2 h.order, hinside.2 h.inside⟩⟩

theorem Parted.symm (h : Parted f g) : Parted g f := Or.symm h

theorem map_span_putInside (h : putInside g ts = some us) :
    us.map (·.span) = ts.map (·.span) := by
  induction ts generalizing us with
  | nil => cases h
  | cons t ts ih =>
      rw [putInside] at h
      split at h
      · cases h
        cases t
        rfl
      · obtain ⟨us, hu, rfl⟩ := Option.map_eq_some_iff.1 h
        rw [List.map_cons, List.map_cons, ih hu]

theorem order_insertAmong (ho : ts.Pairwise fun c d => c.stop ≤ d.start)
    (hle : ∀ c ∈ ts, c.start ≤ c.stop) (hg : g.start ≤ g.stop)
    (hc : ∀ c ∈ ts, c.start < g.start ∧ c.stop ≤ g.start ∨ g.stop ≤ c.start) :
    (insertAmong g ts).Pairwise fun c d => c.stop ≤ d.start := by
  induction ts with
  | nil => exact List.pairwise_singleton _ _
  | cons t ts ih =>
      obtain ⟨hhead, hrest⟩ := List.pairwise_cons.1 ho
      have ht := hc t List.mem_cons_self
      rw [insertAmong_cons]
      split
      · next hlt =>
          refine List.pairwise_cons.2 ⟨fun d hd => ?_, ih hrest ?_ ?_⟩
          · obtain rfl | hd := mem_insertAmong.1 hd
            · omega
            · exact hhead d hd
          · exact fun c hm => hle c (List.mem_cons_of_mem t hm)
          · exact fun c hm => hc c (List.mem_cons_of_mem t hm)
      · next hlt =>
          refine List.pairwise_cons.2 ⟨fun d hd => ?_, ho⟩
          have hstop : g.stop ≤ t.start := by omega
          obtain rfl | hd := List.mem_cons.1 hd
          · exact hstop
          · exact Nat.le_trans (Nat.le_trans hstop (hle t List.mem_cons_self)) (hhead d hd)

theorem order_putAmong (ho : ts.Pairwise fun c d => c.stop ≤ d.start)
    (hle : ∀ c ∈ ts, c.start ≤ c.stop) (hg : g.start ≤ g.stop) (hc : ∀ c ∈ ts, g.Clears c) :
    (putAmong g ts).Pairwise fun c d => c.stop ≤ d.start := by
  rw [putAmong]
  cases hu : putInside g ts with
  | some us =>
      have hspan : (us.map (·.span)).Pairwise fun s s' => s.endByte ≤ s'.startByte := by
        rw [map_span_putInside hu]
        exact List.pairwise_map.2 ho
      exact List.pairwise_map.1 hspan
  | none =>
      have hany := isSome_putInside g ts
      rw [hu] at hany
      refine order_insertAmong ho hle hg fun c hm => ?_
      obtain h | h | he := hc c hm
      · exact .inl h
      · exact .inr h
      · rw [List.any_eq_true.2 ⟨c, hm, he⟩] at hany
        cases hany

theorem clears_putAmong (hg : g.start < g.stop) (hp : Parted f g) (hc : ∀ c ∈ ts, f.Clears c) :
    ∀ c ∈ putAmong g ts, f.Clears c := by
  intro c hm
  obtain rfl | hm | ⟨t, ht, he, rfl⟩ := mem_of_mem_putAmong hm
  · obtain hp | hp := hp
    · exact .inr (.inl hp)
    · exact .inl ⟨by omega, hp⟩
  · exact hc c hm
  · have h := hc t ht
    rwa [Clears, ← start_put g t, ← stop_put g t, ← encloses_put he f] at h

theorem le_putAmong (hle : ∀ c ∈ ts, c.start ≤ c.stop) (hg : g.start ≤ g.stop) :
    ∀ c ∈ putAmong g ts, c.start ≤ c.stop := by
  intro c hm
  obtain rfl | hm | ⟨t, ht, -, rfl⟩ := mem_of_mem_putAmong hm
  · exact hg
  · exact hle c hm
  · rw [start_put, stop_put]
    exact hle t ht

theorem Ready.put (hg : g.start < g.stop) (hp : ∀ f ∈ gs, Parted f g) (he : t.encloses g = true)
    (h : Ready (g :: gs) t) : Ready gs (t.put g) := by
  obtain ⟨data, ts⟩ := t
  have hclear := h.room g List.mem_cons_self he
  have hle : ∀ c ∈ ts, c.start ≤ c.stop := fun c hc => (h.inside c hc).2.1
  have hin : data.span.startByte < g.start ∧ g.stop < data.span.endByte := by
    simp only [encloses, Bool.and_eq_true, decide_eq_true_iff] at he
    exact ⟨he.1.2, he.2⟩
  refine ⟨⟨order_putAmong h.order hle (Nat.le_of_lt hg) hclear, fun c hc => ?_⟩, fun f hf hf' => ?_⟩
  · obtain rfl | hc | ⟨t, ht, -, rfl⟩ := mem_of_mem_putAmong hc
    · exact ⟨Nat.le_of_lt hin.1, Nat.le_of_lt hg, Nat.le_of_lt hin.2⟩
    · exact h.inside c hc
    · rw [start_put, stop_put, stop_put, start_put]
      exact h.inside t ht
  · rw [encloses_put he] at hf'
    exact clears_putAmong hg (hp f hf) (h.room f (List.mem_cons_of_mem g hf) hf')

theorem Ready.mono (h : Ready (g :: gs) t) : Ready gs t :=
  ⟨h.toSpaced, fun f hf => h.room f (List.mem_cons_of_mem g hf)⟩

/-- Nothing is put into a node that lies apart from all of it. -/
theorem Nested.ready (h : Nested t) (hgs : ∀ g ∈ gs, g.start < g.stop ∧ Parted g t) :
    Every (Ready gs) t := by
  induction h with
  | mk hs _ ih =>
      refine .mk ⟨hs, fun g hg he => ?_⟩ fun c hc => ih c hc fun g hg => ?_
      · obtain ⟨hlt, hp⟩ := hgs g hg
        simp only [encloses, Bool.and_eq_true, decide_eq_true_iff] at he
        rw [Parted] at hp
        omega
      · obtain ⟨hlt, hp⟩ := hgs g hg
        obtain ⟨hstart, -, hstop⟩ := hs.inside c hc
        exact ⟨hlt, hp.imp (fun h => Nat.le_trans h hstart) (Nat.le_trans hstop)⟩

/-- The nodes are put in one after the other, and each leaves room for those that follow. -/
theorem nested_fillAmong (hgs : ∀ g ∈ gs, g.start < g.stop ∧ Nested g) (hp : gs.Pairwise Parted)
    (ho : ts.Pairwise fun c d => c.stop ≤ d.start) (hle : ∀ c ∈ ts, c.start ≤ c.stop)
    (hc : ∀ g ∈ gs, ∀ c ∈ ts, g.Clears c) (h : ∀ c ∈ ts, Every (Ready gs) c) :
    ((fillAmong gs ts).Pairwise fun c d => c.stop ≤ d.start) ∧
      ∀ c ∈ fillAmong gs ts, c.start ≤ c.stop ∧ Nested c := by
  induction gs generalizing ts with
  | nil => exact ⟨ho, fun c hm => ⟨hle c hm, (h c hm).mono fun _ ht => ht.toSpaced⟩⟩
  | cons g gs ih =>
      obtain ⟨hparted, hp⟩ := List.pairwise_cons.1 hp
      obtain ⟨hlt, hnested⟩ := hgs g List.mem_cons_self
      have hgs' := fun f hf => hgs f (List.mem_cons_of_mem g hf)
      refine ih hgs' hp ?_ ?_ ?_ ?_
      · exact order_putAmong ho hle (Nat.le_of_lt hlt) (hc g List.mem_cons_self)
      · exact le_putAmong hle (Nat.le_of_lt hlt)
      · intro f hf
        exact clears_putAmong hlt (hparted f hf).symm (hc f (List.mem_cons_of_mem g hf))
      · refine .putAmong (fun t ht => ht.mono) (fun t he ht => ?_) ?_ h
        · exact ht.put hlt (fun f hf => (hparted f hf).symm) he
        · exact hnested.ready fun f hf => ⟨(hgs' f hf).1, (hparted f hf).symm⟩

theorem span_coverChildren {first last : Subtree} (hfirst : t.children.head? = some first)
    (hlast : t.children.getLast? = some last) :
    t.coverChildren.start ≤ first.start ∧ last.stop ≤ t.coverChildren.stop ∧
      t.stop ≤ t.coverChildren.stop ∧
        (t.coverChildren.stop = t.stop ∨ t.coverChildren.stop = last.stop) := by
  simp only [coverChildren, hfirst, hlast]
  by_cases hs : first.start < t.span.startByte ∨ t.span = Span.zero
  · by_cases he : t.span.endByte < last.stop
    · simp only [hs, he, if_true]
      exact ⟨Nat.le_refl _, Nat.le_refl _, Nat.le_of_lt he, .inr trivial⟩
    · simp only [hs, he, if_true, if_false]
      exact ⟨Nat.le_refl _, Nat.not_lt.1 he, Nat.le_refl _, .inl trivial⟩
  · have hstart : t.span.startByte ≤ first.start := Nat.not_lt.1 fun h => hs (.inl h)
    by_cases he : t.span.endByte < last.stop
    · simp only [hs, he, if_true, if_false]
      exact ⟨hstart, Nat.le_refl _, Nat.le_of_lt he, .inr trivial⟩
    · simp only [hs, he, if_false]
      exact ⟨hstart, Nat.not_lt.1 he, Nat.le_refl _, .inl trivial⟩

theorem start_head_le (ho : ts.Pairwise fun c d => c.stop ≤ d.start)
    (hle : ∀ c ∈ ts, c.start ≤ c.stop) (hne : ts ≠ []) {c : Subtree} (hc : c ∈ ts) :
    (ts.head hne).start ≤ c.start := by
  cases ts with
  | nil => exact absurd rfl hne
  | cons t ts =>
      obtain rfl | hc := List.mem_cons.1 hc
      · exact Nat.le_refl _
      · exact Nat.le_trans (hle t List.mem_cons_self) ((List.pairwise_cons.1 ho).1 c hc)

theorem le_stop_getLast (ho : ts.Pairwise fun c d => c.stop ≤ d.start)
    (hle : ∀ c ∈ ts, c.start ≤ c.stop) (hne : ts ≠ []) {c : Subtree} (hc : c ∈ ts) :
    c.stop ≤ (ts.getLast hne).stop := by
  rw [← List.dropLast_concat_getLast hne] at hc ho
  obtain hc | hc := List.mem_append.1 hc
  · exact Nat.le_trans ((List.pairwise_append.1 ho).2.2 c hc _ (List.mem_singleton_self _))
      (hle _ (List.getLast_mem hne))
  · exact Nat.le_of_eq (congrArg stop (List.mem_singleton.1 hc))

/-- The root reaches around its first and its last child, and so around all of them. -/
theorem nested_coverChildren (ho : t.children.Pairwise fun c d => c.stop ≤ d.start)
    (hc : ∀ c ∈ t.children, c.start ≤ c.stop ∧ Nested c) : Nested t.coverChildren := by
  refine .mk ⟨ho, fun c hm => ?_⟩ fun c hm => (hc c hm).2
  have hm : c ∈ t.children := hm
  have hne : t.children ≠ [] := List.ne_nil_of_mem hm
  have hle := fun c hm => (hc c hm).1
  obtain ⟨hfirst, hlast, -⟩ := span_coverChildren (List.head?_eq_some_head hne)
    (List.getLast?_eq_some_getLast hne)
  exact ⟨Nat.le_trans hfirst (start_head_le ho hle hne hm), hle c hm,
    Nat.le_trans (le_stop_getLast ho hle hne hm) hlast⟩

theorem leavesAll_eq_flatMap (ts : List Subtree) : leavesAll ts = ts.flatMap leaves := by
  induction ts with
  | nil => rfl
  | cons t ts ih => rw [leavesAll, ih, List.flatMap_cons]

/-- The leaves of such a tree come in the order of the text. -/
theorem Nested.leaves (h : Nested t) : t.leaves.Pairwise (fun c d => c.stop ≤ d.start) ∧
    ∀ c ∈ t.leaves, t.start ≤ c.start ∧ c.stop ≤ t.stop := by
  induction h with
  | @mk t hs _ ih =>
      obtain ⟨data, ts⟩ := t
      rw [Subtree.leaves]
      split
      · refine ⟨List.pairwise_singleton _ _, fun c hc => ?_⟩
        rw [List.mem_singleton.1 hc]
        exact ⟨Nat.le_refl _, Nat.le_refl _⟩
      · rw [leavesAll_eq_flatMap]
        refine ⟨List.pairwise_flatMap.2 ⟨fun c hc => (ih c hc).1, ?_⟩, fun l hl => ?_⟩
        · refine hs.order.imp_of_mem fun hc hd hle l hl m hm => ?_
          exact Nat.le_trans ((ih _ hc).2 l hl).2 (Nat.le_trans hle ((ih _ hd).2 m hm).1)
        · obtain ⟨c, hc, hl⟩ := List.mem_flatMap.1 hl
          obtain ⟨hstart, -, hstop⟩ := hs.inside c hc
          exact ⟨Nat.le_trans hstart ((ih c hc).2 l hl).1, Nat.le_trans ((ih c hc).2 l hl).2 hstop⟩

end EarleyTree.Subtree

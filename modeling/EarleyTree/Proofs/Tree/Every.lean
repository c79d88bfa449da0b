import EarleyTree.Proofs.Tree.Filling

/-!
What holds of every node of a tree, and stays so when nodes are put in.
-/
namespace EarleyTree.Subtree

open Text

mutual

/-- Induction from the children to the node. -/
theorem induct {M : Subtree → Prop} (node : ∀ (data : NodeData) (children : List Subtree),
    (∀ c ∈ children, M c) → M ⟨data, children⟩) : ∀ t : Subtree, M t
  | ⟨data, children⟩ => node data children (inductAll node children)

theorem inductAll {M : Subtree → Prop} (node : ∀ (data : NodeData) (children : List Subtree),
    (∀ c ∈ children, M c) → M ⟨data, children⟩) : ∀ ts : List Subtree, ∀ c ∈ ts, M c
  | [], _, hc => absurd hc List.not_mem_nil
  | t :: ts, c, hc => by
      obtain he | hc := List.mem_cons.1 hc
      · exact he ▸ induct node t
      · exact inductAll node ts c hc

end

inductive Every (P : Subtree → Prop) : Subtree → Prop
  | mk {t : Subtree} (here : P t) (inner : ∀ c ∈ t.children, Every P c) : Every P t

variable {P Q : Subtree → Prop} {g t : Subtree} {gs ts us : List Subtree}

namespace Every

theorem here (h : Every P t) : P t := by
  cases h with
  | mk h _ => exact h

theorem children (h : Every P t) : ∀ c ∈ t.children, Every P c := by
  cases h with
  | mk _ h => exact h

theorem mono (h : Every P t) (hPQ : ∀ t, P t → Q t) : Every Q t := by
  induction h with
  | mk h _ ih => exact .mk (hPQ _ h) ih

theorem and (h : Every P t) (h' : Every Q t) : Every (fun t => P t ∧ Q t) t := by
  induction h with
  | mk h _ ih => exact .mk ⟨h, h'.here⟩ fun c hc => ih c hc (h'.children c hc)

theorem withChildren (h : Every P t) : Every (fun t => P t ∧ ∀ c ∈ t.children, P c) t := by
  induction h with
  | mk h hs ih => exact .mk ⟨h, fun c hc => (hs c hc).here⟩ ih

theorem setData {data : NodeData} (h : Every P t) (hP : P ⟨data, t.children⟩) :
    Every P ⟨data, t.children⟩ :=
  .mk hP h.children

end Every

mutual

def decEvery (P : Subtree → Prop) [DecidablePred P] : (t : Subtree) → Decidable (Every P t)
  | ⟨data, children⟩ =>
    match (inferInstance : Decidable (P ⟨data, children⟩)), decEveryAll P children with
    | isTrue h, isTrue hs => isTrue (.mk h hs)
    | isFalse h, _ => isFalse fun he => h he.here
    | _, isFalse h => isFalse fun he => h he.children

def decEveryAll (P : Subtree → Prop) [DecidablePred P] :
    (ts : List Subtree) → Decidable (∀ t ∈ ts, Every P t)
  | [] => isTrue fun _ h => absurd h List.not_mem_nil
  | t :: ts =>
    match decEvery P t, decEveryAll P ts with
    | isTrue h, isTrue hs => isTrue (List.forall_mem_cons.2 ⟨h, hs⟩)
    | isFalse h, _ => isFalse fun he => h (he t List.mem_cons_self)
    | _, isFalse h => isFalse fun he => h fun c hc => he c (List.mem_cons_of_mem t hc)

end

instance [DecidablePred P] : Decidable (Every P t) := decEvery P t

theorem every_skeleton (hP : ∀ t, P t.skeleton ↔ P t) : Every P t.skeleton ↔ Every P t := by
  induction t using induct with
  | node data children ih =>
      constructor
      · intro h
        refine .mk ((hP _).1 h.here) fun c hc => (ih c hc).1 (h.children _ ?_)
        rw [children_skeleton, skeletonAll_eq_map]
        exact List.mem_map_of_mem hc
      · intro h
        refine .mk ((hP _).2 h.here) fun c hc => ?_
        rw [children_skeleton, skeletonAll_eq_map] at hc
        obtain ⟨d, hd, rfl⟩ := List.mem_map.1 hc
        exact (ih d hd).2 (h.children d hd)

theorem mem_insertAmong {c : Subtree} : c ∈ insertAmong g ts ↔ c = g ∨ c ∈ ts := by
  rw [insertAmong, List.mem_append, List.mem_cons, or_left_comm, ← List.mem_append,
    List.takeWhile_append_dropWhile]

theorem mem_of_mem_putInside {c : Subtree} (h : putInside g ts = some us) (hc : c ∈ us) :
    c ∈ ts ∨ ∃ t ∈ ts, t.encloses g = true ∧ c = t.put g := by
  induction ts generalizing us with
  | nil => cases h
  | cons t ts ih =>
      rw [putInside] at h
      split at h
      · next he =>
          cases h
          obtain rfl | hc := List.mem_cons.1 hc
          · exact .inr ⟨t, List.mem_cons_self, he, rfl⟩
          · exact .inl (List.mem_cons_of_mem _ hc)
      · obtain ⟨us, hu, rfl⟩ := Option.map_eq_some_iff.1 h
        obtain rfl | hc := List.mem_cons.1 hc
        · exact .inl List.mem_cons_self
        · obtain hc | ⟨s, hs, h⟩ := ih hu hc
          · exact .inl (List.mem_cons_of_mem _ hc)
          · exact .inr ⟨s, List.mem_cons_of_mem _ hs, h⟩

theorem mem_of_mem_putAmong {c : Subtree} (hc : c ∈ putAmong g ts) :
    c = g ∨ c ∈ ts ∨ ∃ t ∈ ts, t.encloses g = true ∧ c = t.put g := by
  rw [putAmong] at hc
  cases hu : putInside g ts with
  | none =>
      rw [hu] at hc
      exact (mem_insertAmong.1 hc).imp_right .inl
  | some us =>
      rw [hu] at hc
      exact .inr (mem_of_mem_putInside hu hc)

/-- The nodes on the way down change, the others stay. -/
theorem Every.put (hPQ : ∀ t, P t → Q t) (hput : ∀ t, t.encloses g = true → P t → Q (t.put g))
    (hg : Every Q g) (t : Subtree) (he : t.encloses g = true) (h : Every P t) :
    Every Q (t.put g) := by
  induction t using induct with
  | node data children ih =>
      refine .mk (hput _ he h.here) fun c hc => ?_
      obtain rfl | hc | ⟨t, ht, he, rfl⟩ := mem_of_mem_putAmong hc
      · exact hg
      · exact (h.children c hc).mono hPQ
      · exact ih t ht he (h.children t ht)

theorem Every.putAmong (hPQ : ∀ t, P t → Q t)
    (hput : ∀ t, t.encloses g = true → P t → Q (t.put g)) (hg : Every Q g)
    (h : ∀ c ∈ ts, Every P c) : ∀ c ∈ putAmong g ts, Every Q c := by
  intro c hc
  obtain rfl | hc | ⟨t, ht, he, rfl⟩ := mem_of_mem_putAmong hc
  · exact hg
  · exact (h c hc).mono hPQ
  · exact .put hPQ hput hg t he (h t ht)

section

variable {P : NodeData → Prop}
  (hP : ∀ d d' : NodeData, d'.span = d.span → d'.hasChanges = d.hasChanges → P d → P d')
  {era : Nat}

include hP

mutual

/-- What depends on the places and the marks of nodes alone is kept when a node is put in. -/
theorem every_insertFloating (hg : Every (fun t => P t.data) g) (trail : List Nat) :
    ∀ t : Subtree, Every (fun t => P t.data) t →
      Every (fun t => P t.data) (insertFloating g era trail t)
  | ⟨data, children⟩, h => by
      rw [insertFloating]
      refine .mk (hP data _ rfl rfl h.here) fun c hc => ?_
      cases hu : insertInside g era trail children with
      | none =>
          rw [hu] at hc
          obtain rfl | hc := mem_insertAmong.1 hc
          · exact hg
          · exact h.children c hc
      | some us =>
          rw [hu] at hc
          exact every_insertInside hg trail children us h.children hu c hc

theorem every_insertInside (hg : Every (fun t => P t.data) g) (trail : List Nat) :
    ∀ ts us : List Subtree, (∀ t ∈ ts, Every (fun t => P t.data) t) →
      insertInside g era trail ts = some us → ∀ c ∈ us, Every (fun t => P t.data) c
  | [], _, _, hu => nomatch hu
  | t :: ts, us, h, hu => by
      obtain ⟨ht, hts⟩ := List.forall_mem_cons.1 h
      rw [insertInside] at hu
      split at hu
      · cases hu
        have hinner := every_insertFloating hg (0 :: trail) t ht
        refine List.forall_mem_cons.2 ⟨hinner.setData ?_, hts⟩
        exact hP (insertFloating g era (0 :: trail) t).data _ rfl rfl hinner.here
      · obtain ⟨vs, hv, rfl⟩ := Option.map_eq_some_iff.1 hu
        exact List.forall_mem_cons.2 ⟨ht, every_insertInside hg trail ts vs hts hv⟩

end

end

end EarleyTree.Subtree

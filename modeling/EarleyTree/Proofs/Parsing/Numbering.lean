import EarleyTree.Proofs.Parsing.Building

/-!
Numbers of nodes. As a derivation is found each node gets a number of its own, and wherever children that
were found before are used again, they bear the numbers that they have.
-/
namespace EarleyTree

open Text Subtree

namespace Subtree

/-- The node is the one that was made under its number, labels aside. -/
def Entered (era : Nat) (made : List Subtree) (t : Subtree) : Prop :=
  ∃ k : Nat, t.ident = ⟨era, [k]⟩ ∧ made[k]? = some (t.setField none)

variable {era : Nat} {made made' : List Subtree} {t : Subtree}

theorem Entered.mono (h : Entered era made t) (hmade : made <+: made') : Entered era made' t := by
  obtain ⟨k, hident, hk⟩ := h
  obtain ⟨rest, rfl⟩ := hmade
  have hlt : k < made.length := (List.getElem?_eq_some_iff.1 hk).1
  exact ⟨k, hident, (List.getElem?_append_left hlt).trans hk⟩

theorem Entered.every_mono (h : Every (Entered era made) t) (hmade : made <+: made') :
    Every (Entered era made') t :=
  h.mono fun _ ht => ht.mono hmade

theorem Entered.every_setField (h : Every (Entered era made) t) (field : Option FieldId) :
    Every (Entered era made) (t.setField field) :=
  h.setData h.here

/-- A node over nodes made before is entered last. -/
theorem Entered.every_new (hident : t.ident = ⟨era, [made.length]⟩)
    (hchildren : ∀ c ∈ t.children, Every (Entered era made) c) :
    Every (Entered era (made ++ [t.setField none])) t := by
  refine .mk ⟨made.length, hident, ?_⟩ fun c hc => every_mono (hchildren c hc) ⟨_, rfl⟩
  rw [List.getElem?_append_right (Nat.le_refl _), Nat.sub_self]
  rfl

end Subtree

/-- Whenever the action gives a result, nodes have been made besides those made before, with which the
memory and the result agree. -/
def Extract.Grows {α : Type} (I : List Subtree → Memory → Prop) (made : List Subtree)
    (act : Extract α) (Q : List Subtree → α → Prop) : Prop :=
  ∀ m, I made m → ∀ a m', act.run m = some (a, m') →
    ∃ made', made <+: made' ∧ I made' m' ∧ Q made' a

namespace Extract.Grows

variable {α β : Type} {I : List Subtree → Memory → Prop} {made : List Subtree}
  {Q : List Subtree → α → Prop} {R : List Subtree → β → Prop}

theorem pure {a : α} (h : Q made a) : Grows I made (pure a) Q := by
  intro m hm b m' hr
  cases hr
  exact ⟨made, List.prefix_refl made, hm, h⟩

theorem bind {act : Extract α} {f : α → Extract β} (h : Grows I made act Q)
    (hf : ∀ made' a, made <+: made' → Q made' a → Grows I made' (f a) R) :
    Grows I made (act >>= f) R := by
  intro m hm b m' hr
  rw [StateT.run_bind] at hr
  obtain ⟨⟨a, m₁⟩, ha, hb⟩ := Option.bind_eq_some_iff.1 hr
  obtain ⟨made₁, hle, hm₁, hq⟩ := h m hm a m₁ ha
  obtain ⟨made₂, hle', hm₂, hb⟩ := hf made₁ a hle hq m₁ hm₁ b m' hb
  exact ⟨made₂, hle.trans hle', hm₂, hb⟩

theorem of_get {f : Memory → Extract β} (h : ∀ m, I made m → Grows I made (f m) R) :
    Grows I made (get >>= f) R := fun m hm => h m hm m hm

theorem of_set {m' : Memory} {f : PUnit → Extract β} (hm' : I made m')
    (h : Grows I made (f ⟨⟩) R) : Grows I made (set m' >>= f) R := fun _ _ => h m' hm'

end Extract.Grows

namespace Derivation

open Extract

variable {x : Derivation} {made : List Subtree}

/-- The nodes made so far are numbered in their order, and all that is remembered is among them. -/
structure Numbers (x : Derivation) (made : List Subtree) (m : Memory) : Prop where
  nodes : m.nodes = made.length
  recalls : Recalls (Every (Entered x.era made)) m

/-- Whatever the action finds has been entered. -/
def Enters (x : Derivation) (act : Extract (Option (List Subtree))) : Prop :=
  ∀ made, Grows x.Numbers made act fun made => Throughout (Every (Entered x.era made))

theorem numbers_empty : x.Numbers [] {} := ⟨rfl, fun _ _ hm => absurd hm List.not_mem_nil⟩

theorem freshIdent_grows {β : Type} {f : Ident → Extract β} {Q : List Subtree → β → Prop}
    {t : Subtree} (h : Grows x.Numbers (made ++ [t]) (f ⟨x.era, [made.length]⟩) Q) :
    Grows x.Numbers made (x.freshIdent >>= f) Q := by
  intro m hm b m' hr
  have hm₁ : x.Numbers (made ++ [t]) { m with nodes := m.nodes + 1 } := by
    refine ⟨?_, fun s ts hs c hc => Entered.every_mono (hm.recalls s ts hs c hc) ⟨_, rfl⟩⟩
    rw [List.length_append, List.length_singleton, ← hm.nodes]
  rw [← hm.nodes] at h
  obtain ⟨made', hle, h⟩ := h _ hm₁ b m' hr
  exact ⟨made', (List.prefix_append made [t]).trans hle, h⟩

/-- A new node gets the next number, and with its label it is the only result. -/
theorem node_grows {f : Ident → Subtree} {field : Option FieldId}
    (hident : ∀ i, (f i).ident = i)
    (hchildren : ∀ i, ∀ c ∈ (f i).children, Every (Entered x.era made) c) :
    Grows x.Numbers made (do return some [(f (← x.freshIdent)).setField field])
      fun made => Throughout (Every (Entered x.era made)) := by
  refine freshIdent_grows (t := (f ⟨x.era, [made.length]⟩).setField none)
    (.pure (throughout_some ?_))
  rw [List.forall_mem_singleton]
  exact Entered.every_setField (Entered.every_new (hident _) (hchildren _)) field

section

variable {derive : Stretch → Extract (Option (List Subtree))} (hd : ∀ s, x.Enters (derive s))

include hd

theorem materialize_enters (step : Step) (i j : Nat) : x.Enters (x.materialize derive step i j) := by
  intro made
  rw [materialize]
  dsimp only
  split
  · split
    · refine node_grows (f := fun i => .leaf i _ _ _) (fun _ => rfl) fun _ c hc => ?_
      exact absurd hc List.not_mem_nil
    · exact .pure (throughout_some fun c hc => absurd hc List.not_mem_nil)
  · refine .bind (hd _ made) fun made r _ hr => ?_
    split
    · exact .pure throughout_none
    · next children =>
        split
        · exact node_grows (f := fun i => .node i _ _ _ children) (fun _ => rfl) fun _ => hr _ rfl
        · refine .pure (throughout_some (List.forall_mem_map.2 fun c hc => ?_))
          exact Entered.every_setField (hr _ rfl c hc) _

theorem firstSplit_enters (step : Step) (stop : Nat) (fits : Nat → Bool) (ks : List Nat)
    (made : List Subtree) : Grows x.Numbers made (x.firstSplit derive step stop fits ks)
      fun made r => Throughout (Every (Entered x.era made)) (r.map Prod.snd) := by
  induction ks generalizing made with
  | nil => exact .pure throughout_none
  | cons k ks ih =>
      rw [firstSplit]
      split
      · refine .bind (materialize_enters hd step k stop made) fun made r _ hr => ?_
        split
        · exact .pure hr
        · exact ih made
      · exact ih made

variable (htoken : ∀ u ∈ x.units, ∃ t, u = .token t)

include htoken

theorem deriveSteps_enters (production origin : Nat) (rev : List Step) (stop : Nat)
    (after made : List Subtree) (ha : ∀ c ∈ after, Every (Entered x.era made) c) :
    Grows x.Numbers made (x.deriveSteps derive production origin rev stop after)
      fun made => Throughout (Every (Entered x.era made)) := by
  induction rev generalizing stop after made with
  | nil =>
      rw [deriveSteps]
      split
      · exact .pure (throughout_some ha)
      · exact .pure throughout_none
  | cons step rev ih =>
      have hboth {made' nodes : List Subtree} (hle : made <+: made')
          (hnodes : ∀ c ∈ nodes, Every (Entered x.era made') c) :
          ∀ c ∈ nodes ++ after, Every (Entered x.era made') c :=
        List.forall_mem_append.2 ⟨hnodes, fun c hc => Entered.every_mono (ha c hc) hle⟩
      rw [deriveSteps]
      dsimp only
      split
      · split
        · refine .bind (materialize_enters hd step (stop - 1) stop made) fun made r hle hr => ?_
          split
          · exact ih _ _ made (hboth hle (hr _ rfl))
          · exact .pure throughout_none
        · exact .pure throughout_none
      · split
        · next t ht =>
            -- a unit is no subtree taken over
            obtain ⟨i, -, -, hu, -⟩ := reusedBefore_eq_some.1 ht
            obtain ⟨_, he⟩ := htoken _ (Array.mem_of_getElem? hu)
            cases he
        · refine .bind (firstSplit_enters hd step _ _ _ made) fun made r hle hr => ?_
          split
          · exact ih _ _ made (hboth hle (hr _ rfl))
          · exact .pure throughout_none

theorem firstProduction_enters (s : Stretch) (ps : List Nat) :
    x.Enters (x.firstProduction derive s ps) := by
  induction ps with
  | nil => exact fun _ => .pure throughout_none
  | cons p ps ih =>
      intro made
      rw [firstProduction]
      refine .bind (deriveSteps_enters hd htoken p s.start _ s.stop [] made
        fun c hc => absurd hc List.not_mem_nil) fun made r _ hr => ?_
      split
      · exact .pure hr
      · exact ih made

end

variable (htoken : ∀ u ∈ x.units, ∃ t, u = .token t)

include htoken

/-- What is remembered for a stretch is given out again, with the numbers that it has. -/
theorem derive_enters (depth : Nat) (active : List Stretch) (s : Stretch) :
    x.Enters (x.derive depth active s) := by
  induction depth generalizing active s with
  | zero => exact fun _ _ _ _ _ h => nomatch h
  | succ depth ih =>
      intro made
      rw [derive]
      refine .of_get fun m hm => ?_
      split
      · next known hk => exact .pure fun ts hts => hm.recalls s ts (mem_of_lookup (hts ▸ hk))
      · split
        · exact .of_set ⟨hm.nodes, hm.recalls⟩ (.pure throughout_none)
        · refine .bind (firstProduction_enters (ih (s :: active)) htoken s _ made)
            fun made r _ hr => ?_
          refine .of_get fun m' hm' => ?_
          split
          · refine .of_set ⟨hm'.nodes, fun s' ts hmem => ?_⟩ (.pure hr)
            obtain he | hmem := List.mem_cons.1 hmem
            · exact hr ts (congrArg Prod.snd he).symm
            · exact hm'.recalls s' ts hmem
          · exact .pure hr

theorem deriveStretch_enters (s : Stretch) : x.Enters (x.deriveStretch s) :=
  derive_enters htoken x.depthBound [] s

/-- The root has an identity of its own; the nodes below are those that were made. -/
def Tops (x : Derivation) (made : List Subtree) (t : Subtree) : Prop :=
  t.ident = x.rootIdent ∧ ∀ c ∈ t.children, Every (Entered x.era made) c

theorem acceptedRoot_tops (made : List Subtree) :
    Grows x.Numbers made x.acceptedRoot fun made r => ∀ t ∈ r, x.Tops made t := by
  rw [acceptedRoot]
  refine .bind (deriveStretch_enters htoken _ made) fun made r _ hr => ?_
  split
  · exact .pure fun _ h => absurd h (Option.not_mem_none _)
  · next t =>
      have htree := hr _ rfl
      split
      · exact .pure fun _ h => Option.some.inj h ▸ ⟨rfl, htree⟩
      · exact .pure fun _ h => Option.some.inj h ▸ ⟨rfl, (htree t List.mem_cons_self).children⟩
  · next entries _ => exact .pure fun _ h => Option.some.inj h ▸ ⟨rfl, hr _ rfl⟩

theorem fragments_enters (order : KeyOrder) (fuel k : Nat) (made : List Subtree) :
    Grows x.Numbers made (x.fragments order fuel k)
      fun made ts => ∀ c ∈ ts, Every (Entered x.era made) c := by
  induction fuel generalizing k made with
  | zero => exact .pure fun c hc => absurd hc List.not_mem_nil
  | succ fuel ih =>
      rw [fragments]
      split
      · exact .pure fun c hc => absurd hc List.not_mem_nil
      · next u hu =>
          have hstray (made : List Subtree) : Grows x.Numbers made
              (do return (← x.unitLeaf u) :: (← x.fragments order fuel (k + 1)))
              fun made ts => ∀ c ∈ ts, Every (Entered x.era made) c := by
            obtain ⟨t, rfl⟩ := htoken u (Array.mem_of_getElem? hu)
            have hleaf : Grows x.Numbers made (x.unitLeaf (.token t))
                fun made => Every (Entered x.era made) :=
              freshIdent_grows (.pure (Entered.every_new rfl fun c hc => absurd hc List.not_mem_nil))
            refine .bind hleaf fun made c _ hc => .bind (ih _ made) fun made ts hle hts => .pure ?_
            exact List.forall_mem_cons.2 ⟨Entered.every_mono hc hle, hts⟩
          cases x.longestFrom order k with
          | none => exact hstray made
          | some r =>
              obtain ⟨stop, s⟩ := r
              refine .bind (materialize_enters (deriveStretch_enters htoken) { symbol := s } k stop made)
                fun made r _ hr => ?_
              rcases r with - | - | ⟨t, ts⟩
              · exact hstray made
              · exact hstray made
              · have hrest : Grows x.Numbers made
                    (do return (t :: ts) ++ (← x.fragments order fuel stop))
                    fun made ts => ∀ c ∈ ts, Every (Entered x.era made) c :=
                  .bind (ih _ made) fun made us hle hus => .pure (List.forall_mem_append.2
                    ⟨fun c hc => Entered.every_mono (hr _ rfl c hc) hle, hus⟩)
                exact hrest

theorem errorRoot_tops (order : KeyOrder) (made : List Subtree) :
    Grows x.Numbers made (x.errorRoot order) fun made => x.Tops made :=
  .bind (fragments_enters htoken order _ 0 made) fun _ _ _ hts => .pure ⟨rfl, hts⟩

end Derivation

end EarleyTree

import EarleyTree.Proofs.Language.Words
import Mathlib.Computability.Language

/-!
Rules as sets of rows of places, which say of each symbol whether extras are kept from before it. The
rows of symbols alone are those with the marks left out.
-/

/-- Sets of rows, with the operations of regular expressions on them. -/
abbrev Rows (α : Type) : Type := Language α

namespace EarleyTree

open Computability

/-- A symbol in a row. Before an immediate one there are no extras. -/
structure Place where
  symbol : Symbol
  immediate : Bool := false
  deriving DecidableEq, Repr

def Step.place (s : Step) : Place := ⟨s.symbol, s.immediate⟩

def Step.places (ss : List Step) : List Place := ss.map Step.place

theorem Step.map_symbol_places (ss : List Step) :
    (Step.places ss).map Place.symbol = Step.symbols ss := by
  rw [places, symbols, List.map_map]
  rfl

/-- The row of one place, if there is a symbol for it. -/
def placed (s : Option Symbol) (immediate : Bool) : Rows Place :=
  {w | ∃ a, s = some a ∧ w = [⟨a, immediate⟩]}

mutual

/-- The rows of places that a rule stands for. What is around a token does not matter, but a name
stands for what bears it, whatever that is. -/
def Rule.places (v : Vocabulary) (owner : String) : Rule → Rows Place
  | r@⟨kind, _, name, content, members, _, _, _⟩ =>
    match kind with
    | .blank => 1
    | .string => placed (v.literal? (r.stringValue?.getD "")) false
    | .pattern | .token => placed (v.token? owner r) false
    | .immediateToken => placed (v.token? owner r) true
    | .symbol => placed (v.name? (name.getD "")) false
    | .sequence => placesSequence v owner members
    | .choice => placesChoice v owner members
    | .zeroOrMore => (placesContent v owner content)∗
    | .oneOrMore => placesContent v owner content * (placesContent v owner content)∗
    | .precedence | .precedenceLeft | .precedenceRight | .precedenceDynamic | .field | .renamed
    | .reserved => placesContent v owner content

def placesContent (v : Vocabulary) (owner : String) : Option Rule → Rows Place
  | none => 0
  | some r => r.places v owner

def placesSequence (v : Vocabulary) (owner : String) : List Rule → Rows Place
  | [] => 1
  | r :: rs => r.places v owner * placesSequence v owner rs

def placesChoice (v : Vocabulary) (owner : String) : List Rule → Rows Place
  | [] => 0
  | r :: rs => r.places v owner + placesChoice v owner rs

end

theorem Rule.places_of_symbolName? {v : Vocabulary} {owner name : String} {r : Rule}
    (h : r.symbolName? = some name) : r.places v owner = placed (v.name? name) false := by
  obtain ⟨kind, value, n, content, members, named, flags, context⟩ := r
  rw [Rule.symbolName?, Rule.isSymbol] at h
  split at h
  · next hk =>
      obtain rfl : kind = .symbol := by simpa using hk
      obtain rfl : n = some name := h
      rw [Rule.places, Option.getD_some]
  · cases h

theorem map_placed (s : Option Symbol) (immediate : Bool) :
    (placed s immediate).map Place.symbol = letter s := by
  ext w
  constructor
  · rintro ⟨_, ⟨a, rfl, rfl⟩, rfl⟩
    exact ⟨a, rfl, rfl⟩
  · rintro ⟨a, rfl, rfl⟩
    exact ⟨[⟨a, immediate⟩], ⟨a, rfl, rfl⟩, rfl⟩

theorem map_mul_eq_concat (A B : Rows Place) :
    (A * B).map Place.symbol = concat (A.map Place.symbol) (B.map Place.symbol) := by
  rw [map_mul]
  ext w
  constructor
  · intro h
    obtain ⟨x, hx, y, hy, rfl⟩ := Language.mem_mul.1 h
    exact ⟨x, hx, y, hy, rfl⟩
  · rintro ⟨x, hx, y, hy, rfl⟩
    exact Language.append_mem_mul hx hy

theorem mul_kstar_eq_repeated (A : Rows Symbol) : A * A∗ = repeated A := by
  ext w
  constructor
  · intro h
    obtain ⟨x, hx, y, hy, rfl⟩ := Language.mem_mul.1 h
    obtain ⟨rows, rfl, hrows⟩ := Language.mem_kstar.1 hy
    exact ⟨x :: rows, List.cons_ne_nil x rows, List.forall_mem_cons.2 ⟨hx, hrows⟩, rfl⟩
  · rintro ⟨_ | ⟨x, rows⟩, hne, hrows, rfl⟩
    · exact absurd rfl hne
    · obtain ⟨hx, hrows⟩ := List.forall_mem_cons.1 hrows
      exact Language.append_mem_mul hx (Language.join_mem_kstar hrows)

theorem kstar_eq_repeated (A : Rows Symbol) : A∗ = {[]} ∪ repeated A := by
  rw [← mul_kstar_eq_repeated]
  exact (Language.one_add_self_mul_kstar_eq_kstar A).symm

mutual

theorem Rule.map_places (v : Vocabulary) (owner : String) :
    (r : Rule) → (r.places v owner).map Place.symbol = r.words v owner
  | ⟨kind, value, name, content, members, named, flags, context⟩ => by
    have hc := map_placesContent v owner content
    cases kind with
    | blank => exact map_one _
    | string | pattern | token | immediateToken | symbol =>
        rw [Rule.places, Rule.words]
        exact map_placed _ _
    | sequence =>
        rw [Rule.places, Rule.words]
        exact map_placesSequence v owner members
    | choice =>
        rw [Rule.places, Rule.words]
        exact map_placesChoice v owner members
    | zeroOrMore =>
        rw [Rule.places, Rule.words, Language.map_kstar, hc]
        exact kstar_eq_repeated _
    | oneOrMore =>
        rw [Rule.places, Rule.words, map_mul, Language.map_kstar, hc]
        exact mul_kstar_eq_repeated _
    | precedence | precedenceLeft | precedenceRight | precedenceDynamic | field | renamed
    | reserved =>
        rw [Rule.places, Rule.words]
        exact hc

theorem map_placesContent (v : Vocabulary) (owner : String) : (content : Option Rule) →
    (placesContent v owner content).map Place.symbol = wordsContent v owner content
  | none => map_zero _
  | some r => Rule.map_places v owner r

theorem map_placesSequence (v : Vocabulary) (owner : String) : (rs : List Rule) →
    (placesSequence v owner rs).map Place.symbol = wordsSequence v owner rs
  | [] => map_one _
  | r :: rs => by
    rw [placesSequence, wordsSequence, map_mul_eq_concat, Rule.map_places v owner r,
      map_placesSequence v owner rs]

theorem map_placesChoice (v : Vocabulary) (owner : String) : (rs : List Rule) →
    (placesChoice v owner rs).map Place.symbol = wordsChoice v owner rs
  | [] => map_zero _
  | r :: rs => by
    rw [placesChoice, wordsChoice, map_add, Rule.map_places v owner r, map_placesChoice v owner rs]
    rfl

end

namespace Tables

variable (t : Tables)

/-- A row with all auxiliary symbols expanded at once. -/
inductive Unfolds : List Place → List Place → Prop
  | nil : Unfolds [] []
  | keep {a : Place} {as w : List Place} (ha : t.isAuxiliary a.symbol = false)
      (h : Unfolds as w) : Unfolds (a :: as) (a :: w)
  | expand {p : Production} {a : Place} {as x w : List Place} (hp : p ∈ t.productions)
      (ha : t.isAuxiliary p.lhs = true) (hl : a.symbol = p.lhs)
      (hx : Unfolds (Step.places p.steps) x) (hw : Unfolds as w) : Unfolds (a :: as) (x ++ w)

/-- The rows without auxiliary symbols that the productions of a symbol lead to. -/
def places (s : Symbol) : Rows Place :=
  {w | ∃ p ∈ t.productions, p.lhs = s ∧ t.Unfolds (Step.places p.steps) w}

variable {t} {s : Symbol} {a : Place} {as bs w x y : List Place}

namespace Unfolds

theorem of_plain (h : ∀ a ∈ w, t.isAuxiliary a.symbol = false) : t.Unfolds w w := by
  induction w with
  | nil => exact .nil
  | cons a w ih =>
      exact .keep (h a List.mem_cons_self) (ih fun b hb => h b (List.mem_cons_of_mem a hb))

theorem plain (h : t.Unfolds as w) : ∀ a ∈ w, t.isAuxiliary a.symbol = false := by
  induction h with
  | nil => exact fun a ha => absurd ha List.not_mem_nil
  | keep ha _ ih => exact List.forall_mem_cons.2 ⟨ha, ih⟩
  | expand _ _ _ _ _ ihx ihw => exact List.forall_mem_append.2 ⟨ihx, ihw⟩

theorem append (hx : t.Unfolds as x) (hy : t.Unfolds bs y) : t.Unfolds (as ++ bs) (x ++ y) := by
  induction hx with
  | nil => exact hy
  | keep ha _ ih => exact .keep ha ih
  | expand hp ha hl hx _ _ ih =>
      rw [List.append_assoc]
      exact .expand hp ha hl hx ih

theorem split (h : t.Unfolds (as ++ bs) w) :
    ∃ x y, t.Unfolds as x ∧ t.Unfolds bs y ∧ w = x ++ y := by
  induction as generalizing w with
  | nil => exact ⟨[], w, .nil, h, rfl⟩
  | cons a as ih =>
      cases h with
      | keep ha h =>
          obtain ⟨x, y, hx, hy, rfl⟩ := ih h
          exact ⟨a :: x, y, .keep ha hx, hy, rfl⟩
      | expand hp ha hl hz h =>
          obtain ⟨x, y, hx, hy, rfl⟩ := ih h
          exact ⟨_, y, .expand hp ha hl hz hx, hy, (List.append_assoc _ _ _).symm⟩

theorem nil_iff : t.Unfolds [] w ↔ w = [] := by
  constructor
  · intro h
    cases h
    rfl
  · rintro rfl
    exact .nil

theorem plain_iff (ha : t.isAuxiliary a.symbol = false) : t.Unfolds [a] w ↔ w = [a] := by
  constructor
  · intro h
    cases h with
    | keep _ h => rw [nil_iff.1 h]
    | expand _ ha' hl => exact absurd (ha.symm.trans (hl ▸ ha')) Bool.false_ne_true
  · rintro rfl
    exact .keep ha .nil

theorem auxiliary_iff (ha : t.isAuxiliary a.symbol = true) :
    t.Unfolds [a] w ↔ w ∈ t.places a.symbol := by
  constructor
  · intro h
    cases h with
    | keep ha' => exact absurd (ha'.symm.trans ha) Bool.false_ne_true
    | @expand p _ _ x _ hp _ hl hx h =>
        rw [nil_iff.1 h, List.append_nil]
        exact ⟨p, hp, hl.symm, hx⟩
  · rintro ⟨p, hp, hl, h⟩
    simpa using Unfolds.expand hp (hl ▸ ha) hl.symm h .nil

theorem rewrites (h : t.Unfolds as w) :
    Relation.ReflTransGen t.Rewrites (as.map Place.symbol) (w.map Place.symbol) := by
  induction h with
  | nil => exact .refl
  | @keep a as w _ _ ih => exact ih.lift (a.symbol :: ·) fun _ _ hr => hr.append_left [a.symbol]
  | @expand p a as x w hp ha hl _ _ ihx ihw =>
      rw [Step.map_symbol_places] at ihx
      have hfirst : t.Rewrites (p.lhs :: as.map Place.symbol)
          (Step.symbols p.steps ++ as.map Place.symbol) := ⟨p, hp, ha, [], _, rfl, rfl⟩
      have hsteps := ihx.lift (· ++ as.map Place.symbol) fun _ _ hr => hr.append_right _
      have hrest := ihw.lift (x.map Place.symbol ++ ·) fun _ _ hr => hr.append_left _
      rw [List.map_cons, hl, List.map_append]
      exact (Relation.ReflTransGen.single hfirst).trans (hsteps.trans hrest)

end Unfolds

/-- A row of places whose symbols are expanded one after the other can be expanded at once. -/
theorem exists_unfolds {ss w : List Symbol} (hw : ∀ s ∈ w, t.isAuxiliary s = false)
    (h : Relation.ReflTransGen t.Rewrites ss w) :
    ∀ as : List Place, as.map Place.symbol = ss →
      ∃ x, t.Unfolds as x ∧ x.map Place.symbol = w := by
  induction h using Relation.ReflTransGen.head_induction_on with
  | refl => exact fun as has => ⟨as, .of_plain (List.forall_mem_map.1 (has ▸ hw)), has⟩
  | head hr _ ih =>
      obtain ⟨p, hp, hs, before, after, rfl, rfl⟩ := hr
      intro as has
      obtain ⟨bs, cs, rfl, rfl, hcs⟩ := List.map_eq_append_iff.1 has
      obtain ⟨a, ds, rfl, hl, rfl⟩ := List.map_eq_cons_iff.1 hcs
      obtain ⟨_, hall, rfl⟩ := ih (bs ++ (Step.places p.steps ++ ds))
        (by simp [Step.map_symbol_places])
      obtain ⟨x, _, hx, hrest, rfl⟩ := hall.split
      obtain ⟨y, z, hy, hz, rfl⟩ := hrest.split
      exact ⟨x ++ (y ++ z), hx.append (.expand hp hs hl hy hz), rfl⟩

theorem map_places (s : Symbol) : (t.places s).map Place.symbol = t.rows s := by
  ext w
  constructor
  · rintro ⟨x, ⟨p, hp, hl, hx⟩, rfl⟩
    refine ⟨List.forall_mem_map.2 hx.plain, p, hp, hl, ?_⟩
    rw [← Step.map_symbol_places]
    exact hx.rewrites
  · rintro ⟨hw, p, hp, hl, h⟩
    obtain ⟨x, hx, rfl⟩ := exists_unfolds hw h (Step.places p.steps) (Step.map_symbol_places _)
    exact ⟨x, ⟨p, hp, hl, hx⟩, rfl⟩

/-- The rows that a list of alternatives leads to. -/
def expansions (t : Tables) (alternatives : List Alternative) : Rows Place :=
  {w | ∃ a ∈ alternatives, t.Unfolds (Step.places a.steps) w}

theorem expansions_nil : t.expansions [] = 0 := by
  ext w
  constructor
  · rintro ⟨a, ha, -⟩
    exact absurd ha List.not_mem_nil
  · exact False.elim

theorem expansions_empty : t.expansions [{}] = 1 := by
  ext w
  constructor
  · rintro ⟨a, ha, hw⟩
    obtain rfl := List.mem_singleton.1 ha
    exact Unfolds.nil_iff.1 hw
  · rintro rfl
    exact ⟨{}, List.mem_singleton_self _, .nil⟩

theorem expansions_append (as bs : List Alternative) :
    t.expansions (as ++ bs) = t.expansions as + t.expansions bs := by
  ext w
  rw [Language.mem_add]
  constructor
  · rintro ⟨a, ha, hw⟩
    exact (List.mem_append.1 ha).imp (⟨a, ·, hw⟩) (⟨a, ·, hw⟩)
  · rintro (⟨a, ha, hw⟩ | ⟨a, ha, hw⟩)
    · exact ⟨a, List.mem_append_left bs ha, hw⟩
    · exact ⟨a, List.mem_append_right as ha, hw⟩

theorem expansions_product (as bs : List Alternative) :
    t.expansions (Alternative.product as bs) = t.expansions as * t.expansions bs := by
  ext w
  rw [Language.mem_mul]
  constructor
  · rintro ⟨c, hc, h⟩
    obtain ⟨a, ha, hc⟩ := List.mem_flatMap.1 hc
    obtain ⟨b, hb, rfl⟩ := List.mem_map.1 hc
    rw [Alternative.append, Step.places, List.map_append] at h
    obtain ⟨x, y, hx, hy, rfl⟩ := h.split
    exact ⟨x, ⟨a, ha, hx⟩, y, ⟨b, hb, hy⟩, rfl⟩
  · rintro ⟨x, ⟨a, ha, hx⟩, y, ⟨b, hb, hy⟩, rfl⟩
    refine ⟨a.append b, List.mem_flatMap.2 ⟨a, ha, List.mem_map.2 ⟨b, hb, rfl⟩⟩, ?_⟩
    rw [Alternative.append, Step.places, List.map_append]
    exact hx.append hy

/-- What changes neither the places of an alternative nor their order does not change the rows. -/
theorem expansions_map {f : Alternative → Alternative}
    (hf : ∀ a, Step.places (f a).steps = Step.places a.steps) (as : List Alternative) :
    t.expansions (as.map f) = t.expansions as := by
  ext w
  constructor
  · rintro ⟨_, hb, hw⟩
    obtain ⟨a, ha, rfl⟩ := List.mem_map.1 hb
    exact ⟨a, ha, hf a ▸ hw⟩
  · rintro ⟨a, ha, hw⟩
    exact ⟨f a, List.mem_map_of_mem ha, (hf a).symm ▸ hw⟩

theorem mem_expansions_step {step : Step} :
    w ∈ t.expansions [{ steps := [step] }] ↔ t.Unfolds [step.place] w := by
  constructor
  · rintro ⟨a, ha, hw⟩
    obtain rfl := List.mem_singleton.1 ha
    exact hw
  · exact fun hw => ⟨_, List.mem_singleton_self _, hw⟩

theorem expansions_plain {step : Step} (hs : t.isAuxiliary step.symbol = false) :
    t.expansions [{ steps := [step] }] = placed (some step.symbol) step.immediate := by
  ext w
  rw [mem_expansions_step, Unfolds.plain_iff hs]
  constructor
  · rintro rfl
    exact ⟨_, rfl, rfl⟩
  · rintro ⟨_, ⟨⟩, rfl⟩
    rfl

theorem expansions_auxiliary {step : Step} (hs : t.isAuxiliary step.symbol = true) :
    t.expansions [{ steps := [step] }] = t.places step.symbol := by
  ext w
  rw [mem_expansions_step, Unfolds.auxiliary_iff hs]
  rfl

theorem expansions_single (hs : t.isAuxiliary s = true) :
    t.expansions [.single s] = t.places s :=
  @expansions_auxiliary t { symbol := s } hs

end Tables

def plainProduction (s : Symbol) (a : Alternative) : Production := ⟨s, a.steps, a.priority⟩

/-- An alternative of a repetition by itself, and behind more of the repetition. -/
def loopProductions (s : Symbol) (a : Alternative) : List Production :=
  if a.steps.isEmpty then [plainProduction s a]
  else [⟨s, { symbol := s } :: a.steps, a.priority⟩, plainProduction s a]

theorem plainProduction_mem_loopProductions (s : Symbol) (a : Alternative) :
    plainProduction s a ∈ loopProductions s a := by
  rw [loopProductions]
  split
  · exact List.mem_cons_self
  · exact List.mem_cons_of_mem _ List.mem_cons_self

theorem lhs_of_mem_loopProductions {s : Symbol} {a : Alternative} {p : Production}
    (h : p ∈ loopProductions s a) : p.lhs = s := by
  rw [loopProductions] at h
  split at h
  · exact List.mem_singleton.1 h ▸ rfl
  · obtain rfl | h := List.mem_cons.1 h
    · rfl
    · exact List.mem_singleton.1 h ▸ rfl

namespace Tables

variable {t : Tables} {s : Symbol} {alternatives : List Alternative}

theorem places_eq_expansions
    (h : ∀ p, (p ∈ t.productions ∧ p.lhs = s) ↔ ∃ a ∈ alternatives, p = plainProduction s a) :
    t.places s = t.expansions alternatives := by
  ext w
  constructor
  · rintro ⟨p, hp, hs, hw⟩
    obtain ⟨a, ha, rfl⟩ := (h p).1 ⟨hp, hs⟩
    exact ⟨a, ha, hw⟩
  · rintro ⟨a, ha, hw⟩
    obtain ⟨hp, hs⟩ := (h _).2 ⟨a, ha, rfl⟩
    exact ⟨_, hp, hs, hw⟩

section

variable (hs : t.isAuxiliary s = true)
  (h : ∀ p, (p ∈ t.productions ∧ p.lhs = s) ↔ ∃ a ∈ alternatives, p ∈ loopProductions s a)

include hs h

/-- The induction is on the expansion of a row that begins with the symbol. -/
theorem Unfolds.exists_loop {as w : List Place} (hw : t.Unfolds as w) :
    ∀ (a : Place) (rest : List Place), as = a :: rest → a.symbol = s →
      ∃ x ∈ t.expansions alternatives * (t.expansions alternatives)∗,
        ∃ y, t.Unfolds rest y ∧ w = x ++ y := by
  induction hw with
  | nil => exact fun _ _ hr => nomatch hr
  | keep hs' =>
      rintro _ _ ⟨⟩ rfl
      exact absurd (hs'.symm.trans hs) Bool.false_ne_true
  | @expand p a as x w hp _ hl hx hw ihx =>
      rintro _ _ ⟨⟩ rfl
      obtain ⟨b, hb, hpb⟩ := (h p).1 ⟨hp, hl.symm⟩
      refine ⟨x, ?_, w, hw, rfl⟩
      have hplain (he : p = plainProduction a.symbol b) :
          x ∈ t.expansions alternatives * (t.expansions alternatives)∗ := by
        rw [he] at hx
        have happend := Language.append_mem_mul (show x ∈ t.expansions alternatives from ⟨b, hb, hx⟩)
          (Language.nil_mem_kstar (t.expansions alternatives))
        rwa [List.append_nil] at happend
      rw [loopProductions] at hpb
      split at hpb
      · exact hplain (List.mem_singleton.1 hpb)
      · obtain he | hpb := List.mem_cons.1 hpb
        · obtain ⟨y, hy, z, hz, rfl⟩ :=
            ihx ⟨a.symbol, false⟩ (Step.places b.steps) (by rw [he]; rfl) rfl
          rw [← Language.mul_self_kstar_comm] at hy ⊢
          have hle := kstar_mul_le_kstar (a := t.expansions alternatives) hy
          exact Language.append_mem_mul hle ⟨b, hb, hz⟩
        · exact hplain (List.mem_singleton.1 hpb)

theorem places_eq_loop :
    t.places s = t.expansions alternatives * (t.expansions alternatives)∗ := by
  apply le_antisymm
  · intro w hw
    have hw : t.Unfolds [⟨s, false⟩] w := (Unfolds.auxiliary_iff hs).2 hw
    obtain ⟨x, hx, y, hy, rfl⟩ := hw.exists_loop hs h _ _ rfl rfl
    rw [Unfolds.nil_iff.1 hy, List.append_nil]
    exact hx
  · refine mul_kstar_le ?_ ?_
    · rintro x ⟨a, ha, hx⟩
      obtain ⟨hp, -⟩ := (h _).2 ⟨a, ha, plainProduction_mem_loopProductions s a⟩
      exact ⟨_, hp, rfl, hx⟩
    · intro w hw
      obtain ⟨x, hx, y, ⟨a, ha, hy⟩, rfl⟩ := Language.mem_mul.1 hw
      cases hsteps : a.steps with
      | nil =>
          rw [hsteps] at hy
          rw [Unfolds.nil_iff.1 hy, List.append_nil]
          exact hx
      | cons step steps =>
          obtain ⟨hp, -⟩ := (h ⟨s, { symbol := s } :: a.steps, a.priority⟩).2
            ⟨a, ha, by simp [loopProductions, hsteps]⟩
          have hloop : t.Unfolds [⟨s, false⟩] x := (Unfolds.auxiliary_iff hs).2 hx
          exact ⟨_, hp, rfl, hloop.append hy⟩

end

end Tables

end EarleyTree

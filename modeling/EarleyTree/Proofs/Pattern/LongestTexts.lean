import EarleyTree.Proofs.Pattern.Backtracking

/-!
Expressions that take the longest of their texts, though they prefer the first one. Whether an expression
does so depends on what comes behind it, and all that matters of that are the characters it begins with.
-/
namespace EarleyTree.Pattern

open Computability Text

/-- The longest text of the set that the given one begins with, if there is any. -/
def LongestPrefix (A : Rows Char) (text : List Char) : Option (List Char) → Prop
  | none => ∀ v ∈ A, ¬v <+: text
  | some w => w ∈ A ∧ w <+: text ∧ ∀ v ∈ A, v <+: text → v <+: w

/-- Where the text begins with one of both sets, no text of the second set goes further than all of the
first. -/
def Outruns (A B : Rows Char) (text : List Char) : Prop :=
  ∀ u ∈ A, u <+: text → ∀ v ∈ B, v <+: text → ∃ w ∈ A, w <+: text ∧ v <+: w

/-- Each text of the set begins with one of the characters. -/
def Opens (A : Rows Char) (X : Set Char) : Prop := ∀ w ∈ A, ∃ c v, w = c :: v ∧ c ∈ X

/-- No text of the set begins with one of the characters. -/
def Avoids (A : Rows Char) (X : Set Char) : Prop := ∀ c v, c :: v ∈ A → c ∉ X

/-- All characters of the texts are in the set. -/
def Over (A : Rows Char) (X : Set Char) : Prop := ∀ w ∈ A, ∀ c ∈ w, c ∈ X

section

variable {A B C : Rows Char} {X Y : Set Char} {s : CharSet} {c d : Char}
  {text rest rest' u v w : List Char} {q r : Option (List Char)}

theorem CharSet.mem_texts_mul_iff :
    w ∈ s.texts * A ↔ ∃ c v, w = c :: v ∧ s.contains c = true ∧ v ∈ A := by
  rw [Regex.mem_mul_iff]
  constructor
  · rintro ⟨u, v, rfl, ⟨c, rfl, hc⟩, hv⟩
    exact ⟨c, v, rfl, hc, hv⟩
  · rintro ⟨c, v, rfl, hc, hv⟩
    exact ⟨[c], v, rfl, ⟨c, rfl, hc⟩, hv⟩

theorem mem_singleton_mul_iff : u ∈ {w} * A ↔ ∃ v, u = w ++ v ∧ v ∈ A := by
  rw [Regex.mem_mul_iff]
  constructor
  · rintro ⟨x, v, rfl, rfl, hv⟩
    exact ⟨v, rfl, hv⟩
  · rintro ⟨v, rfl, hv⟩
    exact ⟨w, v, rfl, rfl, hv⟩

theorem singleton_cons_mul : {c :: w} * A = {[c]} * ({w} * A) := by
  ext u
  simp only [mem_singleton_mul_iff]
  constructor
  · rintro ⟨v, rfl, hv⟩
    exact ⟨w ++ v, rfl, v, rfl, hv⟩
  · rintro ⟨_, rfl, v, rfl, hv⟩
    exact ⟨v, rfl, hv⟩

namespace Opens

theorem texts : Opens s.texts {c | s.contains c = true} := by
  rintro w ⟨c, rfl, hc⟩
  exact ⟨c, [], rfl, hc⟩

theorem singleton : Opens {[c]} {c} := by
  rintro w rfl
  exact ⟨c, [], rfl, rfl⟩

theorem mul (h : Opens A X) (B : Rows Char) : Opens (A * B) X := by
  intro w hw
  obtain ⟨u, v, rfl, hu, -⟩ := Regex.mem_mul_iff.1 hw
  obtain ⟨c, u, rfl, hc⟩ := h u hu
  exact ⟨c, u ++ v, rfl, hc⟩

theorem add (h : Opens A X) (h' : Opens B X) : Opens (A + B) X :=
  fun w hw => hw.elim (h w) (h' w)

theorem mono (h : Opens A X) (hX : X ⊆ Y) : Opens A Y := by
  intro w hw
  obtain ⟨c, v, rfl, hc⟩ := h w hw
  exact ⟨c, v, rfl, hX hc⟩

theorem avoids (h : Opens A X) (hX : X ⊆ Yᶜ) : Avoids A Y := by
  intro c v hv
  obtain ⟨d, v, he, hd⟩ := h _ hv
  cases he
  exact hX hd

theorem nil_notMem (h : Opens A X) : [] ∉ A := by
  intro hn
  obtain ⟨c, v, he, -⟩ := h [] hn
  cases he

end Opens

namespace Avoids

theorem one : Avoids 1 X := by
  intro c v hv
  cases Language.mem_one _ |>.1 hv

theorem empty : Avoids A ∅ := fun _ _ _ => Set.notMem_empty _

theorem mono (h : Avoids A Y) (hX : X ⊆ Y) : Avoids A X := fun c v hv hc => h c v hv (hX hc)

theorem mul (h : Avoids A X) (h' : [] ∈ A → Avoids B X) : Avoids (A * B) X := by
  intro c v hv
  obtain ⟨u, v, he, hu, hv⟩ := Regex.mem_mul_iff.1 hv
  cases u with
  | nil =>
      cases he
      exact h' hu c _ hv
  | cons d u =>
      cases he
      exact h c u hu

end Avoids

namespace Over

theorem texts {s : CharSet} (h : ∀ c, s.contains c = true → c ∈ X) : Over s.texts X := by
  rintro w ⟨c, rfl, hc⟩ d hd
  obtain rfl := List.mem_singleton.1 hd
  exact h d hc

theorem one : Over 1 X := by
  intro w hw c hc
  rw [(Language.mem_one w).1 hw] at hc
  cases hc

theorem singleton (h : c ∈ X) : Over {[c]} X := by
  rintro w rfl d hd
  exact List.mem_singleton.1 hd ▸ h

theorem add (h : Over A X) (h' : Over B X) : Over (A + B) X := fun w hw => hw.elim (h w) (h' w)

theorem mul (h : Over A X) (h' : Over B X) : Over (A * B) X := by
  intro w hw c hc
  obtain ⟨u, v, rfl, hu, hv⟩ := Regex.mem_mul_iff.1 hw
  exact (List.mem_append.1 hc).elim (h u hu c) (h' v hv c)

theorem kstar (h : Over A X) : Over A∗ X := by
  intro w hw c hc
  obtain ⟨rounds, rfl, hrounds⟩ := Language.mem_kstar.1 hw
  obtain ⟨u, hu, hc⟩ := List.mem_flatten.1 hc
  exact h u (hrounds u hu) c hc

end Over

/-- A run of characters does not go on over one that is none of them. -/
theorem prefix_of_stop (hw : ∀ c ∈ w, c ∈ X) (hc : c ∉ X) (h : w <+: v ++ c :: rest) : w <+: v := by
  obtain hwv | ⟨u, rfl⟩ := List.prefix_or_prefix_of_prefix h (List.prefix_append v (c :: rest))
  · exact hwv
  · cases u with
    | nil => rw [List.append_nil]
    | cons d u =>
        obtain ⟨rfl, -⟩ := List.cons_prefix_cons.1 ((List.prefix_append_right_inj v).1 h)
        exact absurd (hw d (by simp)) hc

/-- Two runs of characters that end at one that is none of them are the same. -/
theorem eq_of_stops (hv : ∀ c ∈ v, c ∈ X) (hw : ∀ c ∈ w, c ∈ X) (hc : c ∉ X) (hd : d ∉ X)
    (h : v ++ c :: rest = w ++ d :: rest') : v = w := by
  have hvw : v <+: w := prefix_of_stop hv hd (h ▸ List.prefix_append v (c :: rest))
  have hwv : w <+: v := prefix_of_stop hw hc (h ▸ List.prefix_append w (d :: rest'))
  exact hvw.eq_of_length_le hwv.length_le

/-- Where a text of the first set stands, the second has the empty text at most. -/
theorem Opens.outruns (h : Opens A X) (h' : Avoids B X) : Outruns A B text := by
  intro u hu hut v hv hvt
  refine ⟨u, hu, hut, ?_⟩
  obtain ⟨c, u, rfl, hc⟩ := h u hu
  cases v with
  | nil => exact List.nil_prefix
  | cons d v =>
      obtain ⟨rest, rfl⟩ := hut
      obtain ⟨rfl, -⟩ := List.cons_prefix_cons.1 hvt
      exact absurd hc (h' d v hv)

namespace Outruns

theorem add (h : Outruns A B text) (h' : Outruns A C text) : Outruns A (B + C) text :=
  fun u hu hut v hv => hv.elim (h u hu hut v) (h' u hu hut v)

theorem of_add (h : Outruns A C text) (h' : Outruns B C text) : Outruns (A + B) C text := by
  rintro u (hu | hu) hut v hv hvt
  · obtain ⟨w, hw, hwt, hvw⟩ := h u hu hut v hv hvt
    exact ⟨w, .inl hw, hwt, hvw⟩
  · obtain ⟨w, hw, hwt, hvw⟩ := h' u hu hut v hv hvt
    exact ⟨w, .inr hw, hwt, hvw⟩

/-- A run of characters ends before what no run begins with. -/
theorem of_stop (hC : Over C X) (hB : Opens B Xᶜ) : Outruns (A * B) C text := by
  intro u hu hut v hv hvt
  refine ⟨u, hu, hut, ?_⟩
  obtain ⟨a, b, rfl, -, hb⟩ := Regex.mem_mul_iff.1 hu
  obtain ⟨c, b, rfl, hc⟩ := hB b hb
  obtain ⟨rest, rfl⟩ := hut
  rw [List.append_assoc, List.cons_append] at hvt
  exact (prefix_of_stop (hC v hv) hc hvt).trans (List.prefix_append a _)

theorem singleton_mul (h : ∀ text, Outruns B C text) (w text : List Char) :
    Outruns ({w} * B) ({w} * C) text := by
  intro u hu hut v hv hvt
  obtain ⟨b, rfl, hb⟩ := mem_singleton_mul_iff.1 hu
  obtain ⟨c, rfl, hc⟩ := mem_singleton_mul_iff.1 hv
  obtain ⟨rest, rfl⟩ := hut
  rw [List.append_assoc] at hvt
  obtain ⟨x, hx, hxt, hvx⟩ := h (b ++ rest) b hb (List.prefix_append b rest) c hc
    ((List.prefix_append_right_inj w).1 hvt)
  refine ⟨w ++ x, mem_singleton_mul_iff.2 ⟨x, rfl, hx⟩, ?_, (List.prefix_append_right_inj w).2 hvx⟩
  rw [List.append_assoc]
  exact (List.prefix_append_right_inj w).2 hxt

/-- Behind runs of the same characters, which what comes next does not begin with, both go on from the
same place. -/
theorem mul (h : ∀ text, Outruns B C text) (hA : Over A X) (hB : Opens B Xᶜ) (hC : Opens C Xᶜ)
    (text : List Char) : Outruns (A * B) (A * C) text := by
  intro u hu hut v hv hvt
  obtain ⟨a, b, rfl, ha, hb⟩ := Regex.mem_mul_iff.1 hu
  obtain ⟨a', b', rfl, ha', hb'⟩ := Regex.mem_mul_iff.1 hv
  obtain ⟨c, x, rfl, hc⟩ := hB b hb
  obtain ⟨d, y, rfl, hd⟩ := hC b' hb'
  obtain ⟨rest, rfl⟩ := hut
  obtain ⟨rest', he⟩ := hvt
  rw [List.append_assoc, List.append_assoc, List.cons_append, List.cons_append] at he
  obtain rfl := eq_of_stops (hA a' ha') (hA a ha) hd hc he
  obtain ⟨z, hz, hzt, hle⟩ := singleton_mul h a' (a' ++ c :: x ++ rest) _
    (mem_singleton_mul_iff.2 ⟨_, rfl, hb⟩) (List.prefix_append _ rest) _
    (mem_singleton_mul_iff.2 ⟨_, rfl, hb'⟩) ⟨rest', by simpa using he⟩
  obtain ⟨w, rfl, hw⟩ := mem_singleton_mul_iff.1 hz
  exact ⟨_, Language.append_mem_mul ha hw, hzt, hle⟩

end Outruns

namespace LongestPrefix

theorem one : LongestPrefix 1 text (some []) := by
  refine ⟨Language.nil_mem_one, List.nil_prefix, fun v hv _ => ?_⟩
  rw [(Language.mem_one v).1 hv]

theorem add (h : LongestPrefix A text q) (h' : LongestPrefix B text r) (ho : Outruns A B text) :
    LongestPrefix (A + B) text (q.or r) := by
  cases q with
  | none =>
      cases r with
      | none => exact fun v hv => hv.elim (h v) (h' v)
      | some w =>
          obtain ⟨hw, ht, hmax⟩ := h'
          refine ⟨.inr hw, ht, fun v hv hvt => hv.elim (fun hv => ?_) (hmax v · hvt)⟩
          exact absurd hvt (h v hv)
  | some w =>
      obtain ⟨hw, ht, hmax⟩ := h
      refine ⟨.inl hw, ht, fun v hv hvt => hv.elim (hmax v · hvt) fun hv => ?_⟩
      obtain ⟨u, hu, hut, hvu⟩ := ho w hw ht v hv hvt
      exact hvu.trans (hmax u hu hut)

theorem char (hc : s.contains c = true) (h : LongestPrefix A rest r) :
    LongestPrefix (s.texts * A) (c :: rest) (r.map (c :: ·)) := by
  cases r with
  | none =>
      intro v hv hvt
      obtain ⟨d, v, rfl, -, hv⟩ := CharSet.mem_texts_mul_iff.1 hv
      exact h v hv (List.cons_prefix_cons.1 hvt).2
  | some w =>
      obtain ⟨hw, ht, hmax⟩ := h
      refine ⟨CharSet.mem_texts_mul_iff.2 ⟨c, w, rfl, hc, hw⟩, ?_, fun v hv hvt => ?_⟩
      · exact List.cons_prefix_cons.2 ⟨rfl, ht⟩
      · obtain ⟨d, v, rfl, -, hv⟩ := CharSet.mem_texts_mul_iff.1 hv
        obtain ⟨rfl, hrest⟩ := List.cons_prefix_cons.1 hvt
        exact List.cons_prefix_cons.2 ⟨rfl, hmax v hv hrest⟩

theorem missed (hc : ∀ c ∈ text.head?, s.contains c = false) :
    LongestPrefix (s.texts * A) text none := by
  intro v hv hvt
  obtain ⟨d, v, rfl, hd, hv⟩ := CharSet.mem_texts_mul_iff.1 hv
  obtain ⟨rest, rfl⟩ := hvt
  rw [hc d rfl] at hd
  cases hd

end LongestPrefix

end

/-- Backtracking takes the longest text of the set that stands here. -/
def TakesLongest (tasks : List Task) (A : Rows Char) (text : List Char) : Prop :=
  ∀ before, ∃ r, Settles before tasks text r ∧ LongestPrefix A text r

section

variable {A B : Rows Char} {T U : List Task} {task next : Task} {frame : Frame} {s : CharSet}
  {text : List Char}

namespace TakesLongest

theorem done : TakesLongest [[]] 1 text := fun _ => ⟨_, .done, .one⟩

theorem orElse (h : TakesLongest T A text) (h' : TakesLongest U B text) (ho : Outruns A B text) :
    TakesLongest (T ++ U) (A + B) text := by
  intro before
  obtain ⟨q, hq, hA⟩ := h before
  obtain ⟨r, hr, hB⟩ := h' before
  exact ⟨q.or r, hq.append fun _ => hr, hA.add hB ho⟩

/-- One goes on with what the frame leads to. -/
theorem expand (hf : ∀ s, frame ≠ .once (.set s))
    (he : ∀ before, frame.expand before text.head? task = T) (h : TakesLongest T A text) :
    TakesLongest [frame :: task] A text := by
  intro before
  obtain ⟨r, hr, hA⟩ := h before
  refine ⟨r, .expand hf ?_, hA⟩
  rwa [he, List.append_nil]

theorem alt {a b : Regex} (h : TakesLongest [.once a :: task] A text)
    (h' : TakesLongest [.once b :: task] B text) (ho : Outruns A B text) :
    TakesLongest [.once (.alt a b) :: task] (A + B) text :=
  .expand (by simp) (fun _ => rfl) (h.orElse h' ho)

theorem set (h : ∀ c rest, text = c :: rest → s.contains c = true → TakesLongest [task] A rest) :
    TakesLongest [.once (.set s) :: task] (s.texts * A) text := by
  intro before
  by_cases hc : ∃ c rest, text = c :: rest ∧ s.contains c = true
  · obtain ⟨c, rest, rfl, hc⟩ := hc
    obtain ⟨r, hr, hA⟩ := h c rest rfl hc (some c)
    exact ⟨_, .char hc hr, hA.char hc⟩
  · have hc : ∀ c ∈ text.head?, s.contains c = false := by
      intro c hm
      obtain ⟨rest, rfl⟩ := List.head?_eq_some_iff.1 hm
      exact eq_false_of_ne_true fun h => hc ⟨c, rest, rfl, h⟩
    exact ⟨none, .missed hc .nothing, .missed hc⟩

end TakesLongest

end

namespace Regex

/-- The expression takes the longest text of the set in front of all that takes the longest text of its
own set, if that does not begin with one of the characters. -/
def TakesLongest (r : Regex) (R : Rows Char) (X : Set Char) : Prop :=
  ∀ task A text, Avoids A X →
    (∀ u ∈ R, ∀ rest, text = u ++ rest → Pattern.TakesLongest [task] A rest) →
    Pattern.TakesLongest [.once r :: task] (R * A) text

namespace TakesLongest

variable {a b r : Regex} {R S : Rows Char} {P X Y : Set Char} {s : CharSet} {text : List Char}

theorem mono (h : r.TakesLongest R X) (hX : X ⊆ Y) : r.TakesLongest R Y :=
  fun task A text hA => h task A text (hA.mono hX)

theorem empty : Regex.empty.TakesLongest 1 X := by
  intro task A text _ h
  rw [one_mul]
  exact .expand (by simp) (fun _ => rfl) (h [] Language.nil_mem_one text rfl)

theorem set (s : CharSet) : (Regex.set s).TakesLongest s.texts X := fun _ _ _ _ h =>
  .set fun c rest ht hc => h [c] ⟨c, rfl, hc⟩ rest ht

theorem char (c : Char) : (Regex.char c).TakesLongest {[c]} X := by
  rw [← CharSet.texts_char]
  exact .set _

theorem cat (ha : a.TakesLongest R X) (hb : b.TakesLongest S Y)
    (h : ∀ A, Avoids A Y → Avoids (S * A) X) : (Regex.cat a b).TakesLongest (R * S) Y := by
  intro task A text hA htask
  rw [mul_assoc]
  refine .expand (by simp) (fun _ => rfl) (ha _ _ text (h A hA) ?_)
  rintro u hu rest rfl
  refine hb _ _ rest hA ?_
  rintro v hv rest rfl
  exact htask (u ++ v) (Language.append_mem_mul hu hv) rest (List.append_assoc u v rest).symm

theorem cat_of_opens (ha : a.TakesLongest R X) (hb : b.TakesLongest S Y) (hS : Opens S P)
    (hP : P ⊆ Xᶜ) : (Regex.cat a b).TakesLongest (R * S) Y :=
  ha.cat hb fun A _ => (hS.mul A).avoids hP

theorem set_cat (s : CharSet) (hb : b.TakesLongest S Y) :
    (Regex.cat (.set s) b).TakesLongest (s.texts * S) Y :=
  (set s).cat hb fun _ _ => .empty

/-- Two alternatives that begin differently. Where the second one may be empty, what comes behind must
begin differently as well. -/
theorem alt (ha : a.TakesLongest R X) (hb : b.TakesLongest S X) (hR : Opens R P) (hS : Avoids S P)
    (hP : [] ∈ S → P ⊆ X) : (Regex.alt a b).TakesLongest (R + S) X := by
  intro task A text hA htask
  rw [add_mul]
  refine .alt (ha _ _ text hA ?_) (hb _ _ text hA ?_) ?_
  · exact fun u hu => htask u (.inl hu)
  · exact fun u hu => htask u (.inr hu)
  · exact (hR.mul A).outruns (hS.mul fun hn => hA.mono (hP hn))

theorem opt (h : r.TakesLongest R X) (hR : Opens R X) :
    (rep 0 (some 1) true r).TakesLongest (R + 1) X := by
  intro task A text hA htask
  rw [add_mul, one_mul]
  refine .expand (by simp) (fun _ => rfl) (.orElse (T := [_]) (h _ A text hA ?_) ?_ ?_)
  · exact fun u hu rest he => .expand (by simp) (fun _ => rfl) (htask u (.inl hu) rest he)
  · exact htask [] (.inr rfl) text rfl
  · exact (hR.mul A).outruns hA

/-- The induction is on the text: each round takes some of it. -/
theorem again (h : r.TakesLongest R ∅) (hR : Opens R X) {task : Task} {A : Rows Char} (hA : Avoids A X)
    (htask : ∀ u ∈ R∗, ∀ rest, text = u ++ rest → Pattern.TakesLongest [task] A rest) :
    Pattern.TakesLongest [.again true r :: task] (R∗ * A) text := by
  induction hn : text.length using Nat.strong_induction_on generalizing text with
  | h n ih =>
      subst hn
      have hround : R∗ * A = R * (R∗ * A) + A := by
        rw [← mul_assoc, ← add_one_mul, add_comm, Language.one_add_self_mul_kstar_eq_kstar]
      rw [hround]
      refine .expand (by simp) (fun _ => rfl) (.orElse (T := [_]) (h _ _ text .empty ?_) ?_ ?_)
      · rintro u hu rest rfl
        obtain ⟨c, u', rfl, -⟩ := hR u hu
        refine ih _ ?_ (fun v hv rest' he => ?_) rfl
        · rw [List.length_append, List.length_cons]
          omega
        · refine htask (c :: u' ++ v) ?_ rest' (by rw [he, List.append_assoc])
          rw [← Language.one_add_self_mul_kstar_eq_kstar]
          exact .inr (Language.append_mem_mul hu hv)
      · exact htask [] (Language.nil_mem_kstar R) text rfl
      · exact (hR.mul _).outruns hA

theorem many (h : r.TakesLongest R ∅) (hR : Opens R X) : (rep 0 none true r).TakesLongest R∗ X := by
  intro task A text hA htask before
  obtain ⟨q, ⟨n, hq⟩, hlongest⟩ := h.again hR hA htask before
  refine ⟨q, .expand (by simp) ?_, hlongest⟩
  cases hq with
  | expand _ hq => exact ⟨_, hq⟩

theorem settles (h : r.TakesLongest R X) (text : List Char) :
    Pattern.TakesLongest [[.once r]] R text := by
  rw [← mul_one R]
  exact h [] 1 text .one fun _ _ _ _ => .done

end TakesLongest

end Regex

end EarleyTree.Pattern

import EarleyTree.Pattern.Matching
import EarleyTree.Proofs.Language.Places

/-!
The texts that a task can use up, whatever is preferred: any way to go on will do. What an expression
spells wherever it stands is put together from what its parts spell.
-/
namespace EarleyTree.Pattern

open Computability

/-- The character before what comes behind a text. -/
def lastOf (before : Option Char) (w : List Char) : Option Char := w.getLast?.or before

theorem lastOf_cons (before : Option Char) (c : Char) (w : List Char) :
    lastOf before (c :: w) = lastOf (some c) w := by
  rw [lastOf, lastOf, List.getLast?_cons]
  cases w.getLast? <;> rfl

/-- The task can be done with by way of the text, which stands behind the character and before the
rest. -/
inductive Task.Spells : Option Char → Task → List Char → List Char → Prop
  | done {before : Option Char} {rest : List Char} : Spells before [] [] rest
  | expand {before : Option Char} {frame : Frame} {task next : Task} {w rest : List Char}
      (hn : next ∈ frame.expand before (w ++ rest).head? task) (h : Spells before next w rest) :
      Spells before (frame :: task) w rest
  | char {before : Option Char} {s : CharSet} {c : Char} {task : Task} {w rest : List Char}
      (hc : s.contains c = true) (h : Spells (some c) task w rest) :
      Spells before (.once (.set s) :: task) (c :: w) rest

/-- What stands below a frame is not looked at when the frame is expanded. -/
theorem Frame.expand_append (before after : Option Char) (frame : Frame) (task below : Task) :
    frame.expand before after (task ++ below) =
      (frame.expand before after task).map (· ++ below) := by
  cases frame with
  | again greedy r => cases greedy <;> rfl
  | once r =>
      cases r with
      | empty | set s | cat a b | alt a b => rfl
      | test b => cases h : b.holds before after <;> simp [Frame.expand, h]
      | rep min max greedy r => rcases min with _ | _ | n <;> rcases max with _ | _ | m <;>
          cases greedy <;> rfl

namespace Task.Spells

variable {before : Option Char} {task below : Task} {u v w rest : List Char}

theorem append (h : Spells before task u (v ++ rest)) (h' : Spells (lastOf before u) below v rest) :
    Spells before (task ++ below) (u ++ v) rest := by
  generalize hr : v ++ rest = rest' at h
  induction h with
  | done => exact h'
  | expand hn _ ih =>
      subst hr
      rw [List.cons_append]
      refine .expand ?_ (ih h' rfl)
      rw [Frame.expand_append, List.append_assoc]
      exact List.mem_map_of_mem hn
  | char hc _ ih => exact .char hc (ih (lastOf_cons _ _ _ ▸ h') hr)

/-- The induction is on how the whole task is done with. It comes to what stands below only when the
upper part is done with. -/
theorem exists_append (h : Spells before (task ++ below) w rest) : ∃ u v, w = u ++ v ∧
    Spells before task u (v ++ rest) ∧ Spells (lastOf before u) below v rest := by
  generalize ht : task ++ below = whole at h
  induction h generalizing task with
  | done =>
      obtain ⟨rfl, rfl⟩ := List.append_eq_nil_iff.1 ht
      exact ⟨[], [], rfl, .done, .done⟩
  | @expand before frame upper next w rest hn h ih =>
      cases task with
      | nil =>
          obtain rfl : below = frame :: upper := ht
          exact ⟨[], w, rfl, .done, .expand hn h⟩
      | cons frame' task =>
          rw [List.cons_append] at ht
          obtain ⟨rfl, rfl⟩ := List.cons.inj ht
          rw [Frame.expand_append] at hn
          obtain ⟨next', hn', rfl⟩ := List.mem_map.1 hn
          obtain ⟨u, v, rfl, hu, hv⟩ := ih rfl
          exact ⟨u, v, rfl, .expand (List.append_assoc u v rest ▸ hn') hu, hv⟩
  | @char before s c upper w rest hc h ih =>
      cases task with
      | nil =>
          obtain rfl : below = .once (.set s) :: upper := ht
          exact ⟨[], c :: w, rfl, .done, .char hc h⟩
      | cons frame' task =>
          obtain ⟨rfl, rfl⟩ := List.cons.inj ht
          obtain ⟨u, v, rfl, hu, hv⟩ := ih rfl
          exact ⟨c :: u, v, rfl, .char hc hu, lastOf_cons _ _ _ ▸ hv⟩

theorem append_iff : Spells before (task ++ below) w rest ↔ ∃ u v, w = u ++ v ∧
    Spells before task u (v ++ rest) ∧ Spells (lastOf before u) below v rest :=
  ⟨exists_append, by rintro ⟨u, v, rfl, hu, hv⟩; exact hu.append hv⟩

theorem cons_iff {frame : Frame} : Spells before (frame :: task) w rest ↔ ∃ u v, w = u ++ v ∧
    Spells before [frame] u (v ++ rest) ∧ Spells (lastOf before u) task v rest :=
  @append_iff before [frame] task w rest

theorem nil_iff : Spells before [] w rest ↔ w = [] :=
  ⟨fun h => by cases h; rfl, by rintro rfl; exact .done⟩

/-- Where no character is asked for, one goes on with what the frame leads to. -/
theorem expand_iff {frame : Frame} (hf : ∀ s, frame ≠ .once (.set s)) :
    Spells before (frame :: task) w rest ↔
      ∃ next ∈ frame.expand before (w ++ rest).head? task, Spells before next w rest := by
  constructor
  · intro h
    cases h with
    | expand hn h => exact ⟨_, hn, h⟩
    | char hc h => exact absurd rfl (hf _)
  · rintro ⟨next, hn, h⟩
    exact .expand hn h

theorem set_iff {s : CharSet} : Spells before (.once (.set s) :: task) w rest ↔
    ∃ c w', w = c :: w' ∧ s.contains c = true ∧ Spells (some c) task w' rest := by
  constructor
  · intro h
    cases h with
    | expand hn h => exact absurd hn List.not_mem_nil
    | char hc h => exact ⟨_, _, rfl, hc, h⟩
  · rintro ⟨c, w, rfl, hc, h⟩
    exact .char hc h

end Task.Spells

namespace CharSet

/-- The texts that are a single character of the set. -/
def texts (s : CharSet) : Rows Char := {w | ∃ c, w = [c] ∧ s.contains c = true}

theorem contains_char {c d : Char} : (char c).contains d = true ↔ d = c := by
  rw [contains, char, has, ← Char.toNat_inj, Bool.and_eq_true, decide_eq_true_iff, decide_eq_true_iff]
  omega

theorem texts_char (c : Char) : (char c).texts = {[c]} := by
  ext w
  constructor
  · rintro ⟨d, rfl, hd⟩
    rw [contains_char.1 hd]
    rfl
  · rintro rfl
    exact ⟨c, rfl, contains_char.2 rfl⟩

end CharSet

namespace Regex

/-- The expression spells the texts of the set, whatever stands before and behind them. -/
def Denotes (r : Regex) (A : Rows Char) : Prop :=
  ∀ before w rest, Task.Spells before [.once r] w rest ↔ w ∈ A

section

variable {r r' : Regex} {A B : Rows Char} {before : Option Char} {task : Task} {w rest : List Char}

theorem Denotes.cons_iff (h : r.Denotes A) : Task.Spells before (.once r :: task) w rest ↔
    ∃ u v, w = u ++ v ∧ u ∈ A ∧ Task.Spells (lastOf before u) task v rest := by
  rw [Task.Spells.cons_iff]
  simp only [h _ _ _]

theorem mem_mul_iff : w ∈ A * B ↔ ∃ u v, w = u ++ v ∧ u ∈ A ∧ v ∈ B := by
  rw [Language.mem_mul]
  constructor
  · rintro ⟨u, hu, v, hv, rfl⟩
    exact ⟨u, v, rfl, hu, hv⟩
  · rintro ⟨u, v, rfl, hu, hv⟩
    exact ⟨u, hu, v, hv, rfl⟩

theorem denotes_set (s : CharSet) : (set s).Denotes s.texts := by
  intro before w rest
  simp only [Task.Spells.set_iff, Task.Spells.nil_iff]
  constructor
  · rintro ⟨c, w, rfl, hc, rfl⟩
    exact ⟨c, rfl, hc⟩
  · rintro ⟨c, rfl, hc⟩
    exact ⟨c, [], rfl, hc, rfl⟩

theorem denotes_char (c : Char) : (char c).Denotes {[c]} :=
  CharSet.texts_char c ▸ denotes_set (.char c)

theorem Denotes.cat (h : r.Denotes A) (h' : r'.Denotes B) : (cat r r').Denotes (A * B) := by
  intro before w rest
  rw [Task.Spells.expand_iff (by simp), mem_mul_iff]
  simp only [Frame.expand, List.mem_singleton, exists_eq_left, h.cons_iff, h' _ _ _]

theorem Denotes.alt (h : r.Denotes A) (h' : r'.Denotes B) : (alt r r').Denotes (A + B) := by
  intro before w rest
  rw [Task.Spells.expand_iff (by simp), Language.mem_add]
  simp [Frame.expand, h _ _ _, h' _ _ _]

theorem mem_expand_again {after : Option Char} {greedy : Bool} {next : Task} :
    next ∈ (Frame.again greedy r).expand before after task ↔
      next = .once r :: .again greedy r :: task ∨ next = task := by
  cases greedy <;> simp [Frame.expand, or_comm]

/-- Behind a round of a repetition come further rounds, however many. The induction is on how the
whole task is done with: each round puts one more in front of the rest. -/
theorem Denotes.exists_rounds (h : r.Denotes A) {greedy : Bool}
    (hw : Task.Spells before (task ++ [.again greedy r]) w rest) : ∃ u v, w = u ++ v ∧
      Task.Spells before task u (v ++ rest) ∧ v ∈ A∗ := by
  generalize ht : task ++ [.again greedy r] = whole at hw
  induction hw generalizing task with
  | done => exact absurd ht (by simp)
  | @expand before frame upper next w rest hn hw ih =>
      cases task with
      | nil =>
          obtain ⟨rfl, rfl⟩ := List.cons.inj ht
          obtain rfl | rfl := mem_expand_again.1 hn
          · obtain ⟨u, v, rfl, hu, hv⟩ := @ih [.once r] rfl
            refine ⟨[], u ++ v, rfl, .done, ?_⟩
            rw [← Language.one_add_self_mul_kstar_eq_kstar]
            exact .inr (Language.append_mem_mul ((h _ _ _).1 hu) hv)
          · obtain rfl := Task.Spells.nil_iff.1 hw
            exact ⟨[], [], rfl, .done, Language.nil_mem_kstar A⟩
      | cons frame' task =>
          rw [List.cons_append] at ht
          obtain ⟨rfl, rfl⟩ := List.cons.inj ht
          rw [Frame.expand_append] at hn
          obtain ⟨next', hn', rfl⟩ := List.mem_map.1 hn
          obtain ⟨u, v, rfl, hu, hv⟩ := ih rfl
          exact ⟨u, v, rfl, .expand (List.append_assoc u v rest ▸ hn') hu, hv⟩
  | @char before s c upper w rest hc hw ih =>
      cases task with
      | nil => cases ht
      | cons frame' task =>
          obtain ⟨rfl, rfl⟩ := List.cons.inj ht
          obtain ⟨u, v, rfl, hu, hv⟩ := ih rfl
          exact ⟨c :: u, v, rfl, .char hc hu, hv⟩

theorem Denotes.again_iff (h : r.Denotes A) {greedy : Bool} :
    Task.Spells before [.again greedy r] w rest ↔ w ∈ A∗ := by
  constructor
  · intro hw
    obtain ⟨u, v, rfl, hu, hv⟩ := h.exists_rounds (List.nil_append [Frame.again greedy r] ▸ hw)
    rwa [Task.Spells.nil_iff.1 hu]
  · intro hw
    obtain ⟨rounds, rfl, hrounds⟩ := Language.mem_kstar.1 hw
    clear hw
    induction rounds generalizing before with
    | nil => exact .expand (mem_expand_again.2 (.inr rfl)) .done
    | cons u rounds ih =>
        obtain ⟨hu, hrounds⟩ := List.forall_mem_cons.1 hrounds
        refine .expand (mem_expand_again.2 (.inl rfl)) (h.cons_iff.2 ⟨u, _, rfl, hu, ?_⟩)
        exact ih hrounds

theorem Denotes.many (h : r.Denotes A) (greedy : Bool) : (rep 0 none greedy r).Denotes A∗ := by
  intro before w rest
  have hagain : Task.Spells before [.again greedy r] w rest ↔ w ∈ A∗ := h.again_iff
  rw [← hagain, Task.Spells.expand_iff (by simp), Task.Spells.expand_iff (by simp)]
  rfl

theorem Denotes.many1 (h : r.Denotes A) (greedy : Bool) :
    (rep 1 none greedy r).Denotes (A * A∗) := by
  intro before w rest
  rw [Task.Spells.expand_iff (by simp), mem_mul_iff]
  simp only [Frame.expand, List.mem_singleton, exists_eq_left, h.cons_iff, h.again_iff]

theorem Denotes.opt (h : r.Denotes A) (greedy : Bool) :
    (rep 0 (some 1) greedy r).Denotes (A + 1) := by
  have hlast (before : Option Char) (v rest : List Char) :
      Task.Spells before [.once (rep 0 (some 0) greedy r)] v rest ↔ v = [] := by
    rw [Task.Spells.expand_iff (by simp)]
    simp only [Frame.expand, List.mem_singleton, exists_eq_left, Task.Spells.nil_iff]
  have hround (before : Option Char) (w rest : List Char) :
      Task.Spells before [.once r, .once (rep 0 (some 0) greedy r)] w rest ↔ w ∈ A := by
    simp [h.cons_iff, hlast]
  intro before w rest
  rw [Task.Spells.expand_iff (by simp), Language.mem_add, Language.mem_one]
  cases greedy <;> simp [Frame.expand, hround, Task.Spells.nil_iff, or_comm]

end

end Regex

end EarleyTree.Pattern

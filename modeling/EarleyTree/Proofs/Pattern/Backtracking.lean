import EarleyTree.Proofs.Pattern.Fronts

/-!
Backtracking tries the tasks one after the other, each as far as it goes before the next one. Where it
comes to an end, advancing all tasks together comes to the same match.
-/
namespace EarleyTree.Pattern

open Text

/-- The tasks are tried in their order. The first one that can be done with gives the result, which is
what it takes from the text. No branch of the attempt is deeper than the number. -/
inductive Tries : Nat → Option Char → List Task → List Char → Option (List Char) → Prop
  | nothing {n : Nat} {before : Option Char} {text : List Char} : Tries n before [] text none
  | done {n : Nat} {before : Option Char} {pending : List Task} {text : List Char} :
      Tries n before ([] :: pending) text (some [])
  | expand {n : Nat} {before : Option Char} {frame : Frame} {task : Task} {pending : List Task}
      {text : List Char} {result : Option (List Char)} (hf : ∀ s, frame ≠ .once (.set s))
      (h : Tries n before (frame.expand before text.head? task ++ pending) text result) :
      Tries (n + 1) before ((frame :: task) :: pending) text result
  | missed {n : Nat} {before : Option Char} {s : CharSet} {task : Task} {pending : List Task}
      {text : List Char} {result : Option (List Char)} (hc : ∀ c ∈ text.head?, s.contains c = false)
      (h : Tries n before pending text result) :
      Tries (n + 1) before ((.once (.set s) :: task) :: pending) text result
  | taken {n : Nat} {before : Option Char} {s : CharSet} {task : Task} {pending : List Task} {c : Char}
      {rest w : List Char} (hc : s.contains c = true) (h : Tries n (some c) [task] rest (some w)) :
      Tries (n + 1) before ((.once (.set s) :: task) :: pending) (c :: rest) (some (c :: w))
  | failed {n : Nat} {before : Option Char} {s : CharSet} {task : Task} {pending : List Task}
      {c : Char} {rest : List Char} {result : Option (List Char)} (hc : s.contains c = true)
      (h : Tries n (some c) [task] rest none) (h' : Tries n before pending (c :: rest) result) :
      Tries (n + 1) before ((.once (.set s) :: task) :: pending) (c :: rest) result

/-- The attempt comes to an end. -/
def Settles (before : Option Char) (tasks : List Task) (text : List Char)
    (result : Option (List Char)) : Prop := ∃ n, Tries n before tasks text result

section

variable {m n : Nat} {before : Option Char} {T U pending : List Task} {task u v : Task} {frame : Frame}
  {s : CharSet} {c : Char} {text rest w : List Char} {r r' : Option (List Char)}

namespace Tries

theorem succ (h : Tries n before T text r) : Tries (n + 1) before T text r := by
  induction h with
  | nothing => exact .nothing
  | done => exact .done
  | expand hf _ ih => exact .expand hf ih
  | missed hc _ ih => exact .missed hc ih
  | taken hc _ ih => exact .taken hc ih
  | failed hc _ _ ih ih' => exact .failed hc ih ih'

theorem mono (h : Tries m before T text r) (hle : m ≤ n) : Tries n before T text r := by
  induction hle with
  | refl => exact h
  | step _ ih => exact ih.succ

theorem unique (h : Tries m before T text r) (h' : Tries n before T text r') : r = r' := by
  induction h generalizing n r' with
  | nothing | done =>
      cases h'
      rfl
  | expand hf _ ih =>
      cases h' with
      | expand _ h' => exact ih h'
      | missed | taken | failed => exact absurd rfl (hf _)
  | missed hc _ ih =>
      cases h' with
      | expand hf => exact absurd rfl (hf _)
      | missed _ h' => exact ih h'
      | taken hc' | failed hc' => simp [hc _ rfl] at hc'
  | taken hc _ ih =>
      cases h' with
      | expand hf => exact absurd rfl (hf _)
      | missed hc' => simp [hc' _ rfl] at hc
      | taken _ h' => rw [Option.some.inj (ih h')]
      | failed _ h' => cases ih h'
  | failed hc _ _ ih ih' =>
      cases h' with
      | expand hf => exact absurd rfl (hf _)
      | missed hc' => simp [hc' _ rfl] at hc
      | taken _ h' => cases ih h'
      | failed _ _ h' => exact ih' h'

/-- The further tasks are tried if the first ones fail. -/
theorem append (h : Tries m before T text r) (h' : r = none → Tries n before U text r') :
    Tries (m + n) before (T ++ U) text (r.or r') := by
  induction h with
  | nothing => exact (h' rfl).mono (Nat.le_add_left _ _)
  | done => exact .done
  | expand hf _ ih =>
      rw [Nat.succ_add]
      exact .expand hf (List.append_assoc _ _ U ▸ ih h')
  | missed hc _ ih =>
      rw [Nat.succ_add]
      exact .missed hc (ih h')
  | taken hc h =>
      rw [Nat.succ_add]
      exact .taken hc (h.mono (Nat.le_add_right _ _))
  | failed hc h _ _ ih' =>
      rw [Nat.succ_add]
      exact .failed hc (h.mono (Nat.le_add_right _ _)) (ih' h')

theorem of_append (h : Tries n before (T ++ U) text r) :
    r.isSome ∧ Tries n before T text r ∨ Tries n before T text none ∧ Tries n before U text r := by
  generalize ht : T ++ U = tasks at h
  induction h generalizing T with
  | nothing =>
      obtain ⟨rfl, rfl⟩ := List.append_eq_nil_iff.1 ht
      exact .inr ⟨.nothing, .nothing⟩
  | done =>
      rcases List.append_eq_cons_iff.1 ht with ⟨rfl, rfl⟩ | ⟨T, rfl, rfl⟩
      · exact .inr ⟨.nothing, .done⟩
      · exact .inl ⟨rfl, .done⟩
  | expand hf h ih =>
      rcases List.append_eq_cons_iff.1 ht with ⟨rfl, rfl⟩ | ⟨T, rfl, rfl⟩
      · exact .inr ⟨.nothing, .expand hf h⟩
      · obtain ⟨hr, h⟩ | ⟨h, h'⟩ := ih (List.append_assoc _ T U)
        · exact .inl ⟨hr, .expand hf h⟩
        · exact .inr ⟨.expand hf h, h'.succ⟩
  | missed hc h ih =>
      rcases List.append_eq_cons_iff.1 ht with ⟨rfl, rfl⟩ | ⟨T, rfl, rfl⟩
      · exact .inr ⟨.nothing, .missed hc h⟩
      · obtain ⟨hr, h⟩ | ⟨h, h'⟩ := ih rfl
        · exact .inl ⟨hr, .missed hc h⟩
        · exact .inr ⟨.missed hc h, h'.succ⟩
  | taken hc h =>
      rcases List.append_eq_cons_iff.1 ht with ⟨rfl, rfl⟩ | ⟨T, rfl, rfl⟩
      · exact .inr ⟨.nothing, .taken hc h⟩
      · exact .inl ⟨rfl, .taken hc h⟩
  | failed hc h h' _ ih =>
      rcases List.append_eq_cons_iff.1 ht with ⟨rfl, rfl⟩ | ⟨T, rfl, rfl⟩
      · exact .inr ⟨.nothing, .failed hc h h'⟩
      · obtain ⟨hr, h'⟩ | ⟨h', h''⟩ := ih rfl
        · exact .inl ⟨hr, .failed hc h h'⟩
        · exact .inr ⟨.failed hc h h', h''.succ⟩

end Tries

namespace Settles

theorem nothing : Settles before [] text none := ⟨0, .nothing⟩

theorem done : Settles before ([] :: pending) text (some []) := ⟨0, .done⟩

theorem expand (hf : ∀ s, frame ≠ .once (.set s))
    (h : Settles before (frame.expand before text.head? task ++ pending) text r) :
    Settles before ((frame :: task) :: pending) text r := by
  obtain ⟨n, h⟩ := h
  exact ⟨n + 1, .expand hf h⟩

theorem missed (hc : ∀ c ∈ text.head?, s.contains c = false) (h : Settles before pending text r) :
    Settles before ((.once (.set s) :: task) :: pending) text r := by
  obtain ⟨n, h⟩ := h
  exact ⟨n + 1, .missed hc h⟩

theorem unique (h : Settles before T text r) (h' : Settles before T text r') : r = r' := by
  obtain ⟨m, h⟩ := h
  obtain ⟨n, h'⟩ := h'
  exact h.unique h'

theorem append (h : Settles before T text r) (h' : r = none → Settles before U text r') :
    Settles before (T ++ U) text (r.or r') := by
  obtain ⟨m, h⟩ := h
  cases r with
  | none =>
      obtain ⟨n, h'⟩ := h' rfl
      exact ⟨m + n, h.append fun _ => h'⟩
  | some w => exact ⟨m + 0, h.append fun hr => absurd hr (Option.some_ne_none w)⟩

theorem of_some (h : Settles before [task] text (some w)) :
    Settles before (task :: pending) text (some w) :=
  @append before [task] pending text (some w) none h fun hr => absurd hr (Option.some_ne_none w)

theorem of_append (h : Settles before (T ++ U) text r) :
    r.isSome ∧ Settles before T text r ∨ Settles before T text none ∧ Settles before U text r := by
  obtain ⟨n, h⟩ := h
  exact h.of_append.imp (fun ⟨hr, h⟩ => ⟨hr, n, h⟩) fun ⟨h, h'⟩ => ⟨⟨n, h⟩, n, h'⟩

/-- A task that waits for the character goes on behind it. -/
theorem char (hc : s.contains c = true) (h : Settles (some c) [task] rest r) :
    Settles before [.once (.set s) :: task] (c :: rest) (r.map (c :: ·)) := by
  obtain ⟨n, h⟩ := h
  cases r with
  | none => exact ⟨n + 1, .failed hc h .nothing⟩
  | some w => exact ⟨n + 1, .taken hc h⟩

end Settles

/-- The first of the pending tasks are all that is left of the task, which fails with them, and they
are settled sooner. -/
def InHand (before : Option Char) (text : List Char) (pending : List Task) (task : Task) : Prop :=
  ∃ inner outer, pending = inner ++ outer ∧
    ∀ n r, Tries n before [task] text r → ∃ m < n, Tries m before inner text r

namespace InHand

theorem failed (h : Settles before [frame :: task] text none) :
    InHand before text pending (frame :: task) := by
  refine ⟨[], pending, rfl, fun n r hn => ⟨0, ?_, h.unique ⟨n, hn⟩ ▸ .nothing⟩⟩
  cases hn <;> exact Nat.succ_pos _

/-- A task that is met again while it is in hand fails, for else it would have to be settled sooner than
it is itself. -/
theorem eq_none (h : InHand before text (task :: pending) task) (hr : Settles before [task] text r) :
    r = none := by
  obtain ⟨inner, outer, he, hinner⟩ := h
  rcases inner with - | ⟨v, inner⟩
  · obtain ⟨n, hn⟩ := hr
    obtain ⟨m, -, hm⟩ := hinner n r hn
    cases hm
    rfl
  · obtain ⟨rfl, rfl⟩ := List.cons.inj he
    have hnever (n : Nat) : ∀ r, ¬Tries n before [task] text r := by
      induction n using Nat.strong_induction_on with
      | h n ih =>
          intro r hn
          obtain ⟨m, hlt, hm⟩ := hinner n r hn
          obtain ⟨-, hm⟩ | ⟨hm, -⟩ := Tries.of_append (T := [task]) hm
          · exact ih m hlt r hm
          · exact ih m hlt none hm
    obtain ⟨n, hn⟩ := hr
    exact absurd hn (hnever n r)

/-- What is in hand stays so when the first pending task has failed. -/
theorem tail (h : InHand before text (task :: pending) u)
    (hf : ∀ r, Settles before [task] text r → r = none) : InHand before text pending u := by
  obtain ⟨inner, outer, he, hinner⟩ := h
  rcases inner with - | ⟨v, inner⟩
  · exact ⟨[], pending, rfl, hinner⟩
  · obtain ⟨rfl, rfl⟩ := List.cons.inj he
    refine ⟨inner, outer, rfl, fun n r hn => ?_⟩
    obtain ⟨m, hlt, hm⟩ := hinner n r hn
    obtain ⟨hr, hm⟩ | ⟨-, hm⟩ := Tries.of_append (T := [task]) hm
    · rw [hf r ⟨m, hm⟩] at hr
      cases hr
    · exact ⟨m, hlt, hm⟩

theorem expand (h : InHand before text ((frame :: task) :: pending) u)
    (hf : ∀ s, frame ≠ .once (.set s)) :
    InHand before text (frame.expand before text.head? task ++ pending) u := by
  obtain ⟨inner, outer, he, hinner⟩ := h
  rcases inner with - | ⟨v, inner⟩
  · exact ⟨[], _, rfl, hinner⟩
  · obtain ⟨rfl, rfl⟩ := List.cons.inj he
    refine ⟨frame.expand before text.head? task ++ inner, outer, (List.append_assoc _ _ _).symm,
      fun n r hn => ?_⟩
    obtain ⟨m, hlt, hm⟩ := hinner n r hn
    cases hm with
    | expand _ hm => exact ⟨_, (Nat.lt_succ_self _).trans hlt, hm⟩
    | missed | taken | failed => exact absurd rfl (hf _)

theorem self (hf : ∀ s, frame ≠ .once (.set s)) :
    InHand before text (frame.expand before text.head? task ++ pending) (frame :: task) := by
  refine ⟨_, pending, rfl, fun n r hn => ?_⟩
  cases hn with
  | expand _ hn =>
      rw [List.append_nil] at hn
      exact ⟨_, Nat.lt_succ_self _, hn⟩
  | missed | taken | failed => exact absurd rfl (hf _)

end InHand

end

namespace Front

variable {before after : Option Char} {pending visited tasks S : List Task} {fuel offset : Nat}
  {front : Front} {s : CharSet} {task : Task} {text : List Char} {r : Option (List Char)}
  {best : Option Nat} {c : Char} {rest w : List Char}

/-- What the front has come to without reading any further. -/
def here (front : Front) : Option (List Char) := if front.accepts then some [] else none

/-- Backtracking over the tasks of the front has this result. -/
def Gives (front : Front) : List Char → Option (List Char) → Prop
  | [], r => r = front.here
  | c :: rest, r => ∃ q, Settles (some c) (front.step c) rest q ∧ r = (q.map (c :: ·)).or front.here

/-- The thread is preferred to all others. -/
def onTop (front : Front) (s : CharSet) (task : Task) : Front :=
  { front with threads := (s, task) :: front.threads }

theorem step_onTop {c : Char} : (front.onTop s task).step c =
    if s.contains c then task :: front.step c else front.step c := by
  cases hc : s.contains c <;> simp [step, onTop, hc]

namespace Gives

theorem nothing : Gives ⟨[], false⟩ text none := by
  cases text with
  | nil => rfl
  | cons c rest => exact ⟨none, .nothing, rfl⟩

theorem done : Gives ⟨[], true⟩ text (some []) := by
  cases text with
  | nil => rfl
  | cons c rest => exact ⟨none, .nothing, rfl⟩

theorem missed (h : front.Gives text r) (hc : ∀ c ∈ text.head?, s.contains c = false) :
    (front.onTop s task).Gives text r := by
  cases text with
  | nil => exact h
  | cons c rest => rwa [Gives, step_onTop, hc c rfl]

theorem taken (hc : s.contains c = true) (h : Settles (some c) [task] rest (some w)) :
    (front.onTop s task).Gives (c :: rest) (some (c :: w)) := by
  refine ⟨some w, ?_, rfl⟩
  rw [step_onTop, if_pos hc]
  exact h.of_some

theorem failed (hc : s.contains c = true) (h : Settles (some c) [task] rest none)
    (h' : front.Gives (c :: rest) r) : (front.onTop s task).Gives (c :: rest) r := by
  obtain ⟨q, hq, rfl⟩ := h'
  refine ⟨q, ?_, rfl⟩
  rw [step_onTop, if_pos hc]
  exact h.append fun _ => hq

end Gives

/-- The expansion leaves out what is met again, and what stands below a complete match. Neither makes a
difference to backtracking that comes to an end. -/
theorem expand_gives (ha : text.head? = after) (hS : LeadTo before after S S)
    (h : OnTheWay before after S pending visited fuel)
    (hv : ∀ task ∈ visited, InHand before text pending task) (ht : Settles before pending text r) :
    (expand before after fuel pending visited).Gives text r := by
  fun_induction expand before after fuel pending visited generalizing r with
  | case1 => exact absurd h.enough (Nat.not_lt_zero _)
  | case2 fuel visited =>
      obtain rfl := ht.unique .nothing
      exact .nothing
  | case3 fuel pending visited =>
      obtain rfl := ht.unique .done
      exact .done
  | case4 fuel frame rest pending visited hm ih =>
      have hm : frame :: rest ∈ visited := List.contains_iff_mem.1 hm
      have hnone (r : Option (List Char)) (hr : Settles before [frame :: rest] text r) : r = none :=
        (hv _ hm).eq_none hr
      refine ih (h.again hm) (fun task htask => (hv task htask).tail hnone) ?_
      obtain ⟨hr, ht⟩ | ⟨-, ht⟩ := Settles.of_append (T := [_]) ht
      · rw [hnone r ht] at hr
        cases hr
      · exact ht
  | case5 fuel rest pending visited s hm ih =>
      have hm : .once (.set s) :: rest ∉ visited := fun h => hm (List.contains_iff_mem.2 h)
      have hfails (hn : Settles before [.once (.set s) :: rest] text none) :
          ∀ task ∈ (.once (.set s) :: rest) :: visited, InHand before text pending task :=
        List.forall_mem_cons.2
          ⟨.failed hn, fun task htask => (hv task htask).tail fun r hr => hr.unique hn⟩
      have ih (hn : Settles before [.once (.set s) :: rest] text none) {r : Option (List Char)}
          (hr : Settles before pending text r) := ih (h.visit hS hm) (hfails hn) hr
      obtain ⟨n, ht⟩ := ht
      cases ht with
      | expand hf => exact absurd rfl (hf s)
      | missed hc ht => exact .missed (ih (.missed hc .nothing) ⟨_, ht⟩) hc
      | taken hc ht => exact .taken hc ⟨_, ht⟩
      | failed hc ht ht' => exact .failed hc ⟨_, ht⟩ (ih (.char hc ⟨_, ht⟩) ⟨_, ht'⟩)
  | case6 fuel frame rest pending visited hm hframe ih =>
      have hm : frame :: rest ∉ visited := fun h => hm (List.contains_iff_mem.2 h)
      subst ha
      refine ih (h.visit hS hm) (List.forall_mem_cons.2 ⟨.self hframe, fun task htask => ?_⟩) ?_
      · exact (hv task htask).expand hframe
      · obtain ⟨n, ht⟩ := ht
        cases ht with
        | expand _ ht => exact ⟨_, ht⟩
        | missed | taken | failed => exact absurd rfl (hframe _)

theorem ofTasks_gives (h : Settles before tasks text r) :
    (ofTasks before text.head? tasks).Gives text r := by
  obtain ⟨S, hS, hway⟩ := exists_onTheWay before text.head? tasks
  exact expand_gives rfl hS hway (fun task hm => absurd hm List.not_mem_nil) h

theorem best_eq_here : (if front.accepts then some offset else best) =
    (front.here.map fun w => offset + byteLength w).or best := by
  rw [here]
  cases front.accepts <;> rfl

/-- The induction is on the text: behind each character the tasks that have come over it are expanded. -/
theorem run_gives (h : front.Gives text r) :
    front.run text offset best = (r.map fun w => offset + byteLength w).or best := by
  induction text generalizing front r offset best with
  | nil =>
      obtain rfl := h
      rw [run, best_eq_here]
  | cons c rest ih =>
      obtain ⟨q, hq, rfl⟩ := h
      rw [run, best_eq_here]
      split
      · next hstep =>
          rw [hstep] at hq
          obtain rfl := hq.unique .nothing
          rfl
      · rw [ih (ofTasks_gives hq)]
        cases q <;> simp [byteLength, Nat.add_assoc]

end Front

/-- What is found is the match that backtracking comes to. -/
theorem Regex.matchAt_settles {before : Option Char} {r : Regex} {text : List Char} {offset : Nat}
    {result : Option (List Char)} (h : Settles before [[.once r]] text result) :
    r.matchAt before text offset = result.map fun w => offset + byteLength w := by
  rw [matchAt, Front.run_gives (Front.ofTasks_gives h), Option.or_none]

end EarleyTree.Pattern

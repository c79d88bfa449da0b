import EarleyTree.Proofs.Pattern.Spelling
import EarleyTree.Text.Position
import Mathlib.Algebra.Ring.Nat

/-!
Advancing all tasks together finds a match exactly if one of them spells a text that comes next. The
number of places inside the tasks is enough for the expansion to come to its end.
-/
namespace EarleyTree.Pattern

open Text

/-- Expanding the tasks of one list leads to those of another one, or to a complete match. -/
def LeadTo (before after : Option Char) (T S : List Task) : Prop :=
  ∀ frame task, frame :: task ∈ T → ∀ next ∈ frame.expand before after task, next ∈ S ∨ next = []

/-- So many tasks are enough for all that these lead to. -/
def Bounded (before after : Option Char) (tasks : List Task) (n : Nat) : Prop :=
  ∃ S, LeadTo before after S S ∧ (∀ task ∈ tasks, task ∈ S ∨ task = []) ∧ S.length ≤ n

section

variable {before after : Option Char} {S T U : List Task} {task : Task} {f : Frame} {r : Regex}
  {m n : Nat}

theorem LeadTo.mono (h : LeadTo before after T S) (hs : S ⊆ U) : LeadTo before after T U :=
  fun frame task hm next hn => (h frame task hm next hn).imp_left fun h => hs h

theorem LeadTo.append (h : LeadTo before after S U) (h' : LeadTo before after T U) :
    LeadTo before after (S ++ T) U := by
  intro frame task hm
  obtain hm | hm := List.mem_append.1 hm
  · exact h frame task hm
  · exact h' frame task hm

/-- Tasks that are put on top of another one lead to it. -/
theorem LeadTo.onTop (h : LeadTo before after S S) (hs : S.map (· ++ task) ⊆ U)
    (ht : task ∈ U ∨ task = []) (h' : LeadTo before after [task] U) :
    LeadTo before after (S.map (· ++ task)) U := by
  intro frame task' hm next hn
  obtain ⟨upper, hu, he⟩ := List.mem_map.1 hm
  cases upper with
  | nil => exact h' frame task' (List.mem_singleton.2 he.symm) next hn
  | cons frame' upper =>
      rw [List.cons_append] at he
      obtain ⟨rfl, rfl⟩ := List.cons.inj he
      rw [Frame.expand_append] at hn
      obtain ⟨next', hn', rfl⟩ := List.mem_map.1 hn
      obtain hn' | rfl := h frame' upper hu next' hn'
      · exact .inl (hs (List.mem_map_of_mem hn'))
      · exact ht

namespace Bounded

theorem mono (h : Bounded before after T m) (hs : ∀ task ∈ S, task ∈ T ∨ task = []) (hn : m ≤ n) :
    Bounded before after S n := by
  obtain ⟨U, hU, hT, hlen⟩ := h
  refine ⟨U, hU, fun task hm => ?_, hlen.trans hn⟩
  obtain hm | rfl := hs task hm
  · exact hT task hm
  · exact .inr rfl

theorem complete : Bounded before after [[]] 0 :=
  ⟨[], fun _ _ hm => absurd hm List.not_mem_nil, by simp, Nat.le_refl _⟩

theorem append (h : Bounded before after S m) (h' : Bounded before after T n) :
    Bounded before after (S ++ T) (m + n) := by
  obtain ⟨U, hU, hS, hm⟩ := h
  obtain ⟨V, hV, hT, hn⟩ := h'
  refine ⟨U ++ V, ?_, fun task hm => ?_, ?_⟩
  · exact (hU.mono (List.subset_append_left U V)).append (hV.mono (List.subset_append_right U V))
  · obtain hm | hm := List.mem_append.1 hm
    · exact (hS task hm).imp_left (List.mem_append_left V)
    · exact (hT task hm).imp_left (List.mem_append_right U)
  · rw [List.length_append]
    omega

/-- A frame leads to no more than what its expansions lead to, and itself. -/
theorem frame (h : Bounded before after (f.expand before after task) n) :
    Bounded before after [f :: task] (n + 1) := by
  obtain ⟨U, hU, hS, hn⟩ := h
  have hself : LeadTo before after [f :: task] ((f :: task) :: U) := by
    intro frame task' hm next hn
    cases List.mem_singleton.1 hm
    exact (hS next hn).imp_left (List.mem_cons_of_mem _)
  exact ⟨_, hself.append (hU.mono (List.subset_cons_self _ U)), by simp, by simpa using hn⟩

/-- What a frame leads to may stand on top of another task. -/
theorem push (h : Bounded before after [[f]] m) (h' : Bounded before after [task] n) :
    Bounded before after [f :: task, task] (m + n) := by
  obtain ⟨U, hU, hS, hm⟩ := h
  obtain ⟨V, hV, hT, hn⟩ := h'
  have hframe : [f] ∈ U := (hS _ (List.mem_singleton_self _)).resolve_right (by simp)
  have htask := hT task (List.mem_singleton_self _)
  refine ⟨U.map (· ++ task) ++ V, ?_, ?_, ?_⟩
  · have hV' := hV.mono (List.subset_append_right (U.map (· ++ task)) V)
    refine (hU.onTop (List.subset_append_left _ V) ?_ ?_).append hV'
    · exact htask.imp_left (List.mem_append_right _)
    · intro frame' task' he
      obtain htask | rfl := htask
      · exact hV' frame' task' (List.mem_singleton.1 he ▸ htask)
      · cases List.mem_singleton.1 he
  · refine List.forall_mem_cons.2 ⟨.inl (List.mem_append_left _ ?_), List.forall_mem_singleton.2 ?_⟩
    · exact List.mem_map.2 ⟨_, hframe, rfl⟩
    · exact htask.imp_left (List.mem_append_right _)
  · rw [List.length_append, List.length_map]
    omega

/-- Further rounds lead to nothing that one round does not lead to. -/
theorem again (h : Bounded before after [[.once r]] n) (greedy : Bool) :
    Bounded before after [[.once r, .again greedy r], [.again greedy r]] (n + 1) := by
  obtain ⟨U, hU, hS, hn⟩ := h
  have hround : [.once r] ∈ U := (hS _ (List.mem_singleton_self _)).resolve_right (by simp)
  have hin : [.once r, .again greedy r] ∈ U.map (· ++ [.again greedy r]) :=
    List.mem_map.2 ⟨_, hround, rfl⟩
  refine ⟨U.map (· ++ [.again greedy r]) ++ [[.again greedy r]], ?_, ?_, by simpa using hn⟩
  · have hself : LeadTo before after [[.again greedy r]]
        (U.map (· ++ [.again greedy r]) ++ [[.again greedy r]]) := by
      intro frame task he next hn
      cases List.mem_singleton.1 he
      obtain rfl | rfl := Regex.mem_expand_again.1 hn
      · exact .inl (List.mem_append_left _ hin)
      · exact .inr rfl
    exact (hU.onTop (List.subset_append_left _ _) (by simp) hself).append hself
  · exact List.forall_mem_cons.2 ⟨.inl (List.mem_append_left _ hin), by simp⟩

end Bounded

/-- The induction is on the least number of rounds and then on the further ones. -/
theorem Regex.rep_bounded (h : Bounded before after [[.once r]] n) (greedy : Bool) (min : Nat)
    (max : Option Nat) : Bounded before after [[.once (rep min max greedy r)]]
      ((min + max.getD 1) * (n + 1) + 1) := by
  induction min generalizing max with
  | zero =>
      cases max with
      | none =>
          refine .frame ((h.again greedy).mono ?_ (by simp))
          cases greedy <;> simp [Frame.expand]
      | some max =>
          induction max with
          | zero => exact .frame (.mono .complete (by simp [Frame.expand]) (Nat.zero_le _))
          | succ max ih =>
              refine .frame ((h.push ih).mono ?_ ?_)
              · cases greedy <;> simp [Frame.expand]
              · simp only [Option.getD_some]
                lia
  | succ min ih =>
      by_cases hagain : min = 0 ∧ max = none
      · obtain ⟨rfl, rfl⟩ := hagain
        refine .frame ((h.again greedy).mono ?_ ?_)
        · cases greedy <;> simp [Frame.expand]
        · simp only [Option.getD_none]
          omega
      · have hexpand : (Frame.once (rep (min + 1) max greedy r)).expand before after [] =
            [[.once r, .once (rep min (max.map (· - 1)) greedy r)]] := by
          rcases min with _ | min <;> rcases max with _ | max
          · exact absurd ⟨rfl, rfl⟩ hagain
          all_goals rfl
        have hle : (max.map (· - 1)).getD 1 ≤ max.getD 1 := by cases max <;> simp
        have hmul := Nat.mul_le_mul_right (n + 1)
          (show min + (max.map (· - 1)).getD 1 + 1 ≤ min + 1 + max.getD 1 by omega)
        rw [Nat.add_mul _ 1, Nat.one_mul] at hmul
        exact .frame (hexpand ▸ (h.push (ih (max.map (· - 1)))).mono (by simp) (by omega))

theorem Regex.bounded (r : Regex) : Bounded before after [[.once r]] r.places := by
  induction r with
  | empty => exact .frame .complete
  | set s => exact .frame (.mono .complete (by simp [Frame.expand]) (Nat.le_refl _))
  | test b =>
      refine .frame (.mono .complete ?_ (Nat.le_refl _))
      cases h : b.holds before after <;> simp [Frame.expand, h]
  | cat a b iha ihb =>
      exact .frame (.mono (iha.push ihb) (by simp [Frame.expand]) (Nat.le_refl _))
  | alt a b iha ihb => exact .frame (iha.append ihb)
  | rep min max greedy r ih =>
      have h := rep_bounded ih greedy min max
      cases max <;> exact h

theorem Frame.bounded (f : Frame) : Bounded before after [[f]] f.places := by
  cases f with
  | once r => exact r.bounded
  | again greedy r => exact (r.bounded.again greedy).mono (by simp) (Nat.le_refl _)

theorem foldl_add_eq {α : Type} (f : α → Nat) (l : List α) (n : Nat) :
    l.foldl (fun n a => n + f a) n = n + (l.map f).sum := by
  induction l generalizing n with
  | nil => rfl
  | cons a l ih => rw [List.foldl_cons, ih, List.map_cons, List.sum_cons, Nat.add_assoc]

theorem Task.bounded (task : Task) : Bounded before after [task] (task.map Frame.places).sum := by
  induction task with
  | nil => exact .complete
  | cons f task ih => exact (f.bounded.push ih).mono (by simp) (by simp)

theorem tasks_bounded (tasks : List Task) :
    Bounded before after tasks (tasks.map fun task => (task.map Frame.places).sum).sum := by
  induction tasks with
  | nil => exact .mono .complete (by simp) (Nat.le_refl _)
  | cons task tasks ih => exact task.bounded.append ih

theorem lt_fuel (tasks : List Task) :
    tasks.length + 2 * (tasks.map fun task => (task.map Frame.places).sum).sum <
      tasks.foldl (fun n t => n + 2 * t.places + 1) 1 := by
  have hfuel : tasks.foldl (fun n t => n + 2 * t.places + 1) 1 =
      1 + (tasks.map fun t => 2 * t.places + 1).sum :=
    foldl_add_eq (fun t : Task => 2 * t.places + 1) tasks 1
  rw [hfuel]
  clear hfuel
  induction tasks with
  | nil => simp
  | cons task tasks ih =>
      have hplaces : task.places = 1 + (task.map Frame.places).sum :=
        foldl_add_eq Frame.places task 1
      simp only [List.length_cons, List.map_cons, List.sum_cons]
      omega

end

namespace Front

/-- A complete match, or a task that waits for a character. -/
inductive Holds (front : Front) : Task → Prop
  | complete (h : front.accepts = true) : Holds front []
  | waits {s : CharSet} {task : Task} (h : (s, task) ∈ front.threads) :
      Holds front (.once (.set s) :: task)

variable {before after : Option Char} {pending visited S : List Task} {fuel : Nat} {front : Front}
  {task : Task}

theorem not_holds_empty : ¬Holds ⟨[], false⟩ task := by
  rintro (h | h)
  · cases h
  · cases h

/-- What a front holds, some of the pending tasks leads to. -/
theorem expand_sound {P : Task → Prop}
    (hP : ∀ frame task, ∀ next ∈ frame.expand before after task, P next → P (frame :: task))
    (h : (expand before after fuel pending visited).Holds task) (ht : P task) :
    ∃ task ∈ pending, P task := by
  fun_induction expand before after fuel pending visited with
  | case1 | case2 => exact absurd h not_holds_empty
  | case3 =>
      cases h with
      | complete => exact ⟨[], List.mem_cons_self, ht⟩
      | waits hm => cases hm
  | case4 fuel frame rest pending visited hv ih =>
      obtain ⟨task, hm, ht⟩ := ih h
      exact ⟨task, List.mem_cons_of_mem _ hm, ht⟩
  | case5 fuel rest pending visited s hv ih =>
      cases h with
      | complete ha =>
          obtain ⟨task, hm, ht⟩ := ih (.complete ha)
          exact ⟨task, List.mem_cons_of_mem _ hm, ht⟩
      | waits hm =>
          obtain he | hm := List.mem_cons.1 hm
          · cases he
            exact ⟨_, List.mem_cons_self, ht⟩
          · obtain ⟨task, hm, ht⟩ := ih (.waits hm)
            exact ⟨task, List.mem_cons_of_mem _ hm, ht⟩
  | case6 fuel frame rest pending visited hv hframe ih =>
      obtain ⟨task, hm, ht⟩ := ih h
      obtain hm | hm := List.mem_append.1 hm
      · exact ⟨_, List.mem_cons_self, hP frame rest task hm ht⟩
      · exact ⟨task, List.mem_cons_of_mem _ hm, ht⟩

theorem length_filter_lt (hm : task ∈ S) (hv : task ∉ visited) :
    (S.filter (· ∉ task :: visited)).length < (S.filter (· ∉ visited)).length := by
  have hfilter : S.filter (· ∉ task :: visited) = (S.filter (· ∉ visited)).filter (· ≠ task) := by
    rw [List.filter_filter]
    refine List.filter_congr fun t _ => ?_
    simp
  rw [hfilter, List.length_filter_lt_length_iff_exists]
  exact ⟨task, List.mem_filter.2 ⟨hm, by simpa using hv⟩, by simp⟩

theorem length_expand_le (before after : Option Char) (frame : Frame) (task : Task) :
    (frame.expand before after task).length ≤ 2 := by
  fun_cases Frame.expand before after task frame <;> simp

/-- All that is pending is in the closed list, the fuel suffices for it, and the tasks that have been
visited lead only to such tasks and to pending ones. -/
structure OnTheWay (before after : Option Char) (S pending visited : List Task) (fuel : Nat) :
    Prop where
  inside : ∀ task ∈ pending, task ∈ S ∨ task = []
  enough : pending.length + 2 * (S.filter (· ∉ visited)).length < fuel
  leads : ∀ frame task, frame :: task ∈ visited →
    ∀ next ∈ frame.expand before after task, next ∈ visited ∨ next ∈ pending
  incomplete : [] ∉ visited

/-- The tasks that have been visited in the end: they lead to no others, and to no complete match. -/
structure Explored (before after : Option Char) (pending visited : List Task) (front : Front)
    (V : List Task) : Prop where
  old : visited ⊆ V
  new : pending ⊆ V
  incomplete : [] ∉ V
  closed : ∀ frame task, frame :: task ∈ V → ∀ next ∈ frame.expand before after task, next ∈ V
  waits : ∀ s task, .once (.set s) :: task ∈ V →
    .once (.set s) :: task ∈ visited ∨ (s, task) ∈ front.threads

section

variable {frame : Frame} {rest : Task}

theorem OnTheWay.again (h : OnTheWay before after S (task :: pending) visited (fuel + 1))
    (hm : task ∈ visited) : OnTheWay before after S pending visited fuel where
  inside := (List.forall_mem_cons.1 h.inside).2
  enough := by
    have henough := h.enough
    rw [List.length_cons] at henough
    omega
  leads frame task' hm' next hn := by
    obtain hn | hn := h.leads frame task' hm' next hn
    · exact .inl hn
    · obtain rfl | hn := List.mem_cons.1 hn
      · exact .inl hm
      · exact .inr hn
  incomplete := h.incomplete

theorem OnTheWay.visit (h : OnTheWay before after S ((frame :: rest) :: pending) visited (fuel + 1))
    (hS : LeadTo before after S S) (hm : frame :: rest ∉ visited) :
    OnTheWay before after S (frame.expand before after rest ++ pending)
      ((frame :: rest) :: visited) fuel := by
  obtain ⟨hp, hpending⟩ := List.forall_mem_cons.1 h.inside
  have hp : frame :: rest ∈ S := hp.resolve_right (by simp)
  refine ⟨List.forall_mem_append.2 ⟨hS frame rest hp, hpending⟩, ?_, ?_, ?_⟩
  · have hlt := length_filter_lt hp hm
    have henough := h.enough
    have hle := length_expand_le before after frame rest
    rw [List.length_cons] at henough
    rw [List.length_append]
    omega
  · intro frame' task' hm' next hn
    obtain he | hm' := List.mem_cons.1 hm'
    · cases he
      exact .inr (List.mem_append_left _ hn)
    · obtain hn | hn := h.leads frame' task' hm' next hn
      · exact .inl (List.mem_cons_of_mem _ hn)
      · obtain rfl | hn := List.mem_cons.1 hn
        · exact .inl List.mem_cons_self
        · exact .inr (List.mem_append_right _ hn)
  · exact fun hn => h.incomplete ((List.mem_cons.1 hn).resolve_left (by simp))

end

/-- The expansion goes on until it comes to a complete match, or has been to all tasks that the
pending ones lead to. -/
theorem expand_complete (hS : LeadTo before after S S)
    (h : OnTheWay before after S pending visited fuel) :
    (expand before after fuel pending visited).accepts = true ∨
      ∃ V, Explored before after pending visited (expand before after fuel pending visited) V := by
  fun_induction expand before after fuel pending visited with
  | case1 => exact absurd h.enough (Nat.not_lt_zero _)
  | case2 fuel visited =>
      refine .inr ⟨visited, List.Subset.refl _, List.nil_subset _, h.incomplete, ?_, ?_⟩
      · intro frame task hm next hn
        exact (h.leads frame task hm next hn).resolve_right List.not_mem_nil
      · exact fun _ _ hm => .inl hm
  | case3 => exact .inl rfl
  | case4 fuel frame rest pending visited hm ih =>
      have hm : frame :: rest ∈ visited := List.contains_iff_mem.1 hm
      refine (ih (h.again hm)).imp_right fun ⟨V, hV⟩ =>
        ⟨V, hV.old, ?_, hV.incomplete, hV.closed, hV.waits⟩
      exact List.cons_subset.2 ⟨hV.old hm, hV.new⟩
  | case5 fuel rest pending visited s hm ih =>
      have hm : .once (.set s) :: rest ∉ visited := fun h => hm (List.contains_iff_mem.2 h)
      refine (ih (h.visit hS hm)).imp_right fun ⟨V, hV⟩ => ⟨V, ?_, ?_, hV.incomplete, hV.closed, ?_⟩
      · exact fun _ h => hV.old (List.mem_cons_of_mem _ h)
      · exact List.cons_subset.2 ⟨hV.old List.mem_cons_self, hV.new⟩
      · intro s' task hm'
        obtain hm' | hm' := hV.waits s' task hm'
        · obtain he | hm' := List.mem_cons.1 hm'
          · cases he
            exact .inr List.mem_cons_self
          · exact .inl hm'
        · exact .inr (List.mem_cons_of_mem _ hm')
  | case6 fuel frame rest pending visited hm hframe ih =>
      have hm : frame :: rest ∉ visited := fun h => hm (List.contains_iff_mem.2 h)
      refine (ih (h.visit hS hm)).imp_right fun ⟨V, hV⟩ => ⟨V, ?_, ?_, hV.incomplete, hV.closed, ?_⟩
      · exact fun _ h => hV.old (List.mem_cons_of_mem _ h)
      · refine List.cons_subset.2 ⟨hV.old List.mem_cons_self, fun _ h => ?_⟩
        exact hV.new (List.mem_append_right _ h)
      · intro s' task hm'
        obtain hm' | hm' := hV.waits s' task hm'
        · obtain he | hm' := List.mem_cons.1 hm'
          · cases he
            exact absurd rfl (hframe s')
          · exact .inl hm'
        · exact .inr hm'

section

variable {w rest text : List Char} {tasks : List Task} {offset stop : Nat} {best : Option Nat} {c : Char}

/-- One of the tasks of the front spells the text. -/
def Spells (front : Front) (before : Option Char) (w rest : List Char) : Prop :=
  ∃ task, front.Holds task ∧ task.Spells before w rest

theorem ofTasks_sound (h : (ofTasks before (w ++ rest).head? tasks).Spells before w rest) :
    ∃ task ∈ tasks, task.Spells before w rest := by
  obtain ⟨task, hf, hs⟩ := h
  exact expand_sound (fun _ _ _ => .expand) hf hs

/-- The induction is on how the task is done with. Up to the first character that is asked for, it
stays among the tasks that have been visited. -/
theorem Explored.spells {V : List Task} (h : Explored before (w ++ rest).head? pending [] front V)
    (hm : task ∈ V) (hs : task.Spells before w rest) : front.Spells before w rest := by
  generalize hb : before = before' at hs
  induction hs with
  | done => exact absurd hm h.incomplete
  | expand hn _ ih =>
      subst hb
      exact ih h (h.closed _ _ hm _ hn) rfl
  | char hc hs _ => exact ⟨_, .waits ((h.waits _ _ hm).resolve_left List.not_mem_nil), .char hc hs⟩

/-- The fuel for the expansion of tasks is enough for it. -/
theorem exists_onTheWay (before after : Option Char) (tasks : List Task) :
    ∃ S, LeadTo before after S S ∧
      OnTheWay before after S tasks [] (tasks.foldl (fun n t => n + 2 * t.places + 1) 1) := by
  obtain ⟨S, hS, htasks, hlen⟩ := @tasks_bounded before after tasks
  have hfuel := lt_fuel tasks
  refine ⟨S, hS, htasks, ?_, fun _ _ hm => absurd hm List.not_mem_nil, List.not_mem_nil⟩
  have hle := List.length_filter_le (fun t => decide (t ∉ ([] : List Task))) S
  omega

theorem ofTasks_complete (hm : task ∈ tasks) (h : task.Spells before w rest) :
    (ofTasks before (w ++ rest).head? tasks).accepts = true ∨
      (ofTasks before (w ++ rest).head? tasks).Spells before w rest := by
  obtain ⟨S, hS, hway⟩ := exists_onTheWay before (w ++ rest).head? tasks
  exact (expand_complete hS hway).imp_right fun ⟨V, hV⟩ => hV.spells (hV.new hm) h

theorem mem_step : task ∈ front.step c ↔ ∃ s, (s, task) ∈ front.threads ∧ s.contains c = true := by
  rw [step, List.mem_filterMap]
  constructor
  · rintro ⟨⟨s, t⟩, hm, he⟩
    dsimp only at he
    split at he
    · next hc =>
        cases he
        exact ⟨s, hm, hc⟩
    · cases he
  · rintro ⟨s, hm, hc⟩
    exact ⟨(s, task), hm, if_pos hc⟩

theorem best_sound (h : (if front.accepts = true then some offset else best) = some stop) :
    best = some stop ∨ ∃ w rest, text = w ++ rest ∧ stop = offset + byteLength w ∧
      front.Spells before w rest := by
  split at h
  · next ha =>
      cases h
      exact .inr ⟨[], text, rfl, rfl, [], .complete ha, .done⟩
  · exact .inl h

/-- A match that was found before is given up only for one that the front comes to. -/
theorem run_sound (before : Option Char) (h : front.run text offset best = some stop) :
    best = some stop ∨ ∃ w rest, text = w ++ rest ∧ stop = offset + byteLength w ∧
      front.Spells before w rest := by
  induction text generalizing front offset best before with
  | nil =>
      rw [run] at h
      exact best_sound h
  | cons c text ih =>
      rw [run] at h
      split at h
      · exact best_sound h
      · next tasks _ =>
          obtain hb | ⟨w, rest, rfl, rfl, hs⟩ := ih (some c) h
          · exact best_sound hb
          · obtain ⟨task, hm, hs⟩ := ofTasks_sound hs
            obtain ⟨s, hm, hc⟩ := mem_step.1 hm
            refine .inr ⟨c :: w, rest, rfl, by rw [byteLength, Nat.add_assoc], ?_⟩
            exact ⟨_, .waits hm, .char hc hs⟩

theorem run_isSome (h : front.accepts = true ∨ best.isSome) : (front.run text offset best).isSome := by
  have hbest : (if front.accepts = true then some offset else best).isSome := by
    split
    · rfl
    · next ha => exact h.resolve_left ha
  induction text generalizing front offset best with
  | nil =>
      rw [run]
      exact hbest
  | cons c text ih =>
      rw [run]
      split
      · exact hbest
      · refine ih (.inr hbest) ?_
        split
        · rfl
        · exact hbest

/-- The induction is on the text that is spelled: its first character leads to a task that spells the
others. -/
theorem run_complete (h : front.Spells before w rest) :
    (front.run (w ++ rest) offset best).isSome := by
  induction w generalizing front offset best before with
  | nil =>
      obtain ⟨task, hf, hs⟩ := h
      cases hf with
      | complete ha => exact run_isSome (.inl ha)
      | waits =>
          obtain ⟨c, w, hw, -⟩ := Task.Spells.set_iff.1 hs
          cases hw
  | cons c w ih =>
      obtain ⟨task, hf, hs⟩ := h
      cases hf with
      | complete => cases hs
      | waits hm =>
          obtain ⟨c, w, hw, hc, hs⟩ := Task.Spells.set_iff.1 hs
          cases hw
          have hstep := mem_step.2 ⟨_, hm, hc⟩
          rw [List.cons_append, run]
          split
          · next hnil =>
              rw [hnil] at hstep
              cases hstep
          · obtain ha | hs := ofTasks_complete hstep hs
            · exact run_isSome (.inl ha)
            · exact ih hs

end

end Front

namespace Regex

variable {r : Regex} {before : Option Char} {text : List Char} {offset stop : Nat}

theorem matchAt_sound (h : r.matchAt before text offset = some stop) : ∃ w rest, text = w ++ rest ∧
    stop = offset + byteLength w ∧ Task.Spells before [.once r] w rest := by
  obtain hb | ⟨w, rest, rfl, rfl, hs⟩ := Front.run_sound before h
  · cases hb
  · obtain ⟨task, hm, hs⟩ := Front.ofTasks_sound hs
    obtain rfl := List.mem_singleton.1 hm
    exact ⟨w, rest, rfl, rfl, hs⟩

/-- A match is found where there is one. -/
theorem matchAt_isSome_iff : (r.matchAt before text offset).isSome ↔
    ∃ w rest, text = w ++ rest ∧ Task.Spells before [.once r] w rest := by
  constructor
  · intro h
    obtain ⟨stop, hstop⟩ := Option.isSome_iff_exists.1 h
    obtain ⟨w, rest, he, -, hs⟩ := matchAt_sound hstop
    exact ⟨w, rest, he, hs⟩
  · rintro ⟨w, rest, rfl, hs⟩
    obtain ha | hs := Front.ofTasks_complete (List.mem_singleton_self _) hs
    · exact Front.run_isSome (.inl ha)
    · exact Front.run_complete hs

end Regex

end EarleyTree.Pattern

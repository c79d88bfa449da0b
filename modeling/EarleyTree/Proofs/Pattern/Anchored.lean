import EarleyTree.Proofs.Pattern.Fronts

/-!
An expression behind an anchor. At the start of a text it matches just what it matches without the
anchor, for the tasks of the anchor are met once and never come back.
-/
namespace EarleyTree.Pattern

variable {before after : Option Char} {pending visited extra S : List Task} {fuel fuel' : Nat}
  {frame f : Frame} {task rest next : Task} {r body : Regex}

namespace Front

/-- With fuel for all that is to be expanded, further fuel makes no difference. -/
theorem expand_fuel (hS : LeadTo before after S S) (h : OnTheWay before after S pending visited fuel)
    (hle : fuel ≤ fuel') :
    expand before after fuel' pending visited = expand before after fuel pending visited := by
  induction fuel generalizing fuel' pending visited with
  | zero => exact absurd h.enough (Nat.not_lt_zero _)
  | succ fuel ih =>
      obtain ⟨fuel', rfl⟩ := Nat.exists_eq_add_of_le' (Nat.le_trans (Nat.le_add_left 1 fuel) hle)
      have hle' := Nat.le_of_succ_le_succ hle
      rcases pending with - | ⟨- | ⟨frame, rest⟩, pending⟩
      · rfl
      · rfl
      · by_cases hm : frame :: rest ∈ visited
        · have hv := List.contains_iff_mem.2 hm
          rw [expand.eq_def, expand.eq_def]
          dsimp only
          rw [if_pos hv, if_pos hv]
          exact ih (h.again hm) hle'
        · have hv := mt List.contains_iff_mem.1 hm
          have hvisit := h.visit hS hm
          rw [expand.eq_def, expand.eq_def]
          dsimp only
          rw [if_neg hv, if_neg hv]
          split
          · have he := ih hvisit hle'
            rw [Frame.expand, List.nil_append] at he
            rw [he]
          · exact ih hvisit hle'

/-- Tasks that nothing pending leads to may have been visited before. -/
theorem expand_visited {Q : Task → Prop}
    (hQ : ∀ frame task, Q (frame :: task) → ∀ next ∈ frame.expand before after task, Q next)
    (hextra : ∀ task ∈ extra, ¬Q task) (hpending : ∀ task ∈ pending, Q task) :
    expand before after fuel pending (visited ++ extra) = expand before after fuel pending visited := by
  have hcontains {visited : List Task} {task : Task} (hq : Q task) :
      (visited ++ extra).contains task = true ↔ visited.contains task = true := by
    rw [List.contains_iff_mem, List.contains_iff_mem, List.mem_append,
      or_iff_left fun hm => hextra task hm hq]
  fun_induction expand before after fuel pending visited with
  | case1 | case2 | case3 => rfl
  | case4 fuel frame rest pending visited hv ih =>
      obtain ⟨hq, hpending⟩ := List.forall_mem_cons.1 hpending
      rw [expand.eq_def]
      exact (if_pos ((hcontains hq).2 hv)).trans (ih hpending)
  | case5 fuel rest pending visited s hv ih =>
      obtain ⟨hq, hpending⟩ := List.forall_mem_cons.1 hpending
      have ih := ih hpending
      rw [List.cons_append] at ih
      rw [expand.eq_def]
      refine (if_neg (mt (hcontains hq).1 hv)).trans ?_
      dsimp only
      rw [ih]
  | case6 fuel frame rest pending visited hv hframe ih =>
      obtain ⟨hq, hpending⟩ := List.forall_mem_cons.1 hpending
      have ih := ih (List.forall_mem_append.2 ⟨hQ frame rest hq, hpending⟩)
      rw [List.cons_append] at ih
      rw [expand.eq_def]
      refine (if_neg (mt (hcontains hq).1 hv)).trans ?_
      dsimp only
      split
      · exact (hframe _ rfl).elim
      · exact ih

end Front

/-- A repetition gives way to nothing, or to one round and what is left of it. -/
theorem Frame.expand_rep {min : Nat} {max : Option Nat} {greedy : Bool}
    (hn : next ∈ (Frame.once (.rep min max greedy r)).expand before after []) :
    next = [] ∨ ∃ f, next = [.once r, f] ∧ r.places < (Regex.rep min max greedy r).places ∧
      f.places < (Regex.rep min max greedy r).places := by
  have hround {n : Nat} : r.places < (n + 1) * (r.places + 1) + 1 := by
    rw [Nat.succ_mul]
    omega
  have hagain {n : Nat} : (Frame.again greedy r).places < (n + 1) * (r.places + 1) + 1 := by
    rw [Frame.places, Nat.succ_mul]
    omega
  have hfewer {m n : Nat} (h : m < n) : m * (r.places + 1) + 1 < n * (r.places + 1) + 1 :=
    Nat.succ_lt_succ (Nat.mul_lt_mul_of_pos_right h (Nat.succ_pos _))
  rcases min with - | - | min
  · rcases max with - | - | max
    · obtain rfl | rfl := (@Regex.mem_expand_again r before [] after greedy next).1 hn
      · exact .inr ⟨_, rfl, hround, hagain⟩
      · exact .inl rfl
    · exact .inl (List.mem_singleton.1 hn)
    · have hmore : (Frame.once (.rep 0 (some max) greedy r)).places < _ :=
        hfewer (Nat.add_lt_add_left (Nat.lt_succ_self max) 0)
      rw [Regex.places, Nat.zero_add]
      rw [Nat.zero_add] at hmore
      cases greedy with
      | false => exact (List.mem_pair.1 hn).imp_right fun he => ⟨_, he, hround, hmore⟩
      | true => exact (List.mem_pair.1 hn).symm.imp_right fun he => ⟨_, he, hround, hmore⟩
  · cases max with
    | none => exact .inr ⟨_, List.mem_singleton.1 hn, hround, hagain⟩
    | some max =>
        rw [Regex.places, Nat.zero_add, Nat.add_comm 1 max]
        exact .inr ⟨_, List.mem_singleton.1 hn, hround, hfewer (by dsimp only; omega)⟩
  · cases max with
    | none => exact .inr ⟨_, List.mem_singleton.1 hn, hround, hfewer (Nat.lt_succ_self _)⟩
    | some max =>
        rw [Regex.places, Nat.add_right_comm _ 1 max]
        exact .inr ⟨_, List.mem_singleton.1 hn, hround, hfewer (by dsimp only; omega)⟩

/-- What comes in place of an expression is smaller. -/
theorem Frame.places_lt (hn : next ∈ (Frame.once r).expand before after []) :
    ∀ f ∈ next, f.places < r.places := by
  cases r with
  | empty =>
      obtain rfl := List.mem_singleton.1 hn
      exact fun f hf => absurd hf List.not_mem_nil
  | set s => cases hn
  | test b =>
      rw [Frame.expand] at hn
      split at hn
      · obtain rfl := List.mem_singleton.1 hn
        exact fun f hf => absurd hf List.not_mem_nil
      · cases hn
  | cat a b =>
      obtain rfl := List.mem_singleton.1 hn
      rw [Regex.places]
      refine List.forall_mem_cons.2 ⟨show a.places < _ by omega, ?_⟩
      exact List.forall_mem_singleton.2 (show b.places < _ by omega)
  | alt a b =>
      rw [Regex.places]
      obtain rfl | rfl := List.mem_pair.1 hn
      · exact List.forall_mem_singleton.2 (show a.places < _ by omega)
      · exact List.forall_mem_singleton.2 (show b.places < _ by omega)
  | rep min max greedy r =>
      obtain rfl | ⟨f, rfl, hr, hf⟩ := Frame.expand_rep hn
      · exact fun f hf => absurd hf List.not_mem_nil
      · exact List.forall_mem_cons.2 ⟨hr, List.forall_mem_singleton.2 hf⟩

theorem Frame.places_le (hn : next ∈ frame.expand before after []) :
    ∀ f ∈ next, f.places ≤ frame.places := by
  cases frame with
  | once r => exact fun f hf => Nat.le_of_lt (Frame.places_lt hn f hf)
  | again greedy r =>
      obtain rfl | rfl := Regex.mem_expand_again.1 hn
      · simp [Frame.places]
      · exact fun f hf => absurd hf List.not_mem_nil

/-- The frames below are left as they are. -/
theorem Frame.places_of_mem_expand {n : Nat} (hn : next ∈ frame.expand before after rest)
    (hframe : frame.places < n) (hrest : ∀ f ∈ rest, f.places < n) : ∀ f ∈ next, f.places < n := by
  have happend := Frame.expand_append before after frame [] rest
  rw [List.nil_append] at happend
  rw [happend] at hn
  obtain ⟨upper, hu, rfl⟩ := List.mem_map.1 hn
  exact List.forall_mem_append.2 ⟨fun f hf => (Frame.places_le hu f hf).trans_lt hframe, hrest⟩

namespace Regex

/-- At the start of a text the anchor makes no difference. The tasks of the anchor hold the body itself,
which nothing that the body leads to does. -/
theorem matchAt_anchor (body : Regex) (text : List Char) (offset : Nat) :
    (cat (test .textStart) body).matchAt none text offset = body.matchAt none text offset := by
  obtain ⟨S, hS, hway⟩ := Front.exists_onTheWay none text.head? [[.once body]]
  let Q (task : Task) : Prop := task = [.once body] ∨ ∀ f ∈ task, f.places < body.places
  have hQ : ∀ frame task, Q (frame :: task) →
      ∀ next ∈ frame.expand none text.head? task, Q next := by
    rintro frame task (he | hlt) next hn
    · obtain ⟨rfl, rfl⟩ := List.cons.inj he
      exact .inr (Frame.places_lt hn)
    · obtain ⟨hframe, htask⟩ := List.forall_mem_cons.1 hlt
      exact .inr (Frame.places_of_mem_expand hn hframe htask)
  have hextra : ∀ task ∈ [[.once (test .textStart), .once body],
      [.once (cat (test .textStart) body)]], ¬Q task := by
    refine List.forall_mem_cons.2 ⟨?_, List.forall_mem_singleton.2 ?_⟩
    · rintro (he | hlt)
      · cases he
      · exact Nat.lt_irrefl _ (hlt (.once body) (by simp))
    · rintro (he | hlt)
      · have hplaces := congrArg (List.map Frame.places) he
        simp only [List.map_cons, List.map_nil, List.cons.injEq, Frame.places, places] at hplaces
        omega
      · have hlt : _ < body.places := hlt _ (List.mem_singleton_self _)
        rw [Frame.places, places] at hlt
        omega
  have hfront : Front.ofTasks none text.head? [[.once (cat (test .textStart) body)]] =
      Front.ofTasks none text.head? [[.once body]] := by
    -- Two steps take the anchor away; what they leave as visited is what nothing comes back to.
    have hsteps (n : Nat) : Front.expand none text.head? (n + 2)
        [[.once (cat (test .textStart) body)]] [] = Front.expand none text.head? n [[.once body]]
          ([] ++ [[.once (test .textStart), .once body], [.once (cat (test .textStart) body)]]) := rfl
    obtain ⟨n, hn, hle⟩ : ∃ n, ([[.once (cat (test .textStart) body)]] : List Task).foldl
        (fun n t => n + 2 * t.places + 1) 1 = n + 2 ∧
          ([[.once body]] : List Task).foldl (fun n t => n + 2 * t.places + 1) 1 ≤ n := by
      simp only [List.foldl_cons, List.foldl_nil, Task.places, Frame.places, places]
      exact ⟨2 * body.places + 6, by omega, by omega⟩
    rw [Front.ofTasks, Front.ofTasks, hn, hsteps,
      Front.expand_visited hQ hextra (List.forall_mem_singleton.2 (.inl rfl)),
      Front.expand_fuel hS hway hle]
  rw [matchAt, matchAt, hfront]

end Regex

end EarleyTree.Pattern

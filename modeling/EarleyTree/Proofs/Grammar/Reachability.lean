import EarleyTree.Proofs.Grammar.Ordering

/-!
Which rules nothing leads to. The search from the start rule and the extras comes to an end in whatever
order it follows the names, cycles or not, and has then met just those that rules lead to.
-/
namespace EarleyTree.Grammar

/-- The names that the start rule or an extra leads to. -/
inductive Reached (g : Grammar) (start : String) : String → Prop
  | start : Reached g start start
  | extra {r : Rule} {name : String} (hr : r ∈ g.extras.getD []) (h : r.Cites name) :
      Reached g start name
  | rule {owner : String} {r : Rule} {name : String} (howner : Reached g start owner)
      (hr : g.rules.find? owner = some r) (h : r.Cites name) : Reached g start name

/-- What the rule of that name refers to. An external has none. -/
def bodyReferences (g : Grammar) (name : String) : List String :=
  ((g.rules.find? name).map Rule.references).getD []

/-- The names that are still to be followed, and those that have been. -/
structure Search where
  pending : List String
  reached : List String

variable {g : Grammar} {start : String}

theorem mem_bodyReferences {owner name : String} : name ∈ g.bodyReferences owner ↔
    ∃ r, g.rules.find? owner = some r ∧ r.Cites name := by
  rw [bodyReferences]
  cases g.rules.find? owner with
  | none => simp
  | some r => simp [Rule.mem_references_iff]

theorem mem_roots {name : String} : name ∈ g.roots start ↔
    name = start ∨ ∃ r ∈ g.extras.getD [], r.Cites name := by
  simp [roots, Rule.mem_references_iff]

namespace Search

/-- Any of the pending names is taken. If it has been followed it is dropped, or else what it refers to
is added, in any place. -/
inductive Step (g : Grammar) : Search → Search → Prop
  | drop {before after reached : List String} {name : String} (h : name ∈ reached) :
      Step g ⟨before ++ name :: after, reached⟩ ⟨before ++ after, reached⟩
  | follow {before after pending reached : List String} {name : String} (h : name ∉ reached)
      (hp : pending.Perm (g.bodyReferences name ++ (before ++ after))) :
      Step g ⟨before ++ name :: after, reached⟩ ⟨pending, name :: reached⟩

inductive Runs (g : Grammar) : Nat → Search → Search → Prop
  | refl (s : Search) : Runs g 0 s s
  | step {n : Nat} {s t u : Search} (h : Step g s t) (hr : Runs g n t u) : Runs g (n + 1) s u

/-- How many references stand in the rules whose names have not been followed. -/
def unread (reached : List String) (es : List (String × Rule)) : Nat :=
  ((es.filter fun e => !reached.contains e.1).flatMap fun e => e.2.references).length

def cost (g : Grammar) (s : Search) : Nat := s.pending.length + unread s.reached g.rules.entries

variable {s t : Search}

theorem unread_cons (reached : List String) (e : String × Rule) (es : List (String × Rule)) :
    unread reached (e :: es) =
      (if e.1 ∈ reached then 0 else e.2.references.length) + unread reached es := by
  by_cases h : e.1 ∈ reached <;> simp [unread, h]

theorem unread_of_notMem {name : String} {reached : List String} {es : List (String × Rule)}
    (h : name ∉ es.map Prod.fst) : unread (name :: reached) es = unread reached es := by
  induction es with
  | nil => rfl
  | cons e es ih =>
      rw [List.map_cons, List.mem_cons, not_or] at h
      have hne : e.1 ≠ name := Ne.symm h.1
      rw [unread_cons, unread_cons, ih h.2]
      simp only [List.mem_cons, hne, false_or]

/-- The rule of a name is read when the name is followed, and only then. -/
theorem unread_follow {name : String} {reached : List String} {es : List (String × Rule)}
    (hes : (es.map Prod.fst).Nodup) (h : name ∉ reached) :
    (((es.lookup name).map Rule.references).getD []).length + unread (name :: reached) es =
      unread reached es := by
  induction es with
  | nil => rfl
  | cons e es ih =>
      obtain ⟨hfresh, hes⟩ := List.nodup_cons.1 hes
      rw [lookup_cons_eq, unread_cons, unread_cons]
      split
      · next he =>
          subst he
          rw [unread_of_notMem hfresh, if_pos List.mem_cons_self, if_neg h, Option.map_some,
            Option.getD_some, Nat.zero_add]
      · next he =>
          have hne : e.1 ≠ name := Ne.symm he
          rw [← ih hes, Nat.add_left_comm]
          simp only [List.mem_cons, hne, false_or]

theorem Step.cost_lt (h : Step g s t) : t.cost g < s.cost g := by
  cases h with
  | drop =>
      simp only [cost, List.length_append, List.length_cons]
      omega
  | @follow before after pending reached name hname hp =>
      have hlength := hp.length_eq
      have hunread := unread_follow g.rules.nodup hname
      simp only [cost, bodyReferences, RuleTable.find?, List.length_append, List.length_cons]
        at hlength hunread ⊢
      omega

theorem step_cons_drop {name : String} {pending reached : List String} (h : name ∈ reached) :
    Step g ⟨name :: pending, reached⟩ ⟨pending, reached⟩ :=
  show Step g ⟨[] ++ name :: pending, reached⟩ ⟨[] ++ pending, reached⟩ from .drop h

theorem step_cons_follow {name : String} {pending reached : List String} (h : name ∉ reached) :
    Step g ⟨name :: pending, reached⟩ ⟨g.bodyReferences name ++ pending, name :: reached⟩ :=
  show Step g ⟨[] ++ name :: pending, reached⟩ _ from .follow h (.refl _)

theorem exists_step (h : s.pending ≠ []) : ∃ t, Step g s t := by
  obtain ⟨_ | ⟨name, pending⟩, reached⟩ := s
  · exact absurd rfl h
  · by_cases hname : name ∈ reached
    · exact ⟨_, step_cons_drop hname⟩
    · exact ⟨_, step_cons_follow hname⟩

/-- All that has been met is reached, and all that what was followed leads to has been met. -/
structure Explores (g : Grammar) (start : String) (s : Search) : Prop where
  sound : ∀ name, name ∈ s.pending ∨ name ∈ s.reached → g.Reached start name
  roots : ∀ name ∈ g.roots start, name ∈ s.pending ∨ name ∈ s.reached
  closed : ∀ owner ∈ s.reached, ∀ name ∈ g.bodyReferences owner,
    name ∈ s.pending ∨ name ∈ s.reached

theorem explores_roots : Explores g start ⟨g.roots start, []⟩ where
  sound name h := by
    obtain rfl | ⟨r, hr, hc⟩ := mem_roots.1 (h.resolve_right List.not_mem_nil)
    · exact .start
    · exact .extra hr hc
  roots _ h := .inl h
  closed _ h := absurd h List.not_mem_nil

theorem Explores.step (h : Explores g start s) (hst : Step g s t) : Explores g start t := by
  cases hst with
  | @drop before after reached name hname =>
      have hmet (n : String) : n ∈ before ++ after ∨ n ∈ reached ↔
          n ∈ before ++ name :: after ∨ n ∈ reached := by
        rw [List.mem_append, List.mem_append, List.mem_cons]
        constructor
        · tauto
        · rintro ((hn | rfl | hn) | hn)
          · exact .inl (.inl hn)
          · exact .inr hname
          · exact .inl (.inr hn)
          · exact .inr hn
      exact ⟨fun n hn => h.sound n ((hmet n).1 hn), fun n hn => (hmet n).2 (h.roots n hn),
        fun owner ho n hn => (hmet n).2 (h.closed owner ho n hn)⟩
  | @follow before after pending reached name hname hp =>
      have hmet (n : String) : n ∈ pending ∨ n ∈ name :: reached ↔ n ∈ g.bodyReferences name ∨
          n ∈ before ++ name :: after ∨ n ∈ reached := by
        rw [hp.mem_iff, List.mem_append, List.mem_append, List.mem_append, List.mem_cons,
          List.mem_cons]
        tauto
      refine ⟨fun n hn => ?_, fun n hn => (hmet n).2 (.inr (h.roots n hn)), ?_⟩
      · obtain hn | hn := (hmet n).1 hn
        · obtain ⟨r, hr, hc⟩ := mem_bodyReferences.1 hn
          exact .rule (h.sound name (.inl (List.mem_append_right _ List.mem_cons_self))) hr hc
        · exact h.sound n hn
      · intro owner ho n hn
        obtain rfl | ho := List.mem_cons.1 ho
        · exact (hmet n).2 (.inl hn)
        · exact (hmet n).2 (.inr (h.closed owner ho n hn))

/-- When nothing is pending, the names that were followed are those that are reached. -/
theorem Explores.mem_reached_iff (h : Explores g start s) (hs : s.pending = []) (name : String) :
    name ∈ s.reached ↔ g.Reached start name := by
  have hmet {n : String} (hn : n ∈ s.pending ∨ n ∈ s.reached) : n ∈ s.reached :=
    hn.resolve_left (hs ▸ List.not_mem_nil)
  refine ⟨fun hn => h.sound name (.inr hn), fun hr => ?_⟩
  induction hr with
  | start => exact hmet (h.roots _ (mem_roots.2 (.inl rfl)))
  | extra hr hc => exact hmet (h.roots _ (mem_roots.2 (.inr ⟨_, hr, hc⟩)))
  | rule _ hr hc ih => exact hmet (h.closed _ ih _ (mem_bodyReferences.2 ⟨_, hr, hc⟩))

namespace Runs

variable {n : Nat}

theorem cost_le (h : Runs g n s t) : n + t.cost g ≤ s.cost g := by
  induction h with
  | refl s => exact Nat.le_of_eq (Nat.zero_add _)
  | step hst _ ih =>
      have hlt := hst.cost_lt
      omega

theorem explores (h : Runs g n s t) (hs : Explores g start s) : Explores g start t := by
  induction h with
  | refl => exact hs
  | step hst _ ih => exact ih (hs.step hst)

end Runs

/-- The search that takes the first of the pending names each time. With as much fuel as the search
costs it is not cut short. -/
theorem runs_reachFrom (fuel : Nat) (pending reached : List String)
    (h : cost g ⟨pending, reached⟩ ≤ fuel) :
    ∃ n, Runs g n ⟨pending, reached⟩ ⟨[], g.reachFrom fuel pending reached⟩ := by
  induction fuel generalizing pending reached with
  | zero =>
      have hcost : pending.length + unread reached g.rules.entries ≤ 0 := h
      obtain rfl : pending = [] := List.length_eq_zero_iff.1 (by omega)
      exact ⟨0, .refl _⟩
  | succ fuel ih =>
      rcases pending with _ | ⟨name, pending⟩
      · exact ⟨0, .refl _⟩
      · rw [reachFrom]
        split
        · next hname =>
            have hstep : Step g ⟨name :: pending, reached⟩ ⟨pending, reached⟩ :=
              step_cons_drop (List.contains_iff_mem.1 hname)
            have hlt := hstep.cost_lt
            obtain ⟨n, hruns⟩ := ih pending reached (by omega)
            exact ⟨n + 1, .step hstep hruns⟩
        · next hname =>
            have hstep : Step g ⟨name :: pending, reached⟩
                ⟨g.bodyReferences name ++ pending, name :: reached⟩ :=
              step_cons_follow fun hn => hname (List.contains_iff_mem.2 hn)
            have hlt := hstep.cost_lt
            obtain ⟨n, hruns⟩ := ih (g.bodyReferences name ++ pending) (name :: reached) (by omega)
            exact ⟨n + 1, .step hstep hruns⟩

end Search

/-- How many names a search may have to take. -/
def searchBound (g : Grammar) (start : String) : Nat :=
  (g.roots start).length + (g.rules.entries.flatMap fun e => e.2.references).length

theorem cost_roots : Search.cost g ⟨g.roots start, []⟩ = g.searchBound start := by
  simp [Search.cost, Search.unread, searchBound]

variable (g start) in
theorem runs_reachable : ∃ n, Search.Runs g n ⟨g.roots start, []⟩ ⟨[], g.reachable start⟩ :=
  Search.runs_reachFrom _ _ _ (by rw [cost_roots]; exact Nat.le_succ _)

theorem mem_reachable_iff {name : String} : name ∈ g.reachable start ↔ g.Reached start name := by
  obtain ⟨n, hruns⟩ := runs_reachable g start
  exact (hruns.explores Search.explores_roots).mem_reached_iff rfl name

theorem mem_unreachable_iff {name : String} : name ∈ g.unreachable start ↔
    name ∈ g.rules.names ∧ name ∉ g.inlined.getD [] ∧ ¬g.Reached start name := by
  rw [unreachable, List.mem_filter, (g.enumerates_orderedNames).mem_iff, ← mem_reachable_iff]
  simp [and_comm]

theorem validate_unreachable {report : ValidationReport} (h : g.validate = .ok report) :
    ∃ start, g.startRule? = some start ∧ report.unreachable = g.unreachable start := by
  obtain ⟨_, -, h⟩ := except_bind_eq_ok h
  obtain ⟨_, -, h⟩ := except_bind_eq_ok h
  split at h
  · cases h
  · next start hstart =>
      cases h
      exact ⟨start, hstart, rfl⟩

/-- The report lists, in the order of the rules, just those that are not inlined and that nothing leads
to. No search takes more names than there are references to follow, and when it has no more to take it
has met just what is reached. -/
theorem reports_unreachable {report : ValidationReport} (h : g.validate = .ok report) :
    ∃ start, g.startRule? = some start ∧
      report.unreachable.Sublist g.orderedNames ∧ report.unreachable.Nodup ∧
      (∀ name, name ∈ report.unreachable ↔
        name ∈ g.rules.names ∧ name ∉ g.inlined.getD [] ∧ ¬g.Reached start name) ∧
      (∃ n, Search.Runs g n ⟨g.roots start, []⟩ ⟨[], g.reachable start⟩) ∧
      ∀ n s, Search.Runs g n ⟨g.roots start, []⟩ s → n ≤ g.searchBound start ∧
        ((∃ t, Search.Step g s t) ∨
          s.pending = [] ∧ ∀ name, name ∈ s.reached ↔ g.Reached start name) := by
  obtain ⟨start, hstart, hreport⟩ := validate_unreachable h
  refine ⟨start, hstart, ?_, ?_, fun name => ?_, runs_reachable g start, fun n s hruns => ⟨?_, ?_⟩⟩
  · rw [hreport]
    exact List.filter_sublist
  · rw [hreport]
    exact g.nodup_orderedNames.filter _
  · rw [hreport, mem_unreachable_iff]
  · have hcost := hruns.cost_le
    rw [cost_roots] at hcost
    omega
  · by_cases hs : s.pending = []
    · exact .inr ⟨hs, (hruns.explores Search.explores_roots).mem_reached_iff hs⟩
    · exact .inl (Search.exists_step hs)

/-- Two pairs of rules lead to one another, and one pair is not reached. An extra alone leads to a rule,
and an external has no rule. -/
def circular : Grammar :=
  { name := "circular"
    ruleOrder := ["list", "lost"]
    rules := .ofList [("list", .oneOf [.ref "item", .ref "layout"]),
      ("item", .seq [.literal "(", .ref "list", .literal ")"]), ("note", .regex "#.*"),
      ("lost", .optional (.ref "stray")), ("stray", .seq [.ref "item", .ref "lost"]),
      ("part", .ref "stray")]
    externals := some [.ref "layout"]
    extras := some [.regex "\\s", .ref "note"]
    inlined := some ["part"] }

theorem reports_unreachable_circular :
    circular.validate = .ok ⟨["lost", "stray"], [], []⟩ ∧
    (∀ name, name ∈ ["lost", "stray"] ↔ name ∈ circular.rules.names ∧
      name ∉ circular.inlined.getD [] ∧ ¬circular.Reached "list" name) ∧
    ∃ n, Search.Runs circular n ⟨["list", "note"], []⟩ ⟨[], circular.reachable "list"⟩ := by
  have hvalid : circular.validate = .ok ⟨["lost", "stray"], [], []⟩ := by decide +kernel
  obtain ⟨start, hstart, -, -, hreport, hruns, -⟩ := reports_unreachable hvalid
  obtain rfl : "list" = start := by
    have hfirst : circular.startRule? = some "list" := by decide +kernel
    exact Option.some.inj (hfirst.symm.trans hstart)
  exact ⟨hvalid, hreport, hruns⟩

end EarleyTree.Grammar

import EarleyTree.Proofs.Language.Integrity
import EarleyTree.Proofs.Language.Resolution
import Mathlib.Data.List.Basic
import Mathlib.Data.List.Induction

/-!
The order of the rules: which list of their names the recorded order stands for, which of them a text
is parsed from, and what order comes of rules that are defined one after the other.
-/
namespace EarleyTree

namespace Rule

/-- The rule stands somewhere in the other one, or it is that one. -/
inductive Within : Rule → Rule → Prop
  | refl (r : Rule) : Within r r
  | content {r outer inner : Rule} (hc : outer.content = some inner) (h : Within r inner) :
      Within r outer
  | member {r outer inner : Rule} (hm : inner ∈ outer.members) (h : Within r inner) : Within r outer

/-- Somewhere in the rule stands a reference to the name. -/
def Cites (r : Rule) (name : String) : Prop :=
  ∃ s : Rule, s.Within r ∧ s.kind = .symbol ∧ s.name = some name

variable {r s : Rule} {name : String}

theorem walk_eq (r : Rule) : r.walk = r :: (walkContent r.content ++ walkMembers r.members) := by
  obtain ⟨⟩ := r
  rfl

mutual

theorem within_of_mem_walk : (r : Rule) → s ∈ r.walk → s.Within r
  | ⟨kind, value, ref, content, members, named, flags, context⟩ => by
    intro h
    rw [walk_eq] at h
    obtain rfl | h := List.mem_cons.1 h
    · exact .refl _
    obtain h | h := List.mem_append.1 h
    · obtain ⟨inner, hc, h⟩ := within_of_mem_walkContent content h
      exact .content hc h
    · obtain ⟨inner, hm, h⟩ := within_of_mem_walkMembers members h
      exact .member hm h

theorem within_of_mem_walkContent : (content : Option Rule) → s ∈ walkContent content →
    ∃ inner, content = some inner ∧ s.Within inner
  | none => fun h => absurd h List.not_mem_nil
  | some r => fun h => ⟨r, rfl, within_of_mem_walk r h⟩

theorem within_of_mem_walkMembers : (members : List Rule) → s ∈ walkMembers members →
    ∃ inner ∈ members, s.Within inner
  | [] => fun h => absurd h List.not_mem_nil
  | r :: rs => by
    intro h
    obtain h | h := List.mem_append.1 h
    · exact ⟨r, List.mem_cons_self, within_of_mem_walk r h⟩
    · obtain ⟨inner, hm, h⟩ := within_of_mem_walkMembers rs h
      exact ⟨inner, List.mem_cons_of_mem r hm, h⟩

end

theorem mem_walkMembers {rs : List Rule} (hr : r ∈ rs) (h : s ∈ r.walk) : s ∈ walkMembers rs := by
  induction rs with
  | nil => exact absurd hr List.not_mem_nil
  | cons t rs ih =>
      obtain rfl | hr := List.mem_cons.1 hr
      · exact List.mem_append_left _ h
      · exact List.mem_append_right _ (ih hr)

theorem mem_walk_iff : s ∈ r.walk ↔ s.Within r := by
  refine ⟨within_of_mem_walk r, fun h => ?_⟩
  induction h with
  | refl => exact s.mem_walk
  | content hc _ ih =>
      rw [walk_eq, hc]
      exact List.mem_cons_of_mem _ (List.mem_append_left _ ih)
  | member hm _ ih =>
      rw [walk_eq]
      exact List.mem_cons_of_mem _ (List.mem_append_right _ (mem_walkMembers hm ih))

theorem mem_references_iff : name ∈ r.references ↔ r.Cites name := by
  rw [references, List.mem_filterMap, Cites]
  simp only [mem_walk_iff, symbolName?, isSymbol, beq_iff_eq, Option.ite_none_right_eq_some]

end Rule

theorem pairwise_insertName {name : String} {ns : List String} (h : ns.Pairwise (· ≤ ·)) :
    (insertName name ns).Pairwise (· ≤ ·) := by
  induction ns with
  | nil => exact List.pairwise_singleton _ _
  | cons n ns ih =>
      obtain ⟨hn, hns⟩ := List.pairwise_cons.1 h
      rw [insertName]
      split
      · next hle =>
          refine List.pairwise_cons.2 ⟨fun m hm => ?_, h⟩
          obtain rfl | hm := List.mem_cons.1 hm
          · exact hle
          · exact String.le_trans hle (hn m hm)
      · next hlt =>
          refine List.pairwise_cons.2 ⟨fun m hm => ?_, ih hns⟩
          obtain rfl | hm := List.mem_cons.1 ((insertName_perm name ns).mem_iff.1 hm)
          · exact (String.le_total m n).resolve_left hlt
          · exact hn m hm

theorem pairwise_sortNames (ns : List String) : (sortNames ns).Pairwise (· ≤ ·) := by
  induction ns with
  | nil => exact .nil
  | cons n ns ih => exact pairwise_insertName ih

/-- The names stand in the order in which the record first has them. -/
def FirstOrder (record names : List String) : Prop :=
  names.Pairwise fun a b => record.idxOf a < record.idxOf b

namespace FirstOrder

variable {record names : List String}

theorem nodup (h : FirstOrder record names) : names.Nodup :=
  List.Pairwise.imp (fun hlt he => Nat.ne_of_lt hlt (congrArg record.idxOf he)) h

theorem sublist {names' : List String} (h : FirstOrder record names) (hs : names'.Sublist names) :
    FirstOrder record names' := List.Pairwise.sublist hs h

theorem append (h : FirstOrder record names) (hmem : names ⊆ record) (name : String) :
    FirstOrder (record ++ [name]) names := by
  refine List.Pairwise.imp_of_mem (fun ha hb hlt => ?_) h
  rwa [List.idxOf_append_of_mem (hmem ha), List.idxOf_append_of_mem (hmem hb)]

/-- A name that the record does not have yet comes last. -/
theorem push (h : FirstOrder record names) (hmem : names ⊆ record) {name : String}
    (hname : name ∉ record) : FirstOrder (record ++ [name]) (names ++ [name]) := by
  refine List.pairwise_append.2 ⟨h.append hmem name, List.pairwise_singleton _ _, fun a ha b hb => ?_⟩
  rw [List.mem_singleton.1 hb, List.idxOf_append_of_mem (hmem ha),
    List.idxOf_append_of_notMem hname]
  exact Nat.lt_add_right _ (List.idxOf_lt_length_of_mem (hmem ha))

end FirstOrder

theorem firstOrder_eraseDups (p : String → Bool) (record : List String) :
    FirstOrder record (record.filter p).eraseDups := by
  induction record using List.reverseRecOn with
  | nil => exact .nil
  | append_singleton record name ih =>
      have hmem : (record.filter p).eraseDups ⊆ record := fun _ h =>
        List.mem_of_mem_filter (List.mem_eraseDups.1 h)
      have hsingle : [name].eraseDups = [name] := rfl
      rw [List.filter_append, List.eraseDups_append, List.removeAll]
      by_cases hp : p name = true
      · by_cases hname : name ∈ record
        · simpa [hp, hname] using ih.append hmem name
        · simpa [hp, hname, hsingle] using ih.push hmem hname
      · simpa [hp] using ih.append hmem name

/-- An order that leaves no choice. -/
theorem eq_of_pairwise {lt : String → String → Prop} (hlt : ∀ a b, lt a b → ¬lt b a)
    {ns ms : List String} (hns : ns.Pairwise lt) (hms : ms.Pairwise lt)
    (h : ∀ name, name ∈ ns ↔ name ∈ ms) : ns = ms := by
  have hnodup {l : List String} (hl : l.Pairwise lt) : l.Nodup :=
    hl.imp fun {a b} hab (he : a = b) => by
      subst he
      exact hlt a a hab hab
  refine List.Perm.eq_of_pairwise (fun a b _ _ hab hba => absurd hba (hlt a b hab)) hns hms ?_
  exact (List.perm_ext_iff_of_nodup (hnodup hns) (hnodup hms)).2 h

namespace Grammar

variable {g : Grammar} {names : List String}

/-- The names of all rules: first those of the record, in its order, then the others, ascending. -/
structure Enumerates (g : Grammar) (names : List String) : Prop where
  nodup : names.Nodup
  mem_iff : ∀ name, name ∈ names ↔ name ∈ g.rules.names
  parts : ∃ recorded rest, names = recorded ++ rest ∧
    (∀ name, name ∈ recorded ↔ name ∈ g.ruleOrder ∧ name ∈ g.rules.names) ∧
    FirstOrder g.ruleOrder recorded ∧ rest.Pairwise (· < ·)

theorem mem_recordedNames {name : String} :
    name ∈ g.recordedNames ↔ name ∈ g.ruleOrder ∧ name ∈ g.rules.names := by
  rw [recordedNames, List.mem_eraseDups, List.mem_filter, RuleTable.contains, List.contains_iff_mem]

theorem enumerates_orderedNames (g : Grammar) : g.Enumerates g.orderedNames where
  nodup := g.nodup_orderedNames
  mem_iff _ := ⟨mem_names_of_mem_orderedNames, g.mem_orderedNames⟩
  parts := by
    refine ⟨_, _, rfl, fun _ => mem_recordedNames, firstOrder_eraseDups _ _, ?_⟩
    have hnodup := (List.nodup_append'.1 g.nodup_orderedNames).2.1
    refine ((pairwise_sortNames _).and hnodup).imp fun {a b} h => ?_
    exact Decidable.not_not.1 fun hlt => h.2 (String.le_antisymm h.1 (String.not_lt.1 hlt))

/-- Which list it is depends on nothing but the record and the names of the rules. -/
theorem Enumerates.unique {g' : Grammar} {names' : List String} (h : g.Enumerates names)
    (h' : g'.Enumerates names') (horder : g'.ruleOrder = g.ruleOrder)
    (hnames : ∀ name, name ∈ g'.rules.names ↔ name ∈ g.rules.names) : names' = names := by
  obtain ⟨recorded, rest, rfl, hmem, hfirst, hrest⟩ := h.parts
  obtain ⟨recorded', rest', rfl, hmem', hfirst', hrest'⟩ := h'.parts
  rw [horder] at hfirst' hmem'
  have hrecorded : recorded' = recorded := by
    refine eq_of_pairwise (fun _ _ => Nat.lt_asymm) hfirst' hfirst fun name => ?_
    rw [hmem, hmem', hnames]
  have htail {names tail : List String} (hnodup : (names ++ tail).Nodup) (name : String) :
      name ∈ tail ↔ name ∈ names ++ tail ∧ name ∉ names := by
    rw [List.mem_append]
    refine ⟨fun ht => ⟨.inr ht, fun hn => ?_⟩, fun hn => hn.1.resolve_left hn.2⟩
    exact (List.nodup_append'.1 hnodup).2.2 hn ht
  subst hrecorded
  refine congrArg _ (eq_of_pairwise (fun _ _ => String.lt_asymm) hrest' hrest fun name => ?_)
  rw [htail h.nodup, htail h'.nodup, h.mem_iff, h'.mem_iff, hnames]

/-- A visible rule that no other one mentions. -/
structure Leads (g : Grammar) (name : String) : Prop where
  visible : isHiddenName name = false
  uncited : ∀ owner rule, g.rules.find? owner = some rule → owner ≠ name → ¬rule.Cites name

/-- A text is parsed from the first of the names, or, where none is recorded, from the first that
leads, if there is one. -/
structure Begins (g : Grammar) (names : List String) (start : Option String) : Prop where
  recorded : (∃ name ∈ g.ruleOrder, name ∈ g.rules.names) → start = names.head?
  unrecorded : (∀ name ∈ g.ruleOrder, name ∉ g.rules.names) →
    (∃ before name after, names = before ++ name :: after ∧ g.Leads name ∧
      (∀ n ∈ before, ¬g.Leads n) ∧ start = some name) ∨
    (∀ n ∈ names, ¬g.Leads n) ∧ start = names.head?

theorem mem_entries_iff {t : RuleTable} {name : String} {rule : Rule} :
    (name, rule) ∈ t.entries ↔ t.find? name = some rule :=
  ⟨RuleTable.lookup_of_mem t.nodup, mem_of_lookup⟩

theorem isReferenced_eq_false_iff {name : String} : g.isReferenced name = false ↔
    ∀ owner rule, g.rules.find? owner = some rule → owner ≠ name → ¬rule.Cites name := by
  rw [isReferenced, List.any_eq_false, Prod.forall]
  refine forall₂_congr fun owner rule => ?_
  rw [mem_entries_iff]
  simp [Rule.mem_references_iff]

theorem leads_iff {name : String} :
    g.Leads name ↔ (!g.isReferenced name && !isHiddenName name) = true := by
  rw [Bool.and_eq_true, Bool.not_eq_true', Bool.not_eq_true', isReferenced_eq_false_iff]
  exact ⟨fun h => ⟨h.uncited, h.visible⟩, fun h => ⟨h.2, h.1⟩⟩

theorem head?_eraseDups (names : List String) : names.eraseDups.head? = names.head? := by
  cases names with
  | nil => rfl
  | cons name names => rw [List.eraseDups_cons, List.head?_cons, List.head?_cons]

theorem head?_orderedNames {first : String} (h : g.ruleOrder.find? g.rules.contains = some first) :
    g.orderedNames.head? = some first := by
  rw [orderedNames, List.head?_append, recordedNames, head?_eraseDups, List.head?_filter, h,
    Option.some_or]

theorem find?_recorded_eq_none : g.ruleOrder.find? g.rules.contains = none ↔
    ∀ name ∈ g.ruleOrder, name ∉ g.rules.names := by
  simp [List.find?_eq_none, RuleTable.contains]

theorem begins_startRule? (g : Grammar) : g.Begins g.orderedNames g.startRule? := by
  rw [startRule?]
  split
  · next first hfirst =>
      refine ⟨fun _ => (head?_orderedNames hfirst).symm, fun hnone => ?_⟩
      rw [find?_recorded_eq_none.2 hnone] at hfirst
      cases hfirst
  · next hnone =>
      have hnone := find?_recorded_eq_none.1 hnone
      refine ⟨fun ⟨name, hrecord, hname⟩ => absurd hname (hnone name hrecord), fun _ => ?_⟩
      cases hfind : g.orderedNames.find? fun n => !g.isReferenced n && !isHiddenName n with
      | none =>
          refine .inr ⟨fun n hn => ?_, Option.none_or⟩
          rw [leads_iff]
          exact List.find?_eq_none.1 hfind n hn
      | some name =>
          obtain ⟨hleads, before, after, hnames, hbefore⟩ :=
            List.find?_eq_some_iff_append.1 hfind
          refine .inl ⟨before, name, after, hnames, leads_iff.2 hleads, fun n hn => ?_, rfl⟩
          simpa only [leads_iff, Bool.not_eq_true, Bool.not_eq_true'] using hbefore n hn

theorem mem_names_iff {t : RuleTable} {name : String} :
    name ∈ t.names ↔ ∃ rule, t.find? name = some rule :=
  ⟨t.exists_find?_of_mem, fun ⟨rule, h⟩ => List.mem_map.2 ⟨(name, rule), mem_of_lookup h, rfl⟩⟩

/-- The same record and tables with the same rules, in whatever order they hold them, give the same
order and the same start. -/
theorem order_congr {g' : Grammar} (horder : g'.ruleOrder = g.ruleOrder)
    (hrules : ∀ name, g'.rules.find? name = g.rules.find? name) :
    g'.orderedNames = g.orderedNames ∧ g'.startRule? = g.startRule? := by
  have hmem (name : String) : name ∈ g'.rules.names ↔ name ∈ g.rules.names := by
    rw [mem_names_iff, mem_names_iff, hrules]
  have hnames := g.enumerates_orderedNames.unique g'.enumerates_orderedNames horder hmem
  have hcontains : g'.rules.contains = g.rules.contains := by
    funext name
    rw [Bool.eq_iff_iff, RuleTable.contains, RuleTable.contains, List.contains_iff_mem,
      List.contains_iff_mem, hmem]
  have hreferenced : g'.isReferenced = g.isReferenced := by
    funext name
    have hiff : g'.isReferenced name = false ↔ g.isReferenced name = false := by
      rw [isReferenced_eq_false_iff, isReferenced_eq_false_iff]
      simp only [hrules]
    rw [Bool.eq_iff_iff]
    simpa using not_congr hiff
  exact ⟨hnames, by simp only [startRule?, horder, hcontains, hreferenced, hnames]⟩

theorem map_fst_orderedRules (g : Grammar) : g.orderedRules.map Prod.fst = g.orderedNames := by
  rw [orderedRules, List.map_filterMap]
  refine Eq.trans (List.filterMap_congr fun name hname => ?_) List.filterMap_some
  obtain ⟨rule, hrule⟩ := mem_names_iff.1 (mem_names_of_mem_orderedNames hname)
  rw [hrule]
  rfl

variable (g) in
/-- The grammar without its rules. -/
def cleared : Grammar := { g with rules := .empty, ruleOrder := [] }

variable (g) in
/-- Defines rules one after the other. -/
def defineAll (calls : List (String × Rule)) : Grammar := calls.foldl (fun g e => g.define e.1 e.2) g

/-- The rule is that of the last call for the name. -/
def LastCall (calls : List (String × Rule)) (name : String) (rule : Rule) : Prop :=
  ∃ before after, calls = before ++ (name, rule) :: after ∧ name ∉ after.map Prod.fst

/-- Each of the names has its place from the first call for it, and the rule of the last. -/
structure Collects (calls rules : List (String × Rule)) : Prop where
  mem_iff : ∀ name, name ∈ rules.map Prod.fst ↔ name ∈ calls.map Prod.fst
  order : FirstOrder (calls.map Prod.fst) (rules.map Prod.fst)
  last : ∀ name rule, (name, rule) ∈ rules ↔ LastCall calls name rule

theorem lookup_cons_eq (n : String) (e : String × Rule) (es : List (String × Rule)) :
    (e :: es).lookup n = if n = e.1 then some e.2 else es.lookup n := by
  rw [List.lookup_cons]
  by_cases h : n = e.1
  · rw [if_pos h, beq_iff_eq.2 h]
  · rw [if_neg h, beq_eq_false_iff_ne.2 h]

theorem find?_insert (t : RuleTable) (name : String) (rule : Rule) (n : String) :
    (t.insert name rule).find? n = if n = name then some rule else t.find? n := by
  rw [RuleTable.find?, RuleTable.find?, RuleTable.insert]
  dsimp only
  generalize t.entries = es
  induction es with
  | nil => exact lookup_cons_eq n (name, rule) []
  | cons e es ih =>
      rw [RuleTable.setEntries]
      split
      · next he =>
          rw [lookup_cons_eq, lookup_cons_eq, he]
          split <;> rfl
      · next he =>
          rw [lookup_cons_eq, lookup_cons_eq, ih]
          split
          · next hn => rw [if_neg fun h => he (hn ▸ h)]
          · rfl

theorem names_insert (t : RuleTable) (name : String) (rule : Rule) : (t.insert name rule).names =
    if name ∈ t.names then t.names else t.names ++ [name] :=
  RuleTable.map_fst_setEntries name rule t.entries

theorem lastCall_append {calls : List (String × Rule)} {e : String × Rule} {name : String}
    {rule : Rule} : LastCall (calls ++ [e]) name rule ↔
      if name = e.1 then rule = e.2 else LastCall calls name rule := by
  constructor
  · rintro ⟨before, after, he, hafter⟩
    obtain rfl | ⟨after, last, rfl⟩ := List.eq_nil_or_concat' after
    · obtain ⟨rfl, hlast⟩ := List.append_inj' he rfl
      obtain rfl := List.singleton_injective hlast
      rw [if_pos rfl]
    · rw [← List.cons_append, ← List.append_assoc] at he
      obtain ⟨rfl, hlast⟩ := List.append_inj' he rfl
      obtain rfl := List.singleton_injective hlast
      rw [List.map_append, List.mem_append, not_or] at hafter
      rw [if_neg fun h => hafter.2 (List.mem_singleton.2 h)]
      exact ⟨before, after, rfl, hafter.1⟩
  · split
    · rintro rfl
      next hname => exact ⟨calls, [], by rw [hname], List.not_mem_nil⟩
    · next hname =>
        rintro ⟨before, after, rfl, hafter⟩
        refine ⟨before, after ++ [e], by rw [List.append_assoc, List.cons_append], ?_⟩
        simpa [hname] using hafter

/-- What the calls so far have made: the record lists the names as the table does. -/
structure Defines (calls : List (String × Rule)) (g : Grammar) : Prop where
  record : g.ruleOrder = g.rules.names
  mem_iff : ∀ name, name ∈ g.ruleOrder ↔ name ∈ calls.map Prod.fst
  order : FirstOrder (calls.map Prod.fst) g.ruleOrder
  last : ∀ name rule, g.rules.find? name = some rule ↔ LastCall calls name rule

theorem Defines.define {calls : List (String × Rule)} (h : Defines calls g) (e : String × Rule) :
    Defines (calls ++ [e]) (g.define e.1 e.2) := by
  have hcontains : g.rules.contains e.1 = true ↔ e.1 ∈ g.ruleOrder := by
    rw [RuleTable.contains, List.contains_iff_mem, h.record]
  have hsub : g.ruleOrder ⊆ calls.map Prod.fst := fun name => (h.mem_iff name).1
  have hrule (name : String) (rule : Rule) : (g.rules.insert e.1 e.2).find? name = some rule ↔
      LastCall (calls ++ [e]) name rule := by
    rw [find?_insert, lastCall_append]
    split
    · rw [Option.some.injEq, eq_comm]
    · exact h.last name rule
  rw [Grammar.define]
  by_cases hmem : e.1 ∈ g.ruleOrder
  · rw [if_pos (hcontains.2 hmem)]
    refine ⟨?_, fun name => ?_, ?_, hrule⟩
    · rw [names_insert, if_pos (h.record ▸ hmem)]
      exact h.record
    · have hcalled := hsub hmem
      rw [h.mem_iff, List.map_append, List.mem_append]
      refine ⟨.inl, fun hn => hn.elim id fun hn => ?_⟩
      rwa [List.mem_singleton.1 hn]
    · rw [List.map_append]
      exact h.order.append hsub e.1
  · rw [if_neg fun hc => hmem (hcontains.1 hc)]
    refine ⟨?_, fun name => ?_, ?_, hrule⟩
    · rw [names_insert, if_neg (h.record ▸ hmem), h.record]
    · rw [List.mem_append, h.mem_iff, List.map_append, List.mem_append]
      rfl
    · rw [List.map_append]
      exact h.order.push hsub fun hn => hmem ((h.mem_iff _).2 hn)

theorem defines_defineAll (g : Grammar) (calls : List (String × Rule)) :
    Defines calls (g.cleared.defineAll calls) := by
  induction calls using List.reverseRecOn with
  | nil =>
      refine ⟨rfl, fun _ => Iff.rfl, .nil, fun name rule => iff_of_false nofun ?_⟩
      rintro ⟨before, after, he, -⟩
      exact List.append_ne_nil_of_right_ne_nil before (List.cons_ne_nil _ _) he.symm
  | append_singleton calls e ih =>
      rw [defineAll, List.foldl_append]
      exact ih.define e

theorem firstOrder_self {names : List String} (h : names.Nodup) : FirstOrder names names := by
  induction names using List.reverseRecOn with
  | nil => exact .nil
  | append_singleton names name ih =>
      obtain ⟨hnames, -, hname⟩ := List.nodup_append'.1 h
      exact (ih hnames).push (List.Subset.refl _) fun hn => hname hn List.mem_cons_self

/-- A record of all names is the order. -/
theorem orderedNames_of_record (h : g.ruleOrder = g.rules.names) : g.orderedNames = g.ruleOrder := by
  have hnodup : g.ruleOrder.Nodup := h ▸ g.rules.nodup
  refine Enumerates.unique ⟨hnodup, fun name => by rw [h], ?_⟩ g.enumerates_orderedNames rfl
    fun _ => Iff.rfl
  refine ⟨g.ruleOrder, [], (List.append_nil _).symm, fun name => ?_, firstOrder_self hnodup, .nil⟩
  rw [h, and_self]

theorem collects_defineAll (g : Grammar) (calls : List (String × Rule)) :
    Collects calls (g.cleared.defineAll calls).orderedRules := by
  have h := defines_defineAll g calls
  have hnames := (map_fst_orderedRules _).trans (orderedNames_of_record h.record)
  refine ⟨fun name => ?_, ?_, fun name rule => ?_⟩
  · rw [hnames, h.mem_iff]
  · rw [hnames]
    exact h.order
  · rw [mem_orderedRules, h.last]

/-- The order of the rules is the one list of all their names that the record calls for, however the
table holds them, and it tells where a text is parsed from. Rules that are defined one after the
other stand in the order of their first definitions, each as it was defined last. -/
theorem orders_rules (g : Grammar) (calls : List (String × Rule)) :
    (∀ names, g.Enumerates names ↔ names = g.orderedNames) ∧
    g.Begins g.orderedNames g.startRule? ∧
    (∀ g' : Grammar, g'.ruleOrder = g.ruleOrder →
      (∀ name, g'.rules.find? name = g.rules.find? name) →
      g'.orderedNames = g.orderedNames ∧ g'.startRule? = g.startRule?) ∧
    Collects calls (g.cleared.defineAll calls).orderedRules := by
  refine ⟨fun names => ⟨fun h => ?_, ?_⟩, g.begins_startRule?, fun g' => order_congr,
    collects_defineAll g calls⟩
  · exact g.enumerates_orderedNames.unique h rfl fun _ => Iff.rfl
  · rintro rfl
    exact g.enumerates_orderedNames

/-- The record names one rule twice and one that is missing, and leaves out three. -/
def scattered : Grammar :=
  { name := "scattered"
    ruleOrder := ["pair", "gone", "word", "pair"]
    rules := .ofList [("word", .regex "[a-z]+"), ("mark", .literal "!"), ("_gap", .literal " "),
      ("pair", .seq [.ref "word", .ref "mark"]), ("end", .empty)] }

theorem orders_rules_scattered :
    scattered.orderedNames = ["pair", "word", "_gap", "end", "mark"] ∧
    scattered.Enumerates ["pair", "word", "_gap", "end", "mark"] ∧
    scattered.startRule? = some "pair" ∧
    Collects [("b", .empty), ("a", .literal "x"), ("b", .ref "a")]
      [("b", .ref "a"), ("a", .literal "x")] := by
  have hnames : scattered.orderedNames = ["pair", "word", "_gap", "end", "mark"] := by decide +kernel
  obtain ⟨henumerates, -, -, hcollects⟩ :=
    orders_rules scattered [("b", .empty), ("a", .literal "x"), ("b", .ref "a")]
  exact ⟨hnames, (henumerates _).2 hnames.symm, by decide +kernel, hcollects⟩

end Grammar

end EarleyTree

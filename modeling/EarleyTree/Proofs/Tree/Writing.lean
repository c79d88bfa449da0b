import EarleyTree.Proofs.Tree.Errors

/-!
What the written form of a tree shows. A node is written if it and all between it and the root are named,
and nothing that lies below an anonymous node is.
-/
namespace EarleyTree

/-- An expression in parentheses, with the label that it bears among the parts of another one. -/
inductive Sexp
  | node (label : Option String) (head : List Char) (parts : List Sexp)

namespace Sexp

def writeLabel : Option String → List Char
  | none => []
  | some name => name.toList ++ [':', ' ']

mutual

def write : Sexp → List Char
  | node label head parts => writeLabel label ++ '(' :: (head ++ (writeAll parts ++ [')']))

def writeAll : List Sexp → List Char
  | [] => []
  | s :: ss => ' ' :: s.write ++ writeAll ss

end

mutual

/-- What stands behind the opening parentheses, from left to right. -/
def heads : Sexp → List (List Char)
  | node _ head parts => head :: headsAll parts

def headsAll : List Sexp → List (List Char)
  | [] => []
  | s :: ss => s.heads ++ headsAll ss

end

mutual

def labels : Sexp → List String
  | node label _ parts => label.toList ++ labelsAll parts

def labelsAll : List Sexp → List String
  | [] => []
  | s :: ss => s.labels ++ labelsAll ss

end

/-- Reads the heads off a text: what stands behind each opening parenthesis, up to a blank or the closing
one. -/
def headsIn : List Char → List (List Char)
  | [] => []
  | c :: cs =>
    if c = '(' then cs.takeWhile (fun c => c != ' ' && c != ')') :: headsIn cs else headsIn cs

/-- No character could be taken for the end of a name or the beginning of an expression. -/
def Plain (name : List Char) : Prop := ∀ c ∈ name, c ≠ '(' ∧ c ≠ ')' ∧ c ≠ ' '

instance : DecidablePred Plain := fun name => List.decidableBAll _ name

variable {head rest : List Char}

theorem headsIn_append (h : '(' ∉ head) : headsIn (head ++ rest) = headsIn rest := by
  induction head with
  | nil => rfl
  | cons c head ih =>
      rw [List.mem_cons, not_or] at h
      rw [List.cons_append, headsIn, if_neg (Ne.symm h.1), ih h.2]

theorem Plain.notMem (h : Plain head) : '(' ∉ head := fun hm => (h '(' hm).1 rfl

/-- A plain head is read as it was written, if what follows it ends it. -/
theorem headsIn_opening (h : Plain head)
    (hstop : rest.takeWhile (fun c => c != ' ' && c != ')') = []) :
    headsIn ('(' :: (head ++ rest)) = head :: headsIn rest := by
  have hhead : ∀ c ∈ head, (c != ' ' && c != ')') = true := by
    intro c hm
    obtain ⟨-, hclose, hblank⟩ := h c hm
    rw [Bool.and_eq_true, bne_iff_ne, bne_iff_ne]
    exact ⟨hblank, hclose⟩
  rw [headsIn, if_pos rfl, List.takeWhile_append_of_pos hhead, hstop, List.append_nil,
    headsIn_append h.notMem]

theorem headsIn_writeLabel {label : Option String} (h : ∀ name ∈ label, Plain name.toList) :
    headsIn (writeLabel label ++ rest) = headsIn rest := by
  cases label with
  | none => rfl
  | some name =>
      rw [writeLabel, List.append_assoc, headsIn_append (h name rfl).notMem]
      rfl

mutual

/-- What is written with plain names can be read again. -/
theorem headsIn_write : (s : Sexp) → (∀ head ∈ s.heads, Plain head) →
    (∀ name ∈ s.labels, Plain name.toList) → (rest : List Char) →
    headsIn (s.write ++ rest) = s.heads ++ headsIn rest
  | node label head parts, hheads, hlabels, rest => by
    rw [heads, List.forall_mem_cons] at hheads
    rw [labels, List.forall_mem_append] at hlabels
    have hparts := headsIn_writeAll parts hheads.2 hlabels.2 (')' :: rest)
    have hstop : (writeAll parts ++ ')' :: rest).takeWhile (fun c => c != ' ' && c != ')') = [] := by
      cases parts with
      | nil => rfl
      | cons s ss => rfl
    have hlabel : ∀ name ∈ label, Plain name.toList := fun name hm =>
      hlabels.1 name (Option.mem_toList.2 hm)
    rw [write, heads, List.append_assoc, headsIn_writeLabel hlabel, List.cons_append,
      List.append_assoc, List.append_assoc, List.singleton_append, headsIn_opening hheads.1 hstop,
      hparts]
    rfl

theorem headsIn_writeAll : (ss : List Sexp) → (∀ head ∈ headsAll ss, Plain head) →
    (∀ name ∈ labelsAll ss, Plain name.toList) → (rest : List Char) →
    headsIn (writeAll ss ++ rest) = headsAll ss ++ headsIn rest
  | [], _, _, _ => rfl
  | s :: ss, hheads, hlabels, rest => by
    rw [headsAll, List.forall_mem_append] at hheads
    rw [labelsAll, List.forall_mem_append] at hlabels
    rw [writeAll, headsAll]
    show headsIn (s.write ++ writeAll ss ++ rest) = _
    rw [List.append_assoc, headsIn_write s hheads.1 hlabels.1, headsIn_writeAll ss hheads.2 hlabels.2,
      List.append_assoc]

end

mutual

theorem infix_write : (s : Sexp) → ∀ head ∈ s.heads, head <:+: s.write
  | node label head parts, head', h => by
    rw [heads] at h
    rw [write]
    obtain rfl | h := List.mem_cons.1 h
    · exact ⟨writeLabel label ++ ['('], writeAll parts ++ [')'], by simp⟩
    · obtain ⟨before, after, heq⟩ := infix_writeAll parts head' h
      exact ⟨writeLabel label ++ '(' :: (head ++ before), after ++ [')'], by simp [← heq]⟩

theorem infix_writeAll : (ss : List Sexp) → ∀ head ∈ headsAll ss, head <:+: writeAll ss
  | [], _, h => absurd h List.not_mem_nil
  | s :: ss, head, h => by
    rw [headsAll] at h
    rw [writeAll]
    obtain h | h := List.mem_append.1 h
    · obtain ⟨before, after, heq⟩ := infix_write s head h
      exact ⟨' ' :: before, after ++ writeAll ss, by simp [← heq]⟩
    · obtain ⟨before, after, heq⟩ := infix_writeAll ss head h
      exact ⟨' ' :: s.write ++ before, after, by simp [← heq]⟩

end

end Sexp

namespace Subtree

variable (l : Language)

/-- The kind as it is written: that of an anonymous node in quotes. -/
def head (t : Subtree) : List Char :=
  let kind := (t.kindName l).toList
  if t.isNamed l then kind else '"' :: kind.flatMap Text.escapeAscii ++ ['"']

mutual

/-- What a tree is written as. -/
def outline (label : Option String) : Subtree → Sexp
  | ⟨data, children⟩ => .node label (head l ⟨data, children⟩) (outlineAll children)

def outlineAll : List Subtree → List Sexp
  | [] => []
  | t :: ts =>
    if t.isNamed l then t.outline (t.fieldName? l) :: outlineAll ts else outlineAll ts

end

mutual

theorem write_outline (label : Option String) : (t : Subtree) →
    (t.outline l label).write = Sexp.writeLabel label ++ t.sexp l
  | ⟨data, children⟩ => by
    have hhead : sexpHead l ⟨data, children⟩ = '(' :: head l ⟨data, children⟩ := by
      rw [sexpHead, head]
      split <;> rfl
    rw [outline, Sexp.write, sexp, writeAll_outlineAll, hhead, List.cons_append, List.cons_append,
      List.append_assoc]

theorem writeAll_outlineAll : (ts : List Subtree) →
    Sexp.writeAll (outlineAll l ts) = sexpAll l ts
  | [] => rfl
  | t :: ts => by
    rw [outlineAll, sexpAll]
    split
    · rw [Sexp.writeAll, write_outline, writeAll_outlineAll]
      cases t.fieldName? l <;> rfl
    · exact writeAll_outlineAll ts

end

theorem headsAll_outlineAll (ts : List Subtree) : Sexp.headsAll (outlineAll l ts) =
    ts.flatMap fun t => if t.isNamed l then (t.outline l (t.fieldName? l)).heads else [] := by
  induction ts with
  | nil => rfl
  | cons t ts ih =>
      rw [outlineAll, List.flatMap_cons, ← ih]
      split <;> rfl

theorem heads_outline (label : Option String) (t : Subtree) : (t.outline l label).heads =
    t.head l :: t.children.flatMap fun t =>
      if t.isNamed l then (t.outline l (t.fieldName? l)).heads else [] := by
  obtain ⟨data, ts⟩ := t
  rw [outline, Sexp.heads, headsAll_outlineAll]

variable {l} in
theorem mem_fields_of_fieldName? {t : Subtree} {name : String} (h : t.fieldName? l = some name) :
    name ∈ l.tables.fields := by
  obtain ⟨id, -, h⟩ := Option.bind_eq_some_iff.1 h
  rw [Language.fieldName?] at h
  split at h
  · cases h
  · exact List.mem_of_getElem? h

mutual

/-- Labels are names of fields. -/
theorem mem_labels_outline (label : Option String) : (t : Subtree) →
    ∀ name ∈ (t.outline l label).labels, label = some name ∨ name ∈ l.tables.fields
  | ⟨data, children⟩, name, h => by
    rw [outline, Sexp.labels, List.mem_append, Option.mem_toList] at h
    exact h.imp_right (mem_labelsAll_outlineAll children name)

theorem mem_labelsAll_outlineAll : (ts : List Subtree) →
    ∀ name ∈ Sexp.labelsAll (outlineAll l ts), name ∈ l.tables.fields
  | [], _, h => absurd h List.not_mem_nil
  | t :: ts, name, h => by
    rw [outlineAll] at h
    split at h
    · rw [Sexp.labelsAll] at h
      obtain h | h := List.mem_append.1 h
      · obtain hfield | h := mem_labels_outline (t.fieldName? l) t name h
        · exact mem_fields_of_fieldName? hfield
        · exact h
      · exact mem_labelsAll_outlineAll ts name h
    · exact mem_labelsAll_outlineAll ts name h

end

end Subtree

namespace Node

/-- The subtrees from a node up to below the one that it is under. -/
def between (n d : Node) : List Subtree :=
  (d.subtree :: d.ancestors.map Prod.fst).take (d.ancestors.length - n.ancestors.length)

/-- The node and all between it and the other one are named. -/
def opens (n d : Node) : Bool := (n.between d).all (·.isNamed n.language)

variable {n c d : Node}

theorem language_of_mem_children (h : c ∈ n.children) : c.language = n.language := by
  obtain ⟨i, hi, rfl⟩ := List.mem_mapIdx.1 h
  rfl

theorem language_of_mem_preorder (h : d ∈ n.preorder) : d.language = n.language := by
  induction n using induct with
  | node n ih =>
      rw [preorder_eq] at h
      obtain rfl | h := List.mem_cons.1 h
      · rfl
      · obtain ⟨c, hc, hd⟩ := List.mem_flatMap.1 h
        exact (ih c hc hd).trans (language_of_mem_children hc)

/-- Whatever is below a node has the way up from that node at the end of its own. -/
theorem exists_above (h : d ∈ n.preorder) : ∃ front, d.subtree :: d.ancestors.map Prod.fst =
    front ++ n.subtree :: n.ancestors.map Prod.fst := by
  induction n using induct with
  | node n ih =>
      rw [preorder_eq] at h
      obtain rfl | h := List.mem_cons.1 h
      · exact ⟨[], rfl⟩
      · obtain ⟨c, hc, hd⟩ := List.mem_flatMap.1 h
        obtain ⟨front, hfront⟩ := ih c hc hd
        obtain ⟨-, i, habove⟩ := mem_children hc
        refine ⟨front ++ [c.subtree], ?_⟩
        rw [hfront, habove, List.append_assoc]
        rfl

theorem between_self (n : Node) : n.between n = [] := by
  rw [between, Nat.sub_self, List.take_zero]

theorem between_child (hc : c ∈ n.children) (hd : d ∈ c.preorder) :
    n.between d = c.between d ++ [c.subtree] := by
  obtain ⟨front, hfront⟩ := exists_above hd
  obtain ⟨-, i, habove⟩ := mem_children hc
  have hlength := congrArg List.length hfront
  simp only [List.length_cons, List.length_append, List.length_map] at hlength
  have hc' : d.ancestors.length - c.ancestors.length = front.length := by omega
  have hn' : d.ancestors.length - n.ancestors.length = front.length + 1 := by
    rw [habove, List.length_cons] at hlength
    omega
  rw [between, between, hfront, hc', hn', List.take_left, List.take_length_add_append]
  rfl

theorem opens_self (n : Node) : n.opens n = true := by
  rw [opens, between_self, List.all_nil]

theorem opens_child (hc : c ∈ n.children) (hd : d ∈ c.preorder) :
    n.opens d = (c.isNamed && c.opens d) := by
  have hl := language_of_mem_children hc
  rw [opens, opens, between_child hc hd, List.all_append, hl, Bool.and_comm, isNamed, hl]
  simp

/-- The heads of what a node is written as are those of the nodes that anonymous ones do not close off,
in the order of the tree. -/
theorem heads_outline (n : Node) (label : Option String) :
    (n.subtree.outline n.language label).heads =
      (n.preorder.filter n.opens).map fun d => d.subtree.head n.language := by
  induction n using induct generalizing label with
  | node n ih =>
      rw [Subtree.heads_outline, preorder_eq, List.filter_cons_of_pos n.opens_self, List.map_cons,
        List.filter_flatMap, List.map_flatMap, ← map_subtree_children, List.flatMap_map]
      refine congrArg _ (List.flatMap_congr fun c hc => ?_)
      have hl := language_of_mem_children hc
      have hfilter : c.preorder.filter n.opens = if c.isNamed then c.preorder.filter c.opens else [] := by
        rw [List.filter_congr fun d hd => opens_child hc hd]
        cases c.isNamed <;> simp
      rw [hfilter]
      show (if c.subtree.isNamed n.language then _ else _) = _
      rw [isNamed, hl]
      split
      · rw [← hl, ih c hc]
      · rfl

theorem mem_preorder : d ∈ n.preorder ↔ d = n ∨ d ∈ n.preorder.tail := by
  rw [preorder_eq, List.mem_cons, List.tail_cons]

theorem isNamed_of_opens (hd : d ∈ n.preorder.tail) (h : n.opens d = true) : d.isNamed = true := by
  induction n using induct with
  | node n ih =>
      rw [preorder_eq, List.tail_cons] at hd
      obtain ⟨c, hc, hd⟩ := List.mem_flatMap.1 hd
      rw [opens_child hc hd, Bool.and_eq_true] at h
      obtain rfl | hbelow := mem_preorder.1 hd
      · exact h.1
      · exact ih c hc hbelow h.2

/-- No named node below this one is below an anonymous one that is. -/
def Uncovered (n : Node) : Prop := ∀ d ∈ n.preorder.tail, d.isNamed = true → n.opens d = true

theorem head_eq_kindName (h : d.isNamed = true) : d.subtree.head d.language = d.kindName.toList :=
  if_pos h

/-- What is written of plain names can be read off the text. -/
theorem headsIn_sexp (n : Node) (hheads : ∀ d ∈ n.preorder, Sexp.Plain (d.subtree.head n.language))
    (hfields : ∀ name ∈ n.language.tables.fields, Sexp.Plain name.toList) :
    Sexp.headsIn (n.subtree.sexp n.language) =
      (n.preorder.filter n.opens).map fun d => d.subtree.head n.language := by
  have hwrite : (n.subtree.outline n.language none).write = n.subtree.sexp n.language :=
    Subtree.write_outline n.language none n.subtree
  have hread := (n.subtree.outline n.language none).headsIn_write (fun head hm => ?_)
    (fun name hm => ?_) []
  · rw [List.append_nil, hwrite, heads_outline] at hread
    exact hread.trans (List.append_nil _)
  · rw [heads_outline] at hm
    obtain ⟨d, hd, rfl⟩ := List.mem_map.1 hm
    exact hheads d (List.mem_filter.1 hd).1
  · exact hfields name ((Subtree.mem_labels_outline n.language none n.subtree name hm).resolve_left nofun)

/-- All named nodes are written just if none of them is below an anonymous one. -/
theorem heads_outline_eq_iff (n : Node) (label : Option String) :
    (n.subtree.outline n.language label).heads = n.subtree.head n.language ::
      (n.preorder.tail.filter isNamed).map (·.kindName.toList) ↔ n.Uncovered := by
  have hopen : n.preorder.filter n.opens = n :: (n.preorder.tail.filter isNamed).filter n.opens := by
    have hnamed : n.preorder.tail.filter n.opens =
        (n.preorder.tail.filter isNamed).filter n.opens := by
      rw [List.filter_filter]
      refine List.filter_congr fun d hd => ?_
      cases ho : n.opens d with
      | false => rfl
      | true => rw [isNamed_of_opens hd ho, Bool.and_self]
    rw [← hnamed, preorder_eq, List.filter_cons_of_pos n.opens_self, List.tail_cons]
  have hkinds : (n.preorder.tail.filter isNamed).map (·.kindName.toList) =
      (n.preorder.tail.filter isNamed).map fun d => d.subtree.head n.language := by
    refine List.map_congr_left fun d hd => ?_
    obtain ⟨hd, hnamed⟩ := List.mem_filter.1 hd
    rw [← head_eq_kindName hnamed, language_of_mem_preorder (mem_preorder.2 (.inr hd))]
  rw [heads_outline, hopen, hkinds, List.map_cons, List.cons_inj_right]
  constructor
  · intro heq d hd hnamed
    have hlength := congrArg List.length heq
    rw [List.length_map, List.length_map] at hlength
    exact List.filter_eq_self.1 (List.filter_sublist.eq_of_length hlength) d
      (List.mem_filter.2 ⟨hd, hnamed⟩)
  · intro h
    rw [List.filter_eq_self.2 fun d hd => h d (List.mem_filter.1 hd).1 (List.mem_filter.1 hd).2]

/-- Where all named nodes are written, an error is. -/
theorem error_mem_heads (h : n.Uncovered) (hflagged : Subtree.Every Subtree.Flagged n.subtree)
    (herror : n.subtree.hasError = true) (label : Option String) :
    "ERROR".toList ∈ (n.subtree.outline n.language label).heads := by
  obtain ⟨d, hd, hkind⟩ := (hasError_iff hflagged).1 herror
  have hopens : n.opens d = true := by
    obtain rfl | hbelow := mem_preorder.1 hd
    · exact d.opens_self
    · refine h d hbelow ?_
      rw [isNamed, Subtree.isNamed, hkind]
      rfl
  have hhead : d.subtree.head n.language = "ERROR".toList := by
    rw [Subtree.head, Subtree.isNamed, Subtree.kindName, hkind]
    rfl
  rw [heads_outline]
  exact List.mem_map.2 ⟨d, List.mem_filter.2 ⟨hd, hopens⟩, hhead⟩

end Node

end EarleyTree

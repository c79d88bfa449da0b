import EarleyTree.Language.Compilation
import EarleyTree.Proofs.Pattern.Locality
import EarleyTree.Proofs.Pattern.Spelling

/-!
Patterns that can be put together: wherever such a pattern stands, the same elements are read for it,
and they spell the same texts.
-/
namespace EarleyTree.Pattern

open Computability

namespace Reading

variable {st st' : Reading} {c : Char} {used rest : List Char}

theorem finish_skip (used rest : List Char) (st : Reading) :
    finish (used ++ rest) used.length st = finish rest 0 st := by
  induction used with
  | nil => rfl
  | cons c used ih => exact ih

theorem finish_step (h : st.step c (used ++ rest) = some (st', rest)) :
    finish (c :: (used ++ rest)) 0 st = finish rest 0 st' := by
  rw [finish, h]
  dsimp only
  rw [List.length_append, Nat.add_sub_cancel, finish_skip]

theorem step_literal (hf : st.flags = {}) (h : isMeta c = false) (rest : List Char) :
    st.step c rest = some (st.pushAtom (.char c), rest) := by
  have hliteral : st.literal c = .char c := by simp [literal, hf]
  rw [step]
  · simp only [hf, Flags.skip, Bool.false_eq_true, if_false, List.length_cons,
      Nat.not_succ_le_self, hliteral]
  all_goals
    rintro rfl
    exact absurd h (by decide)

theorem isEscapable_of_isMeta (h : isMeta c = true) : isEscapable c = true := by
  have hall : ("\\.+*?()|[]\x7b\x7d^$#&-~".toList.all isEscapable) = true := by decide +kernel
  exact List.all_eq_true.1 hall c (List.contains_iff_mem.1 h)

theorem readEscape_of_isMeta (fl : Flags) (h : isMeta c = true) (rest : List Char) :
    fl.readEscape (c :: rest) = some (.literal c false, rest) := by
  rw [Flags.readEscape]
  · exact if_pos (isEscapable_of_isMeta h)
  all_goals
    rintro rfl
    exact absurd h (by decide)

theorem step_escaped (hf : st.flags = {}) (h : isMeta c = true) (rest : List Char) :
    st.step '\\' (c :: rest) = some (st.pushAtom (.char c), rest) := by
  have hliteral : st.literal c = .char c := by simp [literal, hf]
  simp [step, hf, Flags.skip, readEscape_of_isMeta _ h, hliteral]

theorem step_opening (hf : st.flags = {}) (rest : List Char) :
    st.step '(' ('?' :: ':' :: rest) = some (st.openGroup {}, rest) := by
  have hset : Flags.setAll? {} [] = some {} := rfl
  simp [step, openParen, hf, Flags.skip, isFlagEnd, hset]

theorem step_caret (hf : st.flags = {}) (rest : List Char) :
    st.step '^' rest = some (st.pushAtom (.test .textStart), rest) := by
  simp [step, hf, Flags.skip, boundary?]

theorem step_bar (hf : st.flags = {}) (rest : List Char) :
    st.step '|' rest = some (st.pushAlternative, rest) := by
  simp [step, hf, Flags.skip]

theorem step_closing (st : Reading) (rest : List Char) :
    st.step ')' rest = st.closeGroup.map (·, rest) := by
  rw [step, st.flags.skip_cons (by decide) (by decide), List.length_cons,
    if_neg (Nat.not_succ_le_self _)]

theorem readQuantifier_eq (min : Nat) (max : Option Nat) (hr : rest.head? ≠ some '?') :
    st.readQuantifier min max rest = (st.repeatLast min max false).map (·, rest) := by
  rw [readQuantifier]
  rintro rest' rfl
  exact hr rfl

theorem repeatLast_eq (hf : st.flags = {}) {piece : Piece} {sequence : List Piece}
    (hs : st.sequence = piece :: sequence) (hp : piece.repeatable = true) (min : Nat)
    (max : Option Nat) : st.repeatLast min max false = some { st with
      sequence := ⟨.rep min max true piece.regex, piece.depth + 1, true⟩ :: sequence } := by
  rw [repeatLast, hs, hf]
  exact if_pos hp

/-- A star or a plus repeats the element that was read last. -/
theorem step_repeat (hf : st.flags = {}) {piece : Piece} {sequence : List Piece}
    (hs : st.sequence = piece :: sequence) (hp : piece.repeatable = true)
    (hr : rest.head? ≠ some '?') (once : Bool) :
    st.step (if once then '+' else '*') rest = some ({ st with
      sequence := ⟨.rep once.toNat none true piece.regex, piece.depth + 1, true⟩ :: sequence },
      rest) := by
  cases once <;>
    simp [step, hf, Flags.skip, readQuantifier_eq _ _ hr, repeatLast_eq hf hs hp]

/-- The rest of the pattern, but nothing if a name has been given twice. -/
def goOn (st : Reading) (cs : List Char) : Option Piece :=
  if st.names.Nodup then finish cs 0 st else none

theorem goOn_step (h : st.step c (used ++ rest) = some (st', rest)) (hn : st'.names = st.names) :
    st.goOn (c :: (used ++ rest)) = st'.goOn rest := by
  rw [goOn, goOn, finish_step h, hn]

end Reading

/-- What reading a pattern adds: elements of the innermost sequence, and names of groups. -/
structure Yield where
  pieces : List Piece
  names : List (List Char) := []

def Yield.andThen (a b : Yield) : Yield := ⟨a.pieces ++ b.pieces, b.names ++ a.names⟩

/-- What is read, as one piece. -/
def Yield.piece (y : Yield) : Piece := .ofSequence y.pieces.reverse

/-- A group around what is read. -/
def Piece.grouped (p : Piece) : Piece := ⟨p.regex, p.depth + 1, true⟩

namespace Reading

variable {st : Reading}

def add (st : Reading) (y : Yield) : Reading :=
  { st with sequence := y.pieces.reverse ++ st.sequence, names := y.names ++ st.names }

theorem add_andThen (a b : Yield) : (st.add a).add b = st.add (a.andThen b) := by
  simp [add, Yield.andThen]

/-- What is read in a group is added as one element when the group is closed. -/
theorem closeGroup_eq {outer : Reading} {names : List (List Char)}
    (hg : st.groups = ⟨outer.flags, outer.alternatives, outer.sequence⟩ :: outer.groups)
    (hn : st.names = names ++ outer.names) :
    st.closeGroup = some (outer.add ⟨[st.body.grouped], names⟩) := by
  rw [closeGroup, hg, hn]
  rfl

/-- The alternatives of a group, the last of them in the sequence that is still open. -/
def alternate : List Yield → Reading → Reading
  | [], st => st
  | [y], st => st.add y
  | y :: ys, st => alternate ys (st.add y).pushAlternative

/-- The names given in all alternatives, the last ones in front. -/
def alternateNames : List Yield → List (List Char)
  | [] => []
  | y :: ys => alternateNames ys ++ y.names

theorem alternate_kept (ys : List Yield) (st : Reading) : (st.alternate ys).flags = st.flags ∧
    (st.alternate ys).groups = st.groups ∧
    (st.alternate ys).names = alternateNames ys ++ st.names := by
  fun_induction alternate ys st with
  | case1 => exact ⟨rfl, rfl, rfl⟩
  | case2 y st => exact ⟨rfl, rfl, rfl⟩
  | case3 y ys st _ ih =>
      refine ⟨ih.1, ih.2.1, ih.2.2.trans ?_⟩
      rw [alternateNames, List.append_assoc]
      rfl

theorem alternate_body {ys : List Yield} (hne : ys ≠ []) (hs : st.sequence = []) :
    Piece.ofSequence (st.alternate ys).sequence :: (st.alternate ys).alternatives =
      (ys.map Yield.piece).reverse ++ st.alternatives := by
  fun_induction alternate ys st with
  | case1 => exact absurd rfl hne
  | case2 y st => simp [add, hs, Yield.piece]
  | case3 y ys st h ih =>
      refine (ih (fun hnil => h hnil) rfl).trans ?_
      simp [pushAlternative, add, hs, Yield.piece]

end Reading

open Reading

/-- Wherever the pattern stands, this is read for it. A question mark behind it might be taken for its
own. -/
def Reads (source : List Char) (y : Yield) : Prop :=
  ∀ (st : Reading) rest, st.flags = {} → rest.head? ≠ some '?' →
    st.goOn (source ++ rest) = (st.add y).goOn rest

namespace Reads

variable {s t : List Char} {a b : Yield}

theorem nil : Reads [] ⟨[], []⟩ := fun _ _ _ _ => rfl

theorem append (hs : Reads s a) (ht : Reads t b) (hhead : t.head? ≠ some '?') :
    Reads (s ++ t) (a.andThen b) := by
  intro st rest hf hr
  have hr' : (t ++ rest).head? ≠ some '?' := by
    cases t with
    | nil => exact hr
    | cons c t => exact hhead
  rw [List.append_assoc, hs st (t ++ rest) hf hr', ht (st.add a) rest hf hr, add_andThen]

theorem escape_char (c : Char) : Reads (escape [c]) ⟨[{ regex := .char c }], []⟩ := by
  intro st rest hf hr
  cases h : isMeta c with
  | true =>
      have hstep : st.step '\\' ([c] ++ rest) = _ := step_escaped hf h rest
      rw [escape, List.flatMap_singleton, if_pos h]
      exact goOn_step hstep rfl
  | false =>
      have hstep : st.step c ([] ++ rest) = _ := step_literal hf h rest
      rw [escape, List.flatMap_singleton, if_neg (by simp [h])]
      exact goOn_step hstep rfl

theorem head?_escape (text : List Char) : (escape text).head? ≠ some '?' := by
  cases text with
  | nil => nofun
  | cons c text =>
      rw [escape, List.flatMap_cons]
      split
      · nofun
      · next h =>
          rintro ⟨⟩
          exact h (by decide)

theorem escape_text (text : List Char) :
    Reads (escape text) ⟨text.map fun c => { regex := .char c }, []⟩ := by
  induction text with
  | nil => exact .nil
  | cons c text ih =>
      have hcons : escape (c :: text) = escape [c] ++ escape text := by simp [escape]
      exact hcons ▸ (escape_char c).append ih (head?_escape text)

theorem anchor : Reads ['^'] ⟨[{ regex := .test .textStart }], []⟩ := by
  intro st rest hf hr
  have hstep : st.step '^' ([] ++ rest) = _ := step_caret hf rest
  exact goOn_step hstep rfl

theorem parse?_eq (h : Reads s a) : parse? s =
    if a.names.Nodup then some a.piece else none := by
  have hgo := h {} [] rfl (by simp)
  rw [List.append_nil, goOn, goOn, if_pos List.nodup_nil] at hgo
  refine hgo.trans ?_
  simp [add, finish, Reading.body, Piece.ofAlternatives, Piece.join, Yield.piece]

end Reads

namespace Piece

theorem ofSequence_regex (reversed : List Piece) :
    (ofSequence reversed).regex = Regex.catAll (reversed.reverse.map (·.regex)) := by
  rcases reversed with _ | ⟨piece, _ | ⟨piece', pieces⟩⟩ <;> rfl

theorem ofAlternatives_regex (reversed : List Piece) :
    (ofAlternatives reversed).regex = Regex.altAll (reversed.reverse.map (·.regex)) := by
  rcases reversed with _ | ⟨piece, _ | ⟨piece', pieces⟩⟩ <;> rfl

end Piece

theorem Reads.alternatives {sources : List (List Char)} {ys : List Yield}
    (h : List.Forall₂ Reads sources ys) {st : Reading} (hf : st.flags = {}) (rest : List Char) :
    st.goOn (joinAlternatives sources ++ ')' :: rest) = (st.alternate ys).goOn (')' :: rest) := by
  induction h generalizing st with
  | nil => rfl
  | @cons source y sources ys hsource h ih =>
      cases h with
      | nil => exact hsource st _ hf (by simp)
      | @cons source' y' sources ys hsource' h =>
          have hf₁ : (st.add y).flags = {} := hf
          have hbar : (st.add y).step '|' ([] ++ (joinAlternatives (source' :: sources) ++
              ')' :: rest)) = _ := step_bar hf₁ _
          rw [joinAlternatives, List.append_assoc, hsource st _ hf (by simp), List.cons_append]
          · exact (goOn_step hbar rfl).trans (@ih (st.add y).pushAlternative hf)
          · simp

/-- The group around alternatives. -/
def groupOf (ys : List Yield) : Piece := (Piece.ofAlternatives (ys.map Yield.piece).reverse).grouped

theorem groupOf_regex (ys : List Yield) : (groupOf ys).regex =
    Regex.altAll (ys.map fun y => Regex.catAll (y.pieces.map (·.regex))) := by
  simp [groupOf, Piece.grouped, Yield.piece, Piece.ofAlternatives_regex, Piece.ofSequence_regex,
    Function.comp_def]

/-- A group is one element, which stands for the alternatives in it. -/
theorem Reads.group {sources : List (List Char)} {ys : List Yield}
    (h : List.Forall₂ Reads sources ys) (hne : sources ≠ []) :
    Reads (Pattern.group "(?:" (joinAlternatives sources) ")") ⟨[groupOf ys], alternateNames ys⟩ := by
  intro st rest hf hr
  have hopening : st.step '(' (['?', ':'] ++ (joinAlternatives sources ++ ')' :: rest)) = _ :=
    step_opening hf _
  have hys : ys ≠ [] := by
    rintro rfl
    cases h
    exact hne rfl
  obtain ⟨-, hgroups, hnames⟩ := alternate_kept ys (st.openGroup {})
  have hbody : ((st.openGroup {}).alternate ys).body.grouped = groupOf ys := by
    rw [Reading.body, alternate_body hys rfl]
    simp [groupOf, openGroup]
  have hclosing : ((st.openGroup {}).alternate ys).step ')' ([] ++ rest) =
      some (st.add ⟨[groupOf ys], alternateNames ys⟩, rest) := by
    rw [List.nil_append, step_closing, closeGroup_eq hgroups hnames, hbody]
    rfl
  have htext : Pattern.group "(?:" (joinAlternatives sources) ")" ++ rest =
      '(' :: (['?', ':'] ++ (joinAlternatives sources ++ ')' :: rest)) := by
    simp [Pattern.group]
  have hf₁ : (st.openGroup {}).flags = {} := rfl
  rw [htext, goOn_step hopening rfl, Reads.alternatives h hf₁]
  exact goOn_step hclosing hnames.symm

/-- A group behind which a star or a plus stands. -/
theorem Reads.repeated {source : List Char} {y : Yield} (h : Reads source y) (once : Bool) :
    ∃ piece : Piece, piece.regex =
        .rep once.toNat none true (Regex.catAll (y.pieces.map (·.regex))) ∧
      Reads (Pattern.group "(?:" source (if once then ")+" else ")*")) ⟨[piece], y.names⟩ := by
  have hreads := Reads.group (.cons h .nil) (List.cons_ne_nil source [])
  refine ⟨⟨.rep once.toNat none true (groupOf [y]).regex, (groupOf [y]).depth + 1, true⟩,
    by rw [groupOf_regex]; rfl, ?_⟩
  intro st rest hf hr
  have hf₁ : (st.add ⟨[groupOf [y]], y.names⟩).flags = {} := hf
  have hrepeat : (st.add ⟨[groupOf [y]], y.names⟩).step (if once then '+' else '*') ([] ++ rest) =
      _ := step_repeat hf₁ rfl rfl hr once
  have htext : Pattern.group "(?:" source (if once then ")+" else ")*") ++ rest =
      Pattern.group "(?:" source ")" ++ ((if once then '+' else '*') :: ([] ++ rest)) := by
    cases once <;> simp [Pattern.group]
  rw [htext]
  refine (hreads st _ hf ?_).trans (goOn_step hrepeat rfl)
  cases once <;> simp

namespace Regex

/-- The expressions spell the texts of the set, one behind the other. -/
def DenoteRow (rs : List Regex) (A : Rows Char) : Prop :=
  ∀ before w rest, Task.Spells before (rs.map .once) w rest ↔ w ∈ A

variable {r : Regex} {rs rs' : List Regex} {A B : Rows Char} {before : Option Char} {w rest : List Char}

theorem denoteRow_nil : DenoteRow [] 1 := by
  intro before w rest
  rw [List.map_nil, Task.Spells.nil_iff, Language.mem_one]

theorem DenoteRow.append (h : DenoteRow rs A) (h' : DenoteRow rs' B) :
    DenoteRow (rs ++ rs') (A * B) := by
  intro before w rest
  rw [List.map_append, Task.Spells.append_iff, mem_mul_iff]
  simp only [h _ _ _, h' _ _ _]

theorem denoteRow_singleton : DenoteRow [r] A ↔ r.Denotes A := Iff.rfl

theorem spells_catAll (rs : List Regex) : Task.Spells before [.once (catAll rs)] w rest ↔
    Task.Spells before (rs.map .once) w rest := by
  induction rs generalizing before w with
  | nil =>
      rw [catAll, Task.Spells.expand_iff (by simp)]
      simp [Frame.expand]
  | cons r rs ih =>
      cases rs with
      | nil => rfl
      | cons r' rs =>
          rw [catAll.eq_3 _ _ (by simp), Task.Spells.expand_iff (by simp)]
          simp only [Frame.expand, List.mem_singleton, exists_eq_left]
          rw [List.map_cons, Task.Spells.cons_iff, Task.Spells.cons_iff]
          simp only [ih]

theorem DenoteRow.catAll (h : DenoteRow rs A) : (catAll rs).Denotes A :=
  fun before w rest => (spells_catAll rs).trans (h before w rest)

theorem denotes_altAll {As : List (Rows Char)} (h : List.Forall₂ Denotes rs As) (hne : rs ≠ []) :
    (altAll rs).Denotes As.sum := by
  induction h with
  | nil => exact absurd rfl hne
  | @cons r A rs As hr h ih =>
      cases h with
      | nil =>
          rw [List.sum_singleton]
          exact hr
      | @cons r' A' rs As hr' h =>
          rw [List.sum_cons]
          exact hr.alt (ih (List.cons_ne_nil _ _))

end Regex

/-- Wherever the pattern stands, it spells the texts of the set. -/
def Renders (source : List Char) (A : Rows Char) : Prop :=
  source.head? ≠ some '?' ∧ ∃ pieces, Reads source ⟨pieces, []⟩ ∧
    Regex.DenoteRow (pieces.map (·.regex)) A

namespace Renders

variable {s t : List Char} {A B : Rows Char}

theorem nil : Renders [] 1 := ⟨nofun, [], .nil, Regex.denoteRow_nil⟩

theorem append (h : Renders s A) (h' : Renders t B) : Renders (s ++ t) (A * B) := by
  obtain ⟨hs, ps, hps, hA⟩ := h
  obtain ⟨ht, qs, hqs, hB⟩ := h'
  refine ⟨?_, ps ++ qs, hps.append hqs ht, by rw [List.map_append]; exact hA.append hB⟩
  cases s with
  | nil => exact ht
  | cons c s => exact hs

theorem text (w : List Char) : Renders (escape w) {w} := by
  refine ⟨Reads.head?_escape w, _, Reads.escape_text w, ?_⟩
  induction w with
  | nil => exact Regex.denoteRow_nil
  | cons c w ih =>
      have hcons : ({c :: w} : Rows Char) = {[c]} * {w} := by
        ext x
        rw [Regex.mem_mul_iff]
        constructor
        · rintro rfl
          exact ⟨[c], w, rfl, rfl, rfl⟩
        · rintro ⟨u, v, rfl, rfl, rfl⟩
          rfl
      rw [hcons]
      exact (Regex.denoteRow_singleton.2 (Regex.denotes_char c)).append ih

theorem choice {sources : List (List Char)} {As : List (Rows Char)}
    (h : List.Forall₂ Renders sources As) (hne : sources ≠ []) :
    Renders (Pattern.group "(?:" (joinAlternatives sources) ")") As.sum := by
  have hyields : ∃ ys, List.Forall₂ Reads sources ys ∧ alternateNames ys = [] ∧
      List.Forall₂ Regex.Denotes (ys.map fun y => Regex.catAll (y.pieces.map (·.regex))) As := by
    clear hne
    induction h with
    | nil => exact ⟨[], .nil, rfl, .nil⟩
    | cons hs _ ih =>
        obtain ⟨-, ps, hps, hA⟩ := hs
        obtain ⟨ys, hreads, hnames, hdenote⟩ := ih
        refine ⟨⟨ps, []⟩ :: ys, .cons hps hreads, ?_, .cons hA.catAll hdenote⟩
        rw [alternateNames, hnames]
        rfl
  obtain ⟨ys, hreads, hnames, hdenote⟩ := hyields
  have hgroup := Reads.group hreads hne
  rw [hnames] at hgroup
  refine ⟨by simp [Pattern.group], [groupOf ys], hgroup, Regex.denoteRow_singleton.2 ?_⟩
  show (groupOf ys).regex.Denotes _
  rw [groupOf_regex]
  refine Regex.denotes_altAll hdenote fun hnil => ?_
  cases hreads with
  | nil => exact hne rfl
  | cons => cases hnil

theorem repeated (h : Renders s A) (once : Bool) :
    Renders (Pattern.group "(?:" s (if once then ")+" else ")*")) (if once then A * A∗ else A∗) := by
  obtain ⟨-, ps, hps, hA⟩ := h
  obtain ⟨piece, hregex, hreads⟩ := hps.repeated once
  refine ⟨by simp [Pattern.group], [piece], hreads, Regex.denoteRow_singleton.2 ?_⟩
  show piece.regex.Denotes _
  rw [hregex]
  cases once
  · exact hA.catAll.many true
  · exact hA.catAll.many1 true

end Renders

end EarleyTree.Pattern

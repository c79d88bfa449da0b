import EarleyTree.Proofs.Pattern.Actions
import EarleyTree.Proofs.Pattern.Sources

/-!
Texts that fill a group: the parenthesis behind such a text closes the group, and nothing in it does.
It is read in a group just as it is read by itself, whatever else is open around the group.
-/
namespace EarleyTree.Pattern

variable {st st' outer : Reading} {a : Action} {c : Char} {cs rest text : List Char} {n : Nat}

namespace Reading

/-- The reading inside of all that is open in another one. -/
def within (outer st : Reading) : Reading :=
  { st with groups := st.groups ++ outer.groups, names := st.names ++ outer.names }

theorem names_suffix_apply (h : a.apply st = some st') : st.names <:+ st'.names := by
  cases a with
  | passes | sets | separates | pushes =>
      cases h
      exact List.suffix_refl _
  | opens flags name =>
      cases name with
      | none =>
          cases h
          exact List.suffix_refl _
      | some name =>
          rw [Action.apply] at h
          split at h
          · cases h
          · cases h
            exact List.suffix_cons name st.names
  | closes =>
      rw [Action.apply, closeGroup] at h
      split at h
      · cases h
      · cases h
        exact List.suffix_refl _
  | repeats =>
      rw [Action.apply, repeatLast] at h
      split at h
      · cases h
      · split at h
        · cases h
          exact List.suffix_refl _
        · cases h

/-- What is open around does not matter to an action, but for the names that are given already. -/
theorem apply_within (h : a.apply st = some st') (hn : (st.names ++ outer.names).Nodup) :
    a.apply (outer.within st) =
      if (st'.names ++ outer.names).Nodup then some (outer.within st') else none := by
  cases a with
  | passes | sets | separates | pushes =>
      cases h
      exact (if_pos hn).symm
  | opens flags name =>
      cases name with
      | none =>
          cases h
          exact (if_pos hn).symm
      | some name =>
          rw [Action.apply] at h
          split at h
          · cases h
          · cases h
            have hnodup : (name :: st.names ++ outer.names).Nodup ↔ name ∉ st.names ++ outer.names := by
              rw [List.cons_append, List.nodup_cons, and_iff_left hn]
            by_cases hm : name ∈ st.names ++ outer.names
            · exact (if_pos (List.contains_iff_mem.2 hm)).trans (if_neg (mt hnodup.1 (not_not.2 hm))).symm
            · refine (if_neg (mt List.contains_iff_mem.1 hm)).trans ?_
              exact (if_pos (hnodup.2 hm)).symm
  | closes =>
      rw [Action.apply, closeGroup] at h
      split at h
      · cases h
      · next group groups hg =>
          cases h
          rw [Action.apply, closeGroup, within, hg]
          exact (if_pos hn).symm
  | repeats min max lazy =>
      rw [Action.apply, repeatLast] at h
      split at h
      · cases h
      · next last before hs =>
          split at h
          · next hr =>
              cases h
              rw [Action.apply, repeatLast, within, hs]
              exact (if_pos hr).trans (if_pos hn).symm
          · cases h

theorem step_within (h : st.step c cs = some (st', rest)) (hr : rest ≠ [])
    (hn : (st.names ++ outer.names).Nodup) (more : List Char) :
    rest <:+ cs ∧ (outer.within st).step c (cs ++ more) =
      if (st'.names ++ outer.names).Nodup then some (outer.within st', rest ++ more) else none := by
  rw [step_eq] at h
  obtain ⟨⟨a, rest'⟩, ha, h⟩ := Option.bind_eq_some_iff.1 h
  obtain ⟨st₁, hst, he⟩ := Option.map_eq_some_iff.1 h
  obtain ⟨rfl, rfl⟩ : st₁ = st' ∧ rest' = rest := Prod.mk.inj he
  obtain ⟨hs, hmore⟩ := readAction_stable (q := fun _ => true) st.flags c cs more a rest' ha
  have hany : rest'.any (fun _ => true) = true := by
    cases rest' with
    | nil => exact absurd rfl hr
    | cons => rfl
  refine ⟨hs, ?_⟩
  have hflags : (outer.within st).flags = st.flags := rfl
  rw [step_eq, hflags, hmore hany, Option.bind_some]
  dsimp only
  rw [apply_within hst hn]
  split <;> rfl

theorem names_suffix_step (h : st.step c cs = some (st', rest)) : st.names <:+ st'.names := by
  rw [step_eq] at h
  obtain ⟨⟨a, rest'⟩, -, h⟩ := Option.bind_eq_some_iff.1 h
  obtain ⟨st₁, hst, he⟩ := Option.map_eq_some_iff.1 h
  obtain rfl : st₁ = st' := (Prod.mk.inj he).1
  exact names_suffix_apply hst

/-- Reads the text with a parenthesis behind it that is left over. -/
def fill : List Char → Nat → Reading → Option Reading
  | [], n, st => if n = 0 then some st else none
  | _ :: cs, n + 1, st => fill cs n st
  | c :: cs, 0, st =>
    (st.step c (cs ++ [')'])).bind fun e => fill cs (cs.length + 1 - e.2.length) e.1

theorem fill_le (h : fill text n st = some st') : n ≤ text.length := by
  induction text generalizing n with
  | nil =>
      rw [fill] at h
      split at h
      · next hn => exact Nat.le_of_eq hn
      · cases h
  | cons c text ih =>
      cases n with
      | zero => exact Nat.zero_le _
      | succ n => exact Nat.succ_le_succ (ih h)

/-- The induction is on the text. A step that used up the parenthesis would leave the text unfilled. -/
theorem names_suffix_fill (h : fill text n st = some st') : st.names <:+ st'.names := by
  induction text generalizing n st with
  | nil =>
      rw [fill] at h
      split at h
      · cases h
        exact List.suffix_refl _
      · cases h
  | cons c text ih =>
      cases n with
      | succ n => exact ih h
      | zero =>
          obtain ⟨⟨st₁, rest⟩, hstep, h⟩ := Option.bind_eq_some_iff.1 h
          exact (names_suffix_step hstep).trans (ih h)

theorem finish_within (h : fill text n st = some st') (hn : (st.names ++ outer.names).Nodup)
    (rest : List Char) : finish (text ++ ')' :: rest) n (outer.within st) =
      if (st'.names ++ outer.names).Nodup then finish (')' :: rest) 0 (outer.within st') else none := by
  induction text generalizing n st with
  | nil =>
      rw [fill] at h
      split at h
      · next hzero =>
          cases h
          rw [hzero, if_pos hn]
          rfl
      · cases h
  | cons c text ih =>
      cases n with
      | succ n => exact ih h hn
      | zero =>
          obtain ⟨⟨st₁, left⟩, hstep, h⟩ := Option.bind_eq_some_iff.1 h
          have hleft : left ≠ [] := by
            rintro rfl
            have hle := fill_le h
            rw [List.length_nil] at hle
            exact Nat.not_succ_le_self _ hle
          obtain ⟨hs, hwithin⟩ := step_within hstep hleft hn rest
          rw [List.append_assoc] at hwithin
          rw [List.cons_append, finish]
          have hwithin : (outer.within st).step c (text ++ ')' :: rest) = _ := hwithin
          rw [hwithin]
          -- A name that is given both inside and outside ends the reading, here or later on.
          by_cases hn₁ : (st₁.names ++ outer.names).Nodup
          · rw [if_pos hn₁]
            dsimp only
            have hlength : (text ++ ')' :: rest).length - (left ++ rest).length =
                text.length + 1 - left.length := by
              simp only [List.length_append, List.length_cons]
              omega
            rw [hlength]
            exact ih h hn₁
          · rw [if_neg hn₁, if_neg]
            intro hn'
            obtain ⟨front, hfront⟩ := names_suffix_fill h
            rw [← hfront, List.append_assoc] at hn'
            exact hn₁ hn'.of_append_right

theorem goOn_within (h : fill text 0 st = some st') (rest : List Char) :
    (outer.within st).goOn (text ++ ')' :: rest) = (outer.within st').goOn (')' :: rest) := by
  rw [goOn, goOn]
  by_cases hn : (outer.within st).names.Nodup
  · rw [if_pos hn]
    exact finish_within h hn rest
  · rw [if_neg hn, if_neg]
    intro hn'
    obtain ⟨front, hfront⟩ := names_suffix_fill h
    rw [within, ← hfront, List.append_assoc] at hn'
    exact hn hn'.of_append_right

end Reading

open Reading

/-- The text with these flags fills a group: no group is open behind it, and it closes only groups
that it opens. -/
def fillsGroup (letters text : List Char) : Bool :=
  (Flags.setAll? {} letters).any fun flags =>
    (Reading.fill text 0 { flags := flags }).any (·.groups.isEmpty)

theorem not_isFlagEnd_of_foldlM {fl fl' : Flags} {value : Bool} {letters : List Char}
    (h : letters.foldlM (·.set? value ·) fl = some fl') : ∀ c ∈ letters, isFlagEnd c = false := by
  induction letters generalizing fl with
  | nil => exact fun c hc => absurd hc List.not_mem_nil
  | cons d letters ih =>
      rw [List.foldlM_cons] at h
      obtain ⟨fl₁, hd, h⟩ := Option.bind_eq_some_iff.1 h
      refine List.forall_mem_cons.2 ⟨Bool.eq_false_iff.2 fun hend => ?_, ih h⟩
      rw [isFlagEnd, Bool.or_eq_true, beq_iff_eq, beq_iff_eq] at hend
      obtain rfl | rfl := hend <;> cases hd

theorem not_isFlagEnd_of_setAll? {fl fl' : Flags} {letters : List Char}
    (h : fl.setAll? letters = some fl') : ∀ c ∈ letters, isFlagEnd c = false := by
  rw [Flags.setAll?] at h
  dsimp only at h
  split at h
  · cases h
  · obtain ⟨fl₁, hon, hoff⟩ := Option.bind_eq_some_iff.1 h
    intro c hc
    rw [← @List.takeWhile_append_dropWhile _ (· != '-') letters] at hc
    obtain hc | hc := List.mem_append.1 hc
    · exact not_isFlagEnd_of_foldlM hon c hc
    · have hoff := not_isFlagEnd_of_foldlM hoff
      have hhyphen := List.head?_dropWhile_not (· != '-') letters
      cases hd : letters.dropWhile (· != '-') with
      | nil => exact absurd (hd ▸ hc) List.not_mem_nil
      | cons d off =>
          rw [hd] at hc hoff hhyphen
          obtain rfl | hc := List.mem_cons.1 hc
          · obtain rfl : c = '-' := by simpa using hhyphen
            rfl
          · exact hoff c hc

theorem readGroup_flags {flags : Flags} {letters : List Char} (h : Flags.setAll? {} letters = some flags)
    (rest : List Char) :
    readGroup {} (letters ++ ':' :: rest) = some (.opens flags none, rest) := by
  have hend : ∀ c ∈ letters, (!isFlagEnd c) = true := fun c hc => by
    rw [not_isFlagEnd_of_setAll? h c hc]
    rfl
  have hflags : readFlags {} (letters ++ ':' :: rest) = some (.opens flags none, rest) := by
    rw [readFlags, List.takeWhile_append_of_pos hend, List.dropWhile_append_of_pos hend]
    have htake : (':' :: rest).takeWhile (!isFlagEnd ·) = [] := rfl
    rw [htake, List.append_nil, h]
    rfl
  cases letters with
  | nil => exact hflags
  | cons c letters =>
      have hne {d : Char} (hset : ∀ (fl : Flags) value, fl.set? value d = none) (hd : d ≠ '-') : c ≠ d := by
        rintro rfl
        cases (setAll?_eq_none hset hd {} letters).symm.trans h
      rw [List.cons_append, readGroup, if_neg (hne (fun _ _ => rfl) (by decide)),
        if_neg fun hP => hne (fun _ _ => rfl) (by decide) hP.1]
      exact hflags

theorem step_group {flags : Flags} {letters : List Char} (h : Flags.setAll? {} letters = some flags)
    (hf : st.flags = {}) (rest : List Char) :
    st.step '(' ('?' :: (letters ++ ':' :: rest)) = some (st.openGroup flags, rest) := by
  have hpiece : readPiece {} '(' ('?' :: (letters ++ ':' :: rest)) =
      readGroup {} (letters ++ ':' :: rest) := rfl
  rw [step_eq, hf, readAction, Flags.skip_cons {} (by decide) (by decide), List.length_cons,
    if_neg (Nat.not_succ_le_self _), hpiece, readGroup_flags h]
  rfl

/-- A text that fills a group is one element, wherever the group stands. -/
theorem Reads.filled {letters text : List Char} (h : fillsGroup letters text = true) :
    ∃ y, Reads (Pattern.group "(?" letters ":" ++ Pattern.group "" text ")") y := by
  obtain ⟨flags, hflags, h⟩ := (Option.any_eq_true _ _).1 h
  obtain ⟨st', hfill, hgroups⟩ := (Option.any_eq_true _ _).1 h
  refine ⟨⟨[st'.body.grouped], st'.names⟩, fun st rest hf hr => ?_⟩
  have hopening : st.step '(' ('?' :: letters ++ [':'] ++ (text ++ ')' :: rest)) =
      some (st.openGroup flags, text ++ ')' :: rest) := by
    rw [List.append_assoc]
    exact step_group hflags hf (text ++ ')' :: rest)
  have hopen : ((st.openGroup flags).within st').groups =
      ⟨st.flags, st.alternatives, st.sequence⟩ :: st.groups := by
    rw [within, List.isEmpty_iff.1 hgroups]
    rfl
  have hclosing : ((st.openGroup flags).within st').step ')' ([] ++ rest) =
      some (st.add ⟨[st'.body.grouped], st'.names⟩, rest) := by
    rw [List.nil_append, step_closing, closeGroup_eq hopen rfl]
    rfl
  have htext : Pattern.group "(?" letters ":" ++ Pattern.group "" text ")" ++ rest =
      '(' :: ('?' :: letters ++ [':'] ++ (text ++ ')' :: rest)) := by
    simp [Pattern.group]
  rw [htext, goOn_step hopening rfl]
  exact (goOn_within hfill rest).trans (goOn_step hclosing rfl)

end EarleyTree.Pattern

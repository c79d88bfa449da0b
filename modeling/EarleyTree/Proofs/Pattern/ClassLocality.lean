import EarleyTree.Proofs.Pattern.Locality

/-!
A class is read in the same way whatever stands behind it. Inside of it the bracket that closes it is
still to come, and that keeps the reader from looking any further.
-/
namespace EarleyTree.Pattern

variable {fl : Flags} {cs rest more : List Char} {p q : Char → Bool} {b c : Char}

theorem mem_dropWhile (h : b ∈ cs) (hb : p b = false) : b ∈ cs.dropWhile p := by
  rw [← @List.takeWhile_append_dropWhile _ p cs] at h
  obtain h | h := List.mem_append.1 h
  · cases (List.all_eq_true.1 List.all_takeWhile b h).symm.trans hb
  · exact h

theorem dropWhile_append_of_ne (h : cs.dropWhile p ≠ []) (more : List Char) :
    (cs ++ more).dropWhile p = cs.dropWhile p ++ more := by
  rw [List.dropWhile_append, if_neg (by simpa using h)]

theorem takeWhile_append_of_ne (h : cs.dropWhile p ≠ []) (more : List Char) :
    (cs ++ more).takeWhile p = cs.takeWhile p := by
  refine List.takeWhile_append.trans (if_neg fun hlen => h ?_)
  have hsum := congrArg List.length (@List.takeWhile_append_dropWhile _ p cs)
  rw [List.length_append, hlen] at hsum
  exact List.eq_nil_of_length_eq_zero (by omega)

theorem mem_of_any (h : cs.any (· == b) = true) : b ∈ cs := by
  obtain ⟨c, hc, he⟩ := List.any_eq_true.1 h
  exact eq_of_beq he ▸ hc

theorem Flags.peek_eq (fl : Flags) (c : Char) (cs : List Char) : fl.peek (c :: cs) =
    if fl.extended then
      match cs.dropWhile Text.isBlank with
      | [] => cs.head?
      | d :: ds => if d = '#' then (ds.dropWhile Text.isBlank).head?.or cs.head? else some d
    else cs.head? := by
  rw [peek, List.tail_cons]
  dsimp only
  cases cs.dropWhile Text.isBlank with
  | nil => rfl
  | cons d ds =>
      by_cases hd : d = '#'
      · subst hd
        rfl
      · dsimp only
        rw [if_neg hd]
        split
        · split
          · next h =>
              cases h
              exact absurd rfl hd
          · next h =>
              cases h
              rfl
          · next h => cases h
        · rfl

theorem Flags.peek_append (fl : Flags) (h : ']' ∈ cs) (more : List Char) :
    fl.peek (c :: (cs ++ more)) = fl.peek (c :: cs) := by
  have hdrop {ds : List Char} (h : ']' ∈ ds) :
      (ds ++ more).dropWhile Text.isBlank = ds.dropWhile Text.isBlank ++ more :=
    dropWhile_append_of_ne (List.ne_nil_of_mem (mem_dropWhile h (by decide))) more
  have hhead {ds : List Char} (h : ']' ∈ ds) : (ds ++ more).head? = ds.head? := by
    cases ds with
    | nil => cases h
    | cons d ds => rfl
  rw [peek_eq, peek_eq, hdrop h, hhead h]
  have hmem : ']' ∈ cs.dropWhile Text.isBlank := mem_dropWhile h (by decide)
  cases hds : cs.dropWhile Text.isBlank with
  | nil => exact absurd (hds ▸ hmem) List.not_mem_nil
  | cons d ds =>
      rw [hds] at hmem
      rw [List.cons_append]
      dsimp only
      by_cases hd : d = '#'
      · have hcomment : ']' ∈ ds := by
          refine (List.mem_cons.1 hmem).resolve_left fun he => ?_
          cases he.trans hd
        rw [hdrop hcomment, hhead (mem_dropWhile hcomment (by decide))]
      · rw [if_neg hd, if_neg hd]

/-- The name of a class has no bracket in it. -/
theorem not_mem_of_asciiClass {name : List Char} {ranges : List (Nat × Nat)}
    (h : asciiClasses.lookup (String.ofList name) = some ranges) : ']' ∉ name := by
  have hall : asciiClasses.all (fun e => !e.1.toList.contains ']') = true := by decide +kernel
  obtain ⟨before, after, he, -⟩ := List.lookup_eq_some_iff.1 h
  have hname := List.all_eq_true.1 hall (String.ofList name, ranges)
    (he ▸ List.mem_append_right before List.mem_cons_self)
  simpa using hname

/-- What `readAsciiClass` does behind the sign of a negation. -/
def readClassName (negated : Bool) (cs : List Char) : Option (Bool × CharSet × List Char) :=
  match cs.dropWhile (· != ':') with
  | ':' :: ']' :: rest =>
    (asciiClasses.lookup (String.ofList (cs.takeWhile (· != ':')))).map fun ranges =>
      (negated, .ofRanges ranges, rest)
  | _ => none

theorem readClassName_eq_none (negated : Bool) (h : ']' ∈ cs.takeWhile (· != ':')) :
    readClassName negated cs = none := by
  rw [readClassName]
  split
  · rw [Option.map_eq_none_iff]
    exact Option.eq_none_iff_forall_ne_some.2 fun ranges hr => not_mem_of_asciiClass hr h
  · rfl

theorem readClassName_append (negated : Bool) (h : ']' ∈ cs) (more : List Char) :
    readClassName negated (cs ++ more) =
      (readClassName negated cs).map fun e => (e.1, e.2.1, e.2.2 ++ more) := by
  by_cases hb : ']' ∈ cs.takeWhile (· != ':')
  · have hb' : ']' ∈ (cs ++ more).takeWhile (· != ':') := by
      rw [List.takeWhile_append]
      split
      · exact List.mem_append_left _ h
      · exact hb
    rw [readClassName_eq_none negated hb, readClassName_eq_none negated hb']
    rfl
  · have hmem : ']' ∈ cs.dropWhile (· != ':') := by
      rw [← @List.takeWhile_append_dropWhile _ (· != ':') cs] at h
      exact (List.mem_append.1 h).resolve_left hb
    have hhead := List.head?_dropWhile_not (· != ':') cs
    have hne := List.ne_nil_of_mem hmem
    rw [readClassName, readClassName, dropWhile_append_of_ne hne, takeWhile_append_of_ne hne]
    generalize cs.dropWhile (· != ':') = ds at hmem hhead ⊢
    obtain - | ⟨d, - | ⟨e, ds⟩⟩ := ds
    · cases hmem
    · obtain rfl := List.mem_singleton.1 hmem
      cases hhead
    · rw [List.cons_append, List.cons_append]
      split
      · next he =>
          cases he
          cases asciiClasses.lookup (String.ofList (cs.takeWhile (· != ':'))) <;> rfl
      · next he =>
          split
          · next he' =>
              cases he'
              exact (he _ rfl).elim
          · rfl

theorem readAsciiClass_cons (c : Char) (cs : List Char) : readAsciiClass (c :: cs) =
    if c = ':' then
      if cs.head? = some '^' then readClassName true cs.tail else readClassName false cs
    else none := by
  by_cases hc : c = ':'
  · subst hc
    rw [if_pos rfl]
    by_cases hhead : cs.head? = some '^'
    · obtain ⟨ds, rfl⟩ := List.head?_eq_some_iff.1 hhead
      rfl
    · rw [if_neg hhead, readAsciiClass]
      · rfl
      · rintro ds rfl
        exact hhead rfl
  · rw [if_neg hc, readAsciiClass]
    rintro cs' ⟨⟩
    exact hc rfl

theorem readAsciiClass_append (h : ']' ∈ cs) (more : List Char) : readAsciiClass (cs ++ more) =
    (readAsciiClass cs).map fun e => (e.1, e.2.1, e.2.2 ++ more) := by
  obtain - | ⟨c, cs⟩ := cs
  · cases h
  · rw [List.cons_append, readAsciiClass_cons, readAsciiClass_cons]
    by_cases hc : c = ':'
    · have hmem : ']' ∈ cs := (List.mem_cons.1 h).resolve_left fun he => by cases he.trans hc
      obtain - | ⟨d, ds⟩ := cs
      · cases hmem
      · rw [if_pos hc, if_pos hc, List.cons_append]
        by_cases hd : d = '^'
        · subst hd
          exact readClassName_append true ((List.mem_cons.1 hmem).resolve_left (by decide)) more
        · rw [if_neg (by simpa using hd), if_neg (by simpa using hd)]
          exact readClassName_append false hmem more
    · rw [if_neg hc, if_neg hc]
      rfl

/-- The member that an escape stands for; a boundary is none. -/
def Flags.memberOf (fl : Flags) (e : Escape × List Char) : Option (ClassMember × List Char) :=
  match e.1 with
  | .literal c _ => if ¬ fl.unicode ∧ 127 < c.toNat then none else some (.literal c, e.2)
  | .charSet s => some (.set s, e.2)
  | .boundary _ _ => none

theorem readAsciiClass_suffix {e : Bool × CharSet × List Char} (h : readAsciiClass cs = some e) :
    e.2.2 <:+ cs := by
  have hname {negated : Bool} {ds : List Char} (h : readClassName negated ds = some e) : e.2.2 <:+ ds := by
    rw [readClassName] at h
    split at h
    · next rest hds =>
        obtain ⟨ranges, -, rfl⟩ := Option.map_eq_some_iff.1 h
        refine .trans ?_ (List.dropWhile_suffix (· != ':'))
        rw [hds]
        exact (List.suffix_cons ']' rest).trans (List.suffix_cons ':' _)
    · cases h
  obtain - | ⟨c, cs⟩ := cs
  · cases h
  · rw [readAsciiClass_cons] at h
    refine .trans ?_ (List.suffix_cons c cs)
    split at h
    · split at h
      · exact (hname h).trans (List.tail_suffix cs)
      · exact hname h
    · cases h

theorem Flags.readMember_eq (fl : Flags) (c : Char) (cs : List Char) : fl.readMember c cs =
    if c == '\\' then (fl.readEscape cs).bind fl.memberOf
    else fl.memberOf (.literal c false, cs) := by
  rw [readMember]
  split
  · obtain - | ⟨- | - | -, rest⟩ := fl.readEscape cs <;> rfl
  · rfl

theorem Flags.readMember_stable (fl : Flags) (c : Char) (cs more : List Char) :
    Stable q cs more (fl.readMember c cs) (fl.readMember c (cs ++ more)) := by
  have hmember (e : Escape) (rest : List Char) :
      Stable q rest more (fl.memberOf (e, rest)) (fl.memberOf (e, rest ++ more)) := by
    rw [memberOf, memberOf]
    cases e with
    | literal c raw =>
        dsimp only
        split
        · exact .none
        · exact .pure (List.suffix_refl _)
    | charSet s => exact .pure (List.suffix_refl _)
    | boundary letter name => exact .none
  rw [readMember_eq, readMember_eq]
  split
  · exact (fl.readEscape_stable cs more).bind fun e rest _ => hmember e rest
  · exact hmember _ cs

def ClassReading.pushMember (st : ClassReading) : ClassMember → ClassReading
  | .literal c => st.pushSet (.char c)
  | .set s => st.pushSet s

/-- What `readRange` does behind the hyphen. -/
def ClassReading.readRangeTo (fl : Flags) (st : ClassReading) (first : ClassMember) :
    List Char → Option (ClassReading × List Char)
  | [] => none
  | c :: cs => (fl.readMember c cs).bind fun e =>
    match first, e.1 with
    | .literal lo, .literal hi =>
      if lo ≤ hi then some (st.pushSet (.range lo.toNat hi.toNat), e.2) else none
    | _, _ => none

/-- What `readRange` does behind the first member. -/
def ClassReading.readRangeFrom (fl : Flags) (st : ClassReading) (first : ClassMember) :
    List Char → Option (ClassReading × List Char)
  | [] => none
  | c :: cs =>
    if c = '-' then
      if fl.peek (c :: cs) == some ']' || fl.peek (c :: cs) == some '-' then
        some (st.pushMember first, c :: cs)
      else st.readRangeTo fl first (fl.skip cs)
    else some (st.pushMember first, c :: cs)

theorem ClassReading.readRange_eq (fl : Flags) (st : ClassReading) (c : Char) (cs : List Char) :
    st.readRange fl c cs =
      (fl.readMember c cs).bind fun e => st.readRangeFrom fl e.1 (fl.skip e.2) := by
  rw [readRange, Option.bind_eq_bind]
  refine congrArg _ (funext fun ⟨first, rest⟩ => ?_)
  dsimp only
  cases fl.skip rest with
  | nil => rfl
  | cons d ds =>
      rw [readRangeFrom]
      by_cases hd : d = '-'
      · subst hd
        rw [if_pos rfl]
        split
        · next h => cases h
        · next h =>
            cases h
            cases fl.skip ds <;> cases first <;> rfl
        · next h => exact (h _ rfl).elim
      · rw [if_neg hd]
        split
        · next h => cases h
        · next h =>
            cases h
            exact absurd rfl hd
        · cases first <;> rfl

theorem ClassReading.readRangeTo_stable (fl : Flags) (st : ClassReading) (first : ClassMember)
    (cs more : List Char) :
    Stable q cs more (st.readRangeTo fl first cs) (st.readRangeTo fl first (cs ++ more)) := by
  cases cs with
  | nil => exact .none
  | cons c cs =>
      refine .mono ?_ (List.suffix_cons c cs)
      refine (fl.readMember_stable c cs more).bind fun last rest _ => ?_
      dsimp only
      split
      · split
        · exact .pure (List.suffix_refl _)
        · exact .none
      · exact .none

theorem ClassReading.readRange_stable (fl : Flags) (st : ClassReading) (c : Char) (cs more : List Char) :
    Stable (· == ']') cs more (st.readRange fl c cs) (st.readRange fl c (cs ++ more)) := by
  rw [readRange_eq, readRange_eq]
  refine (fl.readMember_stable c cs more).bind fun first rest _ => ?_
  refine .skip fl fun ds _ => ?_
  cases ds with
  | nil => exact .none
  | cons d ds =>
      rw [List.cons_append, readRangeFrom, readRangeFrom]
      by_cases hd : d = '-'
      · have hpeek (h : (d :: ds).any (· == ']') = true) :
            fl.peek (d :: (ds ++ more)) = fl.peek (d :: ds) := by
          refine fl.peek_append ((List.mem_cons.1 (mem_of_any h)).resolve_left fun he => ?_) more
          cases he.trans hd
        rw [if_pos hd, if_pos hd]
        split
        · next hp =>
            rintro _ _ ⟨⟩
            refine ⟨List.suffix_refl _, fun hr => ?_⟩
            rw [hpeek hr, if_pos hp]
            rfl
        · next hp =>
            intro a rest ha
            have hrest : Stable (· == ']') ds more _ _ :=
              .skip fl fun es _ => st.readRangeTo_stable fl first es more
            obtain ⟨hs, hmore⟩ := hrest a rest ha
            have hs' := hs.trans (List.suffix_cons d ds)
            refine ⟨hs', fun hr => ?_⟩
            rw [hpeek (any_of_suffix hs' hr), if_neg hp]
            exact hmore hr
      · rw [if_neg hd, if_neg hd]
        exact .pure (List.suffix_refl _)

namespace ClassReading

variable {st st' : ClassReading}

/-- Whether a negation is wanted, with what comes behind its sign. -/
def openSign (fl : Flags) (cs : List Char) : Bool × List Char :=
  match cs with
  | '^' :: rest => (true, fl.skip rest)
  | _ => (false, cs)

/-- What `openBracket` does behind the hyphens. A bracket may stand for itself if there are none. -/
def openFirst (fl : Flags) (inner : ClassReading) : List Char → List Char →
    Option (ClassReading × List Char)
  | _, [] => none
  | [], ']' :: rest =>
    match fl.skip rest with
    | [] => none
    | rest => some (inner.pushSet (.char ']'), rest)
  | _, cs => some (inner, cs)

/-- What `openBracket` does behind the sign of a negation. -/
def openItems (fl : Flags) (st : ClassReading) (negated : Bool) (cs : List Char) :
    Option (ClassReading × List Char) :=
  let e := fl.takeRun (· == '-') cs.length cs
  openFirst fl ⟨.bracket st.items negated :: st.waiting, e.1.map fun c => ⟨.char c, 0⟩⟩ e.1 e.2

theorem openSign_eq (fl : Flags) (c : Char) (cs : List Char) :
    openSign fl (c :: cs) = if c = '^' then (true, fl.skip cs) else (false, c :: cs) := by
  by_cases hc : c = '^'
  · subst hc
    rfl
  · rw [if_neg hc, openSign]
    rintro cs' ⟨⟩
    exact hc rfl

theorem openBracket_eq (fl : Flags) (st : ClassReading) (cs : List Char) : st.openBracket fl cs =
    st.openItems fl (openSign fl (fl.skip cs)).1 (openSign fl (fl.skip cs)).2 := rfl

theorem openFirst_cons (fl : Flags) (inner : ClassReading) (hyphens : List Char) (c : Char)
    (cs : List Char) : openFirst fl inner hyphens (c :: cs) =
      if hyphens = [] ∧ c = ']' then
        if fl.skip cs = [] then none else some (inner.pushSet (.char ']'), fl.skip cs)
      else some (inner, c :: cs) := by
  rw [openFirst.eq_def]
  split
  · next h => cases h
  · next h =>
      cases h
      rw [if_pos ⟨rfl, rfl⟩]
      split
      · next h => rw [if_pos h]
      · next h => rw [if_neg h]
  · next h =>
      rw [if_neg fun hc => h cs hc.1 (by rw [hc.2])]

theorem openFirst_stable (fl : Flags) (inner : ClassReading) (hyphens cs more : List Char) :
    Stable q cs more (openFirst fl inner hyphens cs) (openFirst fl inner hyphens (cs ++ more)) := by
  cases cs with
  | nil =>
      rw [openFirst]
      exact .none
  | cons c cs =>
      rw [List.cons_append, openFirst_cons, openFirst_cons]
      split
      · refine .mono ?_ (List.suffix_cons c cs)
        have hrest := fl.skip_suffix cs
        obtain hnil | hskip := fl.skip_cases cs more
        · rw [if_pos hnil]
          exact .none
        · rw [hskip]
          split
          · exact .none
          · next h =>
              rw [if_neg (List.append_ne_nil_of_left_ne_nil h more)]
              exact .pure hrest
      · exact .pure (List.suffix_refl _)

theorem openItems_stable (fl : Flags) (st : ClassReading) (negated : Bool) (cs more : List Char) :
    Stable q cs more (st.openItems fl negated cs) (st.openItems fl negated (cs ++ more)) := by
  have hsuffix := fl.takeRun_suffix (· == '-') cs.length cs
  have hcases := fl.takeRun_cases (· == '-') (Nat.le_refl cs.length)
    (show cs.length ≤ (cs ++ more).length by simp) more
  rw [openItems, openItems]
  generalize fl.takeRun (· == '-') cs.length cs = e at hsuffix hcases ⊢
  obtain hnil | hcases := hcases
  · rw [hnil]
    exact .none
  · rw [hcases]
    exact (openFirst_stable fl _ _ e.2 more).mono hsuffix

theorem openBracket_stable (fl : Flags) (st : ClassReading) (cs more : List Char) :
    Stable q cs more (st.openBracket fl cs) (st.openBracket fl (cs ++ more)) := by
  rw [openBracket_eq, openBracket_eq]
  obtain hnil | hskip := fl.skip_cases cs more
  · rw [hnil]
    exact .none
  · rw [hskip]
    refine .mono ?_ (fl.skip_suffix cs)
    cases fl.skip cs with
    | nil => exact .none
    | cons c ds =>
        rw [List.cons_append, openSign_eq, openSign_eq]
        split
        · refine .mono ?_ (List.suffix_cons c ds)
          exact .skip fl fun es _ => st.openItems_stable fl true es more
        · exact st.openItems_stable fl false (c :: ds) more

/-- What the closing bracket does has nothing to do with what stands behind it. -/
theorem close_cases (fl : Flags) (st : ClassReading) : (∀ cs, st.close fl cs = none) ∨
    (∃ st', ∀ cs, st.close fl cs = some (.more st' cs)) ∨
      ∃ item, ∀ cs, st.close fl cs = some (.closed item cs) := by
  simp only [close]
  rcases fl.applyOperator st.waiting (.ofUnion st.items) with ⟨- | ⟨⟨outer, negated⟩ | -, waiting⟩, item⟩
  · exact .inl fun _ => rfl
  · dsimp only
    cases fl.negate negated (fl.closeCase item.set) with
    | none => exact .inl fun _ => rfl
    | some s =>
        cases waiting with
        | nil => exact .inr (.inr ⟨_, fun _ => rfl⟩)
        | cons => exact .inr (.inl ⟨_, fun _ => rfl⟩)
  · exact .inl fun _ => rfl

theorem step_closing (fl : Flags) (st : ClassReading) (cs : List Char) :
    st.step fl ']' cs = st.close fl cs := by
  rw [step]
  dsimp only
  rw [fl.skip_cons (by decide) (by decide), if_neg (by simp)]
  rfl

/-- What a step does that reads a part of the class. -/
def stepMore (fl : Flags) (st : ClassReading) (c : Char) (cs : List Char) :
    Option (ClassReading × List Char) :=
  if c = '[' then
    match readAsciiClass cs with
    | some e => (fl.negate e.1 (fl.closeCase e.2.1)).map fun s => (st.pushSet s, e.2.2)
    | none => st.openBracket fl cs
  else if c = '&' ∧ cs.head? = some '&' then some (st.pushOperator fl .inter, cs.tail)
  else if c = '-' ∧ cs.head? = some '-' then some (st.pushOperator fl .diff, cs.tail)
  else if c = '~' ∧ cs.head? = some '~' then some (st.pushOperator fl .symmDiff, cs.tail)
  else st.readRange fl c cs

theorem step_eq_map (hc : c ≠ ']') (fl : Flags) (st : ClassReading) (cs : List Char) :
    st.step fl c cs = (if (fl.skip (c :: cs)).length ≤ cs.length then some (st, fl.skip (c :: cs))
      else st.stepMore fl c cs).map fun e => .more e.1 e.2 := by
  rw [step]
  dsimp only
  split
  · rfl
  · rw [stepMore]
    split
    · rw [if_pos rfl]
      cases readAsciiClass cs with
      | none => cases st.openBracket fl cs <;> rfl
      | some e =>
          dsimp only
          cases fl.negate e.1 (fl.closeCase e.2.1) <;> rfl
    · exact absurd rfl hc
    · rfl
    · rfl
    · rfl
    · next h _ h₂ h₃ h₄ =>
        have hne {d : Char} (hd : ∀ ds, c = d → cs = d :: ds → False) : ¬(c = d ∧ cs.head? = some d) :=
          fun ⟨he, hcs⟩ => (List.head?_eq_some_iff.1 hcs).elim fun ds hds => hd ds he hds
        rw [if_neg h, if_neg (hne h₂), if_neg (hne h₃), if_neg (hne h₄)]

theorem stepMore_stable (fl : Flags) (st : ClassReading) (c : Char) (cs more : List Char) :
    Stable (· == ']') cs more (st.stepMore fl c cs) (st.stepMore fl c (cs ++ more)) := by
  have hopen := openBracket_stable (q := (· == ']')) fl st cs more
  have hrange := st.readRange_stable fl c cs more
  rw [stepMore, stepMore]
  cases cs with
  | nil =>
      split
      · exact hopen.nil
      · simp only [List.head?_nil, reduceCtorEq, and_false, if_false]
        exact hrange.nil
  | cons d ds =>
      rw [List.cons_append] at hopen hrange ⊢
      rw [List.head?_cons, List.head?_cons, List.tail_cons, List.tail_cons]
      split
      · intro a rest ha
        cases hname : readAsciiClass (d :: ds) with
        | none =>
            rw [hname] at ha
            obtain ⟨hs, hmore⟩ := hopen a rest ha
            refine ⟨hs, fun hr => ?_⟩
            have hclass := readAsciiClass_append (mem_of_any (any_of_suffix hs hr)) more
            rw [List.cons_append, hname] at hclass
            rw [hclass]
            exact hmore hr
        | some e =>
            rw [hname] at ha
            obtain ⟨s, hs, ha⟩ := Option.map_eq_some_iff.1 ha
            cases ha
            have hsuffix := readAsciiClass_suffix hname
            refine ⟨hsuffix, fun hr => ?_⟩
            have hclass := readAsciiClass_append (mem_of_any (any_of_suffix hsuffix hr)) more
            rw [List.cons_append, hname] at hclass
            rw [hclass]
            dsimp only [Option.map_some]
            rw [hs]
            rfl
      · split
        · exact .pure (List.suffix_cons d ds)
        · split
          · exact .pure (List.suffix_cons d ds)
          · split
            · exact .pure (List.suffix_cons d ds)
            · exact hrange

/-- The class ends where it is closed. -/
theorem finish_bracket {n : Nat} {e : SetItem × List Char} (h : finish fl cs n st = some e) :
    ']' ∈ cs.drop n := by
  induction cs generalizing n st with
  | nil => cases n <;> cases h
  | cons c cs ih =>
      cases n with
      | succ n => exact ih h
      | zero =>
          by_cases hc : c = ']'
          · exact List.mem_cons.2 (.inl hc.symm)
          · rw [finish] at h
            split at h
            · cases h
            · next hstep =>
                rw [step_eq_map hc] at hstep
                obtain ⟨_, _, he⟩ := Option.map_eq_some_iff.1 hstep
                cases he
            · exact List.mem_cons_of_mem c (List.mem_of_mem_drop (ih h))

/-- The induction is on the text. At each step that does not end the class, the bracket that closes
it is still among what the step leaves. -/
theorem finish_stable (fl : Flags) (st : ClassReading) (n : Nat) (cs more : List Char) :
    Stable q cs more (finish fl cs n st) (finish fl (cs ++ more) n st) := by
  induction cs generalizing n st with
  | nil => cases n <;> exact .none
  | cons c cs ih =>
      refine .mono ?_ (List.suffix_cons c cs)
      cases n with
      | succ n => exact ih st n
      | zero =>
          rw [List.cons_append, finish, finish]
          by_cases hc : c = ']'
          · subst hc
            rw [step_closing, step_closing]
            obtain hclose | ⟨st', hclose⟩ | ⟨item, hclose⟩ := close_cases fl st
            · rw [hclose]
              exact .none
            · rw [hclose, hclose]
              dsimp only
              rw [Nat.sub_self, Nat.sub_self]
              exact ih st' 0
            · rw [hclose, hclose]
              exact .pure (List.suffix_refl _)
          · have hstep := (st.stepMore_stable fl c cs more).blank fl st (c := c)
            rw [step_eq_map hc, step_eq_map hc]
            intro item rest h
            generalize (if (fl.skip (c :: cs)).length ≤ cs.length then _ else _) = o at hstep h
            cases o with
            | none => cases h
            | some e =>
                obtain ⟨hs, hmore⟩ := hstep e.1 e.2 rfl
                have hdrop : cs.drop (cs.length - e.2.length) = e.2 := (List.suffix_iff_eq_drop.1 hs).symm
                have hbracket := finish_bracket h
                rw [hdrop] at hbracket
                rw [hmore (List.any_eq_true.2 ⟨']', hbracket, rfl⟩)]
                dsimp only [Option.map_some]
                rw [List.length_append, List.length_append, Nat.add_sub_add_right]
                exact ih e.1 _ item rest h

end ClassReading

theorem Flags.readClass_stable (fl : Flags) (cs more : List Char) :
    Stable q cs more (fl.readClass cs) (fl.readClass (cs ++ more)) :=
  (ClassReading.openBracket_stable fl ⟨[], []⟩ cs more).bind fun st rest _ =>
    st.finish_stable fl 0 rest more

end EarleyTree.Pattern

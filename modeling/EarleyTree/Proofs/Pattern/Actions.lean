import EarleyTree.Proofs.Pattern.ClassLocality

/-!
A pattern as a row of actions. What the next action is depends on the flags and the text in front
only, and it does the same whichever groups are open around it.
-/
namespace EarleyTree.Pattern

/-- What the next piece of a pattern does to the reading. -/
inductive Action
  | passes
  | opens (flags : Flags) (name : Option (List Char))
  | sets (flags : Flags)
  | closes
  | separates
  | repeats (min : Nat) (max : Option Nat) (lazy : Bool)
  | pushes (piece : Piece)

def Action.apply (st : Reading) : Action → Option Reading
  | .passes => some st
  | .opens flags none => some (st.openGroup flags)
  | .opens flags (some name) =>
    if st.names.contains name then none
    else some ({ st with names := name :: st.names }.openGroup flags)
  | .sets flags => some ({ st with flags := flags }.push ⟨.empty, 0, false⟩)
  | .closes => st.closeGroup
  | .separates => some st.pushAlternative
  | .repeats min max lazy => st.repeatLast min max lazy
  | .pushes piece => some (st.push piece)

variable {fl : Flags} {cs more : List Char} {q : Char → Bool}

theorem readDecimal_stable (fl : Flags) (cs more : List Char) :
    Stable q cs more (readDecimal fl cs) (readDecimal fl (cs ++ more)) := by
  have hblank := List.dropWhile_suffix (l := cs) Text.isBlank
  have hrun := fl.takeRun_suffix Char.isDigit cs.length (cs.dropWhile Text.isBlank)
  rw [readDecimal, readDecimal]
  by_cases hnil : cs.dropWhile Text.isBlank = []
  · rw [hnil, Flags.takeRun_nil]
    exact .none
  · rw [dropWhile_append_of_ne hnil]
    have hcases := fl.takeRun_cases Char.isDigit hblank.length_le
      (show cs.length ≤ (cs ++ more).length by simp) more
    generalize fl.takeRun Char.isDigit cs.length (cs.dropWhile Text.isBlank) = e at hrun hcases ⊢
    obtain ⟨run, rest⟩ := e
    obtain rfl | hcases := hcases
    · dsimp only
      split
      · exact .none
      · exact .spent
    · rw [hcases]
      dsimp only
      split
      · exact .none
      · intro n rest' h
        cases h
        refine ⟨(List.dropWhile_suffix _).trans (hrun.trans hblank), fun hr => ?_⟩
        rw [dropWhile_append_of_ne (ne_nil_of_any hr)]

theorem readName_eq (names : List (List Char)) (cs : List Char) :
    readName names cs = (readName [] cs).filter fun e => !names.contains e.1 := by
  rw [readName, readName]
  dsimp only
  split
  · next first others _ rest _ _ =>
      rw [List.contains_nil, Bool.not_false, Bool.and_true]
      generalize ((first == '_' || isAlphabetic first) && _) = named
      cases named with
      | false => rfl
      | true => rfl
  · rfl

theorem readName_stable (names : List (List Char)) (cs more : List Char) :
    Stable q cs more (readName names cs) (readName names (cs ++ more)) := by
  by_cases hnil : cs.dropWhile (· != '>') = []
  · have hnone : readName names cs = none := by
      rw [readName, hnil]
      cases cs.takeWhile (· != '>') <;> rfl
    rw [hnone]
    exact .none
  · have hsuffix := List.dropWhile_suffix (l := cs) (· != '>')
    rw [readName, readName, dropWhile_append_of_ne hnil, takeWhile_append_of_ne hnil]
    dsimp only
    generalize cs.dropWhile (· != '>') = ds at hnil hsuffix
    cases ds with
    | nil => exact absurd rfl hnil
    | cons d ds =>
        cases cs.takeWhile (· != '>') with
        | nil => exact .none
        | cons first others =>
            dsimp only [List.cons_append]
            split
            · exact .pure ((List.suffix_cons d ds).trans hsuffix)
            · exact .none

/-- A repetition is lazy if a question mark stands behind it. -/
def readLazy (min : Nat) (max : Option Nat) : List Char → Option (Action × List Char)
  | [] => some (.repeats min max false, [])
  | c :: cs =>
    if c = '?' then some (.repeats min max true, cs) else some (.repeats min max false, c :: cs)

theorem readLazy_stable (min : Nat) (max : Option Nat) (cs more : List Char) :
    Stable q cs more (readLazy min max cs) (readLazy min max (cs ++ more)) := by
  cases cs with
  | nil => exact .spent
  | cons c cs =>
      rw [List.cons_append, readLazy, readLazy]
      split
      · exact .pure (List.suffix_cons c cs)
      · exact .pure (List.suffix_refl _)

/-- The upper bound of a counted repetition, with the brace behind it. -/
def readMax (fl : Flags) (min : Nat) : List Char → Option (Option Nat × List Char)
  | [] => none
  | c :: cs =>
    if c = ',' then
      if (fl.skip cs).head? = some '\x7d' then some (none, (fl.skip cs).tail)
      else (readDecimal fl (fl.skip cs)).bind fun e =>
        if e.2.head? = some '\x7d' then some (some e.1, e.2.tail) else none
    else if c = '\x7d' then some (some min, cs) else none

theorem readMax_stable (fl : Flags) (min : Nat) (cs more : List Char) :
    Stable q cs more (readMax fl min cs) (readMax fl min (cs ++ more)) := by
  cases cs with
  | nil => exact .none
  | cons c cs =>
      refine .mono ?_ (List.suffix_cons c cs)
      rw [List.cons_append, readMax, readMax]
      split
      · refine .skip (k := fun ds => if ds.head? = some '\x7d' then some (none, ds.tail)
          else (readDecimal fl ds).bind fun e =>
            if e.2.head? = some '\x7d' then some (some e.1, e.2.tail) else none) fl fun ds _ => ?_
        cases ds with
        | nil => exact .none
        | cons d ds =>
            rw [List.cons_append, List.head?_cons, List.head?_cons, List.tail_cons, List.tail_cons]
            split
            · exact .pure (List.suffix_cons d ds)
            · refine (readDecimal_stable fl (d :: ds) more).bind fun n rest _ => ?_
              cases rest with
              | nil => exact .none
              | cons e rest =>
                  rw [List.cons_append]
                  dsimp only
                  rw [List.head?_cons, List.head?_cons, List.tail_cons, List.tail_cons]
                  split
                  · exact .pure (List.suffix_cons e rest)
                  · exact .none
      · split
        · exact .pure (List.suffix_refl _)
        · exact .none

/-- What `readCount` reads, as an action. -/
def readRepeat (fl : Flags) (cs : List Char) : Option (Action × List Char) :=
  (readDecimal fl (fl.skip cs)).bind fun e => (readMax fl e.1 e.2).bind fun e' =>
    if e'.1.any (· < e.1) then none else readLazy e.1 e'.1 (fl.skip e'.2)

theorem readRepeat_stable (fl : Flags) (cs more : List Char) :
    Stable q cs more (readRepeat fl cs) (readRepeat fl (cs ++ more)) := by
  have hmin : Stable q cs more (readDecimal fl (fl.skip cs)) (readDecimal fl (fl.skip (cs ++ more))) :=
    .skip fl fun ds _ => readDecimal_stable fl ds more
  refine hmin.bind fun min rest _ => (readMax_stable fl min rest more).bind fun max rest _ => ?_
  dsimp only
  split
  · exact .none
  · exact .skip fl fun ds _ => readLazy_stable min max ds more

theorem readLazy_eq (min : Nat) (max : Option Nat) (cs : List Char) : readLazy min max cs =
    Option.map (fun e : (Nat × Option Nat) × Bool × List Char => (.repeats e.1.1 e.1.2 e.2.1, e.2.2))
      (match cs with
        | '?' :: rest => some ((min, max), true, rest)
        | rest => some ((min, max), false, rest)) := by
  cases cs with
  | nil => rfl
  | cons c cs =>
      rw [readLazy]
      split
      · next h =>
          subst h
          rfl
      · next h =>
          split
          · next he =>
              cases he
              exact absurd rfl h
          · rfl

theorem readRepeat_eq (fl : Flags) (cs : List Char) : readRepeat fl cs =
    (readCount fl cs).map fun e => (.repeats e.1.1 e.1.2 e.2.1, e.2.2) := by
  rw [readCount, readRepeat]
  rcases readDecimal fl (fl.skip cs) with - | ⟨min, rest⟩
  · rfl
  · dsimp only [Option.bind_eq_bind, Option.bind_some]
    split
    · next rest =>
        split
        · next rest' hskip =>
            rw [readMax, if_pos rfl, hskip, List.head?_cons, if_pos rfl]
            exact readLazy_eq min none (fl.skip rest')
        · next hskip =>
            have hmax' : readMax fl min (',' :: rest) = (readDecimal fl (fl.skip rest)).bind fun e =>
                if e.2.head? = some '\x7d' then some (some e.1, e.2.tail) else none := by
              rw [readMax, if_pos rfl]
              exact if_neg fun h => (List.head?_eq_some_iff.1 h).elim hskip
            split
            · next max rest' hmax =>
                rw [hmax', hmax, Option.bind_some, List.head?_cons, if_pos rfl, Option.bind_some]
                dsimp only [List.tail_cons]
                split
                · rfl
                · exact readLazy_eq min (some max) (fl.skip rest')
            · next hmax =>
                rw [hmax']
                rcases hd : readDecimal fl (fl.skip rest) with - | ⟨max, rest'⟩
                · rfl
                · rw [Option.bind_some, if_neg]
                  · rfl
                  · intro h
                    obtain ⟨rest, rfl⟩ := List.head?_eq_some_iff.1 h
                    exact hmax _ _ hd
    · next rest =>
        rw [readMax, if_neg (by decide), if_pos rfl, Option.bind_some]
        dsimp only
        split
        · rfl
        · exact readLazy_eq min (some min) (fl.skip rest)
    · next hcomma hbrace =>
        cases rest with
        | nil => rfl
        | cons c rest =>
            rw [readMax, if_neg fun h => hcomma rest (by rw [h]), if_neg fun h => hbrace rest (by rw [h])]
            rfl

/-- The flags behind the question mark of a group, up to the colon or the parenthesis. -/
def readFlags (fl : Flags) (cs : List Char) : Option (Action × List Char) :=
  (fl.setAll? (cs.takeWhile (!isFlagEnd ·))).bind fun flags =>
    match cs.dropWhile (!isFlagEnd ·) with
    | [] => none
    | c :: rest =>
      if c = ':' then some (.opens flags none, rest)
      else if (cs.takeWhile (!isFlagEnd ·)).isEmpty then none
      else some (.sets flags, rest)

theorem readFlags_stable (fl : Flags) (cs more : List Char) :
    Stable q cs more (readFlags fl cs) (readFlags fl (cs ++ more)) := by
  by_cases hnil : cs.dropWhile (!isFlagEnd ·) = []
  · have hnone : readFlags fl cs = none := by
      rw [readFlags, hnil]
      cases fl.setAll? (cs.takeWhile (!isFlagEnd ·)) <;> rfl
    rw [hnone]
    exact .none
  · have hsuffix := List.dropWhile_suffix (l := cs) (!isFlagEnd ·)
    rw [readFlags, readFlags, dropWhile_append_of_ne hnil, takeWhile_append_of_ne hnil]
    cases fl.setAll? (cs.takeWhile (!isFlagEnd ·)) with
    | none => exact .none
    | some flags =>
        refine .mono ?_ hsuffix
        cases cs.dropWhile (!isFlagEnd ·) with
        | nil => exact .none
        | cons c ds =>
            dsimp only [Option.bind_some, List.cons_append]
            split
            · exact .pure (List.suffix_cons c ds)
            · split
              · exact .none
              · exact .pure (List.suffix_cons c ds)

def readNamed (fl : Flags) (cs : List Char) : Option (Action × List Char) :=
  (readName [] cs).map fun e => (.opens fl (some e.1), e.2)

theorem readNamed_stable (fl : Flags) (cs more : List Char) :
    Stable q cs more (readNamed fl cs) (readNamed fl (cs ++ more)) := by
  rw [readNamed, readNamed]
  exact Stable.map (k := fun name => Action.opens fl (some name)) (readName_stable [] cs more)

/-- What stands behind the question mark of a group. -/
def readGroup (fl : Flags) : List Char → Option (Action × List Char)
  | [] => none
  | c :: cs =>
    if c = '<' then readNamed fl cs
    else if c = 'P' ∧ cs.head? = some '<' then readNamed fl cs.tail
    else readFlags fl (c :: cs)

theorem readGroup_stable (fl : Flags) (cs more : List Char) :
    Stable q cs more (readGroup fl cs) (readGroup fl (cs ++ more)) := by
  have hflags := readFlags_stable (q := q) fl cs more
  cases cs with
  | nil => exact .none
  | cons c cs =>
      rw [List.cons_append] at hflags ⊢
      rw [readGroup, readGroup]
      split
      · exact (readNamed_stable fl cs more).mono (List.suffix_cons c cs)
      · cases cs with
        | nil =>
            rw [List.head?_nil, if_neg (by simp)]
            split
            · next hc =>
                rw [hc.1, readFlags]
                cases fl.setAll? (['P'].takeWhile (!isFlagEnd ·)) <;> exact .none
            · exact hflags
        | cons d ds =>
            rw [List.cons_append, List.head?_cons, List.head?_cons, List.tail_cons, List.tail_cons]
            split
            · refine .mono (readNamed_stable fl ds more) ?_
              exact (List.suffix_cons d ds).trans (List.suffix_cons c _)
            · exact hflags

/-- What an opening parenthesis begins, from the first character that counts. -/
def readFront (fl : Flags) : List Char → Option (Action × List Char)
  | [] => some (.opens fl none, [])
  | c :: cs => if c = '?' then readGroup fl cs else some (.opens fl none, c :: cs)

theorem readFront_stable (fl : Flags) (cs more : List Char) :
    Stable q cs more (readFront fl cs) (readFront fl (cs ++ more)) := by
  cases cs with
  | nil => exact .spent
  | cons c cs =>
      rw [List.cons_append, readFront, readFront]
      split
      · exact (readGroup_stable fl cs more).mono (List.suffix_cons c cs)
      · exact .pure (List.suffix_refl _)

theorem setAll?_eq_none {c : Char} (h : ∀ (fl : Flags) value, fl.set? value c = none) (hc : c ≠ '-')
    (fl : Flags) (cs : List Char) : fl.setAll? (c :: cs) = none := by
  rw [Flags.setAll?]
  dsimp only
  split
  · rfl
  · rw [List.takeWhile_cons_of_pos (by simpa using hc), List.foldlM_cons, h]
    rfl

/-- A look-around is neither a name nor a row of flags. -/
theorem readNamed_eq_none {c : Char} (h : c = '=' ∨ c = '!') (fl : Flags) (cs : List Char) :
    readNamed fl (c :: cs) = none := by
  have hfirst : (c == '_' || isAlphabetic c) = false := by
    obtain rfl | rfl := h <;> decide +kernel
  have hname : readName [] (c :: cs) = none := by
    have hc : (c != '>') = true := by obtain rfl | rfl := h <;> decide
    rw [readName, List.takeWhile_cons_of_pos (p := fun c => c != '>') hc]
    dsimp only
    split
    · next he _ =>
        obtain ⟨rfl, rfl⟩ := List.cons.inj he
        rw [hfirst]
        rfl
    · rfl
  rw [readNamed, hname]
  rfl

theorem readFlags_eq_none {c : Char} (h : c = '=' ∨ c = '!') (fl : Flags) (cs : List Char) :
    readFlags fl (c :: cs) = none := by
  have hc : (!isFlagEnd c) = true := by obtain rfl | rfl := h <;> decide
  rw [readFlags, List.takeWhile_cons_of_pos (p := fun c => !isFlagEnd c) hc, setAll?_eq_none]
  · rfl
  · obtain rfl | rfl := h <;> exact fun _ _ => rfl
  · obtain rfl | rfl := h <;> decide

theorem openParen_named (st : Reading) (cs : List Char) :
    (do
      let (name, rest) ← readName st.names cs
      return ({ st with names := name :: st.names }.openGroup st.flags, rest)) =
    (readNamed st.flags cs).bind fun e => (e.1.apply st).map (·, e.2) := by
  rw [readName_eq, readNamed]
  rcases readName [] cs with - | ⟨name, rest⟩
  · rfl
  · rw [Option.filter_some, Option.map_some, Option.bind_some]
    dsimp only [Action.apply]
    cases st.names.contains name <;> rfl

theorem openParen_flags (st : Reading) (cs : List Char) :
    (do
      let flags ← st.flags.setAll? (cs.takeWhile (!isFlagEnd ·))
      match cs.dropWhile (!isFlagEnd ·) with
      | ':' :: rest => return (st.openGroup flags, rest)
      | _ :: rest =>
        if (cs.takeWhile (!isFlagEnd ·)).isEmpty then none
        else return ({ st with flags := flags }.push ⟨.empty, 0, false⟩, rest)
      | [] => none) =
    (readFlags st.flags cs).bind fun e => (e.1.apply st).map (·, e.2) := by
  rw [readFlags]
  cases st.flags.setAll? (cs.takeWhile (!isFlagEnd ·)) with
  | none => rfl
  | some flags =>
      dsimp only [Option.bind_eq_bind, Option.bind_some]
      cases cs.dropWhile (!isFlagEnd ·) with
      | nil => rfl
      | cons c rest =>
          by_cases hc : c = ':'
          · subst hc
            rfl
          · dsimp only
            rw [if_neg hc]
            split
            · next he =>
                cases he
                exact absurd rfl hc
            · next he =>
                cases he
                split <;> rfl
            · next he => cases he

theorem openParen_eq (st : Reading) (cs : List Char) : st.openParen cs =
    (readFront st.flags (st.flags.skip cs)).bind fun e => (e.1.apply st).map (·, e.2) := by
  rw [Reading.openParen]
  generalize st.flags.skip cs = ds
  dsimp only
  split
  · rw [readFront, if_pos rfl, readGroup, if_neg (by decide), if_neg (by simp),
      readFlags_eq_none (.inl rfl)]
    rfl
  · rw [readFront, if_pos rfl, readGroup, if_neg (by decide), if_neg (by simp),
      readFlags_eq_none (.inr rfl)]
    rfl
  · rw [readFront, if_pos rfl, readGroup, if_pos rfl, readNamed_eq_none (.inl rfl)]
    rfl
  · rw [readFront, if_pos rfl, readGroup, if_pos rfl, readNamed_eq_none (.inr rfl)]
    rfl
  · next rest =>
      rw [readFront, if_pos rfl, readGroup, if_neg (by decide), if_pos ⟨rfl, rfl⟩]
      exact openParen_named st rest
  · next rest _ _ =>
      rw [readFront, if_pos rfl, readGroup, if_pos rfl]
      exact openParen_named st rest
  · next rest _ _ _ _ hP h =>
      have hgroup : readGroup st.flags rest = readFlags st.flags rest := by
        cases rest with
        | nil =>
            rw [readGroup, readFlags]
            cases st.flags.setAll? ([].takeWhile (!isFlagEnd ·)) <;> rfl
        | cons c rest =>
            rw [readGroup, if_neg fun hc => h rest (by rw [hc]), if_neg fun hc => ?_]
            exact (List.head?_eq_some_iff.1 hc.2).elim fun rest' hr => hP rest' (by rw [hc.1, hr])
      rw [readFront, if_pos rfl, hgroup]
      exact openParen_flags st rest
  · next h =>
      cases ds with
      | nil => rfl
      | cons c ds =>
          rw [readFront, if_neg fun hc => h ds (by rw [hc])]
          rfl

/-- An escape as an element; the flags decide what it matches. -/
def readElement (fl : Flags) : Escape → Option Regex
  | .literal c raw =>
    if raw && !fl.unicode && 127 < c.toNat then none else some (({ flags := fl } : Reading).literal c)
  | .charSet s => some (.set s)
  | .boundary letter name => (({ flags := fl } : Reading).boundary? letter name).map .test

def Action.pushesAtom (r : Regex) : Action := .pushes { regex := r }

/-- The action that a character begins, where no blanks are dropped. -/
def readPiece (fl : Flags) (c : Char) (cs : List Char) : Option (Action × List Char) :=
  match c with
  | '(' => readFront fl (fl.skip cs)
  | ')' => some (.closes, cs)
  | '|' => some (.separates, cs)
  | '[' => (fl.readClass cs).map fun e => (.pushes ⟨.set e.1.set, e.1.depth, true⟩, e.2)
  | '?' => readLazy 0 (some 1) cs
  | '*' => readLazy 0 none cs
  | '+' => readLazy 1 none cs
  | '\x7b' => readRepeat fl cs
  | '.' => ({ flags := fl } : Reading).anyChar?.map fun r => (.pushesAtom r, cs)
  | '^' | '$' =>
    (({ flags := fl } : Reading).boundary? c none).map fun b => (.pushesAtom (.test b), cs)
  | '\\' =>
    (fl.readEscape cs).bind fun e => (readElement fl e.1).map fun r => (.pushesAtom r, e.2)
  | c => some (.pushesAtom (({ flags := fl } : Reading).literal c), cs)

def readAction (fl : Flags) (c : Char) (cs : List Char) : Option (Action × List Char) :=
  if (fl.skip (c :: cs)).length ≤ cs.length then some (.passes, fl.skip (c :: cs))
  else readPiece fl c cs

theorem readPiece_stable (fl : Flags) (c : Char) (cs more : List Char) :
    Stable q cs more (readPiece fl c cs) (readPiece fl c (cs ++ more)) := by
  rw [readPiece.eq_def, readPiece.eq_def]
  split
  · exact .skip fl fun ds _ => readFront_stable fl ds more
  · exact .pure (List.suffix_refl _)
  · exact .pure (List.suffix_refl _)
  · exact Stable.map (k := fun item => Action.pushes ⟨.set item.set, item.depth, true⟩)
      (fl.readClass_stable cs more)
  · exact readLazy_stable 0 (some 1) cs more
  · exact readLazy_stable 0 none cs more
  · exact readLazy_stable 1 none cs more
  · exact readRepeat_stable fl cs more
  · exact .given _ _
  · exact .given _ _
  · exact .given _ _
  · exact (fl.readEscape_stable cs more).bind fun e rest _ => .given _ _
  · exact .pure (List.suffix_refl _)

theorem readAction_stable (fl : Flags) (c : Char) (cs more : List Char) :
    Stable q cs more (readAction fl c cs) (readAction fl c (cs ++ more)) :=
  (readPiece_stable fl c cs more).blank fl .passes

namespace Reading

variable (st : Reading)

theorem readQuantifier_eq_apply (min : Nat) (max : Option Nat) (cs : List Char) :
    st.readQuantifier min max cs =
      (readLazy min max cs).bind fun e => (e.1.apply st).map (·, e.2) := by
  cases cs with
  | nil => rfl
  | cons c cs =>
      rw [readQuantifier.eq_def, readLazy]
      by_cases hc : c = '?'
      · subst hc
        rfl
      · rw [if_neg hc]
        split
        · next he =>
            cases he
            exact absurd rfl hc
        · rfl

theorem step_eq (c : Char) (cs : List Char) : st.step c cs =
    (readAction st.flags c cs).bind fun e => (e.1.apply st).map (·, e.2) := by
  rw [step.eq_def, readAction]
  dsimp only
  split
  · rfl
  · split
    · exact openParen_eq st cs
    · rfl
    · rfl
    · show _ = Option.bind (Option.map _ (st.flags.readClass cs)) _
      cases st.flags.readClass cs <;> rfl
    · exact readQuantifier_eq_apply st 0 (some 1) cs
    · exact readQuantifier_eq_apply st 0 none cs
    · exact readQuantifier_eq_apply st 1 none cs
    · show _ = (readRepeat st.flags cs).bind _
      rw [readRepeat_eq]
      cases readCount st.flags cs with
      | none => rfl
      | some e =>
          show (st.repeatLast e.1.1 e.1.2 e.2.1).bind (fun st' => some (st', e.2.2)) =
            (st.repeatLast e.1.1 e.1.2 e.2.1).map (·, e.2.2)
          cases st.repeatLast e.1.1 e.1.2 e.2.1 <;> rfl
    · show st.anyChar?.map _ = (st.anyChar?.map _).bind _
      cases st.anyChar? <;> rfl
    · rfl
    · rfl
    · show _ = Option.bind (Option.bind (st.flags.readEscape cs) _) _
      rcases st.flags.readEscape cs with - | ⟨⟨c, raw⟩ | s | ⟨letter, name⟩, rest⟩
      · rfl
      · dsimp only [Option.bind_some, readElement]
        split <;> rfl
      · rfl
      · show (st.boundary? letter name).map _ = (((st.boundary? letter name).map _).map _).bind _
        cases st.boundary? letter name <;> rfl
    · rw [readPiece] <;> first | rfl | assumption

end Reading

end EarleyTree.Pattern

import EarleyTree.Pattern.Reading

/-!
What is read of a pattern does not depend on what stands behind the place where the reading stops, if
there is anything left at that place.
-/
namespace EarleyTree.Pattern

variable {α β : Type} {fl : Flags} {cs ds rest run more : List Char} {p q : Char → Bool}

namespace Flags

theorem dropBlank_suffix (comment : Bool) (cs : List Char) : dropBlank comment cs <:+ cs := by
  fun_induction dropBlank comment cs with
  | case1 => exact List.suffix_refl _
  | case2 c cs ih => exact ih.trans (List.suffix_cons c cs)
  | case3 c cs hc ih => exact ih.trans (List.suffix_cons c cs)
  | case4 c cs hc hn ih => exact ih.trans (List.suffix_cons c cs)
  | case5 c cs hc hn => exact List.suffix_refl _

theorem dropBlank_append {comment : Bool} (h : dropBlank comment cs ≠ []) (more : List Char) :
    dropBlank comment (cs ++ more) = dropBlank comment cs ++ more := by
  fun_induction dropBlank comment cs with
  | case1 => exact absurd rfl h
  | case2 c cs ih => exact ih h
  | case3 c cs hc ih => rw [List.cons_append, dropBlank, if_pos hc, ih h]
  | case4 c cs hc hn ih => rw [List.cons_append, dropBlank, if_neg hc, if_pos hn, ih h]
  | case5 c cs hc hn => rw [List.cons_append, dropBlank, if_neg hc, if_neg hn]

theorem skip_suffix (fl : Flags) (cs : List Char) : fl.skip cs <:+ cs := by
  rw [skip]
  split
  · exact dropBlank_suffix false cs
  · exact List.suffix_refl _

theorem skip_append (h : fl.skip cs ≠ []) (more : List Char) :
    fl.skip (cs ++ more) = fl.skip cs ++ more := by
  rw [skip] at h ⊢
  rw [skip]
  split
  · next he => exact dropBlank_append (by rwa [if_pos he] at h) more
  · rfl

theorem skip_cons {c : Char} (fl : Flags) (hb : Text.isBlank c = false) (hc : c ≠ '#') (cs : List Char) :
    fl.skip (c :: cs) = c :: cs := by
  rw [skip]
  split
  · rw [dropBlank, if_neg (by simp [hb]), if_neg (by simpa using hc)]
  · rfl

theorem takeRun_nil (fl : Flags) (p : Char → Bool) (fuel : Nat) : fl.takeRun p fuel [] = ([], []) := by
  cases fuel <;> rfl

theorem takeRun_suffix (fl : Flags) (p : Char → Bool) (fuel : Nat) (cs : List Char) :
    (fl.takeRun p fuel cs).2 <:+ cs := by
  fun_induction takeRun fl p fuel cs with
  | case1 fuel c cs hp run rest hrun ih =>
      rw [hrun] at ih
      exact ih.trans ((fl.skip_suffix cs).trans (List.suffix_cons c cs))
  | case2 => exact List.suffix_refl _
  | case3 => exact List.suffix_refl _

/-- With fuel for all characters, further fuel makes no difference. -/
theorem takeRun_append {fuel fuel' : Nat} (h : fl.takeRun p fuel cs = (run, rest)) (hr : rest ≠ [])
    (hle : cs.length ≤ fuel) (hle' : fuel ≤ fuel') (more : List Char) :
    fl.takeRun p fuel' (cs ++ more) = (run, rest ++ more) := by
  induction fuel generalizing fuel' cs run with
  | zero =>
      cases List.eq_nil_of_length_eq_zero (Nat.le_zero.1 hle)
      cases h
      exact absurd rfl hr
  | succ fuel ih =>
      cases cs with
      | nil =>
          cases h
          exact absurd rfl hr
      | cons c cs =>
          obtain ⟨fuel', rfl⟩ := Nat.exists_eq_add_of_le' (Nat.le_trans (Nat.le_add_left 1 fuel) hle')
          rw [takeRun] at h
          rw [List.cons_append, takeRun]
          split at h
          · next hp =>
              rw [if_pos hp]
              rcases hrun : fl.takeRun p fuel (fl.skip cs) with ⟨run', rest'⟩
              rw [hrun] at h
              cases h
              have hne : fl.skip cs ≠ [] := by
                intro hnil
                have hsuffix := fl.takeRun_suffix p fuel (fl.skip cs)
                rw [hrun, hnil] at hsuffix
                exact hr (List.suffix_nil.1 hsuffix)
              have hlen := (fl.skip_suffix cs).length_le
              rw [List.length_cons] at hle
              rw [skip_append hne, ih hrun (by omega) (by omega)]
          · next hp =>
              rw [if_neg hp]
              cases h
              rfl

theorem skip_cases (fl : Flags) (cs more : List Char) :
    fl.skip cs = [] ∨ fl.skip (cs ++ more) = fl.skip cs ++ more := by
  by_cases h : fl.skip cs = []
  · exact .inl h
  · exact .inr (skip_append h more)

theorem takeRun_cases (fl : Flags) (p : Char → Bool) {fuel fuel' : Nat} (hle : cs.length ≤ fuel)
    (hle' : fuel ≤ fuel') (more : List Char) : (fl.takeRun p fuel cs).2 = [] ∨
      fl.takeRun p fuel' (cs ++ more) = ((fl.takeRun p fuel cs).1, (fl.takeRun p fuel cs).2 ++ more) := by
  by_cases h : (fl.takeRun p fuel cs).2 = []
  · exact .inl h
  · exact .inr (takeRun_append rfl h hle hle' more)

end Flags

/-- What is read at the front of a text is read there too with more behind the text, unless no character
is left for which `q` holds. -/
def Stable (q : Char → Bool) (cs more : List Char) (o o' : Option (α × List Char)) : Prop :=
  ∀ a rest, o = some (a, rest) → rest <:+ cs ∧ (rest.any q = true → o' = some (a, rest ++ more))

theorem any_of_suffix (hs : rest <:+ cs) (h : rest.any q = true) : cs.any q = true := by
  obtain ⟨c, hc, hq⟩ := List.any_eq_true.1 h
  exact List.any_eq_true.2 ⟨c, hs.mem hc, hq⟩

theorem ne_nil_of_any (h : cs.any q = true) : cs ≠ [] := by
  rintro rfl
  cases h

namespace Stable

variable {o o' : Option (α × List Char)}

theorem none : Stable q cs more Option.none o' := fun _ _ h => (Option.some_ne_none _ h.symm).elim

theorem spent {a : α} : Stable q cs more (some (a, [])) o' := by
  rintro _ _ ⟨⟩
  exact ⟨List.nil_suffix, nofun⟩

theorem pure {a : α} (h : rest <:+ cs) :
    Stable q cs more (some (a, rest)) (some (a, rest ++ more)) := by
  rintro _ _ ⟨⟩
  exact ⟨h, fun _ => rfl⟩

theorem mono (h : Stable q ds more o o') (hs : ds <:+ cs) : Stable q cs more o o' := fun a rest he =>
  ⟨(h a rest he).1.trans hs, (h a rest he).2⟩

theorem nil {more' : List Char} {o'' : Option (α × List Char)} (h : Stable q [] more o o') :
    Stable q [] more' o o'' := by
  intro a rest ha
  obtain ⟨hs, -⟩ := h a rest ha
  refine ⟨hs, fun hr => ?_⟩
  rw [List.suffix_nil.1 hs] at hr
  cases hr

theorem bind {k : α × List Char → Option (β × List Char)} (h : Stable q cs more o o')
    (hk : ∀ a rest, rest <:+ cs → Stable q rest more (k (a, rest)) (k (a, rest ++ more))) :
    Stable q cs more (o.bind k) (o'.bind k) := by
  intro b rest hb
  obtain ⟨⟨a, middle⟩, ha, hb⟩ := Option.bind_eq_some_iff.1 hb
  obtain ⟨hs, hmore⟩ := h a middle ha
  obtain ⟨hs', hmore'⟩ := hk a middle hs b rest hb
  refine ⟨hs'.trans hs, fun hr => ?_⟩
  rw [hmore (any_of_suffix hs' hr)]
  exact hmore' hr

theorem map {k : α → β} (h : Stable q cs more o o') :
    Stable q cs more (o.map fun e => (k e.1, e.2)) (o'.map fun e => (k e.1, e.2)) := by
  rw [Option.map_eq_bind, Option.map_eq_bind]
  exact h.bind fun a rest _ => .pure (List.suffix_refl _)

theorem given (o : Option β) (k : β → α) :
    Stable q cs more (o.map fun b => (k b, cs)) (o.map fun b => (k b, cs ++ more)) := by
  cases o with
  | none => exact .none
  | some b => exact .pure (List.suffix_refl _)

theorem skip (fl : Flags) {k : List Char → Option (α × List Char)}
    (hk : ∀ ds, ds <:+ cs → Stable q ds more (k ds) (k (ds ++ more))) :
    Stable q cs more (k (fl.skip cs)) (k (fl.skip (cs ++ more))) := by
  intro a rest ha
  obtain ⟨hs, hmore⟩ := hk _ (fl.skip_suffix cs) a rest ha
  refine ⟨hs.trans (fl.skip_suffix cs), fun hr => ?_⟩
  rw [fl.skip_append (ne_nil_of_any (any_of_suffix hs hr))]
  exact hmore hr

/-- Blanks may be dropped instead of what else would be read. -/
theorem blank (fl : Flags) (a : α) {c : Char} (h : Stable q cs more o o') : Stable q cs more
    (if (fl.skip (c :: cs)).length ≤ cs.length then some (a, fl.skip (c :: cs)) else o)
    (if (fl.skip (c :: (cs ++ more))).length ≤ (cs ++ more).length then
      some (a, fl.skip (c :: (cs ++ more))) else o') := by
  obtain hnil | hskip := fl.skip_cases (c :: cs) more
  · rw [hnil, if_pos (show [].length ≤ cs.length from Nat.zero_le _)]
    exact .spent
  · rw [List.cons_append] at hskip
    simp only [hskip, List.length_append, Nat.add_le_add_iff_right]
    split
    · next hle =>
        refine .pure ((List.suffix_cons_iff.1 (fl.skip_suffix (c :: cs))).resolve_left fun he => ?_)
        rw [he, List.length_cons] at hle
        exact Nat.not_succ_le_self _ hle
    · exact h

end Stable

namespace Flags

theorem readHex_take_stable (fl : Flags) (n : Nat) (cs more : List Char) :
    Stable q cs more (readHex.take fl n cs) (readHex.take fl n (cs ++ more)) := by
  induction n generalizing cs with
  | zero => exact .pure (List.suffix_refl _)
  | succ n ih =>
      cases cs with
      | nil => exact .none
      | cons c cs =>
          rw [List.cons_append, readHex.take, readHex.take]
          split
          · have hskip := Stable.skip fl fun ds (_ : ds <:+ cs) => ih ds
            exact hskip.map.mono (List.suffix_cons c cs)
          · exact .none

/-- What stands in braces, from behind the opening one. -/
def takeBraced (fl : Flags) (cs : List Char) : Option (List Char × List Char) :=
  match fl.takeRun (· != '\x7d') cs.length (fl.skip cs) with
  | (run, _ :: rest) => some (run, rest)
  | (_, []) => none

theorem takeBraced_stable (fl : Flags) (cs more : List Char) :
    Stable q cs more (fl.takeBraced cs) (fl.takeBraced (cs ++ more)) := by
  have hsuffix := fl.takeRun_suffix (· != '\x7d') cs.length (fl.skip cs)
  rw [takeBraced, takeBraced]
  obtain hnil | hskip := fl.skip_cases cs more
  · rw [hnil, takeRun_nil]
    exact .none
  · have hcases := fl.takeRun_cases (· != '\x7d') (fl.skip_suffix cs).length_le
      (show cs.length ≤ (cs ++ more).length by simp) more
    rw [hskip]
    generalize fl.takeRun (· != '\x7d') cs.length (fl.skip cs) = e at hsuffix hcases ⊢
    obtain ⟨run, - | ⟨b, rest⟩⟩ := e
    · exact .none
    · rw [hcases.resolve_left (List.cons_ne_nil b rest)]
      exact .pure ((List.suffix_cons b rest).trans (hsuffix.trans (fl.skip_suffix cs)))

/-- What `readHex` does from the first character that counts. -/
def readDigits (fl : Flags) (digits : Nat) : List Char → Option (Escape × List Char)
  | [] => none
  | c :: cs =>
    if c = '\x7b' then
      (fl.takeBraced cs).bind fun e =>
        if e.1.isEmpty || e.1.any fun c => (hexDigit? c).isNone then none
        else (scalar? (ofHexDigits e.1)).map fun c => (.literal c false, fl.skip e.2)
    else
      (readHex.take fl digits (c :: cs)).bind fun e => (scalar? (ofHexDigits e.1)).bind fun c =>
        if digits = 2 ∧ ¬ fl.unicode ∧ 127 < c.toNat then none
        else some (.literal c (digits == 2), e.2)

theorem readHex_eq (fl : Flags) (digits : Nat) (cs : List Char) :
    fl.readHex digits cs = fl.readDigits digits (fl.skip cs) := by
  rw [readHex]
  cases fl.skip cs with
  | nil => rfl
  | cons c cs =>
      rw [readDigits]
      split
      · next h => cases h
      · next h =>
          cases h
          rw [if_pos rfl, takeBraced]
          rcases fl.takeRun (· != '\x7d') cs.length (fl.skip cs) with ⟨run, - | ⟨b, rest⟩⟩
          · dsimp only
            split <;> rfl
          · dsimp only [Option.bind_some]
            cases scalar? (ofHexDigits run) <;> rfl
      · next h =>
          rw [if_neg fun hc => h cs (by rw [hc])]
          rfl

theorem readDigits_stable (fl : Flags) (digits : Nat) (cs more : List Char) :
    Stable q cs more (fl.readDigits digits cs) (fl.readDigits digits (cs ++ more)) := by
  cases cs with
  | nil => exact .none
  | cons c cs =>
      rw [List.cons_append, readDigits, readDigits]
      split
      · refine .mono ?_ (List.suffix_cons c cs)
        refine (fl.takeBraced_stable cs more).bind fun run rest _ => ?_
        dsimp only
        split
        · exact .none
        · cases scalar? (ofHexDigits run) with
          | none => exact .none
          | some a => exact .skip fl fun ds _ => .pure (List.suffix_refl ds)
      · refine (readHex_take_stable fl digits (c :: cs) more).bind fun run rest _ => ?_
        dsimp only
        cases scalar? (ofHexDigits run) with
        | none => exact .none
        | some a =>
            dsimp only [Option.bind_some]
            split
            · exact .none
            · exact .pure (List.suffix_refl _)

theorem readHex_stable (fl : Flags) (digits : Nat) (cs more : List Char) :
    Stable q cs more (fl.readHex digits cs) (fl.readHex digits (cs ++ more)) := by
  rw [readHex_eq, readHex_eq]
  exact .skip fl fun ds _ => fl.readDigits_stable digits ds more

/-- What `readProperty` does from the first character that counts. -/
def readName (fl : Flags) (negated : Bool) : List Char → Option (CharSet × List Char)
  | [] => none
  | c :: cs =>
    let found (negated : Bool) (s : CharSet) :=
      if negated then CharSet.compl (fl.closeCase s) else fl.closeCase s
    if c = '\x7b' then
      (fl.takeBraced cs).bind fun e => (Property.read? e.1).map fun r => (found (negated != r.1) r.2, e.2)
    else (Property.named? [c]).map fun s => (found negated s, cs)

theorem readProperty_eq (fl : Flags) (negated : Bool) (cs : List Char) :
    fl.readProperty negated cs = if fl.unicode then fl.readName negated (fl.skip cs) else none := by
  rw [readProperty]
  split
  · cases fl.skip cs with
    | nil => rfl
    | cons c cs =>
        rw [readName]
        split
        · next h => cases h
        · next h =>
            cases h
            dsimp only
            rw [if_pos rfl, takeBraced]
            rcases fl.takeRun (· != '\x7d') cs.length (fl.skip cs) with ⟨run, - | ⟨b, rest⟩⟩
            · rcases Property.read? run with - | ⟨unequal, s⟩ <;> rfl
            · rcases hr : Property.read? run with - | ⟨unequal, s⟩ <;> simp [hr]
        · next h hc =>
            cases hc
            rw [if_neg h]
  · rfl

theorem readProperty_stable (fl : Flags) (negated : Bool) (cs more : List Char) :
    Stable q cs more (fl.readProperty negated cs) (fl.readProperty negated (cs ++ more)) := by
  rw [readProperty_eq, readProperty_eq]
  split
  · refine .skip fl fun ds _ => ?_
    cases ds with
    | nil => exact .none
    | cons c ds =>
        refine .mono ?_ (List.suffix_cons c ds)
        rw [List.cons_append, readName, readName]
        split
        · refine (fl.takeBraced_stable ds more).bind fun run rest _ => ?_
          exact .given _ _
        · exact .given _ _
  · exact .none

theorem readBoundaryName_stable (fl : Flags) (cs more : List Char) :
    Stable q cs more (fl.readBoundaryName cs) (fl.readBoundaryName (cs ++ more)) := by
  cases cs with
  | nil => exact .spent
  | cons c cs =>
      by_cases hc : c = '\x7b'
      · subst hc
        rw [List.cons_append, readBoundaryName, readBoundaryName]
        obtain hnil | hskip := fl.skip_cases cs more
        · rw [hnil]
          exact .none
        · have hsuffix := fl.skip_suffix cs
          rw [hskip]
          cases hds : fl.skip cs with
          | nil => exact .none
          | cons c ds =>
              rw [hds] at hsuffix
              rw [List.cons_append]
              dsimp only
              split
              · have hrun := fl.takeRun_suffix (fun c => c.isAlpha || c == '-') (ds.length + 1) (c :: ds)
                have hcases := @takeRun_cases (c :: ds) fl (fun c => c.isAlpha || c == '-')
                  (ds.length + 1) ((ds ++ more).length + 1) (Nat.le_refl _) (by simp) more
                rw [List.cons_append] at hcases
                generalize fl.takeRun (fun c => c.isAlpha || c == '-') (ds.length + 1) (c :: ds) = e
                  at hrun hcases ⊢
                obtain ⟨run, - | ⟨b, rest⟩⟩ := e
                · exact .none
                · rw [hcases.resolve_left (List.cons_ne_nil b rest)]
                  dsimp only [List.cons_append]
                  split
                  · next hb =>
                      cases hb
                      refine .pure ((List.suffix_cons _ rest).trans (hrun.trans ?_))
                      exact hsuffix.trans (List.suffix_cons _ cs)
                  · exact .none
              · exact .pure (List.suffix_refl _)
      · rw [List.cons_append, readBoundaryName, readBoundaryName]
        · exact .pure (List.suffix_refl _)
        all_goals
          rintro _ ⟨⟩
          exact hc rfl

theorem readEscape_stable (fl : Flags) (cs more : List Char) :
    Stable q cs more (fl.readEscape cs) (fl.readEscape (cs ++ more)) := by
  cases cs with
  | nil => exact .none
  | cons c cs =>
      refine .mono ?_ (List.suffix_cons c cs)
      rw [List.cons_append, readEscape.eq_def, readEscape.eq_def]
      dsimp only
      split
      any_goals exact .pure (List.suffix_refl _)
      any_goals exact .given _ _
      · exact fl.readHex_stable 2 cs more
      · exact fl.readHex_stable 4 cs more
      · exact fl.readHex_stable 8 cs more
      · exact (fl.readProperty_stable false cs more).map
      · exact (fl.readProperty_stable true cs more).map
      · exact (fl.readBoundaryName_stable cs more).map
      · split
        · exact .pure (List.suffix_refl _)
        · exact .none

end Flags

end EarleyTree.Pattern

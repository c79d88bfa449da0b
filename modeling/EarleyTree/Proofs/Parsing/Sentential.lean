import EarleyTree.Proofs.Parsing.Forest

/-!
What rows of steps derive, and its agreement with derivation trees.
-/
namespace EarleyTree

/-- An element of a sentential form: a symbol that is yet to be derived, or an input unit. -/
inductive Letter
  | symbol (s : Symbol)
  | unit (u : InputUnit)

/-- A row of steps derives a sentential form. -/
inductive Derives (t : Tables) : List Step → List Letter → Prop
  | nil : Derives t [] []
  | keep {s : Step} {ss : List Step} {w : List Letter} (h : Derives t ss w) :
      Derives t (s :: ss) (.symbol s.symbol :: w)
  | take {s : Step} {ss : List Step} {u : InputUnit} {w : List Letter} (hs : s.Takes u)
      (h : Derives t ss w) : Derives t (s :: ss) (.unit u :: w)
  | expand {p : Nat} {s : Step} {ss : List Step} {v w : List Letter} (hp : p < t.productions.size)
      (hs : t.lhs p = s.symbol) (hv : Derives t (t.steps p) v) (hw : Derives t ss w) :
      Derives t (s :: ss) (v ++ w)

def letters (us : Array InputUnit) (i j : Nat) : List Letter :=
  ((us.toList.drop i).take (j - i)).map .unit

variable {t : Tables} {us : Array InputUnit} {u : InputUnit} {ss : List Step} {v w : List Letter}
  {i j k : Nat}

theorem letters_self (i : Nat) : letters us i i = [] := by
  rw [letters, Nat.sub_self, List.take_zero, List.map_nil]

theorem letters_cons (hu : us[i]? = some u) (hij : i < j) :
    letters us i j = .unit u :: letters us (i + 1) j := by
  obtain ⟨hi, rfl⟩ := Array.getElem?_eq_some_iff.1 hu
  obtain ⟨n, rfl⟩ : ∃ n, j = i + 1 + n := Nat.exists_eq_add_of_le hij
  have hlt : i < us.toList.length := hi
  rw [letters, letters, List.drop_eq_getElem_cons hlt, Nat.add_sub_cancel_left,
    show i + 1 + n - i = n + 1 by omega, List.take_succ_cons, List.map_cons, Array.getElem_toList]

theorem letters_append (hij : i ≤ j) (hjk : j ≤ k) :
    letters us i j ++ letters us j k = letters us i k := by
  obtain ⟨m, rfl⟩ := Nat.exists_eq_add_of_le hij
  obtain ⟨n, rfl⟩ := Nat.exists_eq_add_of_le hjk
  rw [letters, letters, letters, ← List.map_append, Nat.add_sub_cancel_left,
    Nat.add_sub_cancel_left, Nat.add_assoc, Nat.add_sub_cancel_left, List.take_add, List.drop_drop]

theorem length_letters (hij : i ≤ j) (hj : j ≤ us.size) : (letters us i j).length = j - i := by
  rw [letters, List.length_map, List.length_take, List.length_drop, Array.length_toList]
  omega

theorem letters_eq_append (hj : j ≤ us.size) (hij : i ≤ j) (h : letters us i j = v ++ w) :
    ∃ k, i ≤ k ∧ k ≤ j ∧ v = letters us i k ∧ w = letters us k j := by
  have hlen := congrArg List.length h
  rw [length_letters hij hj, List.length_append] at hlen
  refine ⟨i + v.length, by omega, by omega, ?_⟩
  rw [← letters_append (Nat.le_add_right i v.length) (by omega)] at h
  have hk : (letters us i (i + v.length)).length = v.length := by
    rw [length_letters (by omega) (by omega), Nat.add_sub_cancel_left]
  obtain ⟨hv, hw⟩ := List.append_inj h hk
  exact ⟨hv.symm, hw.symm⟩

theorem Forest.Covers.derives {f : Forest} (hf : f.Covers t us ss i j) :
    Derives t ss (letters us i j) := by
  induction hf with
  | nil i =>
      rw [letters_self]
      exact .nil
  | unit hu hs h ih =>
      rw [letters_cons hu h.le]
      exact .take hs ih
  | expand hp hs hf hg ihf ihg =>
      rw [← letters_append hf.le hg.le]
      exact .expand hp hs ihf ihg

theorem Derives.exists_covers (h : Derives t ss (letters us i j)) (hij : i ≤ j) (hj : j ≤ us.size) :
    ∃ f : Forest, f.Covers t us ss i j := by
  generalize hw : letters us i j = w at h
  induction h generalizing i j with
  | nil =>
      have hlen := congrArg List.length hw
      rw [length_letters hij hj, List.length_nil] at hlen
      obtain rfl : i = j := by omega
      exact ⟨.nil, .nil i⟩
  | keep =>
      obtain ⟨u, -, hu⟩ := List.mem_map.1 (hw ▸ List.mem_cons_self)
      cases hu
  | @take s ss u w hs _ ih =>
      have hlen := congrArg List.length hw
      rw [length_letters hij hj, List.length_cons] at hlen
      have hi : us[i]? = some us[i] := Array.getElem?_eq_getElem (by omega)
      rw [letters_cons hi (by omega)] at hw
      obtain ⟨hu, hw⟩ := List.cons.inj hw
      obtain ⟨f, hf⟩ := ih (by omega) hj hw
      exact ⟨.unit f, .unit hi (Letter.unit.inj hu ▸ hs) hf⟩
  | expand hp hs _ _ ihv ihw =>
      obtain ⟨k, hik, hkj, rfl, rfl⟩ := letters_eq_append hj hij hw
      obtain ⟨f, hf⟩ := ihv hik (Nat.le_trans hkj hj) rfl
      obtain ⟨g, hg⟩ := ihw hkj hj rfl
      exact ⟨.expand _ f g, .expand hp hs hf hg⟩

theorem exists_covers_iff (hij : i ≤ j) (hj : j ≤ us.size) :
    (∃ f : Forest, f.Covers t us ss i j) ↔ Derives t ss (letters us i j) :=
  ⟨fun ⟨_, hf⟩ => hf.derives, fun h => h.exists_covers hij hj⟩

theorem Derives.refl (ss : List Step) : Derives t ss (ss.map fun s => .symbol s.symbol) := by
  induction ss with
  | nil => exact .nil
  | cons s ss ih => exact .keep ih

theorem Derives.append {ts : List Step} (hv : Derives t ss v) (hw : Derives t ts w) :
    Derives t (ss ++ ts) (v ++ w) := by
  induction hv with
  | nil => exact hw
  | keep _ ih => exact .keep ih
  | take hs _ ih => exact .take hs ih
  | expand hp hs hv _ _ ih =>
      rw [List.append_assoc]
      exact .expand hp hs hv ih

/-- A symbol of a sentential form may be replaced by what a production of it derives. -/
theorem Derives.replace {p : Nat} {x y : List Letter}
    (h : Derives t ss (x ++ .symbol (t.lhs p) :: y)) (hp : p < t.productions.size)
    (hv : Derives t (t.steps p) v) : Derives t ss (x ++ v ++ y) := by
  generalize hw : x ++ .symbol (t.lhs p) :: y = w at h
  induction h generalizing x y with
  | nil => simp at hw
  | @keep s ss w h ih =>
      cases x with
      | nil =>
          obtain ⟨hs, rfl⟩ := List.cons.inj hw
          exact .expand hp (Letter.symbol.inj hs) hv h
      | cons a x =>
          obtain ⟨rfl, rfl⟩ := List.cons.inj hw
          exact .keep (ih rfl)
  | @take s ss u w hs h ih =>
      cases x with
      | nil => cases (List.cons.inj hw).1
      | cons a x =>
          obtain ⟨rfl, rfl⟩ := List.cons.inj hw
          exact .take hs (ih rfl)
  | @expand q s ss v' w' hq hs hv' hw' ihv ihw =>
      obtain ⟨z, rfl, hy⟩ | ⟨z, hv', hz⟩ := List.append_eq_append_iff.1 hw
      · cases z with
        | nil =>
            have hrec := ihw (x := []) hy
            simpa using Derives.expand hq hs hv' hrec
        | cons a z =>
            obtain ⟨rfl, rfl⟩ := List.cons.inj hy
            have hrec := ihv rfl
            simpa using Derives.expand hq hs hrec hw'
      · subst hv' hz
        have hrec := ihw rfl
        simpa using Derives.expand hq hs hv' hrec

/-- A symbol of a sentential form is met behind the units before it, if each symbol of the row is met
behind what the steps before it derive. -/
theorem Derives.reaches {s : Symbol} {y : List Letter}
    (h : Derives t ss (letters us i k ++ .symbol s :: y)) (hik : i ≤ k) (hk : k ≤ us.size)
    (hr : ∀ before s after, ss = before ++ s :: after → ∀ (f : Forest) j,
      f.Covers t us before i j → Reaches t us j s.symbol) : Reaches t us k s := by
  generalize hw : letters us i k ++ .symbol s :: y = w at h
  induction h generalizing i y with
  | nil => simp at hw
  | @keep s' ss w h ih =>
      obtain hlt | rfl := Nat.lt_or_eq_of_le hik
      · rw [letters_cons (Array.getElem?_eq_getElem (by omega)) hlt] at hw
        cases (List.cons.inj hw).1
      · rw [letters_self] at hw
        obtain ⟨hs, -⟩ := List.cons.inj hw
        rw [Letter.symbol.inj hs]
        exact hr [] s' ss rfl .nil i (.nil i)
  | @take s' ss u w hs h ih =>
      obtain hlt | rfl := Nat.lt_or_eq_of_le hik
      · have hi : us[i]? = some us[i] := Array.getElem?_eq_getElem (by omega)
        rw [letters_cons hi hlt] at hw
        obtain ⟨hu, hw⟩ := List.cons.inj hw
        refine ih hlt (fun before r after he f j hf => ?_) hw
        exact hr (s' :: before) r after (by rw [he]; rfl) (.unit f) j
          (.unit hi (Letter.unit.inj hu ▸ hs) hf)
      · rw [letters_self] at hw
        cases (List.cons.inj hw).1
  | @expand q s' ss v w hq hs hv hw' ihv ihw =>
      have hnext : ∀ m, i ≤ m → m ≤ k → v = letters us i m → w = letters us m k ++ .symbol s :: y →
          Reaches t us k s := by
        rintro m him hmk rfl rfl
        obtain ⟨g, hg⟩ := hv.exists_covers him (Nat.le_trans hmk hk)
        refine ihw hmk (fun before r after he f j hf => ?_) rfl
        exact hr (s' :: before) r after (by rw [he]; rfl) (.expand q g f) j (.expand hq hs hg hf)
      obtain ⟨z, rfl, hy⟩ | ⟨z, hz, rfl⟩ := List.append_eq_append_iff.1 hw
      · cases z with
        | nil =>
            refine hnext k hik (Nat.le_refl k) (List.append_nil _) ?_
            rw [letters_self]
            exact hy.symm
        | cons a z =>
            obtain ⟨rfl, -⟩ := List.cons.inj hy
            refine ihv hik (fun before r after he f j hf => ?_) rfl
            exact .predict hq (hs ▸ hr [] s' ss rfl .nil i (.nil i)) he hf
      · obtain ⟨m, him, hmk, rfl, rfl⟩ := letters_eq_append hk hik hz
        exact hnext m him hmk rfl rfl

/-- A symbol is met behind the first units just if the start symbol derives these units, the symbol
and anything after it. -/
theorem reaches_iff {s : Symbol} (hk : k ≤ us.size) : Reaches t us k s ↔
    ∃ y, Derives t [{ symbol := t.start }] (letters us 0 k ++ .symbol s :: y) := by
  constructor
  · intro h
    induction h with
    | start => exact ⟨[], .keep .nil⟩
    | @predict p o i f before after s hp _ hs hf ih =>
        obtain ⟨y, hy⟩ := ih (Nat.le_trans hf.le hk)
        have hrow := hf.derives.append (.refl (s :: after))
        rw [← hs] at hrow
        have h := hy.replace hp hrow
        rw [← List.append_assoc, letters_append (Nat.zero_le _) hf.le, List.append_assoc] at h
        exact ⟨_, h⟩
  · rintro ⟨y, hy⟩
    refine hy.reaches (Nat.zero_le k) hk fun before r after he f j hf => ?_
    obtain rfl : before = [] := by
      cases before with
      | nil => rfl
      | cons a before => simp at he
    obtain ⟨rfl, -⟩ := List.cons.inj he
    cases hf
    exact .start

end EarleyTree

import EarleyTree.Candid.BlockComment
import EarleyTree.Proofs.Parsing.Run
import EarleyTree.Proofs.Tree.Skeleton

/-!
Where a parse without an old tree finds its tokens: one behind the other, with the extras and the
errors between them.
-/
namespace EarleyTree

open Text

/-- The tokens of the scanner do not begin before the place where it is asked for one. -/
def Scanner.Forward (s : Scanner) : Prop :=
  ∀ saved text position valid c saved',
    s.scan saved (.ofText text position) valid = some (c, saved') → position ≤ c.tokenStart

namespace ScanCursor

/-- Neither the cursor nor the beginning of the token stands before the place. -/
def Behind (c : ScanCursor) (n : Nat) : Prop := n ≤ c.tokenStart ∧ n ≤ c.position

theorem Behind.advance {c : ScanCursor} {n : Nat} (h : c.Behind n) (skip : Bool) :
    (c.advance skip).Behind n := by
  obtain ⟨hs, hp⟩ := h
  rw [Behind, ScanCursor.advance]
  cases c.rest with
  | nil => cases skip <;> simp [hs, hp]
  | cons ch rest => cases skip <;> simp [hs, hp, Nat.le_add_right_of_le]

theorem Behind.advanceTimes {c : ScanCursor} {n : Nat} (h : c.Behind n) (k : Nat) (skip : Bool) :
    (advanceTimes k skip c).Behind n := by
  induction k generalizing c with
  | zero => exact h
  | succ k ih => exact ih (h.advance skip)

end ScanCursor

theorem Candid.BlockComment.scanner_forward : Candid.BlockComment.scanner.Forward := by
  intro saved text position valid c saved' h
  have hstart : (ScanCursor.ofText text position).Behind position := ⟨Nat.le_refl _, Nat.le_refl _⟩
  simp only [scanner, Scanner.ofMachine] at h
  split at h
  · next c₁ depth hs =>
      cases h
      rw [scan] at hs
      split at hs
      · cases hs
      · dsimp only at hs
        split at hs
        · split at hs
          · cases hs
            exact ((hstart.advanceTimes _ _).advanceTimes _ _).1
          · cases hs
        · cases hs
        · cases hs
  · cases h

namespace Lexer

variable {lx : Lexer}

def Forward (lx : Lexer) : Prop := ∀ s, lx.scanner = some s → s.Forward

theorem scanExternal_forward (hf : lx.Forward) {saved saved' : Saved} {position : Nat}
    {welcome : Symbol → Bool} {extrasOnly : Bool} {t : Token}
    (h : lx.scanExternal saved position welcome extrasOnly = some (t, saved')) :
    position ≤ t.start ∧ t.start < t.stop := by
  rw [scanExternal] at h
  obtain ⟨scanner, hs, h⟩ := Option.bind_eq_some_iff.1 h
  dsimp only at h
  split at h
  · cases h
  · obtain ⟨⟨c, saved₁⟩, hc, h⟩ := Option.bind_eq_some_iff.1 h
    obtain ⟨s, -, h⟩ := Option.bind_eq_some_iff.1 h
    split at h
    · cases h
    · next hle =>
        cases h
        simp only [Bool.or_eq_true, decide_eq_true_iff, not_or, Nat.not_le] at hle
        exact ⟨hf scanner hs _ _ _ _ _ _ hc, hle.1⟩

theorem bestMatch_length {rest : List Char} {welcome : Symbol → Bool} {c : Candidate}
    (h : lx.bestMatch rest welcome = some c) : 0 < c.length := by
  rcases foldl_better_mem h with hm | hb
  · obtain ⟨token, -, hc⟩ := List.mem_filterMap.1 hm
    rw [candidate?] at hc
    split at hc
    · split at hc
      · cases hc
      · next hne =>
          cases hc
          exact Nat.pos_of_ne_zero hne
    · cases hc
  · cases hb

theorem Finds.forward (hf : lx.Forward) {saved : Saved} {position : Nat} {t : Token}
    (h : lx.Finds saved position t) : position ≤ t.start ∧ t.start < t.stop := by
  cases h with
  | external h _ hstart hstop =>
      rw [hstart, hstop]
      exact scanExternal_forward hf h
  | matched _ hbest _ hstart hstop =>
      rw [hstart, hstop]
      exact ⟨Nat.le_refl _, Nat.lt_add_of_pos_right (bestMatch_length hbest)⟩

theorem errorToken_forward {position : Nat} {afterExtra : Bool} {t : Token}
    (h : lx.errorToken position afterExtra = some t) : position ≤ t.start ∧ t.start < t.stop := by
  rw [errorToken] at h
  obtain ⟨rest, -, h⟩ := Option.bind_eq_some_iff.1 h
  obtain ⟨c, -, h⟩ := Option.bind_eq_some_iff.1 h
  cases h
  exact ⟨Nat.le_refl _, Nat.lt_add_of_pos_right c.utf8Size_pos⟩

theorem Passes.forward (hf : lx.Forward) {saved : Saved} {position next : Nat}
    {extra : Option Token} (h : lx.Passes saved position extra next) :
    position ≤ next ∧ ∀ t ∈ extra, position ≤ t.start ∧ t.start < t.stop ∧ t.stop ≤ next := by
  cases h with
  | external hx =>
      obtain ⟨hle, hlt⟩ := scanExternal_forward hf hx
      refine ⟨Nat.le_trans hle hlt.le, ?_⟩
      rintro _ ⟨⟩
      exact ⟨hle, hlt, Nat.le_refl _⟩
  | matched _ he =>
      refine ⟨Nat.le_add_right _ _, ?_⟩
      rintro _ ⟨⟩
      exact ⟨Nat.le_refl _, Nat.lt_add_of_pos_right (bestMatch_length he), Nat.le_refl _⟩
  | skipped => exact ⟨Nat.le_add_right _ _, fun _ ht => absurd ht (Option.not_mem_none _)⟩

theorem skipFrom_forward (hf : lx.Forward) (welcome : Symbol → Bool) (fuel : Nat) (saved : Saved)
    (position : Nat) (afterExtra : Bool) :
    position ≤ (lx.skipFrom welcome fuel saved position afterExtra).1.offset ∧
      ∀ t ∈ (lx.skipFrom welcome fuel saved position afterExtra).1.extras,
        position ≤ t.start ∧ t.start < t.stop ∧
          t.stop ≤ (lx.skipFrom welcome fuel saved position afterExtra).1.offset := by
  induction fuel generalizing saved position afterExtra with
  | zero => simp [skipFrom]
  | succ fuel ih =>
      rw [skipFrom]
      split
      · simp
      · split
        · simp
        · next extra next saved' hs =>
            obtain ⟨hle, hextra⟩ := (skipOne_passes hs).forward hf
            obtain ⟨hoff, hext⟩ := ih saved' next true
            refine ⟨Nat.le_trans hle hoff, ?_⟩
            intro t ht
            rcases List.mem_append.1 ht with ht | ht
            · obtain ⟨hs, hlt, hn⟩ := hextra t (Option.mem_toList.1 ht)
              exact ⟨hs, hlt, Nat.le_trans hn hoff⟩
            · obtain ⟨hs, hlt⟩ := hext t ht
              exact ⟨Nat.le_trans hle hs, hlt⟩

end Lexer

/-- The units lie one behind the other, and none is overlapped by what floats between them. -/
structure Laid (us : Array InputUnit) (floating : List Subtree) : Prop where
  order : us.toList.Pairwise fun u v => u.stop ≤ v.start
  unit : ∀ u ∈ us, u.start < u.stop
  floating : ∀ e ∈ floating, e.start < e.stop ∧ ∀ u ∈ us, u.stop ≤ e.start ∨ e.stop ≤ u.start

namespace Laid

variable {us : Array InputUnit} {floating : List Subtree} {u v : InputUnit} {i j : Nat}

theorem stop_le_start (h : Laid us floating) (hu : us[i]? = some u) (hv : us[j]? = some v)
    (hij : i < j) : u.stop ≤ v.start := by
  obtain ⟨hi, rfl⟩ := Array.getElem?_eq_some_iff.1 hu
  obtain ⟨hj, rfl⟩ := Array.getElem?_eq_some_iff.1 hv
  exact List.pairwise_iff_getElem.1 h.order i j hi hj hij

theorem le_of_le (h : Laid us floating) (hu : us[i]? = some u) (hv : us[j]? = some v)
    (hij : i ≤ j) : u.start ≤ v.start ∧ u.stop ≤ v.stop := by
  obtain hlt | rfl := Nat.lt_or_eq_of_le hij
  · have hle := h.stop_le_start hu hv hlt
    have hu' := h.unit u (Array.mem_of_getElem? hu)
    have hv' := h.unit v (Array.mem_of_getElem? hv)
    omega
  · obtain rfl := Option.some.inj (hu.symm.trans hv)
    exact ⟨Nat.le_refl _, Nat.le_refl _⟩

theorem push (h : Laid us floating) {n : Nat} (hus : ∀ v ∈ us, v.stop ≤ n)
    (hF : ∀ e ∈ floating, e.stop ≤ n) (hn : n ≤ u.start) (hu : u.start < u.stop) :
    Laid (us.push u) floating where
  order := by
    rw [Array.toList_push]
    apply List.pairwise_append.2
    refine ⟨h.order, List.pairwise_singleton _ _, ?_⟩
    intro v hv w hw
    rw [List.mem_singleton.1 hw]
    exact (hus v (Array.mem_toList_iff.1 hv)).trans hn
  unit v hv := by
    rcases Array.mem_push.1 hv with hv | rfl
    · exact h.unit v hv
    · exact hu
  floating e he := by
    refine ⟨(h.floating e he).1, ?_⟩
    intro v hv
    rcases Array.mem_push.1 hv with hv | rfl
    · exact (h.floating e he).2 v hv
    · exact .inr ((hF e he).trans hn)

theorem pushFloating {fs : Array Subtree} (h : Laid us fs.toList) {e : Subtree}
    (he : e.start < e.stop) (hus : ∀ u ∈ us, u.stop ≤ e.start) : Laid us (fs.push e).toList where
  order := h.order
  unit := h.unit
  floating e' he' := by
    rcases Array.mem_push.1 (Array.mem_toList_iff.1 he') with he' | rfl
    · exact h.floating e' (Array.mem_toList_iff.2 he')
    · exact ⟨he, fun u hu => .inl (hus u hu)⟩

theorem map_skeleton (h : Laid us floating) : Laid us (floating.map Subtree.skeleton) where
  order := h.order
  unit := h.unit
  floating e he := by
    obtain ⟨e, hm, rfl⟩ := List.mem_map.1 he
    rw [Subtree.start_skeleton, Subtree.stop_skeleton]
    exact h.floating e hm

end Laid

namespace ParseState

variable {p : ParseInput} {st : ParseState} {n m : Nat}

/-- All that was found lies before the place, and what was skipped behind the units. -/
structure Placed (st : ParseState) (n : Nat) : Prop extends Laid st.units st.floating.toList where
  unit_le : ∀ u ∈ st.units, u.stop ≤ n
  floating_le : ∀ e ∈ st.floating, e.stop ≤ n
  skippedOrder : st.skipped.toList.Pairwise fun s t => s.stop ≤ t.start
  skipped : ∀ t ∈ st.skipped, t.start < t.stop ∧ t.stop ≤ n ∧ ∀ u ∈ st.units, u.stop ≤ t.start

namespace Placed

theorem initial (p : ParseInput) : Placed (.initial p) 0 := by
  refine ⟨?_, ?_, ?_, ?_, ?_⟩
  · constructor <;> simp [ParseState.initial]
  all_goals simp [ParseState.initial]

theorem mono (h : Placed st n) (hn : n ≤ m) : Placed st m where
  toLaid := h.toLaid
  unit_le u hu := (h.unit_le u hu).trans hn
  floating_le e he := (h.floating_le e he).trans hn
  skippedOrder := h.skippedOrder
  skipped t ht := ⟨(h.skipped t ht).1, (h.skipped t ht).2.1.trans hn, (h.skipped t ht).2.2⟩

theorem of_frame {st' : ParseState} (h : Placed st n) (hu : st'.units = st.units)
    (hs : st'.skipped = st.skipped) (hf : st'.floating = st.floating) : Placed st' n := by
  refine ⟨?_, ?_, ?_, ?_, ?_⟩ <;> simp only [hu, hs, hf]
  exacts [h.toLaid, h.unit_le, h.floating_le, h.skippedOrder, h.skipped]

theorem pushFloating (h : Placed st n) {e : Subtree} (he : e.start < e.stop) (hn : e.stop ≤ n)
    (hu : ∀ u ∈ st.units, u.stop ≤ e.start) : Placed { st with floating := st.floating.push e } n where
  toLaid := h.toLaid.pushFloating he hu
  unit_le := h.unit_le
  floating_le e' he' := by
    rcases Array.mem_push.1 he' with he' | rfl
    · exact h.floating_le e' he'
    · exact hn
  skippedOrder := h.skippedOrder
  skipped := h.skipped

theorem forgetSkipped (h : Placed st n) : Placed { st with skipped := #[] } n where
  toLaid := h.toLaid
  unit_le := h.unit_le
  floating_le := h.floating_le
  skippedOrder := .nil
  skipped t ht := absurd ht (Array.not_mem_empty t)

theorem pushExtras {extras : List Token} (h : Placed st n) (hu : ∀ u ∈ st.units, u.stop ≤ m)
    (he : ∀ t ∈ extras, m ≤ t.start ∧ t.start < t.stop ∧ t.stop ≤ n) :
    Placed (extras.foldl (pushExtra p) st) n := by
  induction extras generalizing st with
  | nil => exact h
  | cons t extras ih =>
      obtain ⟨hm, hlt, hn⟩ := he t List.mem_cons_self
      have ht : Placed (st.pushExtra p t) n :=
        h.pushFloating (e := _) hlt hn fun u hmem => (hu u hmem).trans hm
      apply ih ht hu
      intro t ht
      exact he t (List.mem_cons_of_mem _ ht)

/-- The error node reaches from the first skipped token to the last one. -/
theorem flushSkipped (h : Placed st n) :
    Placed (st.flushSkipped p) n ∧ (st.flushSkipped p).skipped = #[] := by
  rw [ParseState.flushSkipped]
  split
  · next first last hf hl =>
      have hfirst := h.skipped first (Array.mem_of_getElem? hf)
      have hlast := h.skipped last (Array.mem_of_back? hl)
      refine ⟨(h.pushFloating ?_ hlast.2.1 hfirst.2.2).forgetSkipped, rfl⟩
      rw [Array.back?_eq_getElem?] at hl
      obtain ⟨h0, rfl⟩ := Array.getElem?_eq_some_iff.1 hf
      obtain ⟨h1, rfl⟩ := Array.getElem?_eq_some_iff.1 hl
      by_cases h2 : 0 < st.skipped.size - 1
      · have hle := List.pairwise_iff_getElem.1 h.skippedOrder 0 (st.skipped.size - 1) h0 h1 h2
        exact Nat.lt_of_lt_of_le hfirst.1 (Nat.le_trans hle hlast.1.le)
      · have h3 : st.skipped.size - 1 = 0 := by omega
        simp only [h3] at hlast ⊢
        exact hlast.1
  · next hne =>
      refine ⟨h, ?_⟩
      by_contra hs
      have hpos : 0 < st.skipped.size := Array.size_pos_iff.2 hs
      exact hne _ _ (Array.getElem?_eq_getElem hpos) (Array.back?_eq_getElem? ▸
        Array.getElem?_eq_getElem (Nat.sub_one_lt_of_lt hpos))

theorem push (h : Placed st n) {u : InputUnit} (hn : n ≤ u.start) (hu : u.start < u.stop)
    (c : Chart) : Placed (st.push p c u) u.stop := by
  obtain ⟨hflush, hskip⟩ := h.flushSkipped (p := p)
  have hle : n ≤ u.stop := hn.trans hu.le
  refine ⟨?_, ?_, ?_, ?_, ?_⟩
  · apply hflush.toLaid.push hflush.unit_le ?_ hn hu
    intro e he
    exact hflush.floating_le e (Array.mem_toList_iff.1 he)
  · intro v hv
    rcases Array.mem_push.1 hv with hv | rfl
    · exact (hflush.unit_le v hv).trans hle
    · exact Nat.le_refl _
  · intro e he
    exact (hflush.floating_le e he).trans hle
  · simp [ParseState.push, hskip]
  · simp [ParseState.push, hskip]

theorem skip (h : Placed st n) {t : Token} (hn : n ≤ t.start) (ht : t.start < t.stop) :
    Placed (st.skip t) t.stop := by
  have hm := h.mono (hn.trans ht.le)
  refine ⟨hm.toLaid, hm.unit_le, hm.floating_le, ?_, ?_⟩
  · rw [ParseState.skip, Array.toList_push]
    apply List.pairwise_append.2
    refine ⟨h.skippedOrder, List.pairwise_singleton _ _, ?_⟩
    intro s hs t' ht'
    rw [List.mem_singleton.1 ht']
    exact (h.skipped s (Array.mem_toList_iff.1 hs)).2.1.trans hn
  · intro t' ht'
    rcases Array.mem_push.1 ht' with ht' | rfl
    · exact hm.skipped t' ht'
    · exact ⟨ht, Nat.le_refl _, fun u hu => (h.unit_le u hu).trans hn⟩

end Placed

theorem reuse?_of_fresh (hr : p.reusable = []) (st : ParseState) :
    (st.opened p).1.reuse? p (st.candidates p).1 = none := by
  simp [candidates, hr, reuse?]

section

variable (hf : p.lexer.Forward) (hr : p.reusable = [])

include hf

theorem Placed.opened (h : Placed st st.position) :
    Placed (st.opened p).1 (st.opened p).1.position ∧ st.position ≤ (st.opened p).1.position := by
  rw [ParseState.opened, passExtras]
  dsimp only
  obtain ⟨hle, hextras⟩ := Lexer.skipFrom_forward hf
    ((st.chart.close p.tables (st.suppressed p)).current.expectedTerminals p.tables).contains
    (Text.byteLength p.lexer.text + 1) (st.candidates p).2 st.position false
  refine ⟨?_, hle⟩
  have hst : Placed { st with
      saved := (p.lexer.skipExtras (st.candidates p).2 st.position
        ((st.chart.close p.tables (st.suppressed p)).current.expectedTerminals p.tables).contains).2
      chart := st.chart.close p.tables (st.suppressed p) } _ := (h.mono hle).of_frame rfl rfl rfl
  exact (hst.pushExtras (m := st.position) h.unit_le hextras).of_frame rfl rfl rfl

theorem Placed.reading (h : Placed st st.position) :
    Placed (st.reading p) (st.reading p).position := by
  obtain ⟨ho, -⟩ := h.opened hf
  rw [ParseState.reading]
  split
  · exact ho
  · exact ho.of_frame rfl rfl rfl

theorem nextToken_forward {afterExtra : Bool} {t : Token}
    (h : (st.nextToken p afterExtra).1 = some t) : st.position ≤ t.start ∧ t.start < t.stop := by
  obtain ⟨-, ⟨-, _, hfound⟩ | herror⟩ := nextToken_eq_some h
  · exact hfound.forward hf
  · exact Lexer.errorToken_forward herror

include hr

theorem Placed.more {st' : ParseState} (h : Placed st st.position) (hs : st.step p = .more st') :
    Placed st' st'.position := by
  have hread := h.reading hf
  rw [step_eq, reuse?_of_fresh hr] at hs
  dsimp only at hs
  split at hs
  · next t hx =>
      obtain ⟨hle, hlt⟩ := nextToken_forward hf hx
      cases hs
      have hread' : Placed { st.reading p with
          saved := ((st.reading p).nextToken p (st.opened p).2).2 } (st.reading p).position :=
        hread.of_frame rfl rfl rfl
      rw [shift]
      split
      · exact hread'.push (u := .token t) hle hlt _
      · exact hread'.skip hle hlt
  · cases hs

theorem Placed.finished {st' : ParseState} (h : Placed st st.position)
    (hs : st.step p = .finished st') : ∃ n, Placed st' n := by
  have hread := h.reading hf
  rw [step_eq, reuse?_of_fresh hr] at hs
  dsimp only at hs
  split at hs
  · cases hs
  · cases hs
    have hread' : Placed { st.reading p with
        saved := ((st.reading p).nextToken p (st.opened p).2).2 } (st.reading p).position :=
      hread.of_frame rfl rfl rfl
    exact ⟨_, hread'.flushSkipped.1⟩

theorem Visits.placed (h : Visits p st) : Placed st st.position := by
  induction h with
  | initial => exact .initial p
  | step _ hs ih => exact ih.more hf hr hs

/-- Where the parse ends, the units lie one behind the other and the extras and errors between. -/
theorem Ends.placed (h : Ends p st) : ∃ n, Placed st n := by
  obtain ⟨st₁, hv, hs⟩ := h
  exact (hv.placed hf hr).finished hf hr hs

end

end ParseState

end EarleyTree

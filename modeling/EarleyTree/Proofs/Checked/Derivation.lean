import EarleyTree.Proofs.Checked.Lookup
import EarleyTree.Proofs.Parsing.Building

/-!
Trees out of a chart with checked lookups: where a unit, a set, a symbol or a production is asked for
and there is none, there is a fault. Where the chart has one set more than there are units and its items
have derivations, none is met.
-/
namespace EarleyTree.Checked

open Text

/-- Steps of a derivation that may meet a fault. -/
abbrev Extraction := StateT Memory (Except Fault)

/-- A derivation that looks nothing up; to go too deep is a fault. -/
def lift {α : Type} (act : Extract α) : Extraction α := fun m => demand .endless (act m)

section

variable (x : Derivation)

def unitAt (i : Nat) : Except Fault InputUnit := demand .unit x.units[i]?

def span (i j : Nat) : Except Fault Span :=
  if i < j then do
    let first ← unitAt x i
    let last ← unitAt x (j - 1)
    return x.lines.span first.start last.stop
  else return x.emptySpan i

def materialize (derive : Stretch → Extraction (Option (List Subtree))) (step : Step) (i j : Nat) :
    Extraction (Option (List Subtree)) := do
  let info ← symbolAt x.tables step.symbol
  let shown := info.visible || step.newKind.isSome
  let kind := step.newKind.getD step.symbol
  if info.isTerminal then
    if shown then
      let place ← span x i j
      let t := Subtree.leaf (← lift x.freshIdent) step.symbol kind place
      return some [t.setField step.field]
    else return some []
  else
    match ← derive ⟨step.symbol, i, j⟩ with
    | none => return none
    | some children =>
      if shown then
        let place ← span x i j
        let t := Subtree.node (← lift x.freshIdent) step.symbol kind place children
        return some [t.setField step.field]
      else return some (children.map (Subtree.label step.field))

def firstSplit (derive : Stretch → Extraction (Option (List Subtree))) (step : Step) (stop : Nat)
    (fits : Nat → Except Fault Bool) : List Nat → Extraction (Option (Nat × List Subtree))
  | [] => return none
  | k :: ks => do
    if ← fits k then
      match ← materialize x derive step k stop with
      | some nodes => return some (k, nodes)
      | none => firstSplit derive step stop fits ks
    else firstSplit derive step stop fits ks

def tokenBefore (step : Step) (start stop : Nat) (fits : Nat → Except Fault Bool) :
    Except Fault Bool :=
  if stop = 0 then return false
  else do
    match ← unitAt x (stop - 1) with
    | .token t =>
      if start < stop ∧ t.symbol = step.symbol then fits (stop - 1) else return false
    | .reused _ => return false

def reusedBefore (step : Step) (start stop : Nat) (fits : Nat → Except Fault Bool) :
    Except Fault (Option Subtree) :=
  if stop ≤ start then return none
  else
    match x.units[stop - 1]? with
    | some (.reused t) => do
      if t.symbol = step.symbol then return if ← fits (stop - 1) then some t else none
      else return none
    | _ => return none

def deriveSteps (derive : Stretch → Extraction (Option (List Subtree))) (production origin : Nat) :
    List Step → Nat → List Subtree → Extraction (Option (List Subtree))
  | [], stop, after => return if stop = origin then some after else none
  | step :: before, stop, after => do
    let fits (k : Nat) : Except Fault Bool := do
      let set ← setAt x.sets k
      return set.contains ⟨production, before.length, origin⟩
    let info ← symbolAt x.tables step.symbol
    if info.isTerminal then
      if ← tokenBefore x step origin stop fits then
        match ← materialize x derive step (stop - 1) stop with
        | some nodes => deriveSteps derive production origin before (stop - 1) (nodes ++ after)
        | none => return none
      else return none
    else
      match ← reusedBefore x step origin stop fits with
      | some t =>
        let t ← lift (x.rename (step.newKind.getD step.symbol) t)
        deriveSteps derive production origin before (stop - 1) (t.setField step.field :: after)
      | none =>
        let completes (k : Nat) : Except Fault Bool := do
          let set ← setAt x.sets stop
          if set.completes x.tables step.symbol k then fits k else return false
        match ← firstSplit x derive step stop completes (Derivation.placesDown origin stop) with
        | some (k, nodes) => deriveSteps derive production origin before k (nodes ++ after)
        | none => return none

def firstProduction (derive : Stretch → Extraction (Option (List Subtree))) (s : Stretch) :
    List Nat → Extraction (Option (List Subtree))
  | [] => return none
  | p :: ps => do
    let production ← productionAt x.tables p
    match ← deriveSteps x derive p s.start production.steps.reverse s.stop [] with
    | some children => return some children
    | none => firstProduction derive s ps

/-- The productions by rank, which is looked up for each. -/
def ranked (productions : List Nat) : Except Fault (List Nat) := do
  productions.forM fun p => do
    let _ ← productionAt x.tables p
  return x.ranked productions

def derive : Nat → List Stretch → Stretch → Extraction (Option (List Subtree))
  | 0, _, _ => throw .endless
  | depth + 1, active, s => do
    let m ← get
    match m.memo.lookup s with
    | some known => return known
    | none =>
      if active.contains s then
        set { m with cycles := m.cycles + 1 }
        return none
      else
        let items ← setAt x.sets s.stop
        let productions ← ranked x (items.completed x.tables s.symbol s.start)
        let result ← firstProduction x (derive depth (s :: active)) s productions
        let after ← get
        if result.isSome || after.cycles = m.cycles then
          set { after with memo := (s, result) :: after.memo }
        return result

def deriveStretch (s : Stretch) : Extraction (Option (List Subtree)) := derive x x.depthBound [] s

/-- A node of the rule that the start symbol stands for. -/
def wrapped (children : List Subtree) : Except Fault Subtree := do
  let productions ← productionsAt x.tables x.tables.start
  let production ← productionAt x.tables (← demand .production productions.head?)
  let step ← stepAt production 0
  return .node x.rootIdent step.symbol step.symbol (← span x 0 x.units.size) children

def acceptedRoot : Extraction (Option Subtree) := do
  match ← deriveStretch x ⟨x.tables.start, 0, x.units.size⟩ with
  | none => return none
  | some [t] =>
    if t.isExtra then return some (← wrapped x [t])
    else return some ((t.setIdent x.rootIdent).setField none)
  | some children => return some (← wrapped x children)

end

section

variable {α β : Type} {act : Extract α} {f : α → Extract β} {g : α → Extraction β}

theorem lift_bind {Q : α → Prop} (hq : act.Yields (fun _ => True) Q) (h : ∀ a, Q a → g a = lift (f a)) :
    (lift act >>= g) = lift (act >>= f) := by
  funext m
  show (demand .endless (act m) >>= fun r => g r.1 r.2) = demand .endless (act m >>= fun r => f r.1 r.2)
  cases hact : act m with
  | none => rfl
  | some r =>
      obtain ⟨-, hr⟩ := hq m trivial r.1 r.2 hact
      exact congrFun (h r.1 hr) r.2

theorem yields_true (act : Extract α) : act.Yields (fun _ => True) fun _ => True :=
  fun _ _ _ _ _ => ⟨trivial, trivial⟩

theorem lift_bind_all (act : Extract α) (h : ∀ a, g a = lift (f a)) :
    (lift act >>= g) = lift (act >>= f) :=
  lift_bind (yields_true act) fun a _ => h a

theorem get_bind {f : Memory → Extract β} {g : Memory → Extraction β} (h : ∀ m, g m = lift (f m)) :
    (get >>= g) = lift (get >>= f) := lift_bind_all get h

theorem set_bind {m : Memory} {f : PUnit → Extract β} {g : PUnit → Extraction β}
    (h : g ⟨⟩ = lift (f ⟨⟩)) : (set m >>= g) = lift (set m >>= f) := lift_bind_all (set m) fun _ => h

theorem lift_run {m m' : Memory} {a : α} (h : act.run m = some (a, m')) :
    (lift act).run m = .ok (a, m') := by
  show demand .endless (act.run m) = .ok (a, m')
  rw [h, demand_some]

@[simp] theorem ok_lift_bind (a : α) (g : α → Extraction β) :
    ((liftM (Except.ok a : Except Fault α) : Extraction α) >>= g) = g a := rfl

end

section

variable {x : Derivation} {k : Nat} {d : Stretch → Extraction (Option (List Subtree))}
  {d' : Stretch → Extract (Option (List Subtree))} {step : Step}

theorem unitAt_eq (hk : k < x.units.size) : unitAt x k = .ok x.units[k] := by
  rw [unitAt, Array.getElem?_eq_getElem hk, demand_some]

theorem span_eq (i : Nat) {j : Nat} (hj : j ≤ x.units.size) : span x i j = .ok (x.span i j) := by
  rw [span, Derivation.span]
  by_cases hij : i < j
  · have hi : i < x.units.size := by omega
    have hj : j - 1 < x.units.size := by omega
    rw [if_pos hij, unitAt_eq hi, ok_bind, unitAt_eq hj, ok_bind, Array.getElem?_eq_getElem hi,
      Array.getElem?_eq_getElem hj]
    exact congrArg Except.ok (if_pos hij).symm
  · rw [if_neg hij]
    split
    · rw [if_neg hij]
      rfl
    · rfl

theorem materialize_eq (hs : step.symbol < x.tables.symbols.size) (i : Nat) {j : Nat}
    (hj : j ≤ x.units.size) (hd : d ⟨step.symbol, i, j⟩ = lift (d' ⟨step.symbol, i, j⟩)) :
    materialize x d step i j = lift (x.materialize d' step i j) := by
  obtain ⟨info, hinfo, hterminal, -, hvisible⟩ := exists_symbolAt hs
  rw [materialize, hinfo, ok_lift_bind, Derivation.materialize, span_eq i hj]
  dsimp only
  rw [hterminal, hvisible, ← Derivation.isShown]
  split
  · split
    · rw [ok_lift_bind]
      exact lift_bind_all x.freshIdent fun _ => rfl
    · rfl
  · rw [hd]
    refine lift_bind_all _ fun r => ?_
    cases r with
    | none => rfl
    | some children =>
        dsimp only
        split
        · rw [ok_lift_bind]
          exact lift_bind_all x.freshIdent fun _ => rfl
        · rfl

theorem firstSplit_eq {stop : Nat} {fits : Nat → Except Fault Bool} {fits' : Nat → Bool}
    (hm : ∀ k, materialize x d step k stop = lift (x.materialize d' step k stop)) {ks : List Nat}
    (hfits : ∀ k ∈ ks, fits k = .ok (fits' k)) :
    firstSplit x d step stop fits ks = lift (x.firstSplit d' step stop fits' ks) := by
  induction ks with
  | nil => rfl
  | cons k ks ih =>
      obtain ⟨hk, hks⟩ := List.forall_mem_cons.1 hfits
      rw [firstSplit, Derivation.firstSplit, hk, ok_lift_bind]
      split
      · rw [hm]
        refine lift_bind_all _ fun r => ?_
        cases r with
        | none => exact ih hks
        | some nodes => rfl
      · exact ih hks

theorem firstSplit_mem {stop : Nat} {fits : Nat → Bool} (ks : List Nat) :
    (x.firstSplit d' step stop fits ks).Yields (fun _ => True) fun r => ∀ e ∈ r, e.1 ∈ ks := by
  induction ks with
  | nil => exact .pure nofun
  | cons k ks ih =>
      rw [Derivation.firstSplit]
      have hrest : (x.firstSplit d' step stop fits ks).Yields (fun _ => True) fun r =>
          ∀ e ∈ r, e.1 ∈ k :: ks := fun m hm r m' hr =>
        ⟨trivial, fun e he => List.mem_cons_of_mem _ ((ih m hm r m' hr).2 e he)⟩
      split
      · refine .bind (yields_true _) fun r _ => ?_
        cases r with
        | none => exact hrest
        | some nodes =>
            refine .pure fun e he => ?_
            obtain rfl := Option.some.inj he
            exact List.mem_cons_self
      · exact hrest

section

variable {start stop : Nat} {fits : Nat → Except Fault Bool} {fits' : Nat → Bool}
  (hstop : stop ≤ x.units.size) (hfits : ∀ k ≤ x.units.size, fits k = .ok (fits' k))

include hstop hfits

theorem tokenBefore_eq :
    tokenBefore x step start stop fits = .ok (x.tokenBefore step start stop fits') := by
  rw [tokenBefore, Derivation.tokenBefore]
  split
  · next h0 =>
      subst h0
      rfl
  · have hlt : stop - 1 < x.units.size := by omega
    rw [unitAt_eq hlt, ok_bind, Array.getElem?_eq_getElem hlt, hfits _ hlt.le]
    cases x.units[stop - 1] with
    | reused t =>
        rw [Bool.and_false]
        rfl
    | token t =>
        dsimp only
        split
        · next h =>
            rw [decide_eq_true h.1, h.2, beq_self_eq_true, Bool.true_and, Bool.true_and]
        · next h =>
            have hno : (decide (start < stop) && (t.symbol == step.symbol && fits' (stop - 1))) =
                false := by grind
            rw [hno]
            rfl

theorem reusedBefore_eq :
    reusedBefore x step start stop fits = .ok (x.reusedBefore step start stop fits') := by
  rw [reusedBefore, Derivation.reusedBefore, hfits _ (by omega)]
  split
  · rfl
  · rcases x.units[stop - 1]? with - | - | t
    · rfl
    · rfl
    · dsimp only
      by_cases hs : t.symbol = step.symbol
      · rw [if_pos hs, ok_bind]
        simp only [hs, true_and]
        rfl
      · rw [if_neg hs, if_neg fun h => hs h.1]
        rfl

end

theorem ranked_eq {ps : List Nat} (hps : ∀ p ∈ ps, p < x.tables.productions.size) :
    ranked x ps = .ok (x.ranked ps) := by
  have hall : (ps.forM fun p => do
      let _ ← productionAt x.tables p : Except Fault PUnit) = .ok ⟨⟩ := by
    induction ps with
    | nil => rfl
    | cons p ps ih =>
        obtain ⟨hp, hps⟩ := List.forall_mem_cons.1 hps
        obtain ⟨production, hproduction, -⟩ := exists_productionAt hp
        rw [List.forM, hproduction]
        exact ih hps
  rw [ranked, hall]
  rfl

end

/-- There is one set more than there are units, and all that items and tables refer to is there. -/
structure Fits (x : Derivation) : Prop where
  addressed : x.tables.Addressed
  size : x.sets.size = x.units.size + 1
  sound : x.Sound

namespace Fits

variable {x : Derivation} (hx : Fits x)

include hx

theorem setAt_eq {k : Nat} (hk : k ≤ x.units.size) : setAt x.sets k = .ok (x.setAt k) := by
  have hlt : k < x.sets.size := by rw [hx.size]; omega
  simp [setAt, Derivation.setAt, hlt]

theorem contains_eq (item : Item) : ∀ k ≤ x.units.size, (do
    let set ← setAt x.sets k
    return set.contains item : Except Fault Bool) = .ok ((x.setAt k).contains item) := by
  intro k hk
  rw [hx.setAt_eq hk]
  rfl

theorem completes_eq {stop : Nat} (hstop : stop ≤ x.units.size) (s k : Nat)
    {fits : Except Fault Bool} {fit : Bool} (hfit : fits = .ok fit) : (do
    let set ← setAt x.sets stop
    if set.completes x.tables s k then fits else return false : Except Fault Bool) =
      .ok ((x.setAt stop).completes x.tables s k && fit) := by
  rw [hx.setAt_eq hstop, ok_bind, hfit]
  cases (x.setAt stop).completes x.tables s k with
  | true => rfl
  | false => rfl

section

variable {d : Stretch → Extraction (Option (List Subtree))}
  {d' : Stretch → Extract (Option (List Subtree))}
  (hd : ∀ s, s.stop ≤ x.units.size → d s = lift (d' s))

include hd

theorem deriveSteps_eq (production origin : Nat) (rev : List Step)
    (hrev : ∀ step ∈ rev, step.symbol < x.tables.symbols.size) (stop : Nat)
    (hstop : stop ≤ x.units.size) (after : List Subtree) :
    deriveSteps x d production origin rev stop after =
      lift (x.deriveSteps d' production origin rev stop after) := by
  induction rev generalizing stop after with
  | nil => rfl
  | cons step before ih =>
      obtain ⟨hs, hbefore⟩ := List.forall_mem_cons.1 hrev
      obtain ⟨info, hinfo, hterminal, -⟩ := exists_symbolAt hs
      have hmat : ∀ i j, j ≤ x.units.size →
          materialize x d step i j = lift (x.materialize d' step i j) :=
        fun i j hj => materialize_eq hs i hj (hd _ hj)
      have hfits := hx.contains_eq ⟨production, before.length, origin⟩
      rw [deriveSteps, Derivation.deriveSteps]
      dsimp only
      rw [hinfo, ok_lift_bind, hterminal, tokenBefore_eq hstop hfits, ok_lift_bind,
        reusedBefore_eq hstop hfits, ok_lift_bind]
      split
      · split
        · rw [hmat _ _ hstop]
          refine lift_bind_all _ fun r => ?_
          cases r with
          | none => rfl
          | some nodes => exact ih hbefore _ (by omega) _
        · rfl
      · cases x.reusedBefore step origin stop
            fun k => (x.setAt k).contains ⟨production, before.length, origin⟩ with
        | some t => exact lift_bind_all _ fun t => ih hbefore _ (by omega) _
        | none =>
            dsimp only
            have hplaces : ∀ k ∈ Derivation.placesDown origin stop, k ≤ stop :=
              fun k hk => (Derivation.mem_placesDown.1 hk).2
            rw [firstSplit_eq (fun k => hmat k stop hstop) fun k hk => ?_]
            · refine lift_bind (firstSplit_mem _) fun r hr => ?_
              cases r with
              | none => rfl
              | some e => exact ih hbefore _ ((hplaces _ (hr e rfl)).trans hstop) _
            · exact hx.completes_eq hstop step.symbol k (hfits k ((hplaces k hk).trans hstop))

theorem firstProduction_eq (s : Stretch) (hs : s.stop ≤ x.units.size) (ps : List Nat)
    (hps : ∀ p ∈ ps, p < x.tables.productions.size) :
    firstProduction x d s ps = lift (x.firstProduction d' s ps) := by
  induction ps with
  | nil => rfl
  | cons p ps ih =>
      obtain ⟨hp, hps⟩ := List.forall_mem_cons.1 hps
      obtain ⟨production, hproduction, -, hsteps⟩ := exists_productionAt hp
      rw [firstProduction, Derivation.firstProduction, hproduction, ok_lift_bind, hsteps,
        hx.deriveSteps_eq hd p s.start _
          (fun step hm => hx.addressed.step p step (List.mem_reverse.1 hm)) s.stop hs]
      refine lift_bind_all _ fun r => ?_
      cases r with
      | none => exact ih hps
      | some children => rfl

end

theorem derive_eq (depth : Nat) (active : List Stretch) (s : Stretch)
    (hs : s.stop ≤ x.units.size) : derive x depth active s = lift (x.derive depth active s) := by
  induction depth generalizing active s with
  | zero => rfl
  | succ depth ih =>
      have hps : ∀ p ∈ (x.setAt s.stop).completed x.tables s.symbol s.start,
          p < x.tables.productions.size := fun p hp => (hx.sound.of_mem_completed hp).1
      rw [derive, Derivation.derive]
      refine get_bind fun m => ?_
      cases m.memo.lookup s with
      | some known => rfl
      | none =>
          dsimp only
          split
          · exact set_bind rfl
          · rw [hx.setAt_eq hs, ok_lift_bind, ranked_eq hps, ok_lift_bind,
              hx.firstProduction_eq (fun c hc => ih _ c hc) s hs _
                fun p hp => hps p (Derivation.mem_ranked.1 hp)]
            refine lift_bind_all _ fun result => get_bind fun after => ?_
            split
            · exact set_bind rfl
            · rfl

theorem deriveStretch_eq {s : Stretch} (hs : s.stop ≤ x.units.size) :
    deriveStretch x s = lift (x.deriveStretch s) :=
  hx.derive_eq _ [] s hs

theorem wrapped_eq (children : List Subtree) :
    wrapped x children = .ok (.node x.rootIdent x.startRule x.startRule
      (x.span 0 x.units.size) children) := by
  obtain ⟨p, rule, hp, hs⟩ := hx.sound.wellFormed.start
  obtain ⟨production, hproduction, -, hsteps⟩ := exists_productionAt
    (hx.addressed.productionsOf _ p (hp ▸ List.mem_singleton_self p))
  rw [wrapped, productionsAt_eq hx.addressed hx.addressed.start, ok_bind, hp, List.head?_cons,
    demand_some, ok_bind, hproduction, ok_bind, stepAt, hsteps, hs, span_eq 0 le_rfl,
    Derivation.steps_startRule hp hs]
  rfl

theorem acceptedRoot_eq : acceptedRoot x = lift x.acceptedRoot := by
  rw [acceptedRoot, Derivation.acceptedRoot, hx.deriveStretch_eq le_rfl]
  refine lift_bind_all _ fun r => ?_
  rcases r with - | - | ⟨t, - | ⟨u, ts⟩⟩
  · rfl
  · dsimp only
    rw [hx.wrapped_eq]
    rfl
  · dsimp only
    rw [hx.wrapped_eq]
    split
    · rfl
    · rfl
  · dsimp only
    rw [hx.wrapped_eq]
    rfl

end Fits

end EarleyTree.Checked

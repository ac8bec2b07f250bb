import Mathlib.Data.Fintype.Card
import Purv.PurvaMap
import Purv.PurvaSlices

/-!
# Several instances (`purvarun.h`, `g_prog`)

The instances of a process share one program pointer.  `purva_run` sets it once, before its loop;
the callbacks of the instance may run other instances in the meantime, which set it again.

* `sliceShared` — the loop of `purva_run`, with `g_prog` read where the engine reads it;
* `World`, `purvaRunShared` — the instances of a process, and a `purva_run` on one of them with the
  `purva_run`s on others that its callbacks make;
* `schedule` — the calls that are made, found with every instance alone;
* `sliceShared_eq` — the loop does not go back to the engine after a callback;
* `purvaRunShared_depth` — the bound on the nesting is none;
* `instances_alone` — these calls are made, and each instance does what it does alone.

The data of an instance's host is its own; the rest of the process is beside it in what the `user`
pointer reaches.
-/

namespace Purv.Purva

open Bits Transcode

variable {I U V : Type}

/-! ## The engine's exits -/

/-- What the exits of the engine say: a budget that is used up, a pc outside the program, or a
status. -/
def StopsWell (clen : Word) (max : Nat) (res : Result (PurvaRun U)) : Prop :=
  match res.stop with
  | .budget => max ≤ res.k
  | .window => res.r.s.pc ≥ clen
  | .trap => Run.status res.r ≠ .fuel
  | .wild | .running => True

theorem loopFrom_stops (cb : PurvaCallbacks U) (steps : Nat) (ops : List Word) (clen : Word)
    (max fuel : Nat) (r : Run (PurvaRun U)) (p k : Nat) (hs : Run.status r = .fuel) :
    StopsWell clen max (loopFrom (purvaHooks cb steps) ops clen max fuel r p k) := by
  induction fuel generalizing r p k with
  | zero => trivial
  | succ fuel ih =>
    unfold loopFrom
    cases ops[p]? with
    | none => trivial
    | some w =>
      simp only
      have hstatus := dispatch_status cb steps (BitVec.ofNat 32 p) w (ops.getD (p + 1) 0#32) hs
      generalize dispatch (purvaHooks cb steps) r (BitVec.ofNat 32 p) w _ = o at hstatus ⊢
      obtain ⟨r', c, g⟩ := o
      have hrun : g ≠ .trap true → Run.status r' = .fuel := fun hg =>
        Decidable.of_not_not fun hne => hg (hstatus.mpr hne)
      cases g with
      | fall n => exact ih r' _ _ (hrun nofun)
      | reloc idx =>
        simp only
        split
        · assumption
        · exact ih r' _ _ (hrun nofun)
      | indirect t =>
        simp only
        split
        · assumption
        · split
          · assumption
          · exact ih r' _ _ (hrun nofun)
      | trap stop =>
        cases stop with
        | true => exact hstatus.mp rfl
        | false =>
          simp only
          split
          · assumption
          · exact ih r' _ _ (hrun nofun)

theorem riscvEmulatorLoop_stops (cb : PurvaCallbacks U) (steps : Nat) (prog : Transcoded)
    (r : Run (PurvaRun U)) (max : Nat) (hs : Run.status r = .fuel) :
    StopsWell prog.code_len max (riscvEmulatorLoop (purvaHooks cb steps) prog r max) := by
  unfold riscvEmulatorLoop
  split
  · assumption
  · exact loopFrom_stops cb steps _ _ _ _ r _ _ hs

/-! ## The shared program pointer -/

/-- The loop of `purva_run` on an instance of `clen` bytes of code: the engine runs whatever
`g_prog` is when it is entered, and returns at once when that is `NULL`. -/
def sliceShared (h : Hooks (PurvaRun V)) (g_prog : V → Option Transcoded) (clen : Word)
    (fuel : Nat) : Nat → Run (PurvaRun V) → Nat → Run (PurvaRun V) × Nat
  | 0, r, total => (r, total)
  | rounds + 1, r, total =>
    if total < fuel then
      let res : Result (PurvaRun V) := match g_prog r.s.host.user with
        | none => ⟨r, 0, .window⟩
        | some prog => riscvEmulatorLoop h prog r (fuel - total)
      let total := total + res.k
      if res.stop = .wild ∨ res.stop = .running then (Run.withStatus res.r .lost, total)
      else if Run.status res.r ≠ .fuel then (res.r, total)
      else if res.r.s.pc ≥ clen then (Run.withStatus res.r .trap, total)
      else if res.k = 0 then (Run.withStatus res.r .trap, total)
      else sliceShared h g_prog clen fuel rounds res.r total
    else (r, total)

theorem sliceShared_full (h : Hooks (PurvaRun V)) (g_prog : V → Option Transcoded) (clen : Word)
    {fuel : Nat} (rounds : Nat) (r : Run (PurvaRun V)) {total : Nat} (hle : fuel ≤ total) :
    sliceShared h g_prog clen fuel rounds r total = (r, total) := by
  cases rounds with
  | zero => rfl
  | succ rounds => exact if_neg (Nat.not_lt.mpr hle)

/-- **The engine is entered once.**  It comes back with a runnable guest inside its program only
when the budget is used up, so that what `g_prog` is by then does not matter. -/
theorem sliceShared_eq (cb : PurvaCallbacks V) (steps : Nat) (g_prog : V → Option Transcoded)
    (prog : Transcoded) (fuel rounds : Nat) (r : Run (PurvaRun V)) (hs : Run.status r = .fuel)
    (hprog : g_prog r.s.host.user = some prog) :
    sliceShared (purvaHooks cb steps) g_prog prog.code_len fuel rounds r 0 =
      sliceFrom (purvaHooks cb steps) prog fuel rounds r 0 := by
  cases rounds with
  | zero => rfl
  | succ rounds =>
    unfold sliceShared sliceFrom
    rw [hprog]
    have hstops := riscvEmulatorLoop_stops cb steps prog r (fuel - 0) hs
    simp only
    generalize riscvEmulatorLoop (purvaHooks cb steps) prog r (fuel - 0) = res at hstops ⊢
    split
    · split
      · rfl
      · rename_i hstop
        split
        · rfl
        · rename_i hs'
          split
          · rfl
          · rename_i hpc
            split
            · rfl
            · have hle : fuel ≤ 0 + res.k := by
                unfold StopsWell at hstops
                cases hres : res.stop with
                | window =>
                  rw [hres] at hstops
                  exact absurd hstops hpc
                | budget =>
                  rw [hres] at hstops
                  omega
                | trap =>
                  rw [hres] at hstops
                  exact absurd hstops hs'
                | wild => exact absurd (Or.inl hres) hstop
                | running => exact absurd (Or.inr hres) hstop
              rw [sliceShared_full _ _ _ _ _ hle, sliceFrom_full _ _ _ _ hle]
    · rfl

/-! ## The process -/

/-- A call of `purva_run` on an instance: its fuel, its return value, `*used`, and the instance
after it. -/
structure Event (U : Type) where
  fuel : Nat
  ret : Status
  used : Nat
  run : Run (PurvaRun U)

/-- The process: the program pointer, the instances, the calls that each has seen, and the number of
callbacks made so far.  An instance that is running is in the hands of its `purva_run`; `runs` has
it as it was before. -/
structure World (I U : Type) where
  g_prog : Option Transcoded
  runs : I → Run (PurvaRun U)
  history : I → List (Event U)
  turn : Nat

/-- `RiscvEmulatorSetProgram`. -/
def World.setProgram (w : World I U) (prog : Transcoded) : World I U :=
  { w with g_prog := some prog }

/-- The callbacks of an instance within the process: its own, and whatever the host does with other
instances meanwhile. -/
def sharedCallbacks (cb : PurvaCallbacks U) (nested : World I U → World I U) :
    PurvaCallbacks (U × World I U) where
  write := cb.write.map fun write v fd buf =>
    let (user, n) := write v.1 fd buf
    ((user, nested v.2), n)
  hostcall := cb.hostcall.map fun hostcall v fn a0 a1 a2 =>
    let (user, ret, stop) := hostcall v.1 fn a0 a1 a2
    ((user, nested v.2), ret, stop)

section
variable [DecidableEq I] (cb : I → PurvaCallbacks U) (prog : I → Transcoded) (steps : Nat)

/-- The end of a call on instance `i`. -/
def World.ended (w : World I U) (i : I) (e : Event U) : World I U :=
  { w with
    runs := fun j => if j = i then e.run else w.runs j
    history := fun j => if j = i then w.history j ++ [e] else w.history j }

/-- `purva_run` on an instance, with the calls that its callbacks make on others: callback number
`n` of the process makes the calls of `plan n`, in order, on instances that are not running.
`active` are the running ones, and `depth` bounds the nesting. -/
def purvaRunShared (plan : Nat → List (I × Nat)) :
    Nat → List I → World I U → I × Nat → World I U
  | 0, _, w, _ => w
  | depth + 1, active, w, (i, fuel) =>
    if i ∈ active then w
    else
      let r := w.runs i
      if Run.status r ≠ .fuel then w.ended i ⟨fuel, Run.status r, 0, r⟩
      else
        let nested := fun w : World I U =>
          (plan w.turn).foldl (purvaRunShared plan depth (i :: active))
            { w with turn := w.turn + 1 }
        let w := w.setProgram (prog i)
        let (r, used) := sliceShared (purvaHooks (sharedCallbacks (cb i) nested) steps)
          (fun v => v.2.g_prog) (prog i).code_len fuel fuel (runMap (fun user => (user, w)) r) 0
        r.s.host.user.2.ended i ⟨fuel, Run.status r, used, runMap Prod.fst r⟩

/-- The calls of `purva_run` on an instance that has the process to itself. -/
def alone (cb : PurvaCallbacks U) (prog : Transcoded) :
    Run (PurvaRun U) → List Nat → List (Event U)
  | _, [] => []
  | r, fuel :: fuels =>
    let (r, used) := purvaRun (purvaHooks cb steps) prog r fuel
    ⟨fuel, Run.status r, used, r⟩ :: alone cb prog r fuels

/-- The instance after its calls. -/
def after (r : Run (PurvaRun U)) (es : List (Event U)) : Run (PurvaRun U) :=
  es.foldl (fun _ e => e.run) r

/-- The process before any call. -/
def World.init (g_prog : Option Transcoded) (runs : I → Run (PurvaRun U)) : World I U :=
  ⟨g_prog, runs, fun _ => [], 0⟩

/-! ## The calls -/

/-- The callbacks of an instance, counted. -/
def countedCallbacks (cb : PurvaCallbacks U) : PurvaCallbacks (U × Nat) where
  write := cb.write.map fun write v fd buf =>
    let (user, n) := write v.1 fd buf
    ((user, v.2 + 1), n)
  hostcall := cb.hostcall.map fun hostcall v fn a0 a1 a2 =>
    let (user, ret, stop) := hostcall v.1 fn a0 a1 a2
    ((user, v.2 + 1), ret, stop)

/-- How many callbacks a call of `purva_run` makes on an instance that has the process to itself. -/
def callbacksMade (cb : PurvaCallbacks U) (prog : Transcoded) (r : Run (PurvaRun U)) (fuel : Nat) :
    Nat :=
  (purvaRun (purvaHooks (countedCallbacks cb) steps) prog
    (runMap (fun user => (user, 0)) r) fuel).1.s.host.user.2

/-- The calls made so far, as they ended, and the number of callbacks. -/
structure Calls (I : Type) where
  turn : Nat
  made : List (I × Nat)

/-- The calls on an instance. -/
def Calls.fuels (c : Calls I) (i : I) : List Nat :=
  (c.made.filter fun call => call.1 = i).map Prod.snd

/-- The calls that a call leads to: for each callback that its instance, alone, makes, those of the
next `plan`, and then itself. -/
def schedule (plan : Nat → List (I × Nat)) (runs : I → Run (PurvaRun U)) :
    Nat → List I → Calls I → I × Nat → Calls I
  | 0, _, c, _ => c
  | depth + 1, active, c, (i, fuel) =>
    if i ∈ active then c
    else
      let r := after (runs i) (alone steps (cb i) (prog i) (runs i) (c.fuels i))
      let nested := fun c : Calls I =>
        (plan c.turn).foldl (schedule plan runs depth (i :: active)) { c with turn := c.turn + 1 }
      let c := nested^[callbacksMade steps (cb i) (prog i) r fuel] c
      { c with made := c.made ++ [(i, fuel)] }

/-! ## Each instance alone -/

/-- Every instance has done what it does alone with the calls on it. -/
structure AsAlone (runs : I → Run (PurvaRun U)) (w : World I U) (c : Calls I) : Prop where
  turn : w.turn = c.turn
  history : ∀ i, w.history i = alone steps (cb i) (prog i) (runs i) (c.fuels i)
  runs : ∀ i, w.runs i = after (runs i) (w.history i)

end

section
variable {steps : Nat}

theorem after_snoc (r : Run (PurvaRun U)) (es : List (Event U)) (e : Event U) :
    after r (es ++ [e]) = e.run := by
  unfold after
  rw [List.foldl_append]
  rfl

/-- A call after others. -/
theorem alone_snoc (cb : PurvaCallbacks U) (prog : Transcoded) (r : Run (PurvaRun U))
    (fuels : List Nat) (fuel : Nat) :
    alone steps cb prog r (fuels ++ [fuel]) =
      alone steps cb prog r fuels ++
        alone steps cb prog (after r (alone steps cb prog r fuels)) [fuel] := by
  induction fuels generalizing r with
  | nil => rfl
  | cons f fuels ih =>
    rw [List.cons_append]
    unfold alone
    simp only
    rw [ih, List.cons_append]
    rfl

variable [DecidableEq I] {cb : I → PurvaCallbacks U} {prog : I → Transcoded}

theorem fuels_snoc (c : Calls I) (i j : I) (fuel : Nat) :
    Calls.fuels { c with made := c.made ++ [(i, fuel)] } j =
      if i = j then c.fuels j ++ [fuel] else c.fuels j := by
  unfold Calls.fuels
  simp only [List.filter_append, List.map_append]
  split
  · rename_i hij
    rw [List.filter_cons_of_pos (by simpa using hij)]
    rfl
  · rename_i hij
    rw [List.filter_cons_of_neg (by simpa using hij)]
    exact List.append_nil _

/-- A call that does what it does alone. -/
theorem asAlone_ended {runs : I → Run (PurvaRun U)} {w : World I U} {c : Calls I}
    (hw : AsAlone cb prog steps runs w c) (i : I) {e : Event U}
    (he : [e] = alone steps (cb i) (prog i) (w.runs i) [e.fuel]) :
    AsAlone cb prog steps runs (w.ended i e) { c with made := c.made ++ [(i, e.fuel)] } := by
  refine ⟨hw.turn, fun j => ?_, fun j => ?_⟩
  · rw [fuels_snoc]
    unfold World.ended
    simp only
    by_cases hj : j = i
    · subst hj
      rw [if_pos rfl, if_pos rfl, alone_snoc, ← hw.history, ← hw.runs, ← he]
    · rw [if_neg hj, if_neg (Ne.symm hj), hw.history]
  · unfold World.ended
    simp only
    by_cases hj : j = i
    · subst hj
      rw [if_pos rfl, if_pos rfl, after_snoc]
    · rw [if_neg hj, if_neg hj, hw.runs]

omit [DecidableEq I] in
/-- The callbacks of an instance are its own. -/
theorem sharedCallbacks_respects (cb : PurvaCallbacks U) (nested : World I U → World I U) :
    Respects Prod.fst (sharedCallbacks cb nested) cb := by
  obtain ⟨write, hostcall⟩ := cb
  constructor
  · cases write with
    | none => exact .none
    | some a => exact .some fun _ _ _ => rfl
  · cases hostcall with
    | none => exact .none
    | some a => exact .some fun _ _ _ _ _ => rfl

omit [DecidableEq I] in
/-- The process after a number of callbacks. -/
theorem countedCallbacks_respects (cb : PurvaCallbacks U) (nested : World I U → World I U)
    (w : World I U) :
    Respects (fun v : U × Nat => (v.1, nested^[v.2] w)) (countedCallbacks cb)
      (sharedCallbacks cb nested) := by
  obtain ⟨write, hostcall⟩ := cb
  constructor
  · cases write with
    | none => exact .none
    | some a =>
      refine .some fun v fd buf => ?_
      simp only [Function.iterate_succ_apply']
  · cases hostcall with
    | none => exact .none
    | some a =>
      refine .some fun v fn a0 a1 a2 => ?_
      simp only [Function.iterate_succ_apply']

/-- The instances of `active` are as they were. -/
def Untouched (active : List I) (w w' : World I U) : Prop :=
  ∀ a ∈ active, w'.runs a = w.runs a ∧ w'.history a = w.history a

omit [DecidableEq I] in
theorem untouched_refl (active : List I) (w : World I U) : Untouched active w w :=
  fun _ _ => ⟨rfl, rfl⟩

omit [DecidableEq I] in
theorem untouched_trans {active : List I} {w w' w'' : World I U} (h : Untouched active w w')
    (h' : Untouched active w' w'') : Untouched active w w'' := fun a ha =>
  ⟨(h' a ha).1.trans (h a ha).1, (h' a ha).2.trans (h a ha).2⟩

theorem untouched_ended {active : List I} {w w' : World I U} (h : Untouched active w w') {i : I}
    (hi : i ∉ active) (e : Event U) : Untouched active w (w'.ended i e) := by
  intro a ha
  have hne : a ≠ i := fun hai => hi (hai ▸ ha)
  unfold World.ended
  simp only
  rw [if_neg hne, if_neg hne]
  exact h a ha

/-- What a call does to the process, its schedule says, and the instances of `active` are left
alone. -/
def Follows (cb : I → PurvaCallbacks U) (prog : I → Transcoded) (steps : Nat)
    (runs : I → Run (PurvaRun U)) (active : List I) (f : World I U → World I U)
    (g : Calls I → Calls I) : Prop :=
  ∀ w c, AsAlone cb prog steps runs w c →
    AsAlone cb prog steps runs (f w) (g c) ∧ Untouched active w (f w)

section
variable {runs : I → Run (PurvaRun U)} {active : List I}

/-- What holds of a call, holds of a sequence of calls. -/
theorem follows_foldl {f : World I U → I × Nat → World I U} {g : Calls I → I × Nat → Calls I}
    (hcall : ∀ call, Follows cb prog steps runs active (f · call) (g · call))
    (calls : List (I × Nat)) :
    Follows cb prog steps runs active (calls.foldl f) (calls.foldl g) := by
  induction calls with
  | nil => exact fun w _ hw => ⟨hw, untouched_refl active w⟩
  | cons call calls ih =>
    intro w c hw
    obtain ⟨h1, h2⟩ := hcall call w c hw
    obtain ⟨h3, h4⟩ := ih (f w call) (g c call) h1
    exact ⟨h3, untouched_trans h2 h4⟩

theorem follows_iterate {f : World I U → World I U} {g : Calls I → Calls I}
    (h : Follows cb prog steps runs active f g) (n : Nat) :
    Follows cb prog steps runs active f^[n] g^[n] := by
  induction n with
  | zero => exact fun w _ hw => ⟨hw, untouched_refl active w⟩
  | succ n ih =>
    intro w c hw
    obtain ⟨h1, h2⟩ := h w c hw
    obtain ⟨h3, h4⟩ := ih (f w) (g c) h1
    exact ⟨h3, untouched_trans h2 h4⟩

/-- A call on an instance that is not running: its callbacks make the calls of their plans, these
leave it alone, and at its end it has done what it does alone. -/
theorem purvaRunShared_ended (plan : Nat → List (I × Nat)) {depth : Nat} {i : I}
    (hi : i ∉ active) (fuel : Nat)
    (hkeep : ∀ call, Follows cb prog steps runs (i :: active)
      (purvaRunShared cb prog steps plan depth (i :: active) · call)
      (schedule cb prog steps plan runs depth (i :: active) · call)) :
    Follows cb prog steps runs active
      (purvaRunShared cb prog steps plan (depth + 1) active · (i, fuel))
      (schedule cb prog steps plan runs (depth + 1) active · (i, fuel)) := by
  intro w c hw
  unfold purvaRunShared schedule
  simp only [if_neg hi]
  rw [← hw.history, ← hw.runs]
  by_cases hs : Run.status (w.runs i) ≠ .fuel
  · rw [if_pos hs]
    have hnone : callbacksMade steps (cb i) (prog i) (w.runs i) fuel = 0 := by
      have hs' : Run.status (runMap (fun user => (user, 0)) (w.runs i)) ≠ .fuel := hs
      unfold callbacksMade
      rw [purvaRun_over _ _ hs']
      rfl
    rw [hnone]
    refine ⟨asAlone_ended hw i ?_, untouched_ended (untouched_refl _ w) hi _⟩
    unfold alone
    rw [purvaRun_over _ _ hs]
    rfl
  rw [if_neg hs]
  have hs := not_not.mp hs
  generalize hn : callbacksMade steps (cb i) (prog i) (w.runs i) fuel = n
  generalize hnested : (fun w : World I U => (plan w.turn).foldl
    (purvaRunShared cb prog steps plan depth (i :: active)) { w with turn := w.turn + 1 }) = nested
  have hnests : Follows cb prog steps runs (i :: active) nested fun c => (plan c.turn).foldl
      (schedule cb prog steps plan runs depth (i :: active)) { c with turn := c.turn + 1 } := by
    subst hnested
    intro w' c' hw'
    simp only [hw'.turn]
    exact follows_foldl hkeep (plan c'.turn) { w' with turn := c'.turn + 1 }
      { c' with turn := c'.turn + 1 } ⟨rfl, hw'.history, hw'.runs⟩
  -- the process at the end of the call: its callbacks have been made, one after another
  obtain ⟨hdone, hsame⟩ := follows_iterate hnests n (w.setProgram (prog i)) c
    ⟨hw.turn, hw.history, hw.runs⟩
  have hcount := purvaRun_map
    (countedCallbacks_respects (cb i) nested (w.setProgram (prog i))) steps (prog i)
    (runMap (fun user => (user, 0)) (w.runs i)) fuel
  have hown := purvaRun_map (sharedCallbacks_respects (cb i) nested) steps (prog i)
    (runMap (fun user => (user, w.setProgram (prog i))) (w.runs i)) fuel
  rw [runMap_comp, show Prod.fst ∘ (fun user => (user, w.setProgram (prog i))) = id from rfl,
    runMap_id] at hown
  rw [runMap_comp] at hcount
  change purvaRun _ _ (runMap (fun user => (user, w.setProgram (prog i))) (w.runs i)) fuel = _
    at hcount
  have hslice := sliceShared_eq (sharedCallbacks (cb i) nested) steps (fun v => v.2.g_prog)
    (prog i) fuel fuel (runMap (fun user => (user, w.setProgram (prog i))) (w.runs i)) hs rfl
  have hrun : purvaRun (purvaHooks (sharedCallbacks (cb i) nested) steps) (prog i)
      (runMap (fun user => (user, w.setProgram (prog i))) (w.runs i)) fuel =
        sliceFrom (purvaHooks (sharedCallbacks (cb i) nested) steps) (prog i) fuel fuel
          (runMap (fun user => (user, w.setProgram (prog i))) (w.runs i)) 0 :=
    if_neg (not_not.mpr hs)
  rw [hslice, ← hrun]
  have hworld : (purvaRun (purvaHooks (sharedCallbacks (cb i) nested) steps) (prog i)
      (runMap (fun user => (user, w.setProgram (prog i))) (w.runs i)) fuel).1.s.host.user.2 =
        nested^[n] (w.setProgram (prog i)) := by
    rw [hcount, ← hn]
    rfl
  generalize purvaRun (purvaHooks (sharedCallbacks (cb i) nested) steps) (prog i) _ fuel = o
    at hworld hown
  obtain ⟨r, used⟩ := o
  simp only at hworld hown ⊢
  rw [hworld]
  refine ⟨asAlone_ended hdone i ?_, untouched_ended (fun a ha => hsame a
    (List.mem_cons_of_mem i ha)) hi _⟩
  rw [(hsame i List.mem_cons_self).1]
  show _ = alone steps (cb i) (prog i) (w.runs i) [fuel]
  unfold alone
  rw [hown]
  rfl

end

/-- **One call.**  Its instance does what it does alone, so do the ones that its callbacks run, and
those that were running are left alone. -/
theorem purvaRunShared_follows (plan : Nat → List (I × Nat)) (runs : I → Run (PurvaRun U))
    (depth : Nat) (active : List I) (call : I × Nat) :
    Follows cb prog steps runs active
      (purvaRunShared cb prog steps plan depth active · call)
      (schedule cb prog steps plan runs depth active · call) := by
  induction depth generalizing active call with
  | zero => exact fun w _ hw => ⟨hw, untouched_refl active w⟩
  | succ depth ih =>
    obtain ⟨i, fuel⟩ := call
    by_cases hi : i ∈ active
    · intro w c hw
      unfold purvaRunShared schedule
      simp only [if_pos hi]
      exact ⟨hw, untouched_refl active w⟩
    · exact purvaRunShared_ended plan hi fuel (ih (i :: active))

/-! ## Which calls are made -/

/-- The nesting is at most as deep as there are instances: more depth makes no difference. -/
theorem purvaRunShared_depth [Fintype I] (plan : Nat → List (I × Nat)) (depth depth' : Nat)
    (active : List I) (hnodup : active.Nodup) (hd : Fintype.card I < depth + active.length)
    (hd' : Fintype.card I < depth' + active.length) :
    purvaRunShared cb prog steps plan depth active =
      purvaRunShared cb prog steps plan depth' active := by
  have hle := hnodup.length_le_card
  induction depth generalizing depth' active with
  | zero => omega
  | succ depth ih =>
    cases depth' with
    | zero => omega
    | succ depth' =>
      funext w c
      obtain ⟨i, fuel⟩ := c
      unfold purvaRunShared
      split
      · rfl
      · rename_i hi
        have hcons : (i :: active).Nodup := List.nodup_cons.mpr ⟨hi, hnodup⟩
        have hlen : (i :: active).length = active.length + 1 := rfl
        rw [ih depth' (i :: active) hcons (by omega) (by omega) hcons.length_le_card]

/-- `f` takes back no call. -/
def Adds (f : Calls I → Calls I) : Prop := ∀ c, c.made <+: (f c).made

omit [DecidableEq I] in
theorem adds_foldl {f : Calls I → I × Nat → Calls I} (hf : ∀ call, Adds (f · call))
    (calls : List (I × Nat)) : Adds (calls.foldl f) := by
  induction calls with
  | nil => exact fun _ => List.prefix_refl _
  | cons call calls ih => exact fun c => (hf call c).trans (ih (f c call))

omit [DecidableEq I] in
theorem adds_iterate {f : Calls I → Calls I} (hf : Adds f) (n : Nat) : Adds f^[n] := by
  induction n with
  | zero => exact fun _ => List.prefix_refl _
  | succ n ih => exact fun c => (hf c).trans (ih (f c))

/-- A call on an instance that is not running comes after those before it, and after those that it
leads to. -/
theorem schedule_snoc (plan : Nat → List (I × Nat)) (runs : I → Run (PurvaRun U)) {depth : Nat}
    {active : List I} {i : I} (hi : i ∉ active) (fuel : Nat) (c : Calls I)
    (hf : ∀ call, Adds (schedule cb prog steps plan runs depth (i :: active) · call)) :
    ∃ before, c.made <+: before ∧
      (schedule cb prog steps plan runs (depth + 1) active c (i, fuel)).made =
        before ++ [(i, fuel)] := by
  unfold schedule
  rw [if_neg hi]
  exact ⟨_, adds_iterate (fun c => adds_foldl hf (plan c.turn) { c with turn := c.turn + 1 }) _ c,
    rfl⟩

theorem schedule_adds (plan : Nat → List (I × Nat)) (runs : I → Run (PurvaRun U)) (depth : Nat)
    (active : List I) (call : I × Nat) :
    Adds (schedule cb prog steps plan runs depth active · call) := by
  induction depth generalizing active call with
  | zero => exact fun _ => List.prefix_refl _
  | succ depth ih =>
    obtain ⟨i, fuel⟩ := call
    intro c
    by_cases hi : i ∈ active
    · unfold schedule
      simp only [if_pos hi]
      exact List.prefix_refl _
    · obtain ⟨before, hbefore, hmade⟩ := schedule_snoc plan runs hi fuel c (ih (i :: active))
      simp only [hmade]
      exact hbefore.trans (List.prefix_append _ _)

/-- The calls of the process itself are made, in their order. -/
theorem schedule_calls (plan : Nat → List (I × Nat)) (runs : I → Run (PurvaRun U)) (depth : Nat)
    (calls : List (I × Nat)) (c : Calls I) :
    (c.made ++ calls).Sublist
      (calls.foldl (schedule cb prog steps plan runs (depth + 1) []) c).made := by
  induction calls generalizing c with
  | nil =>
    rw [List.append_nil]
    exact List.Sublist.refl _
  | cons call calls ih =>
    obtain ⟨before, hbefore, hmade⟩ : ∃ before, c.made <+: before ∧
        (schedule cb prog steps plan runs (depth + 1) [] c call).made = before ++ [call] :=
      schedule_snoc plan runs List.not_mem_nil call.2 c (schedule_adds plan runs depth [call.1])
    have hone : (c.made ++ [call]).Sublist
        (schedule cb prog steps plan runs (depth + 1) [] c call).made := by
      rw [hmade]
      exact hbefore.sublist.append_right [call]
    rw [List.foldl_cons, List.append_cons]
    exact (hone.append_right calls).trans (ih _)

/-- **Instances do not interfere.**  Whatever the calls of `purva_run` and whatever the calls that
callbacks make on instances that are not running: all the calls are made that the instances alone
lead to, and every instance has gone through the states, calls of the host and return values of its
own calls alone. -/
theorem instances_alone [Fintype I] (plan : Nat → List (I × Nat)) (depth : Nat)
    (g_prog : Option Transcoded) (runs : I → Run (PurvaRun U)) (calls : List (I × Nat)) :
    let process := fun depth =>
      calls.foldl (purvaRunShared cb prog steps plan depth []) (World.init g_prog runs)
    let c := calls.foldl (schedule cb prog steps plan runs (depth + 1) []) ⟨0, []⟩
    calls.Sublist c.made ∧
      (∀ i, (process (depth + 1)).history i = alone steps (cb i) (prog i) (runs i) (c.fuels i) ∧
        (process (depth + 1)).runs i = after (runs i) ((process (depth + 1)).history i)) ∧
      process (Fintype.card I + 1 + depth) = process (Fintype.card I + 1) := by
  intro process c
  have hall : AsAlone cb prog steps runs (process (depth + 1)) c :=
    (follows_foldl (purvaRunShared_follows plan runs (depth + 1) []) calls
      (World.init g_prog runs) ⟨0, []⟩ ⟨rfl, fun _ => rfl, fun _ => rfl⟩).1
  refine ⟨?_, fun i => ⟨hall.history i, hall.runs i⟩, ?_⟩
  · exact schedule_calls plan runs depth calls ⟨0, []⟩
  · show calls.foldl _ _ = calls.foldl _ _
    rw [purvaRunShared_depth plan (Fintype.card I + 1 + depth) (Fintype.card I + 1) []
      List.nodup_nil (by rw [List.length_nil]; omega) (by rw [List.length_nil]; omega)]

end

end Purv.Purva

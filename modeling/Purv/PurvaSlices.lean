import Purv.Lib.Steps
import Purv.PurvaGraft
import Purv.PurvaRun

/-!
# Slices of fuel

A guest that is run in slices does what it would do in one go.  The evaluator saves the cursor in
the pc of the state when the budget is used up, and finds it there again: the pc is otherwise not
read before the next write, so that a run does not depend on where it was cut.

* `Image` — a program as `purva_run_init` sets it up;
* `advance`, `halt` — the evaluator with no budget: one op, and what `purva_run` makes of the end;
* `loopFrom_ends` — an engine call is a part of the unbudgeted run;
* `purvaRun_ends` — so is a slice;
* `slices_invisible` — two sequences of slices.

Counts are natural numbers: the source's `uint64_t` wraps after `2^64` instructions.
-/

namespace Purv.Purva

open Bits Transcode Steps

variable {H U : Type}

/-! ## The status of a run -/

section
variable (s : State (PurvaRun U))

theorem stLe_host (s : State H) (q : Ptr) (n : Nat) (v : Word) : (stLe s q n v).host = s.host := by
  unfold stLe
  simp only
  split <;> split <;> rfl

theorem purvaSetNext_status (a v : Word) :
    (purvaSetNext s a v).host.status = s.host.status := by
  unfold purvaSetNext purvaSt
  rw [stLe_host]

theorem purvaSetSize_status (a v : Word) :
    (purvaSetSize s a v).host.status = s.host.status := by
  unfold purvaSetSize purvaSt
  rw [stLe_host]

theorem setFreep_status (v : Word) : (setFreep s v).host.status = s.host.status := rfl

theorem purvaFree_status {steps : Nat} {s s' : State (PurvaRun U)} {ap : Word}
    (h : purvaFree steps s ap = some s') : s'.host.status = s.host.status := by
  unfold purvaFree at h
  obtain ⟨p, hp, rfl⟩ := Option.map_eq_some_iff.mp h
  simp only [setFreep_status]
  split <;> split <;> simp only [purvaSetNext_status, purvaSetSize_status]

theorem purvaMorecore_status {steps : Nat} {s : State (PurvaRun U)} {nu : Word}
    {o : State (PurvaRun U) × Word} (h : purvaMorecore steps s nu = some o) :
    o.1.host.status = s.host.status := by
  unfold purvaMorecore at h
  simp only at h
  generalize (if nu < 4096#32 then 4096#32 else nu) = nu' at h
  split at h
  · cases h
    rfl
  · obtain ⟨s', hs', rfl⟩ := Option.map_eq_some_iff.mp h
    rw [purvaFree_status hs', purvaSetSize_status]

theorem mallocWalk_status {steps : Nat} {nunits : Word} {n : Nat} {s : State (PurvaRun U)}
    {prevp p : Word} {o : State (PurvaRun U) × Word}
    (h : mallocWalk steps nunits n s prevp p = some o) : o.1.host.status = s.host.status := by
  induction n generalizing s prevp p with
  | zero => cases h
  | succ n ih =>
    unfold mallocWalk at h
    split at h
    · split at h
      · cases h
        rw [setFreep_status, purvaSetNext_status]
      · cases h
        rw [setFreep_status, purvaSetSize_status, purvaSetSize_status]
    · split at h
      · split at h
        · cases h
        · rename_i s' p' hm
          have hs' := purvaMorecore_status hm
          split at h
          · cases h
            exact hs'
          · exact (ih h).trans hs'
      · exact ih h

theorem purvaMalloc_status {steps : Nat} {s : State (PurvaRun U)} {n : Word}
    {o : State (PurvaRun U) × Word} (h : purvaMalloc steps s n = some o) :
    o.1.host.status = s.host.status := by
  unfold purvaMalloc at h
  split at h
  · cases h
    rfl
  · exact mallocWalk_status h

theorem purvaRealloc_status {steps : Nat} {s : State (PurvaRun U)} {ap n : Word}
    {o : State (PurvaRun U) × Word} (h : purvaRealloc steps s ap n = some o) :
    o.1.host.status = s.host.status := by
  unfold purvaRealloc at h
  split at h
  · exact purvaMalloc_status h
  · split at h
    · obtain ⟨s', hs', rfl⟩ := Option.map_eq_some_iff.mp h
      exact purvaFree_status hs'
    · simp only at h
      split at h
      · cases h
        rfl
      · split at h
        · cases h
        · rename_i s' np hm
          have hs' := purvaMalloc_status hm
          split at h
          · cases h
            exact hs'
          · obtain ⟨s2, hs2, rfl⟩ := Option.map_eq_some_iff.mp h
            exact (purvaFree_status hs2).trans hs'

theorem writeLoop_status {write : U → Word → List Byte → U × Int} {fd : Word} {n : Nat}
    {s : State (PurvaRun U)} {p left : Word} {done : Int} {o : State (PurvaRun U) × Int}
    (h : writeLoop write fd n s p left done = some o) : o.1.host.status = s.host.status := by
  induction n generalizing s p left done with
  | zero => cases h
  | succ n ih =>
    unfold writeLoop at h
    split at h
    · cases h
      rfl
    · simp only at h
      generalize (if left > 512#32 then 512#32 else left) = c at h
      split at h
      · cases h
        rfl
      · have hrest := ih h
        exact hrest

/-- What `answer` does to the status: a stop is a walk that is not over. -/
theorem answer_status {s : State (PurvaRun U)} {ret : Option (State (PurvaRun U) × Word)}
    (hret : ∀ o, ret = some o → o.1.host.status = s.host.status) (hs : s.host.status = .fuel) :
    (answer s ret).2 = true ↔ (answer s ret).1.host.status ≠ .fuel := by
  cases ret with
  | none =>
    refine ⟨fun _ h => ?_, fun _ => rfl⟩
    cases h
  | some o =>
    refine ⟨fun h => (by cases h), fun h => absurd ?_ h⟩
    exact (hret o rfl).trans hs

/-- **The ecall hook stops the engine** exactly when it takes the status away from `FUEL`. -/
theorem purvaOnEcall_status (cb : PurvaCallbacks U) (steps : Nat) {s : State (PurvaRun U)}
    (hs : s.host.status = .fuel) :
    (purvaOnEcall cb steps s).2 = true ↔ (purvaOnEcall cb steps s).1.host.status ≠ .fuel := by
  have hself : ∀ v : Word, ∀ o, some (s, v) = some o → o.1.host.status = s.host.status := by
    intro v o ho
    cases ho
    rfl
  have hstop : ∀ s' : State (PurvaRun U), s'.host.status ≠ .fuel →
      (((s', true) : State (PurvaRun U) × Bool).2 = true ↔ s'.host.status ≠ .fuel) :=
    fun s' h => ⟨fun _ => h, fun _ => rfl⟩
  unfold purvaOnEcall
  simp only
  split
  · exact hstop _ (fun h => by cases h)
  · cases cb.write with
    | none => exact answer_status (hself _) hs
    | some write =>
      refine answer_status (fun o ho => ?_) hs
      obtain ⟨o', ho', rfl⟩ := Option.map_eq_some_iff.mp ho
      exact writeLoop_status ho'
  · exact answer_status (fun o ho => purvaMalloc_status ho) hs
  · split
    · exact answer_status (hself _) hs
    · refine answer_status (fun o ho => ?_) hs
      obtain ⟨s', hs', rfl⟩ := Option.map_eq_some_iff.mp ho
      exact purvaFree_status hs'
  · exact answer_status (fun o ho => purvaRealloc_status ho) hs
  · cases cb.hostcall with
    | none => exact hstop _ (fun h => by cases h)
    | some hostcall =>
      simp only
      split
      · exact hstop _ (fun h => by cases h)
      · split
        · exact hstop _ (fun h => by cases h)
        · refine answer_status ?_ hs
          intro o ho
          cases ho
          rfl

end

/-! ## The unbudgeted run -/

/-- `PurvaRun.prog` as `purva_run_init` sets it: whole words, and `code_len` is their bytes. -/
structure Image where
  ops : List Word
  small : 4 * ops.length < 2 ^ 32

/-- The `Transcoded` of an image. -/
def Image.prog (m : Image) : Transcoded :=
  ⟨m.ops, BitVec.ofNat 32 m.ops.length, BitVec.ofNat 32 (4 * m.ops.length)⟩

theorem Image.code_len (m : Image) : m.prog.code_len.toNat = 4 * m.ops.length := by
  show (BitVec.ofNat 32 (4 * m.ops.length)).toNat = _
  rw [BitVec.toNat_ofNat, Nat.mod_eq_of_lt m.small]

/-- The evaluator between two ops: the run, the cursor and the count. -/
structure OpCursor (H : Type) where
  r : Run H
  p : Nat
  k : Nat

section
variable (h : Hooks H) (m : Image) (q : OpCursor H)

/-- The op at the cursor. -/
def OpCursor.dispatch (w : Word) : Run H × Nat × Goto :=
  Purva.dispatch h q.r (BitVec.ofNat 32 q.p) w (m.ops.getD (q.p + 1) 0#32)

/-- Where the cursor goes after an op, with no budget. -/
def OpCursor.land : Run H × Nat × Goto → Option (OpCursor H)
  | (r, c, .fall n) => some ⟨r, q.p + n, q.k + c⟩
  | (r, c, .reloc idx) => some ⟨r, idx.toNat, q.k + c⟩
  | (r, c, .indirect t) =>
    if t ≥ m.prog.code_len then none else some ⟨r, (t >>> 2).toNat, q.k + c⟩
  | (r, c, .trap stop) => if stop then none else some ⟨r, q.p + 1, q.k + c⟩

/-- One op; `none` where the evaluator returns whatever the budget. -/
def advance : Option (OpCursor H) :=
  match m.ops[q.p]? with
  | none => none
  | some w => q.land m (q.dispatch h m w)

/-- The start of an engine call. -/
def OpCursor.start (r : Run H) : OpCursor H := ⟨r, (r.s.pc >>> 2).toNat, 0⟩

/-- The cursor of a run stays inside the op array. -/
def Inside (r : Run H) : Prop :=
  r.s.pc < m.prog.code_len →
    Always (advance h m) (fun q => q.p < m.ops.length) (OpCursor.start r)

end

/-- What `purva_run` leaves where there is no next op, with the count. -/
def halt (h : Hooks (PurvaRun U)) (m : Image) (q : OpCursor (PurvaRun U)) :
    Run (PurvaRun U) × Nat :=
  match m.ops[q.p]? with
  | none => (Run.withStatus q.r .lost, q.k)
  | some w =>
    match q.dispatch h m w with
    | (r, c, .indirect t) => (Run.withStatus (r.setPc t) .trap, q.k + c)
    | (r, c, _) => (r, q.k + c)

/-- `o` is what a guest ends with, and the fuel that it uses. -/
def Finishes (h : Hooks (PurvaRun U)) (m : Image) (r : Run (PurvaRun U))
    (o : Run (PurvaRun U) × Nat) : Prop :=
  if r.s.pc < m.prog.code_len then
    ∃ q, Ends (advance h m) (OpCursor.start r) q ∧ halt h m q = o
  else o = (Run.withStatus r .trap, 0)

/-- A guest finishes in one way. -/
theorem finishes_unique {h : Hooks (PurvaRun U)} {m : Image} {r : Run (PurvaRun U)}
    {o o' : Run (PurvaRun U) × Nat} (ho : Finishes h m r o) (ho' : Finishes h m r o') :
    o = o' := by
  unfold Finishes at ho ho'
  split at ho
  · rename_i hpc
    rw [if_pos hpc] at ho'
    obtain ⟨q, hq, rfl⟩ := ho
    obtain ⟨q', hq', rfl⟩ := ho'
    rw [ends_unique hq hq']
  · rename_i hpc
    rw [if_neg hpc] at ho'
    exact ho.trans ho'.symm

/-! ## The pc and the count between two ops -/

/-- The same run but for the pc, at the same cursor, with `d` more on the count. -/
def Shift (d : Nat) (q q' : OpCursor H) : Prop :=
  ∃ v, q' = ⟨q.r.setPc v, q.p, q.k + d⟩

/-- The op at the cursor, at another pc. -/
theorem dispatch_shift {h : Hooks H} (hh : h.callback = none) (m : Image) (d : Nat) (v : Word)
    (q : OpCursor H) (w : Word) :
    ∃ v', (OpCursor.mk (q.r.setPc v) q.p (q.k + d)).dispatch h m w =
      ((q.dispatch h m w).1.setPc v', (q.dispatch h m w).2) ∧
        ∀ stop, (q.dispatch h m w).2.2 = .trap stop → v' = (q.dispatch h m w).1.s.pc :=
  dispatch_pc hh q.r _ w _ v

/-- **The evaluator does not read the pc of the state.** -/
theorem advance_shift {h : Hooks H} (hh : h.callback = none) (m : Image) (d : Nat)
    (q q' : OpCursor H) (hq : Shift d q q') :
    Option.Rel (Shift d) (advance h m q) (advance h m q') := by
  obtain ⟨v, rfl⟩ := hq
  unfold advance
  show Option.Rel _ _ (match m.ops[q.p]? with | none => none | some w => _)
  cases m.ops[q.p]? with
  | none => exact .none
  | some w =>
    obtain ⟨v', hv', -⟩ := dispatch_shift hh m d v q w
    simp only
    rw [hv']
    obtain ⟨r, c, g⟩ := q.dispatch h m w
    have hkc : q.k + d + c = q.k + c + d := by omega
    have hsome : ∀ p, Option.Rel (Shift d) (some ⟨r, p, q.k + c⟩)
        (some ⟨r.setPc v', p, q.k + d + c⟩) :=
      fun p => .some ⟨v', by rw [hkc]⟩
    unfold OpCursor.land
    cases g with
    | fall n => exact hsome _
    | reloc idx => exact hsome _
    | indirect t =>
      simp only
      split
      · exact .none
      · exact hsome _
    | trap stop =>
      cases stop with
      | true => exact .none
      | false => exact hsome _

/-- A cursor stays inside at any pc. -/
theorem shift_always {h : Hooks H} (hh : h.callback = none) {m : Image} {d : Nat}
    {q q' : OpCursor H} (hq : Shift d q q')
    (hin : Always (advance h m) (fun q => q.p < m.ops.length) q') :
    Always (advance h m) (fun q => q.p < m.ops.length) q := by
  refine always_rel (advance_shift hh m d) ?_ hq hin
  rintro q _ ⟨v, rfl⟩ hp
  exact hp

/-- What is left behind at the end does not depend on the pc. -/
theorem shift_halt {h : Hooks (PurvaRun U)} (hh : h.callback = none) {m : Image} {d : Nat}
    {q q' : OpCursor (PurvaRun U)} (hq : Shift d q q') (hp : q.p < m.ops.length)
    (hend : advance h m q = none) :
    halt h m q' = ((halt h m q).1, (halt h m q).2 + d) := by
  obtain ⟨v, rfl⟩ := hq
  unfold advance at hend
  unfold halt
  simp only [List.getElem?_eq_getElem hp] at hend ⊢
  obtain ⟨v', hv', htrap⟩ := dispatch_shift hh m d v q m.ops[q.p]
  rw [hv']
  revert hend htrap
  obtain ⟨r, c, g⟩ := q.dispatch h m m.ops[q.p]
  intro hend htrap
  unfold OpCursor.land at hend
  cases g with
  | fall n => cases hend
  | reloc idx => cases hend
  | indirect t =>
    simp only
    rw [Nat.add_right_comm]
    rfl
  | trap stop =>
    obtain rfl : v' = r.s.pc := htrap stop rfl
    simp only
    rw [Nat.add_right_comm]
    rfl

/-- What a guest finishes with from a shifted cursor. -/
theorem shift_ends {h : Hooks (PurvaRun U)} (hh : h.callback = none) {m : Image} {d : Nat}
    {q q' q1 : OpCursor (PurvaRun U)} (hq : Shift d q q')
    (hin : Always (advance h m) (fun q => q.p < m.ops.length) q) (hend : Ends (advance h m) q q1) :
    ∃ q1', Ends (advance h m) q' q1' ∧
      halt h m q1' = ((halt h m q1).1, (halt h m q1).2 + d) := by
  obtain ⟨q1', hend', hq1⟩ := ends_rel (advance_shift hh m d) hq hend
  obtain ⟨n, hn, hnone⟩ := hend
  exact ⟨q1', hend', shift_halt hh hq1 (hin n q1 hn) hnone⟩

/-! ## The status -/

/-- The trap ops of a runnable guest: the engine stops exactly when the status is no longer
`FUEL`. -/
theorem hTrap_status (cb : PurvaCallbacks U) (steps : Nat) {r r' : Run (PurvaRun U)} {p w : Word}
    {c : Nat} {g : Goto} (hr : Run.status r = .fuel)
    (ho : hTrap (purvaHooks cb steps) r p w = (r', c, g)) :
    g = .trap true ↔ Run.status r' ≠ .fuel := by
  unfold hTrap at ho
  simp only at ho
  cases ho
  have hs : (r.fault (p <<< 2) w).s.host.status = .fuel := hr
  have hhost : ∀ f : TrapFn (PurvaRun U),
      ((f (r.fault (p <<< 2) w).s).2 = true ↔ (f (r.fault (p <<< 2) w).s).1.host.status ≠ .fuel) →
        (Goto.trap (f (r.fault (p <<< 2) w).s).2 = .trap true ↔
          (f (r.fault (p <<< 2) w).s).1.host.status ≠ .fuel) := by
    intro f hf
    rw [← hf, Goto.trap.injEq]
  have hstop : (purvaOnTrap (r.fault (p <<< 2) w).s).2 = true ↔
      (purvaOnTrap (r.fault (p <<< 2) w).s).1.host.status ≠ .fuel :=
    ⟨fun _ h => Status.noConfusion h, fun _ => rfl⟩
  split
  · exact hhost _ (purvaOnEcall_status cb steps hs)
  · split
    · exact hhost purvaOnTrap hstop
    · exact hhost purvaOnTrap hstop

/-- An op takes the status away from `FUEL` exactly when it stops the engine. -/
theorem dispatch_status (cb : PurvaCallbacks U) (steps : Nat) {r : Run (PurvaRun U)}
    (p w w2 : Word) (hr : Run.status r = .fuel) :
    (dispatch (purvaHooks cb steps) r p w w2).2.2 = .trap true ↔
      Run.status (dispatch (purvaHooks cb steps) r p w w2).1 ≠ .fuel := by
  by_cases hop : IsTrap (TC_OP w)
  · rw [dispatch_traps _ r p w w2 hop]
    exact hTrap_status cb steps hr rfl
  · constructor
    · intro hg
      have ht := goes_trap (dispatch_goes r p w w2) hg
      exact (hTrap_status cb steps hr ht).mp hg
    · intro hs
      rw [dispatch_keeps (h := purvaHooks cb steps) rfl r p w w2 hop] at hs
      exact absurd hr hs

/-! ## An engine call -/

/-- What an engine call of a runnable guest is: a part of the unbudgeted run up to a cursor that it
saves in the pc, or the rest of it. -/
inductive LoopEnds (h : Hooks (PurvaRun U)) (m : Image) (max : Nat) (q : OpCursor (PurvaRun U))
    (res : Result (PurvaRun U)) : Prop
  | budget {n : Nat} {q' : OpCursor (PurvaRun U)} : iter (advance h m) n q = some q' →
      res.r = q'.r.setPc res.r.s.pc → (res.r.s.pc >>> 2).toNat = q'.p →
      res.r.s.pc < m.prog.code_len → res.k = q'.k → max ≤ res.k → res.stop = .budget →
      Run.status res.r = .fuel → LoopEnds h m max q res
  | window {q' : OpCursor (PurvaRun U)} : Ends (advance h m) q q' →
      halt h m q' = (Run.withStatus res.r .trap, res.k) → res.r.s.pc ≥ m.prog.code_len →
      res.stop = .window → Run.status res.r = .fuel → LoopEnds h m max q res
  | trap {q' : OpCursor (PurvaRun U)} : Ends (advance h m) q q' → halt h m q' = (res.r, res.k) →
      res.stop = .trap → Run.status res.r ≠ .fuel → LoopEnds h m max q res

/-- One op before the rest. -/
theorem loopEnds_step {h : Hooks (PurvaRun U)} {m : Image} {max : Nat}
    {q q1 : OpCursor (PurvaRun U)} {res : Result (PurvaRun U)} (hq : advance h m q = some q1)
    (hres : LoopEnds h m max q1 res) : LoopEnds h m max q res := by
  have h1 : iter (advance h m) 1 q = some q1 := iter_one hq
  cases hres with
  | budget hn hr hp hpc hk hmax hstop hs =>
    exact .budget (iter_add h1 hn) hr hp hpc hk hmax hstop hs
  | window hend ho hpc hstop hs => exact .window (ends_iter h1 hend) ho hpc hstop hs
  | trap hend ho hstop hs => exact .trap (ends_iter h1 hend) ho hstop hs

/-- The budget is used up after one op, and the cursor is saved. -/
theorem loopEnds_budget {h : Hooks (PurvaRun U)} {m : Image} {max : Nat}
    {q q1 : OpCursor (PurvaRun U)} {v : Word} (hq : advance h m q = some q1)
    (hv : (v >>> 2).toNat = q1.p) (hpc : v < m.prog.code_len) (hk : max ≤ q1.k)
    (hs : Run.status q1.r = .fuel) : LoopEnds h m max q ⟨q1.r.setPc v, q1.k, .budget⟩ :=
  .budget (n := 1) (iter_one hq) rfl hv hpc rfl hk rfl hs

/-- An op index in the pc and back. -/
theorem index_pc (m : Image) {i : Word} (hi : i.toNat < m.ops.length) :
    ((i <<< 2) >>> 2).toNat = i.toNat ∧ i <<< 2 < m.prog.code_len := by
  have hsmall := m.small
  have hlen := m.code_len
  have h4 : (i <<< 2).toNat = 4 * i.toNat := by
    rw [BitVec.toNat_shiftLeft, Nat.shiftLeft_eq]
    omega
  refine ⟨?_, ?_⟩
  · rw [BitVec.toNat_ushiftRight, h4, Nat.shiftRight_eq_div_pow]
    omega
  · rw [BitVec.lt_def, h4, hlen]
    omega

/-- The dispatches that are left at a cursor. -/
def dispatchesLeft (m : Image) (max : Nat) (q : OpCursor H) : Nat :=
  (max - q.k) + if q.k < max then m.ops.length else m.ops.length - q.p

/-- **An engine call is a part of the unbudgeted run.** -/
theorem loopFrom_ends (cb : PurvaCallbacks U) (steps : Nat) (m : Image) (max fuel : Nat)
    (q : OpCursor (PurvaRun U))
    (hin : Always (advance (purvaHooks cb steps) m) (fun q => q.p < m.ops.length) q)
    (hs : Run.status q.r = .fuel) (hfuel : dispatchesLeft m max q < fuel) :
    LoopEnds (purvaHooks cb steps) m max q
      (loopFrom (purvaHooks cb steps) m.ops m.prog.code_len max fuel q.r q.p q.k) := by
  induction fuel generalizing q with
  | zero => omega
  | succ fuel ih =>
    have hp : q.p < m.ops.length := hin 0 q rfl
    have hget := List.getElem?_eq_getElem hp
    have hadv : advance (purvaHooks cb steps) m q =
        q.land m (q.dispatch (purvaHooks cb steps) m m.ops[q.p]) := by
      unfold advance
      rw [hget]
    have hstatus : (q.dispatch (purvaHooks cb steps) m m.ops[q.p]).2.2 = .trap true ↔
        Run.status (q.dispatch (purvaHooks cb steps) m m.ops[q.p]).1 ≠ .fuel :=
      dispatch_status cb steps _ _ _ hs
    have hgoes : Goes _ (q.dispatch (purvaHooks cb steps) m m.ops[q.p]) := dispatch_goes q.r ..
    have hhalt : halt (purvaHooks cb steps) m q =
        match q.dispatch (purvaHooks cb steps) m m.ops[q.p] with
        | (r, c, .indirect t) => (Run.withStatus (r.setPc t) .trap, q.k + c)
        | (r, c, _) => (r, q.k + c) := by
      unfold halt
      rw [hget]
    have hnext : ∀ q1, advance (purvaHooks cb steps) m q = some q1 → Run.status q1.r = .fuel →
        dispatchesLeft m max q1 < dispatchesLeft m max q → LoopEnds (purvaHooks cb steps) m max q
          (loopFrom (purvaHooks cb steps) m.ops m.prog.code_len max fuel q1.r q1.p q1.k) :=
      fun q1 hq1 hs1 hlt =>
        loopEnds_step hq1 (ih q1 (always_iter hin (iter_one hq1)) hs1 (by omega))
    have hinside : ∀ q1, advance (purvaHooks cb steps) m q = some q1 → q1.p < m.ops.length :=
      fun q1 hq1 => hin 1 q1 (iter_one hq1)
    unfold loopFrom
    rw [hget]
    simp only
    unfold OpCursor.dispatch at hadv hstatus hgoes hhalt
    revert hadv hstatus hhalt
    generalize dispatch (purvaHooks cb steps) q.r _ m.ops[q.p] _ = o at hgoes
    intro hadv hstatus hhalt
    have hrun : (∀ stop, o.2.2 ≠ .trap stop) → Run.status o.1 = .fuel := fun hg =>
      Decidable.of_not_not fun hne => hg true (hstatus.mpr hne)
    unfold dispatchesLeft at hnext
    cases hgoes with
    | @fall r c n hc hn =>
      have hq1 : advance (purvaHooks cb steps) m q = some ⟨r, q.p + n, q.k + c⟩ := hadv
      have hp1 := hinside _ hq1
      refine hnext _ hq1 (hrun fun _ h => Goto.noConfusion h) ?_
      simp only at hp1 ⊢
      split <;> split <;> omega
    | @reloc r c idx hc =>
      have hq1 : advance (purvaHooks cb steps) m q = some ⟨r, idx.toNat, q.k + c⟩ := hadv
      have hs1 : Run.status r = .fuel := hrun fun _ h => Goto.noConfusion h
      obtain ⟨hidx, hpc⟩ := index_pc m (hinside _ hq1)
      simp only
      split
      · rename_i hmax
        exact loopEnds_budget hq1 hidx hpc hmax hs1
      · refine hnext _ hq1 hs1 ?_
        simp only
        split <;> split <;> omega
    | @indirect r c t hc =>
      have hs1 : Run.status r = .fuel := hrun fun _ h => Goto.noConfusion h
      simp only
      split
      · rename_i hwin
        have hnone : advance (purvaHooks cb steps) m q = none := by
          rw [hadv]
          exact if_pos hwin
        exact .window ⟨0, rfl, hnone⟩ hhalt hwin rfl hs1
      · rename_i hwin
        have hq1 : advance (purvaHooks cb steps) m q = some ⟨r, (t >>> 2).toNat, q.k + c⟩ := by
          rw [hadv]
          exact if_neg hwin
        split
        · rename_i hmax
          exact loopEnds_budget hq1 rfl (BitVec.not_le.mp hwin) hmax hs1
        · refine hnext _ hq1 hs1 ?_
          simp only
          split <;> split <;> omega
    | @trap r c stop hc ht =>
      cases stop with
      | true =>
        have hnone : advance (purvaHooks cb steps) m q = none := hadv
        exact .trap ⟨0, rfl, hnone⟩ hhalt rfl (hstatus.mp rfl)
      | false =>
        have hq1 : advance (purvaHooks cb steps) m q = some ⟨r, q.p + 1, q.k + c⟩ := hadv
        have hs1 : Run.status r = .fuel :=
          Decidable.of_not_not fun hne => by cases hstatus.mpr hne
        have hp1 : q.p + 1 < m.ops.length := hinside _ hq1
        simp only
        split
        · rename_i hmax
          have hsmall := m.small
          have hidx : (BitVec.ofNat 32 (q.p + 1)).toNat = q.p + 1 := by
            rw [BitVec.toNat_ofNat]
            omega
          obtain ⟨hp2, hpc⟩ := index_pc m (i := BitVec.ofNat 32 (q.p + 1)) (by omega)
          have hv : BitVec.ofNat 32 q.p <<< 2 + 4#32 = BitVec.ofNat 32 (q.p + 1) <<< 2 := by
            apply BitVec.eq_of_toNat_eq
            simp only [BitVec.toNat_add, BitVec.toNat_shiftLeft, BitVec.toNat_ofNat,
              Nat.shiftLeft_eq]
            omega
          rw [hv]
          exact loopEnds_budget hq1 (hp2.trans hidx) hpc hmax hs1
        · refine hnext _ hq1 hs1 ?_
          simp only
          split <;> split <;> omega

/-! ## Slices -/

/-- No fuel is left. -/
theorem sliceFrom_full (h : Hooks (PurvaRun U)) (prog : Transcoded) {fuel : Nat} (rounds : Nat)
    (r : Run (PurvaRun U)) {total : Nat} (hle : fuel ≤ total) :
    sliceFrom h prog fuel rounds r total = (r, total) := by
  cases rounds with
  | zero => rfl
  | succ rounds => exact if_neg (Nat.not_lt.mpr hle)

/-- What a slice is: a part of what the guest does, or the rest of it. -/
inductive SliceEnds (h : Hooks (PurvaRun U)) (m : Image) (r : Run (PurvaRun U))
    (o : Run (PurvaRun U) × Nat) : Prop
  | fuel : Run.status o.1 = .fuel → Inside h m o.1 →
      (∀ f, Finishes h m o.1 f → Finishes h m r (f.1, o.2 + f.2)) → SliceEnds h m r o
  | ended : Run.status o.1 ≠ .fuel → Finishes h m r o → SliceEnds h m r o

/-- The first round of a slice is its last. -/
theorem sliceFrom_once (h : Hooks (PurvaRun U)) (prog : Transcoded) {fuel : Nat}
    (r : Run (PurvaRun U)) (hfuel : 0 < fuel) {res : Result (PurvaRun U)}
    (hres : riscvEmulatorLoop h prog r fuel = res) (hstop : res.stop ≠ .wild ∧ res.stop ≠ .running)
    (hk : Run.status res.r = .fuel → res.r.s.pc < prog.code_len → fuel ≤ res.k) :
    sliceFrom h prog fuel fuel r 0 =
      if Run.status res.r = .fuel ∧ res.r.s.pc ≥ prog.code_len then
        (Run.withStatus res.r .trap, res.k) else (res.r, res.k) := by
  obtain ⟨n, rfl⟩ := Nat.exists_eq_succ_of_ne_zero hfuel.ne'
  unfold sliceFrom
  rw [if_pos hfuel, Nat.sub_zero, hres]
  simp only [Nat.zero_add]
  rw [if_neg (not_or.mpr hstop)]
  by_cases hs : Run.status res.r = .fuel
  · rw [if_neg (not_not.mpr hs)]
    by_cases hpc : res.r.s.pc ≥ prog.code_len
    · rw [if_pos hpc, if_pos ⟨hs, hpc⟩]
    · have hle := hk hs (BitVec.not_le.mp hpc)
      rw [if_neg hpc, if_neg (by omega), if_neg fun hc => hpc hc.2]
      exact sliceFrom_full h prog n res.r hle
  · rw [if_pos hs, if_neg fun hc => hs hc.1]

/-- **A slice is a part of what the guest does.** -/
theorem purvaRun_ends (cb : PurvaCallbacks U) (steps : Nat) (m : Image) (r : Run (PurvaRun U))
    (fuel : Nat) (hin : Inside (purvaHooks cb steps) m r) (hs : Run.status r = .fuel) :
    SliceEnds (purvaHooks cb steps) m r (purvaRun (purvaHooks cb steps) m.prog r fuel) := by
  unfold purvaRun
  rw [if_neg (not_not.mpr hs)]
  rcases Nat.eq_zero_or_pos fuel with rfl | hfuel
  · refine .fuel hs hin fun f hf => ?_
    rwa [show (f.1, (sliceFrom _ _ 0 0 r 0).2 + f.2) = f from by
      show (f.1, 0 + f.2) = f
      rw [Nat.zero_add]]
  by_cases hpc : r.s.pc < m.prog.code_len
  · obtain ⟨res, hres⟩ : ∃ res, riscvEmulatorLoop (purvaHooks cb steps) m.prog r fuel = res :=
      ⟨_, rfl⟩
    have honce := sliceFrom_once (purvaHooks cb steps) m.prog r hfuel hres
    have hends : LoopEnds (purvaHooks cb steps) m fuel (OpCursor.start r) res := by
      unfold riscvEmulatorLoop at hres
      rw [if_neg (BitVec.not_le.mpr hpc)] at hres
      rw [← hres]
      refine loopFrom_ends cb steps m fuel (fuel + m.ops.length + 1) (OpCursor.start r) (hin hpc)
        hs ?_
      unfold dispatchesLeft OpCursor.start
      simp only
      split <;> omega
    have hfin : ∀ o : Run (PurvaRun U) × Nat, (∃ q, Ends (advance (purvaHooks cb steps) m)
        (OpCursor.start r) q ∧ halt (purvaHooks cb steps) m q = o) →
        Finishes (purvaHooks cb steps) m r o := by
      intro o ho
      unfold Finishes
      rwa [if_pos hpc]
    cases hends with
    | @budget n q' hn hr hp hpc' hk hmax hstop hs' =>
      have hslice := honce (by rw [hstop]; exact ⟨nofun, nofun⟩) fun _ _ => hmax
      rw [if_neg fun hc => BitVec.not_le.mpr hpc' hc.2] at hslice
      rw [hslice]
      have hq : Shift res.k (OpCursor.start res.r) q' := by
        refine ⟨q'.r.s.pc, ?_⟩
        have hr' : q'.r = res.r.setPc q'.r.s.pc := by
          rw [hr]
          rfl
        show q' = ⟨res.r.setPc q'.r.s.pc, (res.r.s.pc >>> 2).toNat, 0 + res.k⟩
        rw [← hr', hp, hk, Nat.zero_add]
      have hin' : Inside (purvaHooks cb steps) m res.r := fun _ =>
        shift_always rfl hq (always_iter (hin hpc) hn)
      refine .fuel hs' hin' fun f hf => hfin _ ?_
      unfold Finishes at hf
      rw [if_pos hpc'] at hf
      obtain ⟨q1, hend, rfl⟩ := hf
      obtain ⟨q1', hend', ho⟩ := shift_ends rfl hq (hin' hpc') hend
      refine ⟨q1', ends_iter hn hend', ?_⟩
      rw [ho, Nat.add_comm]
    | @window q' hend ho hpc' hstop hs' =>
      have hslice := honce (by rw [hstop]; exact ⟨nofun, nofun⟩) fun _ hlt =>
        absurd hpc' (BitVec.not_le.mpr hlt)
      rw [if_pos ⟨hs', hpc'⟩] at hslice
      rw [hslice]
      exact .ended nofun (hfin _ ⟨q', hend, ho⟩)
    | @trap q' hend ho hstop hs' =>
      have hslice := honce (by rw [hstop]; exact ⟨nofun, nofun⟩) fun hc => absurd hc hs'
      rw [if_neg fun hc => hs' hc.1] at hslice
      rw [hslice]
      exact .ended hs' (hfin _ ⟨q', hend, ho⟩)
  · have hloop : riscvEmulatorLoop (purvaHooks cb steps) m.prog r fuel = ⟨r, 0, .window⟩ :=
      if_pos (BitVec.not_lt.mp hpc)
    have hslice := sliceFrom_once (purvaHooks cb steps) m.prog r hfuel hloop ⟨nofun, nofun⟩
      fun _ hlt => absurd hlt hpc
    rw [if_pos ⟨hs, BitVec.not_lt.mp hpc⟩] at hslice
    rw [hslice]
    refine .ended nofun ?_
    unfold Finishes
    rw [if_neg hpc]

/-- `purva_run` with one amount of fuel after another: the run after the last, and the sum of the
`*used`. -/
def slices (h : Hooks (PurvaRun U)) (prog : Transcoded) :
    List Nat → Run (PurvaRun U) → Run (PurvaRun U) × Nat
  | [], r => (r, 0)
  | fuel :: fuels, r =>
    let (r, used) := purvaRun h prog r fuel
    let (r, total) := slices h prog fuels r
    (r, used + total)

/-- A run that is over stays as it is. -/
theorem purvaRun_over (h : Hooks (PurvaRun U)) (prog : Transcoded) {r : Run (PurvaRun U)}
    (hs : Run.status r ≠ .fuel) (fuel : Nat) : purvaRun h prog r fuel = (r, 0) :=
  if_pos hs

theorem slices_over (h : Hooks (PurvaRun U)) (prog : Transcoded) {r : Run (PurvaRun U)}
    (hs : Run.status r ≠ .fuel) (fuels : List Nat) : slices h prog fuels r = (r, 0) := by
  induction fuels with
  | nil => rfl
  | cons fuel fuels ih =>
    unfold slices
    rw [purvaRun_over h prog hs]
    simp only
    rw [ih]
    rfl

/-- Slices that drive a guest to its end. -/
theorem slices_finish (cb : PurvaCallbacks U) (steps : Nat) (m : Image) (fuels : List Nat)
    (r : Run (PurvaRun U)) (hin : Inside (purvaHooks cb steps) m r) (hs : Run.status r = .fuel)
    (hend : Run.status (slices (purvaHooks cb steps) m.prog fuels r).1 ≠ .fuel) :
    Finishes (purvaHooks cb steps) m r (slices (purvaHooks cb steps) m.prog fuels r) := by
  induction fuels generalizing r with
  | nil => exact absurd hs hend
  | cons fuel fuels ih =>
    have hrun := purvaRun_ends cb steps m r fuel hin hs
    unfold slices at hend ⊢
    simp only at hend ⊢
    cases hrun with
    | fuel hs' hin' hfin => exact hfin _ (ih _ hin' hs' hend)
    | ended hs' hfin =>
      rw [slices_over _ _ hs']
      exact hfin

/-- **Slices of fuel are invisible to the guest.**  Two sequences of slices that drive a run whose
cursor stays inside the op array to DONE or TRAP leave the same run: status, exit code, registers,
memory and the calls of the host, and they use the same fuel.  After that nothing happens. -/
theorem slices_invisible (cb : PurvaCallbacks U) (steps : Nat) (m : Image)
    (r : Run (PurvaRun U)) (hin : Inside (purvaHooks cb steps) m r) (fuels fuels' : List Nat)
    (hend : Run.status (slices (purvaHooks cb steps) m.prog fuels r).1 = .done ∨
      Run.status (slices (purvaHooks cb steps) m.prog fuels r).1 = .trap)
    (hend' : Run.status (slices (purvaHooks cb steps) m.prog fuels' r).1 = .done ∨
      Run.status (slices (purvaHooks cb steps) m.prog fuels' r).1 = .trap) :
    slices (purvaHooks cb steps) m.prog fuels r = slices (purvaHooks cb steps) m.prog fuels' r ∧
      ∀ fuel, purvaRun (purvaHooks cb steps) m.prog
        (slices (purvaHooks cb steps) m.prog fuels r).1 fuel =
          ((slices (purvaHooks cb steps) m.prog fuels r).1, 0) := by
  have hne : Run.status (slices (purvaHooks cb steps) m.prog fuels r).1 ≠ .fuel := by
    rcases hend with h | h <;> rw [h] <;> nofun
  have hne' : Run.status (slices (purvaHooks cb steps) m.prog fuels' r).1 ≠ .fuel := by
    rcases hend' with h | h <;> rw [h] <;> nofun
  refine ⟨?_, fun fuel => purvaRun_over _ _ hne fuel⟩
  by_cases hs : Run.status r = .fuel
  · exact finishes_unique (slices_finish cb steps m fuels r hin hs hne)
      (slices_finish cb steps m fuels' r hin hs hne')
  · rw [slices_over _ _ hs, slices_over _ _ hs]

/-- `jal x0, 4`, and `ecall`: exit with the code in a0. -/
def exitImage : Image where
  ops := [BitVec.ofNat 32 (RISCV_OP_JAL <<< 26 + 4), BitVec.ofNat 32 (RISCV_OP_ECALL <<< 26)]
  small := by decide

/-- A guest with no memory that is about to start. -/
def exitRun : Run (PurvaRun Unit) where
  s :=
    { pc := 0#32, inst := 0#32, x := fun _ => 0#32
      readonly := ⟨0, 0#32, 0#32⟩, writable := ⟨0, 0#32, 0#32⟩, mem := fun _ _ => 0#8
      host := ⟨.fuel, 0#32, 0, 0#32, 0#32, 0#32, 0#32, 0#32, (), []⟩ }
  log := []

theorem exitRun_inside : Inside (purvaHooks ⟨none, none⟩ 0) exitImage exitRun := by
  intro _ n q hq
  match n with
  | 0 =>
    cases hq
    decide
  | 1 =>
    cases hq
    decide
  | n + 2 => cases hq

theorem slices_invisible_exit :
    slices (purvaHooks ⟨none, none⟩ 0) exitImage.prog [1, 1] exitRun =
      slices (purvaHooks ⟨none, none⟩ 0) exitImage.prog [5] exitRun ∧
    ∀ fuel, purvaRun (purvaHooks ⟨none, none⟩ 0) exitImage.prog
      (slices (purvaHooks ⟨none, none⟩ 0) exitImage.prog [1, 1] exitRun).1 fuel =
        ((slices (purvaHooks ⟨none, none⟩ 0) exitImage.prog [1, 1] exitRun).1, 0) :=
  slices_invisible ⟨none, none⟩ 0 exitImage exitRun exitRun_inside [1, 1] [5] (.inl rfl) (.inl rfl)

end Purv.Purva

import Purv.PurvaGraft
import Purv.PurvaRun

/-!
# A run and the host's own data

The evaluator hands the host's data to the callbacks and does nothing else with it.  So a function
of the data that the callbacks respect is one that runs respect.

* `runMap` — a run with a function applied to the host's data, in the state and in the log;
* `Respects` — the callbacks of one host are those of another, seen through a function;
* `dispatch_map`, `riscvEmulatorLoop_map`, `purvaRun_map` — an op, an engine call and a slice.
-/

namespace Purv.Purva

open Bits Transcode

variable {U V : Type} (f : V → U)

/-! ## Another host -/

/-- The fields of a run with `f` applied to the host's data. -/
def hostMap (r : PurvaRun V) : PurvaRun U where
  status := r.status
  exit_code := r.exit_code
  writable := r.writable
  stack_len := r.stack_len
  heap_brk := r.heap_brk
  heap_top := r.heap_top
  freep := r.freep
  basep := r.basep
  user := f r.user
  calls := r.calls

/-- A state with `f` applied to the host's data. -/
def stateMap (s : State (PurvaRun V)) : State (PurvaRun U) where
  pc := s.pc
  inst := s.inst
  x := s.x
  readonly := s.readonly
  writable := s.writable
  mem := s.mem
  host := hostMap f s.host

/-- A call with `f` applied to the data it saw. -/
def callMap : Call (PurvaRun V) → Call (PurvaRun U)
  | .mem op addr value s => .mem op addr value (stateMap f s)
  | .trap t s => .trap t (stateMap f s)

/-- A run with `f` applied to the host's data. -/
def runMap (r : Run (PurvaRun V)) : Run (PurvaRun U) :=
  ⟨stateMap f r.s, r.log.map (callMap f)⟩

/-- The callbacks `cbU` are the callbacks `cbV` as `f` sees them. -/
structure Respects (cbV : PurvaCallbacks V) (cbU : PurvaCallbacks U) : Prop where
  write : Option.Rel (fun a b => ∀ v fd buf, b (f v) fd buf = (f (a v fd buf).1, (a v fd buf).2))
    cbV.write cbU.write
  hostcall : Option.Rel (fun a b => ∀ v fn a0 a1 a2,
    b (f v) fn a0 a1 a2 = (f (a v fn a0 a1 a2).1, (a v fn a0 a1 a2).2)) cbV.hostcall cbU.hostcall

/-! ## The allocator -/

/-- A state and a result. -/
def outMap {A : Type} (o : State (PurvaRun V) × A) : State (PurvaRun U) × A := (stateMap f o.1, o.2)

section
variable (s : State (PurvaRun V))

theorem stLe_map (q : Ptr) (n : Nat) (v : Word) :
    stLe (stateMap f s) q n v = stateMap f (stLe s q n v) := by
  unfold stLe
  simp only
  split <;> split <;> rfl

theorem purvaNext_map (a : Word) : purvaNext (stateMap f s) a = purvaNext s a := rfl

theorem purvaSize_map (a : Word) : purvaSize (stateMap f s) a = purvaSize s a := rfl

theorem purvaSetNext_map (a v : Word) :
    purvaSetNext (stateMap f s) a v = stateMap f (purvaSetNext s a v) := stLe_map f s _ 4 v

theorem purvaSetSize_map (a v : Word) :
    purvaSetSize (stateMap f s) a v = stateMap f (purvaSetSize s a v) := stLe_map f s _ 4 v

theorem setFreep_map (v : Word) : setFreep (stateMap f s) v = stateMap f (setFreep s v) := rfl

theorem freeWalk_map (bp : Word) (n : Nat) (p : Word) :
    freeWalk (stateMap f s) bp n p = freeWalk s bp n p := by
  induction n generalizing p with
  | zero => rfl
  | succ n ih =>
    unfold freeWalk
    rw [purvaNext_map, ih]

theorem purvaFree_map (steps : Nat) (ap : Word) :
    purvaFree steps (stateMap f s) ap = (purvaFree steps s ap).map (stateMap f) := by
  unfold purvaFree
  simp only [freeWalk_map, purvaNext_map, purvaSize_map, purvaSetNext_map, purvaSetSize_map,
    Option.map_map]
  show Option.map _ (freeWalk s _ steps s.host.freep) = _
  refine congrArg (fun g => Option.map g _) (funext fun p => ?_)
  show _ = stateMap f _
  split <;> simp only [purvaNext_map, purvaSize_map, purvaSetNext_map, purvaSetSize_map] <;>
    split <;> simp only [setFreep_map]

theorem purvaMorecore_map (steps : Nat) (nu : Word) :
    purvaMorecore steps (stateMap f s) nu = (purvaMorecore steps s nu).map (outMap f) := by
  unfold purvaMorecore
  simp only
  generalize (if nu < 4096#32 then 4096#32 else nu) = nu'
  have hbrk : (stateMap f s).host.heap_brk = s.host.heap_brk := rfl
  have htop : (stateMap f s).host.heap_top = s.host.heap_top := rfl
  rw [hbrk, htop]
  split
  · rfl
  · have hfree := purvaFree_map f
      (purvaSetSize
        { s with host := { s.host with heap_brk := s.host.heap_brk + nu' * PURVA_HUNIT } }
        s.host.heap_brk nu') steps (s.host.heap_brk + PURVA_HUNIT)
    rw [← purvaSetSize_map] at hfree
    rw [Option.map_map]
    refine (congrArg (Option.map _) hfree).trans ?_
    rw [Option.map_map]
    rfl

theorem mallocWalk_map (steps : Nat) (nunits : Word) (n : Nat) (prevp p : Word) :
    mallocWalk steps nunits n (stateMap f s) prevp p =
      (mallocWalk steps nunits n s prevp p).map (outMap f) := by
  induction n generalizing s prevp p with
  | zero => rfl
  | succ n ih =>
    unfold mallocWalk
    simp only [purvaSize_map, purvaNext_map, purvaSetNext_map, purvaSetSize_map, setFreep_map,
      purvaMorecore_map, ih]
    split
    · split
      · rfl
      · rfl
    · have hfreep : (stateMap f s).host.freep = s.host.freep := rfl
      rw [hfreep]
      split
      · cases purvaMorecore steps s nunits with
        | none => rfl
        | some o =>
          show (if o.2 = 0#32 then some (outMap f (o.1, 0#32))
            else mallocWalk steps nunits n (stateMap f o.1) o.2 (purvaNext o.1 o.2)) =
              Option.map (outMap f) (if o.2 = 0#32 then some (o.1, 0#32)
                else mallocWalk steps nunits n o.1 o.2 (purvaNext o.1 o.2))
          rw [ih]
          split <;> rfl
      · rfl

theorem purvaMalloc_map (steps : Nat) (n : Word) :
    purvaMalloc steps (stateMap f s) n = (purvaMalloc steps s n).map (outMap f) := by
  unfold purvaMalloc
  split
  · rfl
  · exact mallocWalk_map f s steps _ steps _ _

theorem purvaRealloc_map (steps : Nat) (ap n : Word) :
    purvaRealloc steps (stateMap f s) ap n = (purvaRealloc steps s ap n).map (outMap f) := by
  unfold purvaRealloc
  simp only [purvaSize_map, purvaMalloc_map, purvaFree_map]
  split
  · rfl
  · split
    · rw [Option.map_map, Option.map_map]
      rfl
    · split
      · rfl
      · cases purvaMalloc steps s n with
        | none => rfl
        | some o =>
          simp only [Option.map_some, outMap]
          split
          · rfl
          · have hfree := purvaFree_map f (memmove o.1 (purvaArena o.1 o.2) (purvaArena o.1 ap)
              (if (purvaSize s (ap - PURVA_HUNIT) - 1#32) * PURVA_HUNIT < n then
                (purvaSize s (ap - PURVA_HUNIT) - 1#32) * PURVA_HUNIT else n).toNat) steps ap
            refine (congrArg (Option.map _) hfree).trans ?_
            rw [Option.map_map, Option.map_map]
            rfl

end

/-! ## The hooks -/

section
variable {f} {cbV : PurvaCallbacks V} {cbU : PurvaCallbacks U}

theorem writeLoop_map {a : V → Word → List Byte → V × Int} {b : U → Word → List Byte → U × Int}
    (hab : ∀ v fd buf, b (f v) fd buf = (f (a v fd buf).1, (a v fd buf).2)) (fd : Word) (n : Nat)
    (s : State (PurvaRun V)) (p left : Word) (done : Int) :
    writeLoop b fd n (stateMap f s) p left done =
      (writeLoop a fd n s p left done).map (outMap f) := by
  induction n generalizing s p left done with
  | zero => rfl
  | succ n ih =>
    unfold writeLoop
    split
    · rfl
    · simp only
      generalize (if left > 512#32 then 512#32 else left) = c
      have hbuf : (List.range c.toNat).map
            (fun i => purvaGbyte (stateMap f s) (p + BitVec.ofNat 32 i)) =
          (List.range c.toNat).map fun i => purvaGbyte s (p + BitVec.ofNat 32 i) := rfl
      have huser : (stateMap f s).host.user = f s.host.user := rfl
      rw [hbuf, huser, hab]
      generalize (List.range c.toNat).map (fun i => purvaGbyte s (p + BitVec.ofNat 32 i)) = buf
      obtain ⟨v, w⟩ := a s.host.user fd buf
      simp only
      have hcalled : ({ stateMap f s with
            host := (stateMap f s).host.called (f v) (.write fd buf) } : State (PurvaRun U)) =
          stateMap f { s with host := s.host.called v (.write fd buf) } := rfl
      rw [hcalled, ih]
      split <;> rfl

theorem answer_map (s : State (PurvaRun V)) (ret : Option (State (PurvaRun V) × Word)) :
    answer (stateMap f s) (ret.map (outMap f)) =
      (stateMap f (answer s ret).1, (answer s ret).2) := by
  cases ret <;> rfl

/-- **The ecall hook** and the host's data. -/
theorem purvaOnEcall_map (hcb : Respects f cbV cbU) (steps : Nat) (s : State (PurvaRun V)) :
    purvaOnEcall cbU steps (stateMap f s) =
      (stateMap f (purvaOnEcall cbV steps s).1, (purvaOnEcall cbV steps s).2) := by
  obtain ⟨hwrite, hhost⟩ := hcb
  have hx : (stateMap f s).x = s.x := rfl
  unfold purvaOnEcall
  simp only [hx]
  split
  · rfl
  · cases hV : cbV.write with
    | none =>
      rw [hV] at hwrite
      cases hU : cbU.write with
      | none => rfl
      | some b =>
        rw [hU] at hwrite
        cases hwrite
    | some a =>
      rw [hV] at hwrite
      cases hU : cbU.write with
      | none =>
        rw [hU] at hwrite
        cases hwrite
      | some b =>
        rw [hU] at hwrite
        cases hwrite with
        | some hab =>
          simp only
          rw [writeLoop_map hab, ← answer_map, Option.map_map, Option.map_map]
          rfl
  · rw [purvaMalloc_map, answer_map]
  · split
    · rfl
    · rw [purvaFree_map, ← answer_map, Option.map_map, Option.map_map]
      rfl
  · rw [purvaRealloc_map, answer_map]
  · cases hV : cbV.hostcall with
    | none =>
      rw [hV] at hhost
      cases hU : cbU.hostcall with
      | none => rfl
      | some b =>
        rw [hU] at hhost
        cases hhost
    | some a =>
      rw [hV] at hhost
      cases hU : cbU.hostcall with
      | none =>
        rw [hU] at hhost
        cases hhost
      | some b =>
        rw [hU] at hhost
        cases hhost with
        | some hab =>
          have huser : (stateMap f s).host.user = f s.host.user := rfl
          simp only [huser, hab]
          split
          · rfl
          · split
            · rfl
            · rfl

/-! ## The evaluator -/

/-- A trap op and the host's data. -/
theorem hTrap_map (hcb : Respects f cbV cbU) (steps : Nat) (r : Run (PurvaRun V)) (p w : Word) :
    hTrap (purvaHooks cbU steps) (runMap f r) p w =
      (runMap f (hTrap (purvaHooks cbV steps) r p w).1,
        (hTrap (purvaHooks cbV steps) r p w).2) := by
  have hhost : ∀ (t : Trap) (g : TrapFn (PurvaRun V)) (k : TrapFn (PurvaRun U)),
      ((purvaHooks cbV steps).handler t).1 = some g →
      ((purvaHooks cbU steps).handler t).1 = some k →
      (∀ s, k (stateMap f s) = (stateMap f (g s).1, (g s).2)) →
      ((runMap f r).fault (p <<< 2) w).trap (purvaHooks cbU steps) t =
        (runMap f ((r.fault (p <<< 2) w).trap (purvaHooks cbV steps) t).1,
          ((r.fault (p <<< 2) w).trap (purvaHooks cbV steps) t).2) := by
    intro t g k hg hk hgk
    unfold Run.trap
    generalize (purvaHooks cbV steps).handler t = a at hg ⊢
    generalize (purvaHooks cbU steps).handler t = b at hk ⊢
    obtain ⟨g', stop⟩ := a
    obtain ⟨k', stop'⟩ := b
    cases hg
    cases hk
    have hfault : ((runMap f r).fault (p <<< 2) w).s = stateMap f (r.fault (p <<< 2) w).s := rfl
    have hlog : ((runMap f r).fault (p <<< 2) w).log = (r.fault (p <<< 2) w).log.map (callMap f) :=
      rfl
    simp only [hfault, hlog, hgk]
    unfold runMap
    rw [List.map_append]
    rfl
  have htrap : ∀ t, ((runMap f r).fault (p <<< 2) w).trap (purvaHooks cbU steps) t =
      (runMap f ((r.fault (p <<< 2) w).trap (purvaHooks cbV steps) t).1,
        ((r.fault (p <<< 2) w).trap (purvaHooks cbV steps) t).2) := by
    intro t
    cases t with
    | ecall => exact hhost .ecall _ _ rfl rfl (purvaOnEcall_map hcb steps)
    | ebreak => exact hhost .ebreak purvaOnTrap purvaOnTrap rfl rfl fun s => rfl
    | illegal => exact hhost .illegal purvaOnTrap purvaOnTrap rfl rfl fun s => rfl
  unfold hTrap
  simp only [htrap]

/-- **An op and the host's data.** -/
theorem dispatch_map (hcb : Respects f cbV cbU) (steps : Nat) (r : Run (PurvaRun V))
    (p w w2 : Word) :
    dispatch (purvaHooks cbU steps) (runMap f r) p w w2 =
      (runMap f (dispatch (purvaHooks cbV steps) r p w w2).1,
        (dispatch (purvaHooks cbV steps) r p w w2).2) := by
  by_cases hop : IsTrap (TC_OP w)
  · rw [dispatch_traps _ _ p w w2 hop, dispatch_traps _ _ p w w2 hop]
    exact hTrap_map hcb steps r p w
  · have hgraft := dispatch_graft (h := purvaHooks cbV steps) (k := purvaHooks cbU steps) rfl rfl
      (runMap f r) r p w w2 hop
    have hkeeps := dispatch_keeps (h := purvaHooks cbV steps) rfl r p w w2 hop
    rw [show graftRun (runMap f r) r = runMap f r from rfl] at hgraft
    rw [hgraft, hkeeps]
    rfl

/-- A result with `f` applied to the host's data. -/
def resultMap (f : V → U) (res : Result (PurvaRun V)) : Result (PurvaRun U) :=
  ⟨runMap f res.r, res.k, res.stop⟩

theorem loopFrom_map (hcb : Respects f cbV cbU) (steps : Nat) (ops : List Word) (clen : Word)
    (max fuel : Nat) (r : Run (PurvaRun V)) (p k : Nat) :
    loopFrom (purvaHooks cbU steps) ops clen max fuel (runMap f r) p k =
      resultMap f (loopFrom (purvaHooks cbV steps) ops clen max fuel r p k) := by
  induction fuel generalizing r p k with
  | zero => rfl
  | succ fuel ih =>
    unfold loopFrom
    cases ops[p]? with
    | none => rfl
    | some w =>
      simp only
      rw [dispatch_map hcb]
      obtain ⟨r', c, g⟩ := dispatch (purvaHooks cbV steps) r (BitVec.ofNat 32 p) w _
      have hpc : ∀ v, (runMap f r').setPc v = runMap f (r'.setPc v) := fun v => rfl
      cases g with
      | fall n => exact ih r' (p + n) (k + c)
      | reloc idx =>
        simp only [hpc, ih]
        split <;> rfl
      | indirect t =>
        simp only [hpc, ih]
        split
        · rfl
        · split <;> rfl
      | trap stop =>
        cases stop with
        | true => rfl
        | false =>
          simp only [hpc, ih]
          split <;> rfl

/-- **An engine call and the host's data.** -/
theorem riscvEmulatorLoop_map (hcb : Respects f cbV cbU) (steps : Nat) (prog : Transcoded)
    (r : Run (PurvaRun V)) (max : Nat) :
    riscvEmulatorLoop (purvaHooks cbU steps) prog (runMap f r) max =
      resultMap f (riscvEmulatorLoop (purvaHooks cbV steps) prog r max) := by
  have hpc : (runMap f r).s.pc = r.s.pc := rfl
  unfold riscvEmulatorLoop
  rw [hpc]
  split
  · rfl
  · exact loopFrom_map hcb steps _ _ max _ r _ 0

theorem sliceFrom_map (hcb : Respects f cbV cbU) (steps : Nat) (prog : Transcoded)
    (fuel rounds : Nat) (r : Run (PurvaRun V)) (total : Nat) :
    sliceFrom (purvaHooks cbU steps) prog fuel rounds (runMap f r) total =
      (runMap f (sliceFrom (purvaHooks cbV steps) prog fuel rounds r total).1,
        (sliceFrom (purvaHooks cbV steps) prog fuel rounds r total).2) := by
  induction rounds generalizing r total with
  | zero => rfl
  | succ rounds ih =>
    unfold sliceFrom
    split
    · rw [riscvEmulatorLoop_map hcb]
      generalize riscvEmulatorLoop (purvaHooks cbV steps) prog r (fuel - total) = res
      have hstatus : Run.status (runMap f res.r) = Run.status res.r := rfl
      have hpc : (runMap f res.r).s.pc = res.r.s.pc := rfl
      simp only [resultMap, hstatus, hpc, ih]
      split
      · rfl
      · split
        · rfl
        · split
          · rfl
          · split <;> rfl
    · rfl

/-- **A slice and the host's data.** -/
theorem purvaRun_map (hcb : Respects f cbV cbU) (steps : Nat) (prog : Transcoded)
    (r : Run (PurvaRun V)) (fuel : Nat) :
    purvaRun (purvaHooks cbU steps) prog (runMap f r) fuel =
      (runMap f (purvaRun (purvaHooks cbV steps) prog r fuel).1,
        (purvaRun (purvaHooks cbV steps) prog r fuel).2) := by
  have hstatus : Run.status (runMap f r) = Run.status r := rfl
  unfold purvaRun
  rw [hstatus]
  split
  · rfl
  · exact sliceFrom_map hcb steps prog fuel fuel r 0

end

/-! ## One function after another -/

theorem callMap_comp {W : Type} (g : U → W) (c : Call (PurvaRun V)) :
    callMap g (callMap f c) = callMap (g ∘ f) c := by
  cases c <;> rfl

theorem runMap_comp {W : Type} (g : U → W) (r : Run (PurvaRun V)) :
    runMap g (runMap f r) = runMap (g ∘ f) r := by
  unfold runMap
  rw [List.map_map]
  have hcall : callMap g ∘ callMap f = callMap (g ∘ f) := funext (callMap_comp f g)
  rw [hcall]
  rfl

theorem runMap_id (r : Run (PurvaRun U)) : runMap id r = r := by
  have hcall : (callMap id : Call (PurvaRun U) → Call (PurvaRun U)) = id := by
    funext c
    cases c <;> rfl
  unfold runMap
  rw [hcall, List.map_id]
  rfl

end Purv.Purva

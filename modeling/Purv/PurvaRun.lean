import Purv.Purva

/-!
# Embedding the evaluator (`purvarun.h`)

A `PurvaRun` is an image with its state, the allocator that serves the guest, and the callbacks of
the embedding host.

* `PurvaRun`, `PurvaCallbacks` — the fields beside the engine's state, and the host behind them;
* `purvaFree`, `purvaMalloc`, `purvaRealloc` — the allocator over guest RAM;
* `purvaOnEcall`, `purvaOnTrap` — the trap hooks;
* `purvaRun` — a slice of fuel.

The walks over the free list and the copy loop of `write` are followed for a number of steps that is
a parameter, `steps`: a walk that is not over by then is `none`.
-/

namespace Purv.Purva

open Bits Transcode

variable {H U : Type}

/-! ## The host's side -/

/-- `PURVA_RUN_DONE`, `PURVA_RUN_FUEL`, `PURVA_RUN_TRAP`.  `lost` is no status: a walk that is not
over, or a cursor off the array of ops, where the source does not come back. -/
inductive Status where
  | done
  | fuel
  | trap
  | lost
  deriving DecidableEq, Repr

/-- A call of `cb.write` or `cb.hostcall`, with its arguments. -/
inductive HostCall where
  | write (fd : Word) (buf : List Byte)
  | hostcall (fn a0 a1 a2 : Word)
  deriving DecidableEq

/-- `PurvaCallbacks`: functions of the host's own data and their arguments; `none` is `NULL`. -/
structure PurvaCallbacks (U : Type) where
  /-- The bytes written. -/
  write : Option (U → Word → List Byte → U × Int)
  /-- The result in a0, and `*stop`. -/
  hostcall : Option (U → Word → Word → Word → Word → U × Word × Bool)

/-- The fields of a `PurvaRun` beside `st`, `prog` and `cb`, the host's own data, and the calls made
to it so far. -/
structure PurvaRun (U : Type) where
  status : Status
  exit_code : Word
  writable : Buf
  stack_len : Word
  heap_brk : Word
  heap_top : Word
  freep : Word
  basep : Word
  user : U
  calls : List HostCall

/-! ## The allocator -/

section
variable (s : State (PurvaRun U)) (a v : Word)

/-- `purva__arena`. -/
def purvaArena : Ptr :=
  (s.host.writable, (a - (RISCV_HALF - s.host.stack_len)).toNat)

/-- `purva__ld`. -/
def purvaLd : Word := ldLe s (purvaArena s a) 4

/-- `purva__st`. -/
def purvaSt : State (PurvaRun U) := stLe s (purvaArena s a) 4 v

/-- `purva__next`. -/
def purvaNext : Word := purvaLd s a

/-- `purva__size`. -/
def purvaSize : Word := purvaLd s (a + 4#32)

/-- `purva__set_next`. -/
def purvaSetNext : State (PurvaRun U) := purvaSt s a v

/-- `purva__set_size`. -/
def purvaSetSize : State (PurvaRun U) := purvaSt s (a + 4#32) v

/-- `r->freep = v`. -/
def setFreep : State (PurvaRun U) := { s with host := { s.host with freep := v } }

end

/-- `PURVA_HUNIT`. -/
def PURVA_HUNIT : Word := 8#32

/-- The search of `purva__free` for the place of `bp`, from `p` on. -/
def freeWalk (s : State (PurvaRun U)) (bp : Word) : Nat → Word → Option Word
  | 0, _ => none
  | n + 1, p =>
    if bp > p ∧ bp < purvaNext s p then some p
    else if p ≥ purvaNext s p ∧ (bp > p ∨ bp < purvaNext s p) then some p
    else freeWalk s bp n (purvaNext s p)

/-- `purva__free`. -/
def purvaFree (steps : Nat) (s : State (PurvaRun U)) (ap : Word) : Option (State (PurvaRun U)) :=
  let bp := ap - PURVA_HUNIT
  (freeWalk s bp steps s.host.freep).map fun p =>
    let s := if bp + purvaSize s bp * PURVA_HUNIT = purvaNext s p then
        let s := purvaSetSize s bp (purvaSize s bp + purvaSize s (purvaNext s p))
        purvaSetNext s bp (purvaNext s (purvaNext s p))
      else purvaSetNext s bp (purvaNext s p)
    let s := if p + purvaSize s p * PURVA_HUNIT = bp then
        let s := purvaSetSize s p (purvaSize s p + purvaSize s bp)
        purvaSetNext s p (purvaNext s bp)
      else purvaSetNext s p bp
    setFreep s p

/-- `purva__morecore`; 0 when the arena is used up. -/
def purvaMorecore (steps : Nat) (s : State (PurvaRun U)) (nu : Word) :
    Option (State (PurvaRun U) × Word) :=
  let nu := if nu < 4096#32 then 4096#32 else nu
  let bytes := nu * PURVA_HUNIT
  if s.host.heap_brk.toNat + bytes.toNat > s.host.heap_top.toNat then some (s, 0#32)
  else
    let up := s.host.heap_brk
    let s := { s with host := { s.host with heap_brk := up + bytes } }
    (purvaFree steps (purvaSetSize s up nu) (up + PURVA_HUNIT)).map fun s => (s, s.host.freep)

/-- The loop of `purva__malloc`. -/
def mallocWalk (steps : Nat) (nunits : Word) :
    Nat → State (PurvaRun U) → Word → Word → Option (State (PurvaRun U) × Word)
  | 0, _, _, _ => none
  | n + 1, s, prevp, p =>
    if purvaSize s p ≥ nunits then
      if purvaSize s p = nunits then
        some (setFreep (purvaSetNext s prevp (purvaNext s p)) prevp, p + PURVA_HUNIT)
      else
        let s := purvaSetSize s p (purvaSize s p - nunits)
        let p := p + purvaSize s p * PURVA_HUNIT
        some (setFreep (purvaSetSize s p nunits) prevp, p + PURVA_HUNIT)
    else if p = s.host.freep then
      match purvaMorecore steps s nunits with
      | none => none
      | some (s, p) =>
        if p = 0#32 then some (s, 0#32) else mallocWalk steps nunits n s p (purvaNext s p)
    else mallocWalk steps nunits n s p (purvaNext s p)

/-- `purva__malloc`. -/
def purvaMalloc (steps : Nat) (s : State (PurvaRun U)) (nbytes : Word) :
    Option (State (PurvaRun U) × Word) :=
  if nbytes = 0#32 then some (s, 0#32)
  else
    let nunits := (nbytes + PURVA_HUNIT - 1#32) / PURVA_HUNIT + 1#32
    mallocWalk steps nunits steps s s.host.freep (purvaNext s s.host.freep)

/-- `purva__realloc`. -/
def purvaRealloc (steps : Nat) (s : State (PurvaRun U)) (ap n : Word) :
    Option (State (PurvaRun U) × Word) :=
  if ap = 0#32 then purvaMalloc steps s n
  else if n = 0#32 then (purvaFree steps s ap).map fun s => (s, 0#32)
  else
    let oldbytes := (purvaSize s (ap - PURVA_HUNIT) - 1#32) * PURVA_HUNIT
    if oldbytes ≥ n then some (s, ap)
    else
      match purvaMalloc steps s n with
      | none => none
      | some (s, np) =>
        if np = 0#32 then some (s, 0#32)
        else
          let s := memmove s (purvaArena s np) (purvaArena s ap)
            (if oldbytes < n then oldbytes else n).toNat
          (purvaFree steps s ap).map fun s => (s, np)

/-! ## The hooks -/

/-- `purva__gbyte`. -/
def purvaGbyte (s : State H) (a : Word) : Byte :=
  let rel := a - s.writable.base
  if rel < s.writable.len then s.mem s.writable.ptr rel.toNat
  else
    let rel := a - s.readonly.base
    if rel < s.readonly.len then s.mem s.readonly.ptr rel.toNat else 0#8

/-- A call of the host: what it makes of its data, and the log. -/
def PurvaRun.called (r : PurvaRun U) (user : U) (c : HostCall) : PurvaRun U :=
  { r with user := user, calls := r.calls ++ [c] }

/-- The copy loop of `write`, in chunks of 512 bytes. -/
def writeLoop (write : U → Word → List Byte → U × Int) (fd : Word) :
    Nat → State (PurvaRun U) → Word → Word → Int → Option (State (PurvaRun U) × Int)
  | 0, _, _, _, _ => none
  | n + 1, s, p, left, done =>
    if left = 0#32 then some (s, done)
    else
      let c := if left > 512#32 then 512#32 else left
      let buf := (List.range c.toNat).map fun i => purvaGbyte s (p + BitVec.ofNat 32 i)
      let (user, w) := write s.host.user fd buf
      let s := { s with host := s.host.called user (.write fd buf) }
      if w ≤ 0 then some (s, done)
      else writeLoop write fd n s (p + BitVec.ofInt 32 w) (left - BitVec.ofInt 32 w) (done + w)

/-- `r->status = status`. -/
def setStatus (s : State (PurvaRun U)) (status : Status) : State (PurvaRun U) :=
  { s with host := { s.host with status := status } }

/-- The end of `purva__on_ecall`: the result in a0, and back to the guest. -/
def answer (s : State (PurvaRun U)) (ret : Option (State (PurvaRun U) × Word)) :
    State (PurvaRun U) × Bool :=
  match ret with
  | none => (setStatus s .lost, true)
  | some (s, ret) => (s.setX 10#5 ret, false)

/-- `purva__on_ecall`. -/
def purvaOnEcall (cb : PurvaCallbacks U) (steps : Nat) : TrapFn (PurvaRun U) := fun s =>
  let fn := s.x 17#5
  let a0 := s.x 10#5
  let a1 := s.x 11#5
  let a2 := s.x 12#5
  match fn.toNat with
  | 0 =>
    let s := { s with host := { s.host with exit_code := a0, status := .done } }
    (s.setX 10#5 0#32, true)
  | 1 =>
    match cb.write with
    | none => answer s (some (s, a2))
    | some write =>
      answer s ((writeLoop write a0 steps s a1 a2 0).map fun o => (o.1, BitVec.ofInt 32 o.2))
  | 2 => answer s (purvaMalloc steps s a0)
  | 3 =>
    if a0 = 0#32 then answer s (some (s, 0#32))
    else answer s ((purvaFree steps s a0).map fun s => (s, 0#32))
  | 4 => answer s (purvaRealloc steps s a0 a1)
  | n =>
    match cb.hostcall with
    | none => (setStatus s .trap, true)
    | some hostcall =>
      if n < 16 then (setStatus s .trap, true)
      else
        let (user, ret, stop) := hostcall s.host.user fn a0 a1 a2
        let s := { s with host := s.host.called user (.hostcall fn a0 a1 a2) }
        if stop then ((setStatus s .trap).setX 10#5 ret, true) else answer s (some (s, ret))

/-- `purva__on_trap`. -/
def purvaOnTrap : TrapFn (PurvaRun U) := fun s => (setStatus s .trap, true)

/-- The function pointers that `purva_run_init` sets.  The memory callback is the engine's own,
which answers 0. -/
def purvaHooks (cb : PurvaCallbacks U) (steps : Nat) : Hooks (PurvaRun U) where
  ecall := some (purvaOnEcall cb steps)
  ebreak := some purvaOnTrap
  illegal := some purvaOnTrap
  callback := none

/-! ## A slice -/

/-- The status of a run. -/
def Run.status (r : Run (PurvaRun U)) : Status := r.s.host.status

/-- `r->status = status`. -/
def Run.withStatus (r : Run (PurvaRun U)) (status : Status) : Run (PurvaRun U) :=
  { r with s := setStatus r.s status }

/-- The loop of `purva_run`.  Every round that goes on has used fuel, so `fuel` rounds are
enough. -/
def sliceFrom (h : Hooks (PurvaRun U)) (prog : Transcoded) (fuel : Nat) :
    Nat → Run (PurvaRun U) → Nat → Run (PurvaRun U) × Nat
  | 0, r, total => (r, total)
  | rounds + 1, r, total =>
    if total < fuel then
      let res := riscvEmulatorLoop h prog r (fuel - total)
      let total := total + res.k
      if res.stop = .wild ∨ res.stop = .running then (Run.withStatus res.r .lost, total)
      else if Run.status res.r ≠ .fuel then (res.r, total)
      else if res.r.s.pc ≥ prog.code_len then (Run.withStatus res.r .trap, total)
      else if res.k = 0 then (Run.withStatus res.r .trap, total)
      else sliceFrom h prog fuel rounds res.r total
    else (r, total)

/-- `purva_run`: the run after it, and `*used`. -/
def purvaRun (h : Hooks (PurvaRun U)) (prog : Transcoded) (r : Run (PurvaRun U)) (fuel : Nat) :
    Run (PurvaRun U) × Nat :=
  if Run.status r ≠ .fuel then (r, 0) else sliceFrom h prog fuel fuel r 0

end Purv.Purva

import Purv.GdbContinue
import Purv.GdbSession
import Purv.Batch

/-!
# The run loop of the reference host (`main.c`)

* `Relates` — what every call of the host keeps, and so every run of the engine
  (`riscvEmulatorLoop_relates`) and every dialogue with the gdb stub (`dialogue_relates`);
* `mainLoop` — the slices that `main` runs the engine in;
* `mainLoop_ends` — it ends within its instruction cap, for a reason that it reports;
* `Grows` — what the program does to the host: output only grows, the break only rises and stays in
  the heap, a halt stays;
* `main_grows` — that is all that a run of `main` does, with the debugger or without;
* `riscvEmulatorLoop_steps` — a call of the engine is as many single steps as it counts;
* `main_steps` — so the slices of `main` come to where the debugger steps to.
-/

namespace Purv.Gdb

open Steps

/-! ## What the host sees of a run -/

section
variable {H : Type}

/-- A relation that each call of the host keeps, and whatever leaves the host and the code window
alone. -/
structure Relates (h : Hooks H) (R : State H → State H → Prop) : Prop where
  quiet : ∀ {s s'}, s'.host = s.host → s'.readonly = s.readonly → R s s'
  trans : ∀ {s s' s''}, R s s' → R s' s'' → R s s''
  trap : ∀ t f, (h.handler t).1 = some f → ∀ s, R s (f s).1
  callback : ∀ f, h.callback = some f → ∀ s op a v, R s (f s op a v).1

variable {h : Hooks H} {R : State H → State H → Prop} (hr : Relates h R)
include hr

theorem Relates.refl (s : State H) : R s s := hr.quiet rfl rfl

theorem raise_relates (r : Run H) (pc inst : Word) (t : Trap) :
    R r.s (r.raise h pc inst t).1.s := by
  unfold Run.raise Run.trap
  simp only
  split
  · exact hr.quiet rfl rfl
  · rename_i f _ hf
    have hfault : R r.s (r.fault pc inst).s := hr.quiet rfl rfl
    exact hr.trans hfault (hr.trap t f (by rw [hf]) (r.fault pc inst).s)

theorem callback_relates (r : Run H) (op : MemOp) (a v : Word) :
    R r.s (r.callback h op a v).1.s := by
  unfold Run.callback
  split
  · exact hr.refl _
  · rename_i f hf
    exact hr.callback f hf r.s op a v

theorem wr_relates (r : Run H) (i : Reg) (v : Word) : R r.s (r.wr i v).s := by
  show R r.s (r.s.wr i v)
  unfold State.wr
  split <;> exact hr.quiet rfl rfl

theorem storeValue_relates (s : State H) (p : Ptr) (b : Word) (f3 : BitVec 3) :
    R s (storeValue s p b f3) := by
  unfold storeValue
  split <;> exact hr.quiet rfl rfl

theorem execute_relates (r : Run H) (pc width inst : Word) (a : Action) :
    R r.s (execute h r pc width inst a).1.s := by
  have hraise := raise_relates hr r pc inst
  cases a with
  | load rd a imm f3 =>
    simp only [execute]
    split
    · exact hraise _
    · unfold execLoad
      simp only
      split
      · exact hr.refl _
      · split
        · exact wr_relates hr r _ _
        · exact hr.trans (callback_relates hr r .load (a + imm) 0#32) (wr_relates hr _ rd _)
  | store a b imm f3 =>
    simp only [execute]
    split
    · exact hraise _
    · unfold execStore
      split
      · exact storeValue_relates hr _ _ _ _
      · exact callback_relates hr r .store (a + imm) b
  | branch a b imm f3 =>
    simp only [execute]
    split
    · exact hraise _
    · exact hr.refl _
    · exact hr.refl _
  | system rd rs1 f3 imm =>
    simp only [execute]
    split
    · exact hraise _
    · split
      · exact hraise _
      · exact hraise _
  | ebreak => exact hraise _
  | illegal => exact hraise _
  | done => exact hr.refl _
  | _ => exact wr_relates hr r _ _

/-- A step of the loop. -/
theorem next_relates {code : Buf} {code_len : Word} {x y : Run H × Word}
    (hx : next h code code_len x = some y) : R x.1.s y.1.s := by
  obtain ⟨r, pc⟩ := x
  have hone := execute_relates hr r pc (fetch (r.s.mem code) pc).width
    (fetch (r.s.mem code) pc).inst ((fetch (r.s.mem code) pc).decode r.s.x)
  unfold next at hx
  simp only at hx
  split at hx
  · unfold oneInsn at hx
    split at hx
    · rename_i hi
      cases hx
      rwa [hi] at hone
    · rename_i hi
      cases hx
      rwa [hi] at hone
    · cases hx
  · cases hx

theorem iter_relates {code : Buf} {code_len : Word} {n : Nat} {x y : Run H × Word}
    (hx : iter (next h code code_len) n x = some y) : R x.1.s y.1.s :=
  iter_invariant (fun z => R x.1.s z.1.s) (fun _ _ hz hn => hr.trans hz (next_relates hr hn))
    (hr.refl _) hx

/-- **A run of the engine** does what the calls of the host do. -/
theorem riscvEmulatorLoop_relates (r : Run H) (max : Nat) :
    R r.s (riscvEmulatorLoop h r max).r.s := by
  rw [riscvEmulatorLoop_eq]
  rcases stepwise_halted h r.s.readonly.ptr r.s.readonly.len max r r.s.pc with
    ⟨r', pc', hrun, heq⟩ | ⟨-, hhalted⟩
  · rw [heq]
    have hend : R r'.s (r'.setPc pc').s := hr.quiet rfl rfl
    exact hr.trans (iter_relates hr hrun) hend
  · generalize stepwise h r.s.readonly.ptr r.s.readonly.len max r r.s.pc 0 = ran at hhalted
    cases hhalted with
    | @fetch r' pc' _ run check =>
      have hend : R r'.s (r'.setPc pc').s := hr.quiet rfl rfl
      exact hr.trans (iter_relates hr run) hend
    | @trap r' pc' k t run check raise =>
      have hraise := raise_relates hr r' pc' (fetch (r'.s.mem r.s.readonly.ptr) pc').inst t
      have hend : R (r'.raise h pc' (fetch (r'.s.mem r.s.readonly.ptr) pc').inst t).1.s
          ((r'.raise h pc' (fetch (r'.s.mem r.s.readonly.ptr) pc').inst t).1.setPc pc').s :=
        hr.quiet rfl rfl
      exact hr.trans (iter_relates hr run) (hr.trans hraise hend)

theorem steps_relates (k : Nat) (g : Stub) (r : Run H) : R r.s (steps h k g r).2.s := by
  induction k generalizing g r with
  | zero => exact hr.refl _
  | succ k ih =>
    have hone : R r.s (stepRecord h g r).2.s := by
      rw [stepRecord_run]
      exact riscvEmulatorLoop_relates hr r 1
    exact hr.trans hone (ih _ _)

section
variable (hhost : ∀ {s s' : State H}, s'.host = s.host → R s s')
include hhost

theorem handle_relates {e : Host H} (he : e.h = h) {interrupt : Nat → Bool} {fuel : Nat}
    {v v' : Server H} {buf : Nat → Byte} {n : Nat} {a : Answer}
    (hh : v.handle e interrupt fuel buf n = some (v', a)) : R v.r.s v'.r.s := by
  cases handle_effect hh with
  | writes host => exact hhost host
  | back cont => exact hhost (gdbReverseFrom_host cont _ _ _)
  | ran _ w cont same resumes =>
    obtain ⟨k, -, hsteps, -⟩ := resume_steps resumes
    have hrun : v'.r = (steps e.h (k + 1) w.g w.r).2 := (congrArg Prod.snd hsteps).symm
    rw [hrun, he]
    exact hr.trans (hhost same.2.2.2) (steps_relates hr (k + 1) w.g w.r)
  | _ => exact hr.refl _

/-- **A dialogue with the gdb stub** does to the host what the calls of the engine do. -/
theorem dialogue_relates {e : Host H} (he : e.h = h) {v v' : Server H} {l : List (Body × Answer)}
    (hd : Dialogue e v l v') : R v.r.s v'.r.s := by
  induction hd with
  | nil => exact hr.refl _
  | cons answers _ ih =>
    obtain ⟨interrupt, fuel, hh⟩ := answers
    exact hr.trans (handle_relates hr hhost he hh) ih

end

end

/-! ## The slices -/

/-- The options of `main` that its run loop reads, and the address of `tohost`. -/
structure Options where
  max_insns : Nat
  invoke : Bool
  tohost : Option Word

/-- `SLICE`. -/
def SLICE : Nat := 65536

/-- `MAGIC_RET`. -/
def MAGIC_RET : Word := 0xdeadbee0#32

/-- `in_heap`. -/
def inHeap (s : State MainHost) (addr : Word) (len : Nat) : Bool :=
  RISCV_HALF ≤ addr ∧ addr.toNat + len ≤ RISCV_HALF.toNat + s.host.g_heap_size.toNat

/-- What the poll of `tohost` reads: `g_heap` is the part of the writable buffer from `RISCV_HALF`
on. -/
def readTohost (o : Options) (s : State MainHost) : Word :=
  match o.tohost with
  | none => 0#32
  | some a =>
    if inHeap s a 4 then
      let p : Ptr := (s.writable.ptr, (a - s.writable.base).toNat)
      (s.byte p 0).setWidth 32 ||| (s.byte p 1).setWidth 32 <<< 8 |||
        (s.byte p 2).setWidth 32 <<< 16 ||| (s.byte p 3).setWidth 32 <<< 24
    else 0#32

/-- `g_halt = 1; g_exit = exit`. -/
def haltWith (r : Run MainHost) (exit : Word) : Run MainHost :=
  { r with s := { r.s with host := { r.s.host with g_halt := true, g_exit := exit } } }

/-- Why the loop ended: the cap, a handler, `tohost`, the return of an invoked function, or a slice
that ended early, which `main` reports as a pc outside the code. -/
inductive MainEnd where
  | cap
  | halt
  | tohost
  | returned
  | outside
  deriving DecidableEq

/-- The run loop of `main`, for `rounds` slices at most: the run, `i`, and why it ended. -/
def mainLoop (o : Options) : Nat → Run MainHost → Nat → Option (Run MainHost × Nat × MainEnd)
  | 0, _, _ => none
  | rounds + 1, r, i =>
    if i < o.max_insns ∧ r.s.host.g_halt = false then
      let budget := min (o.max_insns - i) SLICE
      let ran := riscvEmulatorLoop mainHooks r budget
      let r := ran.r
      let i := i + ran.k
      if r.s.host.g_halt then some (r, i, .halt)
      else
        let v := readTohost o r.s
        if v ≠ 0#32 then some (haltWith r (if v = 1#32 then 0#32 else 1#32), i, .tohost)
        else if ran.k < budget then
          if o.invoke ∧ r.s.pc = MAGIC_RET then some (r, i, .returned)
          else some (haltWith r 1#32, i, .outside)
        else mainLoop o rounds r i
    else some (r, i, if r.s.host.g_halt then .halt else .cap)

theorem window_le {H : Type} (h : Hooks H) (code : Buf) {max : Nat} (safe : Nat) (r : Run H)
    (pc : Word) {k : Nat} (hk : k ≤ max) : (window h code max safe r pc k).2.2.1 ≤ max := by
  induction safe generalizing r pc k with
  | zero => exact hk
  | succ safe ih =>
    unfold window
    split
    · simp only
      split
      · exact ih _ _ (by omega)
      · show k + 1 ≤ max
        omega
      · show k + 1 ≤ max
        omega
    · exact hk

theorem loopFrom_le {H : Type} (h : Hooks H) (code : Buf) (code_len : Word) {max : Nat}
    (rounds : Nat) (r : Run H) (pc : Word) {k : Nat} (hk : k ≤ max) :
    (loopFrom h code code_len max rounds r pc k).k ≤ max := by
  induction rounds generalizing r pc k with
  | zero => exact hk
  | succ rounds ih =>
    unfold loopFrom
    split
    · split
      · exact hk
      · rename_i safe _
        have hw := window_le h code safe r pc hk
        split
        · rename_i hx
          rw [hx] at hw
          exact hw
        · rename_i hx
          rw [hx] at hw
          exact ih _ _ hw
    · exact hk

/-- No call of the host moves the code window. -/
theorem mainHooks_window : Relates mainHooks fun s s' => s'.readonly = s.readonly where
  quiet _ hread := hread
  trans h h' := h'.trans h
  trap t f hf s := by
    cases t with
    | ecall =>
      cases hf
      unfold onEcall
      split
      · rfl
      · rfl
    | ebreak =>
      cases hf
      rfl
    | illegal =>
      cases hf
      rfl
  callback f hf s op a v := by
    cases hf
    unfold onOob
    split <;> rfl

/-- A slice that ends early with no halt is at a pc outside the code, or at an `ebreak`. -/
theorem slice_silent (r : Run MainHost) {budget : Nat}
    (hstop : (riscvEmulatorLoop mainHooks r budget).k < budget)
    (hrunning : (riscvEmulatorLoop mainHooks r budget).r.s.host.g_halt = false) :
    Silent (riscvEmulatorLoop mainHooks r budget).r.s := by
  rw [riscvEmulatorLoop_eq] at hstop hrunning ⊢
  rcases stepwise_halted mainHooks r.s.readonly.ptr r.s.readonly.len budget r r.s.pc with
    ⟨r', pc', -, heq⟩ | ⟨-, hhalted⟩
  · rw [heq] at hstop
    exact absurd hstop (Nat.lt_irrefl _)
  generalize stepwise mainHooks r.s.readonly.ptr r.s.readonly.len budget r r.s.pc 0 = ran
    at hhalted hrunning
  cases hhalted with
  | @fetch r' pc' k run check =>
    have hread : r'.s.readonly = r.s.readonly := iter_relates mainHooks_window run
    rw [← hread] at check
    exact .inl check
  | @trap r' pc' k t run check raise refused =>
    have hread : r'.s.readonly = r.s.readonly := iter_relates mainHooks_window run
    rw [← hread] at check raise refused hrunning ⊢
    have hout := congrArg Prod.snd raise
    rw [show (r'.raise mainHooks pc' (fetch (r'.s.mem r'.s.readonly.ptr) pc').inst t).2 = .out from
      if_pos ((refused_iff _ _ _).mp refused)] at hout
    have hlast := congrArg (fun o => o.1.s) raise
    change _ = ((r'.fault pc' _).trap mainHooks t).1.s at hlast
    by_cases hbreak : Action.isEbreak ((fetch (r'.s.mem r'.s.readonly.ptr) pc').decode r'.s.x)
    · have hst := (execute_ebreak r' pc' (fetch (r'.s.mem r'.s.readonly.ptr) pc').width
        (fetch (r'.s.mem r'.s.readonly.ptr) pc').inst hbreak).2
      have hsame := hlast.symm.trans hst
      refine .inr ?_
      simp only [Run.setPc, hsame]
      exact hbreak
    · -- any other handler that stops the engine halts
      have hhalt := execute_halts r' pc' _ _ hbreak hout
      change (oneInsn mainHooks r' pc' _).1.s.host.g_halt = true at hhalt
      rw [hlast] at hhalt
      exact absurd (hrunning.symm.trans hhalt) (by decide)

/-- What the reason says of the run: the cap is reached and nothing has halted; a handler has; the
`tohost` word is not 0, and gives the exit status; the pc is the sentinel; or the pc is outside the
code or, of which `main` says the same, at an `ebreak`. -/
structure Tells (o : Options) (r : Run MainHost) (i : Nat) (w : MainEnd) : Prop where
  count : i ≤ o.max_insns
  cap : w = .cap → i = o.max_insns ∧ r.s.host.g_halt = false
  halt : w = .halt → r.s.host.g_halt = true
  tohost : w = .tohost → readTohost o r.s ≠ 0#32 ∧ r.s.host.g_halt = true ∧
    r.s.host.g_exit = if readTohost o r.s = 1#32 then 0#32 else 1#32
  returned : w = .returned → o.invoke = true ∧ r.s.pc = MAGIC_RET ∧ Silent r.s ∧
    i < o.max_insns ∧ r.s.host.g_halt = false
  outside : w = .outside → ¬ (o.invoke = true ∧ r.s.pc = MAGIC_RET) ∧ Silent r.s ∧
    i < o.max_insns ∧ r.s.host.g_halt = true ∧ r.s.host.g_exit = 1#32

theorem mainLoop_tells (o : Options) (rounds : Nat) (r : Run MainHost) {i : Nat}
    (hi : i ≤ o.max_insns) (hrounds : o.max_insns - i < rounds) :
    ∃ r' i' w, mainLoop o rounds r i = some (r', i', w) ∧ Tells o r' i' w := by
  induction rounds generalizing r i with
  | zero => exact absurd hrounds (Nat.not_lt_zero _)
  | succ rounds ih =>
    unfold mainLoop
    by_cases hgo : i < o.max_insns ∧ r.s.host.g_halt = false
    · rw [if_pos hgo]
      have hbudget : 0 < min (o.max_insns - i) SLICE := by
        have hslice : SLICE = 65536 := rfl
        omega
      have hcap : min (o.max_insns - i) SLICE ≤ o.max_insns - i := Nat.min_le_left _ _
      have hcount : (riscvEmulatorLoop mainHooks r (min (o.max_insns - i) SLICE)).k ≤
          min (o.max_insns - i) SLICE := loopFrom_le _ _ _ _ _ _ (Nat.zero_le _)
      have hsilent := @slice_silent r (min (o.max_insns - i) SLICE)
      simp only
      generalize riscvEmulatorLoop mainHooks r (min (o.max_insns - i) SLICE) = ran
        at hcount hsilent
      generalize min (o.max_insns - i) SLICE = budget at hbudget hcap hcount hsilent
      have hi' : i + ran.k ≤ o.max_insns := by omega
      by_cases hhalt : ran.r.s.host.g_halt = true
      · rw [if_pos hhalt]
        exact ⟨_, _, _, rfl, hi', (by rintro ⟨⟩), fun _ => hhalt, (by rintro ⟨⟩), (by rintro ⟨⟩),
          (by rintro ⟨⟩)⟩
      · have hrunning : ran.r.s.host.g_halt = false := Bool.eq_false_of_not_eq_true hhalt
        rw [if_neg hhalt]
        by_cases htohost : readTohost o ran.r.s ≠ 0#32
        · rw [if_pos htohost]
          exact ⟨_, _, _, rfl, hi', (by rintro ⟨⟩), (by rintro ⟨⟩), fun _ => ⟨htohost, rfl, rfl⟩,
            (by rintro ⟨⟩), (by rintro ⟨⟩)⟩
        · rw [if_neg htohost]
          by_cases hstop : ran.k < budget
          · rw [if_pos hstop]
            have hat := hsilent hstop hrunning
            by_cases hret : o.invoke = true ∧ ran.r.s.pc = MAGIC_RET
            · rw [if_pos hret]
              exact ⟨_, _, _, rfl, hi', (by rintro ⟨⟩), (by rintro ⟨⟩), (by rintro ⟨⟩),
                fun _ => ⟨hret.1, hret.2, hat, by omega, hrunning⟩, (by rintro ⟨⟩)⟩
            · rw [if_neg hret]
              exact ⟨_, _, _, rfl, hi', (by rintro ⟨⟩), (by rintro ⟨⟩), (by rintro ⟨⟩),
                (by rintro ⟨⟩), fun _ => ⟨hret, hat, by omega, rfl, rfl⟩⟩
          · rw [if_neg hstop]
            exact ih ran.r hi' (by omega)
    · rw [if_neg hgo]
      by_cases hhalt : r.s.host.g_halt = true
      · rw [if_pos hhalt]
        exact ⟨_, _, _, rfl, hi, (by rintro ⟨⟩), fun _ => hhalt, (by rintro ⟨⟩), (by rintro ⟨⟩),
          (by rintro ⟨⟩)⟩
      · have hrunning : r.s.host.g_halt = false := Bool.eq_false_of_not_eq_true hhalt
        rw [if_neg hhalt]
        refine ⟨_, _, _, rfl, hi, fun _ => ⟨?_, hrunning⟩, (by rintro ⟨⟩), (by rintro ⟨⟩),
          (by rintro ⟨⟩), (by rintro ⟨⟩)⟩
        by_contra hne
        exact hgo ⟨by omega, hrunning⟩

/-- **`main` ends**: within as many slices as it may count instructions, however often the guest
traps, it leaves its run loop, has counted no more than the cap, and the reason is as it says. -/
theorem mainLoop_ends (o : Options) (r : Run MainHost) :
    ∃ r' i w, mainLoop o (o.max_insns + 1) r 0 = some (r', i, w) ∧ Tells o r' i w :=
  mainLoop_tells o _ r (Nat.zero_le _) (by omega)

/-! ## The host -/

/-- What the guest can do to the host: raise the break, in the heap; write; halt; and fault, which
halts. -/
structure Grows (x y : MainHost) : Prop where
  brk_le : x.g_brk ≤ y.g_brk
  inside : y.g_brk = x.g_brk ∨ y.g_brk < RISCV_HALF + x.g_heap_size
  out : x.out <+: y.out
  halt : x.g_halt = true → y.g_halt = true
  faulted : x.g_faulted = true → y.g_faulted = true
  fault_halts : y.g_faulted = true → x.g_faulted = true ∨ y.g_halt = true
  user_mode : y.g_user_mode = x.g_user_mode
  heap_size : y.g_heap_size = x.g_heap_size

theorem Grows.refl (x : MainHost) : Grows x x where
  brk_le := BitVec.le_refl _
  inside := .inl rfl
  out := List.prefix_refl _
  halt h := h
  faulted h := h
  fault_halts := .inl
  user_mode := rfl
  heap_size := rfl

theorem Grows.trans {x y z : MainHost} (h : Grows x y) (h' : Grows y z) : Grows x z where
  brk_le := BitVec.le_trans h.brk_le h'.brk_le
  inside := by
    rcases h'.inside with heq | hlt
    · rw [heq]
      exact h.inside
    · rw [h.heap_size] at hlt
      exact .inr hlt
  out := h.out.trans h'.out
  halt hx := h'.halt (h.halt hx)
  faulted hx := h'.faulted (h.faulted hx)
  fault_halts hz := by
    rcases h'.fault_halts hz with hy | hhalt
    · exact (h.fault_halts hy).imp_right h'.halt
    · exact .inr hhalt
  user_mode := h'.user_mode.trans h.user_mode
  heap_size := h'.heap_size.trans h.heap_size

theorem Grows.halted (x : MainHost) (exit : Word) :
    Grows x { x with g_halt := true, g_exit := exit } :=
  { Grows.refl x with
    halt := fun _ => rfl
    fault_halts := .inl }

/-- A syscall. -/
theorem syscall_grows (s : State MainHost) : Grows s.host (syscall s).1 := by
  unfold syscall
  simp only
  split
  · exact { Grows.refl s.host with out := List.prefix_append _ _ }
  · exact Grows.halted s.host _
  · exact Grows.halted s.host _
  · by_cases hbrk : s.x 10#5 ≥ s.host.g_brk ∧ s.x 10#5 < RISCV_HALF + s.host.g_heap_size
    · rw [if_pos hbrk]
      exact { Grows.refl s.host with
        brk_le := hbrk.1
        inside := .inr hbrk.2 }
    · rw [if_neg hbrk]
      exact { Grows.refl s.host with }
  · exact Grows.refl _

theorem mainHooks_relates : Relates mainHooks fun s s' => Grows s.host s'.host where
  quiet hhost _ := by
    rw [hhost]
    exact Grows.refl _
  trans := Grows.trans
  trap t f hf s := by
    cases t with
    | ecall =>
      cases hf
      unfold onEcall
      split
      · exact Grows.refl _
      · exact syscall_grows s
    | ebreak =>
      cases hf
      exact Grows.refl _
    | illegal =>
      cases hf
      exact Grows.halted s.host 1#32
  callback f hf s op a v := by
    cases hf
    unfold onOob
    split
    · exact Grows.refl _
    · exact { Grows.refl s.host with
        halt := fun _ => rfl
        faulted := fun _ => rfl
        fault_halts := fun _ => .inr rfl }

theorem haltWith_grows (r : Run MainHost) (exit : Word) :
    Grows r.s.host (haltWith r exit).s.host := Grows.halted r.s.host exit

theorem mainLoop_grows (o : Options) {rounds : Nat} {r r' : Run MainHost} {i i' : Nat}
    {w : MainEnd} (hrun : mainLoop o rounds r i = some (r', i', w)) :
    Grows r.s.host r'.s.host := by
  induction rounds generalizing r i with
  | zero => cases hrun
  | succ rounds ih =>
    unfold mainLoop at hrun
    split at hrun
    · have hone := riscvEmulatorLoop_relates mainHooks_relates r (min (o.max_insns - i) SLICE)
      simp only at hrun
      split at hrun
      · cases hrun
        exact hone
      · split at hrun
        · cases hrun
          exact hone.trans (haltWith_grows _ _)
        · split at hrun
          · split at hrun
            · cases hrun
              exact hone
            · cases hrun
              exact hone.trans (haltWith_grows _ _)
          · exact hone.trans (ih hrun)
    · cases hrun
      exact Grows.refl _

/-- **All that a program can do to the reference host**, in a run of `main` of any length and in a
dialogue with a debugger: it raises the break but never past the heap, adds to the output, halts,
and faults, after which it has halted; and nothing of that is undone, by reverse steps neither. -/
theorem main_grows (r : Run MainHost) :
    (∀ (o : Options) (rounds i : Nat) (r' : Run MainHost) (i' : Nat) (w : MainEnd),
      mainLoop o rounds r i = some (r', i', w) → Grows r.s.host r'.s.host) ∧
    ∀ (halted : MainHost → Bool) (exitcode : MainHost → Word) (g : Stub)
      (l : List (Body × Answer)) (v : Server MainHost),
      Dialogue ⟨mainHooks, halted, exitcode⟩ (Server.start g r) l v →
        Grows r.s.host v.r.s.host :=
  ⟨fun o _ _ _ _ _ hrun => mainLoop_grows o hrun,
    fun _ _ _ _ _ hd => dialogue_relates mainHooks_relates
      (fun hhost => hhost ▸ Grows.refl _) rfl hd⟩

/-! ## One step at a time -/

section
variable {H : Type} {h : Hooks H}

/-- A step leaves the code window where it is. -/
def KeepsWindow (h : Hooks H) : Prop := ∀ r : Run H, (stepOne h r).s.readonly = r.s.readonly

/-- Two runs that differ in nothing but the pc that host calls were shown. -/
structure SameRun (r q : Run H) : Prop where
  run : r.noPc = q.noPc
  pc : r.s.pc = q.s.pc

theorem SameRun.setPc {r q : Run H} (hrq : r.noPc = q.noPc) (pc : Word) :
    SameRun (r.setPc pc) (q.setPc pc) := ⟨hrq, rfl⟩

/-- The checked loop is as many steps as it counts. The induction is on its budget. -/
theorem stepwise_steps (hfree : h.PcFree) (hwin : KeepsWindow h) (code : Buf) (code_len : Word)
    (n : Nat) {r q : Run H} (pc : Word) (hrq : SameRun (r.setPc pc) q)
    (hcode : q.s.readonly.ptr = code ∧ q.s.readonly.len = code_len) :
    SameRun (stepwise h code code_len n r pc 0).r
      ((stepOne h)^[(stepwise h code code_len n r pc 0).k] q) := by
  obtain ⟨rfl, rfl⟩ := hcode
  induction n generalizing r q pc with
  | zero => exact hrq
  | succ n ih =>
    obtain ⟨hrun, hpc⟩ := hrq
    change pc = q.s.pc at hpc
    subst hpc
    have hmem : r.s.mem q.s.readonly.ptr = q.s.mem q.s.readonly.ptr := by
      rw [noPc_mem (show r.noPc = q.noPc from hrun)]
    by_cases hf : Fetchable (q.s.mem q.s.readonly.ptr) (q.s.readonly.ptr == 0) q.s.readonly.len
        q.s.pc
    · have hsame := oneInsn_noPc hfree (show r.noPc = q.noPc from hrun) q.s.pc
        (fetch (q.s.mem q.s.readonly.ptr) q.s.pc)
      have hstep : stepOne h q = (landed q.s.pc (fetch (q.s.mem q.s.readonly.ptr) q.s.pc).width
          (oneInsn h q q.s.pc (fetch (q.s.mem q.s.readonly.ptr) q.s.pc))).r :=
        congrArg Result.r (riscvEmulatorLoop_one h q hf)
      have hkeep := hwin q
      rw [stepwise, hmem, if_pos hf]
      simp only
      generalize oneInsn h r q.s.pc (fetch (q.s.mem q.s.readonly.ptr) q.s.pc) = one at hsame ⊢
      generalize oneInsn h q q.s.pc (fetch (q.s.mem q.s.readonly.ptr) q.s.pc) = one' at hsame hstep
      obtain ⟨r₁, nx⟩ := one
      obtain ⟨q₁, nx'⟩ := one'
      obtain ⟨hnoPc, rfl⟩ := hsame
      -- the rest of the loop, where the instruction completed
      have hgo : ∀ pc', stepOne h q = q₁.setPc pc' →
          SameRun (stepwise h q.s.readonly.ptr q.s.readonly.len n r₁ pc' 1).r
            ((stepOne h)^[(stepwise h q.s.readonly.ptr q.s.readonly.len n r₁ pc' 1).k] q) := by
        intro pc' hq
        rw [stepwise_count]
        have hih := ih (r := r₁) (q := stepOne h q) pc' (by rw [hq]; exact .setPc hnoPc pc')
        rw [hkeep] at hih
        simp only
        rw [Nat.add_comm, Function.iterate_add_apply]
        exact hih
      cases nx with
      | done => exact hgo _ hstep
      | jump t => exact hgo _ hstep
      | out =>
        show SameRun (r₁.setPc q.s.pc) (stepOne h q)
        rw [hstep]
        exact .setPc hnoPc _
    · rw [stepwise, hmem, if_neg hf]
      exact ⟨hrun, rfl⟩

/-- **A call of the engine is as many steps of the debugger as it counts.** -/
theorem riscvEmulatorLoop_steps (hfree : h.PcFree) (hwin : KeepsWindow h) {r q : Run H}
    (hrq : SameRun r q) (max : Nat) :
    SameRun (riscvEmulatorLoop h r max).r
      ((stepOne h)^[(riscvEmulatorLoop h r max).k] q) := by
  have hread : q.s.readonly = r.s.readonly := (congrArg (fun x => x.s.readonly) hrq.run).symm
  rw [riscvEmulatorLoop_eq]
  exact stepwise_steps hfree hwin _ _ max _ hrq ⟨by rw [hread], by rw [hread]⟩

end

theorem syscall_noPc {s s' : State MainHost} (hs : s.noPc = s'.noPc) : syscall s = syscall s' := by
  show syscall s.noPc = syscall s'.noPc
  rw [hs]

theorem mainHooks_pcFree : mainHooks.PcFree where
  trap t f hf s s' hs := by
    have hhost : s.host = s'.host := congrArg (fun x => x.host) hs
    cases t with
    | ecall =>
      cases hf
      unfold onEcall
      rw [syscall_noPc hs, hhost]
      split
      · exact ⟨hs, rfl⟩
      · have hset := congrArg (fun x : State MainHost =>
          ({ x with host := (syscall s').1 } : State MainHost).setX 10#5 (syscall s').2) hs
        exact ⟨hset, rfl⟩
    | ebreak =>
      cases hf
      exact ⟨hs, rfl⟩
    | illegal =>
      cases hf
      have hset := congrArg (fun x : State MainHost =>
        { x with host := { x.host with g_halt := true, g_exit := 1#32 } }) hs
      exact ⟨hset, rfl⟩
  callback f hf s s' op a v hs := by
    have hhost : s.host = s'.host := congrArg (fun x => x.host) hs
    cases hf
    unfold onOob
    rw [hhost]
    split
    · exact ⟨hs, rfl⟩
    · have hset := congrArg (fun x : State MainHost =>
        { x with host := { s'.host with g_faulted := true, g_halt := true, g_exit := 1#32 } }) hs
      exact ⟨hset, rfl⟩

theorem mainHooks_keepsWindow : KeepsWindow mainHooks := fun r =>
  riscvEmulatorLoop_relates mainHooks_window r 1

/-- What `main` leaves of a run that it found stopped. -/
def Left (q r : Run MainHost) (w : MainEnd) : Prop :=
  r = q ∨ (w = .tohost ∨ w = .outside) ∧ ∃ exit, r = haltWith q exit

theorem mainLoop_steps (o : Options) {rounds : Nat} {r r' q : Run MainHost} {i i' : Nat}
    {w : MainEnd} (hrun : mainLoop o rounds r i = some (r', i', w)) (hrq : SameRun r q) :
    ∃ n q', i' = i + n ∧ SameRun q' ((stepOne mainHooks)^[n] q) ∧ Left q' r' w := by
  induction rounds generalizing r q i with
  | zero => cases hrun
  | succ rounds ih =>
    unfold mainLoop at hrun
    split at hrun
    · have hslice := riscvEmulatorLoop_steps mainHooks_pcFree mainHooks_keepsWindow hrq
        (min (o.max_insns - i) SLICE)
      simp only at hrun
      split at hrun
      · cases hrun
        exact ⟨_, _, rfl, hslice, .inl rfl⟩
      · split at hrun
        · cases hrun
          exact ⟨_, _, rfl, hslice, .inr ⟨.inl rfl, _, rfl⟩⟩
        · split at hrun
          · split at hrun
            · cases hrun
              exact ⟨_, _, rfl, hslice, .inl rfl⟩
            · cases hrun
              exact ⟨_, _, rfl, hslice, .inr ⟨.inr rfl, _, rfl⟩⟩
          · -- the next slice goes on where this one ended
            obtain ⟨n, q', rfl, hrest, hleft⟩ := ih hrun hslice
            rw [← Function.iterate_add_apply] at hrest
            refine ⟨_, q', Nat.add_assoc _ _ _, ?_, hleft⟩
            rw [Nat.add_comm]
            exact hrest
    · cases hrun
      exact ⟨0, _, rfl, hrq, .inl rfl⟩

/-- **The slices and the windows are invisible**: `main`, which runs the engine in slices, ends
where the debugger comes to when it steps the same program one instruction at a time, as often as
`main` counted; from there `main` halts, if it does. -/
theorem main_steps (o : Options) (g : Stub) (r : Run MainHost) :
    ∃ r' i w q, mainLoop o (o.max_insns + 1) r 0 = some (r', i, w) ∧ i ≤ o.max_insns ∧
      SameRun q (steps mainHooks i g r).2 ∧ Left q r' w := by
  obtain ⟨r', i, w, hrun, htells⟩ :=
    mainLoop_tells o (o.max_insns + 1) r (Nat.zero_le _) (by omega)
  obtain ⟨n, q, hn, hsame, hleft⟩ := mainLoop_steps o hrun ⟨rfl, rfl⟩
  rw [Nat.zero_add] at hn
  subst hn
  refine ⟨r', i, w, q, hrun, htells.count, ?_, hleft⟩
  rw [steps_run]
  exact hsame

end Purv.Gdb

import Purv.Step

/-!
# Budgets and the bounds of the fetch

* `guardedLoop` — the loop with every read of a code byte tested against `code_len`, lost
  (`none`) at the first read past it;
* `riscvEmulatorLoop_checked` — the loop is the checked one, loses nothing when guarded, keeps to
  its budget, and returns early only for one of the reasons `Halted` lists;
* `batches` — one call after another, each from the state the one before left;
* `batches_sum` — for steady hosts, batches compose: the budgets add up.
-/

namespace Purv

open Bits Steps

variable {H : Type}

/-! ## Guarded fetch -/

/-- `code[i]`, if the window has it. -/
def codeAt (code : Nat → Byte) (code_len i : Word) : Option Byte :=
  if i < code_len then some (code i.toNat) else none

/-- `fetchHalf` over guarded reads. -/
def guardedHalf (code : Nat → Byte) (code_len off : Word) : Option Half := do
  let b ← codeAt code code_len off
  let b' ← codeAt code code_len (off + 1#32)
  some (b.setWidth 16 ||| b'.setWidth 16 <<< 8)

/-- `fetch` over guarded reads. -/
def guardedFetch (code : Nat → Byte) (code_len off : Word) : Option Insn := do
  let lo ← guardedHalf code code_len off
  if lo.extractLsb' 0 2 = 3#2 then
    let hi ← guardedHalf code code_len (off + 2#32)
    some (.word (lo.setWidth 32 ||| hi.setWidth 32 <<< 16))
  else some (.half lo)

/-- `safeCount` over guarded reads: it looks at the halfword of a short tail. -/
def guardedCount (code : Nat → Byte) (null : Bool) (code_len pc : Word) : Option (Option Nat) :=
  if null ∨ code_len ≤ pc ∨ code_len - pc < 2#32 then some none
  else if code_len - pc < 4#32 then do
    let lo ← guardedHalf code code_len pc
    some (if lo.extractLsb' 0 2 = 3#2 then none else some 1)
  else some (some ((code_len - pc) / 4#32).toNat)

/-- `window` over guarded reads. -/
def guardedWindow (h : Hooks H) (code : Buf) (code_len : Word) (max : Nat) : Nat → Run H → Word →
    Nat → Option (Run H × Word × Nat × Bool)
  | 0, r, pc, k => some (r, pc, k, false)
  | safe + 1, r, pc, k =>
    if k < max then
      match guardedFetch (r.s.mem code) code_len pc with
      | none => none
      | some i =>
        match oneInsn h r pc i with
        | (r, .done) => guardedWindow h code code_len max safe r (pc + i.width) (k + 1)
        | (r, .jump t) => some (r, t, k + 1, false)
        | (r, .out) => some (r, pc, k + 1, true)
    else some (r, pc, k, false)

/-- `loopFrom` over guarded reads. -/
def guardedFrom (h : Hooks H) (code : Buf) (code_len : Word) (max : Nat) : Nat → Run H → Word →
    Nat → Option (Result H)
  | 0, r, pc, k => some ⟨r.setPc pc, k, .budget⟩
  | rounds + 1, r, pc, k =>
    if k < max then
      match guardedCount (r.s.mem code) (code == 0) code_len pc with
      | none => none
      | some none => some ⟨r.setPc pc, k, .fetch⟩
      | some (some safe) =>
        match guardedWindow h code code_len max safe r pc k with
        | none => none
        | some (r, pc, k, true) => some ⟨r.setPc pc, k, .trap⟩
        | some (r, pc, k, false) => guardedFrom h code code_len max rounds r pc k
    else some ⟨r.setPc pc, k, .budget⟩

/-- `RiscvEmulatorLoop`, lost at the first code byte it would read at or past `code_len`. -/
def guardedLoop (h : Hooks H) (r : Run H) (max : Nat) : Option (Result H) :=
  guardedFrom h r.s.readonly.ptr r.s.readonly.len max max r r.s.pc 0

theorem codeAt_lt {code : Nat → Byte} {code_len i : Word} (hi : i.toNat < code_len.toNat) :
    codeAt code code_len i = some (code i.toNat) := by
  rw [codeAt, if_pos (by rwa [BitVec.lt_def])]

theorem guardedHalf_eq {code : Nat → Byte} {code_len off : Word}
    (hfit : off.toNat + 2 ≤ code_len.toNat) :
    guardedHalf code code_len off = some (fetchHalf code off) := by
  have hlt := code_len.isLt
  have h1 : (off + 1#32).toNat = off.toNat + 1 := BitVec.toNat_add_of_lt (by simp; omega)
  rw [guardedHalf, codeAt_lt (by omega), codeAt_lt (by omega)]
  rfl

/-- A fetchable instruction is fetched with no read past the window. -/
theorem guardedFetch_eq {code : Nat → Byte} {null : Bool} {code_len off : Word}
    (hf : Fetchable code null code_len off) :
    guardedFetch code code_len off = some (fetch code off) := by
  obtain ⟨_, h2, h4⟩ := hf
  have hlt := code_len.isLt
  unfold guardedFetch fetch
  rw [guardedHalf_eq h2]
  simp only [Option.bind_eq_bind, Option.bind_some]
  by_cases hlo : (fetchHalf code off).extractLsb' 0 2 = 3#2
  · have h4 := h4 hlo
    have ho : (off + 2#32).toNat = off.toNat + 2 := BitVec.toNat_add_of_lt (by simp; omega)
    rw [if_pos hlo, if_pos hlo, guardedHalf_eq (by omega)]
    rfl
  · rw [if_neg hlo, if_neg hlo]

theorem guardedCount_eq (code : Nat → Byte) (null : Bool) (code_len pc : Word) :
    guardedCount code null code_len pc = some (safeCount code null code_len pc) := by
  unfold guardedCount safeCount
  split
  · rfl
  rename_i hn
  simp only [not_or, Bool.not_eq_true, BitVec.not_le, BitVec.not_lt] at hn
  obtain ⟨_, hlt, h2⟩ := hn
  have hsub : (code_len - pc).toNat = code_len.toNat - pc.toNat :=
    BitVec.toNat_sub_of_le (BitVec.le_of_lt hlt)
  rw [BitVec.lt_def] at hlt
  rw [BitVec.le_def, hsub, show (2#32).toNat = 2 from rfl] at h2
  split
  · rw [guardedHalf_eq (by omega)]
    rfl
  · rfl

/-- Inside a window whose instructions all fit, no read is lost. -/
theorem guardedWindow_eq (h : Hooks H) {code : Buf} (hcode : (code == 0) = false) (code_len : Word)
    (max : Nat) :
    ∀ (safe : Nat) (r : Run H) (pc : Word) (k : Nat),
      (∀ j < safe, pc.toNat + 4 * j + 4 ≤ code_len.toNat) →
      guardedWindow h code code_len max safe r pc k = some (window h code max safe r pc k)
  | 0, _, _, _, _ => rfl
  | safe + 1, r, pc, k, hfit => by
    unfold guardedWindow window
    split
    · have h0 := hfit 0 (by omega)
      have hf : Fetchable (r.s.mem code) false code_len pc := ⟨rfl, by omega, fun _ => by omega⟩
      rw [guardedFetch_eq hf]
      simp only
      cases oneInsn h r pc (fetch (r.s.mem code) pc) with
      | mk r' nx =>
        cases nx with
        | done =>
          refine guardedWindow_eq h hcode code_len max safe r' _ (k + 1) (fun j hj => ?_)
          have h1 := hfit (j + 1) (by omega)
          have hlt := code_len.isLt
          have hw : (pc + (fetch (r.s.mem code) pc).width).toNat ≤ pc.toNat + 4 :=
            toNat_add_width _ (by omega)
          omega
        | jump t => rfl
        | out => rfl
    · rfl

/-- The one instruction of a short tail is compressed, so it fits. -/
theorem guardedWindow_tail (h : Hooks H) {code : Buf} {code_len pc : Word} {max k : Nat}
    {r : Run H} (hfit : pc.toNat + 2 ≤ code_len.toNat)
    (hlo : (fetchHalf (r.s.mem code) pc).extractLsb' 0 2 ≠ 3#2) :
    guardedWindow h code code_len max 1 r pc k = some (window h code max 1 r pc k) := by
  unfold guardedWindow window
  split
  · have hf : Fetchable (r.s.mem code) false code_len pc := ⟨rfl, hfit, fun h3 => absurd h3 hlo⟩
    rw [guardedFetch_eq hf]
    simp only
    cases oneInsn h r pc (fetch (r.s.mem code) pc) with
    | mk r' nx => cases nx <;> rfl
  · rfl

/-- No round of the outer loop loses a read. -/
theorem guardedFrom_eq (h : Hooks H) (code : Buf) (code_len : Word) (max : Nat) :
    ∀ (rounds : Nat) (r : Run H) (pc : Word) (k : Nat),
      guardedFrom h code code_len max rounds r pc k =
        some (loopFrom h code code_len max rounds r pc k)
  | 0, _, _, _ => rfl
  | rounds + 1, r, pc, k => by
    unfold guardedFrom loopFrom
    rw [guardedCount_eq]
    split
    · cases hs : safeCount (r.s.mem code) (code == 0) code_len pc with
      | none => rfl
      | some safe =>
        obtain ⟨hnull, _, hfit⟩ := safeCount_some hs
        have hw : guardedWindow h code code_len max safe r pc k =
            some (window h code max safe r pc k) := by
          rcases hfit with hfit | ⟨rfl, h2, hlo⟩
          · exact guardedWindow_eq h hnull code_len max safe r pc k hfit
          · exact guardedWindow_tail h h2 hlo
        simp only
        rw [hw]
        rcases window h code max safe r pc k with ⟨r', pc', k', out⟩
        cases out with
        | true => rfl
        | false => exact guardedFrom_eq h code code_len max rounds r' pc' k'
    · rfl

/-! ## Early returns -/

/-- What stops the loop when it raises `t`: a handler that answers nonzero, or the missing handler
of an `EBREAK` or an illegal instruction. -/
def Refused (h : Hooks H) (r : Run H) (t : Trap) : Prop :=
  match h.handler t with
  | (some f, _) => (f r.s).2 = true
  | (none, _) => t ≠ .ecall

/-- The reasons to return before the budget is spent: from `(r, pc)`, after `k` instructions that
fell through or jumped, the next does not fit; or it is the `k`-th, and raised a trap whose handler
stopped the loop. -/
inductive Halted (h : Hooks H) (code : Buf) (code_len : Word) (r : Run H) (pc : Word) :
    Result H → Prop
  | fetch {r' : Run H} {pc' : Word} {k : Nat}
      (run : iter (next h code code_len) k (r, pc) = some (r', pc'))
      (check : ¬ Fetchable (r'.s.mem code) (code == 0) code_len pc') :
      Halted h code code_len r pc ⟨r'.setPc pc', k, .fetch⟩
  | trap {r' : Run H} {pc' : Word} {k : Nat} {t : Trap}
      (run : iter (next h code code_len) k (r, pc) = some (r', pc'))
      (check : Fetchable (r'.s.mem code) (code == 0) code_len pc')
      (raise : oneInsn h r' pc' (fetch (r'.s.mem code) pc') =
        r'.raise h pc' (fetch (r'.s.mem code) pc').inst t)
      (refused : Refused h (r'.fault pc' (fetch (r'.s.mem code) pc').inst) t) :
      Halted h code code_len r pc
        ⟨((r'.fault pc' (fetch (r'.s.mem code) pc').inst).trap h t).1.setPc pc', k + 1, .trap⟩

/-- A trap is refused when its handler, or the default for a missing one, stops the loop. -/
theorem refused_iff (h : Hooks H) (r : Run H) (t : Trap) :
    Refused h r t ↔ (r.trap h t).2 = true := by
  unfold Refused Run.trap
  cases t with
  | ecall =>
    simp only [Hooks.handler]
    cases h.ecall <;> simp
  | ebreak =>
    simp only [Hooks.handler]
    cases h.ebreak <;> simp
  | illegal =>
    simp only [Hooks.handler]
    cases h.illegal <;> simp

/-- Only a raised trap leaves by `out`. -/
theorem raise_out {h : Hooks H} {r r' : Run H} {pc inst : Word} {t : Trap}
    (ho : r.raise h pc inst t = (r', .out)) :
    r' = ((r.fault pc inst).trap h t).1 ∧ Refused h (r.fault pc inst) t := by
  unfold Run.raise at ho
  cases hs : ((r.fault pc inst).trap h t).2 with
  | false => simp [hs] at ho
  | true =>
    simp only [hs, if_true] at ho
    cases ho
    exact ⟨rfl, (refused_iff h _ t).2 hs⟩

theorem execute_out {h : Hooks H} {r r' : Run H} {pc width inst : Word} {a : Action}
    (ho : execute h r pc width inst a = (r', .out)) :
    ∃ t, execute h r pc width inst a = r.raise h pc inst t := by
  cases a <;> simp only [execute] at ho ⊢
  case load rd a imm f3 =>
    split at ho
    · rename_i hc
      exact ⟨.illegal, by rw [if_pos hc]⟩
    · cases ho
  case store a b imm f3 =>
    split at ho
    · rename_i hc
      exact ⟨.illegal, by rw [if_pos hc]⟩
    · cases ho
  case branch a b imm f3 =>
    split at ho
    · exact ⟨.illegal, rfl⟩
    · cases ho
    · cases ho
  case system rd rs1 f3 imm =>
    split
    · exact ⟨.ecall, rfl⟩
    · split
      · exact ⟨.ebreak, rfl⟩
      · exact ⟨.illegal, rfl⟩
  case ebreak => exact ⟨.ebreak, rfl⟩
  case illegal => exact ⟨.illegal, rfl⟩
  all_goals cases ho

/-- One more step in front of a halted run. -/
theorem Halted.cons {h : Hooks H} {code : Buf} {code_len : Word} {r r' : Run H} {pc pc' : Word}
    {R : Result H} (hx : next h code code_len (r, pc) = some (r', pc'))
    (hh : Halted h code code_len r' pc' R) :
    Halted h code code_len r pc { R with k := 1 + R.k } := by
  cases hh with
  | @fetch _ _ k run check =>
    simp only
    rw [Nat.add_comm]
    exact .fetch (by rw [iter_succ hx]; exact run) check
  | @trap _ _ k _ run check raise refused =>
    simp only
    rw [Nat.add_comm 1]
    exact .trap (by rw [iter_succ hx]; exact run) check raise refused

/-- The count a run starts from is only added to. -/
theorem stepwise_count (h : Hooks H) (code : Buf) (code_len : Word) (n : Nat) (r : Run H)
    (pc : Word) (k : Nat) :
    stepwise h code code_len n r pc k =
      { stepwise h code code_len n r pc 0 with k := k + (stepwise h code code_len n r pc 0).k } := by
  induction n generalizing r pc k with
  | zero => rfl
  | succ n ih =>
    rw [stepwise, stepwise]
    split
    · simp only
      cases oneInsn h r pc (fetch (r.s.mem code) pc) with
      | mk r' nx =>
        cases nx with
        | done =>
          simp only
          rw [ih r' _ (k + 1), ih r' _ (0 + 1)]
          simp only [Result.mk.injEq, true_and, and_true]
          omega
        | jump t =>
          simp only
          rw [ih r' _ (k + 1), ih r' _ (0 + 1)]
          simp only [Result.mk.injEq, true_and, and_true]
          omega
        | out => rfl
    · rfl

/-- The checked loop spends its budget on steps, or halts. -/
theorem stepwise_halted (h : Hooks H) (code : Buf) (code_len : Word) (n : Nat) (r : Run H)
    (pc : Word) :
    (∃ r' pc', iter (next h code code_len) n (r, pc) = some (r', pc') ∧
      stepwise h code code_len n r pc 0 = ⟨r'.setPc pc', n, .budget⟩) ∨
    ((stepwise h code code_len n r pc 0).k ≤ n ∧
      Halted h code code_len r pc (stepwise h code code_len n r pc 0)) := by
  induction n generalizing r pc with
  | zero => exact Or.inl ⟨r, pc, rfl, rfl⟩
  | succ n ih =>
    by_cases hf : Fetchable (r.s.mem code) (code == 0) code_len pc
    · have hgo : ∀ r' pc', next h code code_len (r, pc) = some (r', pc') →
          stepwise h code code_len (n + 1) r pc 0 = stepwise h code code_len n r' pc' 1 →
          (∃ r' pc', iter (next h code code_len) (n + 1) (r, pc) = some (r', pc') ∧
            stepwise h code code_len (n + 1) r pc 0 = ⟨r'.setPc pc', n + 1, .budget⟩) ∨
          ((stepwise h code code_len (n + 1) r pc 0).k ≤ n + 1 ∧
            Halted h code code_len r pc (stepwise h code code_len (n + 1) r pc 0)) := by
        intro r' pc' hx hs
        rw [hs, stepwise_count]
        rcases ih r' pc' with ⟨r₁, pc₁, hrun, heq⟩ | ⟨hk, hh⟩
        · left
          refine ⟨r₁, pc₁, by rw [iter_succ hx]; exact hrun, ?_⟩
          rw [heq, Nat.add_comm]
        · exact Or.inr ⟨by simp only; omega, hh.cons hx⟩
      have hstep : stepwise h code code_len (n + 1) r pc 0 = _ := stepwise.eq_2 ..
      rw [if_pos hf] at hstep
      simp only at hstep
      have hnext : next h code code_len (r, pc) = _ := next.eq_1 ..
      simp only [if_pos hf] at hnext
      cases hi : oneInsn h r pc (fetch (r.s.mem code) pc) with
      | mk r' nx =>
        rw [hi] at hstep hnext
        cases nx with
        | done => exact hgo _ _ hnext hstep
        | jump t => exact hgo _ _ hnext hstep
        | out =>
          right
          obtain ⟨t, ht⟩ := execute_out hi
          change oneInsn h r pc _ = _ at ht
          obtain ⟨rfl, hrefused⟩ := raise_out (ht.symm.trans hi)
          rw [hstep]
          refine ⟨by simp, .trap (k := 0) rfl hf ht hrefused⟩
    · right
      rw [stepwise, if_neg hf]
      exact ⟨Nat.zero_le _, .fetch (k := 0) rfl hf⟩

/-- **The windowed loop is the checked loop**: the same steps and the same result, no code byte
read at or past `code_len`, at most `max` instructions, and an early return only where the check
fails or a trap is refused. -/
theorem riscvEmulatorLoop_checked (h : Hooks H) (r : Run H) (max : Nat) :
    riscvEmulatorLoop h r max = stepwise h r.s.readonly.ptr r.s.readonly.len max r r.s.pc 0 ∧
    guardedLoop h r max = some (riscvEmulatorLoop h r max) ∧
    (riscvEmulatorLoop h r max).k ≤ max ∧
    ((riscvEmulatorLoop h r max).k < max →
      Halted h r.s.readonly.ptr r.s.readonly.len r r.s.pc (riscvEmulatorLoop h r max)) := by
  refine ⟨riscvEmulatorLoop_eq h r max, guardedFrom_eq h _ _ _ _ _ _ _, ?_⟩
  rw [riscvEmulatorLoop_eq]
  rcases stepwise_halted h r.s.readonly.ptr r.s.readonly.len max r r.s.pc with
    ⟨r', pc', -, heq⟩ | ⟨hk, hh⟩
  · rw [heq]
    exact ⟨Nat.le_refl _, fun hlt => absurd hlt (Nat.lt_irrefl _)⟩
  · exact ⟨hk, fun _ => hh⟩

/-- An `EBREAK` that fits, with every handler `NULL`, and a `NULL` code pointer with a length of 4:
both return early, and no handler was called. -/
theorem riscvEmulatorLoop_null :
    let ebreak : Run Unit := ⟨State.boot [0x73, 0x00, 0x10, 0x00] 0, []⟩
    let null : Run Unit := ⟨{ State.boot [] 0 with readonly := ⟨0, 4#32, 0#32⟩ }, []⟩
    let R := riscvEmulatorLoop Hooks.null ebreak 2
    let Q := riscvEmulatorLoop Hooks.null null 2
    (R.k = 1 ∧ R.r.log.isEmpty ∧ R.r.s.pc = 0#32 ∧
      Fetchable (R.r.s.mem 1) false 4#32 R.r.s.pc) ∧
    (Q.k = 0 ∧ Q.r.log.isEmpty ∧ Q.r.s.pc = 0#32 ∧
      Fetchable (Q.r.s.mem 0) false 4#32 Q.r.s.pc) := by
  decide

/-! ## Batches -/

/-- Where the code is and how long it is. -/
def SameWindow (s s' : State H) : Prop :=
  s'.readonly.ptr = s.readonly.ptr ∧ s'.readonly.len = s.readonly.len

theorem SameWindow.trans {s t u : State H} (h : SameWindow s t) (h' : SameWindow t u) :
    SameWindow s u :=
  ⟨h'.1.trans h.1, h'.2.trans h.2⟩

/-- Hosts that keep off `state->pc`, never stop the loop, and do not move the code window. -/
structure Hooks.Steady (h : Hooks H) : Prop where
  free : h.PcFree
  go : ∀ r t, (Run.trap h r t).2 = false
  trap : ∀ r t, SameWindow r.s (Run.trap h r t).1.s
  callback : ∀ r op a v, SameWindow r.s (Run.callback h r op a v).1.s

theorem window_wr (s : State H) (i : Reg) (v : Word) : SameWindow s (s.wr i v) := by
  unfold SameWindow
  rw [wr_readonly]
  exact ⟨rfl, rfl⟩

theorem window_storeValue (s : State H) (p : Ptr) (b : Word) (f3 : BitVec 3) :
    SameWindow s (storeValue s p b f3) := by
  unfold storeValue
  split <;> exact ⟨rfl, rfl⟩

section
variable {h : Hooks H} (hs : h.Steady)
include hs

theorem window_raise (r : Run H) (pc inst : Word) (t : Trap) :
    SameWindow r.s (r.raise h pc inst t).1.s :=
  hs.trap (r.fault pc inst) t

theorem window_execLoad (r : Run H) (rd : Reg) (a : Word) (f3 : BitVec 3) :
    SameWindow r.s (execLoad h r rd a f3).s := by
  unfold execLoad
  simp only
  split
  · exact ⟨rfl, rfl⟩
  · split
    · exact window_wr _ _ _
    · exact (hs.callback r _ _ _).trans (window_wr _ _ _)

theorem window_execStore (r : Run H) (a b : Word) (f3 : BitVec 3) :
    SameWindow r.s (execStore h r a b f3).s := by
  unfold execStore
  split
  · exact window_storeValue _ _ _ _
  · exact hs.callback r _ _ _

/-- No action body moves the window of a steady host. -/
theorem execute_window (r : Run H) (pc width inst : Word) (a : Action) :
    SameWindow r.s (execute h r pc width inst a).1.s := by
  have hraise := fun t => window_raise hs r pc inst t
  cases a <;> simp only [execute]
  case load rd a imm f3 =>
    split
    · exact hraise _
    · exact window_execLoad hs r _ _ _
  case store a b imm f3 =>
    split
    · exact hraise _
    · exact window_execStore hs r _ _ _
  case branch a b imm f3 =>
    split
    · exact hraise _
    · exact ⟨rfl, rfl⟩
    · exact ⟨rfl, rfl⟩
  case system rd rs1 f3 imm =>
    split
    · exact hraise _
    · split
      · exact hraise _
      · exact hraise _
  case ebreak => exact hraise _
  case illegal => exact hraise _
  case done => exact ⟨rfl, rfl⟩
  all_goals exact window_wr _ _ _

/-- Its handlers refuse nothing. -/
theorem not_refused (r : Run H) (t : Trap) : ¬ Refused h r t := by
  rw [refused_iff, hs.go]
  exact Bool.false_ne_true

theorem next_window {code : Buf} {code_len : Word} {x y : Run H × Word}
    (hx : next h code code_len x = some y) : SameWindow x.1.s y.1.s := by
  obtain ⟨r, pc⟩ := x
  have he := execute_window hs r pc (fetch (r.s.mem code) pc).width (fetch (r.s.mem code) pc).inst
    ((fetch (r.s.mem code) pc).decode r.s.x)
  unfold next at hx
  simp only at hx
  split at hx
  · split at hx
    · rename_i r' hi
      cases hx
      unfold oneInsn at hi
      rwa [hi] at he
    · rename_i r' t hi
      cases hx
      unfold oneInsn at hi
      rwa [hi] at he
    · cases hx
  · cases hx

theorem iter_window {code : Buf} {code_len : Word} {n : Nat} {x y : Run H × Word}
    (hx : iter (next h code code_len) n x = some y) : SameWindow x.1.s y.1.s :=
  iter_invariant (fun y => SameWindow x.1.s y.1.s) (fun _ _ hy hn => hy.trans (next_window hs hn))
    ⟨rfl, rfl⟩ hx

/-- The checked loop does the same in two runs that differ by their pc. -/
theorem stepwise_noPc (code : Buf) (code_len : Word) {r q : Run H} (hrq : r.noPc = q.noPc) (n : Nat)
    (pc : Word) (k : Nat) :
    (stepwise h code code_len n r pc k).r.noPc = (stepwise h code code_len n q pc k).r.noPc ∧
      (stepwise h code code_len n r pc k).r.s.pc = (stepwise h code code_len n q pc k).r.s.pc ∧
      (stepwise h code code_len n r pc k).k = (stepwise h code code_len n q pc k).k := by
  induction n generalizing r q pc k with
  | zero => exact ⟨hrq, rfl, rfl⟩
  | succ n ih =>
    rw [stepwise, stepwise, noPc_mem hrq]
    split
    · obtain ⟨h1, h2⟩ := oneInsn_noPc hs.free hrq pc (fetch (q.s.mem code) pc)
      simp only
      revert h1 h2
      cases oneInsn h r pc (fetch (q.s.mem code) pc) with
      | mk r' nx =>
        cases oneInsn h q pc (fetch (q.s.mem code) pc) with
        | mk q' nx' =>
          rintro h1 rfl
          cases nx with
          | done => exact ih h1 _ _
          | jump t => exact ih h1 _ _
          | out => exact ⟨h1, rfl, rfl⟩
    · exact ⟨hrq, rfl, rfl⟩

end

/-- Two ends of runs that differ in nothing but the pc that host calls were shown. -/
structure SameEnd (r q : Run H) (k l : Nat) : Prop where
  run : r.noPc = q.noPc
  pc : r.s.pc = q.s.pc
  count : k = l

/-- A batch of `m` and then one of `n` are one of `m + n`. -/
theorem riscvEmulatorLoop_add {h : Hooks H} (hs : h.Steady) (r : Run H) (m n : Nat) :
    SameEnd (riscvEmulatorLoop h (riscvEmulatorLoop h r m).r n).r
      (riscvEmulatorLoop h r (m + n)).r
      ((riscvEmulatorLoop h r m).k + (riscvEmulatorLoop h (riscvEmulatorLoop h r m).r n).k)
      (riscvEmulatorLoop h r (m + n)).k := by
  simp only [riscvEmulatorLoop_eq]
  rcases stepwise_halted h r.s.readonly.ptr r.s.readonly.len m r r.s.pc with
    ⟨r', pc', hrun, heq⟩ | ⟨_, hh⟩
  · -- the budget ran out: the second call goes on where the long one is
    obtain ⟨hptr, hlen⟩ := iter_window hs hrun
    rw [heq, stepwise_iter hrun, Nat.zero_add]
    show SameEnd (stepwise h r'.s.readonly.ptr r'.s.readonly.len n (r'.setPc pc') pc' 0).r _
      (m + (stepwise h r'.s.readonly.ptr r'.s.readonly.len n (r'.setPc pc') pc' 0).k) _
    rw [hptr, hlen]
    obtain ⟨h1, h2, h3⟩ :=
      stepwise_noPc hs r.s.readonly.ptr r.s.readonly.len (setPc_noPc r' pc') n pc' 0
    rw [stepwise_count h _ _ n r' pc' m]
    exact ⟨h1, h2, by rw [h3]⟩
  · generalize hR : stepwise h r.s.readonly.ptr r.s.readonly.len m r r.s.pc 0 = R at hh
    cases hh with
    | @fetch r' pc' k run check =>
      -- nothing fetchable: neither call gets past it
      obtain ⟨hptr, hlen⟩ := iter_window hs run
      have hstop : ∀ n l, (stepwise h r.s.readonly.ptr r.s.readonly.len n r' pc' l).r.noPc =
            r'.noPc ∧
          (stepwise h r.s.readonly.ptr r.s.readonly.len n r' pc' l).r.s.pc = pc' ∧
          (stepwise h r.s.readonly.ptr r.s.readonly.len n r' pc' l).k = l := by
        intro n l
        cases n with
        | zero => exact ⟨rfl, rfl, rfl⟩
        | succ n =>
          rw [stepwise, if_neg check]
          exact ⟨rfl, rfl, rfl⟩
      have hk : k ≤ m := by
        by_contra hc
        have hlong := stepwise_halted h r.s.readonly.ptr r.s.readonly.len m r r.s.pc
        rw [hR] at hlong
        rcases hlong with ⟨_, _, _, h2⟩ | ⟨h2, _⟩
        · cases congrArg Result.stop h2
        · exact hc h2
      obtain ⟨i, rfl⟩ : ∃ i, m = k + i := ⟨m - k, by omega⟩
      rw [Nat.add_assoc, stepwise_iter run, Nat.zero_add]
      show SameEnd (stepwise h r'.s.readonly.ptr r'.s.readonly.len n (r'.setPc pc') pc' 0).r _
        (k + (stepwise h r'.s.readonly.ptr r'.s.readonly.len n (r'.setPc pc') pc' 0).k) _
      rw [hptr, hlen]
      obtain ⟨h1, h2, h3⟩ :=
        stepwise_noPc hs r.s.readonly.ptr r.s.readonly.len (setPc_noPc r' pc') n pc' 0
      obtain ⟨a1, a2, a3⟩ := hstop n 0
      obtain ⟨b1, b2, b3⟩ := hstop (i + n) k
      exact ⟨h1.trans (a1.trans b1.symm), h2.trans (a2.trans b2.symm), by rw [h3, a3, b3]; rfl⟩
    | @trap r' pc' k t run check raise refused =>
      exact absurd refused (not_refused hs _ t)

/-- One call for each budget of the list, each from the state that the one before left: the last
state, and the sum of the counts. -/
def batches (h : Hooks H) (r : Run H) : List Nat → Run H × Nat
  | [] => (r, 0)
  | m :: ms =>
    let R := riscvEmulatorLoop h r m
    let (r', k) := batches h R.r ms
    (r', R.k + k)

/-- A list of batches is one batch of their sum. -/
theorem batches_sum {h : Hooks H} (hs : h.Steady) (ms : List Nat) (r : Run H) :
    SameEnd (batches h r ms).1 (riscvEmulatorLoop h r ms.sum).r (batches h r ms).2
      (riscvEmulatorLoop h r ms.sum).k := by
  induction ms generalizing r with
  | nil =>
    rw [List.sum_nil, riscvEmulatorLoop_eq]
    exact ⟨rfl, rfl, rfl⟩
  | cons m ms ih =>
    obtain ⟨h1, h2, h3⟩ := ih (riscvEmulatorLoop h r m).r
    obtain ⟨g1, g2, g3⟩ := riscvEmulatorLoop_add hs r m ms.sum
    rw [List.sum_cons]
    refine ⟨h1.trans g1, h2.trans g2, ?_⟩
    rw [← g3, ← h3]
    rfl

/-- **Batching is compositional.**  For a steady host, a budget of `m` and then one of `n` end as
one of `m + n` does, with the same total count; and so do `k` single steps and one budget of
`k`. -/
theorem riscvEmulatorLoop_batches {h : Hooks H} (hs : h.Steady) (r : Run H) :
    (∀ m n, SameEnd (batches h r [m, n]).1 (riscvEmulatorLoop h r (m + n)).r
      (batches h r [m, n]).2 (riscvEmulatorLoop h r (m + n)).k) ∧
    ∀ k, SameEnd (batches h r (List.replicate k 1)).1 (riscvEmulatorLoop h r k).r
      (batches h r (List.replicate k 1)).2 (riscvEmulatorLoop h r k).k := by
  refine ⟨fun m n => ?_, fun k => ?_⟩
  · have hb := batches_sum hs [m, n] r
    rwa [List.sum_cons, List.sum_singleton] at hb
  · have hb := batches_sum hs (List.replicate k 1) r
    rwa [List.sum_replicate_nat, Nat.mul_one] at hb

/-- Handlers that go on, and no callback. -/
def Hooks.goOn (ecall : TrapFn H) : Hooks H :=
  ⟨some ecall, some fun s => (s, false), some fun s => (s, false), none⟩

theorem goOn_steady : (Hooks.goOn fun s => (s, false) : Hooks H).Steady where
  free := by
    refine ⟨fun t f hf s s' hss => ?_, fun f hf => by cases hf⟩
    cases t <;> cases hf <;> exact ⟨hss, rfl⟩
  go := fun r t => by cases t <;> rfl
  trap := fun r t => by cases t <;> exact ⟨rfl, rfl⟩
  callback := fun r op a v => ⟨rfl, rfl⟩

/-- `ECALL; ADDI x1, x0, 5`, a step at a time. -/
theorem riscvEmulatorLoop_batches_addi :
    let r : Run Unit := ⟨State.boot [0x73, 0x00, 0x00, 0x00, 0x93, 0x00, 0x50, 0x00] 0, []⟩
    (batches (Hooks.goOn fun s => (s, false)) r [1, 1]).1.noPc.s.x 1#5 = 5#32 := by
  intro r
  rw [((riscvEmulatorLoop_batches goOn_steady r).1 1 1).run]
  decide

/-- A handler that shortens the code window keeps off the pc and lets the loop go on; but two calls
with a budget of 1 stop where one with a budget of 2 does not. -/
theorem batches_need_window :
    let shorten : Hooks Unit :=
      Hooks.goOn fun s => ({ s with readonly := { s.readonly with len := 0#32 } }, false)
    let r : Run Unit := ⟨State.boot [0x73, 0x00, 0x00, 0x00, 0x93, 0x00, 0x50, 0x00] 0, []⟩
    shorten.PcFree ∧ (∀ r t, (Run.trap shorten r t).2 = false) ∧
      (batches shorten r [1, 1]).2 = 1 ∧ (batches shorten r [1, 1]).1.s.x 1#5 = 0#32 ∧
      (riscvEmulatorLoop shorten r 2).k = 2 ∧
      (riscvEmulatorLoop shorten r 2).r.s.x 1#5 = 5#32 := by
  refine ⟨⟨fun t f hf s s' hss => ?_, fun f hf => by cases hf⟩, fun r t => by cases t <;> rfl, ?_⟩
  · cases t with
    | ecall =>
      cases hf
      refine ⟨?_, rfl⟩
      exact congrArg (fun s => { s with readonly := { s.readonly with len := 0#32 } }) hss
    | ebreak => cases hf; exact ⟨hss, rfl⟩
    | illegal => cases hf; exact ⟨hss, rfl⟩
  · decide

end Purv

import Purv.PurvsRefine

/-!
# What `purvs` reports of a trap

A trap op ends the run that loop 1 decodes, and the run loop calls its handler afterwards.  The pc
that it reports is the one from which the run was decoded.

* `traced` — the addresses that loop 1 decodes at, in order;
* `beforeTrap_trap` — the trap of a round is the last instruction traced, and the raw word is its;
* `TrapReported`, `TrapAlone` — the trap is reported at its address; it is all that was decoded;
* `riscvEmulatorLoop_reports_traps` — over a run, the one holds exactly when the other does.
-/

namespace Purv.Purvs

open Bits Steps

variable {H : Type}

/-! ## The instructions of a round -/

/-- The pcs that loop 1 decodes at. -/
def tracedFrom (code : Nat → Byte) (code_len win : Word) : Nat → Ahead → List Word
  | 0, _ => []
  | left + 1, a =>
    if mustStop code code_len win a.pc then []
    else
      match a.lower (fetch code a.pc) with
      | (_, true) => [a.pc]
      | (a', false) => a.pc :: tracedFrom code code_len win left a'

/-- The pcs of the round from `r`. -/
def traced (code : Buf) (code_len win : Word) (lim : Nat) (block : Block) (r : Run H) :
    List Word :=
  if code = 0 then []
  else tracedFrom (r.s.mem code) code_len win lim ⟨block, 0, 0, r.s.pc, 0, 0⟩

/-- The op that `decode_one` gives an instruction. -/
def opOf (i : Insn) : Nat := (decodeOne ⟨Slot.ofImm 0, Slot.ofImm 0⟩ i 0).head.op.toNat

/-- The op depends on neither the old slots nor the pc. -/
theorem lower_op_eq (d d' : Pair) (i : Insn) (off off' : Word) :
    (lower d i off).head.op = (lower d' i off').head.op := by
  cases i with
  | word w =>
    simp only [lower, lower32]
    split
    all_goals first
      | rfl
      | (split <;> rfl)
      | (split <;> first | rfl | (split <;> rfl))
  | half c =>
    simp only [lower, lower16]
    split
    case h_9 =>
      unfold lowerMiscAlu
      simp only
      split
      case h_4 =>
        split
        · rfl
        · split <;> rfl
      all_goals rfl
    case h_14 =>
      unfold lowerJrMvAdd
      simp only
      split
      · split <;> rfl
      · split
        · rfl
        · split <;> rfl
    all_goals first
      | rfl
      | (split <;> rfl)

theorem fixup_head (d : Pair) (raw : Word) : (d.fixup raw).head = d.head := by
  unfold Pair.fixup
  split <;> rfl

theorem decoded_opOf (a : Ahead) (i : Insn) : (a.decoded i).head.op.toNat = opOf i := by
  unfold Ahead.decoded opOf decodeOne
  rw [fixup_head, fixup_head]
  exact congrArg BitVec.toNat (lower_op_eq _ _ _ _ _)

/-- The slot after a trap op holds the raw word. -/
theorem decoded_trap (a : Ahead) (i : Insn) (ht : isTrap (opOf i) = true) :
    (a.decoded i).tail.imm = i.inst := by
  rw [← decoded_opOf a i] at ht
  unfold Ahead.decoded decodeOne at ht ⊢
  rw [fixup_head] at ht
  unfold Pair.fixup
  rw [if_pos ht]
  exact imm_tail _ _

/-- What the last record says, when it is a trap. -/
structure LastTrap (code : Nat → Byte) (a : Ahead) (addr : Word) : Prop where
  op : (a.block a.last_w).op.toNat = opOf (fetch code addr)
  inst : (a.block (a.last_w + 1)).imm = (fetch code addr).inst
  room : a.last_w + 1 < a.w

/-- If the last record of a pass is a trap then it is the last instruction traced. -/
theorem tracedFrom_trap {code : Nat → Byte} {code_len win : Word} (left : Nat) (a : Ahead)
    (hlast : a.last_w < a.w → isTrap (a.block a.last_w).op.toNat = false) (hle : a.last_w ≤ a.w)
    (htrap : isTrap ((decodeAhead code code_len win left a).block
      (decodeAhead code code_len win left a).last_w).op.toNat = true)
    (hlt : (decodeAhead code code_len win left a).last_w <
      (decodeAhead code code_len win left a).w) :
    ∃ addr, (tracedFrom code code_len win left a).getLast? = some addr ∧
      LastTrap code (decodeAhead code code_len win left a) addr := by
  induction left generalizing a with
  | zero =>
    rw [decodeAhead] at htrap hlt
    rw [hlast hlt] at htrap
    cases htrap
  | succ left ih =>
    rw [decodeAhead] at htrap hlt ⊢
    rw [tracedFrom]
    split at htrap
    · rename_i hstop
      rw [if_pos hstop] at hlt
      rw [hlast hlt] at htrap
      cases htrap
    · rename_i hstop
      rw [if_neg hstop] at hlt ⊢
      rw [if_neg hstop]
      have hop := decoded_opOf a (fetch code a.pc)
      cases hl : a.lower (fetch code a.pc) with
      | mk a₁ stop =>
        rw [hl] at htrap hlt
        unfold Ahead.lower at hl
        simp only at hl
        cases stop with
        | true =>
          -- the pass breaks at this instruction
          refine ⟨a.pc, rfl, ?_⟩
          simp only at htrap hlt ⊢
          split at hl
          · split at hl <;> cases hl
          · injection hl with hl hterm
            subst hl
            simp only at htrap hlt ⊢
            rw [wrote_head, hop] at htrap
            have himm : opHasImm (a.decoded (fetch code a.pc)).head.op.toNat = true := by
              rw [hop]
              generalize opOf (fetch code a.pc) = n at htrap
              unfold isTrap RISCV_OP_ECALL RISCV_OP_ILLEGAL at htrap
              simp only [Bool.and_eq_true, decide_eq_true_eq] at htrap
              unfold opHasImm
              simp only [Bool.or_eq_true, Bool.and_eq_true, decide_eq_true_eq]
              omega
            refine ⟨?_, ?_, ?_⟩
            · simp only
              rw [wrote_head, hop]
            · simp only
              rw [wrote_tail, decoded_trap a _ htrap]
            · simp only [himm]
              simp
        | false =>
          simp only at htrap hlt ⊢
          have hnext : (a₁.last_w < a₁.w → isTrap (a₁.block a₁.last_w).op.toNat = false) ∧
              a₁.last_w ≤ a₁.w := by
            split at hl
            · split at hl
              · injection hl with hl
                subst hl
                refine ⟨fun _ => ?_, by simp⟩
                simp only
                rw [wrote_head]
                rfl
              · injection hl with hl
                subst hl
                refine ⟨fun hlt => ?_, hle⟩
                simp only at hlt ⊢
                rw [wrote_below _ _ hlt]
                exact hlast hlt
            · injection hl with hl hterm
              subst hl
              refine ⟨fun _ => ?_, by simp⟩
              simp only
              rw [wrote_head]
              unfold isTerminator at hterm
              exact (Bool.or_eq_false_iff.mp hterm).2
          obtain ⟨addr, hget, hat⟩ := ih a₁ hnext.1 hnext.2 htrap hlt
          refine ⟨addr, ?_, hat⟩
          rw [List.getLast?_cons, hget]
          rfl

section
variable {h : Hooks H} {eval : EvalFn H} {code : Buf} {code_len win : Word} {lim : Nat}
  {block : Block} {r : Run H}

/-- The last slots of a closed buffer are those of the last record. -/
theorem closed_last {a : Ahead} (hop : isTrap (a.closed a.last_w).op.toNat = true)
    (hle : a.last_w ≤ a.w) : a.last_w < a.w ∧ a.closed a.last_w = a.block a.last_w := by
  have hc := closed_closed a
  by_cases heq : a.last_w = a.w
  · rw [heq, hc.sentinel] at hop
    cases hop
  · exact ⟨by omega, hc.below _ (by omega)⟩

theorem lower_last (a : Ahead) (i : Insn) (hle : a.last_w ≤ a.w) :
    (a.lower i).1.last_w ≤ (a.lower i).1.w := by
  unfold Ahead.lower
  simp only
  split
  · split
    · simp
    · exact hle
  · simp

theorem decodeAhead_last (code : Nat → Byte) (code_len win : Word) (left : Nat) (a : Ahead)
    (hle : a.last_w ≤ a.w) :
    (decodeAhead code code_len win left a).last_w ≤ (decodeAhead code code_len win left a).w := by
  induction left generalizing a with
  | zero => exact hle
  | succ left ih =>
    unfold decodeAhead
    split
    · exact hle
    · have h := lower_last a (fetch code a.pc) hle
      cases hl : a.lower (fetch code a.pc) with
      | mk a₁ stop =>
        rw [hl] at h
        cases stop with
        | true => exact h
        | false => exact ih a₁ h

/-- **The trap of a round is the last instruction traced**, and it is reported with its raw word at
the pc of the round. -/
theorem beforeTrap_trap {p : Pending H}
    (hb : beforeTrap h eval code code_len win lim block r = .trap p) :
    ∃ addr, (traced code code_len win lim block r).getLast? = some addr ∧
      isTrap (opOf (fetch (r.s.mem code) addr)) = true ∧
      p.t = trapOf (opOf (fetch (r.s.mem code) addr)) ∧
      p.inst = (fetch (r.s.mem code) addr).inst ∧ p.last_pc = r.s.pc := by
  generalize ha : ahead code code_len win lim block r = a
  by_cases h0 : a.insns = 0
  · rw [beforeTrap_empty ha h0] at hb
    cases hb
  by_cases hn : a.n = 0
  · rw [beforeTrap_jumps ha h0 hn] at hb
    cases hb
  cases he : eval h (r.setPc a.pc) a.closed with
  | mk r' ran =>
    by_cases hran : a.n ≤ ran
    · rw [beforeTrap_ran ha h0 hn he hran] at hb
      split at hb
      · rename_i htrap
        injection hb with hb
        subst hb
        have hcode : code ≠ 0 := fun hz => by
          unfold ahead at ha
          rw [if_pos hz] at ha
          subst ha
          exact h0 rfl
        have hdec : decodeAhead (r.s.mem code) code_len win lim ⟨block, 0, 0, r.s.pc, 0, 0⟩ = a := by
          unfold ahead at ha
          rwa [if_neg hcode] at ha
        have hle := decodeAhead_last (r.s.mem code) code_len win lim
          ⟨block, 0, 0, r.s.pc, 0, 0⟩ (Nat.le_refl _)
        rw [hdec] at hle
        obtain ⟨hlt, hsame⟩ := closed_last htrap hle
        rw [hsame] at htrap
        obtain ⟨addr, hget, hat⟩ := tracedFrom_trap lim ⟨block, 0, 0, r.s.pc, 0, 0⟩
          (fun hlt => absurd hlt (Nat.lt_irrefl 0)) (Nat.le_refl _)
          (by rw [hdec]; exact htrap) (by rw [hdec]; exact hlt)
        rw [hdec] at hat
        refine ⟨addr, ?_, ?_, ?_, ?_, rfl⟩
        · unfold traced
          rw [if_neg hcode]
          exact hget
        · rw [← hat.op]
          exact htrap
        · simp only
          rw [hsame, hat.op]
        · simp only
          rw [(closed_closed a).below _ hat.room, hat.inst]
      · cases hb
    · have hstop : beforeTrap h eval code code_len win lim block r =
          .next (r'.setPc (fixupPc (r'.s.mem code) ran lim r.s.pc 0 0).1)
            (fixupPc (r'.s.mem code) ran lim r.s.pc 0 0).2 a.closed := by
        unfold Ahead.closed at *
        unfold beforeTrap
        rw [ha]
        refine (if_neg h0).trans ((if_neg hn).trans ?_)
        simp only [he]
        exact if_pos (by omega)
      rw [hstop] at hb
      cases hb

end

theorem tracedFrom_head {code : Nat → Byte} {code_len win : Word} {left : Nat} {a : Ahead}
    {pc : Word} (h : tracedFrom code code_len win left a = [pc]) : pc = a.pc := by
  cases left with
  | zero => cases h
  | succ left =>
    rw [tracedFrom] at h
    split at h
    · cases h
    · split at h
      · cases h
        rfl
      · injection h with h
        exact h.symm

/-- A pass that starts at a trap goes no further. -/
theorem tracedFrom_atTrap {code : Nat → Byte} {code_len win : Word} {left : Nat} {a : Ahead}
    (ht : isTrap (opOf (fetch code a.pc)) = true) :
    (tracedFrom code code_len win left a).length ≤ 1 := by
  cases left with
  | zero => exact Nat.zero_le 1
  | succ left =>
    rw [tracedFrom]
    split
    · exact Nat.zero_le 1
    · have hop := decoded_opOf a (fetch code a.pc)
      have hjal : (a.decoded (fetch code a.pc)).head.op.toNat ≠ RISCV_OP_JAL := fun hj => by
        rw [← hop, hj] at ht
        cases ht
      have hterm : isTerminator (a.decoded (fetch code a.pc)).head.op.toNat = true := by
        rw [hop]
        unfold isTrap at ht
        unfold isTerminator
        rw [ht, Bool.or_true]
      have hl : (a.lower (fetch code a.pc)).2 = true := by
        unfold Ahead.lower
        simp only [if_neg hjal, hterm]
      split
      · exact Nat.le_refl 1
      · rename_i hgo
        rw [hgo] at hl
        cases hl

/-! ## Rounds that report their trap -/

/-- The handler of `t` is called, or a missing one stops the loop. -/
def Heeded (h : Hooks H) (t : Trap) : Prop :=
  (h.handler t).1.isSome = true ∨ (h.handler t).2 = true

section
variable (h : Hooks H) (eval : EvalFn H) (code : Buf) (code_len win : Word) (lim : Nat)
  (block : Block) (r : Run H)

/-- The handler is called with the address of the instruction that trapped and its raw word, and
when the loop stops there it leaves that address. -/
def TrapReported : Prop :=
  ∀ p, beforeTrap h eval code code_len win lim block r = .trap p →
    ∀ addr, (traced code code_len win lim block r).getLast? = some addr →
      ((h.handler p.t).1.isSome = true →
        p.fault.s.pc = addr ∧ p.fault.s.inst = (fetch (r.s.mem code) addr).inst) ∧
      ∀ r' n, round h eval code code_len win lim block r = .stop r' n → r'.s.pc = addr

/-- The trap is all that the round decoded, and a handler that stops leaves `state->pc` alone. -/
def TrapAlone : Prop :=
  ∀ p, beforeTrap h eval code code_len win lim block r = .trap p → Heeded h p.t →
    (traced code code_len win lim block r).length = 1 ∧
    ∀ f, (h.handler p.t).1 = some f → (f p.fault.s).2 = true →
      (f p.fault.s).1.pc = p.fault.s.pc

end

theorem trap_some {h : Hooks H} {r : Run H} {t : Trap} {f : TrapFn H}
    (hf : (h.handler t).1 = some f) :
    (r.trap h t).1.s = (f r.s).1 ∧ (r.trap h t).2 = (f r.s).2 := by
  unfold Run.trap
  split
  · rename_i hn
    rw [hn] at hf
    cases hf
  · rename_i g _ hg
    rw [hg] at hf
    cases hf
    exact ⟨rfl, rfl⟩

theorem trap_none {h : Hooks H} {r : Run H} {t : Trap} (hf : (h.handler t).1 = none) :
    r.trap h t = (r, (h.handler t).2) := by
  unfold Run.trap
  split
  · rename_i hn
    rw [hn]
  · rename_i g _ hg
    rw [hg] at hf
    cases hf

section
variable {h : Hooks H} {eval : EvalFn H} {code : Buf} {code_len win : Word} {lim : Nat}
  {block : Block} {r : Run H}

/-- The trapping instruction is the first of its run exactly if it is the only one. -/
theorem traced_first {addr : Word}
    (hget : (traced code code_len win lim block r).getLast? = some addr)
    (ht : isTrap (opOf (fetch (r.s.mem code) addr)) = true) :
    r.s.pc = addr ↔ (traced code code_len win lim block r).length = 1 := by
  unfold traced at *
  split at hget
  · cases hget
  · rename_i hcode
    rw [if_neg hcode]
    constructor
    · rintro rfl
      have hle := @tracedFrom_atTrap (r.s.mem code) code_len win lim ⟨block, 0, 0, r.s.pc, 0, 0⟩ ht
      have hpos : 0 < (tracedFrom (r.s.mem code) code_len win lim
          ⟨block, 0, 0, r.s.pc, 0, 0⟩).length :=
        List.length_pos_of_mem (List.mem_of_getLast? hget)
      omega
    · intro hlen
      obtain ⟨pc, hpc⟩ := List.length_eq_one_iff.mp hlen
      have hhead := tracedFrom_head hpc
      rw [hpc] at hget
      cases hget
      exact hhead.symm

/-- **A round reports its trap exactly when the trap is all that it decoded.** -/
theorem trapReported_iff :
    TrapReported h eval code code_len win lim block r ↔
      TrapAlone h eval code code_len win lim block r := by
  constructor
  · intro hrep p hb hheed
    obtain ⟨addr, hget, htrap, -, -, hpc⟩ := beforeTrap_trap hb
    obtain ⟨hcall, hstop⟩ := hrep p hb addr hget
    have hround := round_trap hb
    rw [← traced_first hget htrap]
    cases hf : (h.handler p.t).1 with
    | none =>
      rw [trap_none hf] at hround
      have hdef : (h.handler p.t).2 = true :=
        hheed.resolve_left (by rw [hf]; exact Bool.false_ne_true)
      rw [if_pos hdef] at hround
      refine ⟨?_, fun f hf' => by cases hf'⟩
      rw [← hpc]
      exact hstop _ _ hround
    | some f =>
      obtain ⟨hs, hb'⟩ := trap_some (r := p.fault) hf
      have haddr : p.last_pc = addr := (hcall (by rw [hf]; rfl)).1
      refine ⟨by rw [← hpc]; exact haddr, ?_⟩
      intro f' hf' hst
      cases hf'
      rw [if_pos (hb'.trans hst)] at hround
      rw [← hs]
      exact (hstop _ _ hround).trans haddr.symm
  · intro hal p hb addr hget
    obtain ⟨addr', hget', htrap, -, hinst, hpc⟩ := beforeTrap_trap hb
    obtain rfl : addr = addr' := Option.some.inj (hget.symm.trans hget')
    have hround := round_trap hb
    refine ⟨fun hsome => ?_, fun r' n hstop => ?_⟩
    · obtain ⟨hlen, -⟩ := hal p hb (Or.inl hsome)
      exact ⟨hpc.trans ((traced_first hget htrap).mpr hlen), hinst⟩
    · rw [hround] at hstop
      split at hstop
      · rename_i hyes
        injection hstop with hr hn
        subst hr
        cases hf : (h.handler p.t).1 with
        | none =>
          rw [trap_none hf] at hyes ⊢
          obtain ⟨hlen, -⟩ := hal p hb (Or.inr hyes)
          exact hpc.trans ((traced_first hget htrap).mpr hlen)
        | some f =>
          obtain ⟨hs, hb'⟩ := trap_some (r := p.fault) hf
          obtain ⟨hlen, hkeep⟩ := hal p hb (Or.inl (by rw [hf]; rfl))
          rw [hs, hkeep f hf (hb'.symm.trans hyes)]
          exact hpc.trans ((traced_first hget htrap).mpr hlen)
      · cases hstop

end

/-! ## Runs -/

/-- Where a round starts: the buffer, the run, and the count so far. -/
structure Start (H : Type) where
  block : Block
  r : Run H
  k : Nat

section
variable (h : Hooks H) (eval : EvalFn H) (code : Buf) (code_len win : Word) (max : Nat)

/-- The instructions that a round may decode. -/
def Start.lim (x : Start H) : Nat := min (max - x.k) RISCV_BLOCK_MAX

/-- The start of the round after that from `x`; `none` when the loop returns. -/
def nextRound (x : Start H) : Option (Start H) :=
  if x.k < max then
    match round h eval code code_len win (x.lim max) x.block x.r with
    | .next r n block => some ⟨block, r, x.k + n⟩
    | _ => none
  else none

end

/-- The loop takes the steps of `nextRound`. -/
theorem loopFrom_iter {h : Hooks H} {eval : EvalFn H} {code : Buf} {code_len win : Word}
    {max m : Nat} {x y : Start H}
    (hm : iter (nextRound h eval code code_len win max) m x = some y) (n : Nat) :
    loopFrom h eval code code_len win max (m + n) x.block x.r x.k =
      loopFrom h eval code code_len win max n y.block y.r y.k := by
  induction m generalizing x with
  | zero =>
    cases hm
    rw [Nat.zero_add]
  | succ m ih =>
    rw [Nat.succ_add, loopFrom]
    cases hx : nextRound h eval code code_len win max x with
    | none =>
      rw [iter, hx] at hm
      cases hm
    | some z =>
      rw [iter_succ hx] at hm
      have hz := ih hm
      unfold nextRound at hx
      split at hx
      · rename_i hlt
        rw [if_pos hlt]
        split at hx
        · rename_i hround
          injection hx with hx
          subst hx
          unfold Start.lim at hround
          rw [hround]
          exact hz
        · cases hx
      · cases hx

/-- A round that `RiscvEmulatorLoop` enters. -/
def Entered (h : Hooks H) (eval : EvalFn H) (block : Block) (r : Run H) (max : Nat)
    (x : Start H) : Prop :=
  x.k < max ∧ ∃ m, iter (nextRound h eval r.s.readonly.ptr r.s.readonly.len
    (winOf r.s.readonly.len) max) m ⟨block, r, 0⟩ = some x

/-- **`purvs` reports every trap of a run at its address exactly when each trap is all that its
round decoded** and the handlers that stop leave the pc alone. -/
theorem riscvEmulatorLoop_reports_traps (h : Hooks H) (eval : EvalFn H) (block : Block) (r : Run H)
    (max : Nat) :
    (∀ x, Entered h eval block r max x →
      TrapReported h eval r.s.readonly.ptr r.s.readonly.len (winOf r.s.readonly.len) (x.lim max)
        x.block x.r) ↔
    ∀ x, Entered h eval block r max x →
      TrapAlone h eval r.s.readonly.ptr r.s.readonly.len (winOf r.s.readonly.len) (x.lim max)
        x.block x.r :=
  forall_congr' fun _ => imp_congr_right fun _ => trapReported_iff

/-- The trap of a round that has one. -/
def Round.pending : Round H → Option (Pending H)
  | .trap p => some p
  | _ => none

theorem pending_some {o : Round H} {p : Pending H} (ho : o.pending = some p) : o = .trap p := by
  cases o with
  | trap q =>
    cases ho
    rfl
  | empty => cases ho
  | next => cases ho
  | stop => cases ho

/-- `NOP; ECALL` with a handler that stops: the `ECALL` is at 4, and its handler sees 0, where the
loop also leaves the pc.  The interpreter reports 4 both times. -/
theorem riscvEmulatorLoop_trap_pc :
    let block : Block := fun _ => ⟨0#8, 0#8, 0#8, 0#8⟩
    let h : Hooks Unit := ⟨some fun s => (s, true), none, none, none⟩
    let r : Run Unit := ⟨State.boot [0x13, 0x00, 0x00, 0x00, 0x73, 0x00, 0x00, 0x00] 0, []⟩
    let seen : Call Unit → Word := fun c => match c with
      | .mem _ _ _ s => s.pc
      | .trap _ s => s.pc
    ¬ (∀ x, Entered h defaultEval block r 2 x →
      TrapReported h defaultEval 1 8#32 (winOf 8#32) (x.lim 2) x.block x.r) ∧
    ((riscvEmulatorLoop h defaultEval block r 2).r.log.map seen = [0#32] ∧
      (riscvEmulatorLoop h defaultEval block r 2).r.s.pc = 0#32) ∧
    (Purv.riscvEmulatorLoop h r 2).r.log.map seen = [4#32] ∧
      (Purv.riscvEmulatorLoop h r 2).r.s.pc = 4#32 := by
  intro block h r seen
  refine ⟨fun hall => ?_, by decide, by decide⟩
  have hrep := hall ⟨block, r, 0⟩ ⟨by decide, 0, rfl⟩
  have hlast : (traced 1 8#32 (winOf 8#32) 2 block r).getLast? = some 4#32 := by decide
  have htrap : (beforeTrap h defaultEval 1 8#32 (winOf 8#32) 2 block r).pending.isSome = true := by
    decide
  obtain ⟨p, hp⟩ := Option.isSome_iff_exists.mp htrap
  have hb := pending_some hp
  obtain ⟨addr, hget, -, ht, -, hpc⟩ := beforeTrap_trap hb
  cases hlast.symm.trans hget
  have hcall := (hrep p hb 4#32 hlast).1 (by rw [ht]; decide)
  have hzero : p.last_pc = 4#32 := hcall.1
  rw [hpc] at hzero
  exact absurd hzero (by decide)

end Purv.Purvs

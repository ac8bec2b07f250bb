import Purv.PurvaUnits
import Purv.PurvsTrap
import Purv.SqliteHost
import Purv.Step

/-!
# `x0` stays zero

The handlers of `purva.c` write their register with no guard; the transcoder leaves no unit whose
register is `x0`.

* `dispatch_zero` — an op keeps `x0` zero, unless it scans memory into it;
* `cursors_zero` — so it is zero between any two ops of a run over a transcoded program;
* `next_zero`, `nextRound_zero` — the same for the engines whose illegal handler is the sqlite
  host's.
-/

namespace Purv.Purva

open Bits Transcode Steps

variable {H U : Type}

/-- The handlers and the callback leave `x0` alone. -/
structure LeavesZero (h : Hooks H) : Prop where
  trap : ∀ t f, (h.handler t).1 = some f → ∀ s, (f s).1.x 0#5 = s.x 0#5
  callback : KeepsZero h.callback

/-! ## One op -/

theorem saveFast_x (r : Run H) (b : Buf) (q : Nat) (regs : List Reg) :
    (saveFast r b q regs).s.x = r.s.x := by
  induction regs generalizing r q with
  | nil => rfl
  | cons i regs ih => exact (ih _ _).trans (stLe_x _ _ _ _)

theorem maskRegs_ne (rmask : Word) : ∀ i ∈ maskRegs rmask, i ≠ 0#5 := by
  intro i hi
  unfold maskRegs at hi
  obtain ⟨bit, hbit, heq⟩ := List.mem_filterMap.mp hi
  split at heq
  · cases heq
    have hlt := List.mem_range.mp hbit
    interval_cases bit <;> decide
  · cases heq

theorem restFast_zero {r : Run H} (h0 : Zero r.s) (b : Buf) (q : Nat) {regs : List Reg}
    (hregs : ∀ i ∈ regs, i ≠ 0#5) : Zero (restFast r b q regs).s := by
  induction regs generalizing r q with
  | nil => exact h0
  | cons i regs ih =>
    obtain ⟨hi, hrest⟩ := List.forall_mem_cons.mp hregs
    exact ih (put_zero h0 (.inl hi)) _ hrest

section
variable {h : Hooks H} (hk : LeavesZero h)
include hk

theorem load_zero {r : Run H} (h0 : Zero r.s) (a : Word) (n : Nat) : Zero (load h r a n).1.s := by
  unfold load
  split
  · exact h0
  · exact callback_zero hk.callback h0 _ _ _

theorem store_zero {r : Run H} (h0 : Zero r.s) (a v : Word) (n : Nat) :
    Zero (store h r a v n).s := by
  unfold store
  split
  · unfold Zero
    rw [stLe_x]
    exact h0
  · exact callback_zero hk.callback h0 _ _ _

theorem prologueSlow_zero {r : Run H} (h0 : Zero r.s) (addr : Word) (regs : List Reg) :
    Zero (prologueSlow h r addr regs).s := by
  induction regs generalizing r addr with
  | nil => exact h0
  | cons i regs ih => exact ih (store_zero hk h0 _ _ 4) _

theorem epilogueSlow_zero {r : Run H} (h0 : Zero r.s) (addr : Word) {regs : List Reg}
    (hregs : ∀ i ∈ regs, i ≠ 0#5) : Zero (epilogueSlow h r addr regs).s := by
  induction regs generalizing r addr with
  | nil => exact h0
  | cons i regs ih =>
    obtain ⟨hi, hrest⟩ := List.forall_mem_cons.mp hregs
    exact ih (put_zero (load_zero hk h0 _ 4) (.inl hi)) _ hrest

theorem prologue_zero {r : Run H} (h0 : Zero r.s) (w : Word) : Zero (prologue h r w).1.s := by
  have h2 : (2#5 : Reg) ≠ 0#5 := by decide
  unfold prologue
  simp only
  refine put_zero ?_ (.inl h2)
  split
  · unfold Zero
    rw [saveFast_x]
    exact h0
  · exact prologueSlow_zero hk h0 _ _

theorem epilogue_zero {r : Run H} (h0 : Zero r.s) (w : Word) : Zero (epilogue h r w).1.s := by
  have h2 : (2#5 : Reg) ≠ 0#5 := by decide
  unfold epilogue
  simp only
  refine put_zero ?_ (.inl h2)
  split
  · exact restFast_zero h0 _ _ (maskRegs_ne _)
  · exact epilogueSlow_zero hk h0 _ (maskRegs_ne _)

theorem loadTwice_zero {r : Run H} (h0 : Zero r.s) (w : Word) : Zero (loadTwice h r w).1.s :=
  load_zero hk (load_zero hk h0 _ 4) _ 4

theorem hLoad_zero {r : Run H} (h0 : Zero r.s) (w : Word) (T : CType) :
    Zero (hLoad h r w T).s := by
  unfold hLoad
  split
  · rename_i hne
    exact put_zero (load_zero hk h0 _ _) (.inl hne)
  · exact h0

theorem hTrap_zero {r : Run H} (h0 : Zero r.s) (p w : Word) : Zero (hTrap h r p w).1.s := by
  unfold hTrap Run.trap
  simp only
  split
  · exact h0
  · rename_i f _ hf
    exact (hk.trap _ f (by rw [hf]) _).trans h0

/-- **An op keeps `x0` zero**, unless it scans memory into it. -/
theorem dispatch_zero {r : Run H} (h0 : Zero r.s) (p w2 : Word) {w : Word}
    (hw : WritesRd (TC_OP w) → TC_A w ≠ 0#5)
    (hm : TC_OP w = RISCV_OP_MEMOP → ¬ Clobbers r.s (w &&& 7#32).toNat (TC_A w)) :
    Zero (dispatch h r p w w2).1.s := by
  have h1 : (1#5 : Reg) ≠ 0#5 := by decide
  have hA : ∀ {op : Nat}, TC_OP w = op → WritesRd op → TC_A w ≠ 0#5 := fun hop hwr =>
    hw (by rwa [hop])
  unfold dispatch
  simp only
  split
  case h_28 | h_29 | h_30 | h_31 | h_32 => exact hLoad_zero hk h0 w _
  case h_33 | h_34 | h_35 => exact store_zero hk h0 _ _ _
  case h_36 | h_37 | h_38 | h_39 | h_40 | h_41 => exact h0
  case h_42 | h_43 => exact wr_zero_reg h0 _ _
  case h_46 => exact h0
  case h_47 => exact prologue_zero hk h0 w
  case h_48 => exact epilogue_zero hk h0 w
  case h_52 hop => exact put_zero (load_zero hk h0 _ 4) (.inl (hA hop (by decide)))
  case h_53 hop => exact put_zero (loadTwice_zero hk h0 w) (.inl (hA hop (by decide)))
  case h_54 hop | h_55 hop => exact put_zero (load_zero hk h0 _ _) (.inl (hA hop (by decide)))
  case h_56 hop =>
    exact store_zero hk (put_zero (load_zero hk h0 _ 4) (.inl (hA hop (by decide)))) _ _ 4
  case h_57 hop =>
    exact put_zero (put_zero (loadTwice_zero hk h0 w) (.inl (hA hop (by decide)))) (.inl h1)
  case h_58 hop => exact purvMemop_zero hk.callback h0 _ _ (hm hop)
  case h_59 => exact hTrap_zero hk h0 p w
  all_goals
    rename_i hop
    exact put_zero h0 (.inl (hA hop (by decide)))

/-! ## Runs over a transcoded program -/

/-- The op at the cursor scans memory into `x0`. -/
def ClobbersAt (m : Image) (q : OpCursor H) : Prop :=
  ∃ w, m.ops[q.p]? = some w ∧ TC_OP w = RISCV_OP_MEMOP ∧
    Clobbers q.r.s (w &&& 7#32).toNat (TC_A w)

/-- The op at a unit keeps `x0` zero. -/
theorem cursor_zero {code : Nat → Byte} {len : Word} {targets : Targets} {map : Nat → Word}
    {m : Image} (hheads : ∀ c, Head code len targets c → map (c.off >>> 1).toNat = c.at_ ∧
      emit c.at_ (c.unit code len targets).1 map len <+: m.ops.drop c.at_.toNat)
    {q : OpCursor H} (hunit : q.p < m.ops.length → AtUnit code len targets q.p)
    (hscan : ¬ ClobbersAt m q) (h0 : Zero q.r.s) {w : Word} (hw : m.ops[q.p]? = some w) :
    Zero (q.dispatch h m w).1.s := by
  obtain ⟨w', hw', hrd⟩ := atUnit_word hheads (hunit (List.getElem?_eq_some_iff.mp hw).1)
  cases hw.symm.trans hw'
  exact dispatch_zero hk h0 _ _ hrd fun hop hc => hscan ⟨w, hw, hop, hc⟩

omit hk in
/-- Where the cursor lands the registers are as the op left them. -/
theorem land_zero {m : Image} {q q' : OpCursor H} {o : Run H × Nat × Goto} (ho : Zero o.1.s)
    (hl : q.land m o = some q') : Zero q'.r.s := by
  obtain ⟨r, c, g⟩ := o
  cases g with
  | fall n =>
    cases hl
    exact ho
  | reloc idx =>
    cases hl
    exact ho
  | indirect t =>
    unfold OpCursor.land at hl
    simp only at hl
    split at hl
    · cases hl
    · cases hl
      exact ho
  | trap stop =>
    unfold OpCursor.land at hl
    simp only at hl
    split at hl
    · cases hl
    · cases hl
      exact ho

/-- **A run that enters units at their first words has `x0` zero between any two ops**, unless an op
of it scans memory into it. -/
theorem cursors_zero {code : Nat → Byte} {len : Word} {targets : Targets} {map : Nat → Word}
    {m : Image} (hheads : ∀ c, Head code len targets c → map (c.off >>> 1).toNat = c.at_ ∧
      emit c.at_ (c.unit code len targets).1 map len <+: m.ops.drop c.at_.toNat)
    {q : OpCursor H}
    (hunit : Always (advance h m) (fun q => q.p < m.ops.length → AtUnit code len targets q.p) q)
    (hscan : Always (advance h m) (fun q => ¬ ClobbersAt m q) q) (h0 : Zero q.r.s) :
    Always (advance h m) (fun q => Zero q.r.s) q := by
  refine always_preserved (fun q q' hq hcond hnext => ?_) h0 (always_and hunit hscan)
  unfold advance at hnext
  split at hnext
  · cases hnext
  · rename_i w hw
    exact land_zero (cursor_zero hk hheads hcond.1 hcond.2 hq hw) hnext

/-- So is it in what the engine leaves at its budget. -/
theorem loopFrom_zero {code : Nat → Byte} {len : Word} {targets : Targets} {map : Nat → Word}
    {m : Image} (hheads : ∀ c, Head code len targets c → map (c.off >>> 1).toNat = c.at_ ∧
      emit c.at_ (c.unit code len targets).1 map len <+: m.ops.drop c.at_.toNat)
    {max : Nat} (fuel : Nat) {q : OpCursor H}
    (hunit : Always (advance h m) (fun q => q.p < m.ops.length → AtUnit code len targets q.p) q)
    (hscan : Always (advance h m) (fun q => ¬ ClobbersAt m q) q) (h0 : Zero q.r.s) :
    Zero (loopFrom h m.ops m.prog.code_len max fuel q.r q.p q.k).r.s := by
  induction fuel generalizing q with
  | zero => exact h0
  | succ fuel ih =>
    by_cases hp : q.p < m.ops.length
    · have hw : m.ops[q.p]? = some m.ops[q.p] := List.getElem?_eq_getElem hp
      generalize m.ops[q.p] = w at hw
      have hd : Zero (q.dispatch h m w).1.s :=
        cursor_zero hk hheads (hunit 0 q rfl) (hscan 0 q rfl) h0 hw
      have hnext : ∀ q1, advance h m q = some q1 → Zero q1.r.s →
          Zero (loopFrom h m.ops m.prog.code_len max fuel q1.r q1.p q1.k).r.s := fun q1 hq1 h1 =>
        ih (always_iter hunit (iter_one hq1)) (always_iter hscan (iter_one hq1)) h1
      rw [advance_op hw] at hnext
      rw [loopFrom_op fuel hw]
      revert hd hnext
      generalize q.dispatch h m w = o
      intro hd hnext
      obtain ⟨r, c, g⟩ := o
      cases g with
      | fall n => exact hnext ⟨r, q.p + n, q.k + c⟩ rfl hd
      | reloc idx =>
        unfold landFrom
        simp only
        split
        · exact hd
        · exact hnext ⟨r, idx.toNat, q.k + c⟩ rfl hd
      | indirect t =>
        unfold landFrom
        simp only
        split
        · exact hd
        · rename_i hwin
          split
          · exact hd
          · exact hnext ⟨r, (t >>> 2).toNat, q.k + c⟩ (if_neg hwin) hd
      | trap stop =>
        cases stop with
        | true => exact hd
        | false =>
          unfold landFrom
          simp only
          split
          · exact hd
          · exact hnext ⟨r, q.p + 1, q.k + c⟩ rfl hd
    · rw [loopFrom, List.getElem?_eq_none (by omega)]
      exact h0

end

/-! ## The engines with an illegal handler -/

/-- The handlers keep `x0` zero, the illegal one in the states of `G`, and the callback leaves it
alone. -/
structure GuardsZero (h : Hooks H) (G : State H → Prop) : Prop where
  trap : ∀ t f, (h.handler t).1 = some f → ∀ s, Zero s → (t = .illegal → G s) → Zero (f s).1
  callback : KeepsZero h.callback

section
variable {h : Hooks H} {G : State H → Prop} (hg : GuardsZero h G)
include hg

theorem trap_zero {r : Run H} (h0 : Zero r.s) (t : Trap) (ht : t = .illegal → G r.s) :
    Zero (r.trap h t).1.s := by
  unfold Run.trap
  split
  · exact h0
  · rename_i f _ hf
    exact hg.trap t f (by rw [hf]) r.s h0 ht

theorem raise_zero {r : Run H} (h0 : Zero r.s) (pc inst : Word) (t : Trap)
    (ht : t = .illegal → G (r.fault pc inst).s) : Zero (r.raise h pc inst t).1.s :=
  trap_zero hg (r := r.fault pc inst) h0 t ht

theorem execLoad_zero {r : Run H} (h0 : Zero r.s) (rd : Reg) (a : Word) (f3 : BitVec 3) :
    Zero (execLoad h r rd a f3).s := by
  unfold execLoad
  simp only
  split
  · exact h0
  · split
    · exact wr_zero_reg h0 _ _
    · exact wr_zero_reg (callback_zero hg.callback h0 _ _ _) _ _

omit hg in
theorem storeValue_x (s : State H) (p : Ptr) (b : Word) (f3 : BitVec 3) :
    (storeValue s p b f3).x = s.x := by
  unfold storeValue
  split
  · rfl
  · rfl
  · rfl

theorem execStore_zero {r : Run H} (h0 : Zero r.s) (a b : Word) (f3 : BitVec 3) :
    Zero (execStore h r a b f3).s := by
  unfold execStore
  split
  · unfold Zero
    rw [storeValue_x]
    exact h0
  · exact callback_zero hg.callback h0 _ _ _

/-- An action keeps `x0` zero, if its trap does. -/
theorem execute_zero {r : Run H} (h0 : Zero r.s) (pc width inst : Word)
    (ht : G (r.fault pc inst).s) (a : Action) : Zero (execute h r pc width inst a).1.s := by
  cases a with
  | alu rd a b f3 f7 => exact wr_zero_reg h0 _ _
  | mul rd a b f3 => exact wr_zero_reg h0 _ _
  | load rd a imm f3 =>
    simp only [execute]
    split
    · exact raise_zero hg h0 pc inst _ fun _ => ht
    · exact execLoad_zero hg h0 _ _ _
  | store a b imm f3 =>
    simp only [execute]
    split
    · exact raise_zero hg h0 pc inst _ fun _ => ht
    · exact execStore_zero hg h0 _ _ _
  | branch a b imm f3 =>
    simp only [execute]
    split
    · exact raise_zero hg h0 pc inst _ fun _ => ht
    · exact h0
    · exact h0
  | jal rd imm => exact wr_zero_reg h0 _ _
  | jalr rd a imm => exact wr_zero_reg h0 _ _
  | lui rd imm => exact wr_zero_reg h0 _ _
  | auipc rd imm => exact wr_zero_reg h0 _ _
  | system rd rs1 f3 imm =>
    simp only [execute]
    split
    · exact raise_zero hg h0 pc inst _ fun _ => ht
    · split
      · exact raise_zero hg h0 pc inst _ fun _ => ht
      · exact raise_zero hg h0 pc inst _ fun _ => ht
  | ebreak => exact raise_zero hg h0 pc inst _ fun _ => ht
  | illegal => exact raise_zero hg h0 pc inst _ fun _ => ht
  | done => exact h0

/-- What the illegal handler would be given at the next instruction of `purv` is in `G`. -/
def Guarded (G : State H → Prop) (code : Buf) (code_len : Word) (x : Run H × Word) : Prop :=
  Fetchable (x.1.s.mem code) (code == 0) code_len x.2 →
    G (x.1.fault x.2 (fetch (x.1.s.mem code) x.2).inst).s

/-- **`purv` keeps `x0` zero**: it is zero between any two instructions. -/
theorem next_zero {code : Buf} {code_len : Word} {x : Run H × Word}
    (hguard : Always (next h code code_len) (Guarded G code code_len) x) (h0 : Zero x.1.s) :
    Always (next h code code_len) (fun x => Zero x.1.s) x := by
  refine always_preserved (fun x y hx hg' hnext => ?_) h0 hguard
  obtain ⟨r, pc⟩ := x
  unfold next at hnext
  simp only at hnext
  split at hnext
  · rename_i hf
    have he : Zero (oneInsn h r pc (fetch (r.s.mem code) pc)).1.s :=
      execute_zero hg hx pc _ _ (hg' hf) _
    generalize oneInsn h r pc (fetch (r.s.mem code) pc) = o at he hnext
    obtain ⟨r', nx⟩ := o
    cases nx with
    | done =>
      cases hnext
      exact he
    | jump t =>
      cases hnext
      exact he
    | out => cases hnext
  · cases hnext

/-- So is it in what the loop leaves at its budget. -/
theorem stepwise_zero {code : Buf} {code_len : Word} (n : Nat) {r : Run H} {pc : Word} (k : Nat)
    (hguard : Always (next h code code_len) (Guarded G code code_len) (r, pc)) (h0 : Zero r.s) :
    Zero (stepwise h code code_len n r pc k).r.s := by
  induction n generalizing r pc k with
  | zero => exact h0
  | succ n ih =>
    unfold stepwise
    split
    · rename_i hf
      have he : Zero (oneInsn h r pc (fetch (r.s.mem code) pc)).1.s :=
        execute_zero hg h0 pc _ _ (hguard 0 (r, pc) rfl hf) _
      have hnext : next h code code_len (r, pc) = _ := if_pos hf
      simp only at hnext ⊢
      revert he hnext
      generalize oneInsn h r pc (fetch (r.s.mem code) pc) = o
      intro he hnext
      obtain ⟨r', nx⟩ := o
      cases nx with
      | done => exact ih _ (always_iter hguard (iter_one hnext)) he
      | jump t => exact ih _ (always_iter hguard (iter_one hnext)) he
      | out => exact he
    · exact h0

/-! ## `purvs` -/

theorem handler_zero {r : Run H} (h0 : Zero r.s) (d : Purvs.Slot) (imm : Word) :
    Zero (Purvs.handler h r d imm).1.s := by
  have hbranch : ∀ taken, Zero (Purvs.hBranch r imm taken).1.s := by
    intro taken
    unfold Purvs.hBranch
    cases taken with
    | true => exact h0
    | false => exact h0
  have hload : ∀ f3, Zero (Purvs.hLoad h r d imm f3).1.s := fun f3 => execLoad_zero hg h0 _ _ _
  have hstore : ∀ f3, Zero (Purvs.hStore h r d imm f3).1.s := fun f3 => execStore_zero hg h0 _ _ _
  unfold Purvs.handler
  simp only
  split
  case h_28 | h_29 | h_30 | h_31 | h_32 => exact hload _
  case h_33 | h_34 | h_35 => exact hstore _
  case h_36 | h_37 | h_38 | h_39 | h_40 | h_41 => exact hbranch _
  case h_45 => exact h0
  all_goals exact wr_zero_reg h0 _ _

theorem defaultEvalFrom_zero (block : Purvs.Block) (fuel : Nat) {r : Run H} (h0 : Zero r.s)
    (d : Nat) : Zero (Purvs.defaultEvalFrom h block fuel r d).1.s := by
  induction fuel generalizing r d with
  | zero => exact h0
  | succ fuel ih =>
    unfold Purvs.defaultEvalFrom
    simp only
    split
    · exact h0
    · split
      · exact h0
      · exact ih (handler_zero hg h0 _ _) _

/-- The evaluator, halted after `n` records. -/
def evalFor (n : Nat) : Purvs.EvalFn H := fun h r block => Purvs.defaultEvalFrom h block n r 0

/-- What a round leaves, up to its trap, has `x0` zero. -/
def RoundZero : Purvs.Round H → Prop
  | .empty => True
  | .next r _ _ => Zero r.s
  | .trap p => Zero p.r.s
  | .stop r _ => Zero r.s

theorem beforeTrap_zero (n : Nat) (code : Buf) (code_len win : Word) (lim : Nat)
    (block : Purvs.Block) {r : Run H} (h0 : Zero r.s) :
    RoundZero (Purvs.beforeTrap h (evalFor n) code code_len win lim block r) := by
  unfold Purvs.beforeTrap
  simp only
  split
  · trivial
  · split
    · exact h0
    · have he := fun block (r : Run H) (hr : Zero r.s) => defaultEvalFrom_zero hg block n hr 0
      unfold evalFor
      split
      · exact he _ _ h0
      · split
        · exact he _ _ h0
        · exact he _ _ h0

/-- What the handler of a round of `purvs` would be given is in `G`. -/
def GuardedRound (h : Hooks H) (G : State H → Prop) (code : Buf) (code_len win : Word) (max : Nat)
    (x : Purvs.Start H) : Prop :=
  ∀ p, Purvs.beforeTrap h Purvs.defaultEval code code_len win (x.lim max) x.block x.r = .trap p →
    G p.fault.s

/-- What a round leaves has `x0` zero. -/
theorem round_zero {code : Buf} {code_len win : Word} {max : Nat} {x : Purvs.Start H}
    (hguard : GuardedRound h G code code_len win max x) (h0 : Zero x.r.s) :
    RoundZero (Purvs.round h Purvs.defaultEval code code_len win (x.lim max) x.block x.r) := by
  have hbefore : RoundZero
      (Purvs.beforeTrap h Purvs.defaultEval code code_len win (x.lim max) x.block x.r) :=
    beforeTrap_zero hg Purvs.RISCV_BLOCK_SLOTS code code_len win (x.lim max) x.block h0
  unfold Purvs.round
  split
  · rename_i p hp
    rw [hp] at hbefore
    have ht := trap_zero hg (r := p.fault) hbefore p.t fun _ => hguard p hp
    simp only
    split
    · exact ht
    · exact ht
  · exact hbefore

/-- **`purvs` keeps `x0` zero**: it is zero between any two rounds, and after any number of records
of a round. -/
theorem nextRound_zero {code : Buf} {code_len win : Word} {max : Nat} {x : Purvs.Start H}
    (hguard : Always (Purvs.nextRound h Purvs.defaultEval code code_len win max)
      (GuardedRound h G code code_len win max) x) (h0 : Zero x.r.s) :
    Always (Purvs.nextRound h Purvs.defaultEval code code_len win max)
      (fun x => Zero x.r.s ∧ ∀ n, RoundZero
        (Purvs.beforeTrap h (evalFor n) code code_len win (x.lim max) x.block x.r)) x := by
  have hstarts : Always (Purvs.nextRound h Purvs.defaultEval code code_len win max)
      (fun x => Zero x.r.s) x := by
    refine always_preserved (fun x y hx hg' hnext => ?_) h0 hguard
    have hround := round_zero hg hg' hx
    unfold Purvs.nextRound at hnext
    split at hnext
    · split at hnext
      · rename_i hr
        rw [hr] at hround
        cases hnext
        exact hround
      · cases hnext
    · cases hnext
  intro n y hy
  have hzero := hstarts n y hy
  exact ⟨hzero, fun n => beforeTrap_zero hg n code code_len win (y.lim max) y.block hzero⟩

/-- So is it in what the loop leaves at its budget. -/
theorem rounds_zero {code : Buf} {code_len win : Word} {max : Nat} (rounds : Nat)
    {x : Purvs.Start H}
    (hguard : Always (Purvs.nextRound h Purvs.defaultEval code code_len win max)
      (GuardedRound h G code code_len win max) x) (h0 : Zero x.r.s) :
    Zero (Purvs.loopFrom h Purvs.defaultEval code code_len win max rounds x.block x.r x.k).r.s := by
  induction rounds generalizing x with
  | zero => exact h0
  | succ rounds ih =>
    unfold Purvs.loopFrom
    by_cases hk : x.k < max
    · rw [if_pos hk]
      have hround := round_zero hg (hguard 0 x rfl) h0
      have hnext : Purvs.nextRound h Purvs.defaultEval code code_len win max x = _ := if_pos hk
      change Zero (match Purvs.round h Purvs.defaultEval code code_len win (x.lim max) x.block x.r
        with
        | .empty => (⟨x.r, x.k, .fetch⟩ : Purv.Result H)
        | .next r n block =>
          Purvs.loopFrom h Purvs.defaultEval code code_len win max rounds block r (x.k + n)
        | .trap p => ⟨p.r, x.k + p.insns, .trap⟩
        | .stop r n => ⟨r, x.k + n, .trap⟩).r.s
      revert hround hnext
      generalize Purvs.round h Purvs.defaultEval code code_len win (x.lim max) x.block x.r = o
      intro hround hnext
      cases o with
      | empty => exact h0
      | next r n block =>
        exact ih (x := ⟨block, r, x.k + n⟩) (always_iter hguard (iter_one hnext)) hround
      | trap p => exact hround
      | stop r n => exact hround
    · rw [if_neg hk]
      exact h0

end

/-! ## The sqlite host -/

/-- The illegal handler is the sqlite host's; the other handlers and the callback leave `x0`
alone. -/
structure OnSqliteHost (h : Hooks (SqliteHost U)) : Prop where
  illegal : h.illegal = some (onIllegal h.callback)
  ecall : ∀ f, h.ecall = some f → ∀ s, (f s).1.x 0#5 = s.x 0#5
  ebreak : ∀ f, h.ebreak = some f → ∀ s, (f s).1.x 0#5 = s.x 0#5
  callback : KeepsZero h.callback

theorem OnSqliteHost.guards {h : Hooks (SqliteHost U)} (hh : OnSqliteHost h) :
    GuardsZero h fun s => ¬ IllegalClobbers s where
  callback := hh.callback
  trap := by
    intro t f hf s h0 hc
    cases t with
    | ecall => exact (hh.ecall f hf s).trans h0
    | ebreak => exact (hh.ebreak f hf s).trans h0
    | illegal =>
      change h.illegal = some f at hf
      rw [hh.illegal] at hf
      cases hf
      exact onIllegal_zero hh.callback h0 (hc rfl)

/-- **`x0` stays zero** in every run of the three engines that starts with it zero, if no bulk memory
instruction of the run scans memory into `x0`: between any two ops of `purva`, any two instructions
of `purv`, any two rounds of `purvs` and after any number of records of a round, and when the engine
returns, at any budget. -/
theorem zero_register :
    (∀ (code : Nat → Byte) (len : Word) (ext : List Word), Sized len →
      ∃ targets, ∃ m : Image, collectTargets code len ext = some targets ∧
        transcodeEx code len ext = some m.prog ∧
        ∀ (h : Hooks H) (r : Run H), LeavesZero h → Zero r.s →
          Always (advance h m) (fun q => q.p < m.ops.length → AtUnit code len targets q.p)
            (OpCursor.start r) →
          Always (advance h m) (fun q => ¬ ClobbersAt m q) (OpCursor.start r) →
          Always (advance h m) (fun q => Zero q.r.s) (OpCursor.start r) ∧
            ∀ max, Zero (riscvEmulatorLoop h m.prog r max).r.s) ∧
    (∀ (h : Hooks (SqliteHost U)) (r : Run (SqliteHost U)), OnSqliteHost h → Zero r.s →
      Always (next h r.s.readonly.ptr r.s.readonly.len)
        (Guarded (fun s => ¬ IllegalClobbers s) r.s.readonly.ptr r.s.readonly.len) (r, r.s.pc) →
      Always (next h r.s.readonly.ptr r.s.readonly.len) (fun x => Zero x.1.s) (r, r.s.pc) ∧
        ∀ max, Zero (Purv.riscvEmulatorLoop h r max).r.s) ∧
    ∀ (h : Hooks (SqliteHost U)) (r : Run (SqliteHost U)) (block : Purvs.Block) (max : Nat),
      OnSqliteHost h → Zero r.s →
      Always (Purvs.nextRound h Purvs.defaultEval r.s.readonly.ptr r.s.readonly.len
          (Purvs.winOf r.s.readonly.len) max)
        (GuardedRound h (fun s => ¬ IllegalClobbers s) r.s.readonly.ptr r.s.readonly.len
          (Purvs.winOf r.s.readonly.len) max) ⟨block, r, 0⟩ →
      Always (Purvs.nextRound h Purvs.defaultEval r.s.readonly.ptr r.s.readonly.len
          (Purvs.winOf r.s.readonly.len) max)
        (fun x => Zero x.r.s ∧ ∀ n, RoundZero (Purvs.beforeTrap h (evalFor n) r.s.readonly.ptr
          r.s.readonly.len (Purvs.winOf r.s.readonly.len) (x.lim max) x.block x.r)) ⟨block, r, 0⟩ ∧
        Zero (Purvs.riscvEmulatorLoop h Purvs.defaultEval block r max).r.s := by
  refine ⟨fun code len ext hlen => ?_, fun h r hh h0 hguard => ⟨?_, fun max => ?_⟩,
    fun h r block max hh h0 hguard => ⟨?_, ?_⟩⟩
  · obtain ⟨targets, map, m, htargets, -, hprog, -, hheads, -⟩ := transcodeEx_image code hlen ext
    refine ⟨targets, m, htargets, hprog, fun h r hk h0 hunit hscan => ⟨?_, fun max => ?_⟩⟩
    · exact cursors_zero hk hheads hunit hscan h0
    · unfold riscvEmulatorLoop
      split
      · exact h0
      · exact loopFrom_zero hk hheads _ hunit hscan h0
  · exact next_zero hh.guards hguard h0
  · rw [riscvEmulatorLoop_eq]
    exact stepwise_zero hh.guards max 0 hguard h0
  · exact nextRound_zero hh.guards hguard h0
  · exact rounds_zero hh.guards max hguard h0

/-- `strlen` with `rd` 5 and `rs1` 0. -/
def strlenCode : Nat → Byte := fun i => (0x0000428b#32).extractLsb' (8 * i) 8

/-- A state with that code, and one writable byte that is not 0, at guest address 0. -/
def strlenRun (host : H) : Run H where
  s :=
    { pc := 0#32, inst := 0#32, x := fun _ => 0#32
      readonly := ⟨1, 4#32, 0#32⟩, writable := ⟨2, 1#32, 0#32⟩
      mem := fun b i => if b = 1 then strlenCode i else 1#8, host := host }
  log := []

/-- The transcoded program has one op: a cursor is at it, or past it. -/
theorem strlen_cursors {m : Image} (hops : m.ops = [0xf0a00004#32]) (n : Nat) {q : OpCursor Unit}
    (hq : iter (advance Hooks.null m) n (OpCursor.start (strlenRun ())) = some q) :
    q = OpCursor.start (strlenRun ()) ∨ q.p = 1 := by
  induction n generalizing q with
  | zero =>
    cases hq
    exact .inl rfl
  | succ n ih =>
    obtain ⟨q', hq', hnext⟩ := iter_last hq
    unfold advance OpCursor.dispatch at hnext
    rcases ih hq' with rfl | h1
    · rw [hops] at hnext
      cases hnext
      exact .inr rfl
    · rw [hops, h1] at hnext
      cases hnext

/-- With no host functions `x0` is left alone. -/
theorem leavesZero_null : LeavesZero (H := Unit) Hooks.null := by
  refine ⟨fun t f hf => ?_, fun f hf => nomatch hf⟩
  cases t with
  | ecall => cases hf
  | ebreak => cases hf
  | illegal => cases hf

/-- A use of `zero_register`: the three engines run the `strlen`. -/
theorem zero_register_strlen :
    (∃ m : Image, transcodeEx strlenCode 4#32 [] = some m.prog ∧
      Always (advance Hooks.null m) (fun q => Zero q.r.s) (OpCursor.start (strlenRun ())) ∧
      ∀ max, Zero (riscvEmulatorLoop Hooks.null m.prog (strlenRun ()) max).r.s) ∧
    let h : Hooks (SqliteHost Unit) := ⟨none, none, some (onIllegal none), none⟩
    let r : Run (SqliteHost Unit) := strlenRun ⟨false, 0#32, ()⟩
    (Always (next h 1 4#32) (fun x => Zero x.1.s) (r, 0#32) ∧
      ∀ max, Zero (Purv.riscvEmulatorLoop h r max).r.s) ∧
    Always (Purvs.nextRound h Purvs.defaultEval 1 4#32 (Purvs.winOf 4#32) 10)
      (fun x => Zero x.r.s ∧ ∀ n, RoundZero (Purvs.beforeTrap h (evalFor n) 1 4#32
        (Purvs.winOf 4#32) (x.lim 10) x.block x.r)) ⟨fun _ => ⟨0#8, 0#8, 0#8, 0#8⟩, r, 0⟩ := by
  obtain ⟨hpurva, hpurv, hpurvs⟩ := @zero_register Unit Unit
  have hh : OnSqliteHost (U := Unit) ⟨none, none, some (onIllegal none), none⟩ :=
    { illegal := rfl
      ecall := fun f hf => nomatch hf
      ebreak := fun f hf => nomatch hf
      callback := fun f hf => nomatch hf }
  refine ⟨?_, ?_, ?_⟩
  · obtain ⟨targets, m, htargets, hprog, hrun⟩ := hpurva strlenCode 4#32 [] ⟨by decide, by decide⟩
    have hops : some m.ops = some [0xf0a00004#32] :=
      (congrArg (Option.map Transcoded.ops) hprog).symm.trans (by decide)
    rw [Option.some.injEq] at hops
    have htargets : some (Targets.new 4#32) = some targets := htargets
    cases htargets
    refine ⟨m, hprog, hrun Hooks.null (strlenRun ()) leavesZero_null rfl ?_ ?_⟩
    · intro n q hq hp
      rcases strlen_cursors hops n hq with rfl | h1
      · exact ⟨.start, ⟨⟨0, rfl⟩, by decide⟩, rfl, by decide⟩
      · rw [hops, h1] at hp
        exact absurd hp (by decide)
    · rintro n q hq ⟨w, hw, -, hc⟩
      rcases strlen_cursors hops n hq with rfl | h1
      · rw [hops] at hw
        cases hw
        exact absurd hc.1 (by decide)
      · rw [hops, h1] at hw
        cases hw
  · refine hpurv _ (strlenRun ⟨false, 0#32, ()⟩) hh rfl (fun n q hq => ?_)
    match n with
    | 0 =>
      cases hq
      exact fun _ hc => absurd hc.2.1 (by decide)
    | 1 =>
      cases hq
      exact fun hf => absurd hf.2.1 (by decide)
    | n + 2 => cases hq
  · refine (hpurvs _ (strlenRun ⟨false, 0#32, ()⟩) _ 10 hh rfl (fun n q hq => ?_)).1
    match n with
    | 0 =>
      cases hq
      intro p hp
      cases hp
      exact fun hc => absurd hc.2.1 (by decide)
    | 1 =>
      cases hq
      intro p hp
      cases hp
    | n + 2 => cases hq

/-- `strlen` with `rd` 0, and `ebreak`, where the writable region is one byte that is not 0, at guest
address 0: `x0` becomes 1. -/
theorem memop_writes_zero :
    let code : Nat → Byte := fun i => (0x001000730000400b#64).extractLsb' (8 * i) 8
    let r : Run Unit := ⟨{ State.boot [] 1 with
      writable := ⟨2, 1#32, 0#32⟩, mem := fun _ _ => 1#8 }, []⟩
    Zero r.s ∧ LeavesZero (H := Unit) Hooks.null ∧
      (transcodeEx code 8#32 []).map (fun prog =>
        (riscvEmulatorLoop Hooks.null prog r 10).r.s.x 0#5) = some 1#32 :=
  ⟨rfl, leavesZero_null, by decide⟩

end Purv.Purva

import Purv.PurgRun

/-!
# Where the two engines part

* `execute_reserved`, `executeCompressed_shift`, `executeCompressed_zero` — what the generated
  engine makes of the reserved encodings;
* `Reserved.undefined` — the instruction set defines none of them;
* `agree_iff` — the engines agree on exactly the other encodings.
-/

namespace Purv.Purg

open Bits Isa

/-! ## Reserved words -/

section
variable {M : Type} {k : Hooks M} {s : State M}

theorem cat_toNat (f7 : BitVec 7) (f3 : BitVec 3) :
    (cat 10 f7 f3).toNat = f7.toNat * 8 + f3.toNat := by
  revert f7 f3
  decide

theorem operation_none {f7 : BitVec 7} {f3 : BitVec 3} (h0 : f7 ≠ 0#7) (h1 : f7 ≠ 1#7)
    (h20 : f7 = 0x20#7 → f3 ≠ 0#3 ∧ f3 ≠ 5#3) (a b : Word) :
    operation a b (cat 10 f7 f3).toNat = none := by
  have hf3 := f3.isLt
  have hzero : f7.toNat ≠ 0 := fun h => h0 (BitVec.eq_of_toNat_eq h)
  have hone : f7.toNat ≠ 1 := fun h => h1 (BitVec.eq_of_toNat_eq h)
  have hsub : ∀ n, f7.toNat = 32 → f3.toNat = n → n ≠ 0 ∧ n ≠ 5 := by
    rintro n h7 rfl
    obtain ⟨hz, hf⟩ := h20 (BitVec.eq_of_toNat_eq h7)
    exact ⟨fun h => hz (BitVec.eq_of_toNat_eq h), fun h => hf (BitVec.eq_of_toNat_eq h)⟩
  rw [cat_toNat]
  unfold operation
  split
  all_goals first | rfl | skip
  all_goals
    rename_i heq
    have := hsub f3.toNat
    omega

theorem immediateShift_none {f7 : BitVec 7} {f3 : BitVec 3} (h0 : f7 ≠ 0#7)
    (h20 : f3 = 5#3 → f7 ≠ 0x20#7) (a : Word) (sh : BitVec 5) :
    immediateShift a sh (cat 10 f7 f3).toNat = none := by
  have hf3 := f3.isLt
  have hzero : f7.toNat ≠ 0 := fun h => h0 (BitVec.eq_of_toNat_eq h)
  have hsra : f3.toNat = 5 → f7.toNat ≠ 32 := fun h5 h =>
    h20 (BitVec.eq_of_toNat_eq h5) (BitVec.eq_of_toNat_eq h)
  rw [cat_toNat]
  unfold immediateShift
  split
  all_goals first | rfl | skip
  all_goals
    rename_i heq
    omega

/-- The generated engine refuses the reserved words. -/
theorem execute_reserved (hq : ReservedWord s.instruction) : execute k s = s.flag := by
  unfold execute
  cases hq with
  | shift op f3 f7 =>
    simp only [op]
    have hnone : immediate (s.x (s.instruction.extractLsb' 15 5)) s.instruction = none := by
      unfold immediate
      simp only
      rw [f3, if_pos (.inl rfl), immediateShift_none f7 fun h5 => absurd h5 (by decide)]
      rfl
    rw [hnone]
    rfl
  | shiftRight op f3 f7 f7' =>
    simp only [op]
    have hnone : immediate (s.x (s.instruction.extractLsb' 15 5)) s.instruction = none := by
      unfold immediate
      simp only
      rw [f3, if_pos (.inr rfl), immediateShift_none f7 fun _ => f7']
      rfl
    rw [hnone]
    rfl
  | operation op f7 f7' sub =>
    simp only [op]
    rw [operation_none f7 f7' sub]
    rfl
  | jalr op f3 =>
    simp only [op]
    exact if_neg f3

end

section
variable {H : Type}

/-- The hand-written one computes from the fields that it reads. -/
theorem reserved_writes (h : Purv.Hooks H) (r : Run H) (pc : Word) {w : Word}
    (hq : ReservedWord w) : ∃ rd v o,
      Purv.execute h r pc 4#32 w (decode32 r.s.x w) = (r.wr rd v, o) := by
  unfold decode32
  cases hq with
  | shift op f3 f7 =>
    simp only [op]
    rw [if_pos (.inl f3)]
    exact ⟨_, _, _, rfl⟩
  | shiftRight op f3 f7 f7' =>
    simp only [op]
    rw [if_pos (.inr f3)]
    exact ⟨_, _, _, rfl⟩
  | operation op f7 f7' sub =>
    simp only [op]
    rw [if_neg f7']
    exact ⟨_, _, _, rfl⟩
  | jalr op f3 =>
    simp only [op]
    exact ⟨_, _, _, rfl⟩

end

/-! ## Reserved halves -/

section
variable {M : Type} {k : Hooks M} {s : State M} {c : Half} (hc : s.instruction = c.setWidth 32)

/-- A shift by a count with bit 5 set. -/
theorem shift_large (f : Nat → Word) {c : Half} (hc : c.extractLsb' 12 1 ≠ 0#1) :
    shift f (ciDecoderImm c) = none := by
  have himm : (ciDecoderImm c).setWidth 8 = cat 8 7#3 (c.extractLsb' 2 5) := by
    ext i hi
    unfold ciDecoderImm
    rw [bit_one hc]
    interval_cases i <;> simp [getElem_cat, BitVec.getElem_signExtend, BitVec.msb_eq_getLsbD_last]
  have hlarge : ∀ v : BitVec 5, ¬ (cat 8 7#3 v : BitVec 8).toNat < 32 := by decide
  unfold shift
  rw [himm, if_neg (hlarge _)]

include hc

theorem half_of_word : (s.instruction.setWidth 16 : Half) = c := by
  rw [hc]
  ext i hi
  simp

/-- The language gives the long shifts of the generated engine no meaning. -/
theorem executeCompressed_shift (h12 : c.extractLsb' 12 1 ≠ 0#1)
    (hq : (c.extractLsb' 13 3).toNat * 4 + (c.extractLsb' 0 2).toNat = 17 ∧
        (c.extractLsb' 10 2 = 0#2 ∨ c.extractLsb' 10 2 = 1#2) ∨
      (c.extractLsb' 13 3).toNat * 4 + (c.extractLsb' 0 2).toNat = 2 ∧
        c.extractLsb' 7 5 ≠ (0#5 : Reg)) :
    executeCompressed k s = none := by
  unfold executeCompressed
  simp only [half_of_word hc, selector_eq]
  rcases hq with ⟨sel, hf2⟩ | ⟨sel, hrd⟩
  · simp only [sel]
    have h13 : c.extractLsb' 13 3 = 4#3 :=
      BitVec.eq_of_toNat_eq (show _ = 4 by have := (c.extractLsb' 0 2).isLt; omega)
    unfold executeMiscAlu
    simp only [h13]
    rcases hf2 with h2 | h2
    · rw [h2, if_pos (by decide), shift_large _ h12]
      rfl
    · rw [h2, if_neg (by decide), if_pos (by decide), shift_large _ h12]
      rfl
  · simp only [sel]
    rw [if_neg hrd, shift_large _ h12]
    rfl

/-- The generated engine executes the zero immediates. -/
theorem executeCompressed_zero
    (sel : (c.extractLsb' 13 3).toNat * 4 + (c.extractLsb' 0 2).toNat = 13) :
    ∃ s', executeCompressed k s = some s' ∧ s'.host = s.host ∧
      s'.illegalinstruction = s.illegalinstruction := by
  unfold executeCompressed
  simp only [half_of_word hc, selector_eq, sel]
  refine ⟨_, rfl, ?_⟩
  unfold executeLuiAddi16sp
  simp only
  split
  · split <;> exact ⟨rfl, rfl⟩
  · split <;> exact ⟨rfl, rfl⟩

end

/-! ## What the instruction set says -/

/-- **The instruction set defines none of the reserved encodings.** -/
theorem Reserved.undefined {i : Insn} (hq : Reserved i) : ¬ Legal i := by
  have hbits : ∀ {n : Nat} {f : BitVec n} {m : BitVec n}, f.toNat = m.toNat → f = m := by
    intro n f m hf
    exact BitVec.eq_of_toNat_eq hf
  cases i with
  | word w =>
    apply Overlooked.undefined
    cases hq with
    | shift op f3 f7 => exact .slli (hbits op) f3 f7
    | shiftRight op f3 f7 f7' => exact .srxi (hbits op) f3 f7 f7'
    | operation op f7 f7' sub => exact .op (hbits op) f7 f7' sub
    | jalr op f3 => exact .jalr (hbits op) f3
  | half c =>
    have hsel : ∀ {n m : Nat}, (c.extractLsb' 13 3).toNat * 4 + (c.extractLsb' 0 2).toNat =
        n * 4 + m → m < 4 → (c.extractLsb' 13 3).toNat = n ∧ (c.extractLsb' 0 2).toNat = m := by
      intro n m hs hm
      have := (c.extractLsb' 0 2).isLt
      omega
    cases hq with
    | addi16sp sel rd imm =>
      obtain ⟨hf, hq⟩ := hsel (n := 3) (m := 1) sel (by decide)
      rw [addi16spImm_eq] at imm
      have hzero : rvcAddi16sp c = 0#10 :=
        Classical.byContradiction fun hne =>
          signExtend_ne_zero (by decide) (signExtend_ne_zero (b := 12) (by decide) hne) imm
      rintro ⟨j, hj⟩
      cases hj with
      | half hc =>
        unfold expand at hc
        simp only [hf, hq, rd, hzero] at hc
        cases hc
    | lui sel rd imm =>
      obtain ⟨hf, hq⟩ := hsel (n := 3) (m := 1) sel (by decide)
      rw [cluiImm_eq] at imm
      have hzero : rvcImm6 c = 0#6 :=
        Classical.byContradiction fun hne =>
          upper_ne_zero (signExtend_ne_zero (by decide) hne) imm
      rintro ⟨j, hj⟩
      cases hj with
      | half hc =>
        unfold expand at hc
        simp only [hf, hq, hzero] at hc
        change (if c.extractLsb' 7 5 = (2#5 : Reg) then _ else _) = _ at hc
        rw [if_neg rd] at hc
        cases hc
    | shiftRight sel f2 imm =>
      obtain ⟨hf, hq⟩ := hsel (n := 4) (m := 1) sel (by decide)
      exact Overlooked.undefined (.srxi32 (hbits hq) (hbits hf) f2 (bit_one imm))
    | shift sel rd imm =>
      obtain ⟨hf, hq⟩ := hsel (n := 0) (m := 2) sel (by decide)
      exact Overlooked.undefined (.slli32 (hbits hq) (hbits hf) (bit_one imm))

/-! ## Where the engines agree -/

/-- Wherever the code holds `i`, a call of the generated engine is an iteration of the other. -/
def Agree (i : Insn) : Prop :=
  ∀ (H : Type) (h : Purv.Hooks H), Purva.Hooks.IsDevice h →
    ∀ (s : State (Purv.State H)) (r : Run H) (code : Buf) (len : Word),
      Beside s r.s → s.illegalinstruction = false → Homed code len r.s →
      Fetchable (r.s.mem code) false len s.programcounternext →
      fetch (r.s.mem code) s.programcounternext = i →
      ∃ s', riscvEmulatorLoop (machine h) s = some s' ∧
        Follows s.programcounternext i.width (oneInsn h r s.programcounternext i) s'

/-- A host that notes illegal traps. -/
def spyHooks : Purv.Hooks Bool :=
  { Purv.Hooks.null with illegal := some fun s => ({ s with host := true }, false) }

/-- A guest with `i` at address 0. -/
def holding (i : Insn) : Purv.State Bool where
  pc := 0#32
  inst := 0#32
  x := fun _ => 0#32
  readonly := ⟨1, 4#32, 0#32⟩
  writable := ⟨2, 0#32, RISCV_HALF⟩
  mem := fun _ o => i.inst.extractLsb' (8 * o) 8
  host := false

/-- The engine on it. -/
def engine (i : Insn) : State (Purv.State Bool) :=
  ⟨false, 0#32, 0#32, 0#32, fun _ => 0#32, holding i⟩

theorem fetchHalf_holding (i : Insn) (k : Word) (hk : k.toNat + 1 < 2 ^ 32) :
    fetchHalf ((holding i).mem 1) k = i.inst.extractLsb' (8 * k.toNat) 16 := by
  have hnext : (k + 1#32).toNat = k.toNat + 1 := by
    rw [BitVec.toNat_add, show (1#32 : Word).toNat = 1 from rfl, Nat.mod_eq_of_lt hk]
  unfold fetchHalf holding
  simp only [hnext]
  ext j hj
  by_cases h8 : j < 8
  · simp [h8]
  · have hsum : 8 * (k.toNat + 1) + (j - 8) = 8 * k.toNat + j := by omega
    simp [h8, show j - 8 < 8 by omega, hsum]

theorem fetch_holding_half {c : Half} (hlow : c.extractLsb' 0 2 ≠ 3#2) :
    fetch ((holding (.half c)).mem 1) 0#32 = .half c := by
  have hhalf : fetchHalf ((holding (.half c)).mem 1) 0#32 = c := by
    rw [fetchHalf_holding _ _ (by decide)]
    ext j hj
    simp [Insn.inst, show j < 32 by omega, BitVec.getLsbD_eq_getElem hj]
  unfold fetch
  simp only [hhalf]
  rw [if_neg hlow]

theorem fetch_holding_word {w : Word} (hlow : w.extractLsb' 0 2 = 3#2) :
    fetch ((holding (.word w)).mem 1) 0#32 = .word w := by
  unfold fetch
  simp only
  rw [fetchHalf_holding _ _ (by decide), fetchHalf_holding _ _ (by decide)]
  have hquad : ((Insn.word w).inst.extractLsb' (8 * (0#32 : Word).toNat) 16).extractLsb' 0 2 =
      3#2 := by
    rw [← hlow]
    ext j hj
    simp [Insn.inst]
  rw [if_pos hquad]
  congr 1
  ext j hj
  by_cases h16 : j < 16
  · simp [Insn.inst, h16, BitVec.getLsbD_eq_getElem hj]
  · simp [Insn.inst, h16, show j - 16 < 16 by omega, show 16 + (j - 16) = j by omega,
      BitVec.getLsbD_eq_getElem hj]

theorem wr_host {H : Type} (s : Purv.State H) (i : Reg) (v : Word) : (s.wr i v).host = s.host := by
  unfold Purv.State.wr
  split <;> rfl

theorem engine_fetch (i : Insn) :
    Fetchable ((holding i).mem 1) false 4#32 (engine i).programcounternext :=
  ⟨rfl, show (0#32 : Word).toNat + 2 ≤ (4#32 : Word).toNat by decide,
    fun _ => show (0#32 : Word).toNat + 4 ≤ (4#32 : Word).toNat by decide⟩

theorem engine_home (i : Insn) : Homed 1 4#32 (holding i) :=
  ⟨rfl, show (4#32 : Word).toNat ≤ RISCV_HALF.toNat by decide,
    show RISCV_HALF.toNat + (0#32 : Word).toNat ≤ 2 ^ 32 by decide⟩

theorem engine_beside (i : Insn) : Beside (engine i) (holding i) := rfl

/-- A reserved word tells the engines apart. -/
theorem parts_word {w : Word} (hq : ReservedWord w) : ¬ Agree (.word w) := by
  intro hagree
  have hop : ∀ {n : Nat}, (w.extractLsb' 0 7).toNat = n → n % 4 = 3 → w.extractLsb' 0 2 = 3#2 := by
    intro n hn hm
    apply BitVec.eq_of_toNat_eq
    rw [BitVec.extractLsb'_toNat] at hn ⊢
    show _ = 3
    omega
  have hlow : w.extractLsb' 0 2 = 3#2 := by
    cases hq with
    | shift op _ _ => exact hop op rfl
    | shiftRight op _ _ _ => exact hop op rfl
    | operation op _ _ _ => exact hop op rfl
    | jalr op _ => exact hop op rfl
  have hfetch := fetch_holding_word hlow
  obtain ⟨s', hs', hf⟩ := hagree Bool spyHooks (fun f hf => by cases hf) (engine (.word w))
    ⟨holding (.word w), []⟩ 1 4#32 (engine_beside _) rfl (engine_home _) (engine_fetch _) hfetch
  obtain ⟨hquad, hready⟩ := @fetch_word Bool spyHooks _ _ _ ⟨holding (.word w), []⟩
    (engine_beside _) (engine_home _) rfl false w (engine_fetch _) hfetch
  rw [loop_word hquad, execute_reserved (by rw [hready.word]; exact hq)] at hs'
  cases hs'
  have hhost := hf.beside.host
  obtain ⟨rd, v, o, he⟩ := reserved_writes spyHooks ⟨holding (.word w), []⟩ 0#32 hq
  rw [show oneInsn spyHooks ⟨holding (.word w), []⟩ (engine (.word w)).programcounternext
    (.word w) = _ from he] at hhost
  have hwr : (Run.wr ⟨holding (.word w), []⟩ rd v).s.host = false := wr_host _ _ _
  rw [hwr] at hhost
  cases hhost

/-- So does a reserved half. -/
theorem parts_half {c : Half} (hq : ReservedHalf c) : ¬ Agree (.half c) := by
  intro hagree
  have hsel : ∀ {n : Nat}, (c.extractLsb' 13 3).toNat * 4 + (c.extractLsb' 0 2).toNat = n →
      n % 4 ≠ 3 → c.extractLsb' 0 2 ≠ 3#2 := by
    intro n hn hm h3
    rw [h3] at hn
    exact hm (by rw [← hn, Nat.mul_add_mod_of_lt (by decide)]; rfl)
  have hlow : c.extractLsb' 0 2 ≠ 3#2 := by
    cases hq with
    | addi16sp sel _ _ => exact hsel sel (by decide)
    | lui sel _ _ => exact hsel sel (by decide)
    | shiftRight sel _ _ => exact hsel sel (by decide)
    | shift sel _ _ => exact hsel sel (by decide)
  have hfetch := fetch_holding_half hlow
  obtain ⟨s', hs', hf⟩ := hagree Bool spyHooks (fun f hf => by cases hf) (engine (.half c))
    ⟨holding (.half c), []⟩ 1 4#32 (engine_beside _) rfl (engine_home _) (engine_fetch _) hfetch
  obtain ⟨hquad, hready⟩ := @fetch_half Bool spyHooks _ _ _ ⟨holding (.half c), []⟩
    (engine_beside _) (engine_home _) rfl false c (engine_fetch _) hfetch
  rw [loop_half hquad] at hs'
  have hzero : (c.extractLsb' 13 3).toNat * 4 + (c.extractLsb' 0 2).toNat = 13 →
      decode16 (holding (.half c)).x c ≠ .illegal := by
    intro sel hdec
    obtain ⟨s'', he, hhost, hflag⟩ := executeCompressed_zero (k := machine spyHooks) hready.word sel
    rw [he] at hs'
    cases hs'
    have heq := hf.beside.host
    rw [trap_calm hready hflag, hhost, hready.beside.host] at heq
    have hone : oneInsn spyHooks ⟨holding (.half c), []⟩ 0#32 (.half c) =
        Run.raise spyHooks ⟨holding (.half c), []⟩ 0#32 (c.setWidth 32) .illegal := by
      unfold oneInsn Insn.decode
      simp only
      rw [hdec]
      rfl
    rw [show oneInsn spyHooks ⟨holding (.half c), []⟩ (engine (.half c)).programcounternext
      (.half c) = _ from hone] at heq
    cases heq
  cases hq with
  | addi16sp sel rd imm =>
    refine hzero sel ?_
    unfold decode16
    simp only [sel]
    exact (if_pos rd).trans (if_pos imm)
  | lui sel rd imm =>
    refine hzero sel ?_
    unfold decode16
    simp only [sel]
    exact (if_neg rd).trans (if_pos imm)
  | shiftRight sel f2 imm =>
    rw [executeCompressed_shift hready.word imm (.inl ⟨sel, f2⟩)] at hs'
    cases hs'
  | shift sel rd imm =>
    rw [executeCompressed_shift hready.word imm (.inr ⟨sel, rd⟩)] at hs'
    cases hs'

/-- **The engines part at exactly the reserved encodings**, and the instruction set defines none of
those. -/
theorem agree_iff (i : Insn) : (Agree i ↔ ¬ Reserved i) ∧ (Legal i → Agree i) := by
  have hiff : Agree i ↔ ¬ Reserved i := by
    constructor
    · intro hagree hq
      cases i with
      | half c => exact parts_half hq hagree
      | word w => exact parts_word hq hagree
    · intro hq H h hd s r code len hb hcalm hs hf hi
      rw [← hi] at hq ⊢
      exact riscvEmulatorLoop_follows hb hs hcalm hd hf hq
  exact ⟨hiff, fun hl => hiff.2 fun hq => hq.undefined hl⟩

end Purv.Purg

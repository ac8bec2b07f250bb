import Purv.PurvaFuel
import Purv.PurvaBudget

/-!
# Transcoded programs as images

* `transcodeEx_image` — a transcoded program is an image of its units, one after the other;
* `AtUnit` — the cursor is at the first word of a unit;
* `atUnit_op`, `atUnit_rd` — the op there, and its register;
* `step_rd` — no unit is left that writes `x0` with no guard, but for the bulk memory instruction.
-/

namespace Purv.Purva

open Bits Transcode Steps

variable {H : Type}

/-! ## Images -/

/-- The number of words is where the walk over the units ends. -/
theorem transcodeMapEx_end (code : Nat → Byte) {len : Word} (hlen : Sized len) {ext : List Word}
    {targets : Targets} (htargets : collectTargets code len ext = some targets) {map : Nat → Word}
    {n_ops : Word} (h : transcodeMapEx code len ext = some (map, n_ops)) :
    ∃ n e, iter (walk code len targets) n .start = some e ∧ len.toNat ≤ e.off.toNat ∧
      e.at_ = n_ops ∧ 4 * n_ops.toNat ≤ len.toNat := by
  have hm := hlen.mul
  have hfuel : len.toNat - Cursor.start.off.toNat + 4 ≤ 4 * loopFuel len := by
    show len.toNat - 0 + 4 ≤ 4 * (len.toNat / 4 + 2)
    omega
  obtain ⟨map', e, n, hmap, hrun, hend, -, -⟩ := buildMapFrom_spec code hlen targets
    (loopFuel len) .start (fun _ => TC_SENTINEL) (start_inv len) hfuel
  have hbuild : buildMap code len targets = some (map', e.at_) := hmap
  unfold transcodeMapEx at h
  rw [htargets] at h
  cases hbuild.symm.trans h
  obtain ⟨hinv, -⟩ := walk_run hlen (start_inv len) hrun
  have := hinv.words
  have := hinv.le
  exact ⟨n, e, hrun, hend, rfl, by omega⟩

/-- **A transcoded program is an image of its units.** -/
theorem transcodeEx_image (code : Nat → Byte) {len : Word} (hlen : Sized len) (ext : List Word) :
    ∃ targets map, ∃ m : Image, collectTargets code len ext = some targets ∧
      transcodeMapEx code len ext = some (map, m.prog.n_ops) ∧
      transcodeEx code len ext = some m.prog ∧ 4 * m.ops.length ≤ len.toNat ∧
      (∀ c, Head code len targets c → map (c.off >>> 1).toNat = c.at_ ∧
        emit c.at_ (c.unit code len targets).1 map len <+: m.ops.drop c.at_.toNat) ∧
      (∀ j, (∀ c, Head code len targets c → (c.off >>> 1).toNat ≠ j) → map j = TC_SENTINEL) ∧
      ∃ n e, iter (walk code len targets) n .start = some e ∧ len.toNat ≤ e.off.toNat ∧
        e.at_.toNat = m.ops.length := by
  obtain ⟨targets, map, ⟨ops, n_ops, code_len⟩, htargets, hmap, hprog, hcount, hheads, hrest⟩ :=
    transcodeEx_spec code hlen ext
  obtain ⟨n, e, hrun, hend, hat, hle⟩ := transcodeMapEx_end code hlen htargets hmap
  have hlt := len.isLt
  change ops.length = n_ops.toNat at hcount
  change 4 * n_ops.toNat ≤ len.toNat at hle
  have hlength : code_len = n_ops * 4#32 := by
    unfold transcodeEx at hprog
    rw [htargets] at hprog
    simp only at hprog
    split at hprog
    · cases hprog
    · obtain ⟨ws, -, heq⟩ := Option.map_eq_some_iff.mp hprog
      cases heq
      rfl
  have hn : BitVec.ofNat 32 ops.length = n_ops := by
    rw [hcount, BitVec.ofNat_toNat, BitVec.setWidth_eq]
  have hm : (⟨ops, by omega⟩ : Image).prog = ⟨ops, n_ops, code_len⟩ := by
    unfold Image.prog
    simp only
    have h4 : BitVec.ofNat 32 (4 * ops.length) = code_len := by
      rw [hlength, BitVec.ofNat_mul, hn, BitVec.mul_comm]
    rw [hn, h4]
  refine ⟨targets, map, ⟨ops, by omega⟩, htargets, ?_, ?_, by simp only; omega, hheads, hrest,
    n, e, hrun, hend, by rw [hat]; exact hcount.symm⟩
  · rw [hm]
    exact hmap
  · rw [hm]
    exact hprog

/-! ## Units -/

section
variable {code : Nat → Byte} {len : Word} {targets : Targets}

theorem unit_op_lt (c : Cursor) : (c.unit code len targets).1.op < 64 := by
  have hs : step code len c.off targets c.d =
      ((c.unit code len targets).1, (c.unit code len targets).2) := rfl
  rcases step_covers hs with ⟨hcov, -⟩ | ⟨hli | hli, -⟩ | ⟨hd, -⟩
  · exact hcov.op_ne.1
  · rw [hli]
    decide
  · rw [hli]
    decide
  · rw [hd]
    rcases foldAuipc_op c.off (decode code c.off) with h | h | h
    · rw [h]
      rcases decode_op code c.off with hop | hop
      · unfold RISCV_OP_ILLEGAL at hop
        omega
      · rw [hop]
        decide
    · rw [h]
      decide
    · rw [h]
      decide

/-- The ops whose handlers write the register of their first field with no guard. -/
def WritesRd (op : Nat) : Prop :=
  op ≤ RISCV_OP_REMU ∨ op = RISCV_OP_LUI ∨ op = RISCV_OP_AUIPC ∨ op = RISCV_OP_LI_LO ∨
    op = RISCV_OP_LI_HI ∨ (RISCV_OP_SHADD ≤ op ∧ op ≤ RISCV_OP_VCALL)

instance : DecidablePred WritesRd := fun op =>
  inferInstanceAs (Decidable (op ≤ RISCV_OP_REMU ∨ op = RISCV_OP_LUI ∨ op = RISCV_OP_AUIPC ∨
    op = RISCV_OP_LI_LO ∨ op = RISCV_OP_LI_HI ∨ (RISCV_OP_SHADD ≤ op ∧ op ≤ RISCV_OP_VCALL)))

theorem foldAuipc_rd {off : Word} {d : Dec} (hd : WritesRd d.op → d.rd ≠ 0#5)
    (hop : WritesRd (foldAuipc off d).op) : (foldAuipc off d).rd ≠ 0#5 := by
  unfold foldAuipc at hop ⊢
  by_cases ha : d.op = RISCV_OP_AUIPC
  · have hrd := hd (.inr (.inr (.inl ha)))
    rw [if_pos ha]
    simp only
    split
    · exact hrd
    · split
      · exact hrd
      · exact hrd
  · rw [if_neg ha] at hop ⊢
    exact hd hop

theorem decode_rd (off : Word) (hop : WritesRd (decode code off).op) :
    (decode code off).rd ≠ 0#5 := by
  refine (decode_fits code off).rd ?_
  rcases decode_op code off with hle | hm
  · unfold WritesRd RISCV_OP_LI_LO RISCV_OP_LI_HI RISCV_OP_SHADD at hop
    unfold RISCV_OP_ILLEGAL at hle
    rcases hop with h | h | h | h | h | h
    · exact .inl h
    · exact .inr (.inl h)
    · exact .inr (.inr h)
    · omega
    · omega
    · omega
  · rw [hm] at hop
    exact absurd hop (by decide)

theorem tryFusePair_rd {off wd : Word} {out d : Dec}
    (hf : tryFusePair code len off targets out = some (d, wd)) : d.rd ≠ 0#5 := by
  have hdec := fun hop => @decode_rd code off (.inl hop)
  unfold tryFusePair at hf
  simp only at hf
  split at hf
  · cases hf
  split at hf
  · cases hf
  split at hf
  · rename_i hd
    cases hf
    obtain ⟨ha, -, -, o, -, -, rfl⟩ := fuseShadd_some hd
    exact hdec (by rw [ha]; decide)
  split at hf
  · rename_i hd
    cases hf
    unfold fuseLwx at hd
    split at hd
    · rename_i ha
      cases hd
      exact ha.2.2.1
    · cases hd
  split at hf
  · rename_i hd
    split at hd
    case isFalse => cases hd
    rename_i ha
    obtain ⟨-, -, -, -, hrd, -⟩ := fuseLwlw_some hd 0
    split at hf
    · cases hf
      rw [hrd]
      exact ha.2
    · cases hf
      rw [hrd]
      exact ha.2
  split at hf
  · rename_i hd
    cases hf
    split at hd
    case isFalse => cases hd
    rename_i ha
    unfold fuseLwsw at hd
    split at hd
    · cases hd
      exact ha.2
    · cases hd
  split at hf
  · rename_i hd
    cases hf
    obtain ⟨-, hne, -, -, rfl⟩ := fuseBz_some hd
    exact hne
  · cases hf

theorem tryFuseLa_rd {off wd : Word} {out d : Dec}
    (hf : tryFuseLa code len off targets out = some (d, wd)) : d.rd = (decode code off).rd := by
  unfold tryFuseLa at hf
  simp only at hf
  split at hf
  · cases hf
  split at hf
  · cases hf
  split at hf
  · cases hf
  split at hf
  · cases hf
  split at hf
  · cases hf
  split at hf
  · cases hf
    rfl
  split at hf
  · cases hf
    rfl
  · cases hf

/-- **No unit is left that writes `x0` with no guard.** -/
theorem step_rd {off wd : Word} {out d : Dec} (hs : step code len off targets out = (d, wd))
    (hop : WritesRd d.op) : d.rd ≠ 0#5 := by
  unfold step at hs
  split at hs
  · rename_i hf
    subst hs
    obtain ⟨-, -, -, -, -, -, -, -, hdop, -, -⟩ := tryFusePrologue_some hf
    rw [hdop] at hop
    exact absurd hop (by decide)
  split at hs
  · rename_i hf
    subst hs
    obtain ⟨-, -, -, -, -, -, -, -, -, -, -, -, -, -, hdop, -, -⟩ := tryFuseEpilogue_some hf
    rw [hdop] at hop
    exact absurd hop (by decide)
  split at hs
  · rename_i hf
    subst hs
    obtain ⟨-, -, ha⟩ := tryFuseLa_two hf
    rw [tryFuseLa_rd hf]
    exact decode_rd off (by rw [ha]; decide)
  split at hs
  · rename_i hf
    subst hs
    exact tryFusePair_rd hf
  · cases hs
    exact foldAuipc_rd (decode_rd off) hop

/-- The first word, if there is one, has register `rd`. -/
def LeadsRd (rd : Reg) (ws : List Word) : Prop := ∀ w rest, ws = w :: rest → TC_A w = rd

theorem leadsRd_ite {rd : Reg} {P : Prop} [Decidable P] {a b : List Word} (ha : P → LeadsRd rd a)
    (hb : ¬ P → LeadsRd rd b) : LeadsRd rd (if P then a else b) := by
  split
  · rename_i hp
    exact ha hp
  · rename_i hp
    exact hb hp

theorem leadsRd_word {rd : Reg} {op : Nat} {f : Word} (ws : List Word) (hf : f.toNat < 2 ^ 21) :
    LeadsRd rd ((opField op ||| (regField rd 21 ||| f)) :: ws) := by
  intro w rest heq
  cases heq
  unfold TC_A opField regField
  apply BitVec.eq_of_getLsbD_eq
  intro i hi
  have hfi : f.getLsbD (21 + i) = false := by
    rw [BitVec.getLsbD, Nat.testBit_lt_two_pow]
    exact lt_of_lt_of_le hf (Nat.pow_le_pow_right Nat.two_pos (by omega))
  simp only [BitVec.getLsbD_extractLsb', BitVec.getLsbD_or, BitVec.getLsbD_shiftLeft, hfi,
    BitVec.getLsbD_setWidth]
  have h1 : 21 + i < 26 := by omega
  have h2 : 21 + i < 32 := by omega
  have h3 : i < 32 := by omega
  simp [h1, h2, h3, hi]

/-- Such an op is emitted in a form with that register. -/
theorem writesRd_form {op : Nat} (hop : WritesRd op) :
    ¬ (RISCV_OP_SB ≤ op ∧ op ≤ RISCV_OP_SW) ∧
      ¬ (op = RISCV_OP_PROLOGUE ∨ op = RISCV_OP_EPILOGUE) ∧
      ¬ (RISCV_OP_BEQ ≤ op ∧ op ≤ RISCV_OP_BGEU) ∧
      ((op ≤ RISCV_OP_SRA ∨ (RISCV_OP_MUL ≤ op ∧ op ≤ RISCV_OP_REMU)) ∨
        (RISCV_OP_ADDI ≤ op ∧ op ≤ RISCV_OP_SRAI) ∨ (op = RISCV_OP_LI_LO ∨ op = RISCV_OP_LI_HI) ∨
        op = RISCV_OP_SHADD ∨ op = RISCV_OP_LWX ∨ op = RISCV_OP_LWSW ∨
        (op = RISCV_OP_LWLW ∨ op = RISCV_OP_VCALL) ∨
        (op = RISCV_OP_LW_BZ ∨ op = RISCV_OP_LBU_BZ) ∨
        (op = RISCV_OP_LUI ∨ op = RISCV_OP_AUIPC)) := by
  unfold WritesRd RISCV_OP_REMU RISCV_OP_LUI RISCV_OP_AUIPC RISCV_OP_LI_LO RISCV_OP_LI_HI
    RISCV_OP_SHADD RISCV_OP_VCALL at hop
  unfold RISCV_OP_SB RISCV_OP_SW RISCV_OP_PROLOGUE RISCV_OP_EPILOGUE RISCV_OP_BEQ RISCV_OP_BGEU
    RISCV_OP_SRA RISCV_OP_MUL RISCV_OP_REMU RISCV_OP_ADDI RISCV_OP_SRAI RISCV_OP_LI_LO
    RISCV_OP_LI_HI RISCV_OP_SHADD RISCV_OP_LWX RISCV_OP_LWSW RISCV_OP_LWLW RISCV_OP_VCALL
    RISCV_OP_LW_BZ RISCV_OP_LBU_BZ RISCV_OP_LUI RISCV_OP_AUIPC
  omega

/-- **The register of an op that writes one unguarded.** -/
theorem emit_rd {at_ : Word} {d : Dec} {map : Nat → Word} {clen : Word} (hop : WritesRd d.op) :
    LeadsRd d.rd (emit at_ d map clen) := by
  have hreg : ∀ (r : Reg) {lo : Nat}, lo ≤ 16 → (regField r lo).toNat < 2 ^ 21 := by
    intro r lo hlo
    refine toNat_lt_of_bits fun i hi => ?_
    unfold regField
    rw [BitVec.getLsbD_shiftLeft, BitVec.getLsbD_setWidth,
      BitVec.getLsbD_of_ge r (i - lo) (by omega)]
    simp
  have hand : ∀ (v : Word) {m : Word}, m.toNat < 2 ^ 21 → (v &&& m).toNat < 2 ^ 21 := by
    intro v m hm
    rw [BitVec.toNat_and]
    exact lt_of_le_of_lt Nat.and_le_right hm
  have hor : ∀ {v w : Word}, v.toNat < 2 ^ 21 → w.toNat < 2 ^ 21 → (v ||| w).toNat < 2 ^ 21 := by
    intro v w hv hw
    rw [BitVec.toNat_or]
    exact Nat.or_lt_two_pow hv hw
  have hsh : ((d.imm &&& 31#32) <<< 6).toNat < 2 ^ 21 := by
    have h31 : (d.imm &&& 31#32).toNat ≤ 31 := by
      rw [BitVec.toNat_and]
      exact Nat.and_le_right
    rw [BitVec.toNat_shiftLeft, Nat.shiftLeft_eq]
    omega
  have hrs1 := hreg d.rs1 (Nat.le_refl 16)
  have hrs2 := @hreg d.rs2 11 (by decide)
  obtain ⟨hstore, hframe, hbranch, hform⟩ := writesRd_form hop
  unfold emit
  simp only [BitVec.or_assoc]
  refine leadsRd_ite (fun _ => leadsRd_word _ (hor hrs1 hrs2)) fun h1 => ?_
  refine leadsRd_ite (fun _ => leadsRd_word _ (hor hrs1 (hand _ (by decide)))) fun h2 => ?_
  refine leadsRd_ite (fun _ => leadsRd_word _ (hor hrs1 (hand _ (by decide)))) fun _ => ?_
  refine leadsRd_ite (fun hc => absurd hc hstore) fun _ => ?_
  refine leadsRd_ite (fun hc => absurd hc hframe) fun _ => ?_
  refine leadsRd_ite (fun _ => leadsRd_word _ (hand _ (by decide))) fun h6 => ?_
  refine leadsRd_ite (fun _ => leadsRd_word _ (hor hrs1 (hor hrs2 hsh))) fun h7 => ?_
  refine leadsRd_ite (fun _ => leadsRd_word _ (hor hrs1 (hor hrs2 (hand _ (by decide)))))
    fun h8 => ?_
  refine leadsRd_ite (fun _ => leadsRd_word _ (hor hrs1 (hor hrs2 (hand _ (by decide)))))
    fun h9 => ?_
  refine leadsRd_ite (fun _ => leadsRd_word _ (hor hrs1 (hor hrs2 (hand _ (by decide)))))
    fun _ => ?_
  refine leadsRd_ite (fun _ => leadsRd_word _ (hor hrs1 (hand _ (by decide)))) fun h11 => ?_
  refine leadsRd_ite (fun _ => leadsRd_word _ (hor hrs1 (hand _ (by decide)))) fun h12 => ?_
  refine leadsRd_ite (fun hc => absurd hc hbranch) fun _ => ?_
  refine leadsRd_ite (fun _ => leadsRd_word _ (hand _ (by decide))) fun _ => ?_
  refine leadsRd_ite (fun _ => leadsRd_word _ (hor hrs1 (hand _ (by decide)))) fun _ => ?_
  refine leadsRd_ite (fun _ => leadsRd_word _ (hand _ (by decide))) fun h16 => ?_
  refine leadsRd_ite (fun _ w rest heq => nomatch heq) fun _ => ?_
  rcases hform with h | h | h | h | h | h | h | h | h
  · exact absurd h h1
  · exact absurd h h2
  · exact absurd h h6
  · exact absurd h h7
  · exact absurd h h8
  · exact absurd h h9
  · exact absurd h h11
  · exact absurd h h12
  · exact absurd h h16

/-- The cursor `p` is at the first word of a unit. -/
def AtUnit (code : Nat → Byte) (len : Word) (targets : Targets) (p : Nat) : Prop :=
  ∃ c, Head code len targets c ∧ c.at_.toNat = p ∧ (c.unit code len targets).1.op ≠ RISCV_OP_NOP

/-- **At a unit there is its op.** -/
theorem atUnit_word {m : Image} {map : Nat → Word}
    (hheads : ∀ c, Head code len targets c → map (c.off >>> 1).toNat = c.at_ ∧
      emit c.at_ (c.unit code len targets).1 map len <+: m.ops.drop c.at_.toNat)
    {p : Nat} (hp : AtUnit code len targets p) :
    ∃ w, m.ops[p]? = some w ∧ (WritesRd (TC_OP w) → TC_A w ≠ 0#5) := by
  obtain ⟨c, hc, rfl, hnop⟩ := hp
  obtain ⟨-, hpre⟩ := hheads c hc
  obtain ⟨w, rest, he, hop⟩ := emit_cons c.at_ map len (unit_op_lt c) hnop
  rw [he] at hpre
  obtain ⟨tail, htail⟩ := hpre
  refine ⟨w, ?_, fun hw => ?_⟩
  · have hget : (m.ops.drop c.at_.toNat)[0]? = some w := by
      rw [← htail]
      rfl
    rwa [List.getElem?_drop, Nat.add_zero] at hget
  · rw [hop] at hw
    rw [emit_rd hw w rest he]
    exact step_rd (d := (c.unit code len targets).1) rfl hw

end

end Purv.Purva

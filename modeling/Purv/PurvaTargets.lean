import Purv.PurvaFuse
import Purv.TranscodeLayout

/-!
# Control-flow targets survive fusion and packing

* `target_head` — an address that something can jump to starts a unit;
* `Reaches`, `step_reaches` — how far from its unit a target can be;
* `displacement`, `dispatch_reloc` — what the evaluator adds to its op index when it jumps;
* `transcodeEx_targets` — the displacement in the emitted words leads to the target's own words,
  with nothing cut off.
-/

namespace Purv.Purva

open Bits Transcode Steps

variable {H : Type}

/-! ## Heads -/

/-- The addresses that must keep their own op: targets of direct jumps in the code, and the
external ones. -/
def Target (code : Nat → Byte) (len : Word) (ext : List Word) (a : Word) : Prop :=
  a ∈ ext ∨ ∃ o : Word, o.toNat % 4 = 0 ∧ o.toNat + 4 ≤ len.toNat ∧ Direct (decode code o).op ∧
    (decode code o).target = a

/-- **A target in the window is the head of a unit.** -/
theorem target_head {code : Nat → Byte} {len : Word} (hlen : Sized len) {ext : List Word}
    {targets : Targets} (htargets : collectTargets code len ext = some targets) {a : Word}
    (ha : Target code len ext a) (h4 : a.toNat % 4 = 0) (hin : a.toNat < len.toNat) :
    ∃ c, Head code len targets c ∧ c.off = a := by
  have hhas : targets.has a = true := by
    obtain ⟨t, ht, hcode, hext⟩ := collectTargets_spec code hlen ext
    rw [htargets] at ht
    cases ht
    rcases ha with ha | ⟨o, hmod, hfit, hop, rfl⟩
    · exact hext a ha hin
    · exact hcode o hmod hfit hop hin
  obtain ⟨n, c, hrun, hle, hpast⟩ : ∃ n c, iter (walk code len targets) n .start = some c ∧
      c.off.toNat ≤ a.toNat ∧ a.toNat < (c.past code len targets).off.toNat :=
    walk_covers hlen (start_inv len) (Nat.zero_le _) hin
  have hinv := (walk_run hlen (start_inv len) hrun).1
  have hlt : c.off.toNat < len.toNat := by omega
  obtain ⟨k, hu, hoff, -, -⟩ := past_spec hlen hinv code targets hlt
  refine ⟨c, ⟨⟨n, hrun⟩, (unitAt_iff hlen hinv code).2 hlt⟩, ?_⟩
  -- further inside the unit there is no target
  by_contra hne
  have hne' : c.off.toNat ≠ a.toNat := fun h => hne (BitVec.eq_of_toNat_eq h)
  have hm := hinv.mul
  have hfits := hu.fits
  have htop := hlen.top
  obtain ⟨j, hj⟩ : ∃ j, a.toNat = c.off.toNat + 4 * j := ⟨(a.toNat - c.off.toNat) / 4, by omega⟩
  have hslot : slot c.off j = a := BitVec.eq_of_toNat_eq (by rw [toNat_slot (by omega), hj])
  have hfree := hu.interior j (by omega) (by omega)
  rw [hslot, hhas] at hfree
  cases hfree

/-! ## Distances -/

theorem toInt_sext (v : Word) {n : Nat} (hn : 0 < n) (hn' : n ≤ 32) :
    -(2 ^ (n - 1) : Int) ≤ (sext v n).toInt ∧ (sext v n).toInt < 2 ^ (n - 1) := by
  have hlo := BitVec.le_toInt (v.setWidth n)
  have hhi := BitVec.toInt_lt (x := v.setWidth n)
  rw [sext_eq v n hn hn', BitVec.toInt_signExtend_of_le hn']
  exact ⟨hlo, hhi⟩

/-- The difference of two addresses below `2^30`. -/
theorem toInt_distance {a b : Word} (ha : a.toNat < 2 ^ 30) (hb : b.toNat < 2 ^ 30) :
    (a - b).toInt = (a.toNat : Int) - b.toNat := by
  rw [BitVec.toInt_sub, BitVec.toInt_eq_toNat_of_lt (by omega), BitVec.toInt_eq_toNat_of_lt (by omega)]
  exact Int.bmod_eq_of_le (by omega) (by omega)

/-- Where a decoded direct jump leads. -/
theorem decodeWord_direct {w off : Word} (hop : Direct (decodeWord w off).op) :
    ((decodeWord w off).op = RISCV_OP_JAL ∧ (decodeWord w off).target = off + jalImm w) ∨
      ((decodeWord w off).op ≠ RISCV_OP_JAL ∧ (decodeWord w off).target = off + branchImm w) := by
  have hload : ∀ f3 : BitVec 3, ¬ Direct (loadOp f3) := by decide
  have hstore : ∀ f3 : BitVec 3, ¬ Direct (storeOp f3) := by decide
  have hbranch : ∀ f3 : BitVec 3, branchOp f3 ≠ RISCV_OP_JAL := by decide
  have halu : ∀ f3 : BitVec 3, ¬ Direct (RISCV_OP_ADDI + f3.toNat) ∧
      ¬ Direct (RISCV_OP_MUL + f3.toNat) ∧ ¬ Direct (RISCV_OP_ADD + f3.toNat) := by decide
  unfold decodeWord at hop ⊢
  simp only at hop ⊢
  split at hop
  case h_1 =>
    split at hop
    · exact absurd hop (show ¬ Direct RISCV_OP_SLLI by decide)
    · split at hop
      · refine absurd hop (show ¬ Direct (if _ then RISCV_OP_SRAI else RISCV_OP_SRLI) from ?_)
        split <;> decide
      · exact absurd hop (halu _).1
  case h_2 =>
    split at hop
    · exact absurd hop (halu _).2.1
    · split at hop
      · refine absurd hop (show ¬ Direct (if _ then RISCV_OP_SUB else RISCV_OP_SRA) from ?_)
        split <;> decide
      · exact absurd hop (halu _).2.2
  case h_3 => exact absurd hop (hload _)
  case h_4 => exact absurd hop (hstore _)
  case h_5 => exact Or.inr ⟨hbranch _, rfl⟩
  case h_6 => exact Or.inl ⟨rfl, rfl⟩
  case h_7 => exact absurd hop (show ¬ Direct RISCV_OP_JALR by decide)
  case h_8 => exact absurd hop (show ¬ Direct RISCV_OP_LUI by decide)
  case h_9 => exact absurd hop (show ¬ Direct RISCV_OP_AUIPC by decide)
  case h_10 =>
    split at hop
    · exact absurd hop (show ¬ Direct RISCV_OP_MEMOP by decide)
    · exact absurd hop (show ¬ Direct RISCV_OP_ILLEGAL by decide)
  case h_11 =>
    split at hop
    · exact absurd hop (show ¬ Direct RISCV_OP_ILLEGAL by decide)
    · exact absurd hop (show ¬ Direct RISCV_OP_NOP by decide)
  case h_12 =>
    split at hop
    · exact absurd hop (show ¬ Direct RISCV_OP_ECALL by decide)
    · split at hop
      · exact absurd hop (show ¬ Direct RISCV_OP_EBREAK by decide)
      · exact absurd hop (show ¬ Direct RISCV_OP_ILLEGAL by decide)
  case h_13 => exact absurd hop (show ¬ Direct RISCV_OP_ILLEGAL by decide)

/-- A direct jump gets at most so far, around the address space. -/
theorem direct_near {code : Nat → Byte} {o : Word} (hop : Direct (decode code o).op) :
    (-(2 ^ 20) ≤ ((decode code o).target - o).toInt ∧
        ((decode code o).target - o).toInt < 2 ^ 20) ∧
      ((decode code o).op ≠ RISCV_OP_JAL →
        -(2 ^ 12) ≤ ((decode code o).target - o).toInt ∧
          ((decode code o).target - o).toInt < 2 ^ 12) := by
  have hsub : ∀ v : Word, o + v - o = v := fun v => by
    rw [BitVec.add_comm, BitVec.add_sub_cancel]
  have hfold : decode code o = decodeWord (wordAt code o) o := by
    unfold decode Dec.foldZero at hop ⊢
    split
    · rename_i hz
      rw [if_pos hz] at hop
      exact absurd hop (show ¬ Direct RISCV_OP_NOP by decide)
    · rfl
  rw [hfold] at hop ⊢
  rcases decodeWord_direct hop with ⟨hj, htarget⟩ | ⟨hj, htarget⟩
  · rw [htarget, hsub]
    exact ⟨toInt_sext _ (by decide) (by decide), fun hne => absurd hj hne⟩
  · obtain ⟨h1, h2⟩ := @toInt_sext (bits (wordAt code o) 31 1 <<< 12 |||
      bits (wordAt code o) 7 1 <<< 11 ||| bits (wordAt code o) 25 6 <<< 5 |||
      bits (wordAt code o) 8 4 <<< 1) 13 (by decide) (by decide)
    rw [htarget, hsub]
    unfold branchImm
    exact ⟨⟨by omega, by omega⟩, fun _ => ⟨h1, h2⟩⟩

/-- In code that a direct jump cannot leave around the end of the address space, it gets at most so
far. -/
theorem direct_distance {code : Nat → Byte} {o : Word} (hop : Direct (decode code o).op)
    (ho : o.toNat < 2 ^ 32 - 2 ^ 20) (ht : (decode code o).target.toNat < 2 ^ 32 - 2 ^ 20) :
    (-(2 ^ 20) ≤ ((decode code o).target.toNat : Int) - o.toNat ∧
        ((decode code o).target.toNat : Int) - o.toNat < 2 ^ 20) ∧
      ((decode code o).op ≠ RISCV_OP_JAL →
        -(2 ^ 12) ≤ ((decode code o).target.toNat : Int) - o.toNat ∧
          ((decode code o).target.toNat : Int) - o.toNat < 2 ^ 12) := by
  obtain ⟨⟨hlo, hhi⟩, hnear⟩ := direct_near hop
  have hint : ((decode code o).target - o).toInt =
      ((decode code o).target.toNat : Int) - o.toNat := by
    have hmod := BitVec.toInt_eq_toNat_cond ((decode code o).target - o)
    rw [BitVec.toNat_sub] at hmod
    have := o.isLt
    split at hmod
    · omega
    · omega
  rw [← hint]
  exact ⟨⟨hlo, hhi⟩, hnear⟩

/-- The load-and-branch ops. -/
def LoadBranch (op : Nat) : Prop := op = RISCV_OP_LW_BZ ∨ op = RISCV_OP_LBU_BZ

instance (op : Nat) : Decidable (LoadBranch op) := inferInstanceAs (Decidable (_ ∨ _))

section
variable {code : Nat → Byte} {len off : Word} {targets : Targets} {d : Dec} {u : Dec × Word}

theorem tryFusePrologue_op (hf : tryFusePrologue code len off targets d = some u) :
    u.1.op = RISCV_OP_PROLOGUE := by
  unfold tryFusePrologue at hf
  simp only at hf
  repeat' split at hf
  all_goals cases hf
  rfl

theorem tryFuseEpilogue_op (hf : tryFuseEpilogue code len off targets d = some u) :
    u.1.op = RISCV_OP_EPILOGUE := by
  unfold tryFuseEpilogue at hf
  simp only at hf
  repeat' split at hf
  all_goals cases hf
  rfl

theorem tryFuseLa_op (hf : tryFuseLa code len off targets d = some u) :
    u.1.op = RISCV_OP_LI_LO ∨ u.1.op = RISCV_OP_LI_HI := by
  unfold tryFuseLa at hf
  simp only at hf
  repeat' split at hf
  all_goals cases hf
  · exact Or.inl rfl
  · exact Or.inr rfl

/-- What a load-and-branch branches to is the target of its second instruction. -/
theorem fuseBz_target {a b out d : Dec} (hf : fuseBz a b out = some d) :
    LoadBranch d.op ∧ Direct b.op ∧ b.op ≠ RISCV_OP_JAL ∧ d.target = b.target := by
  unfold fuseBz at hf
  split at hf
  · rename_i hc
    obtain ⟨-, -, hb, -⟩ := hc
    cases hf
    refine ⟨show LoadBranch (if _ then RISCV_OP_LW_BZ else RISCV_OP_LBU_BZ) from ?_, ?_, ?_, rfl⟩
    · split <;> decide
    · rcases hb with hb | hb <;> rw [hb] <;> decide
    · rcases hb with hb | hb <;> rw [hb] <;> decide
  · cases hf

/-- A unit without a displacement. -/
def Straight (op : Nat) : Prop := ¬ Direct op ∧ ¬ LoadBranch op

instance (op : Nat) : Decidable (Straight op) := inferInstanceAs (Decidable (_ ∧ _))

/-- A load-and-branch at `off` goes where the branch behind its load goes. -/
structure BranchBehind (code : Nat → Byte) (len off : Word) (d : Dec) : Prop where
  op : LoadBranch d.op
  fits : ¬ off + 8#32 > len
  direct : Direct (decode code (off + 4#32)).op
  branch : (decode code (off + 4#32)).op ≠ RISCV_OP_JAL
  target : d.target = (decode code (off + 4#32)).target

/-- Of the fused pairs only the load-and-branch ones have a displacement. -/
theorem tryFusePair_target (hf : tryFusePair code len off targets d = some u) :
    Straight u.1.op ∨ BranchBehind code len off u.1 := by
  unfold tryFusePair at hf
  split at hf
  · cases hf
  rename_i h8
  split at hf
  · cases hf
  simp only at hf
  split at hf
  · rename_i d' hd'
    cases hf
    obtain ⟨-, -, -, o, -, -, rfl⟩ := fuseShadd_some hd'
    exact Or.inl (show Straight RISCV_OP_SHADD by decide)
  split at hf
  · rename_i d' hd'
    cases hf
    unfold fuseLwx at hd'
    split at hd'
    · cases hd'
      exact Or.inl (show Straight RISCV_OP_LWX by decide)
    · cases hd'
  split at hf
  · rename_i d' hd'
    split at hf
    · cases hf
      exact Or.inl (show Straight RISCV_OP_VCALL by decide)
    · cases hf
      split at hd'
      · unfold fuseLwlw at hd'
        split at hd'
        · cases hd'
          exact Or.inl (show Straight RISCV_OP_LWLW by decide)
        · cases hd'
      · cases hd'
  split at hf
  · rename_i d' hd'
    cases hf
    split at hd'
    · unfold fuseLwsw at hd'
      split at hd'
      · cases hd'
        exact Or.inl (show Straight RISCV_OP_LWSW by decide)
      · cases hd'
    · cases hd'
  split at hf
  · rename_i d' hd'
    cases hf
    obtain ⟨h1, h2, h3, h4⟩ := fuseBz_target hd'
    exact Or.inr ⟨h1, h8, h2, h3, h4⟩
  · cases hf

/-- A lone instruction, with its `auipc` folded. -/
theorem foldAuipc_target (code : Nat → Byte) (off : Word) :
    Straight (foldAuipc off (decode code off)).op ∨
      (Direct (decode code off).op ∧ foldAuipc off (decode code off) = decode code off) := by
  by_cases hop : (decode code off).op = RISCV_OP_AUIPC
  · left
    rcases foldAuipc_op off (decode code off) with h | h | h
    · rw [h, hop]
      decide
    · rw [h]
      decide
    · rw [h]
      decide
  · have hsame : foldAuipc off (decode code off) = decode code off := by
      unfold foldAuipc
      rw [if_neg hop]
    rw [hsame]
    by_cases hd : Direct (decode code off).op
    · exact Or.inr ⟨hd, rfl⟩
    · refine Or.inl ⟨hd, ?_⟩
      rintro (h | h)
      · rcases decode_op code off with hle | hle
        · rw [h] at hle
          exact absurd hle (by decide)
        · rw [h] at hle
          exact absurd hle (by decide)
      · rcases decode_op code off with hle | hle
        · rw [h] at hle
          exact absurd hle (by decide)
        · rw [h] at hle
          exact absurd hle (by decide)

/-- **The units with a displacement**: direct jumps as decoded, and load-and-branches. -/
theorem step_target (code : Nat → Byte) (len off : Word) (targets : Targets) (d : Dec) :
    Straight (step code len off targets d).1.op ∨
      (Direct (decode code off).op ∧ (step code len off targets d).1 = decode code off) ∨
      BranchBehind code len off (step code len off targets d).1 := by
  unfold step
  split
  · rename_i hf
    rw [tryFusePrologue_op hf]
    exact Or.inl (by decide)
  split
  · rename_i hf
    rw [tryFuseEpilogue_op hf]
    exact Or.inl (by decide)
  split
  · rename_i hf
    left
    rcases tryFuseLa_op hf with h | h
    · rw [h]
      decide
    · rw [h]
      decide
  split
  · rename_i hf
    rcases tryFusePair_target hf with h | h
    · exact Or.inl h
    · exact Or.inr (Or.inr h)
  · rcases foldAuipc_target code off with h | h
    · exact Or.inl h
    · exact Or.inr (Or.inl h)

end

/-! ## Displacements -/

/-- What the handler of a jump adds to its op index. -/
def displacement (w w2 : Word) : Word :=
  if TC_OP w = RISCV_OP_JAL then (TC_JOFF w).sshiftRight 2
  else if LoadBranch (TC_OP w) then w2.sshiftRight 2
  else (TC_IMM w).sshiftRight 2

theorem hBranch_reloc {r : Run H} {p w idx : Word} {taken : Bool}
    (hj : (hBranch r p w taken).2.2 = .reloc idx) : idx = p + (TC_IMM w).sshiftRight 2 := by
  unfold hBranch at hj
  simp only at hj
  split at hj
  · injection hj with hj
    exact hj.symm
  · cases hj

theorem hLoadBz_reloc {h : Hooks H} {r : Run H} {p w w2 idx : Word} {T : CType}
    (hj : (hLoadBz h r p w w2 T).2.2 = .reloc idx) : idx = p + w2.sshiftRight 2 := by
  unfold hLoadBz at hj
  simp only at hj
  split at hj
  · injection hj with hj
    exact hj.symm
  · cases hj

/-- **A jump of the evaluator lands at its displacement.** -/
theorem dispatch_reloc {h : Hooks H} {r : Run H} {p w w2 idx : Word}
    (hj : (dispatch h r p w w2).2.2 = .reloc idx) : idx = p + displacement w w2 := by
  have hbr : ∀ op, TC_OP w = op → op ≠ RISCV_OP_JAL → ¬ LoadBranch op →
      displacement w w2 = (TC_IMM w).sshiftRight 2 := fun op hop h1 h2 => by
    unfold displacement
    rw [hop, if_neg h1, if_neg h2]
  have hbz : ∀ op, TC_OP w = op → op ≠ RISCV_OP_JAL → LoadBranch op →
      displacement w w2 = w2.sshiftRight 2 := fun op hop h1 h2 => by
    unfold displacement
    rw [hop, if_neg h1, if_pos h2]
  unfold dispatch at hj
  simp only at hj
  split at hj
  all_goals rename_i hop
  -- every other handler falls through, jumps indirectly or traps
  all_goals try (simp only [reduceCtorEq] at hj; done)
  case h_42 =>
    have hidx := Goto.reloc.inj hj
    unfold displacement
    rw [if_pos (show TC_OP w = RISCV_OP_JAL from hop)]
    exact hidx.symm
  case h_59 =>
    unfold hTrap at hj
    simp only [reduceCtorEq] at hj
  case h_54 | h_55 =>
    rw [hbz _ hop (by decide) (by decide)]
    exact hLoadBz_reloc hj
  all_goals
    rw [hbr _ hop (by decide) (by decide)]
    exact hBranch_reloc hj

/-- An exact multiple of four, shifted back. -/
theorem toInt_sshiftRight_two {v : Word} {k : Int} (hv : v.toInt = 4 * k) :
    (v.sshiftRight 2).toInt = k := by
  rw [BitVec.toInt_sshiftRight, Int.shiftRight_eq_div_pow, hv]
  omega

/-- **The emitted displacement**, when it fits its field: 16 bits of a branch, 21 of a `JAL`, and
the second word of a load-and-branch. -/
theorem displacement_emit (at_ : Word) (map : Nat → Word) (len : Word) {d : Dec}
    (hop : Direct d.op ∨ LoadBranch d.op)
    (hjal : d.op = RISCV_OP_JAL → -(2 ^ 20) ≤ (delta4 at_ d map len).toInt ∧
      (delta4 at_ d map len).toInt < 2 ^ 20)
    (hbranch : Direct d.op → d.op ≠ RISCV_OP_JAL → -(2 ^ 15) ≤ (delta4 at_ d map len).toInt ∧
      (delta4 at_ d map len).toInt < 2 ^ 15) :
    ∃ w rest, emit at_ d map len = w :: rest ∧
      ∀ w2, (∀ w', rest = [w'] → w2 = w') →
        displacement w w2 = (delta4 at_ d map len).sshiftRight 2 := by
  rcases hop with (hj | hb) | hl
  · obtain ⟨hlo, hhi⟩ := hjal hj
    refine ⟨_, [], emit_jal at_ d map len hj, fun w2 _ => ?_⟩
    have hw := joff_field (show d.op < 64 by rw [hj]; decide) d.rd (delta4 at_ d map len)
    have hop : TC_OP (opField d.op ||| regField d.rd 21 |||
        (delta4 at_ d map len &&& 0x1fffff#32)) = d.op :=
      (wide_fields (by rw [hj]; decide) d.rd (by
        rw [BitVec.toNat_and]
        exact Nat.and_lt_two_pow _ (by decide))).1
    unfold displacement
    rw [hop, if_pos hj, hw, sext_eq _ 21 (by decide) (by decide),
      signExtend_setWidth (by decide) (by decide) hlo hhi]
  · have hne : d.op ≠ RISCV_OP_JAL := by
      intro h
      rw [h] at hb
      exact absurd hb.2 (by decide)
    have hnl : ¬ LoadBranch d.op := by
      rintro (h | h)
      · rw [h] at hb
        exact absurd hb.2 (by decide)
      · rw [h] at hb
        exact absurd hb.2 (by decide)
    obtain ⟨hlo, hhi⟩ := hbranch (Or.inr hb) hne
    refine ⟨_, [], emit_branch at_ d map len hb, fun w2 _ => ?_⟩
    have hlt : d.op < 64 := lt_of_le_of_lt hb.2 (by decide)
    unfold displacement
    rw [pack_op _ _ _ hlt, if_neg hne, if_neg hnl, pack_IMM,
      signExtend_setWidth (by decide) (by decide) hlo hhi]
  · have hne : d.op ≠ RISCV_OP_JAL := by rcases hl with h | h <;> rw [h] <;> decide
    have hlt : d.op < 64 := by rcases hl with h | h <;> rw [h] <;> decide
    refine ⟨_, _, emit_bz at_ d map len hl, fun w2 hw2 => ?_⟩
    unfold displacement
    rw [pack_op _ _ _ hlt, if_neg hne, if_pos hl, hw2 _ rfl]
    exact (bzWord _ _).1

/-- Between two units there are at most as many words as instructions, in the same direction. -/
theorem heads_distance {code : Nat → Byte} {len : Word} (hlen : Sized len) {targets : Targets}
    {c c' : Cursor} (hh : Head code len targets c) (hh' : Head code len targets c') :
    (0 ≤ (c'.off.toNat : Int) - c.off.toNat → 0 ≤ (c'.at_.toNat : Int) - c.at_.toNat ∧
      4 * ((c'.at_.toNat : Int) - c.at_.toNat) ≤ (c'.off.toNat : Int) - c.off.toNat) ∧
    ((c'.off.toNat : Int) - c.off.toNat ≤ 0 →
      (c'.off.toNat : Int) - c.off.toNat ≤ 4 * ((c'.at_.toNat : Int) - c.at_.toNat) ∧
      (c'.at_.toNat : Int) - c.at_.toNat ≤ 0) := by
  rcases heads_ordered hlen hh hh' with rfl | ⟨m, hr⟩ | ⟨m, hr⟩
  · exact ⟨fun _ => by omega, fun _ => by omega⟩
  · have h := heads_apart hlen hh hr
    exact ⟨fun _ => by omega, fun _ => by omega⟩
  · have h := heads_apart hlen hh' hr
    exact ⟨fun _ => by omega, fun _ => by omega⟩

/-- A word of a block that starts at index `n`. -/
theorem getD_of_prefix {b l : List Word} {n i : Nat} (hpre : b <+: l.drop n) (hi : i < b.length) :
    l.getD (n + i) 0#32 = b.getD i 0#32 := by
  obtain ⟨rest, hrest⟩ := hpre
  rw [List.getD_eq_getElem?_getD, List.getD_eq_getElem?_getD, ← List.getElem?_drop, ← hrest,
    List.getElem?_append_left hi]

/-- The displacement of a unit at `c` with a target at `c'`, as a number of words. -/
theorem delta4_toInt {code : Nat → Byte} {len : Word} {targets : Targets}
    (hlen : Sized len) {map : Nat → Word} {c c' : Cursor}
    (hh : Head code len targets c) (hh' : Head code len targets c')
    (hmap : map (c'.off >>> 1).toNat = c'.at_) {d : Dec} (htarget : d.target = c'.off)
    (hlo : -(2 ^ 20) ≤ 4 * ((c'.at_.toNat : Int) - c.at_.toNat))
    (hhi : 4 * ((c'.at_.toNat : Int) - c.at_.toNat) ≤ 2 ^ 20) :
    (delta4 c.at_ d map len).toInt = 4 * ((c'.at_.toNat : Int) - c.at_.toNat) := by
  obtain ⟨hinv, hlt⟩ := hh.inv hlen
  obtain ⟨hinv', hlt'⟩ := hh'.inv hlen
  have hw := hinv.words
  have hw' := hinv'.words
  have hne : c'.at_ ≠ TC_SENTINEL := by
    intro h
    rw [h] at hw'
    have : TC_SENTINEL.toNat = 4294967295 := rfl
    omega
  have hword : targetWord map len d.target c.at_ = c'.at_ := by
    unfold targetWord
    rw [htarget, if_neg (by rw [ge_iff_le, BitVec.le_def]; omega), hmap]
    exact if_neg hne
  unfold delta4
  rw [hword, BitVec.toInt_mul, toInt_distance (by omega) (by omega),
    show (4#32).toInt = 4 from rfl, Int.bmod_eq_of_le (by omega) (by omega)]
  omega

/-- The direct jump behind a unit with a displacement, and how far from its head it is. -/
theorem jump_behind {code : Nat → Byte} {len : Word} {targets : Targets} (hlen : Sized len)
    {c : Cursor} (hh : Head code len targets c)
    (hop : Direct (c.unit code len targets).1.op ∨ LoadBranch (c.unit code len targets).1.op) :
    ∃ o : Word, c.off.toNat ≤ o.toNat ∧ o.toNat ≤ c.off.toNat + 4 ∧ o.toNat % 4 = 0 ∧
      o.toNat + 4 ≤ len.toNat ∧ Direct (decode code o).op ∧
      (decode code o).target = (c.unit code len targets).1.target ∧
      (Direct (c.unit code len targets).1.op → o = c.off ∧
        (decode code o).op = (c.unit code len targets).1.op) := by
  obtain ⟨hinv, hlt⟩ := hh.inv hlen
  have hm := hinv.mul
  have hmul := hlen.mul
  rcases step_target code len c.off targets c.d with hs | ⟨hd, hsame⟩ | hb
  · exact absurd hop (not_or.2 hs)
  · exact ⟨c.off, Nat.le_refl _, by omega, hm, by omega, hd, congrArg Dec.target hsame.symm,
      fun _ => ⟨rfl, congrArg Dec.op hsame.symm⟩⟩
  · have hfits := hb.fits
    have h4' := toNat_add_four hlen (Nat.le_of_lt hlt)
    rw [gt_iff_lt, BitVec.not_lt, BitVec.le_def, toNat_add_eight hlen (Nat.le_of_lt hlt)] at hfits
    refine ⟨c.off + 4#32, by omega, by omega, by omega, by omega, hb.direct, hb.target.symm,
      fun hd => ?_⟩
    have hl : LoadBranch (c.unit code len targets).1.op := hb.op
    rcases hl with h | h <;> rw [h] at hd <;> exact absurd hd (by decide)

/-- **The displacement of a unit whose target is in the window** is what its target's op index
needs. -/
theorem unit_displacement {code : Nat → Byte} {len : Word} (hlen : Sized len)
    (htop : len.toNat ≤ 2 ^ 32 - 2 ^ 20) {ext : List Word} {targets : Targets}
    (htargets : collectTargets code len ext = some targets) {map : Nat → Word}
    (hheads : ∀ c, Head code len targets c → map (c.off >>> 1).toNat = c.at_) {c : Cursor}
    (hh : Head code len targets c)
    (hop : Direct (c.unit code len targets).1.op ∨ LoadBranch (c.unit code len targets).1.op)
    (h4 : (c.unit code len targets).1.target.toNat % 4 = 0)
    (hin : (c.unit code len targets).1.target.toNat < len.toNat) :
    ∃ c', Head code len targets c' ∧ c'.off = (c.unit code len targets).1.target ∧
      ∃ w rest, emit c.at_ (c.unit code len targets).1 map len = w :: rest ∧
        ∀ w2, (∀ w', rest = [w'] → w2 = w') →
          (displacement w w2).toInt = (c'.at_.toNat : Int) - c.at_.toNat := by
  obtain ⟨o, hoff, hclose, hmod, hfit, hdirect, htarget, hjal⟩ := jump_behind hlen hh hop
  obtain ⟨c', hh', hc'⟩ :=
    target_head hlen htargets (Or.inr ⟨o, hmod, hfit, hdirect, htarget⟩) h4 hin
  obtain ⟨hfar, hnear⟩ := direct_distance hdirect (by omega) (by rw [htarget]; omega)
  obtain ⟨hpos, hneg⟩ := heads_distance hlen hh hh'
  rw [htarget, ← hc'] at hfar hnear
  have hdelta := delta4_toInt hlen hh hh' (hheads c' hh') hc'.symm (by omega) (by omega)
  obtain ⟨w, rest, hemit, hdisp⟩ := displacement_emit c.at_ map len hop
    (fun hj => by
      obtain ⟨ho, -⟩ := hjal (Or.inl hj)
      rw [ho] at hfar
      rw [hdelta]
      omega)
    (fun hd hj => by
      obtain ⟨ho, hsame⟩ := hjal hd
      have hnear := hnear (by rw [hsame]; exact hj)
      rw [ho] at hnear
      rw [hdelta]
      omega)
  refine ⟨c', hh', hc', w, rest, hemit, fun w2 hw2 => ?_⟩
  rw [hdisp w2 hw2]
  exact toInt_sshiftRight_two hdelta

/-- Where a jump with that displacement lands. -/
theorem reloc_index {code : Nat → Byte} {len : Word} {targets : Targets} (hlen : Sized len)
    {c c' : Cursor} (hh : Head code len targets c) (hh' : Head code len targets c') {v : Word}
    (hv : v.toInt = (c'.at_.toNat : Int) - c.at_.toNat) : c.at_ + v = c'.at_ := by
  obtain ⟨hinv, hlt⟩ := hh.inv hlen
  obtain ⟨hinv', hlt'⟩ := hh'.inv hlen
  have hw := hinv.words
  have hw' := hinv'.words
  have := len.isLt
  apply BitVec.eq_of_toInt_eq
  rw [BitVec.toInt_add, hv, BitVec.toInt_eq_toNat_of_lt (by omega),
    BitVec.toInt_eq_toNat_of_lt (by omega)]
  rw [show (c.at_.toNat : Int) + ((c'.at_.toNat : Int) - c.at_.toNat) = c'.at_.toNat by omega]
  exact Int.bmod_eq_of_le (by omega) (by omega)

/-- **Control-flow targets survive fusion and displacement packing.**  Every target in the window
starts a unit, and what a branch, a `JAL` or a load-and-branch adds to its own op index is exactly
what its target's op index needs, so that the evaluator lands there. -/
theorem transcodeEx_targets (code : Nat → Byte) {len : Word} (hmul : len.toNat % 4 = 0)
    (htop : len.toNat ≤ 2 ^ 30) (ext : List Word) :
    ∃ targets map prog, collectTargets code len ext = some targets ∧
      transcodeMapEx code len ext = some (map, prog.n_ops) ∧
      transcodeEx code len ext = some prog ∧
      (∀ a : Word, Target code len ext a → a.toNat % 4 = 0 → a.toNat < len.toNat →
        (∃ c, Head code len targets c ∧ c.off = a) ∧ map (a >>> 1).toNat ≠ TC_SENTINEL) ∧
      ∀ c, Head code len targets c → ∀ d, d = (c.unit code len targets).1 →
        Direct d.op ∨ LoadBranch d.op → d.target.toNat % 4 = 0 → d.target.toNat < len.toNat →
        ∀ p w w2, p = map (c.off >>> 1).toNat → w = prog.ops.getD p.toNat 0#32 →
          w2 = prog.ops.getD (p.toNat + 1) 0#32 →
          (p.toNat : Int) + (displacement w w2).toInt = (map (d.target >>> 1).toNat).toNat ∧
          ∀ (h : Hooks H) (r : Run H) (idx : Word), (dispatch h r p w w2).2.2 = .reloc idx →
            idx = map (d.target >>> 1).toNat := by
  have hlen : Sized len := ⟨hmul, by omega⟩
  obtain ⟨targets, map, prog, htargets, hmap, hprog, -, hheads, -⟩ := transcodeEx_spec code hlen ext
  have hentry : ∀ c, Head code len targets c → map (c.off >>> 1).toNat ≠ TC_SENTINEL := by
    intro c hh h
    obtain ⟨hinv, hlt⟩ := hh.inv hlen
    have hw := hinv.words
    rw [← (hheads c hh).1, h] at hw
    have : TC_SENTINEL.toNat = 4294967295 := rfl
    omega
  refine ⟨targets, map, prog, htargets, hmap, hprog, ?_, ?_⟩
  · intro a ha h4 hin
    obtain ⟨c, hh, rfl⟩ := target_head hlen htargets ha h4 hin
    exact ⟨⟨c, hh, rfl⟩, hentry c hh⟩
  · rintro c hh d rfl hop h4 hin p w w2 rfl rfl rfl
    obtain ⟨c', hh', hc', w, rest, hemit, hdisp⟩ :=
      unit_displacement hlen (by omega) htargets (fun c hh => (hheads c hh).1) hh hop h4 hin
    obtain ⟨hat, hpre⟩ := hheads c hh
    rw [hemit] at hpre
    have hw : prog.ops.getD c.at_.toNat 0#32 = w := getD_of_prefix hpre (Nat.zero_lt_succ _)
    have hw2 : ∀ w', rest = [w'] → prog.ops.getD (c.at_.toNat + 1) 0#32 = w' := by
      rintro w' rfl
      exact getD_of_prefix hpre (by simp)
    have htarget' : map ((c.unit code len targets).1.target >>> 1).toNat = c'.at_ := by
      rw [← hc']
      exact (hheads c' hh').1
    rw [hat, hw, htarget']
    have hint := hdisp _ hw2
    refine ⟨by rw [hint]; omega, fun h r idx hj => ?_⟩
    rw [dispatch_reloc hj]
    exact reloc_index hlen hh hh' hint

/-- `BEQ x0, x0, 0` over one word of code. -/
theorem transcodeEx_targets_beq :
    ∃ (targets : Targets) (map : Nat → Word),
      collectTargets (fun i => [0x63, 0x00, 0x00, 0x00].getD i 0) 4#32 [] =
        some targets ∧
      (∃ c, Head (fun i => [0x63, 0x00, 0x00, 0x00].getD i 0) 4#32 targets c ∧ c.off = 0#32) ∧
      map (0#32 >>> 1 : Word).toNat ≠ TC_SENTINEL := by
  obtain ⟨targets, map, prog, htargets, -, -, hall, -⟩ :=
    @transcodeEx_targets Unit (fun i => [0x63, 0x00, 0x00, 0x00].getD i 0) 4#32 (by decide)
      (by decide) []
  exact ⟨targets, map, htargets, hall 0#32
    (Or.inr ⟨0#32, by decide, by decide, by decide, by decide⟩) (by decide) (by decide)⟩

end Purv.Purva

import Purv.PurvaFuel

/-!
# Data and code `auipc`s (`try_fuse_la`, `step`)

An `auipc` of a data address becomes a load immediate, alone or together with the `addi` behind it;
one of a code address stays an `auipc`, which `tctool.c` rewrites.

* `AddiBehind` — an `addi` that could be fused;
* `auipc_code` — an `auipc` that an offset leads from into the code is left alone;
* `auipc_data` — a load immediate loads what the instructions would have left;
* `auipc_split` — both, over all offsets, immediates and lengths.
-/

namespace Purv.Purva

open Bits Transcode

variable {H : Type}

/-- The instruction behind the one at `off` is an `addi` to the same register, and no target. -/
structure AddiBehind (code : Nat → Byte) (len off : Word) (targets : Targets) : Prop where
  fits : off + 8#32 ≤ len
  free : targets.has (off + 4#32) = false
  op : (decode code (off + 4#32)).op = RISCV_OP_ADDI
  rd : (decode code (off + 4#32)).rd = (decode code off).rd
  rs1 : (decode code (off + 4#32)).rs1 = (decode code off).rd

/-! ## The word of a load immediate -/

/-- `LI_LO` or `LI_HI` by its anchor: the op and the value above it. -/
def liAnchor (op : Nat) : Word := if op = RISCV_OP_LI_HI then RISCV_HALF else 0#32

/-- A value near its anchor comes back from 21 bits. -/
theorem li_loads {at_ : Word} {d : Dec} (map : Nat → Word) (len : Word)
    (hop : d.op = RISCV_OP_LI_LO ∨ d.op = RISCV_OP_LI_HI) {v : Word}
    (himm : d.imm = (v - liAnchor d.op) &&& 0x1fffff#32) (hnear : nearZero (v - liAnchor d.op)) :
    ∃ w, emit at_ d map len = [w] ∧ ∀ (h : Hooks H) (r : Run H) (p w2 : Word),
      dispatch h r p w w2 = (put r d.rd v, 1, .fall 1) := by
  obtain ⟨op, rd, rs1, rs2, imm, target, width⟩ := d
  simp only at hop himm hnear ⊢
  have hsext : ∀ u : Word, nearZero u = true → sext (u &&& 0x1fffff#32) 21 = u := by
    intro u hu
    obtain ⟨hlo, hhi⟩ := of_decide_eq_true hu
    have hmask : (u &&& 0x1fffff#32).setWidth 21 = u.setWidth 21 := by
      refine BitVec.eq_of_getLsbD_eq fun i hi => ?_
      rw [BitVec.getLsbD_setWidth, BitVec.getLsbD_setWidth, BitVec.getLsbD_and]
      have h1 : (0x1fffff#32).getLsbD i = true := by
        interval_cases i <;> rfl
      rw [h1, Bool.and_true]
    rw [sext_eq _ 21 (by decide) (by decide), hmask]
    exact signExtend_setWidth (by decide) (by decide) (by omega) (by omega)
  have hlt : (imm &&& 0x1fffff#32).toNat < 2 ^ 21 := by
    rw [BitVec.toNat_and]
    exact Nat.and_lt_two_pow _ (by decide)
  rcases hop with rfl | rfl
  · refine ⟨_, rfl, fun h r p w2 => ?_⟩
    obtain ⟨hw, hA, -⟩ := @wide_fields RISCV_OP_LI_LO (by decide) rd _ hlt
    have hJ := @joff_field RISCV_OP_LI_LO (by decide) rd imm
    have hanchor : v - liAnchor RISCV_OP_LI_LO = v := BitVec.sub_zero v
    rw [hanchor] at himm hnear
    rw [himm, hsext v hnear, ← himm] at hJ
    unfold RISCV_OP_LI_LO at hw hA hJ ⊢
    simp only [dispatch, hw, hA, hJ]
  · refine ⟨_, rfl, fun h r p w2 => ?_⟩
    obtain ⟨hw, hA, -⟩ := @wide_fields RISCV_OP_LI_HI (by decide) rd _ hlt
    have hJ := @joff_field RISCV_OP_LI_HI (by decide) rd imm
    have hanchor : v - liAnchor RISCV_OP_LI_HI = v - RISCV_HALF := rfl
    rw [hanchor] at himm hnear
    rw [himm, hsext _ hnear, ← himm] at hJ
    unfold RISCV_OP_LI_HI at hw hA hJ ⊢
    simp only [dispatch, hw, hA, hJ, BitVec.sub_add_cancel]

/-! ## The instructions that it replaces -/

section
variable (h : Hooks H) (r : Run H) {code : Nat → Byte} {off : Word}
  (ha : (decode code off).op = RISCV_OP_AUIPC)
include ha

theorem next_auipc (pc inst : Word) :
    (decode code off).next h r pc inst =
      (put r (decode code off).rd (pc + (decode code off).imm <<< 12), .done) := by
  have hrd := (decode_fits code off).rd (Or.inr (Or.inr ha))
  rw [put_eq hrd]
  generalize decode code off = d at ha hrd
  obtain ⟨op, rd, rs1, rs2, imm, target, width⟩ := d
  simp only at ha
  subst ha
  rfl

theorem replay_auipc : replay h code 1 r off =
    (put r (decode code off).rd (off + (decode code off).imm <<< 12), .done) := by
  rw [replay_done (by rw [ha]; decide) (next_auipc h r ha off _) rfl]
  rfl

theorem replay_la (hop : (decode code (off + 4#32)).op = RISCV_OP_ADDI)
    (hrd : (decode code (off + 4#32)).rd = (decode code off).rd)
    (hrs1 : (decode code (off + 4#32)).rs1 = (decode code off).rd) :
    replay h code 2 r off = (put r (decode code off).rd
      (off + (decode code off).imm <<< 12 + (decode code (off + 4#32)).imm), .done) := by
  have hne := (decode_fits code off).rd (Or.inr (Or.inr ha))
  have haddi : ∀ q : Run H, (decode code (off + 4#32)).next h q (off + 4#32)
      (wordAt code (off + 4#32)) = (put q (decode code off).rd
        (q.s.x (decode code off).rd + (decode code (off + 4#32)).imm), .done) := fun q => by
    rw [next_addi h q _ _ hop, hrd, hrs1, put_eq hne]
  rw [replay_done (by rw [ha]; decide) (next_auipc h r ha off _) rfl,
    replay_done (by rw [hop]; decide) (haddi _) rfl, put_x, if_pos rfl, put_put]
  rfl

end

/-! ## Which it is -/

section
variable {code : Nat → Byte} {len off : Word} {targets : Targets} {out : Dec}
  (ha : (decode code off).op = RISCV_OP_AUIPC)
include ha

/-- The unit of an `auipc`. -/
theorem step_auipc : step code len off targets out =
    (tryFuseLa code len off targets out).getD (foldAuipc off (decode code off), 4#32) := by
  unfold step
  cases hp : tryFusePrologue code len off targets out with
  | some u =>
    have hop := (tryFusePrologue_covers hp).2
    rw [ha] at hop
    cases hop
  | none =>
    cases he : tryFuseEpilogue code len off targets out with
    | some u =>
      have hop := (tryFuseEpilogue_covers he).2
      rw [ha] at hop
      cases hop
    | none =>
      cases hl : tryFuseLa code len off targets out with
      | some u => rfl
      | none =>
        cases hf : tryFusePair code len off targets out with
        | some u => exact absurd ha (tryFusePair_covers hf).2
        | none =>
          simp only [decode_width]
          rfl

/-- **An `auipc` of code is left alone.** -/
theorem auipc_code (htop : len.toNat ≤ 2 ^ 30) {lo12 : Word} (hlo : -2048 ≤ lo12.toInt)
    (hhi : lo12.toInt < 2048) (hin : off + (decode code off).imm <<< 12 + lo12 < len)
    (hnext : AddiBehind code len off targets → (decode code (off + 4#32)).imm = lo12) :
    step code len off targets out = (decode code off, 4#32) := by
  have hla : tryFuseLa code len off targets out = none := by
    unfold tryFuseLa
    simp only
    split
    · rfl
    rename_i h8
    split
    · rfl
    rename_i hfree
    rw [if_neg (by rw [ha]; decide)]
    split
    · rfl
    rename_i hb
    rw [not_or, not_or, Classical.not_not, Classical.not_not, Classical.not_not] at hb
    have himm := hnext ⟨BitVec.not_lt.mp h8, Bool.eq_false_iff.mpr hfree, hb.1, hb.2.1, hb.2.2⟩
    rw [himm, if_pos hin]
  have hfold : foldAuipc off (decode code off) = decode code off := by
    unfold foldAuipc
    rw [if_pos ha]
    generalize off + (decode code off).imm <<< 12 = val at hin
    have hval : val = val + lo12 - lo12 := (BitVec.add_sub_cancel val lo12).symm
    rw [BitVec.lt_def] at hin
    generalize val + lo12 = final at hin hval
    subst hval
    have hfinal : final.toInt = final.toNat := BitVec.toInt_eq_toNat_of_lt (by omega)
    have hsub : (final - lo12).toInt = final.toInt - lo12.toInt := by
      rw [BitVec.toInt_sub, Int.bmod_eq_of_le (by omega) (by omega)]
    have hhalf : (final - lo12 - RISCV_HALF).toInt ≤ -(2 ^ 20) - 1 ∨
        2 ^ 20 ≤ (final - lo12 - RISCV_HALF).toInt := by
      have hmin : RISCV_HALF.toInt = -(2 ^ 31) := rfl
      rw [BitVec.toInt_sub, hsub, hmin, hfinal]
      by_cases hneg : (final.toNat : Int) - lo12.toInt < 0
      · right
        rw [Int.bmod_eq_of_le (by omega) (by omega)]
        omega
      · left
        have hshift : (final.toNat : Int) - lo12.toInt - -(2 ^ 31) =
            ((final.toNat : Int) - lo12.toInt - 2 ^ 31) + (2 ^ 32 : Nat) := by
          push_cast
          ring
        rw [hshift, Int.add_bmod_right, Int.bmod_eq_of_le (by omega) (by omega)]
        omega
    simp only
    rw [if_neg (by rw [hsub]; omega)]
    have hfar : ¬ nearZero (final - lo12 - RISCV_HALF) = true := by
      intro hn
      have := of_decide_eq_true hn
      omega
    rw [if_neg hfar]
  rw [step_auipc ha, hla, hfold]
  rfl

/-- The value of a load immediate, and the unit that it stands for: the `auipc`, or the `auipc` and
the `addi` behind it. -/
theorem auipc_value {d : Dec} {wd : Word} (hs : step code len off targets out = (d, wd))
    (hop : d.op = RISCV_OP_LI_LO ∨ d.op = RISCV_OP_LI_HI) :
    ∃ v, d.rd = (decode code off).rd ∧ d.imm = (v - liAnchor d.op) &&& 0x1fffff#32 ∧
      nearZero (v - liAnchor d.op) ∧
      (wd = 4#32 ∧ v = off + (decode code off).imm <<< 12 ∨
        wd = 8#32 ∧ AddiBehind code len off targets ∧
          v = off + (decode code off).imm <<< 12 + (decode code (off + 4#32)).imm) := by
  rw [step_auipc ha] at hs
  cases hl : tryFuseLa code len off targets out with
  | some u =>
    rw [hl] at hs
    cases hs
    unfold tryFuseLa at hl
    simp only at hl
    split at hl
    · cases hl
    rename_i h8
    split at hl
    · cases hl
    rename_i htgt
    rw [if_neg (by rw [ha]; decide)] at hl
    split at hl
    · cases hl
    rename_i hb
    rw [not_or, not_or, Classical.not_not, Classical.not_not, Classical.not_not] at hb
    have hbehind : AddiBehind code len off targets :=
      ⟨BitVec.not_lt.1 h8, Bool.eq_false_iff.2 htgt, hb.1, hb.2.1, hb.2.2⟩
    split at hl
    · cases hl
    split at hl
    · rename_i hnear
      cases hl
      refine ⟨_, rfl, (congrArg (· &&& 0x1fffff#32) (BitVec.sub_zero _)).symm, ?_,
        .inr ⟨rfl, hbehind, rfl⟩⟩
      exact (congrArg nearZero (BitVec.sub_zero _)).trans hnear
    split at hl
    · rename_i hnear
      cases hl
      exact ⟨_, rfl, rfl, hnear, .inr ⟨rfl, hbehind, rfl⟩⟩
    · cases hl
  | none =>
    rw [hl] at hs
    cases hs
    unfold foldAuipc at hop ⊢
    rw [if_pos ha] at hop ⊢
    simp only at hop ⊢
    generalize off + (decode code off).imm <<< 12 = val at hop ⊢
    split
    · rename_i hnear
      refine ⟨val, rfl, (congrArg (· &&& 0x1fffff#32) (BitVec.sub_zero _)).symm, ?_,
        .inl ⟨trivial, rfl⟩⟩
      refine (congrArg nearZero (BitVec.sub_zero _)).trans (decide_eq_true ?_)
      omega
    · rename_i hlo
      rw [if_neg hlo] at hop
      split
      · rename_i hnear
        exact ⟨val, rfl, rfl, hnear, .inl ⟨trivial, rfl⟩⟩
      · rename_i hfar
        rw [if_neg hfar, ha] at hop
        exact absurd hop (by decide)

/-- **A load immediate loads what the instructions would have left.** -/
theorem auipc_data {d : Dec} {wd : Word} (hs : step code len off targets out = (d, wd))
    (hop : d.op = RISCV_OP_LI_LO ∨ d.op = RISCV_OP_LI_HI) (at_ : Word) (map : Nat → Word)
    (clen : Word) :
    ∃ w, emit at_ d map clen = [w] ∧ ∀ (h : Hooks H) (r : Run H) (p w2 : Word),
      dispatch h r p w w2 = ((replay h code (wd.toNat / 4) r off).1, 1, .fall 1) ∧
        (replay h code (wd.toNat / 4) r off).2 = .done := by
  obtain ⟨v, hrd, himm, hnear, hv⟩ := auipc_value ha hs hop
  have hreplay : ∀ (h : Hooks H) (r : Run H),
      replay h code (wd.toNat / 4) r off = (put r d.rd v, .done) := by
    intro h r
    rw [hrd]
    rcases hv with ⟨rfl, rfl⟩ | ⟨rfl, hb, rfl⟩
    · exact replay_auipc h r ha
    · exact replay_la h r ha hb.op hb.rd hb.rs1
  obtain ⟨w, he, hw⟩ := @li_loads H at_ d map clen hop v himm hnear
  refine ⟨w, he, fun h r p w2 => ?_⟩
  rw [hw, hreplay h r]
  exact ⟨rfl, rfl⟩

end

/-- **Data and code `auipc`s are told apart.**  An `auipc` whose value is a 12-bit offset away from
the code stays one, unless it is fused with an `addi` of another offset; and where a load immediate
takes its place, it loads the value that the `auipc`, or the `auipc` and the `addi`, compute at
`off`. -/
theorem auipc_split (code : Nat → Byte) {len off : Word} (htop : len.toNat ≤ 2 ^ 30)
    (targets : Targets) (out : Dec) (ha : (decode code off).op = RISCV_OP_AUIPC) :
    (∀ lo12 : Word, -2048 ≤ lo12.toInt → lo12.toInt < 2048 →
      off + (decode code off).imm <<< 12 + lo12 < len →
      (AddiBehind code len off targets → (decode code (off + 4#32)).imm = lo12) →
      step code len off targets out = (decode code off, 4#32)) ∧
    ∀ d wd, step code len off targets out = (d, wd) →
      d.op = RISCV_OP_LI_LO ∨ d.op = RISCV_OP_LI_HI → ∀ (at_ : Word) (map : Nat → Word) clen,
      ∃ w, emit at_ d map clen = [w] ∧ ∀ (h : Hooks H) (r : Run H) (p w2 : Word),
        dispatch h r p w w2 = ((replay h code (wd.toNat / 4) r off).1, 1, .fall 1) ∧
          (replay h code (wd.toNat / 4) r off).2 = .done :=
  ⟨fun _ hlo hhi hin hnext => auipc_code ha htop hlo hhi hin hnext,
    fun _ _ hs hop at_ map clen => auipc_data ha hs hop at_ map clen⟩

/-- A use of `auipc_split`: `auipc x5, 0` alone. -/
theorem auipc_split_alone :
    step (fun i => (0x297#32).extractLsb' (8 * i) 8) 4#32 0#32 ⟨fun _ => false, 1#32⟩ .zero =
      (decode (fun i => (0x297#32).extractLsb' (8 * i) 8) 0#32, 4#32) := by
  refine (auipc_split (H := Unit) (fun i => (0x297#32).extractLsb' (8 * i) 8) (by decide) _ _
    (by decide)).1 0#32 (by decide) (by decide) (by decide) fun hb => ?_
  exact absurd hb.fits (by decide)

/-- `auipc x5, 0; addi x5, x5, -4` at the start of 8 bytes of code: 0 is in the code, and so is
`0 + 0`, but the two become a load immediate of -4. -/
theorem auipc_fused_away :
    let code : Nat → Byte := fun i => (0xffc2829300000297#64).extractLsb' (8 * i) 8
    (decode code 0#32).op = RISCV_OP_AUIPC ∧ (decode code 0#32).rd ≠ 0#5 ∧
      (0#32 : Word) + (decode code 0#32).imm <<< 12 + 0#32 < 8#32 ∧
      (step code 8#32 0#32 ⟨fun _ => false, 2#32⟩ .zero).1.op = RISCV_OP_LI_LO := by
  decide

end Purv.Purva

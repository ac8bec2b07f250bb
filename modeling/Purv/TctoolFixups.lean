import Purv.PurvaFuel
import Purv.Tctool
import Purv.Lib.Folds

/-!
# Fixups of code addresses (`apply_pcrel_code_fixups`)

A pair of an `auipc` and an instruction that completes it is rewritten, in the op words, to lead
from the op of the one to the op of the target.

* `Completes` — the instructions that add a lo12;
* `op_apart` — instructions that are not dropped have words of their own;
* `hiWord`, `loWord` — the two words of a pair after the rewriting;
* `fixup_step`, `fixups_run` — what one pair changes, and what all of them do;
* `pair_words`, `pair_value` — the words of a pair at the end, and what they compute;
* `applyPcrelCodeFixups_exact` — every pair computes the address of its target's op.
-/

namespace Purv.Tctool

open Bits Transcode Steps

/-! ## Words of instructions -/

/-- A load, a store, a `jalr` or an `addi`. -/
def Completes (op : Nat) : Prop :=
  op = RISCV_OP_ADDI ∨ (RISCV_OP_LB ≤ op ∧ op ≤ RISCV_OP_SW) ∨ op = RISCV_OP_JALR

section
variable {code : Nat → Byte} {len : Word} {targets : Targets}

/-- Only a `NOP` is dropped. -/
theorem unit_nop {c : Cursor} (hop : (decode code c.off).op ≠ RISCV_OP_NOP) :
    (c.unit code len targets).1.op ≠ RISCV_OP_NOP := by
  intro hnop
  have hs : step code len c.off targets c.d =
      ((c.unit code len targets).1, (c.unit code len targets).2) := rfl
  rcases Purva.step_covers hs with ⟨hcov, -⟩ | ⟨hli, -, -⟩ | ⟨hd, -⟩
  · exact hcov.op_ne.2 hnop
  · rw [hnop] at hli
    revert hli
    decide
  · rw [hd] at hnop
    rcases foldAuipc_op c.off (decode code c.off) with h | h | h
    · exact hop (h.symm.trans hnop)
    · rw [h] at hnop
      cases hnop
    · rw [h] at hnop
      cases hnop

/-- **Instructions that are not dropped have words of their own.** -/
theorem op_apart (hlen : Sized len) {c c' : Cursor} (hh : Head code len targets c)
    (hh' : Head code len targets c') (hop : (decode code c.off).op ≠ RISCV_OP_NOP)
    (hop' : (decode code c'.off).op ≠ RISCV_OP_NOP) (hat : c.at_ = c'.at_) : c = c' := by
  have hlater : ∀ {a b : Cursor}, Head code len targets a →
      (decode code a.off).op ≠ RISCV_OP_NOP →
      (∃ m, iter (walk code len targets) m (a.past code len targets) = some b) →
      a.at_.toNat < b.at_.toNat := by
    intro a b ha hopa hab
    obtain ⟨m, hm⟩ := hab
    obtain ⟨hinv, hlt⟩ := ha.inv hlen
    obtain ⟨n, -, -, hwords, hpast⟩ := past_spec hlen hinv code targets hlt
    have hone := opWords_pos (@unit_nop code len targets a hopa)
    have := (walk_run hlen hpast hm).2.2.1
    omega
  rcases heads_ordered hlen hh hh' with h | h | h
  · exact h
  · have := hlater hh hop h
    rw [hat] at this
    exact absurd this (lt_irrefl _)
  · have := hlater hh' hop' h
    rw [hat] at this
    exact absurd this (lt_irrefl _)

end

/-! ## The words of a pair -/

/-- The displacement of a pair. -/
def PcrelFixup.delta (map : Nat → Word) (fx : PcrelFixup) : Word :=
  map (fx.sym_value >>> 1).toNat * 4#32 + fx.addend - map (fx.hi_off >>> 1).toNat * 4#32

/-- The upper part of a displacement. -/
def hi20 (delta : Word) : Word := (delta + 0x800#32).sshiftRight 12

/-- The word of the `auipc`. -/
def hiWord (delta w : Word) : Word := w &&& ~~~0xfffff#32 ||| hi20 delta &&& 0xfffff#32

/-- The word of the instruction that completes it. -/
def loWord (delta w : Word) : Word := w &&& ~~~0xffff#32 ||| (delta - hi20 delta <<< 12) &&& 0xffff#32

theorem hiWord_again (delta delta' w : Word) :
    hiWord delta (hiWord delta' w) = hiWord delta w := by
  unfold hiWord
  refine BitVec.eq_of_getLsbD_eq fun i hi => ?_
  simp only [BitVec.getLsbD_or, BitVec.getLsbD_and, BitVec.getLsbD_not]
  interval_cases i <;> simp

theorem loWord_again (delta delta' w : Word) :
    loWord delta (loWord delta' w) = loWord delta w := by
  unfold loWord
  refine BitVec.eq_of_getLsbD_eq fun i hi => ?_
  simp only [BitVec.getLsbD_or, BitVec.getLsbD_and, BitVec.getLsbD_not]
  interval_cases i <;> simp

theorem hiWord_op (delta w : Word) : Purva.TC_OP (hiWord delta w) = Purva.TC_OP w := by
  unfold Purva.TC_OP
  congr 1
  refine BitVec.eq_of_getLsbD_eq fun i hi => ?_
  unfold hiWord
  simp only [BitVec.getLsbD_ushiftRight, BitVec.getLsbD_or, BitVec.getLsbD_and, BitVec.getLsbD_not]
  interval_cases i <;> simp

theorem hiWord_uimm (delta w : Word) :
    Purva.TC_UIMM (hiWord delta w) <<< 12 = hi20 delta <<< 12 := by
  unfold Purva.TC_UIMM hiWord
  refine BitVec.eq_of_getLsbD_eq fun i hi => ?_
  simp only [BitVec.getLsbD_shiftLeft, BitVec.getLsbD_or, BitVec.getLsbD_and, BitVec.getLsbD_not]
  interval_cases i <;> simp

/-- The lower part is a signed 12-bit offset. -/
theorem lo12_range (delta : Word) : -2048 ≤ (delta - hi20 delta <<< 12).toInt ∧
    (delta - hi20 delta <<< 12).toInt < 2048 := by
  have hhi : (hi20 delta <<< 12).toNat = (delta + 0x800#32).toNat / 4096 * 4096 := by
    have hshift : hi20 delta <<< 12 = ((delta + 0x800#32) >>> 12) <<< 12 := by
      unfold hi20
      refine BitVec.eq_of_getLsbD_eq fun i hi => ?_
      simp only [BitVec.getLsbD_shiftLeft, BitVec.getLsbD_sshiftRight, BitVec.getLsbD_ushiftRight]
      interval_cases i <;> simp
    rw [hshift, BitVec.toNat_shiftLeft, BitVec.toNat_ushiftRight, Nat.shiftLeft_eq,
      Nat.shiftRight_eq_div_pow]
    have := (delta + 0x800#32).isLt
    omega
  have h800 : (0x800#32 : Word).toNat = 2048 := rfl
  rw [BitVec.toNat_add, h800] at hhi
  have hlow : delta - hi20 delta <<< 12 =
      BitVec.ofNat 32 ((delta.toNat + 2048) % 4096) - 0x800#32 := by
    refine BitVec.eq_of_toNat_eq ?_
    rw [BitVec.toNat_sub, BitVec.toNat_sub, hhi, h800, BitVec.toNat_ofNat]
    have := delta.isLt
    omega
  have hsmall : (BitVec.ofNat 32 ((delta.toNat + 2048) % 4096)).toInt =
      ((delta.toNat + 2048) % 4096 : Nat) := by
    rw [BitVec.toInt_eq_toNat_of_lt (by rw [BitVec.toNat_ofNat]; omega), BitVec.toNat_ofNat,
      Nat.mod_eq_of_lt (a := (delta.toNat + 2048) % 4096) (by omega)]
  have h800i : (0x800#32 : Word).toInt = 2048 := rfl
  rw [hlow, BitVec.toInt_sub, hsmall, h800i, Int.bmod_eq_of_le (by omega) (by omega)]
  omega

theorem loWord_imm (delta w : Word) :
    Purva.TC_IMM (loWord delta w) = delta - hi20 delta <<< 12 := by
  obtain ⟨hlo, hhi⟩ := lo12_range delta
  have hfits := @Purva.signExtend_setWidth (delta - hi20 delta <<< 12) 16 (by decide) (by decide)
    (by omega) (by omega)
  refine Eq.trans ?_ hfits
  unfold Purva.TC_IMM loWord
  congr 1
  refine BitVec.eq_of_getLsbD_eq fun i hi => ?_
  simp only [BitVec.getLsbD_setWidth, BitVec.getLsbD_or, BitVec.getLsbD_and, BitVec.getLsbD_not]
  interval_cases i <;> simp

/-! ## One pair -/

/-- What a pair that is rewritten passes, and the words after it. -/
theorem applyFixup_some {map : Nat → Word} {ops ops' : List Word} {fx : PcrelFixup}
    (h : applyFixup map ops fx = some ops') :
    map (fx.hi_off >>> 1).toNat ≠ TC_SENTINEL ∧ map (fx.lo_off >>> 1).toNat ≠ TC_SENTINEL ∧
      Purva.TC_OP (ops.getD (map (fx.hi_off >>> 1).toNat).toNat 0#32) = RISCV_OP_AUIPC ∧
      ops' = (ops.set (map (fx.hi_off >>> 1).toNat).toNat
          (hiWord (fx.delta map) (ops.getD (map (fx.hi_off >>> 1).toNat).toNat 0#32))).set
        (map (fx.lo_off >>> 1).toNat).toNat
          (loWord (fx.delta map) ((ops.set (map (fx.hi_off >>> 1).toNat).toNat
            (hiWord (fx.delta map) (ops.getD (map (fx.hi_off >>> 1).toNat).toNat 0#32))).getD
              (map (fx.lo_off >>> 1).toNat).toNat 0#32)) := by
  unfold applyFixup at h
  simp only at h
  split at h
  · cases h
  rename_i hs
  rw [not_or, not_or] at hs
  split at h
  · cases h
  split at h
  · cases h
  split at h
  · cases h
  rename_i hop
  rw [Classical.not_not] at hop
  exact ⟨hs.1, hs.2.1, hop, (Option.some.inj h).symm⟩

/-- The instructions of the pairs that are rewritten are in the map. -/
theorem fixups_mapped {map : Nat → Word} {fxs : List PcrelFixup} {ops ops' : List Word}
    (h : applyPcrelCodeFixups fxs map ops = some ops') :
    ∀ fx ∈ fxs, map (fx.hi_off >>> 1).toNat ≠ TC_SENTINEL ∧
      map (fx.lo_off >>> 1).toNat ≠ TC_SENTINEL := by
  refine Folds.foldlM_mem (fun fx u v hstep => ?_) h
  obtain ⟨hhi, hlo, -, -⟩ := applyFixup_some hstep
  exact ⟨hhi, hlo⟩

/-- The index of the `auipc`'s op, and of the other one's. -/
def PcrelFixup.atHi (map : Nat → Word) (fx : PcrelFixup) : Nat := (map (fx.hi_off >>> 1).toNat).toNat

def PcrelFixup.atLo (map : Nat → Word) (fx : PcrelFixup) : Nat := (map (fx.lo_off >>> 1).toNat).toNat

/-- After some pairs, each word is the first one of a pair, the second one of a pair, or as it
was. -/
inductive Patched (map : Nat → Word) (done : List PcrelFixup) (i : Nat) (w : Word) : Word → Prop
  | hi {fx : PcrelFixup} : fx ∈ done → i = fx.atHi map → Patched map done i w (hiWord (fx.delta map) w)
  | lo {fx : PcrelFixup} : fx ∈ done → i = fx.atLo map → Patched map done i w (loWord (fx.delta map) w)
  | same : (∀ fx ∈ done, i ≠ fx.atHi map ∧ i ≠ fx.atLo map) → Patched map done i w w

section
variable {map : Nat → Word} {fxs : List PcrelFixup}
  (hapart : ∀ fx ∈ fxs, ∀ fx' ∈ fxs, fx.atHi map ≠ fx'.atLo map)
include hapart

/-- **One pair rewrites its own two words.** -/
theorem fixup_step {done : List PcrelFixup} {fx : PcrelFixup} (hdone : ∀ f ∈ done, f ∈ fxs)
    (hfx : fx ∈ fxs) {start ops ops' : List Word}
    (hops : ∀ i, i < start.length → Patched map done i (start.getD i 0#32) (ops.getD i 0#32))
    (hlength : ops.length = start.length) (h : applyFixup map ops fx = some ops') :
    ops'.length = start.length ∧
      (∀ i, i < start.length →
        Patched map (done ++ [fx]) i (start.getD i 0#32) (ops'.getD i 0#32)) ∧
      Purva.TC_OP (start.getD (fx.atHi map) 0#32) = RISCV_OP_AUIPC := by
  obtain ⟨-, -, hop, heq⟩ := applyFixup_some h
  change Purva.TC_OP (ops.getD (fx.atHi map) 0#32) = RISCV_OP_AUIPC at hop
  change ops' = (ops.set (fx.atHi map) (hiWord (fx.delta map) (ops.getD (fx.atHi map) 0#32))).set
    (fx.atLo map) (loWord (fx.delta map) ((ops.set (fx.atHi map)
      (hiWord (fx.delta map) (ops.getD (fx.atHi map) 0#32))).getD (fx.atLo map) 0#32)) at heq
  have hne := hapart fx hfx fx hfx
  have hmem : fx ∈ done ++ [fx] := List.mem_append_right done (List.mem_singleton_self fx)
  subst heq
  have hauipc : Purva.TC_OP (start.getD (fx.atHi map) 0#32) = RISCV_OP_AUIPC := by
    by_cases hi : fx.atHi map < start.length
    · have hold := hops _ hi
      generalize ops.getD (fx.atHi map) 0#32 = v at hold hop
      cases hold with
      | hi hf hi' => rwa [hiWord_op] at hop
      | lo hf hi' => exact absurd hi' (hapart fx hfx _ (hdone _ hf))
      | same _ => exact hop
    · rw [List.getD_eq_getElem?_getD, List.getElem?_eq_none (by omega)] at hop
      cases hop
  refine ⟨by rw [List.length_set, List.length_set, hlength], fun i hi => ?_, hauipc⟩
  have hold := hops i hi
  by_cases hlo : i = fx.atLo map
  · subst hlo
    have hword : ((ops.set (fx.atHi map) (hiWord (fx.delta map) (ops.getD (fx.atHi map) 0#32))).set
        (fx.atLo map) (loWord (fx.delta map) ((ops.set (fx.atHi map)
          (hiWord (fx.delta map) (ops.getD (fx.atHi map) 0#32))).getD (fx.atLo map) 0#32))).getD
            (fx.atLo map) 0#32 = loWord (fx.delta map) (ops.getD (fx.atLo map) 0#32) := by
      simp only [List.getD_eq_getElem?_getD]
      rw [List.getElem?_set_self (by rw [List.length_set]; omega), List.getElem?_set_ne hne]
      rfl
    rw [hword]
    generalize ops.getD (fx.atLo map) 0#32 = v at hold ⊢
    -- the word before it is not the first one of a pair
    cases hold with
    | hi hf hi' => exact absurd hi'.symm (hapart _ (hdone _ hf) fx hfx)
    | lo hf hi' =>
      rw [loWord_again]
      exact .lo hmem rfl
    | same _ => exact .lo hmem rfl
  · by_cases hhi : i = fx.atHi map
    · subst hhi
      have hword : ((ops.set (fx.atHi map) (hiWord (fx.delta map) (ops.getD (fx.atHi map) 0#32))).set
          (fx.atLo map) (loWord (fx.delta map) ((ops.set (fx.atHi map)
            (hiWord (fx.delta map) (ops.getD (fx.atHi map) 0#32))).getD (fx.atLo map) 0#32))).getD
              (fx.atHi map) 0#32 = hiWord (fx.delta map) (ops.getD (fx.atHi map) 0#32) := by
        simp only [List.getD_eq_getElem?_getD]
        rw [List.getElem?_set_ne (Ne.symm hne), List.getElem?_set_self (by omega)]
        rfl
      rw [hword]
      generalize ops.getD (fx.atHi map) 0#32 = v at hold ⊢
      cases hold with
      | hi hf hi' =>
        rw [hiWord_again]
        exact .hi hmem rfl
      | lo hf hi' => exact absurd hi' (hapart fx hfx _ (hdone _ hf))
      | same _ => exact .hi hmem rfl
    · have hword : ((ops.set (fx.atHi map) (hiWord (fx.delta map) (ops.getD (fx.atHi map) 0#32))).set
          (fx.atLo map) (loWord (fx.delta map) ((ops.set (fx.atHi map)
            (hiWord (fx.delta map) (ops.getD (fx.atHi map) 0#32))).getD (fx.atLo map) 0#32))).getD
              i 0#32 = ops.getD i 0#32 := by
        simp only [List.getD_eq_getElem?_getD]
        rw [List.getElem?_set_ne (Ne.symm hlo), List.getElem?_set_ne (Ne.symm hhi)]
      rw [hword]
      generalize ops.getD i 0#32 = v at hold ⊢
      cases hold with
      | hi hf hi' => exact .hi (List.mem_append_left _ hf) hi'
      | lo hf hi' => exact .lo (List.mem_append_left _ hf) hi'
      | same hnone =>
        refine .same fun f hf => ?_
        rcases List.mem_append.mp hf with hf | hf
        · exact hnone f hf
        · rw [List.mem_singleton.mp hf]
          exact ⟨hhi, hlo⟩

/-- **All the pairs**: each rewrites its own two words, and meets an `auipc` in the first one. -/
theorem fixups_run {start ops' : List Word} (h : applyPcrelCodeFixups fxs map start = some ops') :
    ops'.length = start.length ∧
      (∀ i, i < start.length → Patched map fxs i (start.getD i 0#32) (ops'.getD i 0#32)) ∧
      ∀ fx ∈ fxs, Purva.TC_OP (start.getD (fx.atHi map) 0#32) = RISCV_OP_AUIPC := by
  refine Folds.foldlM_run (fun (done : List PcrelFixup) (ops : List Word) =>
      ops.length = start.length ∧
      (∀ i, i < start.length → Patched map done i (start.getD i 0#32) (ops.getD i 0#32)) ∧
      ∀ fx ∈ done, Purva.TC_OP (start.getD (fx.atHi map) 0#32) = RISCV_OP_AUIPC)
    (fun done fx hdone ops mid hinv hmid => ?_)
    ⟨rfl, fun i _ => .same fun f hf => (nomatch hf), fun fx hfx => nomatch hfx⟩ h
  obtain ⟨hlength, hops, hauipc⟩ := hinv
  obtain ⟨hlen', hops', hop⟩ := fixup_step hapart
    (fun f hf => hdone.subset (List.mem_append_left _ hf))
    (hdone.subset (List.mem_append_right _ (List.mem_singleton_self fx))) hops hlength hmid
  refine ⟨hlen', hops', fun f hf => ?_⟩
  rcases List.mem_append.mp hf with hf | hf
  · exact hauipc f hf
  · rw [List.mem_singleton.mp hf]
    exact hop

end

/-! ## All pairs -/

/-- A list of pairs: each is an `auipc` and an instruction that completes it, and that is in no
other pair; pairs of one `auipc` share their target; the instructions that complete and the targets
are among the external targets. -/
structure FixupList (code : Nat → Byte) (len : Word) (ext : List Word) (fxs : List PcrelFixup) :
    Prop where
  hi : ∀ fx ∈ fxs, fx.hi_off.toNat % 4 = 0 ∧ fx.hi_off < len ∧
    (decode code fx.hi_off).op = RISCV_OP_AUIPC
  lo : ∀ fx ∈ fxs, fx.lo_off.toNat % 4 = 0 ∧ fx.lo_off < len ∧
    Completes (decode code fx.lo_off).op
  ext : ∀ fx ∈ fxs, fx.lo_off ∈ ext ∧ fx.sym_value ∈ ext
  one : ∀ fx ∈ fxs, ∀ fx' ∈ fxs, fx.lo_off = fx'.lo_off → fx.hi_off = fx'.hi_off
  shared : ∀ fx ∈ fxs, ∀ fx' ∈ fxs, fx.hi_off = fx'.hi_off →
    fx.sym_value = fx'.sym_value ∧ fx.addend = fx'.addend

/-- The op of the instruction at `off` is at index `at_`. -/
def OpAt (code : Nat → Byte) (len : Word) (targets : Targets) (off at_ : Word) : Prop :=
  ∃ c, Head code len targets c ∧ c.off = off ∧ c.at_ = at_ ∧
    (c.unit code len targets).1.op ≠ RISCV_OP_NOP

theorem completes_op {op : Nat} (h : Completes op) : op ≠ RISCV_OP_NOP ∧ op ≠ RISCV_OP_AUIPC := by
  unfold Completes at h
  rcases h with rfl | ⟨h1, h2⟩ | rfl
  · decide
  · unfold RISCV_OP_SW at h2
    constructor
    · rintro rfl
      exact absurd h2 (by decide)
    · rintro rfl
      exact absurd h2 (by decide)
  · decide

section
variable {code : Nat → Byte} {len : Word} (hlen : Sized len) {targets : Targets}
  {map : Nat → Word} (hheads : ∀ c, Head code len targets c → map (c.off >>> 1).toNat = c.at_)
  (hsent : ∀ j, (∀ c, Head code len targets c → (c.off >>> 1).toNat ≠ j) → map j = TC_SENTINEL)
include hlen

/-- The index of a unit is not the mark for no unit. -/
theorem head_index {c : Cursor} (hc : Head code len targets c) : c.at_ ≠ TC_SENTINEL := by
  intro hs
  have hwords := (hc.inv hlen).1.words
  have hlt := (hc.inv hlen).2
  have htop := hlen.top
  rw [hs] at hwords
  have : TC_SENTINEL.toNat = 4294967295 := rfl
  omega

include hheads hsent

/-- An instruction that the map has is the head of a unit. -/
theorem mapped_head {off : Word} (h4 : off.toNat % 4 = 0)
    (hmap : map (off >>> 1).toNat ≠ TC_SENTINEL) :
    ∃ c, Head code len targets c ∧ c.off = off ∧ map (off >>> 1).toNat = c.at_ := by
  by_contra hnone
  refine hmap (hsent _ fun c hc hoff => hnone ⟨c, hc, ?_, ?_⟩)
  · have hmul := (hc.inv hlen).1.mul
    rw [BitVec.toNat_ushiftRight, BitVec.toNat_ushiftRight, Nat.shiftRight_eq_div_pow,
      Nat.shiftRight_eq_div_pow] at hoff
    exact BitVec.eq_of_toNat_eq (by omega)
  · rw [← hoff]
    exact hheads c hc

/-- Instructions that are not dropped have different indices. -/
theorem mapped_apart {off off' : Word} (h4 : off.toNat % 4 = 0) (h4' : off'.toNat % 4 = 0)
    (hmap : map (off >>> 1).toNat ≠ TC_SENTINEL) (hmap' : map (off' >>> 1).toNat ≠ TC_SENTINEL)
    (hop : (decode code off).op ≠ RISCV_OP_NOP) (hop' : (decode code off').op ≠ RISCV_OP_NOP)
    (heq : map (off >>> 1).toNat = map (off' >>> 1).toNat) : off = off' := by
  obtain ⟨c, hc, hoff, hat⟩ := mapped_head hlen hheads hsent h4 hmap
  obtain ⟨c', hc', hoff', hat'⟩ := mapped_head hlen hheads hsent h4' hmap'
  have hcc := op_apart hlen hc hc' (by rwa [hoff]) (by rwa [hoff']) (by rw [← hat, heq, hat'])
  rw [← hoff, ← hoff', hcc]

end

section
variable {code : Nat → Byte} {len : Word} (hlen : Sized len) {ext : List Word}
  {fxs : List PcrelFixup} (hf : FixupList code len ext fxs) {targets : Targets} {map : Nat → Word}
  {prog : Transcoded}
  (hheads : ∀ c, Head code len targets c → map (c.off >>> 1).toNat = c.at_ ∧
    emit c.at_ (c.unit code len targets).1 map len <+: prog.ops.drop c.at_.toNat)
  (hsent : ∀ j, (∀ c, Head code len targets c → (c.off >>> 1).toNat ≠ j) → map j = TC_SENTINEL)

include hheads in
theorem opAt_lt {off at_ : Word} (h : OpAt code len targets off at_) :
    at_.toNat < prog.ops.length := by
  obtain ⟨c, hc, -, rfl, hop⟩ := h
  have hpre := (hheads c hc).2
  have hpos := emit_length c.at_ (c.unit code len targets).1 map len
  have hone := opWords_pos hop
  have hle := hpre.length_le
  rw [List.length_drop] at hle
  omega

variable {ops : List Word} (h : applyPcrelCodeFixups fxs map prog.ops = some ops)
include hlen hf hheads hsent h

/-- The instructions of a pair have ops. -/
theorem pair_ops {fx : PcrelFixup} (hfx : fx ∈ fxs) :
    OpAt code len targets fx.hi_off (map (fx.hi_off >>> 1).toNat) ∧
      OpAt code len targets fx.lo_off (map (fx.lo_off >>> 1).toNat) := by
  have hopat : ∀ off : Word, off.toNat % 4 = 0 → map (off >>> 1).toNat ≠ TC_SENTINEL →
      (decode code off).op ≠ RISCV_OP_NOP → OpAt code len targets off (map (off >>> 1).toNat) := by
    intro off h4 hm hop
    obtain ⟨c, hc, hoff, hat⟩ := mapped_head hlen (fun c hc => (hheads c hc).1) hsent h4 hm
    exact ⟨c, hc, hoff, hat.symm, unit_nop (by rwa [hoff])⟩
  obtain ⟨hhi, hlo⟩ := fixups_mapped h fx hfx
  refine ⟨hopat _ (hf.hi fx hfx).1 hhi ?_, hopat _ (hf.lo fx hfx).1 hlo
    (completes_op (hf.lo fx hfx).2.2).1⟩
  rw [(hf.hi fx hfx).2.2]
  decide

/-- No op is the first one of a pair and the second one of a pair. -/
theorem pairs_apart : ∀ fx ∈ fxs, ∀ fx' ∈ fxs, fx.atHi map ≠ fx'.atLo map := by
  intro fx hfx fx' hfx' heq
  have hmapped := fixups_mapped h
  have hop := (hf.hi fx hfx).2.2
  have hoff := mapped_apart hlen (fun c hc => (hheads c hc).1) hsent (hf.hi fx hfx).1
    (hf.lo fx' hfx').1 (hmapped fx hfx).1 (hmapped fx' hfx').2 (by rw [hop]; decide)
    (completes_op (hf.lo fx' hfx').2.2).1 (BitVec.eq_of_toNat_eq heq)
  rw [hoff] at hop
  exact (completes_op (hf.lo fx' hfx').2.2).2 hop

/-- **The words of a pair.** -/
theorem pair_words {fx : PcrelFixup} (hfx : fx ∈ fxs) :
    ops[fx.atHi map]? = some (hiWord (fx.delta map) (prog.ops.getD (fx.atHi map) 0#32)) ∧
      ops[fx.atLo map]? = some (loWord (fx.delta map) (prog.ops.getD (fx.atLo map) 0#32)) ∧
      Purva.TC_OP (prog.ops.getD (fx.atHi map) 0#32) = RISCV_OP_AUIPC := by
  have hheads' := fun c hc => (hheads c hc).1
  have hmapped := fixups_mapped h
  have hapart := pairs_apart hlen hf hheads hsent h
  obtain ⟨hlength, hpatched, hauipc⟩ := fixups_run hapart h
  -- indices tell the instructions apart
  have hhiop : ∀ fx ∈ fxs, (decode code fx.hi_off).op ≠ RISCV_OP_NOP := fun fx hfx => by
    rw [(hf.hi fx hfx).2.2]
    decide
  have hloop : ∀ fx ∈ fxs, (decode code fx.lo_off).op ≠ RISCV_OP_NOP := fun fx hfx =>
    (completes_op (hf.lo fx hfx).2.2).1
  have hhihi : ∀ fx ∈ fxs, ∀ fx' ∈ fxs, fx.atHi map = fx'.atHi map → fx.hi_off = fx'.hi_off :=
    fun fx hfx fx' hfx' heq => mapped_apart hlen hheads' hsent (hf.hi fx hfx).1 (hf.hi fx' hfx').1
      (hmapped fx hfx).1 (hmapped fx' hfx').1 (hhiop fx hfx) (hhiop fx' hfx')
      (BitVec.eq_of_toNat_eq heq)
  have hlolo : ∀ fx ∈ fxs, ∀ fx' ∈ fxs, fx.atLo map = fx'.atLo map → fx.lo_off = fx'.lo_off :=
    fun fx hfx fx' hfx' heq => mapped_apart hlen hheads' hsent (hf.lo fx hfx).1 (hf.lo fx' hfx').1
      (hmapped fx hfx).2 (hmapped fx' hfx').2 (hloop fx hfx) (hloop fx' hfx')
      (BitVec.eq_of_toNat_eq heq)
  -- pairs of one word have one displacement
  have hdelta : ∀ fx ∈ fxs, ∀ fx' ∈ fxs, fx.hi_off = fx'.hi_off → fx.delta map = fx'.delta map := by
    intro fx hfx fx' hfx' heq
    obtain ⟨hsym, hadd⟩ := hf.shared fx hfx fx' hfx' heq
    unfold PcrelFixup.delta
    rw [hsym, hadd, heq]
  obtain ⟨hathi, hatlo⟩ := pair_ops hlen hf hheads hsent h hfx
  have hhi : fx.atHi map < prog.ops.length := opAt_lt hheads hathi
  have hlo : fx.atLo map < prog.ops.length := opAt_lt hheads hatlo
  have hget : ∀ i, i < prog.ops.length → ops[i]? = some (ops.getD i 0#32) := by
    intro i hi
    rw [List.getD_eq_getElem?_getD, List.getElem?_eq_getElem (by omega)]
    rfl
  refine ⟨(hget _ hhi).trans (congrArg some ?_), (hget _ hlo).trans (congrArg some ?_),
    hauipc fx hfx⟩
  · have hold := hpatched (fx.atHi map) hhi
    generalize ops.getD (fx.atHi map) 0#32 = v at hold ⊢
    cases hold with
    | hi hg heq => rw [hdelta _ hg fx hfx (hhihi _ hg fx hfx heq.symm)]
    | lo hg heq => exact absurd heq (hapart fx hfx _ hg)
    | same hnone => exact absurd rfl (hnone fx hfx).1
  · have hold := hpatched (fx.atLo map) hlo
    generalize ops.getD (fx.atLo map) 0#32 = v at hold ⊢
    cases hold with
    | hi hg heq => exact absurd heq.symm (hapart _ hg fx hfx)
    | lo hg heq => rw [hdelta _ hg fx hfx (hf.one _ hg fx hfx (hlolo _ hg fx hfx heq.symm))]
    | same hnone => exact absurd rfl (hnone fx hfx).2

end

/-- **What a pair computes**: the `auipc` leaves the upper part at its own op, and the immediate of
the other instruction completes it. -/
theorem pair_value (map : Nat → Word) (fx : PcrelFixup) {w : Word} (w' : Word)
    (hop : Purva.TC_OP w = RISCV_OP_AUIPC) :
    ∃ v, (∀ (H : Type) (hk : Hooks H) (r : Run H) (w2 : Word),
        Purva.dispatch hk r (map (fx.hi_off >>> 1).toNat) (hiWord (fx.delta map) w) w2 =
          (Purva.put r (Purva.TC_A (hiWord (fx.delta map) w)) v, 1, .fall 1)) ∧
      v + Purva.TC_IMM (loWord (fx.delta map) w') =
        4#32 * map (fx.sym_value >>> 1).toNat + fx.addend := by
  refine ⟨map (fx.hi_off >>> 1).toNat <<< 2 + hi20 (fx.delta map) <<< 12, fun H hk r w2 => ?_, ?_⟩
  · have hop' := (hiWord_op (fx.delta map) w).trans hop
    unfold RISCV_OP_AUIPC at hop'
    simp only [Purva.dispatch, hop', hiWord_uimm]
  · rw [loWord_imm]
    unfold PcrelFixup.delta
    have hshift : ∀ v : Word, v <<< 2 = 4#32 * v := fun v => by
      rw [BitVec.shiftLeft_eq_mul_twoPow, BitVec.mul_comm]
      rfl
    rw [hshift, BitVec.mul_comm _ 4#32, BitVec.mul_comm _ 4#32]
    generalize 4#32 * map (fx.hi_off >>> 1).toNat = a
    generalize 4#32 * map (fx.sym_value >>> 1).toNat + fx.addend = b
    bv_omega

/-- **PC-relative fixups are exact and touch nothing else.** -/
theorem applyPcrelCodeFixups_exact {H : Type} (code : Nat → Byte) {len : Word} (hlen : Sized len)
    {ext : List Word} {fxs : List PcrelFixup} (hf : FixupList code len ext fxs)
    {map : Nat → Word} {n_ops : Word} (hmap : transcodeMapEx code len ext = some (map, n_ops))
    {prog : Transcoded} (hprog : transcodeEx code len ext = some prog) {ops : List Word}
    (h : applyPcrelCodeFixups fxs map prog.ops = some ops) :
    (∀ fx ∈ fxs, ∃ w w' v, ops[fx.atHi map]? = some w ∧ ops[fx.atLo map]? = some w' ∧
      (∀ (hk : Hooks H) (r : Run H) (w2 : Word),
        Purva.dispatch hk r (map (fx.hi_off >>> 1).toNat) w w2 =
          (Purva.put r (Purva.TC_A w) v, 1, .fall 1)) ∧
      v + Purva.TC_IMM w' = 4#32 * map (fx.sym_value >>> 1).toNat + fx.addend) ∧
    (∀ i, (∀ fx ∈ fxs, i ≠ fx.atHi map ∧ i ≠ fx.atLo map) → ops[i]? = prog.ops[i]?) ∧
    ∃ targets, collectTargets code len ext = some targets ∧ ∀ fx ∈ fxs,
      OpAt code len targets fx.hi_off (map (fx.hi_off >>> 1).toNat) ∧
      OpAt code len targets fx.lo_off (map (fx.lo_off >>> 1).toNat) := by
  obtain ⟨targets, map', prog', htargets, hmap', hprog', hcount, hheads, hsent⟩ :=
    transcodeEx_spec code hlen ext
  rw [hmap] at hmap'
  rw [hprog] at hprog'
  cases hmap'
  cases hprog'
  obtain ⟨hlength, hpatched, -⟩ := fixups_run (pairs_apart hlen hf hheads hsent h) h
  refine ⟨fun fx hfx => ?_, fun i hi => ?_, targets, htargets, fun fx hfx =>
    pair_ops hlen hf hheads hsent h hfx⟩
  · obtain ⟨hhi, hlo, hop⟩ := pair_words hlen hf hheads hsent h hfx
    obtain ⟨v, hrun, hsum⟩ := pair_value map fx (prog.ops.getD (fx.atLo map) 0#32) hop
    exact ⟨_, _, v, hhi, hlo, hrun H, hsum⟩
  · by_cases hlt : i < prog.ops.length
    · have hlt' : i < ops.length := by omega
      have hold := hpatched i hlt
      rw [List.getElem?_eq_getElem hlt', List.getElem?_eq_getElem hlt]
      rw [List.getElem_eq_getD 0#32, List.getElem_eq_getD 0#32]
      generalize ops.getD i 0#32 = v at hold ⊢
      cases hold with
      | hi hg heq => exact absurd heq (hi _ hg).1
      | lo hg heq => exact absurd heq (hi _ hg).2
      | same _ => rfl
    · rw [List.getElem?_eq_none (by omega), List.getElem?_eq_none (by omega)]

/-- A use of `applyPcrelCodeFixups_exact`: `auipc x5, 0; addi x5, x5, 0`, for the start of the
code. -/
theorem applyPcrelCodeFixups_exact_self :
    let code : Nat → Byte := fun i => (0x0002829300000297#64).extractLsb' (8 * i) 8
    let fx : PcrelFixup := ⟨0#32, 4#32, 0#32, 0#32, false⟩
    ∃ map n_ops prog ops, transcodeMapEx code 8#32 [4#32, 0#32] = some (map, n_ops) ∧
      transcodeEx code 8#32 [4#32, 0#32] = some prog ∧
      applyPcrelCodeFixups [fx] map prog.ops = some ops ∧
      ∃ w w' v, ops[fx.atHi map]? = some w ∧ ops[fx.atLo map]? = some w' ∧
        v + Purva.TC_IMM w' = 4#32 * map (fx.sym_value >>> 1).toNat + fx.addend := by
  intro code fx
  have hsome : ((transcodeMapEx code 8#32 [4#32, 0#32]).bind fun m =>
      (transcodeEx code 8#32 [4#32, 0#32]).bind fun prog =>
        applyPcrelCodeFixups [fx] m.1 prog.ops).isSome := by
    decide
  obtain ⟨ops, hops⟩ := Option.isSome_iff_exists.mp hsome
  obtain ⟨⟨map, n_ops⟩, hmap, hrest⟩ := Option.bind_eq_some_iff.mp hops
  obtain ⟨prog, hprog, h⟩ := Option.bind_eq_some_iff.mp hrest
  have hone : ∀ {P : PcrelFixup → Prop}, P fx → ∀ f ∈ [fx], P f := fun hp f hf => by
    rwa [List.mem_singleton.mp hf]
  have hf : FixupList code 8#32 [4#32, 0#32] [fx] :=
    { hi := hone (by decide)
      lo := hone ⟨by decide, by decide, Or.inl (by decide)⟩
      ext := hone (by decide)
      one := hone (hone fun _ => rfl)
      shared := hone (hone fun _ => ⟨rfl, rfl⟩) }
  obtain ⟨hexact, -, -⟩ := applyPcrelCodeFixups_exact (H := Unit) code ⟨by decide, by decide⟩ hf
    hmap hprog h
  obtain ⟨w, w', v, hw, hw', -, hv⟩ := hexact fx List.mem_cons_self
  exact ⟨map, n_ops, prog, ops, hmap, hprog, h, w, w', v, hw, hw', hv⟩

end Purv.Tctool

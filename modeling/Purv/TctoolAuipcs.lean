import Purv.TctoolFixups
import Purv.PurvaUnits
import Purv.TranscodeReads
import Purv.PurvaAuipc

/-!
# Data addresses (`resolve_data_auipc`)

An `auipc` whose relocation names a data symbol is a load immediate in the image, by the transcoder or
by the last pass of the tool.

* `Loads` — a word that loads an immediate;
* `auipc_head` — an `auipc` is at the head of a unit;
* `resolve_step`, `resolve_run` — what one relocation rewrites, and what all of them do;
* `Relocated` — the relocations are where a linker puts them;
* `translate_data` — every data reference computes its linked address, and no other word changes.
-/

namespace Purv.Tctool

open Bits Transcode Steps Purva

/-! ## Words that load an immediate -/

/-- The word loads `v` into `rd`. -/
def Loads (w : Word) (rd : Reg) (v : Word) : Prop :=
  (TC_OP w = RISCV_OP_LI_LO ∨ TC_OP w = RISCV_OP_LI_HI) ∧
    ∀ (H : Type) (h : Hooks H) (r : Run H) (p w2 : Word),
      dispatch h r p w w2 = (put r rd v, 1, .fall 1)

theorem Loads.op_ne {w v : Word} {rd : Reg} (h : Loads w rd v) : TC_OP w ≠ RISCV_OP_AUIPC := by
  rcases h.1 with h | h
  · rw [h]
    decide
  · rw [h]
    decide

theorem emit_li (at_ : Word) {d : Dec} (map : Nat → Word) (len : Word)
    (hop : d.op = RISCV_OP_LI_LO ∨ d.op = RISCV_OP_LI_HI) :
    emit at_ d map len = [opField d.op ||| regField d.rd 21 ||| (d.imm &&& 0x1fffff#32)] := by
  obtain ⟨op, rd, rs1, rs2, imm, target, width⟩ := d
  rcases hop with hop | hop
  · simp only at hop
    subst hop
    rfl
  · simp only at hop
    subst hop
    rfl

/-- A load immediate as it is emitted. -/
theorem emit_loads {at_ : Word} {d : Dec} (map : Nat → Word) (len : Word)
    (hop : d.op = RISCV_OP_LI_LO ∨ d.op = RISCV_OP_LI_HI) {v : Word}
    (himm : d.imm = (v - liAnchor d.op) &&& 0x1fffff#32) (hnear : nearZero (v - liAnchor d.op)) :
    ∃ w, emit at_ d map len = [w] ∧ Loads w d.rd v := by
  have hlt : d.op < 64 := by
    rcases hop with h | h
    · rw [h]
      decide
    · rw [h]
      decide
  obtain ⟨w, he, -⟩ := @li_loads Unit at_ d map len hop v himm hnear
  refine ⟨w, he, ?_, fun H h r p w2 => ?_⟩
  · rw [emit_op hlt w [] he]
    exact hop
  · obtain ⟨w', he', hw'⟩ := @li_loads H at_ d map len hop v himm hnear
    rw [he] at he'
    cases he'
    exact hw' h r p w2

/-! ## Heads -/

section
variable {code : Nat → Byte} {len : Word} (hlen : Sized len) {targets : Targets}
include hlen

/-- **An `auipc` is at the head of a unit.** -/
theorem auipc_head {off : Word} (h4 : off.toNat % 4 = 0) (hin : off < len)
    (hop : (decode code off).op = RISCV_OP_AUIPC) : ∃ c, Head code len targets c ∧ c.off = off := by
  have htop := hlen.top
  rw [BitVec.lt_def] at hin
  obtain ⟨n, c, hrun, hle, hpast⟩ : ∃ n c, iter (walk code len targets) n .start = some c ∧
      c.off.toNat ≤ off.toNat ∧ off.toNat < (c.past code len targets).off.toNat :=
    walk_covers hlen (start_inv len) (Nat.zero_le _) hin
  have hinv := (walk_run hlen (start_inv len) hrun).1
  have hlt : c.off.toNat < len.toNat := by omega
  obtain ⟨k, hu, hoff, -, -⟩ := past_spec hlen hinv code targets hlt
  obtain ⟨j, hs⟩ := @step_ends code len c.off targets c.d (by omega) hinv.le
  have hwidth : (c.unit code len targets).2.toNat = 4 * k := hu.width
  have hj := hs.le
  have hkj : k = j + 1 := by
    have hw : (c.unit code len targets).2 = 4#32 * BitVec.ofNat 32 (j + 1) := hs.width
    rw [hw, toNat_four_mul (by omega)] at hwidth
    omega
  refine ⟨c, ⟨⟨n, hrun⟩, (unitAt_iff hlen hinv code).2 hlt⟩, ?_⟩
  -- further inside the unit there is no `auipc`
  have hm := hinv.mul
  obtain ⟨i, hi⟩ : ∃ i, off.toNat = c.off.toNat + 4 * i := ⟨(off.toNat - c.off.toNat) / 4, by omega⟩
  have hslot : slot c.off i = off := BitVec.eq_of_toNat_eq (by rw [toNat_slot (by omega), hi])
  cases i with
  | zero => rw [← hslot, slot_zero]
  | succ i => exact absurd (hslot ▸ hop) (hs.inner (i + 1) (Nat.succ_pos i) (by omega))

/-- The words of a unit are not at the index of another one. -/
theorem words_apart {c c' : Cursor} (hh : Head code len targets c) (hh' : Head code len targets c')
    (hne : c ≠ c') (hop' : (c'.unit code len targets).1.op ≠ RISCV_OP_NOP) {i : Nat}
    (hi : i < (opWords (c.unit code len targets).1.op).toNat) :
    c.at_.toNat + i ≠ c'.at_.toNat := by
  obtain ⟨hinv, hlt⟩ := hh.inv hlen
  obtain ⟨hinv', hlt'⟩ := hh'.inv hlen
  obtain ⟨-, -, -, hat, hpast⟩ := past_spec hlen hinv code targets hlt
  obtain ⟨-, -, -, hat', hpast'⟩ := past_spec hlen hinv' code targets hlt'
  have hone := opWords_pos hop'
  rcases heads_ordered hlen hh hh' with h | ⟨m, hm⟩ | ⟨m, hm⟩
  · exact absurd h hne
  · have := (walk_run hlen hpast hm).2.2.1
    omega
  · have := (walk_run hlen hpast' hm).2.2.1
    omega

end

/-! ## One relocation -/

theorem rd_field (w : Word) : (w >>> 21 &&& 31#32) <<< 21 = regField (TC_A w) 21 := by
  unfold regField TC_A
  refine BitVec.eq_of_getLsbD_eq fun i hi => ?_
  simp only [BitVec.getLsbD_shiftLeft, BitVec.getLsbD_and, BitVec.getLsbD_ushiftRight,
    BitVec.getLsbD_setWidth, BitVec.getLsbD_extractLsb']
  interval_cases i <;> simp

/-- The word that `resolve_data_auipc` writes. -/
theorem li_word {op : Nat} (hop : op = RISCV_OP_LI_LO ∨ op = RISCV_OP_LI_HI) (w : Word) {v : Word}
    (hnear : nearZero (v - liAnchor op)) :
    Loads (opField op ||| (w >>> 21 &&& 31#32) <<< 21 ||| (v - liAnchor op) &&& 0x1fffff#32)
      (TC_A w) v := by
  obtain ⟨w', he, hw'⟩ := @emit_loads 0#32
    ⟨op, TC_A w, 0#5, 0#5, (v - liAnchor op) &&& 0x1fffff#32, 0#32, 0#32⟩ (fun _ => 0#32) 0#32 hop v
    rfl hnear
  have hmask : ∀ x : Word, x &&& 0x1fffff#32 &&& 0x1fffff#32 = x &&& 0x1fffff#32 := fun x => by
    rw [BitVec.and_assoc, BitVec.and_self]
  rw [emit_li _ _ _ hop] at he
  have hword := List.singleton_inj.1 he
  simp only [hmask] at hword
  rw [rd_field, hword]
  exact hw'

/-- What one relocation does: it finds no `auipc`, or it rewrites it. -/
theorem resolveAuipc_some {map : Nat → Word} {ops ops' : List Word} {off : Word}
    (h : resolveAuipc map ops off = some ops') (hmap : map (off >>> 1).toNat ≠ TC_SENTINEL) :
    (TC_OP (ops.getD (map (off >>> 1).toNat).toNat 0#32) ≠ RISCV_OP_AUIPC ∧ ops' = ops) ∨
      TC_OP (ops.getD (map (off >>> 1).toNat).toNat 0#32) = RISCV_OP_AUIPC ∧
        ∃ v, ops' = ops.set (map (off >>> 1).toNat).toNat v ∧
          Loads v (TC_A (ops.getD (map (off >>> 1).toNat).toNat 0#32))
            (off + TC_UIMM (ops.getD (map (off >>> 1).toNat).toNat 0#32) <<< 12) := by
  unfold resolveAuipc at h
  simp only at h
  generalize ops.getD (map (off >>> 1).toNat).toNat 0#32 = w at h ⊢
  split at h
  · rename_i hno
    rcases hno with hno | hno
    · exact absurd hno hmap
    · exact .inl ⟨hno, (Option.some.inj h).symm⟩
  · rename_i hop
    rw [not_or, Classical.not_not] at hop
    refine .inr ⟨hop.2, ?_⟩
    split at h
    · rename_i hnear
      refine ⟨_, (Option.some.inj h).symm, ?_⟩
      have hzero : ∀ v : Word, v - liAnchor RISCV_OP_LI_LO = v := fun v => BitVec.sub_zero v
      have hli := @li_word RISCV_OP_LI_LO (.inl rfl) w (off + TC_UIMM w <<< 12) (by
        rw [hzero]
        unfold nearZero TC_UIMM
        exact decide_eq_true (by omega))
      rw [hzero] at hli
      exact hli
    · split at h
      · rename_i hnear
        refine ⟨_, (Option.some.inj h).symm, ?_⟩
        have hhalf : ∀ v : Word, v - liAnchor RISCV_OP_LI_HI = v - RISCV_HALF := fun _ => rfl
        have hli := @li_word RISCV_OP_LI_HI (.inr rfl) w (off + TC_UIMM w <<< 12) (by
          rw [hhalf]
          unfold nearZero TC_UIMM
          exact decide_eq_true (by omega))
        rw [hhalf] at hli
        exact hli
      · cases h

/-! ## All of them -/

/-- After some relocations, each word is a load immediate that has taken the place of an `auipc`, or
it is as it was. -/
inductive Resolved (map : Nat → Word) (done : List Word) (i : Nat) (w : Word) : Word → Prop
  | li {off v : Word} : off ∈ done → i = (map (off >>> 1).toNat).toNat →
      TC_OP w = RISCV_OP_AUIPC → Loads v (TC_A w) (off + TC_UIMM w <<< 12) → Resolved map done i w v
  | same : (∀ off ∈ done, i = (map (off >>> 1).toNat).toNat → TC_OP w ≠ RISCV_OP_AUIPC) →
      Resolved map done i w w

section
variable {map : Nat → Word}

/-- **One relocation rewrites its own word.** -/
theorem resolve_step {done : List Word} {off : Word}
    (hmap : map (off >>> 1).toNat ≠ TC_SENTINEL) {start ops ops' : List Word}
    (hops : ∀ i, i < start.length → Resolved map done i (start.getD i 0#32) (ops.getD i 0#32))
    (hlength : ops.length = start.length) (h : resolveAuipc map ops off = some ops') :
    ops'.length = start.length ∧ ∀ i, i < start.length →
      Resolved map (done ++ [off]) i (start.getD i 0#32) (ops'.getD i 0#32) := by
  have hmem : off ∈ done ++ [off] := List.mem_append_right done (List.mem_singleton_self off)
  -- a word that this relocation does not rewrite
  have hkeep : ∀ i w v, Resolved map done i w v →
      (i = (map (off >>> 1).toNat).toNat → TC_OP v ≠ RISCV_OP_AUIPC) →
      Resolved map (done ++ [off]) i w v := by
    intro i w v hold hne
    cases hold with
    | li ho hi hop hv => exact .li (List.mem_append_left _ ho) hi hop hv
    | same hnone =>
      refine .same fun o ho hi => ?_
      rcases List.mem_append.mp ho with ho | ho
      · exact hnone o ho hi
      · rw [List.mem_singleton.mp ho] at hi
        exact hne hi
  rcases resolveAuipc_some h hmap with ⟨hop, rfl⟩ | ⟨hop, v, rfl, hv⟩
  · exact ⟨hlength, fun i hi => hkeep i _ _ (hops i hi) fun heq => heq ▸ hop⟩
  · refine ⟨by rw [List.length_set, hlength], fun i hi => ?_⟩
    by_cases heq : i = (map (off >>> 1).toNat).toNat
    · subst heq
      have hold := hops _ hi
      have hword : (ops.set (map (off >>> 1).toNat).toNat v).getD (map (off >>> 1).toNat).toNat
          0#32 = v := by
        rw [List.getD_eq_getElem?_getD, List.getElem?_set_self (by omega)]
        rfl
      rw [hword]
      generalize ops.getD (map (off >>> 1).toNat).toNat 0#32 = u at hold hop hv
      cases hold with
      | li ho hi' hop' hu => exact absurd hop hu.op_ne
      | same _ => exact .li hmem rfl hop hv
    · have hword : (ops.set (map (off >>> 1).toNat).toNat v).getD i 0#32 = ops.getD i 0#32 := by
        rw [List.getD_eq_getElem?_getD, List.getElem?_set_ne (Ne.symm heq),
          ← List.getD_eq_getElem?_getD]
      rw [hword]
      exact hkeep i _ _ (hops i hi) fun h => absurd h heq

/-- **All the relocations**: each rewrites its own word. -/
theorem resolve_run {start ops' : List Word} {offs : List Word}
    (hmap : ∀ off ∈ offs, map (off >>> 1).toNat ≠ TC_SENTINEL)
    (h : offs.foldlM (resolveAuipc map) start = some ops') :
    ops'.length = start.length ∧ ∀ i, i < start.length →
      Resolved map offs i (start.getD i 0#32) (ops'.getD i 0#32) := by
  refine Folds.foldlM_run (fun (done ops : List Word) => ops.length = start.length ∧
      ∀ i, i < start.length → Resolved map done i (start.getD i 0#32) (ops.getD i 0#32))
    (fun done off hdone ops mid hinv hmid => ?_) ⟨rfl, fun i _ => .same fun o ho => nomatch ho⟩ h
  have hoff := hdone.subset (List.mem_append_right _ (List.mem_singleton_self off))
  exact resolve_step (hmap off hoff) hinv.2 hinv.1 hmid

end

/-! ## The relocations of a file -/

/-- The relocations, with their sections. -/
def Elf.relocs (eh : Elf) : List (Shdr × Rela) :=
  eh.shdrs.flatMap fun sh => sh.relas.map fun r => (sh, r)

theorem mem_relocs {eh : Elf} {x : Shdr × Rela} :
    x ∈ eh.relocs ↔ x.1 ∈ eh.shdrs ∧ x.2 ∈ x.1.relas := by
  unfold Elf.relocs
  rw [List.mem_flatMap]
  constructor
  · rintro ⟨sh, hsh, h⟩
    obtain ⟨r, hr, rfl⟩ := List.mem_map.1 h
    exact ⟨hsh, hr⟩
  · rintro ⟨hsh, hr⟩
    exact ⟨x.1, hsh, List.mem_map.2 ⟨x.2, hr, rfl⟩⟩

/-- A `R_RISCV_PCREL_LO12_I` or a `R_RISCV_PCREL_LO12_S`. -/
def Rela.isLo12 (r : Rela) : Prop := r.type = R_RISCV_PCREL_LO12_I ∨ r.type = R_RISCV_PCREL_LO12_S

instance (r : Rela) : Decidable r.isLo12 := inferInstanceAs (Decidable (_ ∨ _))

/-- The `auipc`s of data symbols. -/
def dataAuipcs (eh : Elf) (code_len : Word) : List Word :=
  eh.relocs.filterMap fun x =>
    if x.2.type ≠ R_RISCV_PCREL_HI20 then none
    else if eh.symValue x.1 x.2 < code_len then none
    else some x.2.r_offset

theorem mem_dataAuipcs {eh : Elf} {code_len off : Word} :
    off ∈ dataAuipcs eh code_len ↔ ∃ x ∈ eh.relocs, x.2.type = R_RISCV_PCREL_HI20 ∧
      code_len ≤ eh.symValue x.1 x.2 ∧ x.2.r_offset = off := by
  unfold dataAuipcs
  rw [List.mem_filterMap]
  constructor
  · rintro ⟨x, hx, h⟩
    split at h
    · cases h
    · rename_i htype
      split at h
      · cases h
      · rename_i hval
        exact ⟨x, hx, Classical.not_not.1 htype, BitVec.not_lt.1 hval, Option.some.inj h⟩
  · rintro ⟨x, hx, htype, hval, rfl⟩
    exact ⟨x, hx, by rw [if_neg (Classical.not_not.2 htype), if_neg (BitVec.not_lt.2 hval)]⟩

/-- The last pass goes through the `auipc`s of data symbols. -/
theorem resolveDataAuipc_eq (eh : Elf) (code_len : Word) (map : Nat → Word) (ops : List Word) :
    resolveDataAuipc eh code_len map ops =
      (dataAuipcs eh code_len).foldlM (resolveAuipc map) ops := by
  unfold resolveDataAuipc dataAuipcs Elf.relocs
  generalize (eh.shdrs.flatMap fun sh => sh.relas.map fun r => (sh, r)) = l
  induction l generalizing ops with
  | nil => rfl
  | cons x l ih =>
    rw [List.foldlM_cons, List.filterMap_cons]
    by_cases htype : x.2.type ≠ R_RISCV_PCREL_HI20
    · rw [if_pos htype, if_pos htype]
      exact ih ops
    · rw [if_neg htype, if_neg htype]
      by_cases hval : eh.symValue x.1 x.2 < code_len
      · rw [if_pos hval, if_pos hval]
        exact ih ops
      · rw [if_neg hval, if_neg hval]
        rw [List.foldlM_cons]
        exact congrArg _ (funext ih)

/-- The relocations that a fixup comes from. -/
structure FromRelocs (eh : Elf) (code_len : Word) (fx : PcrelFixup) : Prop where
  hi : ∃ x ∈ eh.relocs, x.2.type = R_RISCV_PCREL_HI20 ∧ eh.symValue x.1 x.2 < code_len ∧
    x.2.r_offset = fx.hi_off
  lo : ∃ y ∈ eh.relocs, y.2.isLo12 ∧ eh.symValue y.1 y.2 = fx.hi_off ∧ y.2.r_offset = fx.lo_off

theorem mem_pcrelFixups {eh : Elf} {hi_off sym_value addend : Word} {fx : PcrelFixup} :
    fx ∈ pcrelFixups eh hi_off sym_value addend ↔ ∃ y ∈ eh.relocs, y.2.isLo12 ∧
      eh.symValue y.1 y.2 = hi_off ∧
      fx = ⟨hi_off, y.2.r_offset, sym_value, addend, y.2.type == R_RISCV_PCREL_LO12_S⟩ := by
  unfold pcrelFixups
  rw [List.mem_flatMap]
  constructor
  · rintro ⟨sh, hsh, h⟩
    obtain ⟨r, hr, h⟩ := List.mem_filterMap.1 h
    split at h
    · cases h
    · rename_i htype
      split at h
      · cases h
      · rename_i hval
        rw [not_and_or, Classical.not_not, Classical.not_not] at htype
        exact ⟨(sh, r), mem_relocs.2 ⟨hsh, hr⟩, htype, Classical.not_not.1 hval,
          (Option.some.inj h).symm⟩
  · rintro ⟨y, hy, htype, hval, rfl⟩
    obtain ⟨hsh, hr⟩ := mem_relocs.1 hy
    refine ⟨y.1, hsh, List.mem_filterMap.2 ⟨y.2, hr, ?_⟩⟩
    rw [if_neg (by rwa [not_and_or, Classical.not_not, Classical.not_not]),
      if_neg (Classical.not_not.2 hval)]

/-- **What holds of the fixups of each relocation holds of all that are collected.** -/
theorem collect_run {eh : Elf} {code_len : Word} {fxs : List PcrelFixup}
    (h : collectPcrelCodeFixups eh code_len = some fxs) {P : PcrelFixup → Prop}
    (hP : ∀ x ∈ eh.relocs, x.2.type = R_RISCV_PCREL_HI20 → eh.symValue x.1 x.2 < code_len →
      ∀ fx ∈ pcrelFixups eh x.2.r_offset (eh.symValue x.1 x.2) x.2.r_addend, P fx) :
    ∀ fx ∈ fxs, P fx := by
  refine Folds.foldlM_run (fun _ (out : List PcrelFixup) => ∀ fx ∈ out, P fx)
    (fun done x hdone out mid hout hmid => ?_) (List.forall_mem_nil _) h
  have hx : x ∈ eh.relocs := hdone.subset (List.mem_append_right _ (List.mem_singleton_self x))
  split at hmid
  · cases hmid
    exact hout
  · rename_i htype
    split at hmid
    · cases hmid
      exact hout
    · rename_i hval
      split at hmid
      · cases hmid
      · cases hmid
        intro fx hfx
        rcases List.mem_append.1 hfx with hfx | hfx
        · exact hout fx hfx
        · exact hP x hx (Classical.not_not.1 htype) (BitVec.not_le.1 hval) fx hfx

theorem collectPcrelCodeFixups_mem {eh : Elf} {code_len : Word} {fxs : List PcrelFixup}
    (h : collectPcrelCodeFixups eh code_len = some fxs) :
    ∀ fx ∈ fxs, FromRelocs eh code_len fx := by
  refine collect_run h fun x hx htype hval fx hfx => ?_
  obtain ⟨y, hy, hlo12, hsym, rfl⟩ := mem_pcrelFixups.1 hfx
  exact ⟨⟨x, hx, htype, hval, rfl⟩, y, hy, hlo12, hsym, rfl⟩

instance : DecidablePred Completes := fun _ => inferInstanceAs (Decidable (_ ∨ _))

/-- The pc-relative relocations are where a linker puts them: the upper parts in `auipc`s that do not
write `x0`, each for code or for data; the lower parts in loads, stores, `jalr`s and `addi`s that are
not dropped, each for one `auipc`. -/
structure Relocated (eh : Elf) (code : Nat → Byte) (len : Word) : Prop where
  hi : ∀ x ∈ eh.relocs, x.2.type = R_RISCV_PCREL_HI20 → x.2.r_offset.toNat % 4 = 0 ∧
    x.2.r_offset < len ∧ (decode code x.2.r_offset).op = RISCV_OP_AUIPC
  lo : ∀ x ∈ eh.relocs, x.2.type = R_RISCV_PCREL_HI20 → ∀ y ∈ eh.relocs, y.2.isLo12 →
    eh.symValue y.1 y.2 = x.2.r_offset →
    y.2.r_offset.toNat % 4 = 0 ∧ Completes (decode code y.2.r_offset).op
  kind : ∀ x ∈ eh.relocs, x.2.type = R_RISCV_PCREL_HI20 → ∀ x' ∈ eh.relocs,
    x'.2.type = R_RISCV_PCREL_HI20 → x.2.r_offset = x'.2.r_offset →
    eh.symValue x.1 x.2 < len → eh.symValue x'.1 x'.2 < len
  one : ∀ y ∈ eh.relocs, y.2.isLo12 → ∀ y' ∈ eh.relocs, y'.2.isLo12 →
    y.2.r_offset = y'.2.r_offset → eh.symValue y.1 y.2 = eh.symValue y'.1 y'.2

instance (eh : Elf) (code : Nat → Byte) (len : Word) : Decidable (Relocated eh code len) :=
  @decidable_of_iff (Relocated eh code len)
    ((∀ x ∈ eh.relocs, x.2.type = R_RISCV_PCREL_HI20 → x.2.r_offset.toNat % 4 = 0 ∧
        x.2.r_offset < len ∧ (decode code x.2.r_offset).op = RISCV_OP_AUIPC) ∧
      (∀ x ∈ eh.relocs, x.2.type = R_RISCV_PCREL_HI20 → ∀ y ∈ eh.relocs, y.2.isLo12 →
        eh.symValue y.1 y.2 = x.2.r_offset →
        y.2.r_offset.toNat % 4 = 0 ∧ Completes (decode code y.2.r_offset).op) ∧
      (∀ x ∈ eh.relocs, x.2.type = R_RISCV_PCREL_HI20 → ∀ x' ∈ eh.relocs,
        x'.2.type = R_RISCV_PCREL_HI20 → x.2.r_offset = x'.2.r_offset →
        eh.symValue x.1 x.2 < len → eh.symValue x'.1 x'.2 < len) ∧
      ∀ y ∈ eh.relocs, y.2.isLo12 → ∀ y' ∈ eh.relocs, y'.2.isLo12 →
        y.2.r_offset = y'.2.r_offset → eh.symValue y.1 y.2 = eh.symValue y'.1 y'.2)
    ⟨fun ⟨h1, h2, h3, h4⟩ => ⟨h1, h2, h3, h4⟩, fun h => ⟨h.hi, h.lo, h.kind, h.one⟩⟩
    (@instDecidableAnd _ _ inferInstance (@instDecidableAnd _ _ inferInstance
      (@instDecidableAnd _ _ inferInstance inferInstance)))

/-- The words of a unit are in the image as they were emitted. -/
def Kept (code : Nat → Byte) (len : Word) (targets : Targets) (map : Nat → Word) (ops : List Word)
    (c : Cursor) : Prop :=
  ∀ j < (emit c.at_ (c.unit code len targets).1 map len).length,
    ops[c.at_.toNat + j]? = (emit c.at_ (c.unit code len targets).1 map len)[j]?

/-! ## The passes -/

/-- What `main` has done when it writes the image. -/
theorem translate_ops {eh : Elf} {g : Gathered} {img : Image} {ps : List Patch × List Patch}
    (h : translate eh g = some (img, ps)) :
    ∃ fixups prog map n_ops ops, collectPcrelCodeFixups eh g.code.len = some fixups ∧
      transcodeEx g.code.buf g.code.len (collectCodeAddressRelocs eh g.code.len ++
        fixups.map PcrelFixup.lo_off) = some prog ∧
      transcodeMapEx g.code.buf g.code.len (collectCodeAddressRelocs eh g.code.len ++
        fixups.map PcrelFixup.lo_off) = some (map, n_ops) ∧
      applyPcrelCodeFixups fixups map prog.ops = some ops ∧
      resolveDataAuipc eh g.code.len map ops = some img.code := by
  unfold translate at h
  split at h
  · cases h
  · rename_i fixups hfixups
    simp only at h
    split at h
    · rename_i prog map n_ops hprog hmap
      split at h
      · cases h
      · rename_i ops hops
        obtain ⟨ops', hops', heq⟩ := Option.map_eq_some_iff.1 h
        cases heq
        exact ⟨fixups, prog, map, n_ops, ops, hfixups, hprog, hmap, hops, hops'⟩
    · cases h

/-- The unit of an `auipc` is the `auipc`, or a load immediate. -/
theorem step_auipc_cases {code : Nat → Byte} {len off : Word} {targets : Targets} {out : Dec}
    (ha : (decode code off).op = RISCV_OP_AUIPC) :
    step code len off targets out = (decode code off, 4#32) ∨
      (step code len off targets out).1.op = RISCV_OP_LI_LO ∨
        (step code len off targets out).1.op = RISCV_OP_LI_HI := by
  rw [step_auipc ha]
  cases hl : tryFuseLa code len off targets out with
  | some u =>
    obtain ⟨d, wd⟩ := u
    exact .inr (tryFuseLa_two hl).1
  | none =>
    simp only [Option.getD_none]
    unfold foldAuipc
    rw [if_pos ha]
    simp only
    split
    · exact .inr (.inl rfl)
    · split
      · exact .inr (.inr rfl)
      · exact .inl rfl

section
variable {eh : Elf} {code : Nat → Byte} {len : Word} (hlen : Sized len)
  (hw : Relocated eh code len) {fixups : List PcrelFixup}
  (hfrom : ∀ fx ∈ fixups, FromRelocs eh len fx) {targets : Targets} {map : Nat → Word}
  {prog : Transcoded}
  (hheads : ∀ c, Head code len targets c → map (c.off >>> 1).toNat = c.at_ ∧
    emit c.at_ (c.unit code len targets).1 map len <+: prog.ops.drop c.at_.toNat)
  (hsent : ∀ j, (∀ c, Head code len targets c → (c.off >>> 1).toNat ≠ j) → map j = TC_SENTINEL)
include hw hfrom

/-- The instructions of a fixup. -/
theorem fixup_ops {fx : PcrelFixup} (hfx : fx ∈ fixups) :
    fx.hi_off.toNat % 4 = 0 ∧ (decode code fx.hi_off).op = RISCV_OP_AUIPC ∧
      fx.lo_off.toNat % 4 = 0 ∧ Completes (decode code fx.lo_off).op := by
  obtain ⟨⟨x, hx, htype, -, hhi⟩, y, hy, hlo12, hsym, hlo⟩ := hfrom fx hfx
  obtain ⟨h4, -, hop⟩ := hw.hi x hx htype
  obtain ⟨h4', hop'⟩ := hw.lo x hx htype y hy hlo12 (hsym.trans hhi.symm)
  rw [hhi] at h4 hop
  rw [hlo] at h4' hop'
  exact ⟨h4, hop, h4', hop'⟩

/-- The `auipc` of a data symbol is in no fixup. -/
theorem data_free {x : Shdr × Rela} (hx : x ∈ eh.relocs) (htype : x.2.type = R_RISCV_PCREL_HI20)
    (hval : len ≤ eh.symValue x.1 x.2) {fx : PcrelFixup} (hfx : fx ∈ fixups) :
    x.2.r_offset ≠ fx.hi_off ∧ x.2.r_offset ≠ fx.lo_off := by
  constructor
  · intro heq
    obtain ⟨⟨x', hx', htype', hval', hhi⟩, -⟩ := hfrom fx hfx
    have := hw.kind x' hx' htype' x hx htype (hhi.trans heq.symm) hval'
    exact absurd this (BitVec.not_lt.2 hval)
  · intro heq
    have hop := (hw.hi x hx htype).2.2
    rw [heq] at hop
    exact (completes_op (fixup_ops hw hfrom hfx).2.2.2).2 hop

include hlen hheads hsent

/-- **The words after both passes**: those of a fixup, those of a data `auipc`, and the others. -/
theorem passes_run {mid fin : List Word}
    (hfix : applyPcrelCodeFixups fixups map prog.ops = some mid)
    (hres : resolveDataAuipc eh len map mid = some fin) :
    fin.length = prog.ops.length ∧ ∀ i < prog.ops.length,
      Patched map fixups i (prog.ops.getD i 0#32) (mid.getD i 0#32) ∧
        Resolved map (dataAuipcs eh len) i (mid.getD i 0#32) (fin.getD i 0#32) := by
  have hheads' := fun c hc => (hheads c hc).1
  have hmapped := fixups_mapped hfix
  have hapart : ∀ fx ∈ fixups, ∀ fx' ∈ fixups, fx.atHi map ≠ fx'.atLo map := by
    intro fx hfx fx' hfx' heq
    obtain ⟨h4, hop, -, -⟩ := fixup_ops hw hfrom hfx
    obtain ⟨-, -, h4', hop'⟩ := fixup_ops hw hfrom hfx'
    have hoff := mapped_apart hlen hheads' hsent h4 h4' (hmapped fx hfx).1 (hmapped fx' hfx').2
      (by rw [hop]; decide) (completes_op hop').1 (BitVec.eq_of_toNat_eq heq)
    rw [hoff] at hop
    exact (completes_op hop').2 hop
  obtain ⟨hlength, hpatched, -⟩ := fixups_run hapart hfix
  have hnone : ∀ off ∈ dataAuipcs eh len, map (off >>> 1).toNat ≠ TC_SENTINEL := by
    intro off hoff hs
    obtain ⟨x, hx, htype, -, rfl⟩ := mem_dataAuipcs.1 hoff
    obtain ⟨h4, hin, hop⟩ := hw.hi x hx htype
    obtain ⟨c, hc, hcoff⟩ := @auipc_head code len hlen targets _ h4 hin hop
    rw [← hcoff, hheads' c hc] at hs
    exact head_index hlen hc hs
  rw [resolveDataAuipc_eq] at hres
  obtain ⟨hlength', hresolved⟩ := resolve_run hnone hres
  exact ⟨hlength'.trans hlength, fun i hi => ⟨hpatched i hi, hresolved i (by omega)⟩⟩

/-- **The words of every other instruction are kept.** -/
theorem passes_kept {mid fin : List Word}
    (hfix : applyPcrelCodeFixups fixups map prog.ops = some mid)
    (hres : resolveDataAuipc eh len map mid = some fin) {c : Cursor} (hc : Head code len targets c)
    (hfree : ∀ fx ∈ fixups, c.off ≠ fx.hi_off ∧ c.off ≠ fx.lo_off)
    (hdata : ∀ off ∈ dataAuipcs eh len, c.off ≠ off) : Kept code len targets map fin c := by
  obtain ⟨hlength, hrun⟩ := passes_run hlen hw hfrom hheads hsent hfix hres
  have hheads' := fun c hc => (hheads c hc).1
  have hmapped := fixups_mapped hfix
  obtain ⟨-, hpre⟩ := hheads c hc
  have hwords := emit_length c.at_ (c.unit code len targets).1 map len
  -- no word of the unit is at the index of another instruction that is not dropped
  have hother : ∀ {off : Word} {j : Nat}, off.toNat % 4 = 0 →
      map (off >>> 1).toNat ≠ TC_SENTINEL → (decode code off).op ≠ RISCV_OP_NOP → c.off ≠ off →
      j < (opWords (c.unit code len targets).1.op).toNat →
      c.at_.toNat + j ≠ (map (off >>> 1).toNat).toNat := by
    intro off j h4 hm hop hne hj
    obtain ⟨c', hc', hoff, hat⟩ := mapped_head hlen hheads' hsent h4 hm
    rw [hat]
    refine words_apart hlen hc hc' (fun h => hne (h ▸ hoff)) ?_ hj
    exact unit_nop (by rwa [hoff])
  intro j hj
  have hi : c.at_.toNat + j < prog.ops.length := by
    have hle := hpre.length_le
    rw [List.length_drop] at hle
    omega
  have hstart : prog.ops.getD (c.at_.toNat + j) 0#32 =
      (emit c.at_ (c.unit code len targets).1 map len).getD j 0#32 := getD_of_prefix hpre hj
  obtain ⟨hpatched, hresolved⟩ := hrun _ hi
  have hfin : fin.getD (c.at_.toNat + j) 0#32 =
      (emit c.at_ (c.unit code len targets).1 map len).getD j 0#32 := by
    rw [← hstart]
    generalize mid.getD (c.at_.toNat + j) 0#32 = u at hpatched hresolved
    generalize fin.getD (c.at_.toNat + j) 0#32 = v at hresolved ⊢
    cases hresolved with
    | @li off v ho heq hop hv =>
      obtain ⟨x, hx, htype, -, rfl⟩ := mem_dataAuipcs.1 ho
      obtain ⟨h4, hin, hop'⟩ := hw.hi x hx htype
      obtain ⟨c', hc', hoff'⟩ := @auipc_head code len hlen targets _ h4 hin hop'
      have hne := words_apart (i := j) hlen hc hc' (fun h => hdata _ ho (h ▸ hoff'))
        (unit_nop (by rw [hoff', hop']; decide)) (by omega)
      rw [← hoff', hheads' c' hc'] at heq
      exact absurd heq hne
    | same _ =>
      cases hpatched with
      | hi hfx heq =>
        obtain ⟨h4, hop, -, -⟩ := fixup_ops hw hfrom hfx
        exact absurd heq (hother h4 (hmapped _ hfx).1 (by rw [hop]; decide) (hfree _ hfx).1
          (by omega))
      | lo hfx heq =>
        obtain ⟨-, -, h4, hop⟩ := fixup_ops hw hfrom hfx
        exact absurd heq (hother h4 (hmapped _ hfx).2 (completes_op hop).1 (hfree _ hfx).2
          (by omega))
      | same _ => rfl
  rw [List.getElem?_eq_getElem (by omega), List.getElem?_eq_getElem hj,
    List.getElem_eq_getD 0#32, List.getElem_eq_getD 0#32, hfin]

/-- **The `auipc` of a data symbol is a load immediate** of what it would have left, or of what it
and the `addi` behind it would. -/
theorem passes_data {mid fin : List Word}
    (hfix : applyPcrelCodeFixups fixups map prog.ops = some mid)
    (hres : resolveDataAuipc eh len map mid = some fin) {x : Shdr × Rela} (hx : x ∈ eh.relocs)
    (htype : x.2.type = R_RISCV_PCREL_HI20) (hval : len ≤ eh.symValue x.1 x.2) :
    ∃ c w v, Head code len targets c ∧ c.off = x.2.r_offset ∧
      fin[(map (x.2.r_offset >>> 1).toNat).toNat]? = some w ∧
      Loads w (decode code x.2.r_offset).rd v ∧
      ((c.unit code len targets).2 = 4#32 ∧
          v = x.2.r_offset + (decode code x.2.r_offset).imm <<< 12 ∨
        (c.unit code len targets).2 = 8#32 ∧ AddiBehind code len x.2.r_offset targets ∧
          v = x.2.r_offset + (decode code x.2.r_offset).imm <<< 12 +
            (decode code (x.2.r_offset + 4#32)).imm) := by
  obtain ⟨hlength, hrun⟩ := passes_run hlen hw hfrom hheads hsent hfix hres
  have hheads' := fun c hc => (hheads c hc).1
  have hmapped := fixups_mapped hfix
  obtain ⟨h4, hin, hop⟩ := hw.hi x hx htype
  have hfree := fun fx hfx => @data_free eh code len hw fixups hfrom x hx htype hval fx hfx
  have hmem : x.2.r_offset ∈ dataAuipcs eh len := mem_dataAuipcs.2 ⟨x, hx, htype, hval, rfl⟩
  obtain ⟨c, hc, hoff⟩ := @auipc_head code len hlen targets _ h4 hin hop
  rw [← hoff] at h4 hop hfree hmem ⊢
  have hnop : (c.unit code len targets).1.op ≠ RISCV_OP_NOP := unit_nop (by rw [hop]; decide)
  obtain ⟨hat, hpre⟩ := hheads c hc
  rw [hat]
  have hpos : 0 < (emit c.at_ (c.unit code len targets).1 map len).length := by
    obtain ⟨w, rest, he, -⟩ := emit_cons c.at_ map len (unit_op_lt c) hnop
    rw [he]
    exact Nat.zero_lt_succ _
  have hi : c.at_.toNat < prog.ops.length := by
    have hle := hpre.length_le
    rw [List.length_drop] at hle
    omega
  have hstart : prog.ops.getD c.at_.toNat 0#32 =
      (emit c.at_ (c.unit code len targets).1 map len).getD 0 0#32 := getD_of_prefix hpre hpos
  -- two instructions that are not dropped are not at one index
  have hapart : ∀ {off : Word}, off.toNat % 4 = 0 → map (off >>> 1).toNat ≠ TC_SENTINEL →
      (decode code off).op ≠ RISCV_OP_NOP → c.at_.toNat = (map (off >>> 1).toNat).toNat →
      c.off = off := by
    intro off h4' hm hop' heq
    obtain ⟨c', hc', hoff', hat'⟩ := mapped_head hlen hheads' hsent h4' hm
    rw [hat'] at heq
    rw [op_apart hlen hc hc' (by rw [hop]; decide) (by rwa [hoff']) (BitVec.eq_of_toNat_eq heq)]
    exact hoff'
  obtain ⟨hpatched, hresolved⟩ := hrun _ hi
  have hmid : mid.getD c.at_.toNat 0#32 = prog.ops.getD c.at_.toNat 0#32 := by
    generalize mid.getD c.at_.toNat 0#32 = u at hpatched ⊢
    cases hpatched with
    | hi hfx heq =>
      obtain ⟨h4', hop', -, -⟩ := fixup_ops hw hfrom hfx
      exact absurd (hapart h4' (hmapped _ hfx).1 (by rw [hop']; decide) heq) (hfree _ hfx).1
    | lo hfx heq =>
      obtain ⟨-, -, h4', hop'⟩ := fixup_ops hw hfrom hfx
      exact absurd (hapart h4' (hmapped _ hfx).2 (completes_op hop').1 heq) (hfree _ hfx).2
    | same _ => rfl
  rw [hmid, hstart] at hresolved
  have hfin : fin[c.at_.toNat]? = some (fin.getD c.at_.toNat 0#32) := by
    rw [List.getElem?_eq_getElem (by omega), List.getElem_eq_getD 0#32]
  rcases @step_auipc_cases code len c.off targets c.d hop with hs | hli
  · -- the transcoder has left it to the last pass
    have hunit : c.unit code len targets = (decode code c.off, 4#32) := hs
    have hword : (emit c.at_ (c.unit code len targets).1 map len).getD 0 0#32 =
        opField RISCV_OP_AUIPC ||| regField (decode code c.off).rd 21 |||
          ((decode code c.off).imm &&& 0xfffff#32) := by
      rw [hunit, emit_upper _ _ _ _ (.inr hop), hop]
      rfl
    obtain ⟨hwop, hA, hU⟩ := @uimm_field RISCV_OP_AUIPC (by decide) (decode code c.off).rd
      ((decode code c.off).imm &&& 0xfffff#32) (by rw [BitVec.and_assoc, BitVec.and_self])
    rw [hword] at hresolved
    generalize fin.getD c.at_.toNat 0#32 = u at hresolved hfin
    cases hresolved with
    | @li off u ho heq hop' hv =>
      obtain ⟨x', hx', htype', -, rfl⟩ := mem_dataAuipcs.1 ho
      obtain ⟨h4', hin', hopx⟩ := hw.hi x' hx' htype'
      obtain ⟨c', hc', hoff'⟩ := @auipc_head code len hlen targets _ h4' hin' hopx
      rw [← hoff', hheads' c' hc'] at heq
      have hcc := op_apart hlen hc hc' (by rw [hop]; decide) (by rw [hoff', hopx]; decide)
        (BitVec.eq_of_toNat_eq heq)
      rw [← hoff', ← hcc, hA, hU] at hv
      refine ⟨c, u, _, hc, rfl, hfin, hv, .inl ⟨congrArg Prod.snd hunit, ?_⟩⟩
      refine congrArg (c.off + ·) (BitVec.eq_of_getLsbD_eq fun i hi => ?_)
      simp only [BitVec.getLsbD_shiftLeft, BitVec.getLsbD_and]
      interval_cases i <;> simp
    | same hnone =>
      exact absurd hwop (hnone c.off hmem (by rw [hat]))
  · -- it is a load immediate already
    have hs : step code len c.off targets c.d =
        ((c.unit code len targets).1, (c.unit code len targets).2) := rfl
    obtain ⟨v, hrd, himm, hnear, hv⟩ := auipc_value hop hs hli
    obtain ⟨w, he, hloads⟩ := @emit_loads c.at_ (c.unit code len targets).1 map len hli v himm hnear
    rw [he] at hresolved
    change Resolved map (dataAuipcs eh len) c.at_.toNat w _ at hresolved
    generalize fin.getD c.at_.toNat 0#32 = u at hresolved hfin
    cases hresolved with
    | li ho heq hop' hv' => exact absurd hop' hloads.op_ne
    | same _ =>
      rw [hrd] at hloads
      exact ⟨c, w, v, hc, rfl, hfin, hloads, hv⟩

end

/-- **Every data reference computes its linked address, whatever fusion did.**  The op of the `auipc`
loads what the `auipc`, alone or with the `addi` that is fused into it, would have left at its own
address; the instructions that add a lower part to it, and all others but the pairs for code, have
the words that the transcoder gave them. -/
theorem tctool_data_auipcs (eh : Elf) {g : Gathered} (hg : gather eh = some g)
    (hlen : Sized g.code.len) (hw : Relocated eh g.code.buf g.code.len) {img : Image}
    {ps : List Patch × List Patch} (h : tctool eh = some (img, ps)) :
    ∃ fixups targets map prog, ∃ ext : List Word,
      collectPcrelCodeFixups eh g.code.len = some fixups ∧
      ext = collectCodeAddressRelocs eh g.code.len ++ fixups.map PcrelFixup.lo_off ∧
      collectTargets g.code.buf g.code.len ext = some targets ∧
      transcodeMapEx g.code.buf g.code.len ext = some (map, prog.n_ops) ∧
      transcodeEx g.code.buf g.code.len ext = some prog ∧
      (∀ x ∈ eh.relocs, x.2.type = R_RISCV_PCREL_HI20 → g.code.len ≤ eh.symValue x.1 x.2 →
        (∃ c w v, Head g.code.buf g.code.len targets c ∧ c.off = x.2.r_offset ∧
          img.code[(map (x.2.r_offset >>> 1).toNat).toNat]? = some w ∧
          Loads w (decode g.code.buf x.2.r_offset).rd v ∧
          ((c.unit g.code.buf g.code.len targets).2 = 4#32 ∧
              v = x.2.r_offset + (decode g.code.buf x.2.r_offset).imm <<< 12 ∨
            (c.unit g.code.buf g.code.len targets).2 = 8#32 ∧
              AddiBehind g.code.buf g.code.len x.2.r_offset targets ∧
              v = x.2.r_offset + (decode g.code.buf x.2.r_offset).imm <<< 12 +
                (decode g.code.buf (x.2.r_offset + 4#32)).imm)) ∧
        ∀ y ∈ eh.relocs, y.2.isLo12 → eh.symValue y.1 y.2 = x.2.r_offset →
          ∀ c, Head g.code.buf g.code.len targets c → c.off = y.2.r_offset →
            Kept g.code.buf g.code.len targets map img.code c) ∧
      ∀ c, Head g.code.buf g.code.len targets c →
        (∀ fx ∈ fixups, c.off ≠ fx.hi_off ∧ c.off ≠ fx.lo_off) →
        (∀ off ∈ dataAuipcs eh g.code.len, c.off ≠ off) →
        Kept g.code.buf g.code.len targets map img.code c := by
  have ht : translate eh g = some (img, ps) := by
    unfold tctool at h
    rwa [hg] at h
  obtain ⟨fixups, prog, map, n_ops, mid, hcol, hprog, hmap, hfix, hres⟩ := translate_ops ht
  have hfrom := collectPcrelCodeFixups_mem hcol
  obtain ⟨targets, map', prog', htargets, hmap', hprog', -, hheads, hsent⟩ :=
    transcodeEx_spec g.code.buf hlen
      (collectCodeAddressRelocs eh g.code.len ++ fixups.map PcrelFixup.lo_off)
  rw [hprog] at hprog'
  cases hprog'
  have hsame := hmap'.symm.trans hmap
  cases hsame
  have hkept := fun c hc => @passes_kept eh g.code.buf g.code.len hlen hw fixups hfrom targets map
    prog hheads hsent mid img.code hfix hres c hc
  refine ⟨fixups, targets, map, prog, _, hcol, rfl, htargets, hmap', hprog, ?_, hkept⟩
  intro x hx htype hval
  refine ⟨passes_data hlen hw hfrom hheads hsent hfix hres hx htype hval, ?_⟩
  intro y hy hlo12 hsym c hc hoff
  obtain ⟨-, hop⟩ := hw.lo x hx htype y hy hlo12 hsym
  refine hkept c hc (fun fx hfx => ⟨fun heq => ?_, fun heq => ?_⟩) fun off ho heq => ?_
  · obtain ⟨-, hop', -, -⟩ := fixup_ops hw hfrom hfx
    rw [← heq, hoff] at hop'
    exact (completes_op hop).2 hop'
  · -- its lower part would be for two `auipc`s
    obtain ⟨-, y', hy', hlo12', hsym', hlo⟩ := hfrom fx hfx
    have hone := hw.one y hy hlo12 y' hy' hlo12' (by rw [← hoff, heq, hlo])
    exact (data_free hw hfrom hx htype hval hfx).1 (by rw [← hsym, hone, hsym'])
  · obtain ⟨x', hx', htype', -, rfl⟩ := mem_dataAuipcs.1 ho
    have hop' := (hw.hi x' hx' htype').2.2
    rw [← heq, hoff] at hop'
    exact (completes_op hop).2 hop'

/-! ## Two files -/

/-- A file with the code `auipc x5, hi; addi x5, x5, 0`, relocations and two symbols, of the values 0
and `RISCV_HALF`. -/
def auipcElf (code : BitVec 64) (relas : BitVec 384) (size : Word) : Elf where
  magic := true
  e_entry := 0#32
  shdrs :=
    [⟨SHT_PROGBITS, SHF_ALLOC ||| SHF_EXECINSTR, 0#32, 8#32, 0#32, 0#32,
        fun i => code.extractLsb' (8 * i) 8⟩,
      ⟨SHT_RELA, 0#32, 0#32, size, 2#32, 0#32, fun i => relas.extractLsb' (8 * i) 8⟩,
      ⟨2#32, 0#32, 0#32, 32#32, 0#32, 0#32, fun i =>
        ((RISCV_HALF).setWidth 256 <<< 160).extractLsb' (8 * i) 8⟩]

/-- A use of `tctool_data_auipcs`: the address `RISCV_HALF`. -/
theorem tctool_data_auipcs_half :
    let eh := auipcElf 0x0002829380000297#64 (0x117#384 <<< 32 ||| 4#384 <<< 96 ||| 0x18#384 <<< 128)
      24#32
    ∃ g img ps, gather eh = some g ∧ tctool eh = some (img, ps) ∧
      ∃ w v, w ∈ img.code ∧ Loads w (decode g.code.buf 0#32).rd v := by
  intro eh
  have hsome : ((gather eh).map fun g => decide (g.code.len = 8#32 ∧
      Relocated eh g.code.buf g.code.len)) = some true := by decide +kernel
  obtain ⟨g, hg, hdec⟩ := Option.map_eq_some_iff.1 hsome
  obtain ⟨hlen, hw⟩ := of_decide_eq_true hdec
  have htool : (tctool eh).isSome := by decide +kernel
  obtain ⟨⟨img, ps⟩, h⟩ := Option.isSome_iff_exists.1 htool
  have hx : ∃ x ∈ eh.relocs, x.2.type = R_RISCV_PCREL_HI20 ∧ 8#32 ≤ eh.symValue x.1 x.2 ∧
      x.2.r_offset = 0#32 := by decide +kernel
  obtain ⟨x, hx, htype, hval, hoff⟩ := hx
  obtain ⟨_, _, _, _, _, -, -, -, -, -, hall, -⟩ := tctool_data_auipcs eh hg
    (by rw [hlen]; exact ⟨by decide, by decide⟩) hw h
  obtain ⟨⟨_, w, v, -, -, hget, hloads, -⟩, -⟩ := hall x hx htype (by rw [hlen]; exact hval)
  rw [hoff] at hloads
  exact ⟨g, img, ps, hg, h, w, v, List.mem_of_getElem? hget, hloads⟩

/-- Two relocations of one `auipc`, at address 0 and with the immediate 0, for the address of an
instruction and for data: it loads `0x1000`. -/
theorem tctool_two_kinds :
    let eh := auipcElf 0x0002829300000297#64 (0x17#384 <<< 32 ||| 0x1000#384 <<< 64 |||
      4#384 <<< 96 ||| 0x18#384 <<< 128 ||| 0x117#384 <<< 224) 36#32
    ((gather eh).map fun g => decide ((∀ x ∈ eh.relocs, x.2.type = R_RISCV_PCREL_HI20 →
      x.2.r_offset.toNat % 4 = 0 ∧ x.2.r_offset < g.code.len ∧
        (decode g.code.buf x.2.r_offset).op = RISCV_OP_AUIPC ∧
        (decode g.code.buf x.2.r_offset).imm = 0#32) ∧
      (∀ y ∈ eh.relocs, y.2.isLo12 → (decode g.code.buf y.2.r_offset).op = RISCV_OP_ADDI) ∧
      ∃ x ∈ eh.relocs, x.2.type = R_RISCV_PCREL_HI20 ∧ x.2.r_offset = 0#32 ∧
        g.code.len ≤ eh.symValue x.1 x.2)) = some true ∧
      ((tctool eh).map fun r => r.1.code.headD 0#32) = some 0xcca01000#32 ∧
      Loads 0xcca01000#32 5#5 0x1000#32 := by
  refine ⟨by decide +kernel, by decide +kernel, .inl rfl, fun H h r p w2 => ?_⟩
  have hop : TC_OP 0xcca01000#32 = 51 := by decide
  have hA : TC_A 0xcca01000#32 = 5#5 := by decide
  have hJ : TC_JOFF 0xcca01000#32 = 0x1000#32 := by decide
  simp only [dispatch, hop, hA, hJ]

end Purv.Tctool

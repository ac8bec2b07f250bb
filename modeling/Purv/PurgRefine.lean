import Purv.Purg
import Purv.Accepts
import Purv.PurvaFuse

/-!
# The generated engine against the hand-written one

* `iImm_eq` .. `ciLuiDecoderImm_eq` — both untangle the same immediates;
* `ReservedWord`, `ReservedHalf` — the encodings that one of them refuses and the other does not;
* `operation_known`, `immediate_known` — everything else computes alike;
* `machine` — hooks for a host that keeps the guest's memory as the interpreter does;
* `Beside` — the engine and its host hold what the interpreter holds;
* `Ready`, `Follows` — about to execute an instruction, and past it;
* `execute_follows`, `executeCompressed_follows` — the two switches do what the decode arms do.
-/

namespace Purv.Purg

open Bits

/-! ## Immediates -/

theorem iImm_eq (w : Word) : iImm w = w.sshiftRight 20 := by
  unfold iImm
  ext i hi
  rw [BitVec.getElem_signExtend, BitVec.getElem_sshiftRight]
  interval_cases i <;> simp [BitVec.msb_eq_getLsbD_last]

theorem sDecoderImm_eq (w : Word) : sDecoderImm w = storeImm w := by
  ext i hi
  unfold sDecoderImm storeImm
  rw [BitVec.getElem_signExtend, BitVec.msb_eq_getLsbD_last]
  interval_cases i <;>
    simp [getElem_bits, getElem_cat, BitVec.getElem_sshiftRight, BitVec.msb_eq_getLsbD_last]

theorem bDecoderImm_eq (w : Word) : bDecoderImm w = branchImm w := by
  unfold bDecoderImm branchImm
  rw [sext_eq _ _ (by decide) (by decide)]
  congr 1
  ext i hi
  interval_cases i <;> simp [getElem_bits, getElem_cat]

theorem jDecoderImm_eq (w : Word) : jDecoderImm w = jalImm w := by
  unfold jDecoderImm jalImm
  rw [sext_eq _ _ (by decide) (by decide)]
  congr 1
  ext i hi
  interval_cases i <;> simp [getElem_bits, getElem_cat]

theorem uDecoderImm_eq (w : Word) : uDecoderImm w = w &&& 0xfffff000#32 := by
  ext i hi
  unfold uDecoderImm
  rw [getElem_cat]
  interval_cases i <;> simp

/-- Narrowing what was extended from fewer bits. -/
theorem int_signExtend {n m : Nat} (v : BitVec n) (hn : 0 < n) (hm : n ≤ m) (hm' : m ≤ 32) :
    int m (v.signExtend 32) = v.signExtend 32 := by
  have hnarrow : (v.signExtend 32).setWidth m = v.signExtend m := by
    ext i hi
    simp only [BitVec.getElem_setWidth, BitVec.getLsbD_signExtend, BitVec.getElem_signExtend]
    have : i < 32 := by omega
    by_cases h : i < n
    · simp [h, this]
    · simp [h, this]
  unfold int
  rw [hnarrow, signExtend_signExtend v hn hm]

theorem ciDecoderImm_eq (c : Half) : int 8 (ciDecoderImm c) = sext (shamt c) 6 := by
  unfold ciDecoderImm
  rw [int_signExtend _ (by decide) (by decide) (by decide), sext_eq _ _ (by decide) (by decide)]
  congr 1
  ext i hi
  unfold shamt
  interval_cases i <;> simp [getElem_bits, getElem_cat]

theorem ciwDecoderImm_eq (c : Half) : ciwDecoderImm c = addi4spnImm c := by
  ext i hi
  unfold ciwDecoderImm addi4spnImm
  interval_cases i <;> simp [getElem_bits, getElem_cat]

theorem clDecoderImm_eq (c : Half) : clDecoderImm c = clwImm c := by
  ext i hi
  unfold clDecoderImm clwImm
  interval_cases i <;> simp [getElem_bits, getElem_cat]

theorem cilwspDecoderImm_eq (c : Half) : cilwspDecoderImm c = clwspImm c := by
  ext i hi
  unfold cilwspDecoderImm clwspImm
  interval_cases i <;> simp [getElem_bits, getElem_cat]

theorem cssDecoderImm_eq (c : Half) : cssDecoderImm c = cswspImm c := by
  ext i hi
  unfold cssDecoderImm cswspImm
  interval_cases i <;> simp [getElem_bits, getElem_cat]

theorem cjDecoderImm_eq (c : Half) : int 16 (cjDecoderImm c) = cjImm c := by
  unfold cjDecoderImm cjImm
  rw [int_signExtend _ (by decide) (by decide) (by decide), sext_eq _ _ (by decide) (by decide)]
  congr 1
  ext i hi
  interval_cases i <;> simp [getElem_bits, getElem_cat]

theorem cbDecoderImm_eq (c : Half) : int 16 (cbDecoderImm c) = cbImm c := by
  unfold cbDecoderImm cbImm
  rw [int_signExtend _ (by decide) (by decide) (by decide), sext_eq _ _ (by decide) (by decide)]
  congr 1
  ext i hi
  interval_cases i <;> simp [getElem_bits, getElem_cat]

theorem ciAddi16spDecoderImm_eq (c : Half) : ciAddi16spDecoderImm c = addi16spImm c := by
  unfold ciAddi16spDecoderImm addi16spImm
  rw [sext_eq _ _ (by decide) (by decide)]
  congr 1
  ext i hi
  interval_cases i <;> simp [getElem_bits, getElem_cat]

theorem ciLuiDecoderImm_eq (c : Half) : ciLuiDecoderImm c = cluiImm c := by
  unfold ciLuiDecoderImm cluiImm
  rw [sext_eq _ _ (by decide) (by decide)]
  congr 1
  ext i hi
  interval_cases i <;> simp [getElem_bits, getElem_cat]

/-! ## Operations -/

/-- The words whose fields the ratified instructions leave no meaning: the generated engine refuses
them, the hand-written one reads the fields that matter to it. -/
inductive ReservedWord (w : Word) : Prop
  | shift (op : (w.extractLsb' 0 7).toNat = OPIMM) (f3 : w.extractLsb' 12 3 = 1#3)
      (f7 : w.extractLsb' 25 7 ≠ 0#7)
  | shiftRight (op : (w.extractLsb' 0 7).toNat = OPIMM) (f3 : w.extractLsb' 12 3 = 5#3)
      (f7 : w.extractLsb' 25 7 ≠ 0#7) (f7' : w.extractLsb' 25 7 ≠ 0x20#7)
  | operation (op : (w.extractLsb' 0 7).toNat = OP) (f7 : w.extractLsb' 25 7 ≠ 0#7)
      (f7' : w.extractLsb' 25 7 ≠ 1#7)
      (sub : w.extractLsb' 25 7 = 0x20#7 → w.extractLsb' 12 3 ≠ 0#3 ∧ w.extractLsb' 12 3 ≠ 5#3)
  | jalr (op : (w.extractLsb' 0 7).toNat = JALR) (f3 : w.extractLsb' 12 3 ≠ 0#3)

theorem high_half (v : BitVec 64) : (v.sshiftRight 32).setWidth 32 = (v >>> 32).setWidth 32 := by
  ext i hi
  simp only [BitVec.getElem_setWidth, BitVec.getLsbD_sshiftRight, BitVec.getLsbD_ushiftRight]
  have h1 : ¬ 64 ≤ i := by omega
  have h2 : 32 + i < 64 := by omega
  simp [h1, h2]

theorem operation_alu (a b : Word) (f3 : BitVec 3) :
    operation a b (cat 10 (0#7 : BitVec 7) f3).toNat = some (alu a b f3 0#7) := by
  rcases three_bits f3 with hf | hf | hf | hf | hf | hf | hf | hf <;> subst hf <;> rfl

theorem operation_sub (a b : Word) {f3 : BitVec 3} (hf : f3 = 0#3 ∨ f3 = 5#3) :
    operation a b (cat 10 (0x20#7 : BitVec 7) f3).toNat = some (alu a b f3 0x20#7) := by
  rcases hf with hf | hf <;> subst hf <;> rfl

theorem operation_mul (a b : Word) (f3 : BitVec 3) :
    operation a b (cat 10 (1#7 : BitVec 7) f3).toNat = some (mul a b f3) := by
  rcases three_bits f3 with hf | hf | hf | hf | hf | hf | hf | hf <;> subst hf
  · rfl
  · exact congrArg some (high_half _)
  · exact congrArg some (high_half _)
  · rfl
  · show some (ite _ _ (ite _ _ _)) = some (ite _ _ (ite _ _ _))
    refine congrArg some (ite_congr rfl (fun _ => rfl) fun _ => ?_)
    exact ite_congr rfl (fun hc => hc.1.symm) fun _ => rfl
  · rfl
  · rfl
  · rfl

/-- **A known operation computes what the interpreter computes.** -/
theorem operation_known {w : Word} (hop : (w.extractLsb' 0 7).toNat = OP) (hq : ¬ ReservedWord w)
    (a b : Word) :
    operation a b (cat 10 (w.extractLsb' 25 7) (w.extractLsb' 12 3)).toNat =
      some (if w.extractLsb' 25 7 = 1#7 then mul a b (w.extractLsb' 12 3)
        else alu a b (w.extractLsb' 12 3) (w.extractLsb' 25 7)) := by
  by_cases h1 : w.extractLsb' 25 7 = 1#7
  · rw [if_pos h1, h1]
    exact operation_mul a b _
  · rw [if_neg h1]
    by_cases h0 : w.extractLsb' 25 7 = 0#7
    · rw [h0]
      exact operation_alu a b _
    · by_cases h20 : w.extractLsb' 25 7 = 0x20#7 ∧
          (w.extractLsb' 12 3 = 0#3 ∨ w.extractLsb' 12 3 = 5#3)
      · rw [h20.1]
        exact operation_sub a b h20.2
      · refine absurd (.operation hop h0 h1 fun h7 => ?_) hq
        rw [not_and, not_or] at h20
        exact h20 h7

theorem shamt_small (sh : BitVec 5) : (sh.setWidth 32 &&& 31#32 : Word) = sh.setWidth 32 := by
  ext i hi
  interval_cases i <;> simp

/-- **A known immediate instruction computes what the interpreter computes.** -/
theorem immediate_known {w : Word} (hop : (w.extractLsb' 0 7).toNat = OPIMM)
    (hq : ¬ ReservedWord w) (a : Word) :
    immediate a w =
      some (if w.extractLsb' 12 3 = 1#3 ∨ w.extractLsb' 12 3 = 5#3 then
          alu a (bits w 20 5) (w.extractLsb' 12 3) (w.extractLsb' 25 7)
        else alu a (w.sshiftRight 20) (w.extractLsb' 12 3) 0#7) := by
  have hshift : ∀ (f3 : BitVec 3) (f7 : BitVec 7) (v : Word), w.extractLsb' 12 3 = f3 →
      w.extractLsb' 25 7 = f7 → (f3 = 1#3 ∨ f3 = 5#3) →
      immediateShift a (w.extractLsb' 20 5) (cat 10 f7 f3).toNat = some v →
      immediate a w = some v := by
    intro f3 f7 v h3 h7 hf hv
    unfold immediate
    simp only
    rw [h3, h7, if_pos hf, hv]
  have hsmall := shamt_small (w.extractLsb' 20 5)
  have hnat : (bits w 20 5).toNat = (w.extractLsb' 20 5).toNat :=
    BitVec.toNat_setWidth_of_le (by decide)
  by_cases h1 : w.extractLsb' 12 3 = 1#3
  · have h7 : w.extractLsb' 25 7 = 0#7 :=
      Classical.byContradiction fun h7 => hq (.shift hop h1 h7)
    rw [if_pos (Or.inl h1), h1, h7]
    refine hshift 1#3 0#7 _ h1 h7 (Or.inl rfl) ?_
    show some (a <<< (w.extractLsb' 20 5).toNat) = some (a <<< (bits w 20 5 &&& 31#32))
    rw [show bits w 20 5 &&& 31#32 = bits w 20 5 from hsmall, ← hnat]
    rfl
  · by_cases h5 : w.extractLsb' 12 3 = 5#3
    · rw [if_pos (Or.inr h5), h5]
      by_cases h7 : w.extractLsb' 25 7 = 0#7
      · rw [h7]
        refine hshift 5#3 0#7 _ h5 h7 (Or.inr rfl) ?_
        show some (a >>> (w.extractLsb' 20 5).toNat) = some (a >>> (bits w 20 5 &&& 31#32))
        rw [show bits w 20 5 &&& 31#32 = bits w 20 5 from hsmall, ← hnat]
        rfl
      · have h20 : w.extractLsb' 25 7 = 0x20#7 :=
          Classical.byContradiction fun h7' => hq (.shiftRight hop h5 h7 h7')
        rw [h20]
        refine hshift 5#3 0x20#7 _ h5 h20 (Or.inr rfl) ?_
        show some (a.sshiftRight (w.extractLsb' 20 5).toNat) =
          some (a.sshiftRight (bits w 20 5 &&& 31#32).toNat)
        rw [show bits w 20 5 &&& 31#32 = bits w 20 5 from hsmall, ← hnat]
    · rw [if_neg (not_or.2 ⟨h1, h5⟩)]
      unfold immediate
      simp only
      rw [if_neg (not_or.2 ⟨h1, h5⟩), iImm_eq]
      generalize w.extractLsb' 12 3 = f3 at h1 h5
      rcases three_bits f3 with hf | hf | hf | hf | hf | hf | hf | hf <;> subst hf <;>
        first | rfl | contradiction

theorem executebranch_eq (a b : Word) (f3 : BitVec 3) :
    executebranch a b f3 = branchTaken a b f3 := by
  rcases three_bits f3 with hf | hf | hf | hf | hf | hf | hf | hf <;> subst hf <;> rfl

theorem alu_zero (v : Word) : alu 0#32 v 0#3 0#7 = v := BitVec.zero_add v

theorem executebranch_beq (a b : Word) : executebranch a b 0#3 = some (a == b) := rfl

theorem executebranch_bne (a b : Word) : executebranch a b 1#3 = some (a != b) := rfl

/-- A shift by a count with bit 5 clear. -/
theorem shift_small (f : Nat → Word) {c : Half} (hc : c.extractLsb' 12 1 = 0#1) :
    shift f (ciDecoderImm c) = some (f (shamt c &&& 31#32).toNat) := by
  have himm : (ciDecoderImm c).setWidth 8 = (c.extractLsb' 2 5).setWidth 8 := by
    ext i hi
    unfold ciDecoderImm
    rw [hc]
    interval_cases i <;> simp [getElem_cat, BitVec.getElem_signExtend, BitVec.msb_eq_getLsbD_last]
  have hlt := (c.extractLsb' 2 5).isLt
  have hnat : ((c.extractLsb' 2 5).setWidth 8 : BitVec 8).toNat = (c.extractLsb' 2 5).toNat :=
    BitVec.toNat_setWidth_of_le (by decide)
  have hnat' : (shamt c &&& 31#32).toNat = (c.extractLsb' 2 5).toNat := by
    rw [shamt_eq hc, shamt_small]
    exact BitVec.toNat_setWidth_of_le (by decide)
  unfold shift
  rw [himm, hnat, hnat', if_pos (by omega)]

/-! ## A host with the interpreter's memory -/

section
variable {H : Type}

/-- `n` bytes from a host pointer, the first one lowest. -/
def rawBytes (s : Purv.State H) (p : Ptr) (n : Nat) : Word :=
  loadValue s p (if n = 1 then 4#3 else if n = 2 then 5#3 else 2#3)

/-- The state of the interpreter that the engine's registers and its host make up. -/
def State.guest (s : State (Purv.State H)) : Purv.State H :=
  { s.host with pc := s.programcounter, inst := s.instruction, x := s.x }

/-- A trap handler of the interpreter as a hook. -/
def trapHook (h : Purv.Hooks H) (t : Trap) (s : State (Purv.State H)) : State (Purv.State H) :=
  match (h.handler t).1 with
  | none => s
  | some f => { s with x := (f s.guest).1.x, host := (f s.guest).1 }

/-- The hooks of a host that keeps the guest's memory as the interpreter does. -/
def machine (h : Purv.Hooks H) : Hooks (Purv.State H) where
  load m address length :=
    match memXlate m address (BitVec.ofNat 32 length) false with
    | some p => (m, rawBytes m p length)
    | none =>
      let (r, v) := (⟨m, []⟩ : Run H).callback h .load address 0#32
      (r.s, v)
  store m address v length :=
    match memXlate m address (BitVec.ofNat 32 length) true with
    | some p => storeValue m p v (if length = 1 then 0#3 else if length = 2 then 1#3 else 2#3)
    | none => ((⟨m, []⟩ : Run H).callback h .store address v).1.s
  illegalInstruction := trapHook h .illegal
  handleECALL := trapHook h .ecall
  handleEBREAK := trapHook h .ebreak

/-- `s->pc = pc; s->inst = inst` on a state. -/
def dress (r : Purv.State H) (pc inst : Word) : Purv.State H := { r with pc := pc, inst := inst }

/-- The engine holds what the interpreter holds. -/
def Beside (s : State (Purv.State H)) (r : Purv.State H) : Prop :=
  s.guest = dress r s.programcounter s.instruction

section
variable {s : State (Purv.State H)} {r : Purv.State H} (hb : Beside s r)
include hb

theorem Beside.x : s.x = r.x := congrArg (fun a => a.x) hb

theorem Beside.mem : s.host.mem = r.mem := congrArg (fun a => a.mem) hb

theorem Beside.host : s.host.host = r.host := congrArg (fun a => a.host) hb

theorem Beside.readonly : s.host.readonly = r.readonly := congrArg (fun a => a.readonly) hb

theorem Beside.writable : s.host.writable = r.writable := congrArg (fun a => a.writable) hb

theorem Beside.xlate (a n : Word) (w : Bool) : memXlate s.host a n w = memXlate r a n w := by
  unfold memXlate
  rw [hb.writable, hb.readonly]

theorem Beside.jump (pc : Word) : Beside (s.jump pc) r := hb

theorem Beside.flag : Beside s.flag r := hb

theorem Beside.setX (i : Reg) (v : Word) : Beside (s.setX i v) (r.setX i v) := by
  show { s.guest with x := fun j => if j = i then v else s.guest.x j } =
    dress (r.setX i v) s.programcounter s.instruction
  rw [show s.guest = dress r s.programcounter s.instruction from hb]
  rfl

theorem Beside.wr (i : Reg) (v : Word) : Beside (s.wr i v) (r.wr i v) := by
  unfold State.wr Purv.State.wr
  split
  · exact hb
  · exact hb.setX i v

end

/-- The engine's host is the interpreter's state but for what the engine keeps itself. -/
theorem beside_of_host {s : State (Purv.State H)} {r : Purv.State H} (hx : s.x = r.x)
    (hmem : s.host.mem = r.mem) (hhost : s.host.host = r.host)
    (hro : s.host.readonly = r.readonly) (hw : s.host.writable = r.writable) : Beside s r := by
  obtain ⟨i, pc, next, inst, x, ⟨pc', inst', x', ro, w, mem, host⟩⟩ := s
  obtain ⟨rpc, rinst, rx, rro, rw', rmem, rhost⟩ := r
  simp only at hx hmem hhost hro hw
  subst hx hmem hhost hro hw
  rfl

/-- A device answers two states alike that have the same memory and host. -/
theorem callback_beside {h : Purv.Hooks H} (hd : Purva.Hooks.IsDevice h) {m r : Purv.State H}
    (hmem : m.mem = r.mem) (hhost : m.host = r.host) (log : List (Call H)) (op : MemOp)
    (a v : Word) :
    ((⟨m, []⟩ : Run H).callback h op a v).2 = ((⟨r, log⟩ : Run H).callback h op a v).2 ∧
      ((⟨m, []⟩ : Run H).callback h op a v).1.s =
        { m with mem := ((⟨r, log⟩ : Run H).callback h op a v).1.s.mem
                 host := ((⟨r, log⟩ : Run H).callback h op a v).1.s.host } ∧
      ((⟨r, log⟩ : Run H).callback h op a v).1.s =
        { r with mem := ((⟨r, log⟩ : Run H).callback h op a v).1.s.mem
                 host := ((⟨r, log⟩ : Run H).callback h op a v).1.s.host } := by
  unfold Run.callback
  split
  · refine ⟨rfl, ?_, rfl⟩
    show m = { m with mem := r.mem, host := r.host }
    rw [← hmem, ← hhost]
  · rename_i f hf
    obtain ⟨g, rfl⟩ := hd f hf
    simp only [Purva.Device.hook, hmem, hhost]
    exact ⟨trivial, trivial, trivial⟩

/-- The bytes of a load, cast as the instruction says. -/
theorem loadCast_narrow (v : Word) {f3 : BitVec 3} {n : Nat} (hlen : loadLength f3 = some n) :
    loadCast (v &&& BitVec.ofNat 32 (2 ^ (8 * n) - 1)) f3 = narrow v (BitVec.ofNat 32 n) f3 := by
  have h8 : (v &&& 0xff#32).setWidth 8 = v.setWidth 8 := by
    ext i hi
    interval_cases i <;> simp
  have h16 : (v &&& 0xffff#32).setWidth 16 = v.setWidth 16 := by
    ext i hi
    interval_cases i <;> simp
  have h8' : (v.setWidth 8).setWidth 32 = v &&& 0xff#32 := by
    ext i hi
    interval_cases i <;> simp
  have h16' : (v.setWidth 16).setWidth 32 = v &&& 0xffff#32 := by
    ext i hi
    interval_cases i <;> simp
  rcases three_bits f3 with hf | hf | hf | hf | hf | hf | hf | hf <;> subst hf <;> cases hlen
  · show ((v &&& 0xff#32).setWidth 8).signExtend 32 = sext v 8
    rw [h8, sext_eq _ _ (by decide) (by decide)]
  · show ((v &&& 0xffff#32).setWidth 16).signExtend 32 = sext v 16
    rw [h16, sext_eq _ _ (by decide) (by decide)]
  · show v &&& 0xffffffff#32 = sext v 32
    rw [sext_full]
    exact BitVec.and_allOnes
  · show ((v &&& 0xff#32).setWidth 8).setWidth 32 = v &&& 0xff#32
    rw [h8, h8']
  · show ((v &&& 0xffff#32).setWidth 16).setWidth 32 = v &&& 0xffff#32
    rw [h16, h16']

/-- The bytes of memory, narrowed, are what the interpreter loads. -/
theorem rawBytes_narrow (s : Purv.State H) (p : Ptr) {f3 : BitVec 3} {n : Nat}
    (hlen : loadLength f3 = some n) :
    narrow (rawBytes s p n) (BitVec.ofNat 32 n) f3 = loadValue s p f3 := by
  have h16 : ∀ b b' : Byte, (b.setWidth 32 ||| b'.setWidth 32 <<< 8 : Word).setWidth 16 =
      b.setWidth 16 ||| b'.setWidth 16 <<< 8 := fun b b' => by
    ext i hi
    interval_cases i <;> simp
  rcases three_bits f3 with hf | hf | hf | hf | hf | hf | hf | hf <;> subst hf <;> cases hlen
  · show sext ((s.byte p 0).setWidth 32) 8 = (s.byte p 0).signExtend 32
    rw [sext_eq _ _ (by decide) (by decide)]
    congr 1
    ext i hi
    interval_cases i <;> simp
  · show sext ((s.byte p 0).setWidth 32 ||| (s.byte p 1).setWidth 32 <<< 8) 16 =
      ((s.byte p 0).setWidth 16 ||| (s.byte p 1).setWidth 16 <<< 8).signExtend 32
    rw [sext_eq _ _ (by decide) (by decide), h16]
  · exact sext_full _
  · show (s.byte p 0).setWidth 32 &&& 0xff#32 = (s.byte p 0).setWidth 32
    ext i hi
    interval_cases i <;> simp
  · show ((s.byte p 0).setWidth 32 ||| (s.byte p 1).setWidth 32 <<< 8) &&& 0xffff#32 =
      (s.byte p 0).setWidth 32 ||| (s.byte p 1).setWidth 32 <<< 8
    ext i hi
    interval_cases i <;> simp

theorem loadLength_size {f3 : BitVec 3} {n : Nat} (hlen : loadLength f3 = some n) :
    1#32 <<< (f3.toNat % 4) = BitVec.ofNat 32 n := by
  rcases three_bits f3 with hf | hf | hf | hf | hf | hf | hf | hf <;> subst hf <;> cases hlen <;>
    rfl

theorem loadLength_none (f3 : BitVec 3) : loadLength f3 = none ↔ f3 = 3#3 ∨ f3 > 5#3 := by
  revert f3
  decide

section
variable {h : Purv.Hooks H} (hd : Purva.Hooks.IsDevice h) {s : State (Purv.State H)} {r : Run H}
  (hb : Beside s r.s)
include hd hb

/-- **A load leaves both engines alike.** -/
theorem load_beside {f3 : BitVec 3} {n : Nat} (hlen : loadLength f3 = some n) {rd : Reg}
    (hrd : rd ≠ 0#5) (a : Word) :
    Beside ((s.load (machine h) a n).1.setX rd (loadCast (s.load (machine h) a n).2 f3))
      (execLoad h r rd a f3).s := by
  unfold execLoad State.load
  simp only [machine]
  rw [if_neg hrd, loadLength_size hlen, hb.xlate]
  cases hx : memXlate r.s a (BitVec.ofNat 32 n) false with
  | some p =>
    simp only
    have hv : rawBytes s.host p n = rawBytes r.s p n := by
      unfold rawBytes loadValue Purv.State.byte
      rw [hb.mem]
    rw [loadCast_narrow _ hlen, hv, rawBytes_narrow r.s p hlen]
    have hset := hb.setX rd (loadValue r.s p f3)
    show Beside _ (r.s.wr rd _)
    unfold Purv.State.wr
    rw [if_neg hrd]
    exact hset
  | none =>
    simp only
    obtain ⟨hv, hm, hr⟩ := callback_beside hd hb.mem hb.host r.log .load a 0#32
    rw [loadCast_narrow _ hlen, hv]
    show Beside _ ((r.callback h .load a 0#32).1.s.wr rd _)
    unfold Purv.State.wr
    rw [if_neg hrd]
    refine Beside.setX (beside_of_host ?_ ?_ ?_ ?_ ?_) rd _
    · rw [show (r.callback h .load a 0#32).1.s = _ from hr]
      exact hb.x
    · simp only [hm]
    · simp only [hm]
    · simp only [hm]
      rw [show (r.callback h .load a 0#32).1.s = _ from hr]
      exact hb.readonly
    · simp only [hm]
      rw [show (r.callback h .load a 0#32).1.s = _ from hr]
      exact hb.writable

omit hd hb in
theorem storeLength_none (f3 : BitVec 3) : storeLength f3 = none ↔ f3 > 2#3 := by
  revert f3
  decide

omit hd hb in
/-- A store writes the same bytes into the same memory. -/
theorem storeValue_mem (m r : Purv.State H) (hmem : m.mem = r.mem) (p : Ptr) (v : Word)
    (f3 : BitVec 3) :
    storeValue m p v f3 = { m with mem := (storeValue r p v f3).mem } ∧
      storeValue r p v f3 = { r with mem := (storeValue r p v f3).mem } := by
  obtain ⟨mpc, minst, mx, mro, mw, mmem, mhost⟩ := m
  simp only at hmem
  subst hmem
  unfold storeValue
  split <;> exact ⟨rfl, rfl⟩

/-- **A store leaves both engines alike.** -/
theorem store_beside {f3 : BitVec 3} {n : Nat} (hlen : storeLength f3 = some n) (a v : Word) :
    Beside (s.store (machine h) a v n) (execStore h r a v f3).s := by
  have hsize : 1#32 <<< f3.toNat = BitVec.ofNat 32 n ∧
      (if n = 1 then 0#3 else if n = 2 then 1#3 else 2#3) = f3 := by
    rcases three_bits f3 with hf | hf | hf | hf | hf | hf | hf | hf <;> subst hf <;> cases hlen <;>
      exact ⟨rfl, rfl⟩
  unfold execStore State.store
  simp only [machine]
  rw [hsize.1, hsize.2, hb.xlate]
  cases hx : memXlate r.s a (BitVec.ofNat 32 n) true with
  | some p =>
    simp only
    obtain ⟨hm, hr⟩ := storeValue_mem s.host r.s hb.mem p v f3
    refine beside_of_host ?_ ?_ ?_ ?_ ?_
    · rw [hr]
      exact hb.x
    · rw [hm]
    · rw [hm, hr]
      exact hb.host
    · rw [hm, hr]
      exact hb.readonly
    · rw [hm, hr]
      exact hb.writable
  | none =>
    simp only
    obtain ⟨-, hm, hr⟩ := callback_beside hd hb.mem hb.host r.log .store a v
    refine beside_of_host ?_ ?_ ?_ ?_ ?_
    · rw [show (r.callback h .store a v).1.s = _ from hr]
      exact hb.x
    · simp only [hm]
    · simp only [hm]
    · simp only [hm]
      rw [show (r.callback h .store a v).1.s = _ from hr]
      exact hb.readonly
    · simp only [hm]
      rw [show (r.callback h .store a v).1.s = _ from hr]
      exact hb.writable

end

/-! ## One instruction -/

/-- The 16-bit encodings whose immediate the ratified instructions reserve. -/
inductive ReservedHalf (c : Half) : Prop
  | addi16sp (sel : (c.extractLsb' 13 3).toNat * 4 + (c.extractLsb' 0 2).toNat = 13)
      (rd : c.extractLsb' 7 5 = (2#5 : Reg)) (imm : addi16spImm c = 0#32)
  | lui (sel : (c.extractLsb' 13 3).toNat * 4 + (c.extractLsb' 0 2).toNat = 13)
      (rd : c.extractLsb' 7 5 ≠ (2#5 : Reg)) (imm : cluiImm c = 0#32)
  | shiftRight (sel : (c.extractLsb' 13 3).toNat * 4 + (c.extractLsb' 0 2).toNat = 17)
      (f2 : c.extractLsb' 10 2 = 0#2 ∨ c.extractLsb' 10 2 = 1#2) (imm : c.extractLsb' 12 1 ≠ 0#1)
  | shift (sel : (c.extractLsb' 13 3).toNat * 4 + (c.extractLsb' 0 2).toNat = 2)
      (rd : c.extractLsb' 7 5 ≠ (0#5 : Reg)) (imm : c.extractLsb' 12 1 ≠ 0#1)

theorem selector_eq (f3 : BitVec 3) (op : BitVec 2) :
    (cat 5 f3 op).toNat = f3.toNat * 4 + op.toNat := by
  revert f3 op
  decide

/-- The engine is about to execute the instruction that the interpreter is at. -/
structure Ready (s : State (Purv.State H)) (r : Run H) (pc width inst : Word) : Prop where
  beside : Beside s r.s
  calm : s.illegalinstruction = false
  here : s.programcounter = pc
  next : s.programcounternext = pc + width
  word : s.instruction = inst

/-- The engine is where the interpreter goes on. -/
structure Follows (pc width : Word) (o : Run H × Next) (s : State (Purv.State H)) : Prop where
  beside : Beside s o.1.s
  calm : s.illegalinstruction = false
  next : s.programcounternext = (match o.2 with | .jump t => t | _ => pc + width)

section
variable {h : Purv.Hooks H} {s : State (Purv.State H)} {r : Run H} {pc width inst : Word}
  (hr : Ready s r pc width inst)
include hr

theorem trap_calm {k : Hooks (Purv.State H)} {s' : State (Purv.State H)}
    (hc : s'.illegalinstruction = s.illegalinstruction) : trap k s' = s' := by
  unfold trap
  rw [hc, hr.calm]
  rfl

theorem follows_done {s' : State (Purv.State H)} {r' : Run H} (hb : Beside s' r'.s)
    (hc : s'.illegalinstruction = s.illegalinstruction)
    (hn : s'.programcounternext = s.programcounternext) :
    Follows pc width (r', .done) (trap (machine h) s') := by
  rw [trap_calm hr hc]
  exact ⟨hb, hc.trans hr.calm, hn.trans hr.next⟩

theorem follows_jump {s' : State (Purv.State H)} {r' : Run H} {t : Word} (hb : Beside s' r'.s)
    (hc : s'.illegalinstruction = s.illegalinstruction) (hn : s'.programcounternext = t) :
    Follows pc width (r', .jump t) (trap (machine h) s') := by
  rw [trap_calm hr hc]
  exact ⟨hb, hc.trans hr.calm, hn⟩

/-- A hook does what the handler does, whatever the trap flag. -/
theorem trapHook_beside (t : Trap) (flag : Bool) :
    Beside (trapHook h t { s with illegalinstruction := flag })
      ((r.fault pc inst).trap h t).1.s := by
  have hguest : State.guest { s with illegalinstruction := flag } = (r.fault pc inst).s := by
    show s.guest = dress r.s pc inst
    rw [← hr.here, ← hr.word]
    exact hr.beside
  unfold trapHook Run.trap
  rw [hguest]
  cases hh : h.handler t with
  | mk f stop =>
    cases f with
    | none => exact hguest.trans (by rw [← hr.here, ← hr.word]; rfl)
    | some f => rfl

omit hr in
theorem raise_next (h : Purv.Hooks H) (r : Run H) (pc width inst : Word) (t : Trap) :
    (match (r.raise h pc inst t).2 with | .jump t => t | _ => pc + width) = pc + width := by
  unfold Run.raise
  simp only
  split
  · rename_i ht
    split at ht <;> cases ht
  · rfl

omit hr in
theorem hook_keeps (h : Purv.Hooks H) (t : Trap) (s : State (Purv.State H)) :
    (trapHook h t s).illegalinstruction = s.illegalinstruction ∧
      (trapHook h t s).programcounternext = s.programcounternext := by
  unfold trapHook
  split <;> exact ⟨rfl, rfl⟩

theorem follows_trap (t : Trap) :
    Follows pc width (r.raise h pc inst t) (trap (machine h) (trapHook h t s)) := by
  obtain ⟨hc, hn⟩ := hook_keeps h t s
  rw [trap_calm hr hc]
  exact ⟨trapHook_beside hr t s.illegalinstruction, hc.trans hr.calm,
    (hn.trans hr.next).trans (raise_next h r pc width inst t).symm⟩

theorem follows_illegal :
    Follows pc width (r.raise h pc inst .illegal) (trap (machine h) s.flag) := by
  obtain ⟨-, hn⟩ := hook_keeps h .illegal s.flag
  exact ⟨trapHook_beside hr .illegal true, rfl,
    (hn.trans hr.next).trans (raise_next h r pc width inst .illegal).symm⟩

/-- A register write, as the last thing an instruction does. -/
theorem follows_wr (i : Reg) (v : Word) :
    Follows pc width (r.wr i v, .done) (trap (machine h) (s.wr i v)) := by
  have hkeeps : (s.wr i v).illegalinstruction = s.illegalinstruction ∧
      (s.wr i v).programcounternext = s.programcounternext := by
    unfold State.wr
    split <;> exact ⟨rfl, rfl⟩
  exact follows_done hr (hr.beside.wr i v) hkeeps.1 hkeeps.2

/-- A jump that links. -/
theorem follows_link (i : Reg) (v t : Word) :
    Follows pc width (r.wr i v, .jump t) (trap (machine h) ((s.wr i v).jump t)) := by
  refine follows_jump hr ((hr.beside.wr i v).jump t) ?_ rfl
  unfold State.wr
  split <;> rfl

/-- A jump that links into `x0`. -/
theorem follows_plain (v t : Word) :
    Follows pc width (r.wr 0#5 v, .jump t) (trap (machine h) (s.jump t)) :=
  follows_link hr 0#5 v t

/-- A branch, where its condition is known. -/
theorem follows_branch (a b imm : Word) (f3 : BitVec 3) :
    Follows pc width (Purv.execute h r pc width inst (.branch a b imm f3)) (trap (machine h)
      (match executebranch a b f3 with
        | none => s.flag
        | some true => s.jump (pc + imm)
        | some false => s)) := by
  rw [executebranch_eq]
  simp only [Purv.execute]
  cases branchTaken a b f3 with
  | none => exact follows_illegal hr
  | some t =>
    cases t with
    | true => exact follows_jump hr (hr.beside.jump _) rfl rfl
    | false => exact follows_done hr hr.beside rfl rfl

variable (hd : Purva.Hooks.IsDevice h)
include hd

/-- A load into a register. -/
theorem follows_load {f3 : BitVec 3} {n : Nat} (hlen : loadLength f3 = some n) {rd : Reg}
    (hrd : rd ≠ 0#5) (a imm : Word) :
    Follows pc width (Purv.execute h r pc width inst (.load rd a imm f3)) (trap (machine h)
      ((s.load (machine h) (a + imm) n).1.setX rd
        (loadCast (s.load (machine h) (a + imm) n).2 f3))) := by
  have hno : ¬ (f3 = 3#3 ∨ f3 > 5#3) := fun hc => by
    rw [(loadLength_none f3).2 hc] at hlen
    cases hlen
  simp only [Purv.execute]
  rw [if_neg hno]
  exact follows_done hr (load_beside hd hr.beside hlen hrd _) rfl rfl

/-- A store. -/
theorem follows_store {f3 : BitVec 3} {n : Nat} (hlen : storeLength f3 = some n) (a b imm : Word) :
    Follows pc width (Purv.execute h r pc width inst (.store a b imm f3)) (trap (machine h)
      (s.store (machine h) (a + imm) b n)) := by
  have hno : ¬ f3 > 2#3 := fun hc => by
    rw [(storeLength_none f3).2 hc] at hlen
    cases hlen
  simp only [Purv.execute]
  rw [if_neg hno]
  exact follows_done hr (store_beside hd hr.beside hlen _ _) rfl rfl

end

section
variable {h : Purv.Hooks H} (hd : Purva.Hooks.IsDevice h) {s : State (Purv.State H)} {r : Run H}
  {pc w : Word}
include hd

/-- **Every 32-bit instruction with a meaning does the same in both engines.** -/
theorem execute_follows (hr : Ready s r pc 4#32 w) (hq : ¬ ReservedWord w) :
    Follows pc 4#32 (Purv.execute h r pc 4#32 w (decode32 r.s.x w))
      (trap (machine h) (execute (machine h) s)) := by
  have hx := hr.beside.x
  have hdec : decode32 r.s.x w = decode32 r.s.x w := rfl
  conv at hdec => rhs; unfold decode32
  have hexec : execute (machine h) s = execute (machine h) s := rfl
  conv at hexec => rhs; unfold execute
  simp only [hr.word, hx, hr.here] at hexec
  simp only at hdec
  split at hdec
  case h_1 _ hk =>
    simp only [hk] at hexec
    rw [hdec, hexec, immediate_known hk hq]
    generalize r.s.x (w.extractLsb' 15 5) = a
    by_cases hf : w.extractLsb' 12 3 = 1#3 ∨ w.extractLsb' 12 3 = 5#3
    · rw [if_pos hf, if_pos hf]
      exact follows_wr hr _ _
    · rw [if_neg hf, if_neg hf]
      exact follows_wr hr _ _
  case h_2 _ hk =>
    simp only [hk] at hexec
    rw [hdec, hexec, operation_known hk hq]
    by_cases hf : w.extractLsb' 25 7 = 1#7
    · rw [if_pos hf, if_pos hf]
      exact follows_wr hr _ _
    · rw [if_neg hf, if_neg hf]
      exact follows_wr hr _ _
  case h_3 _ hk =>
    simp only [hk] at hexec
    rw [hdec, hexec]
    unfold executeLoad
    simp only
    cases hlen : loadLength (w.extractLsb' 12 3) with
    | none =>
      simp only [Purv.execute]
      rw [if_pos ((loadLength_none _).1 hlen)]
      exact follows_illegal hr
    | some n =>
      simp only
      by_cases hrd : w.extractLsb' 7 5 = (0#5 : Reg)
      · have hno : ¬ (w.extractLsb' 12 3 = 3#3 ∨ w.extractLsb' 12 3 > 5#3) := fun hc => by
          rw [(loadLength_none _).2 hc] at hlen
          cases hlen
        rw [if_pos hrd]
        simp only [Purv.execute]
        rw [if_neg hno]
        unfold execLoad
        simp only
        rw [if_pos hrd]
        exact follows_done hr hr.beside rfl rfl
      · rw [if_neg hrd, hx, iImm_eq, BitVec.add_comm]
        exact follows_load hr hd hlen hrd _ _
  case h_4 _ hk =>
    simp only [hk] at hexec
    rw [hdec, hexec, sDecoderImm_eq, BitVec.add_comm]
    cases hlen : storeLength (w.extractLsb' 12 3) with
    | none =>
      simp only [Purv.execute]
      rw [if_pos ((storeLength_none _).1 hlen)]
      exact follows_illegal hr
    | some n => exact follows_store hr hd hlen _ _ _
  case h_5 _ hk =>
    simp only [hk] at hexec
    rw [hdec, hexec, bDecoderImm_eq]
    exact follows_branch hr _ _ _ _
  case h_6 _ hk =>
    simp only [hk] at hexec
    rw [hdec, hexec, jDecoderImm_eq, hr.next]
    exact follows_link hr _ _ _
  case h_7 _ hk =>
    have hf3 : w.extractLsb' 12 3 = 0#3 :=
      Classical.byContradiction fun hf => hq (.jalr hk hf)
    simp only [hk] at hexec
    rw [hdec, hexec, if_pos hf3, iImm_eq, hr.next]
    exact follows_link hr _ _ _
  case h_8 _ hk =>
    simp only [hk] at hexec
    rw [hdec, hexec, uDecoderImm_eq]
    exact follows_wr hr _ _
  case h_9 _ hk =>
    simp only [hk] at hexec
    rw [hdec, hexec, uDecoderImm_eq]
    exact follows_wr hr _ _
  case h_10 _ hk =>
    simp only [hk] at hexec
    rw [hdec, hexec]
    by_cases hrd : w.extractLsb' 7 5 = (0#5 : Reg) ∧ w.extractLsb' 15 5 = (0#5 : Reg)
    · by_cases h0 : w.extractLsb' 12 3 = 0#3
      · have hno : ¬ (w.extractLsb' 7 5 ≠ (0#5 : Reg) ∨ w.extractLsb' 15 5 ≠ (0#5 : Reg) ∨
            w.extractLsb' 12 3 ≠ 0#3 ∧ w.extractLsb' 12 3 ≠ 1#3) := by
          rintro (hc | hc | hc)
          · exact hc hrd.1
          · exact hc hrd.2
          · exact hc.1 h0
        rw [if_neg hno, if_pos ⟨hrd.1, h0, hrd.2⟩]
        exact follows_done hr hr.beside rfl rfl
      · have hn0 : ¬ (w.extractLsb' 7 5 = (0#5 : Reg) ∧ w.extractLsb' 12 3 = 0#3 ∧
            w.extractLsb' 15 5 = (0#5 : Reg)) := fun hc => h0 hc.2.1
        rw [if_neg hn0]
        by_cases h1 : w.extractLsb' 12 3 = 1#3
        · have hno : ¬ (w.extractLsb' 7 5 ≠ (0#5 : Reg) ∨ w.extractLsb' 15 5 ≠ (0#5 : Reg) ∨
              w.extractLsb' 12 3 ≠ 0#3 ∧ w.extractLsb' 12 3 ≠ 1#3) := by
            rintro (hc | hc | hc)
            · exact hc hrd.1
            · exact hc hrd.2
            · exact hc.2 h1
          rw [if_neg hno, if_pos ⟨hrd.1, h1, hrd.2⟩]
          exact follows_done hr hr.beside rfl rfl
        · have hn1 : ¬ (w.extractLsb' 7 5 = (0#5 : Reg) ∧ w.extractLsb' 12 3 = 1#3 ∧
              w.extractLsb' 15 5 = (0#5 : Reg)) := fun hc => h1 hc.2.1
          rw [if_neg hn1, if_pos (Or.inr (Or.inr ⟨h0, h1⟩))]
          exact follows_illegal hr
    · have hn : ∀ f : BitVec 3, ¬ (w.extractLsb' 7 5 = (0#5 : Reg) ∧ w.extractLsb' 12 3 = f ∧
          w.extractLsb' 15 5 = (0#5 : Reg)) := fun f hc => hrd ⟨hc.1, hc.2.2⟩
      have hyes : w.extractLsb' 7 5 ≠ (0#5 : Reg) ∨ w.extractLsb' 15 5 ≠ (0#5 : Reg) ∨
          w.extractLsb' 12 3 ≠ 0#3 ∧ w.extractLsb' 12 3 ≠ 1#3 := by
        by_cases h7 : w.extractLsb' 7 5 = (0#5 : Reg)
        · exact .inr (.inl fun hc => hrd ⟨h7, hc⟩)
        · exact .inl h7
      rw [if_neg (hn _), if_neg (hn _), if_pos hyes]
      exact follows_illegal hr
  case h_11 _ hk =>
    have hbits : ∀ n : BitVec 12, bits w 20 12 = n.setWidth 32 ↔ w.extractLsb' 20 12 = n := by
      intro n
      unfold bits
      constructor
      · intro hc
        have := congrArg (fun v : Word => v.setWidth 12) hc
        simpa using this
      · rintro rfl
        rfl
    simp only [hk] at hexec
    rw [hdec, hexec]
    simp only [Purv.execute]
    by_cases hz : w.extractLsb' 7 5 = (0#5 : Reg) ∧ w.extractLsb' 12 3 = 0#3 ∧
        w.extractLsb' 15 5 = (0#5 : Reg)
    · rw [if_pos hz]
      by_cases h0 : w.extractLsb' 20 12 = 0#12
      · rw [if_pos h0, if_pos ⟨hz.2.1, hz.1, hz.2.2, (hbits 0#12).2 h0⟩]
        exact follows_trap hr .ecall
      · rw [if_neg h0, if_neg fun hc => h0 ((hbits 0#12).1 hc.2.2.2)]
        by_cases h1 : w.extractLsb' 20 12 = 1#12
        · rw [if_pos h1, if_pos ⟨hz.2.1, hz.1, hz.2.2, (hbits 1#12).2 h1⟩]
          exact follows_trap hr .ebreak
        · rw [if_neg h1, if_neg fun hc => h1 ((hbits 1#12).1 hc.2.2.2)]
          exact follows_illegal hr
    · rw [if_neg hz, if_neg fun hc => hz ⟨hc.2.1, hc.1, hc.2.2.1⟩,
        if_neg fun hc => hz ⟨hc.2.1, hc.1, hc.2.2.1⟩]
      exact follows_illegal hr
  case h_12 _ h1 h2 h3 h4 h5 h6 h7 h8 h9 h10 h11 =>
    have hill : execute (machine h) s = s.flag := by
      rw [hexec]
      split
      · exact absurd ‹_› h7
      · exact absurd ‹_› h2
      · exact absurd ‹_› h1
      · exact absurd ‹_› h3
      · exact absurd ‹_› h4
      · exact absurd ‹_› h5
      · exact absurd ‹_› h9
      · exact absurd ‹_› h8
      · exact absurd ‹_› h6
      · exact absurd ‹_› h11
      · exact absurd ‹_› h10
      · rfl
    rw [hdec, hill]
    exact follows_illegal hr

omit hd in
/-- `funct6` holds `funct3`, bit 12 and `funct2`. -/
theorem funct6_eq (c : Half) : c.extractLsb' 10 6 =
    cat 6 (c.extractLsb' 13 3) (cat 3 (c.extractLsb' 12 1) (c.extractLsb' 10 2)) := by
  ext i hi
  interval_cases i <;> simp [getElem_cat]

omit hd in
theorem four_codes (f : BitVec 2) : f = 0#2 ∨ f = 1#2 ∨ f = 2#2 ∨ f = 3#2 := by
  revert f
  decide

omit hd in
theorem executeMiscAlu_follows {c : Half} (hr : Ready s r pc 2#32 w)
    (h13 : c.extractLsb' 13 3 = 4#3)
    (hq : c.extractLsb' 10 2 = 0#2 ∨ c.extractLsb' 10 2 = 1#2 → c.extractLsb' 12 1 = 0#1) :
    ∃ s', executeMiscAlu s c = some s' ∧
      Follows pc 2#32 (Purv.execute h r pc 2#32 w (decodeMiscAlu r.s.x c))
        (trap (machine h) s') := by
  have hx := hr.beside.x
  have hreg : ∀ lo, regp c lo = primeReg c lo := fun _ => rfl
  unfold executeMiscAlu decodeMiscAlu
  simp only [h13, hx, hreg]
  rcases four_codes (c.extractLsb' 10 2) with h2 | h2 | h2 | h2
  · rw [h2, if_pos (by decide), shift_small _ (hq (.inl h2))]
    exact ⟨_, rfl, follows_wr hr _ _⟩
  · rw [h2, if_neg (by decide), if_pos (by decide), shift_small _ (hq (.inr h2))]
    exact ⟨_, rfl, follows_wr hr _ _⟩
  · rw [h2, if_neg (by decide), if_neg (by decide), if_pos (by decide), ciDecoderImm_eq]
    exact ⟨_, rfl, follows_wr hr _ _⟩
  · rw [funct6_eq, h13, h2, if_neg (by decide), if_neg (by decide), if_neg (by decide)]
    by_cases h12 : c.extractLsb' 12 1 = 0#1
    · rw [h12]
      rcases four_codes (c.extractLsb' 5 2) with h5 | h5 | h5 | h5
      · rw [h5, if_pos (by decide)]
        exact ⟨_, rfl, follows_wr hr _ _⟩
      · rw [h5, if_neg (by decide), if_pos (by decide)]
        exact ⟨_, rfl, follows_wr hr _ _⟩
      · rw [h5, if_neg (by decide), if_neg (by decide), if_pos (by decide)]
        exact ⟨_, rfl, follows_wr hr _ _⟩
      · rw [h5, if_neg (by decide), if_neg (by decide), if_neg (by decide), if_pos (by decide)]
        exact ⟨_, rfl, follows_wr hr _ _⟩
    · have hnone : ∀ f : BitVec 2,
          cat 8 (cat 6 (4#3 : BitVec 3) (cat 3 (1#1 : BitVec 1) (3#2 : BitVec 2) : BitVec 3) :
            BitVec 6) f ≠ FUNCT6_FUNCT2_SUB ∧
          cat 8 (cat 6 (4#3 : BitVec 3) (cat 3 (1#1 : BitVec 1) (3#2 : BitVec 2) : BitVec 3) :
            BitVec 6) f ≠ FUNCT6_FUNCT2_XOR ∧
          cat 8 (cat 6 (4#3 : BitVec 3) (cat 3 (1#1 : BitVec 1) (3#2 : BitVec 2) : BitVec 3) :
            BitVec 6) f ≠ FUNCT6_FUNCT2_OR ∧
          cat 8 (cat 6 (4#3 : BitVec 3) (cat 3 (1#1 : BitVec 1) (3#2 : BitVec 2) : BitVec 3) :
            BitVec 6) f ≠ FUNCT6_FUNCT2_AND := by
        decide
      obtain ⟨hsub, hxor, hor, hand⟩ := hnone (c.extractLsb' 5 2)
      rw [bit_one h12, if_neg hsub, if_neg hxor, if_neg hor, if_neg hand]
      exact ⟨_, rfl, follows_illegal hr⟩

omit hd in
theorem executeJalrMvAdd_follows {c : Half} (hr : Ready s r pc 2#32 w)
    (h13 : c.extractLsb' 13 3 = 4#3) :
    Follows pc 2#32 (Purv.execute h r pc 2#32 w (decodeJrMvAdd r.s.x c))
      (trap (machine h) (executeJalrMvAdd (machine h) s c)) := by
  have hx := hr.beside.x
  have h4 : c.extractLsb' 12 4 = cat 4 (c.extractLsb' 13 3) (c.extractLsb' 12 1) := by
    ext i hi
    interval_cases i <;> simp [getElem_cat]
  unfold executeJalrMvAdd decodeJrMvAdd
  simp only [hx, hr.here]
  rw [h4, h13]
  have hjump : ∀ a : Word, (a + 0#32) &&& ~~~1#32 = a &&& 0xfffffffe#32 := fun a => by
    rw [BitVec.add_zero]
    rfl
  by_cases h12 : c.extractLsb' 12 1 = 0#1
  · have hmv : cat 4 (4#3 : BitVec 3) (0#1 : BitVec 1) = FUNCT4_MV := rfl
    rw [h12, if_pos rfl, if_pos hmv]
    by_cases h2 : c.extractLsb' 2 5 = (0#5 : Reg)
    · rw [if_pos h2, if_pos h2, ← hjump]
      exact follows_plain hr _ _
    · rw [if_neg h2, if_neg h2]
      simp only [Purv.execute, alu_zero]
      exact follows_wr hr _ _
  · have hmv : cat 4 (4#3 : BitVec 3) (1#1 : BitVec 1) ≠ FUNCT4_MV := by decide
    have h10 : ¬ (1#1 : BitVec 1) = 0#1 := by decide
    rw [bit_one h12, if_neg h10, if_neg hmv]
    by_cases hz : c.extractLsb' 7 5 = (0#5 : Reg) ∧ c.extractLsb' 2 5 = (0#5 : Reg)
    · rw [if_pos hz, if_pos hz]
      exact follows_trap hr .ebreak
    · rw [if_neg hz, if_neg hz]
      by_cases h2 : c.extractLsb' 2 5 = (0#5 : Reg)
      · rw [if_pos h2, if_pos h2, ← hjump]
        exact follows_link hr _ _ _
      · rw [if_neg h2, if_neg h2]
        exact follows_wr hr _ _

/-- **Every 16-bit instruction with a meaning does the same in both engines.** -/
theorem executeCompressed_follows {c : Half} (hr : Ready s r pc 2#32 (c.setWidth 32))
    (hq : ¬ ReservedHalf c) :
    ∃ s', executeCompressed (machine h) s = some s' ∧
      Follows pc 2#32 (Purv.execute h r pc 2#32 (c.setWidth 32) (decode16 r.s.x c))
        (trap (machine h) s') := by
  have hx := hr.beside.x
  have hreg : ∀ lo, regp c lo = primeReg c lo := fun _ => rfl
  have hc : (c.setWidth 32 : Word).setWidth 16 = c := by
    ext i hi
    simp
  have hprime : ∀ lo, primeReg c lo ≠ 0#5 := fun lo => by
    rw [primeReg_eq]
    exact popular_ne_zero _
  have hfour : ∀ {n : Nat}, (c.extractLsb' 13 3).toNat * 4 + (c.extractLsb' 0 2).toNat = 16 + n →
      n < 4 → c.extractLsb' 13 3 = 4#3 := fun hk hn =>
    BitVec.eq_of_toNat_eq (show _ = 4 by have := (c.extractLsb' 0 2).isLt; omega)
  have hdec : decode16 r.s.x c = decode16 r.s.x c := rfl
  conv at hdec => rhs; unfold decode16
  have hexec : executeCompressed (machine h) s = executeCompressed (machine h) s := rfl
  conv at hexec => rhs; unfold executeCompressed
  simp only [hr.word, hx, hr.here, hc, selector_eq, hreg] at hexec
  simp only at hdec
  split at hdec
  case h_1 _ hk =>
    simp only [hk] at hexec
    rw [hdec, hexec, ciwDecoderImm_eq]
    by_cases hz : addi4spnImm c = 0#32
    · rw [if_pos hz, if_neg (not_not_intro hz)]
      exact ⟨_, rfl, follows_illegal hr⟩
    · rw [if_neg hz, if_pos hz]
      exact ⟨_, rfl, follows_wr hr _ _⟩
  case h_2 _ hk =>
    simp only [hk] at hexec
    rw [hdec, hexec, clDecoderImm_eq]
    exact ⟨_, rfl, follows_load hr hd rfl (hprime 2) _ _⟩
  case h_3 _ hk =>
    simp only [hk] at hexec
    rw [hdec, hexec, clDecoderImm_eq]
    exact ⟨_, rfl, follows_store hr hd rfl _ _ _⟩
  case h_4 _ hk =>
    simp only [hk] at hexec
    rw [hdec, hexec, ciDecoderImm_eq]
    exact ⟨_, rfl, follows_wr hr _ _⟩
  case h_5 _ hk =>
    simp only [hk] at hexec
    rw [hdec, hexec, cjDecoderImm_eq]
    exact ⟨_, rfl, follows_link hr _ _ _⟩
  case h_6 _ hk =>
    simp only [hk] at hexec
    rw [hdec, hexec, cjDecoderImm_eq]
    exact ⟨_, rfl, follows_plain hr _ _⟩
  case h_7 _ hk =>
    simp only [hk] at hexec
    rw [hdec, hexec, ciDecoderImm_eq]
    simp only [Purv.execute, alu_zero]
    exact ⟨_, rfl, follows_wr hr _ _⟩
  case h_8 _ hk =>
    simp only [hk] at hexec
    rw [hdec, hexec]
    unfold executeLuiAddi16sp
    simp only [ciAddi16spDecoderImm_eq, ciLuiDecoderImm_eq, hx]
    by_cases h2 : c.extractLsb' 7 5 = (2#5 : Reg)
    · have hz : addi16spImm c ≠ 0#32 := fun hz => hq (.addi16sp hk h2 hz)
      rw [if_pos h2, if_pos h2, if_neg hz, if_neg hz, h2]
      exact ⟨_, rfl, follows_wr hr 2#5 _⟩
    · have hz : cluiImm c ≠ 0#32 := fun hz => hq (.lui hk h2 hz)
      rw [if_neg h2, if_neg h2, if_neg hz]
      exact ⟨_, rfl, follows_wr hr _ _⟩
  case h_9 _ hk =>
    simp only [hk] at hexec
    rw [hdec, hexec]
    refine executeMiscAlu_follows hr (hfour (n := 1) hk (by decide)) fun hf => ?_
    exact Classical.byContradiction fun h12 => hq (.shiftRight hk hf h12)
  case h_10 _ hk =>
    simp only [hk] at hexec
    rw [hdec, hexec, cbDecoderImm_eq]
    refine ⟨_, rfl, ?_⟩
    have hb := follows_branch (h := h) hr (r.s.x (primeReg c 7)) 0#32 (cbImm c) 0#3
    rw [executebranch_beq] at hb
    by_cases hz : r.s.x (primeReg c 7) = 0#32
    · rw [if_pos hz]
      rwa [beq_iff_eq.2 hz] at hb
    · rw [if_neg hz]
      rwa [beq_eq_false_iff_ne.2 hz] at hb
  case h_11 _ hk =>
    simp only [hk] at hexec
    rw [hdec, hexec, cbDecoderImm_eq]
    refine ⟨_, rfl, ?_⟩
    have hb := follows_branch (h := h) hr (r.s.x (primeReg c 7)) 0#32 (cbImm c) 1#3
    rw [executebranch_bne] at hb
    by_cases hz : r.s.x (primeReg c 7) = 0#32
    · rw [if_neg (not_not_intro hz)]
      rwa [bne_eq_false_iff_eq.2 hz] at hb
    · rw [if_pos hz]
      rwa [bne_iff_ne.2 hz] at hb
  case h_12 _ hk =>
    simp only [hk] at hexec
    rw [hdec, hexec]
    by_cases hrd : c.extractLsb' 7 5 = (0#5 : Reg)
    · rw [if_pos hrd, hrd]
      exact ⟨_, rfl, follows_wr hr 0#5 _⟩
    · have h12 : c.extractLsb' 12 1 = 0#1 :=
        Classical.byContradiction fun h12 => hq (.shift hk hrd h12)
      rw [if_neg hrd, shift_small _ h12]
      refine ⟨_, rfl, ?_⟩
      have hw := follows_wr (h := h) hr (c.extractLsb' 7 5)
        (alu (r.s.x (c.extractLsb' 7 5)) (shamt c) 1#3 0#7)
      unfold State.wr at hw
      rwa [if_neg hrd] at hw
  case h_13 _ hk =>
    simp only [hk] at hexec
    rw [hdec, hexec, cilwspDecoderImm_eq]
    by_cases hrd : c.extractLsb' 7 5 = (0#5 : Reg)
    · rw [if_pos hrd]
      refine ⟨_, rfl, ?_⟩
      simp only [Purv.execute]
      rw [if_neg (by decide)]
      unfold execLoad
      simp only
      rw [if_pos hrd]
      exact follows_done hr hr.beside rfl rfl
    · rw [if_neg hrd]
      exact ⟨_, rfl, follows_load hr hd rfl hrd _ _⟩
  case h_14 _ hk =>
    simp only [hk] at hexec
    rw [hdec, hexec]
    exact ⟨_, rfl, executeJalrMvAdd_follows hr (hfour (n := 2) hk (by decide))⟩
  case h_15 _ hk =>
    simp only [hk] at hexec
    rw [hdec, hexec, cssDecoderImm_eq]
    exact ⟨_, rfl, follows_store hr hd rfl _ _ _⟩
  case h_16 _ h1 h2 h3 h4 h5 h6 h7 h8 h9 h10 h11 h12 h13 h14 h15 =>
    have hill : executeCompressed (machine h) s = some s.flag := by
      rw [hexec]
      split
      · exact absurd ‹_› h1
      · exact absurd ‹_› h2
      · exact absurd ‹_› h3
      · exact absurd ‹_› h4
      · exact absurd ‹_› h5
      · exact absurd ‹_› h7
      · exact absurd ‹_› h8
      · exact absurd ‹_› h9
      · exact absurd ‹_› h6
      · exact absurd ‹_› h10
      · exact absurd ‹_› h11
      · exact absurd ‹_› h12
      · exact absurd ‹_› h13
      · exact absurd ‹_› h14
      · exact absurd ‹_› h15
      · rfl
    rw [hdec, hill]
    exact ⟨_, rfl, follows_illegal hr⟩

end

end

end Purv.Purg

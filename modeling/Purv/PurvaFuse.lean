import Purv.PurvaOps

/-!
# Fused pairs replay their source

A fused op runs where two or three instructions stood.  The source is what the interpreter does with
those instructions one after the other.

* `replay` — the interpreter on `n` instructions in a row;
* `Device` — a memory callback that does not see the registers;
* `veil` — a run up to some registers and up to the state that the callback was shown;
* `Replays` — what an op leaves is what its source leaves, and they go on alike;
* `replays_shadd` .. `replays_vcall` — one lemma for each of the seven patterns;
* `tryFusePair_replays` — every pattern replays its source, but for a vtable call through an odd
  word that is left in another register than ra.
-/

namespace Purv.Purva

open Bits Transcode

variable {H : Type}

/-! ## The source -/

/-- `n` instructions from `pc` one after the other, up to the first that does not fall through. -/
def replay (h : Hooks H) (code : Nat → Byte) : Nat → Run H → Word → Run H × Next
  | 0, r, _ => (r, .done)
  | n + 1, r, pc =>
    match oneInsn h r pc (fetch code pc) with
    | (r, .done) => replay h code n r (pc + (fetch code pc).width)
    | o => o

/-- The size of an instruction is in its opcode. -/
theorem low_of_opcode (w : Word) :
    w.extractLsb' 0 2 = BitVec.ofNat 2 (w.extractLsb' 0 7).toNat := by
  apply BitVec.eq_of_toNat_eq
  simp only [BitVec.extractLsb'_toNat, BitVec.toNat_ofNat, Nat.shiftRight_zero]
  omega

/-- Whatever decodes is a 32-bit instruction. -/
theorem decode_low {code : Nat → Byte} {off : Word}
    (hop : (decode code off).op ≠ RISCV_OP_ILLEGAL) :
    (wordAt code off).extractLsb' 0 2 = 3#2 := by
  rw [low_of_opcode]
  have hdec : decodeWord (wordAt code off) off = decodeWord (wordAt code off) off := rfl
  conv at hdec => rhs; unfold decodeWord
  simp only at hdec
  split at hdec
  case h_13 =>
    refine absurd ?_ hop
    unfold decode
    rw [hdec]
    unfold Dec.foldZero
    refine congrArg Dec.op (if_neg ?_)
    rintro ⟨-, hc⟩
    rcases hc with hc | hc | hc
    · exact absurd (show RISCV_OP_ILLEGAL ≤ RISCV_OP_REMU from hc) (by decide)
    · exact absurd (show RISCV_OP_ILLEGAL = RISCV_OP_LUI from hc) (by decide)
    · exact absurd (show RISCV_OP_ILLEGAL = RISCV_OP_AUIPC from hc) (by decide)
  all_goals
    rename_i hk
    exact (congrArg (BitVec.ofNat 2) hk).trans rfl

/-- Misread words give `SRA`, `MEMOP` or nothing. -/
theorem decode_misread {code : Nat → Byte} {off : Word} (hq : Misread (wordAt code off)) :
    (decode code off).op = RISCV_OP_SRA ∨ (decode code off).op = RISCV_OP_MEMOP ∨
      (decode code off).op = RISCV_OP_NOP := by
  unfold decode
  generalize wordAt code off = w at *
  have hfold : ∀ d : Dec, d.foldZero.op = d.op ∨ d.foldZero.op = RISCV_OP_NOP := fun d => by
    unfold Dec.foldZero
    split
    · exact Or.inr rfl
    · exact Or.inl rfl
  rcases hq with ⟨hk, h7, h0, h5⟩ | ⟨hk, h7⟩
  · have hop : (decodeWord w off).op = RISCV_OP_SRA := by
      unfold OP at hk
      simp only [decodeWord, hk]
      rw [if_neg (by rw [h7]; decide), if_pos h7, if_neg h0]
    rcases hfold (decodeWord w off) with hf | hf
    · exact Or.inl (hf.trans hop)
    · exact Or.inr (Or.inr hf)
  · have hop : (decodeWord w off).op = RISCV_OP_MEMOP := by
      unfold CUSTOM0 at hk
      simp only [decodeWord, hk, h7]
      rfl
    rcases hfold (decodeWord w off) with hf | hf
    · exact Or.inr (Or.inl (hf.trans hop))
    · exact Or.inr (Or.inr hf)

/-- The ops that the two decoders cannot read differently. -/
def Clear (op : Nat) : Prop :=
  op ≠ RISCV_OP_ILLEGAL ∧ op ≠ RISCV_OP_SRA ∧ op ≠ RISCV_OP_MEMOP ∧ op ≠ RISCV_OP_NOP

instance (op : Nat) : Decidable (Clear op) := inferInstanceAs (Decidable (_ ∧ _ ∧ _ ∧ _))

/-- **The interpreter on a decoded instruction.** -/
theorem oneInsn_decode (h : Hooks H) (r : Run H) {code : Nat → Byte} {off : Word}
    (hc : Clear (decode code off).op) :
    oneInsn h r off (fetch code off) = (decode code off).next h r off (wordAt code off) ∧
      (fetch code off).width = 4#32 := by
  obtain ⟨hill, hsra, hmem, hnop⟩ := hc
  have hlow := decode_low hill
  refine ⟨next_decode h r hlow fun hq => ?_, by rw [fetch_wordAt hlow]; rfl⟩
  rcases decode_misread hq with hop | hop | hop
  · exact hsra hop
  · exact hmem hop
  · exact hnop hop

/-- A replay of an instruction that falls through. -/
theorem replay_done {h : Hooks H} {r r' : Run H} {code : Nat → Byte} {off inst : Word} {n : Nat}
    (hc : Clear (decode code off).op)
    (hn : (decode code off).next h r off (wordAt code off) = (r', .done)) (hi : inst = off + 4#32) :
    replay h code (n + 1) r off = replay h code n r' inst := by
  obtain ⟨hone, hw⟩ := oneInsn_decode h r hc
  rw [replay, hone, hn]
  simp only
  rw [hw, hi]

/-- A replay of an instruction that does not. -/
theorem replay_jump {h : Hooks H} {r r' : Run H} {code : Nat → Byte} {off : Word} {n : Nat}
    {t : Word} (hc : Clear (decode code off).op)
    (hn : (decode code off).next h r off (wordAt code off) = (r', .jump t)) :
    replay h code (n + 1) r off = (r', .jump t) := by
  obtain ⟨hone, -⟩ := oneInsn_decode h r hc
  rw [replay, hone, hn]

/-! ## Runs that agree up to registers -/

/-- A memory callback that does not see the registers: what it does to the memory and to the host,
and its answer. -/
structure Device (H : Type) where
  answer : (Buf → Nat → Byte) → H → MemOp → Word → Word → (Buf → Nat → Byte) × H × Word

def Device.hook (g : Device H) : MemFn H := fun s op a v =>
  let (mem, host, w) := g.answer s.mem s.host op a v
  ({ s with mem := mem, host := host }, w)

/-- The memory callback, if there is one, is a device. -/
def Hooks.IsDevice (h : Hooks H) : Prop := ∀ f, h.callback = some f → ∃ g : Device H, f = g.hook

/-- What a call asked of the memory callback. -/
def Call.access : Call H → Option (MemOp × Word × Word)
  | .mem op a v _ => some (op, a, v)
  | .trap _ _ => none

/-- The state without the registers of `I`. -/
def hide (I : Reg → Bool) (s : State H) : State H :=
  { s with x := fun i => if I i then 0#32 else s.x i }

/-- A run without the registers of `I`, and without what the callback was shown. -/
def veil (I : Reg → Bool) (r : Run H) : State H × List (Option (MemOp × Word × Word)) :=
  (hide I r.s, r.log.map Call.access)

section
variable {I : Reg → Bool} {r q : Run H} (hrq : veil I r = veil I q)
include hrq

theorem veil_x {i : Reg} (hi : I i = false) : r.s.x i = q.s.x i := by
  have hx := congrFun (congrArg (fun a => a.1.x) hrq) i
  unfold veil hide at hx
  simpa only [hi, Bool.false_eq_true, if_false] using hx

theorem veil_mem : r.s.mem = q.s.mem := congrArg (fun a => a.1.mem) hrq

theorem veil_host : r.s.host = q.s.host := congrArg (fun a => a.1.host) hrq

theorem veil_writable : r.s.writable = q.s.writable := congrArg (fun a => a.1.writable) hrq

theorem veil_readonly : r.s.readonly = q.s.readonly := congrArg (fun a => a.1.readonly) hrq

theorem veil_log : r.log.map Call.access = q.log.map Call.access := congrArg Prod.snd hrq

theorem veil_hide : hide I r.s = hide I q.s := congrArg Prod.fst hrq

theorem veil_put (i : Reg) (v : Word) :
    veil (fun j => I j && j != i) (put r i v) = veil (fun j => I j && j != i) (put q i v) := by
  have hs : hide (fun j => I j && j != i) (r.s.setX i v) =
      hide (fun j => I j && j != i) (q.s.setX i v) := by
    have hx : ∀ j, (if I j && j != i then (0#32 : Word) else if j = i then v else r.s.x j) =
        if I j && j != i then 0#32 else if j = i then v else q.s.x j := fun j => by
      by_cases hj : j = i
      · simp [hj]
      · cases hI : I j with
        | true => simp [hj]
        | false => simp [hj, veil_x hrq hI]
    have hh := veil_hide hrq
    unfold hide State.setX at *
    simp only [State.mk.injEq] at hh ⊢
    exact ⟨hh.1, hh.2.1, funext hx, hh.2.2.2⟩
  have hlog : (put r i v).log.map Call.access = (put q i v).log.map Call.access :=
    congrArg Prod.snd hrq
  exact Prod.ext hs hlog

theorem veil_callback {h : Hooks H} (hd : Hooks.IsDevice h) (op : MemOp) (a v : Word) :
    veil I (r.callback h op a v).1 = veil I (q.callback h op a v).1 ∧
      (r.callback h op a v).2 = (q.callback h op a v).2 := by
  unfold Run.callback
  cases hf : h.callback with
  | none => exact ⟨hrq, rfl⟩
  | some f =>
    obtain ⟨g, rfl⟩ := hd f hf
    have hmem := veil_mem hrq
    have hhost := veil_host hrq
    have hh := veil_hide hrq
    refine ⟨Prod.ext ?_ ?_, ?_⟩
    · unfold veil Device.hook
      simp only [hmem, hhost]
      unfold hide at hh ⊢
      simp only [State.mk.injEq] at hh ⊢
      exact ⟨hh.1, hh.2.1, hh.2.2.1, hh.2.2.2.1, hh.2.2.2.2.1, trivial, trivial⟩
    · unfold veil
      simp only [List.map_append, List.map_cons, List.map_nil, veil_log hrq]
      rfl
    · unfold Device.hook
      simp only [hmem, hhost]

theorem veil_load {h : Hooks H} (hd : Hooks.IsDevice h) (a : Word) (n : Nat) :
    veil I (load h r a n).1 = veil I (load h q a n).1 ∧ (load h r a n).2 = (load h q a n).2 := by
  have hm : memR r.s a (BitVec.ofNat 32 n) = memR q.s a (BitVec.ofNat 32 n) := by
    unfold memR memW
    rw [veil_writable hrq, veil_readonly hrq]
  unfold load
  rw [hm]
  cases memR q.s a (BitVec.ofNat 32 n) with
  | some p =>
    refine ⟨hrq, ?_⟩
    unfold ldLe State.byte
    rw [veil_mem hrq]
  | none => exact veil_callback hrq hd .load a 0#32

end

/-- A register that is hidden may change. -/
theorem veil_put_left (r : Run H) (i : Reg) (v : Word) :
    veil (fun j => j == i) (put r i v) = veil (fun j => j == i) r := by
  refine Prod.ext ?_ rfl
  unfold veil hide put State.setX
  simp only [State.mk.injEq, and_true, true_and]
  funext j
  by_cases hj : j = i
  · simp [hj]
  · simp [hj]

/-- Nothing is hidden when every hidden register is written. -/
theorem veil_written {r q : Run H} {i : Reg} (hrq : veil (fun j => j == i) r = veil (fun j => j == i) q)
    (v : Word) : veil (fun _ => false) (put r i v) = veil (fun _ => false) (put q i v) := by
  have h := veil_put hrq i v
  have hI : (fun j : Reg => j == i && j != i) = fun _ => false := by
    funext j
    by_cases hj : j = i <;> simp [hj]
  rwa [hI] at h

/-- Runs that agree on every register agree on some. -/
theorem veil_mono {r q : Run H} (hrq : veil (fun _ => false) r = veil (fun _ => false) q)
    (I : Reg → Bool) : veil I r = veil I q := by
  have hs : r.s = q.s := congrArg Prod.fst hrq
  have hlog : r.log.map Call.access = q.log.map Call.access := congrArg Prod.snd hrq
  exact Prod.ext (congrArg (hide I) hs) hlog

/-! ## Replaying -/

/-- The evaluator at op index `at_` on the words that `emit` writes there. -/
def evalUnit (h : Hooks H) (r : Run H) (at_ : Word) (d : Dec) (map : Nat → Word) (len : Word) :
    Run H × Nat × Goto :=
  match emit at_ d map len with
  | [] => (r, 0, .fall 0)
  | w :: rest => dispatch h r at_ w (rest.headD 0#32)

theorem evalUnit_one {h : Hooks H} {r : Run H} {at_ : Word} {d : Dec} {map : Nat → Word}
    {len w : Word} (he : emit at_ d map len = [w]) :
    evalUnit h r at_ d map len = dispatch h r at_ w 0#32 := by
  unfold evalUnit
  rw [he]
  rfl

/-- How the source and its op go on alike. -/
def Lands (at_ : Word) (d : Dec) (map : Nat → Word) (len : Word) : Next → Goto → Prop
  | .done, .fall n => n = (emit at_ d map len).length
  | .jump t, .reloc i => t = d.target ∧ i = at_ + (delta4 at_ d map len).sshiftRight 2
  | .jump t, .indirect u => t = u
  | _, _ => False

/-- The register that a vtable call links, in op space. -/
def link (d : Dec) (i : Reg) : Bool := d.op == RISCV_OP_VCALL && i == 1#5

theorem link_eq {d : Dec} (hop : d.op ≠ RISCV_OP_VCALL) : link d = fun _ => false := by
  funext i
  have hb : (d.op == RISCV_OP_VCALL) = false := beq_eq_false_iff_ne.2 hop
  unfold link
  rw [hb]
  rfl

/-- The op leaves the registers, the memory and the callback's calls that the source leaves, and goes
where the source goes. -/
structure Replays (at_ : Word) (d : Dec) (map : Nat → Word) (len : Word) (src : Run H × Next)
    (fused : Run H × Nat × Goto) : Prop where
  run : veil (link d) fused.1 = veil (link d) src.1
  lands : Lands at_ d map len src.2 fused.2.2

section
variable {h : Hooks H} {r : Run H} {pc inst : Word} {d : Dec}

theorem next_slli (hop : d.op = RISCV_OP_SLLI) :
    d.next h r pc inst = (r.wr d.rd (r.s.x d.rs1 <<< (d.imm &&& 31#32)), .done) := by
  obtain ⟨op, rd, rs1, rs2, imm, target, width⟩ := d
  cases hop
  rfl

theorem next_add (hop : d.op = RISCV_OP_ADD) :
    d.next h r pc inst = (r.wr d.rd (r.s.x d.rs1 + r.s.x d.rs2), .done) := by
  obtain ⟨op, rd, rs1, rs2, imm, target, width⟩ := d
  cases hop
  rfl

/-- A load of an instruction whose destination is not x0. -/
theorem next_loads (hlo : RISCV_OP_LB ≤ d.op) (hhi : d.op ≤ RISCV_OP_LHU) (hrd : d.rd ≠ 0#5) :
    d.next h r pc inst = (put (load h r (r.s.x d.rs1 + d.imm) (ctypeOf d.op).size).1 d.rd
      ((ctypeOf d.op).cast (load h r (r.s.x d.rs1 + d.imm) (ctypeOf d.op).size).2), .done) := by
  rw [load_execLoad h r hlo hhi hrd]
  obtain ⟨op, rd, rs1, rs2, imm, target, width⟩ := d
  unfold RISCV_OP_LB RISCV_OP_LHU at *
  simp only at hlo hhi ⊢
  clear hrd
  interval_cases op <;> rfl

theorem next_lw (hop : d.op = RISCV_OP_LW) (hrd : d.rd ≠ 0#5) :
    d.next h r pc inst = (put (load h r (r.s.x d.rs1 + d.imm) 4).1 d.rd
      (load h r (r.s.x d.rs1 + d.imm) 4).2, .done) := by
  rw [next_loads (by rw [hop]; decide) (by rw [hop]; decide) hrd, hop]
  rfl

theorem next_sw (hop : d.op = RISCV_OP_SW) :
    d.next h r pc inst = (store h r (r.s.x d.rs1 + d.imm) (r.s.x d.rs2) 4, .done) := by
  have hs := @store_execStore H h r RISCV_OP_SW (by decide) (by decide)
    (r.s.x d.rs1 + d.imm) (r.s.x d.rs2)
  obtain ⟨op, rd, rs1, rs2, imm, target, width⟩ := d
  cases hop
  exact congrArg (·, Next.done) hs.symm

theorem next_beq (hop : d.op = RISCV_OP_BEQ) :
    d.next h r pc inst = (r, if r.s.x d.rs1 == r.s.x d.rs2 then .jump d.target else .done) := by
  obtain ⟨op, rd, rs1, rs2, imm, target, width⟩ := d
  cases hop
  rfl

theorem next_bne (hop : d.op = RISCV_OP_BNE) :
    d.next h r pc inst = (r, if r.s.x d.rs1 != r.s.x d.rs2 then .jump d.target else .done) := by
  obtain ⟨op, rd, rs1, rs2, imm, target, width⟩ := d
  cases hop
  rfl

theorem next_jalr (hop : d.op = RISCV_OP_JALR) :
    d.next h r pc inst =
      (r.wr d.rd (pc + 4#32), .jump ((r.s.x d.rs1 + d.imm) &&& ~~~1#32)) := by
  obtain ⟨op, rd, rs1, rs2, imm, target, width⟩ := d
  cases hop
  rfl

end

theorem put_put (r : Run H) (i : Reg) (v w : Word) : put (put r i v) i w = put r i w := by
  unfold put State.setX
  congr 2
  funext j
  by_cases hj : j = i <;> simp [hj]

@[simp] theorem put_x (r : Run H) (i j : Reg) (v : Word) :
    (put r i v).s.x j = if j = i then v else r.s.x j := rfl

/-- A device leaves the registers alone. -/
theorem load_x {h : Hooks H} (hd : Hooks.IsDevice h) (r : Run H) (a : Word) (n : Nat) :
    (load h r a n).1.s.x = r.s.x := by
  unfold load
  split
  · rfl
  · unfold Run.callback
    split
    · rfl
    · rename_i f hf
      obtain ⟨g, rfl⟩ := hd f hf
      rfl

/-- The offsets of `LWSW` lose nothing. -/
theorem shiftRight_fits {v : Word} (n : Nat) (hlt : v.toNat < 2 ^ (n + 2))
    (h4 : v &&& 3#32 = 0#32) : ((v >>> 2).setWidth n).setWidth 32 <<< 2 = v := by
  have hmod : v.toNat % 4 = 0 := by
    have h := congrArg BitVec.toNat h4
    rwa [BitVec.toNat_and, show (3#32).toNat = 2 ^ 2 - 1 from rfl,
      Nat.and_two_pow_sub_one_eq_mod] at h
  have hdiv : v.toNat / 4 < 2 ^ n := by
    rw [Nat.pow_add] at hlt
    omega
  apply BitVec.eq_of_toNat_eq
  have hv := v.isLt
  rw [BitVec.toNat_shiftLeft, BitVec.toNat_setWidth, BitVec.toNat_setWidth, BitVec.toNat_ushiftRight,
    Nat.shiftRight_eq_div_pow, Nat.shiftLeft_eq, show 2 ^ 2 = 4 from rfl, Nat.mod_eq_of_lt hdiv,
    Nat.mod_eq_of_lt (by omega), Nat.mod_eq_of_lt (by omega)]
  omega

theorem cat_words {v w : Word} (hw : w.toNat < 2 ^ 8) :
    ((v >>> 2) <<< 6 ||| w >>> 2 : Word).setWidth 11 =
      cat 11 ((v >>> 2).setWidth 5) ((w >>> 2).setWidth 6) := by
  ext i hi
  rw [getElem_cat _ _ _ _ hi]
  by_cases h6 : i < 6
  · interval_cases i <;> simp
  · have hz : w.getLsbD (2 + i) = false :=
      Nat.testBit_lt_two_pow (lt_of_lt_of_le hw (Nat.pow_le_pow_right (by decide) (by omega)))
    interval_cases i <;> simp_all

/-- The displacement word of a load-and-branch, and its condition bit. -/
theorem bzWord (u c : Word) :
    (u * 4#32 ||| (c &&& 1#32)).sshiftRight 2 = (u * 4#32).sshiftRight 2 ∧
      (u * 4#32 ||| (c &&& 1#32)) &&& 1#32 = c &&& 1#32 := by
  have hu : u * 4#32 = u <<< 2 := by
    rw [BitVec.shiftLeft_eq_mul_twoPow]
    rfl
  rw [hu]
  refine ⟨?_, ?_⟩
  · ext i hi
    rw [BitVec.getElem_sshiftRight, BitVec.getElem_sshiftRight]
    simp [BitVec.msb_eq_getLsbD_last]
  · ext i hi
    by_cases h0 : i = 0
    · subst h0; simp
    · simp [h0]

/-- Clearing the low bit of an even word does nothing. -/
theorem clear_low {v : Word} (hv : v.getLsbD 0 = false) : v &&& ~~~1#32 = v := by
  refine BitVec.eq_of_getLsbD_eq fun i hi => ?_
  rw [BitVec.getLsbD_and, BitVec.getLsbD_not, BitVec.getLsbD_one]
  by_cases h0 : i = 0
  · rw [h0, hv, Bool.false_and]
  · simp [h0, hi]

/-- What `SHADD` matches. -/
theorem fuseShadd_some {a b out d : Dec} (hf : fuseShadd a b out = some d) :
    a.op = RISCV_OP_SLLI ∧ b.op = RISCV_OP_ADD ∧ b.rd = a.rd ∧
      ∃ o, o ≠ a.rd ∧ ((b.rs1 = a.rd ∧ b.rs2 = o) ∨ (b.rs2 = a.rd ∧ b.rs1 = o)) ∧
        d = { out with op := RISCV_OP_SHADD, rd := a.rd, rs1 := o, rs2 := a.rs1, imm := a.imm } := by
  unfold fuseShadd at hf
  by_cases hc : a.op = RISCV_OP_SLLI ∧ b.op = RISCV_OP_ADD ∧ b.rd = a.rd
  · obtain ⟨ha, hb, hrd⟩ := hc
    refine ⟨ha, hb, hrd, ?_⟩
    rw [if_pos ⟨ha, hb, hrd⟩] at hf
    by_cases h1 : b.rs1 = a.rd
    · simp only [if_pos h1] at hf
      split at hf
      · rename_i hne
        injection hf with hf
        exact ⟨b.rs2, hne, Or.inl ⟨h1, rfl⟩, hf.symm⟩
      · cases hf
    · by_cases h2 : b.rs2 = a.rd
      · simp only [if_neg h1, if_pos h2] at hf
        rw [if_pos h1] at hf
        injection hf with hf
        exact ⟨b.rs1, h1, Or.inr ⟨h2, rfl⟩, hf.symm⟩
      · simp only [if_neg h1, if_neg h2] at hf
        cases hf
  · rw [if_neg hc] at hf
    cases hf

section
variable (h : Hooks H) (r : Run H) (code : Nat → Byte) (off at_ : Word) (map : Nat → Word)
  (len : Word) {out d : Dec}

/-- `SHADD` replays its shift and add. -/
theorem replays_shadd (hf : fuseShadd (decode code off) (decode code (off + 4#32)) out = some d) :
    Replays at_ d map len (replay h code 2 r off) (evalUnit h r at_ d map len) := by
  obtain ⟨ha, hb, hrd, o, hne, hother, rfl⟩ := fuseShadd_some hf
  have hT : (decode code off).rd ≠ 0#5 := (decode_fits code off).rd (Or.inl (by rw [ha]; decide))
  -- the source adds the shifted register to the other one
  have hsum : ∀ y, (put r (decode code off).rd y).s.x (decode code (off + 4#32)).rs1 +
      (put r (decode code off).rd y).s.x (decode code (off + 4#32)).rs2 = r.s.x o + y := by
    intro y
    rcases hother with ⟨h1, h2⟩ | ⟨h2, h1⟩
    · rw [h1, h2, put_x, put_x, if_pos rfl, if_neg hne, BitVec.add_comm]
    · rw [h1, h2, put_x, put_x, if_pos rfl, if_neg hne]
  have hsrc : replay h code 2 r off = (put r (decode code off).rd
      (r.s.x o + r.s.x (decode code off).rs1 <<< ((decode code off).imm &&& 31#32)), .done) := by
    rw [replay_done (by rw [ha]; decide) (next_slli ha) rfl,
      replay_done (by rw [hb]; decide) (next_add hb) rfl, ← put_eq hT, ← put_eq (hrd ▸ hT),
      hsum, hrd, put_put]
    rfl
  have he := emit_shadd at_ { out with
    op := RISCV_OP_SHADD, rd := (decode code off).rd, rs1 := o,
    rs2 := (decode code off).rs1, imm := (decode code off).imm } map len rfl
  rw [hsrc, evalUnit_one he]
  have hop := @pack_op RISCV_OP_SHADD (decode code off).rd o
    (low (decode code off).rs1 (cat 11 ((decode code off).imm.setWidth 5) 0#6)) (by decide)
  have hsh : ((decode code off).imm.setWidth 5).setWidth 32 =
      (decode code off).imm &&& 31#32 := by
    ext i hi
    interval_cases i <;> simp
  simp only [dispatch, hop, pack_A, pack_B, pack_C, pack_SH, hsh]
  exact ⟨rfl, by simp only [Lands, he]; rfl⟩

/-- `LWX` replays its add and load. -/
theorem replays_lwx (hd : Hooks.IsDevice h)
    (hf : fuseLwx (decode code off) (decode code (off + 4#32)) out = some d) :
    Replays at_ d map len (replay h code 2 r off) (evalUnit h r at_ d map len) := by
  unfold fuseLwx at hf
  split at hf
  · rename_i hc
    obtain ⟨ha, hb, hT, hrd, hrs, hlo, hhi⟩ := hc
    injection hf with hf
    subst hf
    have hsrc : replay h code 2 r off =
        (let r₁ := put r (decode code off).rd
            (r.s.x (decode code off).rs1 + r.s.x (decode code off).rs2)
         let l := load h r₁ (r.s.x (decode code off).rs1 + r.s.x (decode code off).rs2 +
            (decode code (off + 4#32)).imm) 4
         (put l.1 (decode code off).rd l.2, .done)) := by
      rw [replay_done (by rw [ha]; decide) (next_add ha) rfl,
        replay_done (by rw [hb]; decide) (next_lw hb (hrd ▸ hT)) rfl, ← put_eq hT, hrs, hrd, put_x,
        if_pos rfl]
      rfl
    have himm := signExtend_setWidth (n := 11) (by decide) (by decide) hlo (by simpa using hhi)
    have he := emit_low11 at_ { out with
      op := RISCV_OP_LWX, rd := (decode code off).rd, rs1 := (decode code off).rs1,
      rs2 := (decode code off).rs2, imm := (decode code (off + 4#32)).imm } map len (Or.inl rfl)
    rw [hsrc, evalUnit_one he]
    have hop := @pack_op RISCV_OP_LWX (decode code off).rd (decode code off).rs1
      (low (decode code off).rs2 ((decode code (off + 4#32)).imm.setWidth 11)) (by decide)
    simp only [dispatch, hop, pack_A, pack_B, pack_C, pack_OFF11, himm]
    -- the register that the source writes first is the one both write last
    obtain ⟨hrun, hval⟩ := veil_load (veil_put_left r (decode code off).rd
      (r.s.x (decode code off).rs1 + r.s.x (decode code off).rs2)) hd
      (r.s.x (decode code off).rs1 + r.s.x (decode code off).rs2 + (decode code (off + 4#32)).imm) 4
    refine ⟨?_, by simp only [Lands, he]; rfl⟩
    rw [link_eq (show RISCV_OP_LWX ≠ RISCV_OP_VCALL by decide), hval]
    exact (veil_written hrun _).symm
  · cases hf

/-- The two loads of the source, and what the second one reads. -/
def loadChain (a b : Dec) : Run H × Word :=
  let l := load h r (r.s.x a.rs1 + a.imm) 4
  load h (put l.1 a.rd l.2) (l.2 + b.imm) 4

/-- The source of `LWLW`. -/
theorem replay_lwlw {n : Nat} {inst : Word} (ha : (decode code off).op = RISCV_OP_LW)
    (hT : (decode code off).rd ≠ 0#5) (hb : (decode code (off + 4#32)).op = RISCV_OP_LW)
    (hrd : (decode code (off + 4#32)).rd = (decode code off).rd)
    (hrs : (decode code (off + 4#32)).rs1 = (decode code off).rd)
    (hi : inst = off + 4#32 + 4#32) :
    replay h code (n + 2) r off = replay h code n
      (put (loadChain h r (decode code off) (decode code (off + 4#32))).1 (decode code off).rd
        (loadChain h r (decode code off) (decode code (off + 4#32))).2) inst := by
  rw [replay_done (by rw [ha]; decide) (next_lw ha hT) rfl,
    replay_done (by rw [hb]; decide) (next_lw hb (hrd ▸ hT)) hi, hrs, hrd, put_x, if_pos rfl]
  rfl

/-- The op loads through the word that the source leaves in the register between. -/
theorem loadTwice_chain (hd : Hooks.IsDevice h) (a b : Dec) {w : Word} (hB : TC_B w = a.rs1)
    (h1 : TC_O1 w = a.imm) (h2 : TC_O2 w = b.imm) :
    veil (fun j => j == a.rd) (loadTwice h r w).1 =
        veil (fun j => j == a.rd) (loadChain h r a b).1 ∧
      (loadTwice h r w).2 = (loadChain h r a b).2 := by
  unfold loadTwice loadChain
  rw [hB, h1, h2]
  exact veil_load (veil_put_left _ _ _).symm hd _ 4

/-- What `LWLW` matches, and the word of the op. -/
theorem fuseLwlw_some {a b : Dec} (hf : fuseLwlw a b out = some d) (op : Nat) :
    b.op = RISCV_OP_LW ∧ b.rd = a.rd ∧ b.rs1 = a.rd ∧ d.op = RISCV_OP_LWLW ∧ d.rd = a.rd ∧
      ∃ lo, d.imm.setWidth 16 = lo ∧ d.rs1 = a.rs1 ∧
        TC_O1 (pack op a.rd a.rs1 lo) = a.imm ∧ TC_O2 (pack op a.rd a.rs1 lo) = b.imm := by
  unfold fuseLwlw at hf
  split at hf
  · rename_i hc
    obtain ⟨hb, hrd, hrs, ho1, ho2⟩ := hc
    injection hf with hf
    subst hf
    refine ⟨hb, hrd, hrs, rfl, rfl, cat 16 (a.imm.setWidth 8) (b.imm.setWidth 8), ?_, rfl, ?_, ?_⟩
    · show ((a.imm &&& 0xff#32) <<< 8 ||| (b.imm &&& 0xff#32)).setWidth 16 = _
      ext i hi
      rw [getElem_cat _ _ _ _ hi]
      interval_cases i <;> simp
    · rw [pack_O1]
      exact signExtend_setWidth (by decide) (by decide) (of_decide_eq_true ho1).1
        (of_decide_eq_true ho1).2
    · rw [pack_O2]
      exact signExtend_setWidth (by decide) (by decide) (of_decide_eq_true ho2).1
        (of_decide_eq_true ho2).2
  · cases hf

/-- `LWLW` replays its two loads. -/
theorem replays_lwlw (hd : Hooks.IsDevice h) (ha : (decode code off).op = RISCV_OP_LW)
    (hT : (decode code off).rd ≠ 0#5)
    (hf : fuseLwlw (decode code off) (decode code (off + 4#32)) out = some d) :
    Replays at_ d map len (replay h code 2 r off) (evalUnit h r at_ d map len) := by
  obtain ⟨hb, hrd, hrs, hop, hdrd, lo, hlo, hrs1, ho1, ho2⟩ := fuseLwlw_some hf RISCV_OP_LWLW
  have he := emit_lwlw at_ d map len (Or.inl hop)
  rw [hop, hlo, hdrd, hrs1] at he
  rw [replay_lwlw h r code off ha hT hb hrd hrs rfl, evalUnit_one he]
  have hpop := @pack_op RISCV_OP_LWLW (decode code off).rd (decode code off).rs1 lo
    (by decide)
  obtain ⟨hrun, hval⟩ := loadTwice_chain h r hd (decode code off) (decode code (off + 4#32))
    (pack_B (decode code off).rd (decode code off).rs1 lo) ho1 ho2
  simp only [dispatch, hpop, pack_A]
  refine ⟨?_, by simp only [replay, Lands, he]; rfl⟩
  rw [link_eq (by rw [hop]; decide), hval]
  exact veil_written hrun _

/-- `LWSW` replays its load and store. -/
theorem replays_lwsw (ha : (decode code off).op = RISCV_OP_LW)
    (hT : (decode code off).rd ≠ 0#5)
    (hf : fuseLwsw (decode code off) (decode code (off + 4#32)) out = some d) :
    Replays at_ d map len (replay h code 2 r off) (evalUnit h r at_ d map len) := by
  unfold fuseLwsw at hf
  split at hf
  · rename_i hc
    obtain ⟨hb, hrs, ho1, hz1, ho2, hz2⟩ := hc
    injection hf with hf
    subst hf
    have hsrc : replay h code 2 r off =
        (let l := load h r (r.s.x (decode code off).rs1 + (decode code off).imm) 4
         let r₁ := put l.1 (decode code off).rd l.2
         (store h r₁ (r₁.s.x (decode code (off + 4#32)).rs1 + (decode code (off + 4#32)).imm) l.2 4,
          .done)) := by
      rw [replay_done (by rw [ha]; decide) (next_lw ha hT) rfl,
        replay_done (by rw [hb]; decide) (next_sw hb) rfl, hrs]
      simp only [replay, put_x, if_true]
    have hlt1 : (decode code off).imm.toNat < 2 ^ (5 + 2) := ho1
    have hlt2 : (decode code (off + 4#32)).imm.toNat < 2 ^ (6 + 2) := ho2
    have he := emit_low11 at_ { out with
      op := RISCV_OP_LWSW, rd := (decode code off).rd, rs1 := (decode code off).rs1,
      rs2 := (decode code (off + 4#32)).rs1,
      imm := ((decode code off).imm >>> 2) <<< 6 ||| (decode code (off + 4#32)).imm >>> 2 }
      map len (Or.inr rfl)
    rw [cat_words hlt2] at he
    rw [hsrc, evalUnit_one he]
    have hop := @pack_op RISCV_OP_LWSW (decode code off).rd (decode code off).rs1
      (low (decode code (off + 4#32)).rs1 (cat 11 (((decode code off).imm >>> 2).setWidth 5)
          (((decode code (off + 4#32)).imm >>> 2).setWidth 6))) (by decide)
    have hw1 := shiftRight_fits 5 hlt1 hz1
    have hw2 := shiftRight_fits 6 hlt2 hz2
    simp only [dispatch, hop, hLwsw, pack_A, pack_B, pack_C, pack_W1, pack_W2, hw1, hw2]
    exact ⟨rfl, by simp only [Lands, he]; rfl⟩
  · cases hf

/-- What a load-and-branch matches. -/
theorem fuseBz_some {a b : Dec} (hf : fuseBz a b out = some d) :
    (a.op = RISCV_OP_LW ∨ a.op = RISCV_OP_LBU) ∧ a.rd ≠ 0#5 ∧
      (b.op = RISCV_OP_BEQ ∨ b.op = RISCV_OP_BNE) ∧
      ((b.rs1 = a.rd ∧ b.rs2 = 0#5) ∨ (b.rs2 = a.rd ∧ b.rs1 = 0#5)) ∧
      d = { out with
        op := if a.op = RISCV_OP_LW then RISCV_OP_LW_BZ else RISCV_OP_LBU_BZ,
        rd := a.rd, rs1 := a.rs1, imm := a.imm, target := b.target,
        rs2 := if b.op = RISCV_OP_BEQ then 1#5 else 0#5 } := by
  unfold fuseBz at hf
  split at hf
  · rename_i hc
    obtain ⟨h1, h2, h3, h4⟩ := hc
    injection hf with hf
    exact ⟨h1, h2, h3, h4, hf.symm⟩
  · cases hf

/-- The source of a load-and-branch: whether it is taken is whether the value is zero, or is not. -/
theorem replay_bz (hx0 : r.s.x 0#5 = 0#32) (hd : Hooks.IsDevice h)
    (ha : (decode code off).op = RISCV_OP_LW ∨ (decode code off).op = RISCV_OP_LBU)
    (hT : (decode code off).rd ≠ 0#5)
    (hb : (decode code (off + 4#32)).op = RISCV_OP_BEQ ∨
      (decode code (off + 4#32)).op = RISCV_OP_BNE)
    (hrs : ((decode code (off + 4#32)).rs1 = (decode code off).rd ∧
        (decode code (off + 4#32)).rs2 = 0#5) ∨
      ((decode code (off + 4#32)).rs2 = (decode code off).rd ∧
        (decode code (off + 4#32)).rs1 = 0#5)) :
    replay h code 2 r off =
      (let T := ctypeOf (decode code off).op
       let l := load h r (r.s.x (decode code off).rs1 + (decode code off).imm) T.size
       let v := T.cast l.2
       (put l.1 (decode code off).rd v,
        if (v == 0#32) == ((decode code (off + 4#32)).op == RISCV_OP_BEQ)
        then .jump (decode code (off + 4#32)).target else .done)) := by
  have hload : (decode code off).next h r off (wordAt code off) = _ := next_loads
    (by rcases ha with ha | ha <;> rw [ha] <;> decide)
    (by rcases ha with ha | ha <;> rw [ha] <;> decide) hT
  rw [replay_done (by rcases ha with ha | ha <;> rw [ha] <;> decide) hload rfl]
  simp only
  generalize hl : load h r (r.s.x (decode code off).rs1 + (decode code off).imm)
    (ctypeOf (decode code off).op).size = l
  have hz : l.1.s.x 0#5 = 0#32 := by
    rw [← hl, load_x hd, hx0]
  generalize (ctypeOf (decode code off).op).cast l.2 = v
  generalize hr₁ : put l.1 (decode code off).rd v = r₁
  have hv : r₁.s.x (decode code off).rd = v := by rw [← hr₁, put_x, if_pos rfl]
  have h0 : r₁.s.x 0#5 = 0#32 := by rw [← hr₁, put_x, if_neg (Ne.symm hT), hz]
  have hcomm : (0#32 == v) = (v == 0#32) := Bool.beq_comm
  -- both orders of the operands compare the loaded value with zero
  have heq : (r₁.s.x (decode code (off + 4#32)).rs1 == r₁.s.x (decode code (off + 4#32)).rs2) =
      (v == 0#32) := by
    rcases hrs with ⟨h1, h2⟩ | ⟨h2, h1⟩
    · rw [h1, h2, hv, h0]
    · rw [h1, h2, hv, h0, hcomm]
  rcases hb with hb | hb
  · have hn : (decode code (off + 4#32)).next h r₁ (off + 4#32) (wordAt code (off + 4#32)) = _ :=
      next_beq hb
    rw [heq] at hn
    have hbe : ((decode code (off + 4#32)).op == RISCV_OP_BEQ) = true := by rw [hb]; rfl
    rw [hbe]
    cases hz : v == 0#32 with
    | true =>
      rw [hz] at hn
      rw [replay_jump (by rw [hb]; decide) hn]
      rfl
    | false =>
      rw [hz] at hn
      rw [replay_done (by rw [hb]; decide) hn rfl]
      rfl
  · have hn : (decode code (off + 4#32)).next h r₁ (off + 4#32) (wordAt code (off + 4#32)) = _ :=
      next_bne hb
    rw [bne, heq] at hn
    have hbe : ((decode code (off + 4#32)).op == RISCV_OP_BEQ) = false := by rw [hb]; rfl
    rw [hbe]
    cases hz : v == 0#32 with
    | true =>
      rw [hz] at hn
      rw [replay_done (by rw [hb]; decide) hn rfl]
      rfl
    | false =>
      rw [hz] at hn
      rw [replay_jump (by rw [hb]; decide) hn]
      rfl

/-- The load handler of the op is that of the first instruction. -/
theorem dispatch_bz (p : Word) {w w2 : Word} (a : Nat)
    (ha : a = RISCV_OP_LW ∨ a = RISCV_OP_LBU)
    (hop : TC_OP w = if a = RISCV_OP_LW then RISCV_OP_LW_BZ else RISCV_OP_LBU_BZ) :
    dispatch h r p w w2 = hLoadBz h r p w w2 (ctypeOf a) := by
  rcases ha with rfl | rfl
  · have hop' : TC_OP w = RISCV_OP_LW_BZ := hop
    simp only [dispatch, hop']
    rfl
  · have hop' : TC_OP w = RISCV_OP_LBU_BZ := hop
    simp only [dispatch, hop']
    rfl

/-- A load-and-branch replays its load and branch. -/
theorem replays_bz (hx0 : r.s.x 0#5 = 0#32) (hd : Hooks.IsDevice h)
    (hf : fuseBz (decode code off) (decode code (off + 4#32)) out = some d) :
    Replays at_ d map len (replay h code 2 r off) (evalUnit h r at_ d map len) := by
  obtain ⟨ha, hT, hb, hrs, hdef⟩ := fuseBz_some hf
  have hop : d.op = RISCV_OP_LW_BZ ∨ d.op = RISCV_OP_LBU_BZ := by
    rw [hdef]
    show (if _ then _ else _) = _ ∨ (if _ then _ else _) = _
    split
    · exact Or.inl rfl
    · exact Or.inr rfl
  have hlt : d.op < 64 := by rcases hop with hop | hop <;> rw [hop] <;> decide
  have himm : (d.imm.setWidth 16).signExtend 32 = (decode code off).imm := by
    rw [hdef]
    exact (decode_fits code off).imm (by rcases ha with ha | ha <;> rw [ha] <;> decide)
  have he := emit_bz at_ d map len hop
  obtain ⟨u, hu⟩ : ∃ u, delta4 at_ d map len = u * 4#32 := ⟨_, rfl⟩
  obtain ⟨hdisp, hcond⟩ := bzWord u (d.rs2.setWidth 32)
  have heval : evalUnit h r at_ d map len = hLoadBz h r at_ (pack d.op d.rd d.rs1 (d.imm.setWidth 16))
      (delta4 at_ d map len ||| (d.rs2.setWidth 32 &&& 1#32)) (ctypeOf (decode code off).op) := by
    unfold evalUnit
    rw [he]
    exact dispatch_bz h r at_ _ ha ((pack_op _ _ _ hlt).trans (congrArg Dec.op hdef))
  -- the condition bit says which branch it was
  have hbit : (d.rs2.setWidth 32 &&& 1#32 == 1#32) =
      ((decode code (off + 4#32)).op == RISCV_OP_BEQ) := by
    have hrs2 : d.rs2 = if (decode code (off + 4#32)).op = RISCV_OP_BEQ then 1#5 else 0#5 :=
      congrArg Dec.rs2 hdef
    rw [hrs2]
    rcases hb with hb | hb <;> rw [hb] <;> decide
  have htarget : d.target = (decode code (off + 4#32)).target := by rw [hdef]
  have hrd : d.rd = (decode code off).rd := by rw [hdef]
  have hrs1 : d.rs1 = (decode code off).rs1 := by rw [hdef]
  rw [replay_bz h r code off hx0 hd ha hT hb hrs, heval]
  unfold hLoadBz
  rw [pack_A, pack_B, pack_IMM, himm, hu, hdisp, hcond, hbit, hrd, hrs1]
  refine ⟨rfl, ?_⟩
  simp only
  split
  · exact ⟨htarget.symm, by rw [hu]⟩
  · show 2 = _
    rw [he]
    rfl

/-- A vtable call replays its two loads and its jump, up to ra, unless the register that it jumps
through is left with the low bit cleared. -/
theorem replays_vcall (hd : Hooks.IsDevice h) {targets : Targets}
    (ha : (decode code off).op = RISCV_OP_LW) (hT : (decode code off).rd ≠ 0#5)
    (hf : fuseLwlw (decode code off) (decode code (off + 4#32)) out = some d)
    (hv : isVcall code len off targets (decode code off) = true) :
    Replays at_ { d with op := RISCV_OP_VCALL } map len (replay h code 3 r off)
        (evalUnit h r at_ { d with op := RISCV_OP_VCALL } map len) ↔
      ¬ (d.rd ≠ 1#5 ∧
        (loadChain h r (decode code off) (decode code (off + 4#32))).2.getLsbD 0 = true) := by
  obtain ⟨hb, hrd, hrs, hop, hdrd, lo, hlo, hrs1, ho1, ho2⟩ := fuseLwlw_some hf RISCV_OP_VCALL
  unfold isVcall at hv
  simp only [Bool.and_eq_true, decide_eq_true_eq] at hv
  obtain ⟨-, hc, hcrd, hcrs, hcimm⟩ := hv
  obtain ⟨hrun, hval⟩ := loadTwice_chain h r hd (decode code off) (decode code (off + 4#32))
    (pack_B (decode code off).rd (decode code off).rs1 lo) ho1 ho2
  have he : emit at_ { d with op := RISCV_OP_VCALL } map len =
      [pack RISCV_OP_VCALL (decode code off).rd (decode code off).rs1 lo] := by
    rw [emit_lwlw at_ _ map len (Or.inr rfl)]
    simp only [hlo, hdrd, hrs1]
  have hpop := @pack_op RISCV_OP_VCALL (decode code off).rd (decode code off).rs1 lo
    (by decide)
  generalize hl : loadTwice h r (pack RISCV_OP_VCALL (decode code off).rd (decode code off).rs1 lo)
    = l at hrun hval
  generalize hk : loadChain h r (decode code off) (decode code (off + 4#32)) = k at hrun hval
  have hsrc : replay h code 3 r off =
      ((put k.1 (decode code off).rd k.2).wr 1#5 (off + 8#32 + 4#32), .jump (k.2 &&& ~~~1#32)) := by
    have h8 : off + 8#32 = off + 4#32 + 4#32 := by
      rw [BitVec.add_assoc]
      rfl
    rw [replay_lwlw h r code off ha hT hb hrd hrs h8,
      replay_jump (by rw [hc]; decide) (next_jalr hc), hk, hcrd, hcrs, hcimm, put_x, if_pos rfl,
      BitVec.add_zero]
  have heval : evalUnit h r at_ { d with op := RISCV_OP_VCALL } map len =
      (put (put l.1 (decode code off).rd (l.2 &&& ~~~1#32)) 1#5 (at_ <<< 2 + 4#32), 3,
        .indirect (l.2 &&& ~~~1#32)) := by
    rw [evalUnit_one he, ← hl]
    simp only [dispatch, hpop, pack_A]
    rfl
  have hlink : link { d with op := RISCV_OP_VCALL } = fun i => i == 1#5 := rfl
  -- what is left is the register that holds the address
  have hiff : veil (fun i => i == 1#5) (put l.1 (decode code off).rd (k.2 &&& ~~~1#32)) =
      veil (fun i => i == 1#5) (put k.1 (decode code off).rd k.2) ↔
      ¬ (d.rd ≠ 1#5 ∧ k.2.getLsbD 0 = true) := by
    rw [hdrd]
    constructor
    · rintro heq ⟨hne, hodd⟩
      have hx := veil_x heq (i := (decode code off).rd) (beq_eq_false_iff_ne.2 hne)
      rw [put_x, put_x, if_pos rfl, if_pos rfl] at hx
      have hbit := congrArg (fun v : Word => v.getLsbD 0) hx
      rw [BitVec.getLsbD_and, hodd] at hbit
      exact absurd hbit (by decide)
    · intro hcond
      by_cases h1 : (decode code off).rd = 1#5
      · rw [h1] at hrun ⊢
        rw [veil_put_left, veil_put_left, hrun]
      · have heven : k.2.getLsbD 0 = false := by
          cases hbit : k.2.getLsbD 0 with
          | false => rfl
          | true => exact absurd ⟨h1, hbit⟩ hcond
        rw [clear_low heven]
        exact veil_mono (veil_written hrun k.2) _
  rw [← hiff]
  constructor
  · rintro ⟨hr, -⟩
    rw [heval, hsrc, hlink, hval, ← put_eq (by decide), veil_put_left, veil_put_left] at hr
    exact hr
  · intro hr
    refine ⟨?_, ?_⟩
    · rw [heval, hsrc, hlink, hval, ← put_eq (by decide), veil_put_left, veil_put_left]
      exact hr
    · rw [heval, hsrc, hval]
      rfl

end

/-- The op of a fused pair, pattern by pattern. -/
theorem fuseShadd_op {a b out d : Dec} (hf : fuseShadd a b out = some d) :
    d.op ≠ RISCV_OP_VCALL := by
  obtain ⟨-, -, -, o, -, -, rfl⟩ := fuseShadd_some hf
  exact show RISCV_OP_SHADD ≠ RISCV_OP_VCALL by decide

theorem fuseLwx_op {a b out d : Dec} (hf : fuseLwx a b out = some d) :
    d.op ≠ RISCV_OP_VCALL := by
  unfold fuseLwx at hf
  split at hf
  · cases hf
    exact show RISCV_OP_LWX ≠ RISCV_OP_VCALL by decide
  · cases hf

theorem fuseLwlw_op {a b out d : Dec} (hf : fuseLwlw a b out = some d) :
    d.op ≠ RISCV_OP_VCALL := by
  unfold fuseLwlw at hf
  split at hf
  · cases hf
    exact show RISCV_OP_LWLW ≠ RISCV_OP_VCALL by decide
  · cases hf

theorem fuseLwsw_op {a b out d : Dec} (hf : fuseLwsw a b out = some d) :
    d.op ≠ RISCV_OP_VCALL := by
  unfold fuseLwsw at hf
  split at hf
  · cases hf
    exact show RISCV_OP_LWSW ≠ RISCV_OP_VCALL by decide
  · cases hf

theorem fuseBz_op {a b out d : Dec} (hf : fuseBz a b out = some d) :
    d.op ≠ RISCV_OP_VCALL := by
  obtain ⟨-, -, -, -, rfl⟩ := fuseBz_some hf
  show (if _ then _ else _) ≠ _
  split
  · decide
  · decide

/-- **A fused pair replays its source**: the same registers (ra apart, for a vtable call), memory and
callback calls, and the same way on — unless it is a vtable call through a register other than ra
and the word that its loads fetch is odd. -/
theorem tryFusePair_replays {h : Hooks H} (hd : Hooks.IsDevice h) {r : Run H}
    (hx0 : r.s.x 0#5 = 0#32) {code : Nat → Byte} {len off wd : Word} {targets : Targets}
    {out d : Dec} (hf : tryFusePair code len off targets out = some (d, wd)) (at_ : Word)
    (map : Nat → Word) :
    Replays at_ d map len (replay h code (wd.toNat / 4) r off) (evalUnit h r at_ d map len) ↔
      ¬ (d.op = RISCV_OP_VCALL ∧ d.rd ≠ 1#5 ∧
        (loadChain h r (decode code off) (decode code (off + 4#32))).2.getLsbD 0 = true) := by
  have hyes : ∀ {d : Dec} {src : Run H × Next} {fused : Run H × Nat × Goto},
      d.op ≠ RISCV_OP_VCALL → Replays at_ d map len src fused →
      (Replays at_ d map len src fused ↔ ¬ (d.op = RISCV_OP_VCALL ∧ d.rd ≠ 1#5 ∧
        (loadChain h r (decode code off) (decode code (off + 4#32))).2.getLsbD 0 = true)) := by
    intro d src fused hne hr
    exact iff_of_true hr fun hc => hne hc.1
  unfold tryFusePair at hf
  split at hf
  · cases hf
  split at hf
  · cases hf
  simp only at hf
  split at hf
  · rename_i d' hd'
    cases hf
    exact hyes (fuseShadd_op hd') (replays_shadd h r code off at_ map len hd')
  split at hf
  · rename_i d' hd'
    cases hf
    exact hyes (fuseLwx_op hd') (replays_lwx h r code off at_ map len hd hd')
  split at hf
  · rename_i d' hd'
    split at hd'
    · rename_i hc
      obtain ⟨ha, hT⟩ := hc
      split at hf
      · rename_i hv
        cases hf
        rw [show (12#32).toNat / 4 = 3 from rfl,
          replays_vcall h r code off at_ map len hd ha hT hd' hv]
        simp only [true_and]
      · cases hf
        exact hyes (fuseLwlw_op hd') (replays_lwlw h r code off at_ map len hd ha hT hd')
    · cases hd'
  split at hf
  · rename_i d' hd'
    split at hd'
    · rename_i hc
      obtain ⟨ha, hT⟩ := hc
      cases hf
      exact hyes (fuseLwsw_op hd') (replays_lwsw h r code off at_ map len ha hT hd')
    · cases hd'
  split at hf
  · rename_i d' hd'
    cases hf
    exact hyes (fuseBz_op hd') (replays_bz h r code off at_ map len hx0 hd hd')
  · cases hf

/-- `SLLI x5, x6, 2; ADD x5, x7, x5`. -/
theorem tryFusePair_replays_shadd :
    let code : Nat → Byte := fun i => [0x93, 0x12, 0x23, 0x00, 0xb3, 0x82, 0x53, 0x00].getD i 0
    let r : Run Unit := ⟨(State.boot [] 0).setX 6#5 3#32, []⟩
    let d : Dec := ⟨RISCV_OP_SHADD, 5#5, 7#5, 6#5, 2#32, 0#32, 0#32⟩
    Replays 0#32 d (fun _ => 0#32) 8#32 (replay Hooks.null code 2 r 0#32)
      (evalUnit Hooks.null r 0#32 d (fun _ => 0#32) 8#32) := by
  intro code r d
  have hf : tryFusePair code 8#32 0#32 ⟨fun _ => false, 2#32⟩ .zero = some (d, 8#32) := by decide
  refine (tryFusePair_replays (h := Hooks.null) ?_ rfl hf 0#32 fun _ => 0#32).2 ?_
  · intro f hn
    cases hn
  · rintro ⟨hop, -⟩
    exact absurd hop (by decide)

/-- `LW x5, 0(x10); LW x5, 4(x5); JALR x1, 0(x5)` with 0x1001 in the slot: the source leaves it in
`x5`, the vtable call leaves 0x1000. -/
theorem vcall_clears_low_bit :
    let code : Nat → Byte := fun i =>
      [0x83, 0x22, 0x05, 0x00, 0x83, 0xa2, 0x42, 0x00, 0xe7, 0x80, 0x02, 0x00].getD i 0
    let s := (((State.boot [] 16).setX 10#5 RISCV_HALF).setByte (2, 3) 0 0x80#8).setByte (2, 4) 0 0x01#8
    let r : Run Unit := ⟨s.setByte (2, 5) 0 0x10#8, []⟩
    let d : Dec := ⟨RISCV_OP_VCALL, 5#5, 10#5, 0#5, 4#32, 0#32, 0#32⟩
    tryFusePair code 12#32 0#32 ⟨fun _ => false, 3#32⟩ .zero = some (d, 12#32) ∧
      (replay Hooks.null code 3 r 0#32).1.s.x 5#5 = 0x1001#32 ∧
      (evalUnit Hooks.null r 0#32 d (fun _ => 0#32) 12#32).1.s.x 5#5 = 0x1000#32 := by
  decide

end Purv.Purva

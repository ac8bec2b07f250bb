import Purv.SqliteHost
import Purv.PurvaRun

/-!
# The write hostcall of the sqlite hosts (`sqlite/host.c`, `sqlite/host-purva.c`)

Both hosts hand the guest's buffer to `write(2)` in chunks of 4096 bytes.

* `writeCase`, `serviceHostcallWrite`, `onEcallWrite` — the loop, and the two hostcalls;
* `Whole` — no `write` takes a part of its chunk only;
* `writeCase_delivers` — the loop;
* `hosts_write` — what is written is what a0 says exactly when the writes are whole.
-/

namespace Purv.Purva

open Bits

variable {H U : Type}

/-- `gbyte`. -/
def gbyte (s : State H) (a : Word) : Byte := purvaGbyte s a

/-- The loop of `HOSTCALL_WRITE`, with the answers of `write` to its calls one after the other: the
bytes written, and `left`. -/
def writeCase (byte : Word → Byte) (write : Nat → List Byte → Int) :
    Nat → Word → Word → Nat → List Byte → List Byte × Word
  | 0, _, left, _, out => (out, left)
  | steps + 1, p, left, k, out =>
    if left = 0#32 then (out, left)
    else
      let chunk := if left > 4096#32 then 4096#32 else left
      let buf := (List.range chunk.toNat).map fun j => byte (p + BitVec.ofNat 32 j)
      let wr := write k buf
      if wr < 0 then (out, left)
      else writeCase byte write steps (p + chunk) (left - chunk) (k + 1) (out ++ buf.take wr.toNat)

/-- What `HOSTCALL_WRITE` does: the bytes written, and `ret`. -/
def hostWrite (write : Nat → List Byte → Int) (s : State H) : List Byte × Word :=
  let a1 := s.x 11#5
  let a2 := s.x 12#5
  let (out, left) := writeCase (gbyte s) write a2.toNat a1 a2 0 []
  (out, a2 - left)

/-- The file of the host that is written. -/
def hostFd (s : State H) : Word := if s.x 10#5 = 2#32 then 2#32 else 1#32

/-- `service_hostcall` of `host.c` for `HOSTCALL_WRITE`. -/
def serviceHostcallWrite (write : Word → Nat → List Byte → Int) (s : State (SqliteHost U)) :
    List Byte × State (SqliteHost U) :=
  let (out, ret) := hostWrite (write (hostFd s)) s
  (out, s.setX 10#5 ret)

/-- `on_ecall` of `host-purva.c` for `HOSTCALL_WRITE`. -/
def onEcallWrite (write : Word → Nat → List Byte → Int) (s : State (SqliteHost U)) :
    List Byte × State (SqliteHost U) × Bool :=
  let (out, ret) := hostWrite (write (hostFd s)) s
  (out, s.setX 10#5 ret, s.host.g_halt)

/-! ## Chunks -/

/-- Chunk `k` of `len` bytes. -/
def chunkAt (byte : Nat → Byte) (len k : Nat) : List Byte :=
  (List.range (min 4096 (len - 4096 * k))).map fun j => byte (4096 * k + j)

/-- Every `write` up to the first error takes its whole chunk. -/
def Whole (byte : Nat → Byte) (write : Nat → List Byte → Int) (len : Nat) : Prop :=
  ∀ k, 4096 * k < len → (∀ j < k, 0 ≤ write j (chunkAt byte len j)) →
    0 ≤ write k (chunkAt byte len k) →
      write k (chunkAt byte len k) = (chunkAt byte len k).length

section
variable {byte : Nat → Byte} {write : Nat → List Byte → Int} {len : Nat}

/-- After a first chunk of 4096 bytes the others are those of the rest. -/
theorem chunkAt_succ (k : Nat) :
    chunkAt byte len (k + 1) = chunkAt (fun i => byte (4096 + i)) (len - 4096) k := by
  have h1 : len - 4096 * (k + 1) = len - 4096 - 4096 * k := by omega
  unfold chunkAt
  rw [h1]
  apply List.map_congr_left
  intro j _
  have hj : 4096 * (k + 1) + j = 4096 + (4096 * k + j) := by omega
  simp only [hj]

/-- A first chunk that is refused leaves nothing to ask. -/
theorem whole_refused (hw : write 0 (chunkAt byte len 0) < 0) : Whole byte write len := by
  intro k hk hj h0
  cases k with
  | zero => omega
  | succ k =>
    have := hj 0 (Nat.succ_pos k)
    omega

/-- A first chunk that is not refused. -/
theorem whole_step (byte : Nat → Byte) (write : Nat → List Byte → Int) (hpos : 0 < len)
    (hw : 0 ≤ write 0 (chunkAt byte len 0)) :
    Whole byte write len ↔
      write 0 (chunkAt byte len 0) = (chunkAt byte len 0).length ∧
        Whole (fun i => byte (4096 + i)) (fun k => write (k + 1)) (len - 4096) := by
  constructor
  · intro h
    refine ⟨h 0 (by omega) (by intro j hj; omega) hw, ?_⟩
    intro k hk hj h0
    simp only [← chunkAt_succ] at hj h0 ⊢
    apply h (k + 1) (by omega) _ h0
    intro j hjk
    cases j with
    | zero => exact hw
    | succ j => exact hj j (by omega)
  · rintro ⟨h1, h2⟩ k hk hj h0
    cases k with
    | zero => exact h1
    | succ k =>
      rw [chunkAt_succ] at h0 ⊢
      apply h2 k (by omega) _ h0
      intro j hjk
      have := hj (j + 1) (by omega)
      rwa [chunkAt_succ] at this

theorem whole_nil : Whole byte write 0 := by
  intro k hk
  omega

end

/-! ## The loop -/

/-- The length of the next chunk, by `writeCase`'s words. -/
theorem next_chunk (left : Word) :
    (if left > 4096#32 then 4096#32 else left).toNat = min 4096 left.toNat := by
  have h4096 : (4096#32).toNat = 4096 := rfl
  split
  · rename_i h
    rw [gt_iff_lt, BitVec.lt_def, h4096] at h
    rw [h4096]
    omega
  · rename_i h
    rw [gt_iff_lt, BitVec.lt_def, h4096] at h
    omega

/-- **The loop**, by induction on its rounds: it never writes more than it says, and just that
exactly when the writes are whole. -/
theorem writeCase_delivers (byte : Word → Byte) {write : Nat → List Byte → Int}
    (hw : ∀ k buf, write k buf ≤ buf.length) :
    ∀ (steps : Nat) (p left : Word) (k : Nat) (out : List Byte), left.toNat ≤ steps →
      ∃ (w : List Byte) (left' : Word),
        writeCase byte write steps p left k out = (out ++ w, left') ∧
        left'.toNat ≤ left.toNat ∧ w.length ≤ left.toNat - left'.toNat ∧
        (w = (List.range (left.toNat - left'.toNat)).map (fun i => byte (p + BitVec.ofNat 32 i)) ↔
          Whole (fun i => byte (p + BitVec.ofNat 32 i)) (fun j => write (k + j)) left.toNat) := by
  intro steps
  induction steps with
  | zero =>
    intro p left k out h
    have h0 : left.toNat = 0 := by omega
    refine ⟨[], left, by simp [writeCase], Nat.le_refl _, by simp, ?_⟩
    rw [h0]
    exact iff_of_true rfl whole_nil
  | succ steps ih =>
    intro p left k out h
    unfold writeCase
    by_cases hleft : left = 0#32
    · rw [if_pos hleft, hleft]
      exact ⟨[], 0#32, by simp, Nat.le_refl _, by simp, iff_of_true rfl whole_nil⟩
    rw [if_neg hleft]
    have hpos : 0 < left.toNat := Nat.pos_of_ne_zero fun h0 => hleft (BitVec.eq_of_toNat_eq h0)
    have hchunk := next_chunk left
    simp only
    generalize (if left > 4096#32 then 4096#32 else left) = chunk at hchunk ⊢
    have hbuf : (List.range chunk.toNat).map (fun j => byte (p + BitVec.ofNat 32 j)) =
        chunkAt (fun i => byte (p + BitVec.ofNat 32 i)) left.toNat 0 := by
      rw [hchunk]
      simp [chunkAt]
    rw [hbuf]
    have hlen : (chunkAt (fun i => byte (p + BitVec.ofNat 32 i)) left.toNat 0).length =
        chunk.toNat := by
      rw [← hbuf]
      simp
    by_cases hneg : write k (chunkAt (fun i => byte (p + BitVec.ofNat 32 i)) left.toNat 0) < 0
    · rw [if_pos hneg]
      refine ⟨[], left, by simp, Nat.le_refl _, by simp, ?_⟩
      rw [Nat.sub_self]
      exact iff_of_true rfl (whole_refused hneg)
    · rw [if_neg hneg]
      have hsub : (left - chunk).toNat = left.toNat - chunk.toNat := by
        apply BitVec.toNat_sub_of_le
        rw [BitVec.le_def]
        omega
      obtain ⟨w, left', hrun, hle, hwl, hiff⟩ := ih (p + chunk) (left - chunk) (k + 1)
        (out ++ (chunkAt (fun i => byte (p + BitVec.ofNat 32 i)) left.toNat 0).take
          (write k (chunkAt (fun i => byte (p + BitVec.ofNat 32 i)) left.toNat 0)).toNat) (by omega)
      have hstep := whole_step (fun i => byte (p + BitVec.ofNat 32 i)) (fun j => write (k + j)) hpos
        (by simpa using hneg)
      have hrest : Whole (fun i => byte (p + BitVec.ofNat 32 (4096 + i)))
          (fun j => write (k + (j + 1))) (left.toNat - 4096) ↔
          Whole (fun i => byte (p + chunk + BitVec.ofNat 32 i)) (fun j => write (k + 1 + j))
            (left - chunk).toNat := by
        have hw' : (fun j => write (k + (j + 1))) = fun j => write (k + 1 + j) := by
          funext j
          congr 1
          omega
        rw [hw', hsub, hchunk]
        by_cases hbig : left.toNat ≤ 4096
        · have h1 : left.toNat - 4096 = 0 := by omega
          have h2 : left.toNat - min 4096 left.toNat = 0 := by omega
          rw [h1, h2]
          exact iff_of_true whole_nil whole_nil
        · have h1 : min 4096 left.toNat = 4096 := by omega
          have h2 : chunk = BitVec.ofNat 32 4096 := by
            apply BitVec.eq_of_toNat_eq
            rw [hchunk, h1]
            rfl
          have h3 : (fun i => byte (p + BitVec.ofNat 32 (4096 + i))) =
              fun i => byte (p + chunk + BitVec.ofNat 32 i) := by
            funext i
            rw [h2, BitVec.add_assoc, ← BitVec.ofNat_add]
          rw [h1, h3]
      have hle' := hw k (chunkAt (fun i => byte (p + BitVec.ofNat 32 i)) left.toNat 0)
      rw [hlen] at hle'
      generalize hwr : write k (chunkAt (fun i => byte (p + BitVec.ofNat 32 i)) left.toNat 0) = wr
        at hrun hneg hle' ⊢
      refine ⟨_, left', by rw [hrun, List.append_assoc], by omega, ?_, ?_⟩
      · rw [List.length_append, List.length_take, hlen]
        omega
      · rw [hstep, hrest, ← hiff]
        simp only [Nat.add_zero, hwr, hlen]
        have hsum : left.toNat - left'.toNat =
            chunk.toNat + ((left - chunk).toNat - left'.toNat) := by omega
        constructor
        · intro heq
          have hlens := congrArg List.length heq
          rw [List.length_append, List.length_take, hlen, List.length_map, List.length_range]
            at hlens
          have hfull : wr = chunk.toNat := by omega
          refine ⟨hfull, ?_⟩
          rw [hfull, Int.toNat_natCast, List.take_of_length_le (by rw [hlen]), ← hbuf, hsum,
            List.range_add, List.map_append, List.map_map] at heq
          have := List.append_cancel_left heq
          rw [this]
          apply List.map_congr_left
          intro i _
          simp only [Function.comp_apply]
          rw [BitVec.ofNat_add, BitVec.ofNat_toNat, BitVec.setWidth_eq, BitVec.add_assoc]
        · rintro ⟨hfull, hw'⟩
          rw [hfull, Int.toNat_natCast, List.take_of_length_le (by rw [hlen]), ← hbuf, hsum,
            List.range_add, List.map_append, List.map_map, hw']
          congr 1
          apply List.map_congr_left
          intro i _
          simp only [Function.comp_apply]
          rw [BitVec.ofNat_add, BitVec.ofNat_toNat, BitVec.setWidth_eq, BitVec.add_assoc]

/-- The bytes written are the first `ret` of the guest's buffer. -/
def Delivers (s : State H) (out : List Byte) (ret : Word) : Prop :=
  out = (List.range ret.toNat).map fun i => gbyte s (s.x 11#5 + BitVec.ofNat 32 i)

theorem hostWrite_delivers {write : Nat → List Byte → Int} (hw : ∀ k buf, write k buf ≤ buf.length)
    (s : State H) :
    Delivers s (hostWrite write s).1 (hostWrite write s).2 ↔
      Whole (fun i => gbyte s (s.x 11#5 + BitVec.ofNat 32 i)) write (s.x 12#5).toNat := by
  obtain ⟨w, left', hrun, hle, _, hiff⟩ :=
    writeCase_delivers (gbyte s) hw (s.x 12#5).toNat (s.x 11#5) (s.x 12#5) 0 [] (Nat.le_refl _)
  unfold Delivers hostWrite
  simp only [hrun, List.nil_append]
  rw [BitVec.toNat_sub_of_le (by rw [BitVec.le_def]; exact hle), hiff]
  simp

/-- **The write hostcalls of both hosts**: a0 is what was written of the buffer exactly when no
`write` takes only a part of its chunk. -/
theorem hosts_write {write : Word → Nat → List Byte → Int}
    (hw : ∀ fd k buf, write fd k buf ≤ buf.length) (s : State (SqliteHost U)) :
    (Delivers s (serviceHostcallWrite write s).1 ((serviceHostcallWrite write s).2.x 10#5) ↔
        Whole (fun i => gbyte s (s.x 11#5 + BitVec.ofNat 32 i)) (write (hostFd s))
          (s.x 12#5).toNat) ∧
      (Delivers s (onEcallWrite write s).1 ((onEcallWrite write s).2.1.x 10#5) ↔
        Whole (fun i => gbyte s (s.x 11#5 + BitVec.ofNat 32 i)) (write (hostFd s))
          (s.x 12#5).toNat) :=
  ⟨hostWrite_delivers (hw _) s, hostWrite_delivers (hw _) s⟩

/-- A guest that writes one byte. -/
def writesOne : State (SqliteHost Unit) where
  pc := 0#32
  inst := 0#32
  x := fun i => if i = 10#5 ∨ i = 12#5 then 1#32 else 0#32
  readonly := ⟨1, 0#32, 0#32⟩
  writable := ⟨2, 1#32, 0#32⟩
  mem := fun _ _ => 0x41#8
  host := ⟨false, 0#32, ()⟩

/-- A `write` that takes nothing: the byte is lost, and a0 is 1. -/
theorem hosts_write_short :
    ¬ Delivers writesOne (serviceHostcallWrite (fun _ _ _ => 0) writesOne).1
      ((serviceHostcallWrite (fun _ _ _ => 0) writesOne).2.x 10#5) := by
  unfold Delivers
  decide

theorem hosts_write_one :
    (Delivers writesOne
        (serviceHostcallWrite (fun _ _ buf => buf.length) writesOne).1
        ((serviceHostcallWrite (fun _ _ buf => buf.length) writesOne).2.x 10#5) ↔
        Whole (fun i => gbyte writesOne (writesOne.x 11#5 + BitVec.ofNat 32 i))
          (fun _ buf => buf.length) (writesOne.x 12#5).toNat) ∧
      (Delivers writesOne (onEcallWrite (fun _ _ buf => buf.length) writesOne).1
          ((onEcallWrite (fun _ _ buf => buf.length) writesOne).2.1.x 10#5) ↔
        Whole (fun i => gbyte writesOne (writesOne.x 11#5 + BitVec.ofNat 32 i))
          (fun _ buf => buf.length) (writesOne.x 12#5).toNat) :=
  hosts_write (fun _ _ _ => Int.le_refl _) writesOne

end Purv.Purva

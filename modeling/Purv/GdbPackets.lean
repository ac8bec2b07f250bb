import Purv.GdbBreakpoints

/-!
# The register and memory packets of the gdb stub (`gdbstub.c`)

A packet is the stub's buffer, what earlier packets left in it included, and a length `n` with a
`NUL` at `n`.

* `readRegsPacket`, `writeRegsPacket`, `readMemPacket`, `writeMemPacket` — `g`, `G`, `m` and `M`;
* `SetsComplete`, `WritesSpelled` — what `G` and `M` should do;
* `writeRegs_complete`, `writeMem_spelled` — and exactly when they do.
-/

namespace Purv.Gdb

variable {H : Type}

/-! ## Registers -/

/-- `GDB_NREG`. -/
def GDB_NREG : Nat := 33

/-- The loop of `reg_from_hex`. -/
def regFromHexFrom (buf : Nat → Byte) (p : Nat) : Nat → Nat → Word → Word
  | 0, _, v => v
  | k + 1, i, v =>
    let hi := buf (p + i * 2)
    let lo := buf (p + i * 2 + 1)
    if isHex hi = false ∨ isHex lo = false then v
    else regFromHexFrom buf p k (i + 1) (v ||| (hexval hi <<< 4 ||| hexval lo) <<< (8 * i))

/-- `reg_from_hex`. -/
def regFromHex (buf : Nat → Byte) (p : Nat) : Word := regFromHexFrom buf p 4 0 0#32

/-- Two digits of a byte. -/
def hexPair (b : Byte) : List Byte := [hexd (b >>> 4), hexd (b &&& 0xf#8)]

/-- `reg_to_hex`. -/
def regToHex (v : Word) : List Byte :=
  (List.range 4).flatMap fun i => hexPair ((v >>> (8 * i)).setWidth 8)

/-- The reply to `g`. -/
def readRegsPacket (s : State H) : List Byte :=
  (List.range GDB_NREG).flatMap fun i => regToHex (regGet s i)

/-- The loop of `G`. -/
def writeRegsFrom (buf : Nat → Byte) (n : Nat) : Nat → Nat → Nat → State H → State H
  | 0, _, _, s => s
  | k + 1, i, p, s =>
    if p + 8 ≤ n + 1 then writeRegsFrom buf n k (i + 1) (p + 8) (regSet s i (regFromHex buf p))
    else s

/-- `G`. -/
def writeRegsPacket (s : State H) (buf : Nat → Byte) (n : Nat) : State H :=
  writeRegsFrom buf n GDB_NREG 0 1 s

/-! ## Memory -/

/-- One byte of `mem_read`. -/
def memReadByte (s : State H) (a : Word) : Byte :=
  match byteAt s a false with
  | some p => s.mem p.1 p.2
  | none => 0#8

/-- `addr`, `len`, and where they end. -/
def memRange (buf : Nat → Byte) (n : Nat) : Word × Word × Nat :=
  let (addr, p) := parseHex buf n 1
  let (len, p) := parseHex buf n (skip buf 0x2c#8 p)
  (addr, len, p)

/-- The bytes that `m` reads. -/
def readLen (buf : Nat → Byte) (n : Nat) : Nat :=
  min (memRange buf n).2.1.toNat ((GDB_BUF - 8) / 2)

/-- The reply to `m`. -/
def readMemPacket (s : State H) (buf : Nat → Byte) (n : Nat) : List Byte :=
  (List.range (readLen buf n)).flatMap fun i =>
    hexPair (memReadByte s ((memRange buf n).1 + BitVec.ofNat 32 i))

/-- A store is to a writable address. -/
def writable (s : State H) (a : Word) : Bool := (byteAt s a true).isSome

/-- The loop of `M`, with a log of its stores. -/
def writeMemFrom (buf : Nat → Byte) (addr : Word) :
    Nat → Nat → Nat → State H → List (Word × Byte) → State H × List (Word × Byte)
  | 0, _, _, s, log => (s, log)
  | k + 1, i, p, s, log =>
    if isHex (buf p) then
      let a := addr + BitVec.ofNat 32 i
      let b := hexByte (buf p) (buf (p + 1))
      writeMemFrom buf addr k (i + 1) (p + 2) (pokeByte s a b)
        (if writable s a then log ++ [(a, b)] else log)
    else (s, log)

/-- Where the data of an `M` begin. -/
def dataStart (buf : Nat → Byte) (n : Nat) : Nat := skip buf 0x3a#8 (memRange buf n).2.2

/-- `M`, with its stores. -/
def writeMemPacket (s : State H) (buf : Nat → Byte) (n : Nat) : State H × List (Word × Byte) :=
  writeMemFrom buf (memRange buf n).1 (memRange buf n).2.1.toNat 0 (dataStart buf n) s []

/-! ## Digits -/

theorem isHex_nibble : ∀ c : Byte, isHex c →
    hexval c = ((hexval c).setWidth 4).setWidth 32 := by decide

theorem nibbles : ∀ a b : BitVec 4,
    hexval (hexd (((a.setWidth 32 <<< 4 ||| b.setWidth 32) : Word).setWidth 8 >>> 4)) =
        a.setWidth 32 ∧
      hexval (hexd (((a.setWidth 32 <<< 4 ||| b.setWidth 32) : Word).setWidth 8 &&& 0xf#8)) =
        b.setWidth 32 ∧
      (a.setWidth 32 <<< 4 ||| b.setWidth 32 : Word) =
        ((a.setWidth 32 <<< 4 ||| b.setWidth 32 : Word).setWidth 8).setWidth 32 := by decide

/-- Two digits that are sent back. -/
theorem hexPair_hexByte {hi lo : Byte} (h1 : isHex hi) (h2 : isHex lo) :
    (hexPair (hexByte hi lo)).map hexval = [hexval hi, hexval lo] := by
  unfold hexPair hexByte
  have h := nibbles ((hexval hi).setWidth 4) ((hexval lo).setWidth 4)
  rw [← isHex_nibble hi h1, ← isHex_nibble lo h2] at h
  simp only [List.map_cons, List.map_nil, h.1, h.2.1]

theorem hexByte_word {hi lo : Byte} (h1 : isHex hi) (h2 : isHex lo) :
    hexval hi <<< 4 ||| hexval lo = (hexByte hi lo).setWidth 32 := by
  have h := nibbles ((hexval hi).setWidth 4) ((hexval lo).setWidth 4)
  rw [← isHex_nibble hi h1, ← isHex_nibble lo h2] at h
  exact h.2.2

/-- One block of a list of blocks of equal length. -/
theorem flatMap_block {α β : Type} (f : α → List β) {c : Nat} (hf : ∀ x, (f x).length = c)
    (l : List α) {i : Nat} (hi : i < l.length) :
    ((l.flatMap f).drop (c * i)).take c = f l[i] := by
  induction l generalizing i with
  | nil => cases hi
  | cons x l ih =>
    rw [List.flatMap_cons]
    cases i with
    | zero => rw [Nat.mul_zero, List.drop_zero, List.take_left' (hf x), List.getElem_cons_zero]
    | succ i =>
      have hle : (f x).length ≤ c * (i + 1) := by
        rw [hf x]
        exact Nat.le_mul_of_pos_right c (Nat.succ_pos i)
      have hrest : c * (i + 1) - (f x).length = c * i := by
        rw [hf x, Nat.mul_succ, Nat.add_sub_cancel]
      rw [List.drop_append, List.drop_eq_nil_of_le hle, List.nil_append, hrest,
        List.getElem_cons_succ]
      exact ih (Nat.lt_of_succ_lt_succ hi)

/-! ## What `G` should do -/

/-- Digit pair `k` from `p` on. -/
def IsPair (buf : Nat → Byte) (p k : Nat) : Prop :=
  isHex (buf (p + k * 2)) ∧ isHex (buf (p + k * 2 + 1))

instance (buf : Nat → Byte) (p k : Nat) : Decidable (IsPair buf p k) :=
  inferInstanceAs (Decidable (_ ∧ _))

/-- The byte of pair `k` from `p` on. -/
def pairByte (buf : Nat → Byte) (p k : Nat) : Byte :=
  hexByte (buf (p + k * 2)) (buf (p + k * 2 + 1))

/-- The slot of register `i`. -/
def slot (i : Nat) : Nat := 1 + 8 * i

/-- All eight digits of register `i` are in the packet. -/
def Complete (buf : Nat → Byte) (n i : Nat) : Prop :=
  slot i + 8 ≤ n ∧ ∀ k < 4, IsPair buf (slot i) k

instance (buf : Nat → Byte) (n i : Nat) : Decidable (Complete buf n i) :=
  inferInstanceAs (Decidable (_ ∧ _))

/-- The little-endian word of four bytes. -/
def littleEndian (b : Nat → Byte) : Word :=
  (b 0).setWidth 32 ||| (b 1).setWidth 32 <<< 8 ||| (b 2).setWidth 32 <<< 16 |||
    (b 3).setWidth 32 <<< 24

/-- The bytes of the leading pairs, and zero for the others. -/
def leading (buf : Nat → Byte) (p k : Nat) : Byte :=
  if ∀ t ≤ k, IsPair buf p t then pairByte buf p k else 0#8

/-- **`G` as it should be**: the registers that are complete, and only these; a `g` returns their
digits. -/
structure SetsComplete (s s' : State H) (buf : Nat → Byte) (n : Nat) : Prop where
  registers : ∀ i, 0 < i → i < GDB_NREG →
    regGet s' i = if Complete buf n i then littleEndian (pairByte buf (slot i)) else regGet s i
  zero : s'.x 0#5 = s.x 0#5
  frame : ∃ x pc, s' = { s with x := x, pc := pc }
  returns : ∀ i, 0 < i → i < GDB_NREG → Complete buf n i →
    (((readRegsPacket s').drop (8 * i)).take 8).map hexval =
      (List.range 4).flatMap fun k =>
        [hexval (buf (slot i + k * 2)), hexval (buf (slot i + k * 2 + 1))]

/-! ## `G` -/

theorem leading_pair {buf : Nat → Byte} {p k m : Nat} (h : ∀ t < m, IsPair buf p t) (hk : k < m) :
    leading buf p k = pairByte buf p k := if_pos fun t ht => h t (Nat.lt_of_le_of_lt ht hk)

theorem leading_zero {buf : Nat → Byte} {p k m : Nat} (h : ¬ IsPair buf p m) (hk : m ≤ k) :
    leading buf p k = 0#8 := if_neg fun hall => h (hall m hk)

theorem regFromHexFrom_succ (buf : Nat → Byte) (p k i : Nat) (v : Word) :
    regFromHexFrom buf p (k + 1) i v =
      if IsPair buf p i then
        regFromHexFrom buf p k (i + 1) (v ||| (pairByte buf p i).setWidth 32 <<< (8 * i))
      else v := by
  rw [regFromHexFrom]
  by_cases hp : IsPair buf p i
  · have hne : ¬ (isHex (buf (p + i * 2)) = false ∨ isHex (buf (p + i * 2 + 1)) = false) := by
      simp [hp.1, hp.2]
    simp only [if_pos hp, if_neg hne]
    rw [hexByte_word hp.1 hp.2, pairByte]
  · have hor : isHex (buf (p + i * 2)) = false ∨ isHex (buf (p + i * 2 + 1)) = false := by
      by_contra hcon
      simp only [not_or, Bool.not_eq_false] at hcon
      exact hp hcon
    simp only [if_neg hp, if_pos hor]

/-- `reg_from_hex` reads the leading pairs. -/
theorem regFromHex_leading (buf : Nat → Byte) (p : Nat) :
    regFromHex buf p = littleEndian (leading buf p) := by
  have hlt : ∀ m, (∀ t < m, IsPair buf p t) → IsPair buf p m → ∀ t < m + 1, IsPair buf p t := by
    intro m hm h t ht
    rcases Nat.lt_or_eq_of_le (Nat.le_of_lt_succ ht) with hlt | rfl
    · exact hm t hlt
    · exact h
  unfold regFromHex littleEndian
  simp only [regFromHexFrom_succ]
  by_cases h0 : IsPair buf p 0
  · have hall1 := hlt 0 (fun t ht => absurd ht (Nat.not_lt_zero t)) h0
    by_cases h1 : IsPair buf p 1
    · have hall2 := hlt 1 hall1 h1
      by_cases h2 : IsPair buf p 2
      · have hall3 := hlt 2 hall2 h2
        by_cases h3 : IsPair buf p 3
        · have hall := hlt 3 hall3 h3
          simp [h0, h1, h2, h3, regFromHexFrom, leading_pair hall]
        · simp [h0, h1, h2, h3, leading_pair hall3, leading_zero h3]
      · simp [h0, h1, h2, leading_pair hall2, leading_zero h2]
    · simp [h0, h1, leading_pair hall1, leading_zero h1]
  · simp [h0, leading_zero h0]

theorem regFromHex_complete {buf : Nat → Byte} {p : Nat} (h : ∀ k < 4, IsPair buf p k) :
    regFromHex buf p = littleEndian (pairByte buf p) := by
  rw [regFromHex_leading]
  have hk : ∀ k < 4, leading buf p k = pairByte buf p k := fun k hk =>
    if_pos fun t ht => h t (by omega)
  unfold littleEndian
  rw [hk 0 (by omega), hk 1 (by omega), hk 2 (by omega), hk 3 (by omega)]

theorem littleEndian_byte (b : Nat → Byte) {k : Nat} (hk : k < 4) :
    ((littleEndian b) >>> (8 * k)).setWidth 8 = b k := by
  have h : k = 0 ∨ k = 1 ∨ k = 2 ∨ k = 3 := by omega
  unfold littleEndian
  have hout : ∀ k i, 8 ≤ i → (b k).getLsbD i = false := fun k i hi =>
    BitVec.getLsbD_of_ge (b k) i hi
  rcases h with rfl | rfl | rfl | rfl
  · ext i hi
    simp
  · ext i hi
    simp [hi, show 8 + i < 16 by omega, show 8 + i < 24 by omega, show 8 + i < 32 by omega]
  · ext i hi
    simp [hi, hout 0 (16 + i) (by omega), hout 1 (16 + i - 8) (by omega),
      show 16 + i < 24 by omega, show 16 + i < 32 by omega]
  · ext i hi
    simp [hi, hout 0 (24 + i) (by omega), hout 1 (24 + i - 8) (by omega),
      hout 2 (24 + i - 16) (by omega), show 24 + i < 32 by omega]

theorem regGet_regSet (s : State H) {i j : Nat} (hi : i < GDB_NREG) (hj : j < GDB_NREG)
    (v : Word) : regGet (regSet s i v) j = if j = i ∧ i ≠ 0 then v else regGet s j := by
  unfold GDB_NREG at hi hj
  unfold regSet
  by_cases hpc : i ≥ 32
  · obtain rfl : i = 32 := by omega
    rw [if_pos hpc]
    unfold regGet
    by_cases hj32 : j < 32
    · rw [if_pos hj32, if_pos hj32, if_neg (by omega)]
    · rw [if_neg hj32, if_neg hj32, if_pos (by omega)]
  · rw [if_neg hpc]
    by_cases h0 : i = 0
    · rw [if_neg (by simp [h0]), if_neg (by simp [h0])]
    · rw [if_pos h0]
      unfold regGet
      by_cases hj32 : j < 32
      · have hiff : BitVec.ofNat 5 j = BitVec.ofNat 5 i ↔ j = i := by
          rw [← BitVec.toNat_inj, BitVec.toNat_ofNat, BitVec.toNat_ofNat,
            Nat.mod_eq_of_lt hj32, Nat.mod_eq_of_lt (by omega)]
        simp [hj32, h0, hiff]
      · rw [if_neg hj32, if_neg hj32, if_neg (by omega)]
        rfl

theorem regSet_frame (s : State H) (i : Nat) (v : Word) :
    ∃ x pc, regSet s i v = { s with x := x, pc := pc } := by
  unfold regSet
  split
  · exact ⟨s.x, v, rfl⟩
  · split
    · exact ⟨_, s.pc, rfl⟩
    · exact ⟨s.x, s.pc, rfl⟩

theorem regSet_zero (s : State H) {i : Nat} (hi : i < GDB_NREG) (v : Word) :
    (regSet s i v).x 0#5 = s.x 0#5 := by
  have h := regGet_regSet s hi (show 0 < GDB_NREG by unfold GDB_NREG; omega) v
  rw [if_neg (by omega)] at h
  exact h

/-- What `G` does to the registers: those that the length reaches get what `reg_from_hex` reads. -/
theorem writeRegsFrom_regGet (buf : Nat → Byte) (n k i : Nat) (s : State H)
    (hk : k + i = GDB_NREG) {j : Nat} (hj0 : 0 < j) (hj : j < GDB_NREG) :
    regGet (writeRegsFrom buf n k i (slot i) s) j =
      if i ≤ j ∧ 8 * (j + 1) ≤ n then regFromHex buf (slot j) else regGet s j := by
  induction k generalizing i s with
  | zero => rw [writeRegsFrom, if_neg (by omega)]
  | succ k ih =>
    have hslot : slot i + 8 = slot (i + 1) := by
      unfold slot
      omega
    rw [writeRegsFrom]
    by_cases hn : slot i + 8 ≤ n + 1
    · rw [if_pos hn, hslot, ih (i + 1) _ (by omega), regGet_regSet s (by omega) hj]
      unfold slot at hn
      by_cases hji : j = i
      · subst hji
        rw [if_neg (by omega), if_pos ⟨rfl, by omega⟩, if_pos ⟨Nat.le_refl j, by omega⟩]
      · have hin : ¬ (j = i ∧ i ≠ 0) := fun h => hji h.1
        rw [if_neg hin]
        have hiff : (i + 1 ≤ j ∧ 8 * (j + 1) ≤ n) ↔ (i ≤ j ∧ 8 * (j + 1) ≤ n) := by omega
        simp only [hiff]
    · rw [if_neg hn]
      unfold slot at hn
      rw [if_neg (by omega)]

theorem writeRegsFrom_frame (buf : Nat → Byte) (n k i p : Nat) (s : State H)
    (hk : k + i = GDB_NREG) :
    (writeRegsFrom buf n k i p s).x 0#5 = s.x 0#5 ∧
      ∃ x pc, writeRegsFrom buf n k i p s = { s with x := x, pc := pc } := by
  induction k generalizing i p s with
  | zero => exact ⟨rfl, s.x, s.pc, rfl⟩
  | succ k ih =>
    rw [writeRegsFrom]
    split
    · obtain ⟨hzero, x, pc, hframe⟩ := ih (i + 1) (p + 8) (regSet s i (regFromHex buf p)) (by omega)
      obtain ⟨x', pc', hset⟩ := regSet_frame s i (regFromHex buf p)
      refine ⟨hzero.trans (regSet_zero s (by omega) _), x, pc, ?_⟩
      rw [hframe, hset]
    · exact ⟨rfl, s.x, s.pc, rfl⟩

theorem regToHex_length (v : Word) : (regToHex v).length = 8 := rfl

/-- The digits of a register in the reply to `g`. -/
theorem readRegs_digits {s : State H} {buf : Nat → Byte} {i : Nat} (hi : i < GDB_NREG)
    (hp : ∀ k < 4, IsPair buf (slot i) k)
    (hv : regGet s i = littleEndian (pairByte buf (slot i))) :
    (((readRegsPacket s).drop (8 * i)).take 8).map hexval =
      (List.range 4).flatMap fun k =>
        [hexval (buf (slot i + k * 2)), hexval (buf (slot i + k * 2 + 1))] := by
  unfold readRegsPacket
  rw [flatMap_block (fun i => regToHex (regGet s i)) (fun _ => regToHex_length _) _ (by simpa),
    List.getElem_range, hv]
  unfold regToHex
  rw [List.map_flatMap]
  apply List.flatMap_congr
  intro k hk
  rw [List.mem_range] at hk
  rw [littleEndian_byte _ hk]
  exact hexPair_hexByte (hp k hk).1 (hp k hk).2

/-- The registers that the length reaches without all their digits have the value of their leading
pairs. -/
def RegsAgree (s : State H) (buf : Nat → Byte) (n : Nat) : Prop :=
  ∀ i, 0 < i → i < GDB_NREG → 8 * (i + 1) ≤ n → ¬ Complete buf n i →
    regGet s i = littleEndian (leading buf (slot i))

/-- **`G`** sets the complete registers only, exactly when the others that it reaches agree. -/
theorem writeRegs_complete (s : State H) (buf : Nat → Byte) (n : Nat) :
    SetsComplete s (writeRegsPacket s buf n) buf n ↔ RegsAgree s buf n := by
  have hget : ∀ i, 0 < i → i < GDB_NREG → regGet (writeRegsPacket s buf n) i =
      if 8 * (i + 1) ≤ n then regFromHex buf (slot i) else regGet s i := by
    intro i h0 hi
    have h : regGet (writeRegsPacket s buf n) i = _ :=
      writeRegsFrom_regGet buf n GDB_NREG 0 s rfl h0 hi
    simpa using h
  have hcomplete : ∀ i, Complete buf n i → 8 * (i + 1) ≤ n := by
    intro i h
    have := h.1
    unfold slot at this
    omega
  constructor
  · intro h i h0 hi hn hc
    have hreg := h.registers i h0 hi
    rw [hget i h0 hi, if_pos hn, if_neg hc, regFromHex_leading] at hreg
    exact hreg.symm
  · intro h
    have hregs : ∀ i, 0 < i → i < GDB_NREG → regGet (writeRegsPacket s buf n) i =
        if Complete buf n i then littleEndian (pairByte buf (slot i)) else regGet s i := by
      intro i h0 hi
      rw [hget i h0 hi]
      by_cases hc : Complete buf n i
      · rw [if_pos hc, if_pos (hcomplete i hc), regFromHex_complete hc.2]
      · rw [if_neg hc]
        by_cases hn : 8 * (i + 1) ≤ n
        · rw [if_pos hn, regFromHex_leading]
          exact (h i h0 hi hn hc).symm
        · rw [if_neg hn]
    obtain ⟨hzero, hframe⟩ := writeRegsFrom_frame buf n GDB_NREG 0 1 s rfl
    refine ⟨hregs, hzero, hframe, ?_⟩
    intro i h0 hi hc
    apply readRegs_digits hi hc.2
    rw [hregs i h0 hi, if_pos hc]

/-! ## What `M` should do -/

/-- The pairs of `M`: at most `len`, up to the first that is no pair of digits. -/
def spelled (buf : Nat → Byte) (n : Nat) : List Nat :=
  (List.range (memRange buf n).2.1.toNat).takeWhile fun j =>
    dataStart buf n + j * 2 + 1 < n ∧ IsPair buf (dataStart buf n) j

/-- The stores of pairs. -/
def stores (buf : Nat → Byte) (addr : Word) (p : Nat) (js : List Nat) : List (Word × Byte) :=
  js.map fun j => (addr + BitVec.ofNat 32 j, pairByte buf p j)

/-- The stores that `M` should do. -/
def spelledStores (s : State H) (buf : Nat → Byte) (n : Nat) : List (Word × Byte) :=
  (stores buf (memRange buf n).1 (dataStart buf n) (spelled buf n)).filter fun x => writable s x.1

/-- `mem_write` of single bytes. -/
def pokes (s : State H) (l : List (Word × Byte)) : State H :=
  l.foldl (fun s x => pokeByte s x.1 x.2) s

/-- **`M` as it should be**: it stores the spelled bytes at writable addresses and no others; an
`m` that reads such an address returns its digits. -/
structure WritesSpelled (s : State H) (r : State H × List (Word × Byte)) (buf : Nat → Byte)
    (n : Nat) : Prop where
  log : r.2 = spelledStores s buf n
  state : r.1 = pokes s (spelledStores s buf n)
  returns : ∀ j ∈ spelled buf n, writable s ((memRange buf n).1 + BitVec.ofNat 32 j) →
    ∀ buf' n' i, i < readLen buf' n' →
      (memRange buf' n').1 + BitVec.ofNat 32 i = (memRange buf n).1 + BitVec.ofNat 32 j →
      (((readMemPacket r.1 buf' n').drop (2 * i)).take 2).map hexval =
        [hexval (buf (dataStart buf n + j * 2)), hexval (buf (dataStart buf n + j * 2 + 1))]

/-! ## Single bytes -/

theorem byteAt_pokeByte (s : State H) (a b : Word) (v : Byte) (w : Bool) :
    byteAt (pokeByte s a v) b w = byteAt s b w := by
  unfold pokeByte
  split <;> rfl

theorem writable_pokeByte (s : State H) (a b : Word) (v : Byte) :
    writable (pokeByte s a v) b = writable s b := by
  rw [writable, byteAt_pokeByte, writable]

theorem writable_iff (s : State H) (a : Word) :
    writable s a ↔ a - s.writable.base < s.writable.len := by
  unfold writable byteAt
  by_cases h : a - s.writable.base < s.writable.len
  · simp [h]
  · simp [h]

theorem byteAt_writable {s : State H} {a : Word} (h : writable s a) (w : Bool) :
    byteAt s a w = some (s.writable.ptr, (a - s.writable.base).toNat) :=
  if_pos ((writable_iff s a).mp h)

theorem pokeByte_unwritable {s : State H} {a : Word} (h : ¬ writable s a) (v : Byte) :
    pokeByte s a v = s := by
  unfold writable at h
  rw [Bool.not_eq_true, Option.isSome_eq_false_iff, Option.isNone_iff_eq_none] at h
  rw [pokeByte, h]

theorem memReadByte_pokeByte {s : State H} {a b : Word} (ha : writable s a) (hb : writable s b)
    (v : Byte) : memReadByte (pokeByte s b v) a = if a = b then v else memReadByte s a := by
  unfold memReadByte
  rw [byteAt_pokeByte, byteAt_writable ha, pokeByte, byteAt_writable hb]
  have hiff : (a - s.writable.base).toNat = (b - s.writable.base).toNat ↔ a = b := by
    rw [BitVec.toNat_inj, BitVec.sub_left_inj]
  simp only [State.setByte, Nat.add_zero, true_and, hiff]

/-- Stores to other addresses leave a byte. -/
theorem memReadByte_pokes {s : State H} {a : Word} (ha : writable s a) (l : List (Word × Byte))
    (hl : ∀ x ∈ l, writable s x.1) (hne : ∀ x ∈ l, x.1 ≠ a) :
    memReadByte (pokes s l) a = memReadByte s a := by
  induction l generalizing s with
  | nil => rfl
  | cons x l ih =>
    have hx := hl x List.mem_cons_self
    rw [pokes, List.foldl_cons]
    have hrest := ih (s := pokeByte s x.1 x.2) (by rwa [writable_pokeByte])
      (fun y hy => by rw [writable_pokeByte]; exact hl y (List.mem_cons_of_mem _ hy))
      (fun y hy => hne y (List.mem_cons_of_mem _ hy))
    rw [pokes] at hrest
    rw [hrest, memReadByte_pokeByte ha hx, if_neg (hne x List.mem_cons_self).symm]

/-- Stores to distinct addresses are read back. -/
theorem memReadByte_stored {s : State H} (l : List (Word × Byte))
    (hl : ∀ x ∈ l, writable s x.1) (hnd : (l.map Prod.fst).Nodup) {x : Word × Byte} (hx : x ∈ l) :
    memReadByte (pokes s l) x.1 = x.2 := by
  induction l generalizing s with
  | nil => cases hx
  | cons y l ih =>
    rw [List.map_cons, List.nodup_cons] at hnd
    have hy := hl y List.mem_cons_self
    have hl' : ∀ z ∈ l, writable (pokeByte s y.1 y.2) z.1 := fun z hz => by
      rw [writable_pokeByte]
      exact hl z (List.mem_cons_of_mem _ hz)
    rcases List.mem_cons.mp hx with rfl | hx
    · have hne : ∀ z ∈ l, z.1 ≠ x.1 := fun z hz h => hnd.1 (h ▸ List.mem_map_of_mem hz)
      have hread := memReadByte_pokes (s := pokeByte s x.1 x.2) (by rwa [writable_pokeByte]) l hl'
        hne
      rw [pokes] at hread
      rw [pokes, List.foldl_cons, hread, memReadByte_pokeByte hy hy, if_pos rfl]
    · have hread := ih hl' hnd.2 hx
      rw [pokes] at hread
      rw [pokes, List.foldl_cons, hread]

theorem pokes_filter (s : State H) (l : List (Word × Byte)) :
    pokes s (l.filter fun x => writable s x.1) = pokes s l := by
  induction l generalizing s with
  | nil => rfl
  | cons x l ih =>
    have hrest := ih (pokeByte s x.1 x.2)
    simp only [writable_pokeByte] at hrest
    by_cases hx : writable s x.1
    · rw [List.filter_cons, if_pos hx]
      exact hrest
    · rw [List.filter_cons, if_neg hx, ih]
      unfold pokes
      rw [List.foldl_cons, pokeByte_unwritable hx]

/-! ## `M` -/

/-- The pairs that the loop reaches: those up to the first that does not begin with a digit. -/
def reached (buf : Nat → Byte) (n : Nat) : List Nat :=
  (List.range (memRange buf n).2.1.toNat).takeWhile fun j => isHex (buf (dataStart buf n + j * 2))

theorem writeMemFrom_eq (buf : Nat → Byte) (addr : Word) (p k i : Nat) (s : State H)
    (log : List (Word × Byte)) :
    writeMemFrom buf addr k i (p + i * 2) s log =
      let l := stores buf addr p ((List.range' i k).takeWhile fun j => isHex (buf (p + j * 2)))
      (pokes s l, log ++ l.filter fun x => writable s x.1) := by
  induction k generalizing i s log with
  | zero => simp [writeMemFrom, stores, pokes]
  | succ k ih =>
    rw [List.range'_succ, writeMemFrom]
    by_cases hp : isHex (buf (p + i * 2))
    · have hnext : p + i * 2 + 2 = p + (i + 1) * 2 := by omega
      rw [if_pos hp, List.takeWhile_cons, if_pos hp, hnext, ih]
      simp only [stores, List.map_cons, pokes, List.foldl_cons, writable_pokeByte]
      refine Prod.ext rfl ?_
      simp only [pairByte]
      by_cases hw : writable s (addr + BitVec.ofNat 32 i)
      · rw [if_pos hw, List.filter_cons, if_pos hw]
        simp
      · rw [if_neg hw, List.filter_cons, if_neg hw]
    · rw [if_neg hp, List.takeWhile_cons, if_neg hp]
      simp [stores, pokes]

theorem writeMemPacket_eq (s : State H) (buf : Nat → Byte) (n : Nat) :
    writeMemPacket s buf n =
      (pokes s (stores buf (memRange buf n).1 (dataStart buf n) (reached buf n)),
        (stores buf (memRange buf n).1 (dataStart buf n) (reached buf n)).filter fun x =>
          writable s x.1) := by
  have h := writeMemFrom_eq buf (memRange buf n).1 (dataStart buf n)
    (memRange buf n).2.1.toNat 0 s []
  rw [Nat.zero_mul, Nat.add_zero] at h
  rw [writeMemPacket, h, reached, List.range_eq_range']
  simp

theorem mem_takeWhile_range' (P : Nat → Bool) (i k j : Nat) :
    j ∈ (List.range' i k).takeWhile P ↔ i ≤ j ∧ j < i + k ∧ ∀ t, i ≤ t → t ≤ j → P t := by
  induction k generalizing i with
  | zero =>
    simp
    omega
  | succ k ih =>
    rw [List.range'_succ]
    by_cases hP : P i
    · rw [List.takeWhile_cons_of_pos hP, List.mem_cons, ih]
      constructor
      · rintro (rfl | ⟨h1, h2, h3⟩)
        · refine ⟨Nat.le_refl j, by omega, ?_⟩
          intro t ht htj
          rwa [Nat.le_antisymm htj ht]
        · refine ⟨by omega, by omega, ?_⟩
          intro t ht htj
          rcases Nat.eq_or_lt_of_le ht with rfl | ht
          · exact hP
          · exact h3 t ht htj
      · rintro ⟨h1, h2, h3⟩
        rcases Nat.eq_or_lt_of_le h1 with rfl | h1
        · exact .inl rfl
        · exact .inr ⟨h1, by omega, fun t ht htj => h3 t (by omega) htj⟩
    · rw [List.takeWhile_cons_of_neg hP]
      refine iff_of_false (by simp) ?_
      rintro ⟨h1, _, h3⟩
      exact hP (h3 i (Nat.le_refl i) h1)

theorem mem_takeWhile_range (P : Nat → Bool) (k j : Nat) :
    j ∈ (List.range k).takeWhile P ↔ j < k ∧ ∀ t ≤ j, P t := by
  rw [List.range_eq_range', mem_takeWhile_range']
  simp

theorem takeWhile_split {α : Type} (P Q : α → Bool) (hPQ : ∀ x, Q x → P x) (l : List α) :
    l.takeWhile P = l.takeWhile Q ++ (l.dropWhile Q).takeWhile P := by
  induction l with
  | nil => rfl
  | cons x l ih =>
    by_cases hQ : Q x
    · rw [List.takeWhile_cons_of_pos (hPQ x hQ), List.takeWhile_cons_of_pos hQ,
        List.dropWhile_cons_of_pos hQ, ih, List.cons_append]
    · rw [List.takeWhile_cons_of_neg hQ, List.dropWhile_cons_of_neg hQ, List.nil_append]

/-- Every pair that the loop reaches is spelled by the packet, or its address is not writable. -/
def HalfPairsHarmless (s : State H) (buf : Nat → Byte) (n : Nat) : Prop :=
  ∀ j < (memRange buf n).2.1.toNat, (∀ t ≤ j, isHex (buf (dataStart buf n + t * 2))) →
    (∀ t ≤ j, dataStart buf n + t * 2 + 1 < n ∧ IsPair buf (dataStart buf n) t) ∨
      ¬ writable s ((memRange buf n).1 + BitVec.ofNat 32 j)

theorem stores_nodup (buf : Nat → Byte) (addr : Word) (p : Nat) {js : List Nat} (hnd : js.Nodup)
    (hlt : ∀ j ∈ js, j < 2 ^ 32) : ((stores buf addr p js).map Prod.fst).Nodup := by
  rw [stores, List.map_map]
  apply List.Nodup.map_on _ hnd
  intro i hi j hj hij
  have heq := congrArg BitVec.toNat (BitVec.add_right_inj addr |>.mp hij)
  rwa [BitVec.toNat_ofNat, BitVec.toNat_ofNat, Nat.mod_eq_of_lt (hlt i hi),
    Nat.mod_eq_of_lt (hlt j hj)] at heq

theorem hexPair_length (b : Byte) : (hexPair b).length = 2 := rfl

/-- The digits of a byte in the reply to `m`. -/
theorem readMem_digits (s : State H) (buf : Nat → Byte) (n : Nat) {i : Nat}
    (hi : i < readLen buf n) :
    ((readMemPacket s buf n).drop (2 * i)).take 2 =
      hexPair (memReadByte s ((memRange buf n).1 + BitVec.ofNat 32 i)) := by
  unfold readMemPacket
  rw [flatMap_block (fun i => hexPair (memReadByte s ((memRange buf n).1 + BitVec.ofNat 32 i)))
    (fun _ => hexPair_length _) _ (by simpa), List.getElem_range]

/-- **`M`** stores the spelled bytes only, exactly when no half pair reaches a writable address. -/
theorem writeMem_spelled (s : State H) (buf : Nat → Byte) (n : Nat) :
    WritesSpelled s (writeMemPacket s buf n) buf n ↔ HalfPairsHarmless s buf n := by
  have hsplit : reached buf n = spelled buf n ++ _ := takeWhile_split _
    (fun j => decide (dataStart buf n + j * 2 + 1 < n ∧ IsPair buf (dataStart buf n) j))
    (fun j hj => (of_decide_eq_true hj).2.1) _
  have hmem : ∀ j, j ∈ reached buf n ↔ j < (memRange buf n).2.1.toNat ∧
      ∀ t ≤ j, isHex (buf (dataStart buf n + t * 2)) := fun j => mem_takeWhile_range _ _ j
  have hspelled : ∀ j, j ∈ spelled buf n ↔ j < (memRange buf n).2.1.toNat ∧
      ∀ t ≤ j, dataStart buf n + t * 2 + 1 < n ∧ IsPair buf (dataStart buf n) t := by
    intro j
    rw [spelled, mem_takeWhile_range]
    simp only [decide_eq_true_eq]
  have hnodup : (reached buf n).Nodup := List.nodup_range.sublist (List.takeWhile_sublist _)
  generalize List.takeWhile _ (List.dropWhile _ _) = rest at hsplit
  rw [hsplit] at hnodup
  have hrest : ∀ j ∈ rest, j ∈ reached buf n ∧ j ∉ spelled buf n := by
    intro j hj
    rw [hsplit]
    exact ⟨List.mem_append_right _ hj, fun h =>
      (List.nodup_append.mp hnodup).2.2 j h j hj rfl⟩
  have hlog : (writeMemPacket s buf n).2 = spelledStores s buf n ++
      (stores buf (memRange buf n).1 (dataStart buf n) rest).filter fun x => writable s x.1 := by
    rw [writeMemPacket_eq, hsplit, stores, List.map_append, List.filter_append]
    rfl
  have hharmless : HalfPairsHarmless s buf n ↔
      ∀ j ∈ rest, ¬ writable s ((memRange buf n).1 + BitVec.ofNat 32 j) := by
    constructor
    · intro h j hj
      obtain ⟨hin, hout⟩ := hrest j hj
      obtain ⟨hlen, hall⟩ := (hmem j).mp hin
      exact (h j hlen hall).resolve_left fun hp => hout ((hspelled j).mpr ⟨hlen, hp⟩)
    · intro h j hlen hall
      have hin := (hmem j).mpr ⟨hlen, hall⟩
      rw [hsplit, List.mem_append] at hin
      rcases hin with hin | hin
      · exact .inl ((hspelled j).mp hin).2
      · exact .inr (h j hin)
  have hnil : HalfPairsHarmless s buf n ↔
      (stores buf (memRange buf n).1 (dataStart buf n) rest).filter (fun x => writable s x.1) =
        [] := by
    rw [hharmless, List.filter_eq_nil_iff, stores]
    simp
  constructor
  · intro h
    have heq := h.log
    rw [hlog, List.append_right_eq_self] at heq
    exact hnil.mpr heq
  · intro h
    have heq := hlog
    rw [hnil.mp h, List.append_nil] at heq
    have hstate : (writeMemPacket s buf n).1 = pokes s (spelledStores s buf n) := by
      rw [← heq, writeMemPacket_eq]
      exact (pokes_filter s _).symm
    refine ⟨heq, hstate, ?_⟩
    intro j hj hw buf' n' i hi haddr
    rw [readMem_digits _ _ _ hi, haddr, hstate]
    have hin : ((memRange buf n).1 + BitVec.ofNat 32 j, pairByte buf (dataStart buf n) j) ∈
        spelledStores s buf n :=
      List.mem_filter.mpr ⟨List.mem_map_of_mem hj, hw⟩
    have hlt : ∀ k ∈ spelled buf n, k < 2 ^ 32 := fun k hk =>
      Nat.lt_trans ((hspelled k).mp hk).1 (memRange buf n).2.1.isLt
    have hread := memReadByte_stored (s := s) (spelledStores s buf n)
      (fun x hx => (List.mem_filter.mp hx).2)
      ((stores_nodup buf _ _ (List.nodup_append.mp hnodup).1 hlt).sublist
        (List.filter_sublist.map _)) hin
    rw [hread]
    have hpair := (((hspelled j).mp hj).2 j (Nat.le_refl j)).2
    exact hexPair_hexByte hpair.1 hpair.2

/-- **`G` and `M` write what they spell**, exactly when the registers that a `G` reaches without all
their digits agree, and no half pair of an `M` reaches a writable address. -/
theorem packets_write (s : State H) (buf : Nat → Byte) (n : Nat) :
    (SetsComplete s (writeRegsPacket s buf n) buf n ↔ RegsAgree s buf n) ∧
      (WritesSpelled s (writeMemPacket s buf n) buf n ↔ HalfPairsHarmless s buf n) :=
  ⟨writeRegs_complete s buf n, writeMem_spelled s buf n⟩

/-- A guest with all registers zero and a heap of 16 bytes. -/
def zeroGuest : State Unit where
  pc := 0#32
  inst := 0#32
  x := fun _ => 0#32
  readonly := ⟨1, 4#32, 0#32⟩
  writable := ⟨2, 16#32, RISCV_HALF⟩
  mem := fun _ _ => 0#8
  host := ()

/-- `G000000001234567`: a digit of x1 is missing. -/
def shortRegs (i : Nat) : Byte :=
  ([0x47#8, 0x30#8, 0x30#8, 0x30#8, 0x30#8, 0x30#8, 0x30#8, 0x30#8, 0x30#8,
    0x31#8, 0x32#8, 0x33#8, 0x34#8, 0x35#8, 0x36#8, 0x37#8] : List Byte).getD i 0#8

/-- `M80000000,1:1`: half a pair. -/
def halfPair (i : Nat) : Byte :=
  ([0x4d#8, 0x38#8, 0x30#8, 0x30#8, 0x30#8, 0x30#8, 0x30#8, 0x30#8, 0x30#8,
    0x2c#8, 0x31#8, 0x3a#8, 0x31#8] : List Byte).getD i 0#8

/-- The truncated `G` writes x1, and the truncated `M` its first byte. -/
theorem packets_write_truncated :
    ¬ SetsComplete zeroGuest (writeRegsPacket zeroGuest shortRegs 16) shortRegs 16 ∧
      ¬ WritesSpelled zeroGuest (writeMemPacket zeroGuest halfPair 13) halfPair 13 := by
  rw [writeRegs_complete, writeMem_spelled]
  constructor
  · intro h
    have h1 := h 1 (by decide) (by decide) (by decide) (by decide)
    revert h1
    decide
  · intro h
    have h0 := h 0 (by decide) (by decide)
    revert h0
    decide

end Purv.Gdb

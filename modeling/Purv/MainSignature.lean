import Purv.MainRun
import Purv.GdbPackets

/-!
# The signature of the reference host (`main.c`)

A conformance run ends with a dump of the guest words between two symbols.

* `dumpSignature` — the text of the file;
* `readSignature` — what the text stands for: a list of bytes a line;
* `dumpSignature_reads` — the dump ends and reads back as the guest's memory, the most significant
  byte of each word first.
-/

namespace Purv.Gdb

/-- The byte that the dump prints for an address: zero outside the heap. -/
def signatureByte (s : State MainHost) (addr : Word) : Byte :=
  if inHeap s addr 1 then s.byte (s.writable.ptr, (addr - s.writable.base).toNat) 0 else 0#8

/-- `fputc('\n', f)`. -/
def newline : Byte := 0x0a#8

/-- The bytes of a word, as they are printed: `for (b = gran; b-- > 0; )`. -/
def signatureWord (s : State MainHost) (gran : Nat) (a : Word) : List Byte :=
  (List.range gran).reverse.map fun b => signatureByte s (a + BitVec.ofNat 32 b)

/-- A line of the file. -/
def signatureLine (s : State MainHost) (gran : Nat) (a : Word) : List Byte :=
  (signatureWord s gran a).flatMap hexPair ++ [newline]

/-- The loop of `dump_signature`, for `fuel` tests of its condition at most. -/
def dumpFrom (s : State MainHost) (gran g_end_sig : Word) : Nat → Word → Option (List Byte)
  | 0, _ => none
  | fuel + 1, a =>
    if a < g_end_sig then
      (dumpFrom s gran g_end_sig fuel (a + gran)).map (signatureLine s gran.toNat a ++ ·)
    else some []

/-- `if (gran == 0) gran = 4`. -/
def granularity (gran : Word) : Word := if gran = 0#32 then 4#32 else gran

/-- `dump_signature`, of a file that can be written. -/
def dumpSignature (s : State MainHost) (gran g_begin_sig g_end_sig : Word) (fuel : Nat) :
    Option (List Byte) :=
  dumpFrom s (granularity gran) g_end_sig fuel g_begin_sig

/-- What a dump stands for: the bytes of each line. -/
def readSignature : List Byte → List (List Byte)
  | [] => []
  | c :: rest =>
    if c = newline then [] :: readSignature rest
    else
      match rest with
      | [] => []
      | d :: rest =>
        match readSignature rest with
        | [] => [[hexByte c d]]
        | w :: ws => (hexByte c d :: w) :: ws

/-- The words from `a` on. -/
def words (s : State MainHost) (gran : Word) (n : Nat) (a : Word) : List (List Byte) :=
  (List.range n).map fun j => signatureWord s gran.toNat (a + BitVec.ofNat 32 (j * gran.toNat))

/-! ## Reading back -/

theorem hexd_ne_newline (b : Byte) : hexd (b >>> 4) ≠ newline := by
  revert b
  decide

theorem readSignature_newline (rest : List Byte) :
    readSignature (newline :: rest) = [] :: readSignature rest := by
  cases rest <;> simp [readSignature]

theorem readSignature_pair (b : Byte) (rest : List Byte) {w : List Byte} {ws : List (List Byte)}
    (hrest : readSignature rest = w :: ws) :
    readSignature (hexPair b ++ rest) = (b :: w) :: ws := by
  show readSignature (hexd (b >>> 4) :: hexd (b &&& 0xf#8) :: rest) = _
  rw [readSignature, if_neg (hexd_ne_newline _)]
  simp only [hrest, hexByte_hexd]

/-- A line reads as its bytes. -/
theorem readSignature_line (bytes rest : List Byte) :
    readSignature (bytes.flatMap hexPair ++ newline :: rest) = bytes :: readSignature rest := by
  induction bytes with
  | nil =>
    exact readSignature_newline rest
  | cons b bytes ih =>
    rw [List.flatMap_cons, List.append_assoc]
    exact readSignature_pair b _ ih

/-! ## The loop -/

theorem words_succ (s : State MainHost) (gran : Word) (n : Nat) (a : Word) :
    words s gran (n + 1) a = signatureWord s gran.toNat a :: words s gran n (a + gran) := by
  unfold words
  rw [List.range_succ_eq_map, List.map_cons, List.map_map]
  congr 1
  · rw [Nat.zero_mul]
    exact congrArg _ (BitVec.add_zero a)
  · apply List.map_congr_left
    intro j _
    show signatureWord s gran.toNat (a + BitVec.ofNat 32 ((j + 1) * gran.toNat)) = _
    rw [Nat.succ_mul, Nat.add_comm, BitVec.ofNat_add, BitVec.ofNat_toNat, BitVec.setWidth_eq,
      BitVec.add_assoc]

/-- The loop prints a word a round, as long as the address does not wrap before the end. -/
theorem dumpFrom_reads (s : State MainHost) {gran g_end_sig : Word} (n : Nat) {fuel : Nat}
    {a : Word} (hfuel : n < fuel) (hbelow : ∀ j < n, a.toNat + j * gran.toNat < g_end_sig.toNat)
    (hend : g_end_sig.toNat ≤ a.toNat + n * gran.toNat)
    (hfits : a.toNat + n * gran.toNat < 2 ^ 32) :
    ∃ text, dumpFrom s gran g_end_sig fuel a = some text ∧
      readSignature text = words s gran n a := by
  induction n generalizing fuel a with
  | zero =>
    obtain ⟨fuel, rfl⟩ : ∃ m, fuel = m + 1 := ⟨fuel - 1, by omega⟩
    have hstop : ¬ a < g_end_sig := by
      rw [BitVec.lt_def]
      omega
    rw [dumpFrom, if_neg hstop]
    exact ⟨[], rfl, rfl⟩
  | succ n ih =>
    obtain ⟨fuel, rfl⟩ : ∃ m, fuel = m + 1 := ⟨fuel - 1, by omega⟩
    have hgo : a < g_end_sig := by
      have h0 := hbelow 0 (Nat.succ_pos n)
      rw [BitVec.lt_def]
      omega
    rw [Nat.succ_mul] at hend hfits
    have hnext : (a + gran).toNat = a.toNat + gran.toNat := by
      rw [BitVec.toNat_add]
      exact Nat.mod_eq_of_lt (by omega)
    have hrest : ∀ j < n, (a + gran).toNat + j * gran.toNat < g_end_sig.toNat := by
      intro j hj
      have h1 := hbelow (j + 1) (Nat.succ_lt_succ hj)
      rw [Nat.succ_mul] at h1
      omega
    obtain ⟨text, hdump, hread⟩ :=
      @ih fuel (a + gran) (by omega) hrest (by omega) (by omega)
    rw [dumpFrom, if_pos hgo, hdump]
    refine ⟨_, rfl, ?_⟩
    show readSignature (signatureLine s gran.toNat a ++ text) = _
    unfold signatureLine
    rw [List.append_assoc, words_succ, ← hread]
    exact readSignature_line _ _

/-- The words of a signature: the last may reach past its end. -/
def signatureLength (gran g_begin_sig g_end_sig : Word) : Nat :=
  (g_end_sig.toNat - g_begin_sig.toNat + (granularity gran).toNat - 1) / (granularity gran).toNat

theorem granularity_pos (gran : Word) : 0 < (granularity gran).toNat := by
  unfold granularity
  split
  · decide
  · rename_i h
    by_contra hz
    exact h (BitVec.eq_of_toNat_eq (by rw [BitVec.toNat_zero]; omega))

/-- **The signature of a run**: unless the end symbol is within a word of the top of the address
space, the dump ends, and reads back as the guest's memory from `begin_signature` to
`end_signature`, a word a line, the most significant byte first, and zero outside the heap. -/
theorem dumpSignature_reads (s : State MainHost) (gran g_begin_sig g_end_sig : Word)
    (htop : g_end_sig.toNat + (granularity gran).toNat ≤ 2 ^ 32) :
    ∃ text, dumpSignature s gran g_begin_sig g_end_sig
        (signatureLength gran g_begin_sig g_end_sig + 1) = some text ∧
      readSignature text =
        words s (granularity gran) (signatureLength gran g_begin_sig g_end_sig) g_begin_sig := by
  have hpos := granularity_pos gran
  unfold dumpSignature signatureLength
  generalize granularity gran = g at hpos htop
  have hdiv := Nat.div_add_mod (g_end_sig.toNat - g_begin_sig.toNat + g.toNat - 1) g.toNat
  have hmod := Nat.mod_lt (g_end_sig.toNat - g_begin_sig.toNat + g.toNat - 1) hpos
  have hnone : g_end_sig.toNat ≤ g_begin_sig.toNat →
      (g_end_sig.toNat - g_begin_sig.toNat + g.toNat - 1) / g.toNat = 0 :=
    fun h => Nat.div_eq_of_lt (by omega)
  generalize (g_end_sig.toNat - g_begin_sig.toNat + g.toNat - 1) / g.toNat = n at hdiv hnone
  rw [Nat.mul_comm] at hdiv
  apply dumpFrom_reads s n (Nat.lt_succ_self n)
  · intro j hj
    have hle : (j + 1) * g.toNat ≤ n * g.toNat := Nat.mul_le_mul_right _ hj
    rw [Nat.succ_mul] at hle
    omega
  · omega
  · rcases Nat.le_total g_end_sig.toNat g_begin_sig.toNat with hle | hle
    · rw [hnone hle, Nat.zero_mul]
      exact g_begin_sig.isLt
    · omega

/-- A heap of 16 bytes, that count from 1 on. -/
def counted : State MainHost :=
  { ebreakRun.s with
    writable := ⟨2, 16#32, RISCV_HALF⟩
    mem := fun _ o => BitVec.ofNat 8 (o + 1)
    host := { ebreakRun.s.host with g_heap_size := 16#32 } }

/-- Its first two words, the second cut short by the end symbol. -/
theorem dumpSignature_reads_two :
    ∃ text, dumpSignature counted 0#32 0x80000000#32 0x80000006#32 3 = some text ∧
      readSignature text = [[4#8, 3#8, 2#8, 1#8], [8#8, 7#8, 6#8, 5#8]] := by
  obtain ⟨text, hdump, hread⟩ :=
    dumpSignature_reads counted 0#32 0x80000000#32 0x80000006#32 (by decide)
  exact ⟨text, hdump, hread.trans (by decide)⟩

end Purv.Gdb

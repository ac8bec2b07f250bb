import Purv.State
import Purv.Lib.Checks

/-!
# The ELF loader and the symbol lookup of the hosts (`purvhost.h`)

An access outside a buffer is an outcome of its own, `fault`: what such a run does is undefined.

* `purvhostLoadElf`, `purvhostSym` — the loader and the lookup;
* `Placed`, `Loads` — the image that the program headers ask for, and a load that leaves it;
* `WellFormed`, `SymbolsInside` — what the file must say for the two to be right;
* `elf_loads` — the loader and the lookup are right exactly on such files.
-/

namespace Purv.Purvhost

open Checks

/-! ## The file -/

/-- The file in its buffer: `elf` and `elf_len`. -/
structure File where
  byte : Nat → Byte
  len : Nat

/-- A little-endian halfword of the file. -/
def File.u16 (f : File) (o : Nat) : Half := f.byte (o + 1) ++ f.byte o

/-- A little-endian word of the file. -/
def File.u32 (f : File) (o : Nat) : Word :=
  f.byte (o + 3) ++ f.byte (o + 2) ++ f.byte (o + 1) ++ f.byte o

/-- `PurvElf32_Ehdr`: the fields that are read. -/
structure Ehdr where
  e_class : Byte
  e_machine : Half
  e_entry : Word
  e_phoff : Word
  e_shoff : Word
  e_phentsize : Half
  e_phnum : Half
  e_shentsize : Half
  e_shnum : Half

def File.ehdr (f : File) : Ehdr where
  e_class := f.byte 4
  e_machine := f.u16 18
  e_entry := f.u32 24
  e_phoff := f.u32 28
  e_shoff := f.u32 32
  e_phentsize := f.u16 42
  e_phnum := f.u16 44
  e_shentsize := f.u16 46
  e_shnum := f.u16 48

/-- `PurvElf32_Phdr`: the fields that are read. -/
structure Phdr where
  p_type : Word
  p_offset : Word
  p_vaddr : Word
  p_filesz : Word
  p_memsz : Word

/-- Where program header `i` is. -/
def File.phdrAt (f : File) (i : Nat) : Nat :=
  f.ehdr.e_phoff.toNat + i * f.ehdr.e_phentsize.toNat

def File.phdr (f : File) (i : Nat) : Phdr where
  p_type := f.u32 (f.phdrAt i)
  p_offset := f.u32 (f.phdrAt i + 4)
  p_vaddr := f.u32 (f.phdrAt i + 8)
  p_filesz := f.u32 (f.phdrAt i + 16)
  p_memsz := f.u32 (f.phdrAt i + 20)

/-- `PurvElf32_Shdr`: the fields that are read. -/
structure Shdr where
  sh_type : Word
  sh_offset : Word
  sh_size : Word
  sh_link : Word
  sh_entsize : Word

/-- Where section header `i` is. -/
def File.shdrAt (f : File) (i : Nat) : Nat :=
  f.ehdr.e_shoff.toNat + i * f.ehdr.e_shentsize.toNat

def File.shdr (f : File) (i : Nat) : Shdr where
  sh_type := f.u32 (f.shdrAt i + 4)
  sh_offset := f.u32 (f.shdrAt i + 16)
  sh_size := f.u32 (f.shdrAt i + 20)
  sh_link := f.u32 (f.shdrAt i + 24)
  sh_entsize := f.u32 (f.shdrAt i + 36)

/-! ## The loader -/

/-- The buffers of `PurvHost`, `code` (false) and `heap` (true), and what loading finds. -/
structure PurvHost where
  half : Bool → Nat → Byte
  len : Bool → Word
  entry : Word
  data_end : Word

/-- `purvhost_alloc`. -/
def purvhostAlloc (code_len heap_len : Word) : PurvHost where
  half := fun _ _ => 0#8
  len := fun upper => if upper then heap_len else code_len
  entry := 0#32
  data_end := RISCV_HALF

/-- How a load ends early: an access outside a buffer, or a fatal exit. -/
inductive Stop where
  | fault
  | exit
  deriving DecidableEq

/-- A segment goes to the heap. -/
def Phdr.upper (ph : Phdr) : Bool := ¬ ph.p_vaddr < RISCV_HALF

/-- `ph.p_vaddr - base`. -/
def Phdr.place (ph : Phdr) : Nat :=
  (ph.p_vaddr - if ph.upper then RISCV_HALF else 0#32).toNat

/-- `p_vaddr + p_memsz`, in 64 bits. -/
def Phdr.top (ph : Phdr) : Nat := ph.p_vaddr.toNat + ph.p_memsz.toNat

/-- `p_type == PT_LOAD && p_memsz != 0`. -/
def Phdr.Loaded (ph : Phdr) : Prop := ph.p_type = 1#32 ∧ ph.p_memsz ≠ 0#32

instance (ph : Phdr) : Decidable ph.Loaded := inferInstanceAs (Decidable (_ ∧ _))

/-- The end of the half of a segment. -/
def Phdr.limit (ph : Phdr) (len : Bool → Word) : Nat :=
  if ph.upper then RISCV_HALF.toNat + (len true).toNat else (len false).toNat

/-- The segment's `memcpy`. -/
def copySegment (f : File) (ph : Phdr) (h : PurvHost) : Except Stop PurvHost :=
  if ph.p_filesz = 0#32 then .ok h
  else if ph.p_offset.toNat + ph.p_filesz.toNat > f.len ∨
      ph.place + ph.p_filesz.toNat > (h.len ph.upper).toNat then .error .fault
  else .ok { h with
    half := fun upper a =>
      if upper = ph.upper ∧ ph.place ≤ a ∧ a < ph.place + ph.p_filesz.toNat then
        f.byte (ph.p_offset.toNat + (a - ph.place))
      else h.half upper a }

/-- The body of the loop over the program headers. -/
def loadSegment (f : File) (h : PurvHost) (i : Nat) : Except Stop PurvHost :=
  if f.phdrAt i + 32 > f.len then .error .fault
  else
    let ph := f.phdr i
    if ¬ ph.Loaded then .ok h
    else if ph.top > ph.limit h.len then .error .exit
    else
      let data_end := ph.p_vaddr + ph.p_memsz
      copySegment f ph
        (if ph.upper ∧ data_end > h.data_end then { h with data_end := data_end } else h)

/-- The file is an ELF for a 32-bit RISC-V. -/
def File.IsElf (f : File) : Prop :=
  52 ≤ f.len ∧ f.byte 0 = 0x7f#8 ∧ f.byte 1 = 0x45#8 ∧ f.byte 2 = 0x4c#8 ∧ f.byte 3 = 0x46#8 ∧
    f.ehdr.e_class = 1#8 ∧ f.ehdr.e_machine = 243#16

instance (f : File) : Decidable f.IsElf := inferInstanceAs (Decidable (_ ∧ _))

/-- `purvhost_load_elf`. -/
def purvhostLoadElf (f : File) (h : PurvHost) : Except Stop PurvHost :=
  if ¬ f.IsElf then .error .exit
  else ((List.range f.ehdr.e_phnum.toNat).foldlM (loadSegment f) h).map fun h =>
    { h with entry := f.ehdr.e_entry }

/-! ## The image -/

/-- The file bytes of a segment. -/
def Phdr.InFile (ph : Phdr) (upper : Bool) (a : Nat) : Prop :=
  ph.Loaded ∧ upper = ph.upper ∧ ph.place ≤ a ∧ a < ph.place + ph.p_filesz.toNat

instance (ph : Phdr) (upper : Bool) (a : Nat) : Decidable (ph.InFile upper a) :=
  inferInstanceAs (Decidable (_ ∧ _))

/-- The zero fill of a segment. -/
def Phdr.InFill (ph : Phdr) (upper : Bool) (a : Nat) : Prop :=
  ph.Loaded ∧ upper = ph.upper ∧ ph.place + ph.p_filesz.toNat ≤ a ∧
    a < ph.place + ph.p_memsz.toNat

instance (ph : Phdr) (upper : Bool) (a : Nat) : Decidable (ph.InFill upper a) :=
  inferInstanceAs (Decidable (_ ∧ _))

/-- The byte of a segment at `a`. -/
def File.segmentByte (f : File) (i a : Nat) : Byte :=
  f.byte ((f.phdr i).p_offset.toNat + (a - (f.phdr i).place))

/-- The halves after the first `n` segments: each with its file bytes and its zero fill. -/
def File.image (f : File) : Nat → Bool → Nat → Byte
  | 0, _, _ => 0#8
  | n + 1, upper, a =>
    if (f.phdr n).InFile upper a then f.segmentByte n a
    else if (f.phdr n).InFill upper a then 0#8
    else f.image n upper a

/-- The highest end of an upper segment among the first `n`. -/
def File.dataEnd (f : File) : Nat → Nat
  | 0 => RISCV_HALF.toNat
  | n + 1 =>
    if (f.phdr n).Loaded ∧ (f.phdr n).upper then max (f.dataEnd n) (f.phdr n).top else f.dataEnd n

/-- The host holds the image of the file. -/
structure Placed (f : File) (h : PurvHost) : Prop where
  half : ∀ upper a, h.half upper a = f.image f.ehdr.e_phnum.toNat upper a
  data_end : h.data_end.toNat = f.dataEnd f.ehdr.e_phnum.toNat
  entry : h.entry = f.ehdr.e_entry

/-- **A load as it should be**: a fatal exit, or accesses inside the buffers and the image. -/
def Loads (f : File) (h : PurvHost) : Prop :=
  match purvhostLoadElf f h with
  | .error .exit => True
  | .error .fault => False
  | .ok h' => Placed f h'

/-! ## Well-formed files -/

/-- The segment fits its half, or is none. -/
def File.Fits (f : File) (len : Bool → Word) (i : Nat) : Prop :=
  (f.phdr i).Loaded → (f.phdr i).top ≤ (f.phdr i).limit len

/-- The header is in the file, and the bytes of a segment that fits its half are in the file and in
the half. -/
def File.Inside (f : File) (len : Bool → Word) (i : Nat) : Prop :=
  f.phdrAt i + 32 ≤ f.len ∧
    ((f.phdr i).Loaded → f.Fits len i → (f.phdr i).p_filesz ≠ 0#32 →
      (f.phdr i).p_offset.toNat + (f.phdr i).p_filesz.toNat ≤ f.len ∧
        (f.phdr i).place + (f.phdr i).p_filesz.toNat ≤ (len (f.phdr i).upper).toNat)

/-- Segment `k` is the last of the first `n` with file bytes at `a`. -/
def File.LastAt (f : File) (n : Nat) (upper : Bool) (a k : Nat) : Prop :=
  k < n ∧ (f.phdr k).InFile upper a ∧ ∀ j < n, k < j → ¬ (f.phdr j).InFile upper a

/-- The byte that the segments leave at `a` is under the zero fill of no later one, or is zero. -/
def File.FillsZero (f : File) (n : Nat) (upper : Bool) (a : Nat) : Prop :=
  ∀ k, f.LastAt n upper a k →
    f.segmentByte k a = 0#8 ∨ ∀ m < n, k < m → ¬ (f.phdr m).InFill upper a

/-- The upper segments end within the address space. -/
def File.EndsFit (f : File) (n : Nat) : Prop :=
  ∀ i < n, (f.phdr i).Loaded → (f.phdr i).upper → (f.phdr i).top < 2 ^ 32

/-- What an ELF must say to be loaded right: up to the first segment that does not fit its half
everything is inside its buffer, and if there is none, zero fill covers zeros only and the ends of
the segments do not wrap. -/
structure File.WellFormed (f : File) (len : Bool → Word) : Prop where
  inside : ∀ i < f.ehdr.e_phnum.toNat, (∀ j < i, f.Fits len j) → f.Inside len i
  image : (∀ i < f.ehdr.e_phnum.toNat, f.Fits len i) →
    (∀ upper a, f.FillsZero f.ehdr.e_phnum.toNat upper a) ∧ f.EndsFit f.ehdr.e_phnum.toNat

/-! ## The loop over the segments -/

/-- The checks of a segment. -/
def File.check (f : File) (len : Bool → Word) (i : Nat) : Except Stop Unit :=
  if f.phdrAt i + 32 > f.len then .error .fault
  else if ¬ (f.phdr i).Loaded then .ok ()
  else if (f.phdr i).top > (f.phdr i).limit len then .error .exit
  else if (f.phdr i).p_filesz = 0#32 then .ok ()
  else if (f.phdr i).p_offset.toNat + (f.phdr i).p_filesz.toNat > f.len ∨
      (f.phdr i).place + (f.phdr i).p_filesz.toNat > (len (f.phdr i).upper).toNat then .error .fault
  else .ok ()

/-- What a segment does to the host. -/
def File.update (f : File) (h : PurvHost) (i : Nat) : PurvHost where
  half := fun upper a =>
    if (f.phdr i).InFile upper a then f.segmentByte i a else h.half upper a
  len := h.len
  entry := h.entry
  data_end :=
    if (f.phdr i).Loaded ∧ (f.phdr i).upper ∧
        (f.phdr i).p_vaddr + (f.phdr i).p_memsz > h.data_end then
      (f.phdr i).p_vaddr + (f.phdr i).p_memsz
    else h.data_end

/-- The host with the end of a segment taken in. -/
theorem update_loaded {f : File} {i : Nat} (hl : (f.phdr i).Loaded) (h : PurvHost) :
    f.update h i =
      { (if (f.phdr i).upper ∧ (f.phdr i).p_vaddr + (f.phdr i).p_memsz > h.data_end then
          { h with data_end := (f.phdr i).p_vaddr + (f.phdr i).p_memsz } else h) with
        half := fun upper a =>
          if upper = (f.phdr i).upper ∧ (f.phdr i).place ≤ a ∧
              a < (f.phdr i).place + (f.phdr i).p_filesz.toNat then f.segmentByte i a
          else h.half upper a } := by
  unfold File.update Phdr.InFile
  simp only [hl, true_and]
  split <;> rfl

theorem update_skipped {f : File} {i : Nat} (hl : ¬ (f.phdr i).Loaded) (h : PurvHost) :
    f.update h i = h := by
  unfold File.update Phdr.InFile
  simp only [hl, false_and, if_false]

theorem loadSegment_eq (f : File) (h : PurvHost) (i : Nat) :
    loadSegment f h i = (f.check h.len i).map fun _ => f.update h i := by
  unfold loadSegment File.check
  by_cases ho : f.phdrAt i + 32 > f.len
  · rw [if_pos ho, if_pos ho]
    rfl
  rw [if_neg ho, if_neg ho]
  simp only
  by_cases hl : (f.phdr i).Loaded
  · rw [if_neg (not_not.mpr hl), if_neg (not_not.mpr hl)]
    by_cases ht : (f.phdr i).top > (f.phdr i).limit h.len
    · rw [if_pos ht, if_pos ht]
      rfl
    rw [if_neg ht, if_neg ht, update_loaded hl]
    generalize hh : (if (f.phdr i).upper ∧ (f.phdr i).p_vaddr + (f.phdr i).p_memsz > h.data_end then
      { h with data_end := (f.phdr i).p_vaddr + (f.phdr i).p_memsz } else h) = h'
    have hkeep : h'.len = h.len ∧ h'.half = h.half := by
      rw [← hh]
      split <;> exact ⟨rfl, rfl⟩
    unfold copySegment
    rw [hkeep.1]
    by_cases h0 : (f.phdr i).p_filesz = 0#32
    · rw [if_pos h0, if_pos h0]
      have hnone : ∀ upper a, ¬ (upper = (f.phdr i).upper ∧ (f.phdr i).place ≤ a ∧
          a < (f.phdr i).place + (f.phdr i).p_filesz.toNat) := by
        rintro upper a ⟨_, hle, hlt⟩
        rw [h0, BitVec.toNat_zero] at hlt
        omega
      simp only [hnone, if_false, ← hkeep.2]
      rfl
    · rw [if_neg h0, if_neg h0]
      split
      · rfl
      · rw [hkeep.2]
        simp only [Except.map, hkeep.1]
        rfl
  · rw [if_pos hl, if_pos hl, update_skipped hl]
    rfl

theorem check_fault (f : File) (len : Bool → Word) (i : Nat) :
    f.check len i = .error .fault ↔ ¬ f.Inside len i := by
  unfold File.check File.Inside File.Fits
  split
  · rename_i ho
    exact iff_of_true rfl fun h => Nat.not_lt.mpr h.1 ho
  rename_i ho
  split
  · rename_i hl
    refine iff_of_false (by simp) (not_not.mpr ⟨Nat.not_lt.mp ho, fun h => absurd h hl⟩)
  rename_i hl
  split
  · rename_i ht
    refine iff_of_false (by simp) (not_not.mpr ⟨Nat.not_lt.mp ho, fun h hf => ?_⟩)
    exact absurd (hf h) (Nat.not_le.mpr ht)
  rename_i ht
  split
  · rename_i h0
    refine iff_of_false (by simp) (not_not.mpr ⟨Nat.not_lt.mp ho, fun _ _ h => absurd h0 h⟩)
  rename_i h0
  split
  · rename_i hout
    refine iff_of_true rfl fun h => ?_
    have hin := h.2 (not_not.mp hl) (fun _ => Nat.not_lt.mp ht) h0
    omega
  · rename_i hin
    refine iff_of_false (by simp) (not_not.mpr ⟨Nat.not_lt.mp ho, fun _ _ _ => ?_⟩)
    omega

theorem check_ok (f : File) (len : Bool → Word) (i : Nat) :
    f.check len i = .ok () ↔ f.Inside len i ∧ ¬ ¬ f.Fits len i := by
  have hexit : f.check len i = .error .exit → ¬ f.Fits len i := by
    unfold File.check File.Fits
    intro h hf
    split at h
    · cases h
    split at h
    · cases h
    rename_i hl
    split at h
    · rename_i ht
      exact absurd (hf (not_not.mp hl)) (Nat.not_le.mpr ht)
    split at h
    · cases h
    split at h <;> cases h
  have hfits : f.check len i = .ok () → f.Fits len i := by
    unfold File.check File.Fits
    intro h hl
    split at h
    · cases h
    split at h
    · cases h
    rename_i ht
    exact Nat.not_lt.mp ht
  have hfault := check_fault f len i
  cases hc : f.check len i with
  | ok u =>
    rw [hc] at hfault
    refine iff_of_true rfl ⟨?_, not_not.mpr (hfits hc)⟩
    by_contra hns
    cases hfault.mpr hns
  | error e =>
    refine iff_of_false (by simp) ?_
    rintro ⟨hin, hf⟩
    cases e with
    | fault => exact hfault.mp hc hin
    | exit => exact hf (hexit hc)

/-- The host after the first `n` segments. -/
def File.after (f : File) (h : PurvHost) (n : Nat) : PurvHost := (List.range n).foldl f.update h

theorem after_succ (f : File) (h : PurvHost) (n : Nat) :
    f.after h (n + 1) = f.update (f.after h n) n := by
  rw [File.after, List.range_succ, List.foldl_append]
  rfl

section
variable {f : File} {n : Nat} {upper : Bool} {a : Nat}

theorem lastAt_zero {k : Nat} : ¬ f.LastAt 0 upper a k := fun h => Nat.not_lt_zero k h.1

/-- A segment over `a` is the last. -/
theorem lastAt_in (hn : (f.phdr n).InFile upper a) (k : Nat) :
    f.LastAt (n + 1) upper a k ↔ k = n := by
  constructor
  · rintro ⟨hk, _, hlast⟩
    rcases Nat.lt_or_eq_of_le (Nat.le_of_lt_succ hk) with hk | rfl
    · exact absurd hn (hlast n (Nat.lt_succ_self n) hk)
    · rfl
  · rintro rfl
    exact ⟨Nat.lt_succ_self k, hn, fun j hj hkj => absurd hj (Nat.not_lt.mpr hkj)⟩

/-- A segment beside `a` leaves the last. -/
theorem lastAt_out (hn : ¬ (f.phdr n).InFile upper a) (k : Nat) :
    f.LastAt (n + 1) upper a k ↔ f.LastAt n upper a k := by
  constructor
  · rintro ⟨hk, hin, hlast⟩
    rcases Nat.lt_or_eq_of_le (Nat.le_of_lt_succ hk) with hk | rfl
    · exact ⟨hk, hin, fun j hj => hlast j (Nat.lt_succ_of_lt hj)⟩
    · exact absurd hin hn
  · rintro ⟨hk, hin, hlast⟩
    refine ⟨Nat.lt_succ_of_lt hk, hin, ?_⟩
    intro j hj hkj
    rcases Nat.lt_or_eq_of_le (Nat.le_of_lt_succ hj) with hj | rfl
    · exact hlast j hj hkj
    · exact hn

/-- A byte is zero, or that of the last segment over it. -/
theorem after_half (code_len heap_len : Word) :
    (f.after (purvhostAlloc code_len heap_len) n).half upper a = 0#8 ↔
      ∀ k, f.LastAt n upper a k → f.segmentByte k a = 0#8 := by
  induction n with
  | zero => exact iff_of_true rfl fun k hk => absurd hk lastAt_zero
  | succ n ih =>
    rw [after_succ, File.update]
    simp only
    by_cases hn : (f.phdr n).InFile upper a
    · simp only [if_pos hn, lastAt_in hn, forall_eq]
    · simp only [if_neg hn, lastAt_out hn, ih]

/-- **The bytes** are those of the image where zero fill covers zeros. -/
theorem after_image (code_len heap_len : Word) :
    (f.after (purvhostAlloc code_len heap_len) n).half upper a = f.image n upper a ↔
      f.FillsZero n upper a := by
  induction n with
  | zero => exact iff_of_true rfl fun k hk => absurd hk lastAt_zero
  | succ n ih =>
    unfold File.FillsZero at *
    rw [after_succ, File.update, File.image]
    simp only
    by_cases hn : (f.phdr n).InFile upper a
    · simp only [if_pos hn, lastAt_in hn, forall_eq, true_iff]
      exact .inr fun m hm hnm => absurd hm (Nat.not_lt.mpr hnm)
    rw [if_neg hn, if_neg hn]
    simp only [lastAt_out hn, Nat.forall_lt_succ_right]
    by_cases hz : (f.phdr n).InFill upper a
    · -- the fill covers what the last segment left
      rw [if_pos hz, after_half]
      apply forall_congr'
      intro k
      apply imp_congr_right
      intro hk
      exact (or_iff_left fun h => h.2 hk.1 hz).symm
    · rw [if_neg hz, ih]
      simp only [hz, not_false_iff, implies_true, and_true]

end

theorem endsFit_succ {f : File} {n : Nat} : f.EndsFit (n + 1) ↔
    f.EndsFit n ∧ ((f.phdr n).Loaded → (f.phdr n).upper → (f.phdr n).top < 2 ^ 32) :=
  Nat.forall_lt_succ_right

/-- **The end of the data** is the highest end exactly when no end wraps. -/
theorem after_dataEnd (f : File) (code_len heap_len : Word) (n : Nat) :
    (f.after (purvhostAlloc code_len heap_len) n).data_end.toNat = f.dataEnd n ↔ f.EndsFit n := by
  have hfit : f.EndsFit n →
      (f.after (purvhostAlloc code_len heap_len) n).data_end.toNat = f.dataEnd n := by
    induction n with
    | zero => exact fun _ => rfl
    | succ n ih =>
      intro h
      rw [endsFit_succ] at h
      have hn := ih h.1
      rw [after_succ, File.update, File.dataEnd]
      simp only
      by_cases hup : (f.phdr n).Loaded ∧ (f.phdr n).upper
      · have htop := h.2 hup.1 hup.2
        have hadd : ((f.phdr n).p_vaddr + (f.phdr n).p_memsz).toNat = (f.phdr n).top := by
          rw [BitVec.toNat_add]
          exact Nat.mod_eq_of_lt htop
        rw [if_pos hup, ← hn]
        by_cases hgt : (f.phdr n).p_vaddr + (f.phdr n).p_memsz >
            (f.after (purvhostAlloc code_len heap_len) n).data_end
        · rw [if_pos ⟨hup.1, hup.2, hgt⟩, hadd]
          rw [gt_iff_lt, BitVec.lt_def, hadd] at hgt
          omega
        · rw [if_neg fun h => hgt h.2.2]
          rw [gt_iff_lt, BitVec.lt_def, hadd] at hgt
          omega
      · rw [if_neg hup, if_neg fun h => hup ⟨h.1, h.2.1⟩, hn]
  refine ⟨?_, hfit⟩
  intro heq i hi hl hu
  by_contra hge
  have hle : (f.phdr i).top ≤ f.dataEnd n := by
    clear heq hfit
    induction n with
    | zero => exact absurd hi (Nat.not_lt_zero i)
    | succ n ih =>
      rw [File.dataEnd]
      rcases Nat.lt_or_eq_of_le (Nat.le_of_lt_succ hi) with hi | rfl
      · have := ih hi
        split <;> omega
      · rw [if_pos ⟨hl, hu⟩]
        omega
  have := (f.after (purvhostAlloc code_len heap_len) n).data_end.isLt
  omega

/-- The loop checks the segments, and then has updated the host. -/
theorem loadSegments_eq (f : File) (h : PurvHost) (n : Nat) :
    (List.range n).foldlM (loadSegment f) h = (scan (f.check h.len) n).map fun _ => f.after h n := by
  have hkeep : ∀ (h' : PurvHost) (i : Nat), h'.len = h.len → (f.update h' i).len = h.len :=
    fun _ _ hlen => hlen
  exact foldlM_scan hkeep (fun h' i hlen => by rw [loadSegment_eq, hlen]) n rfl

/-- **The loader** is right exactly on the files that are well formed. -/
theorem loads_iff (f : File) (code_len heap_len : Word) (hf : f.IsElf) :
    Loads f (purvhostAlloc code_len heap_len) ↔
      f.WellFormed (purvhostAlloc code_len heap_len).len := by
  have hne := scan_ne_iff (n := f.ehdr.e_phnum.toNat)
    (check_fault f (purvhostAlloc code_len heap_len).len) (check_ok f _)
  have hok := scan_ok_iff (n := f.ehdr.e_phnum.toNat)
    (check_ok f (purvhostAlloc code_len heap_len).len)
  simp only [not_not] at hne hok
  unfold Loads purvhostLoadElf
  rw [if_neg (not_not.mpr hf), loadSegments_eq]
  cases hs : scan (f.check (purvhostAlloc code_len heap_len).len) f.ehdr.e_phnum.toNat with
  | error e =>
    cases e with
    | fault =>
      refine iff_of_false (fun h => h) fun hw => ?_
      exact hne.mpr hw.inside hs
    | exit =>
      refine iff_of_true trivial ⟨hne.mp (by rw [hs]; simp), ?_⟩
      intro hall
      rw [hs] at hne hok
      have := hok.mpr ⟨hne.mp (by simp), hall⟩
      cases this
  | ok u =>
    have hall := hok.mp hs
    constructor
    · intro h
      refine ⟨hall.1, fun _ => ⟨?_, ?_⟩⟩
      · intro upper a
        exact (after_image code_len heap_len).mp (h.half upper a)
      · exact (after_dataEnd f code_len heap_len _).mp h.data_end
    · intro hw
      obtain ⟨hfill, hends⟩ := hw.image hall.2
      refine ⟨?_, (after_dataEnd f code_len heap_len _).mpr hends, rfl⟩
      intro upper a
      exact (after_image code_len heap_len).mpr (hfill upper a)

/-! ## The symbol lookup -/

/-- The bytes of a C string before its `NUL`. -/
structure CString where
  chars : List Byte
  noNul : 0#8 ∉ chars

/-- How a lookup ends early: an access outside the file, or a symbol. -/
inductive Lookup where
  | fault
  | found (v : Word)
  deriving DecidableEq

/-- `strcmp(strs + st_name, name) == 0`, from a byte of the file on. -/
def strcmpFrom (f : File) : Nat → List Byte → Except Lookup Bool
  | o, [] => if o ≥ f.len then .error .fault else .ok (f.byte o = 0#8)
  | o, c :: cs =>
    if o ≥ f.len then .error .fault
    else if f.byte o = c then strcmpFrom f (o + 1) cs
    else .ok false

/-- Where symbol `t` of a table is. -/
def File.symAt (f : File) (i t : Nat) : Nat :=
  (f.shdr i).sh_offset.toNat + t * (f.shdr i).sh_entsize.toNat

/-- Where the name of symbol `t` is. -/
def File.nameAt (f : File) (i t : Nat) : Nat :=
  (f.shdr (f.shdr i).sh_link.toNat).sh_offset.toNat + (f.u32 (f.symAt i t)).toNat

/-- The body of the loop over the symbols. -/
def symbol (f : File) (name : List Byte) (i t : Nat) : Except Lookup Unit :=
  if f.symAt i t + 16 > f.len then .error .fault
  else if f.u32 (f.symAt i t) = 0#32 then .ok ()
  else match strcmpFrom f (f.nameAt i t) name with
    | .error e => .error e
    | .ok true => .error (.found (f.u32 (f.symAt i t + 4)))
    | .ok false => .ok ()

/-- `sh_type == SHT_SYMTAB && sh_entsize != 0`. -/
def Shdr.IsSymtab (sh : Shdr) : Prop := sh.sh_type = 2#32 ∧ sh.sh_entsize ≠ 0#32

instance (sh : Shdr) : Decidable sh.IsSymtab := inferInstanceAs (Decidable (_ ∧ _))

/-- `sh_size / sh_entsize`. -/
def Shdr.count (sh : Shdr) : Nat := (sh.sh_size / sh.sh_entsize).toNat

/-- The body of the loop over the sections. -/
def symbolTable (f : File) (name : List Byte) (i : Nat) : Except Lookup Unit :=
  if f.shdrAt i + 40 > f.len then .error .fault
  else if ¬ (f.shdr i).IsSymtab then .ok ()
  else if f.shdrAt (f.shdr i).sh_link.toNat + 40 > f.len then .error .fault
  else scan (symbol f name i) (f.shdr i).count

/-- `purvhost_sym`: `none` when it returns 0. -/
def purvhostSym (f : File) (name : CString) : Except Lookup (Option Word) :=
  if 52 > f.len then .error .fault
  else match scan (symbolTable f name.chars) f.ehdr.e_shnum.toNat with
    | .error .fault => .error .fault
    | .error (.found v) => .ok (some v)
    | .ok () => .ok none

/-- The string at `o` is the name. -/
def File.Spells (f : File) (o : Nat) (name : List Byte) : Prop :=
  (∀ k < name.length, f.byte (o + k) = name.getD k 0#8) ∧ f.byte (o + name.length) = 0#8

/-- The string at `o` is in the file up to where it differs from the name. -/
def File.StringInside (f : File) (o : Nat) (name : List Byte) : Prop :=
  ∀ k ≤ name.length, (∀ j < k, f.byte (o + j) = name.getD j 0#8) → o + k < f.len

/-- Symbol `t` of section `i` has the name. -/
def File.Named (f : File) (name : List Byte) (i t : Nat) : Prop :=
  f.u32 (f.symAt i t) ≠ 0#32 ∧ f.Spells (f.nameAt i t) name

/-- Symbol `t` and its name are in the file. -/
def File.SymbolInside (f : File) (name : List Byte) (i t : Nat) : Prop :=
  f.symAt i t + 16 ≤ f.len ∧
    (f.u32 (f.symAt i t) ≠ 0#32 → f.StringInside (f.nameAt i t) name)

/-- Section `i` is a symbol table with the name. -/
def File.HasName (f : File) (name : List Byte) (i : Nat) : Prop :=
  (f.shdr i).IsSymtab ∧ ∃ t < (f.shdr i).count, f.Named name i t

/-- Section `i` is in the file, and so are its strings and its symbols up to the name. -/
def File.SectionInside (f : File) (name : List Byte) (i : Nat) : Prop :=
  f.shdrAt i + 40 ≤ f.len ∧ ((f.shdr i).IsSymtab →
    f.shdrAt (f.shdr i).sh_link.toNat + 40 ≤ f.len ∧
      ∀ t < (f.shdr i).count, (∀ u < t, ¬ f.Named name i u) → f.SymbolInside name i t)

/-- The header is in the file, and so are the sections up to the first with the name. -/
def File.SymbolsInside (f : File) (name : List Byte) : Prop :=
  52 ≤ f.len ∧
    ∀ i < f.ehdr.e_shnum.toNat, (∀ j < i, ¬ f.HasName name j) → f.SectionInside name i

/-- **A lookup as it should be**: it reads only the file, and what it finds is the value of a symbol
of that name. -/
def LooksUp (f : File) (name : CString) : Prop :=
  match purvhostSym f name with
  | .error _ => False
  | .ok none => True
  | .ok (some v) => ∃ i < f.ehdr.e_shnum.toNat, (f.shdr i).IsSymtab ∧
      ∃ t < (f.shdr i).count, f.Named name.chars i t ∧ v = f.u32 (f.symAt i t + 4)

theorem spells_cons {f : File} {o : Nat} {c : Byte} {cs : List Byte} :
    f.Spells o (c :: cs) ↔ f.byte o = c ∧ f.Spells (o + 1) cs := by
  unfold File.Spells
  constructor
  · rintro ⟨h, hnul⟩
    refine ⟨h 0 (Nat.succ_pos _), ?_, ?_⟩
    · intro k hk
      have hk' := h (k + 1) (Nat.succ_lt_succ hk)
      rwa [Nat.add_comm k 1, ← Nat.add_assoc, Nat.add_comm 1 k] at hk'
    · rwa [List.length_cons, Nat.add_comm cs.length 1, ← Nat.add_assoc] at hnul
  · rintro ⟨h0, h, hnul⟩
    constructor
    · intro k hk
      cases k with
      | zero => exact h0
      | succ k =>
        have hk' := h k (Nat.lt_of_succ_lt_succ hk)
        rwa [Nat.add_comm k 1, ← Nat.add_assoc, Nat.add_comm 1 k]
    · rwa [List.length_cons, Nat.add_comm cs.length 1, ← Nat.add_assoc]

theorem stringInside_cons {f : File} {o : Nat} {c : Byte} {cs : List Byte} :
    f.StringInside o (c :: cs) ↔ o < f.len ∧ (f.byte o = c → f.StringInside (o + 1) cs) := by
  unfold File.StringInside
  constructor
  · intro h
    refine ⟨h 0 (Nat.zero_le _) fun j hj => absurd hj (Nat.not_lt_zero j), ?_⟩
    intro h0 k hk hall
    have hk' := h (k + 1) (Nat.succ_le_succ hk) ?_
    · omega
    · intro j hj
      cases j with
      | zero => exact h0
      | succ j =>
        have hj' := hall j (Nat.lt_of_succ_lt_succ hj)
        rwa [Nat.add_comm j 1, ← Nat.add_assoc, Nat.add_comm 1 j]
  · rintro ⟨h0, h⟩ k hk hall
    cases k with
    | zero => exact h0
    | succ k =>
      have hrest := h (hall 0 (Nat.succ_pos k)) k (Nat.le_of_succ_le_succ hk) ?_
      · omega
      · intro j hj
        have hj' := hall (j + 1) (Nat.succ_lt_succ hj)
        rwa [Nat.add_comm j 1, ← Nat.add_assoc, Nat.add_comm 1 j] at hj'

/-- The comparison reads up to the first difference. -/
theorem strcmpFrom_spec (f : File) (o : Nat) (name : List Byte) :
    (f.StringInside o name ∧ ∃ b : Bool, strcmpFrom f o name = .ok b ∧ (b ↔ f.Spells o name)) ∨
      (¬ f.StringInside o name ∧ strcmpFrom f o name = .error .fault) := by
  induction name generalizing o with
  | nil =>
    have hin : f.StringInside o [] ↔ o < f.len := by
      unfold File.StringInside
      simp
    have hsp : f.Spells o [] ↔ f.byte o = 0#8 := by
      unfold File.Spells
      simp
    rw [hin, hsp, strcmpFrom]
    by_cases ho : o ≥ f.len
    · exact .inr ⟨Nat.not_lt.mpr ho, if_pos ho⟩
    · exact .inl ⟨Nat.lt_of_not_le ho, _, if_neg ho, decide_eq_true_iff⟩
  | cons c cs ih =>
    rw [stringInside_cons, spells_cons, strcmpFrom]
    by_cases ho : o ≥ f.len
    · exact .inr ⟨fun h => Nat.not_lt.mpr ho h.1, if_pos ho⟩
    rw [if_neg ho]
    have hlt : o < f.len := Nat.lt_of_not_le ho
    by_cases hc : f.byte o = c
    · rw [if_pos hc]
      refine (ih (o + 1)).imp ?_ ?_
      · rintro ⟨hin, b, hrun, hb⟩
        exact ⟨⟨hlt, fun _ => hin⟩, b, hrun, hb.trans (and_iff_right hc).symm⟩
      · rintro ⟨hout, hrun⟩
        exact ⟨fun h => hout (h.2 hc), hrun⟩
    · rw [if_neg hc]
      exact .inl ⟨⟨hlt, fun h => absurd h hc⟩, false, rfl, by simp [hc]⟩

/-- One symbol: a fault, its value, or nothing. -/
theorem symbol_spec (f : File) (name : List Byte) (i t : Nat) :
    (¬ f.SymbolInside name i t ∧ symbol f name i t = .error .fault) ∨
      (f.SymbolInside name i t ∧ f.Named name i t ∧
        symbol f name i t = .error (.found (f.u32 (f.symAt i t + 4)))) ∨
      (f.SymbolInside name i t ∧ ¬ f.Named name i t ∧ symbol f name i t = .ok ()) := by
  unfold symbol File.SymbolInside File.Named
  by_cases ho : f.symAt i t + 16 > f.len
  · exact .inl ⟨fun h => Nat.not_lt.mpr h.1 ho, if_pos ho⟩
  rw [if_neg ho]
  have hle : f.symAt i t + 16 ≤ f.len := Nat.not_lt.mp ho
  by_cases h0 : f.u32 (f.symAt i t) = 0#32
  · rw [if_pos h0]
    exact .inr (.inr ⟨⟨hle, fun h => absurd h0 h⟩, fun h => h.1 h0, rfl⟩)
  rw [if_neg h0]
  rcases strcmpFrom_spec f (f.nameAt i t) name with ⟨hin, b, hrun, hb⟩ | ⟨hout, hrun⟩
  · rw [hrun]
    cases b with
    | true => exact .inr (.inl ⟨⟨hle, fun _ => hin⟩, ⟨h0, hb.mp rfl⟩, rfl⟩)
    | false =>
      refine .inr (.inr ⟨⟨hle, fun _ => hin⟩, fun h => ?_, rfl⟩)
      cases hb.mpr h.2
  · rw [hrun]
    exact .inl ⟨fun h => hout (h.2 h0), rfl⟩

theorem symbol_fault (f : File) (name : List Byte) (i t : Nat) :
    symbol f name i t = .error .fault ↔ ¬ f.SymbolInside name i t := by
  rcases symbol_spec f name i t with ⟨h, hrun⟩ | ⟨h, _, hrun⟩ | ⟨h, _, hrun⟩
  · exact iff_of_true hrun h
  · exact iff_of_false (by rw [hrun]; simp) (not_not.mpr h)
  · exact iff_of_false (by rw [hrun]; simp) (not_not.mpr h)

theorem symbol_ok (f : File) (name : List Byte) (i t : Nat) :
    symbol f name i t = .ok () ↔ f.SymbolInside name i t ∧ ¬ f.Named name i t := by
  rcases symbol_spec f name i t with ⟨h, hrun⟩ | ⟨_, h, hrun⟩ | ⟨h, hn, hrun⟩
  · exact iff_of_false (by rw [hrun]; simp) fun hin => h hin.1
  · exact iff_of_false (by rw [hrun]; simp) fun hin => hin.2 h
  · exact iff_of_true hrun ⟨h, hn⟩

theorem symbol_found {f : File} {name : List Byte} {i t : Nat} {v : Word}
    (h : symbol f name i t = .error (.found v)) :
    f.Named name i t ∧ v = f.u32 (f.symAt i t + 4) := by
  rcases symbol_spec f name i t with ⟨_, hrun⟩ | ⟨_, hn, hrun⟩ | ⟨_, _, hrun⟩
  · rw [hrun] at h
    cases h
  · rw [hrun] at h
    cases h
    exact ⟨hn, rfl⟩
  · rw [hrun] at h
    cases h

theorem symbolTable_fault (f : File) (name : List Byte) (i : Nat) :
    symbolTable f name i = .error .fault ↔ ¬ f.SectionInside name i := by
  have hne := scan_ne_iff (n := (f.shdr i).count) (symbol_fault f name i) (symbol_ok f name i)
  unfold symbolTable File.SectionInside
  by_cases ho : f.shdrAt i + 40 > f.len
  · rw [if_pos ho]
    exact iff_of_true rfl fun h => Nat.not_lt.mpr h.1 ho
  rw [if_neg ho]
  by_cases hs : (f.shdr i).IsSymtab
  · rw [if_neg (not_not.mpr hs)]
    by_cases hl : f.shdrAt (f.shdr i).sh_link.toNat + 40 > f.len
    · rw [if_pos hl]
      exact iff_of_true rfl fun h => Nat.not_lt.mpr (h.2 hs).1 hl
    · rw [if_neg hl, ← not_iff_not, not_not]
      refine hne.trans ⟨fun h => ⟨Nat.not_lt.mp ho, fun _ => ⟨Nat.not_lt.mp hl, h⟩⟩, fun h => ?_⟩
      exact (h.2 hs).2
  · rw [if_pos hs]
    exact iff_of_false (by simp) (not_not.mpr ⟨Nat.not_lt.mp ho, fun h => absurd h hs⟩)

theorem symbolTable_ok (f : File) (name : List Byte) (i : Nat) :
    symbolTable f name i = .ok () ↔ f.SectionInside name i ∧ ¬ f.HasName name i := by
  have hok := scan_ok_iff (n := (f.shdr i).count) (symbol_ok f name i)
  unfold symbolTable File.SectionInside File.HasName
  by_cases ho : f.shdrAt i + 40 > f.len
  · rw [if_pos ho]
    exact iff_of_false (by simp) fun h => Nat.not_lt.mpr h.1.1 ho
  rw [if_neg ho]
  by_cases hs : (f.shdr i).IsSymtab
  · rw [if_neg (not_not.mpr hs)]
    by_cases hl : f.shdrAt (f.shdr i).sh_link.toNat + 40 > f.len
    · rw [if_pos hl]
      exact iff_of_false (by simp) fun h => Nat.not_lt.mpr (h.1.2 hs).1 hl
    · rw [if_neg hl, hok]
      constructor
      · rintro ⟨hin, hnone⟩
        refine ⟨⟨Nat.not_lt.mp ho, fun _ => ⟨Nat.not_lt.mp hl, hin⟩⟩, ?_⟩
        rintro ⟨_, t, ht, hn⟩
        exact hnone t ht hn
      · rintro ⟨hin, hnone⟩
        exact ⟨(hin.2 hs).2, fun t ht hn => hnone ⟨hs, t, ht, hn⟩⟩
  · rw [if_pos hs]
    exact iff_of_true rfl ⟨⟨Nat.not_lt.mp ho, fun h => absurd h hs⟩, fun h => hs h.1⟩

theorem symbolTable_found {f : File} {name : List Byte} {i : Nat} {v : Word}
    (h : symbolTable f name i = .error (.found v)) : (f.shdr i).IsSymtab ∧
      ∃ t < (f.shdr i).count, f.Named name i t ∧ v = f.u32 (f.symAt i t + 4) := by
  unfold symbolTable at h
  split at h
  · cases h
  split at h
  · cases h
  rename_i hs
  split at h
  · cases h
  obtain ⟨t, ht, hfound, _⟩ := scan_error.mp h
  exact ⟨not_not.mp hs, t, ht, symbol_found hfound⟩

/-- **The lookup** is right exactly on the files that hold what it reads. -/
theorem looksUp_iff (f : File) (name : CString) :
    LooksUp f name ↔ f.SymbolsInside name.chars := by
  have hne := scan_ne_iff (n := f.ehdr.e_shnum.toNat) (symbolTable_fault f name.chars)
    (symbolTable_ok f name.chars)
  unfold LooksUp purvhostSym File.SymbolsInside
  by_cases h52 : 52 > f.len
  · rw [if_pos h52]
    exact iff_of_false (fun h => h) fun h => Nat.not_lt.mpr h.1 h52
  rw [if_neg h52, ← hne, and_iff_right (Nat.not_lt.mp h52)]
  cases hs : scan (symbolTable f name.chars) f.ehdr.e_shnum.toNat with
  | error e =>
    cases e with
    | fault => exact iff_of_false (fun h => h) fun h => h rfl
    | found v =>
      refine iff_of_true ?_ (by simp)
      obtain ⟨i, hi, hfound, _⟩ := scan_error.mp hs
      exact ⟨i, hi, symbolTable_found hfound⟩
  | ok u => exact iff_of_true trivial (by simp)

/-- **Loading an ELF is safe and faithful**, and so is a lookup in it, exactly when its headers and
tables are inside it, its segments fit, and their zero fill covers zeros. -/
theorem elf_loads (f : File) (code_len heap_len : Word) :
    (Loads f (purvhostAlloc code_len heap_len) ↔
        (f.IsElf → f.WellFormed (purvhostAlloc code_len heap_len).len)) ∧
      ∀ name, LooksUp f name ↔ f.SymbolsInside name.chars := by
  refine ⟨?_, looksUp_iff f⟩
  by_cases hf : f.IsElf
  · rw [loads_iff f code_len heap_len hf]
    exact ⟨fun h _ => h, fun h => h hf⟩
  · refine iff_of_true ?_ fun h => absurd h hf
    unfold Loads purvhostLoadElf
    rw [if_pos hf]
    trivial

/-- A file of one program header, which says that the segment is at `p_offset` in the file. -/
def oneHeader (p_offset : Byte) : File where
  byte := fun o => (([0x7f#8, 0x45#8, 0x4c#8, 0x46#8, 1#8] ++ List.replicate 13 0#8 ++ [243#8] ++
    List.replicate 9 0#8 ++ [52#8] ++ List.replicate 13 0#8 ++ [32#8, 0#8, 1#8] ++
    List.replicate 7 0#8) ++ ([1#8, 0#8, 0#8, 0#8, p_offset] ++ List.replicate 11 0#8 ++
    [4#8, 0#8, 0#8, 0#8, 4#8] ++ List.replicate 11 0#8)).getD o 0#8
  len := 84

/-- A segment past the end of the file is read all the same. -/
theorem elf_loads_truncated :
    purvhostLoadElf (oneHeader 84#8) (purvhostAlloc 4096#32 4096#32) = .error .fault ∧
      ¬ Loads (oneHeader 84#8) (purvhostAlloc 4096#32 4096#32) := by
  have hfault : purvhostLoadElf (oneHeader 84#8) (purvhostAlloc 4096#32 4096#32) =
      .error .fault := by
    rfl
  refine ⟨hfault, ?_⟩
  unfold Loads
  rw [hfault]
  exact fun h => h

end Purv.Purvhost

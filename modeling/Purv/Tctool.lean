import Mathlib.Data.List.Sort
import Purv.Purva
import Purv.Transcode

/-!
# From an ELF file to an image (`tctool.c`, `image.h`)

The sections of the file are gathered by their flags and merged by address, the code is transcoded,
and the words and instruction pairs that hold the address of an instruction are rewritten to hold
the address of its op.

* `Elf`, `Shdr`, `Rela` — the parts of the file that are read;
* `mergeProgbits`, `nobitsTop` — the merged sections;
* `patchAllRelas`, `applyPcrelCodeFixups`, `resolveDataAuipc` — the rewriting;
* `tctool`, `Image.file` — the image and its bytes.

`none` is an exit code other than 0.
-/

namespace Purv.Tctool

open Bits Transcode

/-! ## The file -/

def SHT_PROGBITS : Word := 1#32

def SHT_NOBITS : Word := 8#32

def SHT_RELA : Word := 4#32

def SHF_WRITE : Word := 1#32

def SHF_ALLOC : Word := 2#32

def SHF_EXECINSTR : Word := 4#32

def R_RISCV_32 : Word := 1#32

def R_RISCV_PCREL_HI20 : Word := 23#32

def R_RISCV_PCREL_LO12_I : Word := 24#32

def R_RISCV_PCREL_LO12_S : Word := 25#32

/-- A section header, and the file from `sh_offset` on. -/
structure Shdr where
  sh_type : Word
  sh_flags : Word
  sh_addr : Word
  sh_size : Word
  sh_link : Word
  sh_info : Word
  bytes : Nat → Byte

/-- An ELF file: whether it starts as one, its entry, and its section headers. -/
structure Elf where
  magic : Bool
  e_entry : Word
  shdrs : List Shdr

/-- `shdr`; past the last header there is an empty one. -/
def Elf.shdr (eh : Elf) (i : Word) : Shdr :=
  eh.shdrs.getD i.toNat ⟨0#32, 0#32, 0#32, 0#32, 0#32, 0#32, fun _ => 0#8⟩

/-- A little-endian word. -/
def le32 (bytes : Nat → Byte) (o : Nat) : Word :=
  (bytes o).setWidth 32 ||| (bytes (o + 1)).setWidth 32 <<< 8 |||
    (bytes (o + 2)).setWidth 32 <<< 16 ||| (bytes (o + 3)).setWidth 32 <<< 24

/-- `Rela`. -/
structure Rela where
  r_offset : Word
  r_info : Word
  r_addend : Word

/-- The type of a relocation. -/
def Rela.type (r : Rela) : Word := r.r_info &&& 0xff#32

/-- The relocations of a section, in the order of the file; none if it holds something else. -/
def Shdr.relas (sh : Shdr) : List Rela :=
  if sh.sh_type ≠ SHT_RELA then []
  else
    (List.range (sh.sh_size / 12#32).toNat).map fun j =>
      ⟨le32 sh.bytes (12 * j), le32 sh.bytes (12 * j + 4), le32 sh.bytes (12 * j + 8)⟩

/-- `syms[r_info >> 8].st_value`, with the symbols of a relocation section. -/
def Elf.symValue (eh : Elf) (sh : Shdr) (r : Rela) : Word :=
  le32 (eh.shdr sh.sh_link).bytes (16 * (r.r_info >>> 8).toNat + 4)

/-! ## Merging -/

/-- `Span`. -/
structure Span where
  addr : Word
  size : Word
  bytes : Nat → Byte

/-- The sections that `merge_progbits` asks for. -/
def wanted (want_exec want_write : Bool) (sh : Shdr) : Bool :=
  sh.sh_type == SHT_PROGBITS && sh.sh_flags &&& SHF_ALLOC != 0#32 && sh.sh_size != 0#32 &&
    (sh.sh_flags &&& SHF_EXECINSTR != 0#32) == want_exec &&
    (sh.sh_flags &&& SHF_WRITE != 0#32) == want_write

/-- The first 64 of them. -/
def spans (eh : Elf) (want_exec want_write : Bool) : List Span :=
  ((eh.shdrs.filter (wanted want_exec want_write)).map
    fun sh => ⟨sh.sh_addr, sh.sh_size, sh.bytes⟩).take 64

/-- `sort_spans`, a stable sort. -/
def sortSpans (s : List Span) : List Span := s.insertionSort fun a b => a.addr ≤ b.addr

/-- `MERGE_AUTO_BASE`. -/
def MERGE_AUTO_BASE : Word := 0xffffffff#32

/-- Bytes for guest addresses `[base, base + len)`. -/
structure Merged where
  base : Word
  len : Word
  buf : Nat → Byte

/-- The `memcpy` of a span into a buffer for addresses from `base` on. -/
def copySpan (base : Word) (buf : Nat → Byte) (s : Span) (o : Nat) : Byte :=
  let at_ := (s.addr - base).toNat
  if at_ ≤ o ∧ o < at_ + s.size.toNat then s.bytes (o - at_) else buf o

/-- `merge_progbits`. -/
def mergeProgbits (eh : Elf) (want_exec want_write : Bool) (base : Word) : Option Merged :=
  match sortSpans (spans eh want_exec want_write) with
  | [] => some ⟨if base = MERGE_AUTO_BASE then 0#32 else base, 0#32, fun _ => 0#8⟩
  | s :: ss =>
    if base ≠ MERGE_AUTO_BASE ∧ s.addr < base then none
    else
      let base := if base = MERGE_AUTO_BASE then s.addr else base
      let last := (s :: ss).getLast (List.cons_ne_nil s ss)
      some ⟨base, last.addr + last.size - base, (s :: ss).foldl (copySpan base) fun _ => 0#8⟩

/-- The sections that `nobits_top` asks for. -/
def isBss (sh : Shdr) : Bool :=
  sh.sh_type == SHT_NOBITS && sh.sh_flags &&& SHF_ALLOC != 0#32 && sh.sh_size != 0#32

/-- `nobits_top`, from `top` on. -/
def nobitsTopFrom (base : Word) : List Shdr → Word → Option Word
  | [], top => some top
  | sh :: shs, top =>
    if isBss sh then
      if sh.sh_addr < base then none
      else
        let end_ := sh.sh_addr + sh.sh_size
        nobitsTopFrom base shs (if end_ > top then end_ else top)
    else nobitsTopFrom base shs top

/-- `nobits_top`. -/
def nobitsTop (eh : Elf) (base : Word) : Option Word := nobitsTopFrom base eh.shdrs base

/-! ## Code addresses -/

/-- `collect_code_address_relocs`. -/
def collectCodeAddressRelocs (eh : Elf) (code_len : Word) : List Word :=
  eh.shdrs.flatMap fun sh => sh.relas.filterMap fun r =>
    let target := eh.symValue sh r + r.r_addend
    if r.type ≠ R_RISCV_32 ∧ r.type ≠ R_RISCV_PCREL_HI20 then none
    else if target ≥ code_len then none
    else some target

/-- `PcrelFixup`. -/
structure PcrelFixup where
  hi_off : Word
  lo_off : Word
  sym_value : Word
  addend : Word
  lo_is_store : Bool

/-- The fixups of one `R_RISCV_PCREL_HI20`: one for each instruction that completes it. -/
def pcrelFixups (eh : Elf) (hi_off sym_value addend : Word) : List PcrelFixup :=
  eh.shdrs.flatMap fun sh => sh.relas.filterMap fun r =>
    if r.type ≠ R_RISCV_PCREL_LO12_I ∧ r.type ≠ R_RISCV_PCREL_LO12_S then none
    else if eh.symValue sh r ≠ hi_off then none
    else some ⟨hi_off, r.r_offset, sym_value, addend, r.type == R_RISCV_PCREL_LO12_S⟩

/-- `collect_pcrel_code_fixups`. -/
def collectPcrelCodeFixups (eh : Elf) (code_len : Word) : Option (List PcrelFixup) :=
  (eh.shdrs.flatMap fun sh => sh.relas.map fun r => (sh, r)).foldlM (fun out x =>
    if x.2.type ≠ R_RISCV_PCREL_HI20 then some out
    else if eh.symValue x.1 x.2 ≥ code_len then some out
    else
      match pcrelFixups eh x.2.r_offset (eh.symValue x.1 x.2) x.2.r_addend with
      | [] => none
      | fx => some (out ++ fx)) []

/-- The ops that keep an immediate in the low 16 bits. -/
def imm16Low (op : Nat) : Bool :=
  (RISCV_OP_ADDI ≤ op && op ≤ RISCV_OP_SRAI) || (RISCV_OP_LB ≤ op && op ≤ RISCV_OP_SW) ||
    op == RISCV_OP_JALR || op == RISCV_OP_LW_BZ || op == RISCV_OP_LBU_BZ

/-- The rewriting of one pair. -/
def applyFixup (map : Nat → Word) (ops : List Word) (fx : PcrelFixup) : Option (List Word) :=
  let at_hi := map (fx.hi_off >>> 1).toNat
  let at_lo := map (fx.lo_off >>> 1).toNat
  let at_sym := map (fx.sym_value >>> 1).toNat
  let opAt := fun i : Word => ops.getD i.toNat 0#32
  if at_hi = TC_SENTINEL ∨ at_lo = TC_SENTINEL ∨ at_sym = TC_SENTINEL then none
  else if fx.lo_is_store ∧ Purva.TC_OP (opAt at_lo) ≠ RISCV_OP_SW then none
  else if ¬ imm16Low (Purva.TC_OP (opAt at_lo)) then none
  else
    let target_pc := at_sym * 4#32 + fx.addend
    let delta := target_pc - at_hi * 4#32
    if Purva.TC_OP (opAt at_hi) ≠ RISCV_OP_AUIPC then none
    else
      let hi20 := (delta + 0x800#32).sshiftRight 12
      let lo12 := delta - hi20 <<< 12
      let ops := ops.set at_hi.toNat (opAt at_hi &&& ~~~0xfffff#32 ||| hi20 &&& 0xfffff#32)
      some (ops.set at_lo.toNat (ops.getD at_lo.toNat 0#32 &&& ~~~0xffff#32 ||| lo12 &&& 0xffff#32))

/-- `apply_pcrel_code_fixups`. -/
def applyPcrelCodeFixups (fx : List PcrelFixup) (map : Nat → Word) (ops : List Word) :
    Option (List Word) :=
  fx.foldlM (applyFixup map) ops

/-- One `R_RISCV_PCREL_HI20` of `resolve_data_auipc`. -/
def resolveAuipc (map : Nat → Word) (ops : List Word) (hi_off : Word) : Option (List Word) :=
  let at_ := map (hi_off >>> 1).toNat
  let w := ops.getD at_.toNat 0#32
  if at_ = TC_SENTINEL ∨ Purva.TC_OP w ≠ RISCV_OP_AUIPC then some ops
  else
    let rd := w >>> 21 &&& 31#32
    let val := hi_off + (w &&& 0xfffff#32) <<< 12
    let sh_ := val - RISCV_HALF
    if -(2 ^ 20) < val.toInt ∧ val.toInt < 2 ^ 20 then
      some (ops.set at_.toNat (opField RISCV_OP_LI_LO ||| rd <<< 21 ||| val &&& 0x1fffff#32))
    else if -(2 ^ 20) < sh_.toInt ∧ sh_.toInt < 2 ^ 20 then
      some (ops.set at_.toNat (opField RISCV_OP_LI_HI ||| rd <<< 21 ||| sh_ &&& 0x1fffff#32))
    else none

/-- `resolve_data_auipc`. -/
def resolveDataAuipc (eh : Elf) (code_len : Word) (map : Nat → Word) (ops : List Word) :
    Option (List Word) :=
  (eh.shdrs.flatMap fun sh => sh.relas.map fun r => (sh, r)).foldlM (fun ops x =>
    if x.2.type ≠ R_RISCV_PCREL_HI20 then some ops
    else if eh.symValue x.1 x.2 < code_len then some ops
    else resolveAuipc map ops x.2.r_offset) ops

/-! ## Code pointers in the data -/

/-- A word of a buffer that is overwritten: its guest address and its new value. -/
structure Patch where
  addr : Word
  value : Word

/-- The words that `patch_rela` overwrites, in the order of the relocations. -/
def patchRela (eh : Elf) (sh : Shdr) (m : Merged) (map : Nat → Word) (code_len : Word) :
    List Patch :=
  sh.relas.filterMap fun r =>
    let target := eh.symValue sh r + r.r_addend
    let op_index := map (target >>> 1).toNat
    if r.type ≠ R_RISCV_32 then none
    else if target ≥ code_len then none
    else if op_index = TC_SENTINEL then none
    else if r.r_offset < m.base ∨ r.r_offset - m.base + 4#32 > m.len then none
    else some ⟨r.r_offset, op_index * 4#32⟩

/-- The relocation sections that `patch_all_relas` takes for rodata. -/
def inMerged (eh : Elf) (sh : Shdr) (m : Merged) : Bool :=
  m.len != 0#32 && (eh.shdr sh.sh_info).sh_addr - m.base < m.len

/-- `patch_all_relas`: the words that it overwrites in rodata, and in rwdata. -/
def patchAllRelas (eh : Elf) (rodata rwdata : Merged) (map : Nat → Word) (code_len : Word) :
    List Patch × List Patch :=
  (eh.shdrs.flatMap fun sh =>
      if inMerged eh sh rodata then patchRela eh sh rodata map code_len else [],
    eh.shdrs.flatMap fun sh =>
      if !inMerged eh sh rodata && inMerged eh sh rwdata then patchRela eh sh rwdata map code_len
      else [])

/-- A word of a buffer is overwritten. -/
def Merged.patch (m : Merged) (p : Patch) : Merged :=
  let at_ := (p.addr - m.base).toNat
  { m with buf := fun o =>
      if at_ ≤ o ∧ o < at_ + 4 then p.value.extractLsb' (8 * (o - at_)) 8 else m.buf o }

/-! ## The image -/

/-- `Image`. -/
structure Image where
  code_size : Word
  rodata_size : Word
  rwdata_size : Word
  bss_size : Word
  stack_size : Word
  code : List Word
  rodata : Nat → Byte
  rwdata : Nat → Byte

/-- What `main` finds in the file before it looks at relocations: code, rodata, rwdata and the size
of bss. -/
structure Gathered where
  code : Merged
  rodata : Merged
  rwdata : Merged
  bss_len : Word

/-- The sections, gathered. -/
def gather (eh : Elf) : Option Gathered :=
  if ¬ eh.magic ∨ eh.e_entry ≠ 0#32 then none
  else
    match mergeProgbits eh true false 0#32, mergeProgbits eh false false MERGE_AUTO_BASE,
      mergeProgbits eh false true RISCV_HALF with
    | some code, some rodata, some rwdata =>
      if spans eh true false = [] then none
      else if rodata.len ≠ 0#32 ∧ rodata.base ≠ 0#32 - rodata.len then none
      else
        (nobitsTop eh (RISCV_HALF + rwdata.len)).map fun top =>
          ⟨code, rodata, rwdata, top - (RISCV_HALF + rwdata.len)⟩
    | _, _, _ => none

/-- The rest of `main`: the image, and the words that were patched. -/
def translate (eh : Elf) (g : Gathered) : Option (Image × List Patch × List Patch) :=
  match collectPcrelCodeFixups eh g.code.len with
  | none => none
  | some fixups =>
    let ext := collectCodeAddressRelocs eh g.code.len ++ fixups.map PcrelFixup.lo_off
    match transcodeEx g.code.buf g.code.len ext, transcodeMapEx g.code.buf g.code.len ext with
    | some prog, some (map, _) =>
      let patches := patchAllRelas eh g.rodata g.rwdata map g.code.len
      match applyPcrelCodeFixups fixups map prog.ops with
      | none => none
      | some ops =>
        (resolveDataAuipc eh g.code.len map ops).map fun ops =>
          (⟨prog.n_ops * 4#32, g.rodata.len, g.rwdata.len, g.bss_len, 64#32 * 1024#32, ops,
            (patches.1.foldl Merged.patch g.rodata).buf,
            (patches.2.foldl Merged.patch g.rwdata).buf⟩, patches)
    | _, _ => none

/-- `main` of `tctool.c`. -/
def tctool (eh : Elf) : Option (Image × List Patch × List Patch) :=
  (gather eh).bind (translate eh)

/-- The fields of the header. -/
def Image.header (img : Image) (i : Nat) : Word :=
  match i with
  | 0 => img.code_size
  | 1 => img.rodata_size
  | 2 => img.rwdata_size
  | 3 => img.bss_size
  | _ => img.stack_size

/-- The length of what `image_write` writes. -/
def Image.fileLen (img : Image) : Nat :=
  20 + img.code_size.toNat + img.rodata_size.toNat + img.rwdata_size.toNat

/-- What `image_write` writes. -/
def Image.file (img : Image) (o : Nat) : Byte :=
  let rodataAt := 20 + img.code_size.toNat
  let rwdataAt := rodataAt + img.rodata_size.toNat
  if o < 20 then (img.header (o / 4)).extractLsb' (8 * (o % 4)) 8
  else if o < rodataAt then
    (img.code.getD ((o - 20) / 4) 0#32).extractLsb' (8 * ((o - 20) % 4)) 8
  else if o < rwdataAt then img.rodata (o - rodataAt)
  else img.rwdata (o - rwdataAt)

end Purv.Tctool

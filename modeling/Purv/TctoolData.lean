import Mathlib.Tactic.IntervalCases
import Purv.PurvaFrame
import Purv.PurvaInit
import Purv.Tctool

/-!
# Data keeps its linked address

A byte of a section goes through a merged buffer, the image and a host buffer, and is found again
by a load at the address that the linker gave it.

* `mergeProgbits_buf` — the merged buffer holds the sections at their addresses;
* `patched_buf` — patching changes the patched words only;
* `imageHeader_file`, `initMem_rodata`, `initMem_rwdata` — the image is read back as it was written;
* `load_rodata`, `load_writable` — loads of the guest that is set up;
* `tctool_loaded` — all of it.
-/

namespace Purv.Tctool

open Bits Transcode Purva

/-! ## Sections -/

/-- The end of a section, as a number. -/
def Shdr.endAt (sh : Shdr) : Nat := sh.sh_addr.toNat + sh.sh_size.toNat

/-- The address is inside the section. -/
def Shdr.Holds (sh : Shdr) (a : Word) : Prop := sh.sh_addr.toNat ≤ a.toNat ∧ a.toNat < sh.endAt

/-- The byte that the file has for an address of the section. -/
def Shdr.byteAt (sh : Shdr) (a : Word) : Byte := sh.bytes (a - sh.sh_addr).toNat

/-- The file is one that the tool can merge: in each category at most 64 sections that are pairwise
disjoint, and all in the address space; a section without bytes ends before its top. -/
structure Linked (eh : Elf) : Prop where
  few : ∀ x w, (eh.shdrs.filter (wanted x w)).length ≤ 64
  disjoint : ∀ x w, (eh.shdrs.filter (wanted x w)).Pairwise fun s t =>
    s.endAt ≤ t.sh_addr.toNat ∨ t.endAt ≤ s.sh_addr.toNat
  inside : ∀ x w, ∀ sh ∈ eh.shdrs, wanted x w sh → sh.endAt ≤ 2 ^ 32
  bss : ∀ sh ∈ eh.shdrs, isBss sh → sh.endAt < 2 ^ 32

/-- The section of a header. -/
def Shdr.span (sh : Shdr) : Span := ⟨sh.sh_addr, sh.sh_size, sh.bytes⟩

/-! ## Copies -/

/-- Offset `o` of a buffer for addresses from `base` on is in the span. -/
def Span.At (s : Span) (base : Word) (o : Nat) : Prop :=
  (s.addr - base).toNat ≤ o ∧ o < (s.addr - base).toNat + s.size.toNat

theorem copies_none {base : Word} {o : Nat} (ss : List Span) (buf : Nat → Byte)
    (h : ∀ s ∈ ss, ¬ s.At base o) : ss.foldl (copySpan base) buf o = buf o := by
  induction ss generalizing buf with
  | nil => rfl
  | cons s ss ih =>
    rw [List.foldl_cons, ih _ fun t ht => h t (List.mem_cons_of_mem s ht)]
    exact if_neg (h s List.mem_cons_self)

theorem copies_mem {base : Word} {o : Nat} {ss : List Span} {s : Span} (buf : Nat → Byte)
    (hdis : ss.Pairwise fun s t => ¬ (s.At base o ∧ t.At base o)) (hs : s ∈ ss)
    (ho : s.At base o) :
    ss.foldl (copySpan base) buf o = s.bytes (o - (s.addr - base).toNat) := by
  induction ss generalizing buf with
  | nil => cases hs
  | cons t ss ih =>
    obtain ⟨hhead, htail⟩ := List.pairwise_cons.mp hdis
    rw [List.foldl_cons]
    rcases List.mem_cons.mp hs with rfl | hmem
    · rw [copies_none ss _ fun u hu hu' => hhead u hu ⟨ho, hu'⟩]
      exact if_pos ho
    · exact ih _ htail hmem

/-! ## Merged sections -/

theorem mem_spans {eh : Elf} (hl : Linked eh) (x w : Bool) {s : Span} :
    s ∈ sortSpans (spans eh x w) ↔ ∃ sh ∈ eh.shdrs, wanted x w sh ∧ s = sh.span := by
  unfold sortSpans spans
  rw [List.mem_insertionSort, List.take_of_length_le (by
    rw [List.length_map]
    exact hl.few x w)]
  simp only [List.mem_map, List.mem_filter]
  constructor
  · rintro ⟨sh, ⟨hsh, hw⟩, rfl⟩
    exact ⟨sh, hsh, hw, rfl⟩
  · rintro ⟨sh, hsh, hw, rfl⟩
    exact ⟨sh, ⟨hsh, hw⟩, rfl⟩

theorem spans_disjoint {eh : Elf} (hl : Linked eh) (x w : Bool) :
    (sortSpans (spans eh x w)).Pairwise fun s t =>
      s.addr.toNat + s.size.toNat ≤ t.addr.toNat ∨ t.addr.toNat + t.size.toNat ≤ s.addr.toNat := by
  unfold sortSpans spans
  rw [(List.perm_insertionSort _ _).pairwise_iff fun {s t} h => h.symm]
  refine List.Pairwise.take ?_
  rw [List.pairwise_map]
  exact hl.disjoint x w

theorem spans_sorted (eh : Elf) (x w : Bool) :
    (sortSpans (spans eh x w)).Pairwise fun s t => s.addr ≤ t.addr := by
  have : Std.Total fun a b : Span => a.addr ≤ b.addr := ⟨fun a b => BitVec.le_total a.addr b.addr⟩
  have : IsTrans Span fun a b => a.addr ≤ b.addr := ⟨fun a b c => BitVec.le_trans⟩
  exact List.pairwise_insertionSort _ _

/-- What a merged buffer holds: the sections at their addresses, and zeros between them. -/
structure Merges (eh : Elf) (x w : Bool) (m : Merged) : Prop where
  held : ∀ sh ∈ eh.shdrs, wanted x w sh → ∀ a, sh.Holds a →
    m.base.toNat ≤ a.toNat ∧ a.toNat < m.base.toNat + m.len.toNat ∧
      m.buf (a.toNat - m.base.toNat) = sh.byteAt a
  gap : ∀ a : Word, m.base.toNat ≤ a.toNat → a.toNat < m.base.toNat + m.len.toNat →
    (∀ sh ∈ eh.shdrs, wanted x w sh → ¬ sh.Holds a) → m.buf (a.toNat - m.base.toNat) = 0#8

/-- The first of the sorted sections starts first, the last one ends last. -/
theorem spans_extent {eh : Elf} (hl : Linked eh) (x w : Bool) {s : Span} {ss : List Span}
    (h : sortSpans (spans eh x w) = s :: ss) {t : Span} (ht : t ∈ s :: ss) :
    s.addr ≤ t.addr ∧ t.addr.toNat + t.size.toNat ≤
      ((s :: ss).getLast (List.cons_ne_nil s ss)).addr.toNat +
        ((s :: ss).getLast (List.cons_ne_nil s ss)).size.toNat := by
  have hsorted := spans_sorted eh x w
  have hdis := spans_disjoint hl x w
  have hmem := mem_spans hl x w (s := (s :: ss).getLast (List.cons_ne_nil s ss))
  rw [h] at hsorted hdis hmem
  obtain ⟨sh, -, hw, hsh⟩ := hmem.mp (List.getLast_mem _)
  have hsize : ((s :: ss).getLast (List.cons_ne_nil s ss)).size ≠ 0#32 := by
    rw [hsh]
    unfold wanted at hw
    simp only [Bool.and_eq_true, bne_iff_ne] at hw
    exact hw.1.1.2
  constructor
  · rcases List.mem_cons.mp ht with rfl | ht
    · exact BitVec.le_refl _
    · exact (List.pairwise_cons.mp hsorted).1 t ht
  · rw [← List.dropLast_append_getLast (List.cons_ne_nil s ss)] at ht hsorted hdis
    rcases List.mem_append.mp ht with ht | ht
    · have hle := (List.pairwise_append.mp hsorted).2.2 t ht _ (List.mem_singleton_self _)
      have hd := (List.pairwise_append.mp hdis).2.2 t ht _ (List.mem_singleton_self _)
      rw [BitVec.le_def] at hle
      have hpos : ((s :: ss).getLast (List.cons_ne_nil s ss)).size.toNat ≠ 0 := fun h0 =>
        hsize (BitVec.eq_of_toNat_eq h0)
      omega
    · rw [List.mem_singleton.mp ht]

/-- **The merged buffer holds the sections at their addresses.** -/
theorem mergeProgbits_buf {eh : Elf} (hl : Linked eh) {x w : Bool} {base : Word} {m : Merged}
    (hm : mergeProgbits eh x w base = some m)
    (hpos : ∀ sh ∈ eh.shdrs, wanted x w sh → 0 < m.base.toNat ∨ sh.endAt < 2 ^ 32) :
    Merges eh x w m := by
  have hmem := fun t => mem_spans hl x w (s := t)
  have hdis := spans_disjoint hl x w
  have hext := fun s ss h t => @spans_extent eh hl x w s ss h t
  unfold mergeProgbits at hm
  cases hL : sortSpans (spans eh x w) with
  | nil =>
    rw [hL] at hm hmem
    have hnone : ∀ sh ∈ eh.shdrs, ¬ wanted x w sh := fun sh hsh hw =>
      List.not_mem_nil ((hmem sh.span).mpr ⟨sh, hsh, hw, rfl⟩)
    cases hm
    refine ⟨fun sh hsh hw => absurd hw (hnone sh hsh), fun a _ _ _ => rfl⟩
  | cons s ss =>
    have hext := fun t => hext s ss hL t
    rw [hL] at hm hmem hdis
    simp only at hm
    split at hm
    · cases hm
    rename_i hbase
    have hm := Option.some.inj hm
    -- the base that is used is at or below every section
    have hle : ∀ t ∈ s :: ss, m.base.toNat ≤ t.addr.toNat := by
      intro t ht
      have hst := (hext t ht).1
      rw [BitVec.le_def] at hst
      rw [← hm]
      simp only
      split
      · exact hst
      · rename_i hauto
        have hbs : ¬ s.addr < base := fun hlt => hbase ⟨hauto, hlt⟩
        rw [BitVec.lt_def] at hbs
        omega
    have hbuf : m.buf = (s :: ss).foldl (copySpan m.base) fun _ => 0#8 := by rw [← hm]
    have hat : ∀ t ∈ s :: ss, (t.addr - m.base).toNat = t.addr.toNat - m.base.toNat := fun t ht =>
      BitVec.toNat_sub_of_le (BitVec.le_def.mpr (hle t ht))
    have hlen : ∀ t ∈ s :: ss, t.addr.toNat + t.size.toNat ≤ m.base.toNat + m.len.toNat := by
      intro t ht
      have hlast := (hext t ht).2
      obtain ⟨sh, hsh, hw, hspan⟩ := (hmem _).mp (List.getLast_mem (List.cons_ne_nil s ss))
      have hin : ((s :: ss).getLast (List.cons_ne_nil s ss)).addr.toNat +
          ((s :: ss).getLast (List.cons_ne_nil s ss)).size.toNat ≤ 2 ^ 32 := by
        rw [hspan]
        exact hl.inside x w sh hsh hw
      have hb : 0 < m.base.toNat ∨ ((s :: ss).getLast (List.cons_ne_nil s ss)).addr.toNat +
          ((s :: ss).getLast (List.cons_ne_nil s ss)).size.toNat < 2 ^ 32 := by
        rw [hspan]
        exact hpos sh hsh hw
      have hbl := hle _ (List.getLast_mem (List.cons_ne_nil s ss))
      have hlen : m.len = ((s :: ss).getLast (List.cons_ne_nil s ss)).addr +
          ((s :: ss).getLast (List.cons_ne_nil s ss)).size - m.base := by rw [← hm]
      rw [hlen, BitVec.toNat_sub, BitVec.toNat_add]
      omega
    constructor
    · intro sh hsh hw a ha
      have hsp : sh.span ∈ s :: ss := (hmem sh.span).mpr ⟨sh, hsh, hw, rfl⟩
      have hb : m.base.toNat ≤ sh.sh_addr.toNat := hle _ hsp
      have he : sh.endAt ≤ m.base.toNat + m.len.toNat := hlen _ hsp
      obtain ⟨ha1, ha2⟩ := ha
      refine ⟨by omega, by omega, ?_⟩
      have hshat : (sh.sh_addr - m.base).toNat = sh.sh_addr.toNat - m.base.toNat := hat _ hsp
      have ho : sh.span.At m.base (a.toNat - m.base.toNat) := by
        show (sh.sh_addr - m.base).toNat ≤ _ ∧ _ < (sh.sh_addr - m.base).toNat + sh.sh_size.toNat
        rw [hshat]
        unfold Shdr.endAt at ha2
        omega
      rw [hbuf, copies_mem _ (hdis.imp_of_mem ?_) hsp ho]
      · show sh.bytes (a.toNat - m.base.toNat - (sh.sh_addr - m.base).toNat) = sh.byteAt a
        unfold Shdr.byteAt
        rw [hshat, BitVec.toNat_sub_of_le (BitVec.le_def.mpr ha1)]
        congr 1
        omega
      · rintro t u ht hu htu ⟨⟨h1, h2⟩, h3, h4⟩
        rw [hat t ht] at h1 h2
        rw [hat u hu] at h3 h4
        have := hle t ht
        have := hle u hu
        omega
    · intro a ha1 ha2 hnone
      rw [hbuf, copies_none]
      intro t ht hta
      obtain ⟨sh, hsh, hw, rfl⟩ := (hmem t).mp ht
      obtain ⟨h1, h2⟩ := hta
      rw [hat _ ht] at h1 h2
      have hb := hle _ ht
      refine hnone sh hsh hw ⟨?_, ?_⟩
      · show sh.span.addr.toNat ≤ a.toNat
        omega
      · show a.toNat < sh.span.addr.toNat + sh.span.size.toNat
        omega

theorem mergeProgbits_base {eh : Elf} {x w : Bool} {base : Word} {m : Merged}
    (hm : mergeProgbits eh x w base = some m) (hbase : base ≠ MERGE_AUTO_BASE) : m.base = base := by
  unfold mergeProgbits at hm
  split at hm
  · cases hm
    exact if_neg hbase
  · split at hm
    · cases hm
    · rw [← Option.some.inj hm]

/-! ## Patches -/

/-- **Patching changes the patched words only.** -/
theorem patched_buf {ps : List Patch} (m : Merged) {a : Word} (hbase : m.base.toNat ≤ a.toNat)
    (ha : ∀ p ∈ ps, 4 ≤ (a - p.addr).toNat) :
    (ps.foldl Merged.patch m).buf (a.toNat - m.base.toNat) = m.buf (a.toNat - m.base.toNat) := by
  induction ps generalizing m with
  | nil => rfl
  | cons p ps ih =>
    have hrest := ih (m.patch p) hbase fun q hq => ha q (List.mem_cons_of_mem p hq)
    refine hrest.trans (if_neg ?_)
    rintro ⟨h1, h2⟩
    rw [show (m.patch p).base = m.base from rfl] at h1 h2
    have hp := ha p List.mem_cons_self
    -- the difference of the offsets is the one of the addresses
    have hdiff : a - p.addr = (a - m.base) - (p.addr - m.base) := by
      rw [BitVec.sub_sub, BitVec.add_comm, BitVec.sub_add_cancel]
    have hat : (a - m.base).toNat = a.toNat - m.base.toNat :=
      BitVec.toNat_sub_of_le (BitVec.le_def.mpr hbase)
    rw [hdiff, BitVec.toNat_sub_of_le (BitVec.le_def.mpr (by omega)), hat] at hp
    omega

/-! ## The sections without bytes -/

theorem nobitsTopFrom_top {base : Word} {shs : List Shdr}
    (hin : ∀ sh ∈ shs, isBss sh → sh.endAt < 2 ^ 32) {top t : Word}
    (h : nobitsTopFrom base shs top = some t) :
    top ≤ t ∧ ∀ sh ∈ shs, isBss sh → base ≤ sh.sh_addr ∧ sh.endAt ≤ t.toNat := by
  induction shs generalizing top with
  | nil =>
    cases h
    exact ⟨BitVec.le_refl _, fun sh hsh => absurd hsh List.not_mem_nil⟩
  | cons s shs ih =>
    have hin' : ∀ sh ∈ shs, isBss sh → sh.endAt < 2 ^ 32 := fun sh hsh =>
      hin sh (List.mem_cons_of_mem s hsh)
    unfold nobitsTopFrom at h
    split at h
    · rename_i hs
      split at h
      · cases h
      rename_i hb
      simp only at h
      obtain ⟨hle, hrest⟩ := ih hin' h
      have hend : (s.sh_addr + s.sh_size).toNat = s.endAt := by
        have hlt := hin s List.mem_cons_self hs
        unfold Shdr.endAt at hlt ⊢
        rw [BitVec.toNat_add]
        omega
      have hboth : top ≤ t ∧ s.endAt ≤ t.toNat := by
        rw [BitVec.le_def] at hle ⊢
        split at hle
        · rename_i hgt
          rw [gt_iff_lt, BitVec.lt_def] at hgt
          omega
        · rename_i hgt
          rw [gt_iff_lt, BitVec.lt_def] at hgt
          omega
      refine ⟨hboth.1, fun sh hsh hbss => ?_⟩
      rcases List.mem_cons.mp hsh with rfl | hsh
      · exact ⟨BitVec.not_lt.mp hb, hboth.2⟩
      · exact hrest sh hsh hbss
    · rename_i hs
      obtain ⟨hle, hrest⟩ := ih hin' h
      refine ⟨hle, fun sh hsh hbss => ?_⟩
      rcases List.mem_cons.mp hsh with rfl | hsh
      · exact absurd hbss hs
      · exact hrest sh hsh hbss

/-! ## The image -/

/-- A word is read back from its bytes. -/
theorem wordAt_bytes {f : Nat → Byte} {off v : Word} (hoff : off.toNat + 3 < 2 ^ 32)
    (hf : ∀ i < 4, f (off.toNat + i) = v.extractLsb' (8 * i) 8) : wordAt f off = v := by
  have h0 := hf 0 (by decide)
  have h1 := hf 1 (by decide)
  have h2 := hf 2 (by decide)
  have h3 := hf 3 (by decide)
  have e1 : (off + 1#32).toNat = off.toNat + 1 := by
    rw [BitVec.toNat_add, BitVec.toNat_ofNat]
    omega
  have e2 : (off + 2#32).toNat = off.toNat + 2 := by
    rw [BitVec.toNat_add, BitVec.toNat_ofNat]
    omega
  have e3 : (off + 3#32).toNat = off.toNat + 3 := by
    rw [BitVec.toNat_add, BitVec.toNat_ofNat]
    omega
  unfold wordAt
  rw [e1, e2, e3, h1, h2, h3, ← Nat.add_zero off.toNat, h0]
  apply BitVec.eq_of_getLsbD_eq
  intro i hi
  interval_cases i <;> simp

/-- The field number `k` of the header. -/
theorem wordAt_file (img : Image) {k : Nat} (hk : k < 5) :
    wordAt img.file (BitVec.ofNat 32 (4 * k)) = img.header k := by
  have htoNat : (BitVec.ofNat 32 (4 * k)).toNat = 4 * k := by
    rw [BitVec.toNat_ofNat]
    omega
  refine wordAt_bytes (by omega) fun i hi => ?_
  rw [htoNat]
  unfold Image.file
  simp only
  rw [if_pos (by omega), show (4 * k + i) / 4 = k by omega, show (4 * k + i) % 4 = i by omega]

/-- **The header is read back.** -/
theorem imageHeader_file (img : Image) :
    imageHeader img.file =
      ⟨img.code_size, img.rodata_size, img.rwdata_size, img.bss_size, img.stack_size⟩ := by
  have h0 : wordAt img.file 0#32 = img.code_size := wordAt_file img (k := 0) (by decide)
  have h1 : wordAt img.file 4#32 = img.rodata_size := wordAt_file img (k := 1) (by decide)
  have h2 : wordAt img.file 8#32 = img.rwdata_size := wordAt_file img (k := 2) (by decide)
  have h3 : wordAt img.file 12#32 = img.bss_size := wordAt_file img (k := 3) (by decide)
  have h4 : wordAt img.file 16#32 = img.stack_size := wordAt_file img (k := 4) (by decide)
  unfold imageHeader
  rw [h0, h1, h2, h3, h4]

/-! ## The guest that is set up -/

/-- The sizes that a guest is set up with leave every section its place: they fit in 32 bits, stack
and heap each on their side of `RISCV_HALF`, and the heap has room for the header of the arena. -/
structure Fits (h : ImageHeader) (ram_bytes stack_bytes : Word) : Prop where
  sum : (initStack h stack_bytes).toNat +
    (h.rwdata_size.toNat + h.bss_size.toNat + (initRam ram_bytes).toNat) < 2 ^ 32
  stack : (initStack h stack_bytes).toNat ≤ 2 ^ 31
  heap : h.rwdata_size.toNat + h.bss_size.toNat + (initRam ram_bytes).toNat ≤ 2 ^ 31
  room : dataEnd h + 8 ≤ h.rwdata_size.toNat + h.bss_size.toNat + (initRam ram_bytes).toNat

/-- A load of one byte: what `mem_r` finds. -/
def loadByte {H : Type} (s : State H) (a : Word) : Option Byte :=
  (memR s a 1#32).map fun q => s.byte q 0

theorem loadByte_writable {H : Type} {s : State H} {a : Word} {o : Nat}
    (h : s.writable.hit a 1#32 = some o) : loadByte s a = some (s.mem s.writable.ptr o) := by
  unfold loadByte memR memW
  rw [h]
  rfl

theorem loadByte_readonly {H : Type} {s : State H} {a : Word} {o : Nat}
    (hw : s.writable.hit a 1#32 = none) (h : s.readonly.hit a 1#32 = some o) :
    loadByte s a = some (s.mem s.readonly.ptr o) := by
  unfold loadByte memR memW
  rw [hw, h]
  rfl

/-- An address is in a region when its offset is. -/
theorem hit_byte {g : Region} {a : Word} (h : (a - g.base).toNat < g.len.toNat) :
    g.hit a 1#32 = some (a - g.base).toNat := by
  have hlt : a - g.base < g.len := BitVec.lt_def.mpr h
  refine if_pos ⟨hlt, ?_⟩
  rw [BitVec.le_def, BitVec.toNat_sub_of_le (BitVec.le_of_lt hlt), show (1#32).toNat = 1 from rfl]
  omega

theorem hit_none {g : Region} {a : Word} (h : g.len.toNat ≤ (a - g.base).toNat) :
    g.hit a 1#32 = none := by
  refine if_neg fun hc => ?_
  have hlt := BitVec.lt_def.mp hc.1
  omega

section
variable {U : Type} (img : Image) (stack : Word) (user : U)

theorem initMem_rodata {o : Nat} (ho : o < img.rodata_size.toNat) :
    initMem img.file (imageHeader img.file) stack rodataBuf o = img.rodata o := by
  rw [imageHeader_file]
  unfold initMem Image.file
  simp only
  rw [if_neg fun hc => absurd hc.1 (by decide), if_pos ⟨trivial, ho⟩, if_neg (by omega),
    if_neg (by omega), if_pos (by omega), Nat.add_sub_cancel_left]

theorem initMem_rwdata {o : Nat} (ho : o < img.rwdata_size.toNat) :
    initMem img.file (imageHeader img.file) stack writableBuf (stack.toNat + o) = img.rwdata o := by
  rw [imageHeader_file]
  unfold initMem Image.file
  simp only
  rw [if_neg fun hc => absurd hc.1 (by decide), if_neg fun hc => absurd hc.1 (by decide),
    if_pos ⟨trivial, by omega, by omega⟩, if_neg (by omega), if_neg (by omega), if_neg (by omega)]
  congr 1
  omega

theorem initMem_zero {o : Nat} (ho : img.rwdata_size.toNat ≤ o) :
    initMem img.file (imageHeader img.file) stack writableBuf (stack.toNat + o) = 0#8 := by
  rw [imageHeader_file]
  unfold initMem
  simp only
  rw [if_neg fun hc => absurd hc.1 (by decide), if_neg fun hc => absurd hc.1 (by decide),
    if_neg (by omega)]

end

section
variable {U : Type} (image : Nat → Byte) {h : ImageHeader} {ram_bytes stack_bytes : Word}
  (hfit : Fits h ram_bytes stack_bytes) (user : U)
include hfit

/-- The header of the arena is past the data. -/
theorem initRun_mem {b : Buf} {o : Nat}
    (ho : b ≠ writableBuf ∨ o < (initStack h stack_bytes).toNat + dataEnd h) :
    (initRun image h (initStack h stack_bytes) (heapLen h ram_bytes) user).s.mem b o =
      initMem image h (initStack h stack_bytes) b o := by
  obtain ⟨hsum, -, -, hroom⟩ := hfit
  have hoff := arenaBase_offset h (initStack h stack_bytes)
  rw [Nat.mod_eq_of_lt (by omega)] at hoff
  have hnext : (arenaBase h + 4#32 - (RISCV_HALF - initStack h stack_bytes)).toNat =
      (initStack h stack_bytes).toNat + dataEnd h + 4 := by
    rw [arena_offset] at hoff ⊢
    rw [BitVec.toNat_add, show (4#32).toNat = 4 from rfl]
    omega
  show (stLe (stLe (initState image h (initStack h stack_bytes) (heapLen h ram_bytes) user)
    (writableBuf, (arenaBase h - (RISCV_HALF - initStack h stack_bytes)).toNat) 4 (arenaBase h))
    (writableBuf, (arenaBase h + 4#32 - (RISCV_HALF - initStack h stack_bytes)).toNat) 4
      0#32).mem b o = _
  rw [hoff, hnext, stLe_four, stLe_four]
  simp only
  rw [if_neg, if_neg]
  · rfl
  · rintro ⟨rfl, h1, -⟩
    rcases ho with ho | ho
    · exact ho rfl
    · omega
  · rintro ⟨rfl, h1, -⟩
    rcases ho with ho | ho
    · exact ho rfl
    · omega

omit hfit in
/-- The regions of the guest. -/
theorem initRun_regions (h : ImageHeader) (ram_bytes stack_bytes : Word) :
    (initRun image h (initStack h stack_bytes) (heapLen h ram_bytes) user).s.writable =
        ⟨writableBuf, initStack h stack_bytes + heapLen h ram_bytes,
          RISCV_HALF - initStack h stack_bytes⟩ ∧
      (initRun image h (initStack h stack_bytes) (heapLen h ram_bytes) user).s.readonly =
        ⟨rodataBuf, h.rodata_size, 0#32 - h.rodata_size⟩ := by
  unfold initRun purvaSetSize purvaSetNext purvaSt
  simp only [stLe_writable, stLe_readonly]
  exact ⟨rfl, rfl⟩

/-- The writable region of the guest, as numbers. -/
theorem writable_toNat :
    (initStack h stack_bytes + heapLen h ram_bytes).toNat = (initStack h stack_bytes).toNat +
      (h.rwdata_size.toNat + h.bss_size.toNat + (initRam ram_bytes).toNat) := by
  obtain ⟨hsum, -, hheap, -⟩ := hfit
  rw [BitVec.toNat_add, heapLen_toNat]
  omega

/-- The offset of an address of the heap side. -/
theorem heap_offset {a : Word} (ha : 2 ^ 31 ≤ a.toNat) :
    (a - (RISCV_HALF - initStack h stack_bytes)).toNat =
      (initStack h stack_bytes).toNat + (a.toNat - 2 ^ 31) := by
  have hstack := hfit.stack
  rw [arena_offset]
  omega

/-- A load from data or bss. -/
theorem load_writable {a : Word} (hlo : 2 ^ 31 ≤ a.toNat)
    (hhi : a.toNat < 2 ^ 31 + (h.rwdata_size.toNat + h.bss_size.toNat)) :
    loadByte (initRun image h (initStack h stack_bytes) (heapLen h ram_bytes) user).s a =
      some (initMem image h (initStack h stack_bytes) writableBuf
        ((initStack h stack_bytes).toNat + (a.toNat - 2 ^ 31))) := by
  have hoff := heap_offset hfit hlo
  have hlen := writable_toNat hfit
  have hram := initRam_pos ram_bytes
  have hend : h.rwdata_size.toNat + h.bss_size.toNat ≤ dataEnd h := by
    unfold dataEnd
    omega
  obtain ⟨hw, -⟩ := initRun_regions image user h ram_bytes stack_bytes
  have hmem := initRun_mem image hfit user (b := writableBuf)
    (o := (initStack h stack_bytes).toNat + (a.toNat - 2 ^ 31)) (Or.inr (by omega))
  generalize initRun image h (initStack h stack_bytes) (heapLen h ram_bytes) user = i at hw hmem ⊢
  have hhit := hit_byte (g := i.s.writable) (a := a) (by
    rw [hw]
    simp only
    omega)
  rw [loadByte_writable hhit, hw]
  simp only
  rw [hoff, hmem]

/-- A load from rodata, above the heap. -/
theorem load_rodata {a : Word} (hlo : 2 ^ 31 + (h.rwdata_size.toNat + h.bss_size.toNat +
    (initRam ram_bytes).toNat) ≤ a.toNat) (hhi : 2 ^ 32 - h.rodata_size.toNat ≤ a.toNat) :
    loadByte (initRun image h (initStack h stack_bytes) (heapLen h ram_bytes) user).s a =
      some (initMem image h (initStack h stack_bytes) rodataBuf
        (a.toNat - (2 ^ 32 - h.rodata_size.toNat))) := by
  have hoff := heap_offset hfit (a := a) (by omega)
  have hlen := writable_toNat hfit
  have ha := a.isLt
  have hr := h.rodata_size.isLt
  have hrel : (a - (0#32 - h.rodata_size)).toNat = a.toNat - (2 ^ 32 - h.rodata_size.toNat) := by
    rw [BitVec.toNat_sub, BitVec.toNat_sub, show (0#32).toNat = 0 from rfl]
    omega
  obtain ⟨hw, hro⟩ := initRun_regions image user h ram_bytes stack_bytes
  have hmem := initRun_mem image hfit user (b := rodataBuf)
    (o := a.toNat - (2 ^ 32 - h.rodata_size.toNat)) (Or.inl (by decide))
  generalize initRun image h (initStack h stack_bytes) (heapLen h ram_bytes) user = i
    at hw hro hmem ⊢
  have hmiss := hit_none (g := i.s.writable) (a := a) (by
    rw [hw]
    simp only
    omega)
  have hhit := hit_byte (g := i.s.readonly) (a := a) (by
    rw [hro]
    simp only
    omega)
  rw [loadByte_readonly hmiss hhit, hro]
  simp only
  rw [hrel, hmem]

end

/-! ## The whole way -/

/-- What the tool gathers. -/
theorem gather_some {eh : Elf} {g : Gathered} (hg : gather eh = some g) :
    mergeProgbits eh false false MERGE_AUTO_BASE = some g.rodata ∧
      mergeProgbits eh false true RISCV_HALF = some g.rwdata ∧
      (g.rodata.len ≠ 0#32 → g.rodata.base = 0#32 - g.rodata.len) ∧
      ∃ top, nobitsTop eh (RISCV_HALF + g.rwdata.len) = some top ∧
        g.bss_len = top - (RISCV_HALF + g.rwdata.len) := by
  unfold gather at hg
  split at hg
  · cases hg
  · split at hg
    · rename_i code rodata rwdata hcode hrodata hrwdata
      split at hg
      · cases hg
      · split at hg
        · cases hg
        · rename_i hbase
          obtain ⟨top, htop, hgt⟩ := Option.map_eq_some_iff.mp hg
          cases hgt
          refine ⟨hrodata, hrwdata, fun hlen => ?_, top, htop, rfl⟩
          exact Decidable.of_not_not fun hne => hbase ⟨hlen, hne⟩
    · cases hg

/-- What it does with the data. -/
theorem translate_data {eh : Elf} {g : Gathered} {img : Image} {ps : List Patch × List Patch}
    (h : translate eh g = some (img, ps)) :
    img.rodata_size = g.rodata.len ∧ img.rwdata_size = g.rwdata.len ∧
      img.bss_size = g.bss_len ∧ img.rodata = (ps.1.foldl Merged.patch g.rodata).buf ∧
      img.rwdata = (ps.2.foldl Merged.patch g.rwdata).buf := by
  unfold translate at h
  split at h
  · cases h
  · simp only at h
    split at h
    · split at h
      · cases h
      · obtain ⟨ops, -, hops⟩ := Option.map_eq_some_iff.mp h
        cases hops
        exact ⟨rfl, rfl, rfl, rfl, rfl⟩
    · cases h

theorem gather_code {eh : Elf} {g : Gathered} (hg : gather eh = some g) :
    mergeProgbits eh true false 0#32 = some g.code := by
  unfold gather at hg
  split at hg
  · cases hg
  · split at hg
    · rename_i code rodata rwdata hcode hrodata hrwdata
      split at hg
      · cases hg
      · split at hg
        · cases hg
        · obtain ⟨top, -, htop⟩ := Option.map_eq_some_iff.mp hg
          cases htop
          exact hcode
    · cases hg

/-- What the tool goes through. -/
theorem tctool_some {eh : Elf} {img : Image} {ps : List Patch × List Patch}
    (h : tctool eh = some (img, ps)) : ∃ rodata rwdata top,
      mergeProgbits eh false false MERGE_AUTO_BASE = some rodata ∧
      mergeProgbits eh false true RISCV_HALF = some rwdata ∧
      (rodata.len ≠ 0#32 → rodata.base = 0#32 - rodata.len) ∧
      nobitsTop eh (RISCV_HALF + rwdata.len) = some top ∧
      img.rodata_size = rodata.len ∧ img.rwdata_size = rwdata.len ∧
      img.bss_size = top - (RISCV_HALF + rwdata.len) ∧
      img.rodata = (ps.1.foldl Merged.patch rodata).buf ∧
      img.rwdata = (ps.2.foldl Merged.patch rwdata).buf := by
  unfold tctool at h
  obtain ⟨g, hg, ht⟩ := Option.bind_eq_some_iff.mp h
  obtain ⟨hrodata, hrwdata, hbase, top, htop, hbss⟩ := gather_some hg
  obtain ⟨h1, h2, h3, h4, h5⟩ := translate_data ht
  exact ⟨g.rodata, g.rwdata, top, hrodata, hrwdata, hbase, htop, h1, h2, h3.trans hbss, h4, h5⟩

/-- What a relocation is for. -/
def Elf.target (eh : Elf) (x : Shdr × Rela) : Word := eh.symValue x.1 x.2 + x.2.r_addend

/-- A word that a relocation is for is patched. -/
theorem mem_patchRela {eh : Elf} {sh : Shdr} {m : Merged} {map : Nat → Word} {len : Word}
    {p : Patch} : p ∈ patchRela eh sh m map len ↔ ∃ r ∈ sh.relas, r.type = R_RISCV_32 ∧
      eh.target (sh, r) < len ∧ map (eh.target (sh, r) >>> 1).toNat ≠ TC_SENTINEL ∧
      m.base ≤ r.r_offset ∧ r.r_offset - m.base + 4#32 ≤ m.len ∧
      p = ⟨r.r_offset, map (eh.target (sh, r) >>> 1).toNat * 4#32⟩ := by
  unfold patchRela Elf.target
  rw [List.mem_filterMap]
  constructor
  · rintro ⟨r, hr, h⟩
    simp only at h
    split at h
    · cases h
    · rename_i htype
      split at h
      · cases h
      · rename_i hlt
        split at h
        · cases h
        · rename_i hmap
          split at h
          · cases h
          · rename_i hin
            rw [not_or] at hin
            exact ⟨r, hr, Classical.not_not.1 htype, BitVec.not_le.1 hlt, hmap,
              BitVec.not_lt.1 hin.1, BitVec.not_lt.1 hin.2, (Option.some.inj h).symm⟩
  · rintro ⟨r, hr, htype, hlt, hmap, h1, h2, rfl⟩
    refine ⟨r, hr, ?_⟩
    simp only
    rw [if_neg (Classical.not_not.2 htype), if_neg (BitVec.not_le.2 hlt), if_neg hmap,
      if_neg (not_or.2 ⟨BitVec.not_lt.2 h1, BitVec.not_lt.2 h2⟩)]

/-- **What is patched is a pointer into the code**: a word that an `R_RISCV_32` relocation is for. -/
theorem tctool_patches {eh : Elf} {img : Image} {ps : List Patch × List Patch}
    (h : tctool eh = some (img, ps)) {p : Patch} (hp : p ∈ ps.1 ++ ps.2) :
    ∃ code, mergeProgbits eh true false 0#32 = some code ∧ ∃ sh ∈ eh.shdrs, ∃ r ∈ sh.relas,
      r.type = R_RISCV_32 ∧ p.addr = r.r_offset ∧ eh.target (sh, r) < code.len := by
  unfold tctool at h
  obtain ⟨g, hg, ht⟩ := Option.bind_eq_some_iff.mp h
  have hcode : mergeProgbits eh true false 0#32 = some g.code := gather_code hg
  refine ⟨g.code, hcode, ?_⟩
  have hpatched : ∀ {m : Merged} {map : Nat → Word} {b : Shdr → Bool},
      p ∈ eh.shdrs.flatMap (fun sh => if b sh then patchRela eh sh m map g.code.len else []) →
        ∃ sh ∈ eh.shdrs, ∃ r ∈ sh.relas,
          r.type = R_RISCV_32 ∧ p.addr = r.r_offset ∧ eh.target (sh, r) < g.code.len := by
    intro m map b hmem
    obtain ⟨sh, hsh, hq⟩ := List.mem_flatMap.mp hmem
    split at hq
    · obtain ⟨r, hr, htype, hlt, -, -, -, rfl⟩ := mem_patchRela.mp hq
      exact ⟨sh, hsh, r, hr, htype, rfl, hlt⟩
    · exact absurd hq List.not_mem_nil
  unfold translate at ht
  split at ht
  · cases ht
  · simp only at ht
    split at ht
    · split at ht
      · cases ht
      · obtain ⟨ops, -, hops⟩ := Option.map_eq_some_iff.mp ht
        cases hops
        rcases List.mem_append.mp hp with hp | hp
        · exact hpatched hp
        · exact hpatched hp
    · cases ht

/-- The base that is read back from the file is the address of a section. -/
theorem mergeProgbits_first {eh : Elf} (hl : Linked eh) {x w : Bool} {m : Merged}
    (hm : mergeProgbits eh x w MERGE_AUTO_BASE = some m) {sh : Shdr} (hsh : sh ∈ eh.shdrs)
    (hw : wanted x w sh) : ∃ s ∈ eh.shdrs, wanted x w s ∧ m.base = s.sh_addr := by
  have hmem := fun t => mem_spans hl x w (s := t)
  unfold mergeProgbits at hm
  cases hL : sortSpans (spans eh x w) with
  | nil =>
    rw [hL] at hmem
    exact absurd ((hmem sh.span).mpr ⟨sh, hsh, hw, rfl⟩) List.not_mem_nil
  | cons s ss =>
    rw [hL] at hm hmem
    obtain ⟨sh', hsh', hw', rfl⟩ := (hmem s).mp List.mem_cons_self
    refine ⟨sh', hsh', hw', ?_⟩
    simp only at hm
    rw [if_neg fun hc => hc.1 rfl] at hm
    rw [← Option.some.inj hm]
    exact if_pos (e := MERGE_AUTO_BASE) trivial

theorem mergeProgbits_none {eh : Elf} {x w : Bool} {base : Word} {m : Merged}
    (hm : mergeProgbits eh x w base = some m) (hnone : ∀ sh ∈ eh.shdrs, ¬ wanted x w sh) :
    m.len = 0#32 := by
  have hnil : sortSpans (spans eh x w) = [] := by
    unfold sortSpans spans
    rw [List.filter_eq_nil_iff.mpr hnone]
    rfl
  unfold mergeProgbits at hm
  rw [hnil] at hm
  cases hm
  rfl

/-- A guest is loaded as the file says: the sections with bytes, the sections without, the gaps, and
where the three clusters are.  Patched words, which are pointers into the code, hold something
else. -/
structure Loaded {U : Type} (eh : Elf) (patches : List Patch) (img : Image)
    (s : State (PurvaRun U)) : Prop where
  held : ∀ w, ∀ sh ∈ eh.shdrs, wanted false w sh → ∀ a, sh.Holds a →
    (∀ p ∈ patches, 4 ≤ (a - p.addr).toNat) → loadByte s a = some (sh.byteAt a)
  bss : ∀ sh ∈ eh.shdrs, isBss sh → ∀ a, sh.Holds a → loadByte s a = some 0#8
  rodataGap : ∀ a : Word, 2 ^ 32 - img.rodata_size.toNat ≤ a.toNat →
    (∀ sh ∈ eh.shdrs, wanted false false sh → ¬ sh.Holds a) →
      (∀ p ∈ patches, 4 ≤ (a - p.addr).toNat) → loadByte s a = some 0#8
  dataGap : ∀ a : Word, 2 ^ 31 ≤ a.toNat →
    a.toNat < 2 ^ 31 + (img.rwdata_size.toNat + img.bss_size.toNat) →
      (∀ sh ∈ eh.shdrs, wanted false true sh → ¬ sh.Holds a) →
        (∀ p ∈ patches, 4 ≤ (a - p.addr).toNat) → loadByte s a = some 0#8
  rodata : s.readonly.base = 0#32 - img.rodata_size ∧ s.readonly.len = img.rodata_size
  rwdata : s.writable.base + s.host.stack_len = RISCV_HALF
  arena : 2 ^ 31 + (img.rwdata_size.toNat + img.bss_size.toNat) ≤ s.host.basep.toNat
  pointers : ∀ p ∈ patches, ∃ code, mergeProgbits eh true false 0#32 = some code ∧
    ∃ sh ∈ eh.shdrs, ∃ r ∈ sh.relas,
      r.type = R_RISCV_32 ∧ p.addr = r.r_offset ∧ eh.target (sh, r) < code.len

section
variable {U : Type} {img : Image} {ram_bytes stack_bytes : Word}
  (hfit : Fits (imageHeader img.file) ram_bytes stack_bytes) (user : U) {m : Merged}
  {ps : List Patch} {a : Word}
include hfit

/-- A byte of rodata that no patch is at. -/
theorem load_file_rodata (hsize : img.rodata_size = m.len)
    (hbuf : img.rodata = (ps.foldl Merged.patch m).buf)
    (hat : m.base.toNat = 2 ^ 32 - m.len.toNat)
    (hfirst : 2 ^ 31 + (img.rwdata_size.toNat + img.bss_size.toNat + (initRam ram_bytes).toNat) ≤
      m.base.toNat)
    (hle : m.base.toNat ≤ a.toNat) (hp : ∀ p ∈ ps, 4 ≤ (a - p.addr).toNat) :
    loadByte (initRun img.file (imageHeader img.file)
      (initStack (imageHeader img.file) stack_bytes)
      (heapLen (imageHeader img.file) ram_bytes) user).s a =
        some (m.buf (a.toNat - m.base.toNat)) := by
  have hload := load_rodata img.file hfit user (a := a)
  simp only [show (imageHeader img.file).rodata_size = img.rodata_size by rw [imageHeader_file],
    show (imageHeader img.file).rwdata_size = img.rwdata_size by rw [imageHeader_file],
    show (imageHeader img.file).bss_size = img.bss_size by rw [imageHeader_file]] at hload
  have ha := a.isLt
  have hlen := m.len.isLt
  rw [hload (by omega) (by rw [hsize]; omega), hsize, ← hat,
    initMem_rodata img _ (by rw [hsize]; omega), hbuf, patched_buf m hle hp]

/-- A byte of rwdata that no patch is at. -/
theorem load_file_rwdata (hsize : img.rwdata_size = m.len)
    (hbuf : img.rwdata = (ps.foldl Merged.patch m).buf) (hat : m.base.toNat = 2 ^ 31)
    (hlo : 2 ^ 31 ≤ a.toNat) (hhi : a.toNat < 2 ^ 31 + m.len.toNat)
    (hp : ∀ p ∈ ps, 4 ≤ (a - p.addr).toNat) :
    loadByte (initRun img.file (imageHeader img.file)
      (initStack (imageHeader img.file) stack_bytes)
      (heapLen (imageHeader img.file) ram_bytes) user).s a =
        some (m.buf (a.toNat - m.base.toNat)) := by
  have hload := load_writable img.file hfit user (a := a)
  simp only [show (imageHeader img.file).rwdata_size = img.rwdata_size by rw [imageHeader_file],
    show (imageHeader img.file).bss_size = img.bss_size by rw [imageHeader_file]] at hload
  rw [hload hlo (by rw [hsize]; omega), initMem_rwdata img _ (by rw [hsize]; omega), hbuf, ← hat,
    patched_buf m (by omega) hp]

/-- A byte behind them. -/
theorem load_file_bss (hlo : 2 ^ 31 + img.rwdata_size.toNat ≤ a.toNat)
    (hhi : a.toNat < 2 ^ 31 + (img.rwdata_size.toNat + img.bss_size.toNat)) :
    loadByte (initRun img.file (imageHeader img.file)
      (initStack (imageHeader img.file) stack_bytes)
      (heapLen (imageHeader img.file) ram_bytes) user).s a = some 0#8 := by
  have hload := load_writable img.file hfit user (a := a)
  simp only [show (imageHeader img.file).rwdata_size = img.rwdata_size by rw [imageHeader_file],
    show (imageHeader img.file).bss_size = img.bss_size by rw [imageHeader_file]] at hload
  rw [hload (by omega) hhi, initMem_zero img _ (by omega)]

end

/-- **Data keeps its linked address** from the file to the guest, when the sizes leave every section
its place and the heap ends below rodata. -/
theorem tctool_loaded {U : Type} (eh : Elf) (hl : Linked eh) (img : Image)
    (ps : List Patch × List Patch) (htc : tctool eh = some (img, ps))
    (ram_bytes stack_bytes : Word) (oom : Bool) (user : U) (i : Init U)
    (hi : purvaRunInit img.file img.fileLen ram_bytes stack_bytes oom user = some i)
    (hfit : Fits (imageHeader img.file) ram_bytes stack_bytes)
    (happart : ∀ sh ∈ eh.shdrs, wanted false false sh →
      2 ^ 31 + (img.rwdata_size.toNat + img.bss_size.toNat + (initRam ram_bytes).toNat) ≤
        sh.sh_addr.toNat) : Loaded eh (ps.1 ++ ps.2) img i.s := by
  obtain ⟨rodata, rwdata, top, hro, hrw, hrobase, htop, hrosize, hrwsize, hbsssize, hrobuf,
    hrwbuf⟩ := tctool_some htc
  obtain ⟨-, hrun⟩ | ⟨-, hrun⟩ :=
    purvaRunInit_eq img.file img.fileLen ram_bytes stack_bytes oom user
  · rw [hrun] at hi
    cases hi
  rw [hrun] at hi
  cases hi
  have hregions := initRun_regions img.file user (imageHeader img.file) ram_bytes stack_bytes
  have hbasep := arenaBase_toNat (imageHeader img.file)
  have hsizes : (imageHeader img.file).rodata_size = img.rodata_size ∧
      (imageHeader img.file).rwdata_size = img.rwdata_size ∧
      (imageHeader img.file).bss_size = img.bss_size := by
    rw [imageHeader_file]
    exact ⟨rfl, rfl, rfl⟩
  have hheap := hfit.heap
  have hroom := hfit.room
  have hend : img.rwdata_size.toNat + img.bss_size.toNat ≤ dataEnd (imageHeader img.file) := by
    unfold dataEnd
    rw [hsizes.2.1, hsizes.2.2]
    omega
  rw [hsizes.2.1, hsizes.2.2] at hheap hroom
  -- rodata
  have hropos : ∀ sh ∈ eh.shdrs, wanted false false sh →
      2 ^ 31 + (img.rwdata_size.toNat + img.bss_size.toNat + (initRam ram_bytes).toNat) ≤
        rodata.base.toNat := by
    intro sh hsh hw
    obtain ⟨sh0, hsh0, hw0, hbase⟩ := mergeProgbits_first hl hro hsh hw
    rw [hbase]
    exact happart sh0 hsh0 hw0
  have hmr : Merges eh false false rodata := mergeProgbits_buf hl hro fun sh hsh hw => by
    have hpos := hropos sh hsh hw
    exact Or.inl (by omega)
  have hroat : rodata.len ≠ 0#32 → rodata.base.toNat = 2 ^ 32 - rodata.len.toNat := by
    intro hlen
    have hpos : rodata.len.toNat ≠ 0 := fun h0 => hlen (BitVec.eq_of_toNat_eq h0)
    rw [hrobase hlen, BitVec.toNat_sub, show (0#32).toNat = 0 from rfl]
    omega
  have hrofirst : rodata.len ≠ 0#32 →
      2 ^ 31 + (img.rwdata_size.toNat + img.bss_size.toNat + (initRam ram_bytes).toNat) ≤
        rodata.base.toNat := by
    intro hlen
    by_cases hex : ∃ sh ∈ eh.shdrs, wanted false false sh
    · obtain ⟨sh, hsh, hw⟩ := hex
      exact hropos sh hsh hw
    · exact absurd (mergeProgbits_none hro fun sh hsh hw => hex ⟨sh, hsh, hw⟩) hlen
  have hroload : ∀ a : Word, rodata.len ≠ 0#32 → rodata.base.toNat ≤ a.toNat →
      (∀ p ∈ ps.1 ++ ps.2, 4 ≤ (a - p.addr).toNat) →
        loadByte (initRun img.file (imageHeader img.file)
          (initStack (imageHeader img.file) stack_bytes)
          (heapLen (imageHeader img.file) ram_bytes) user).s a =
            some (rodata.buf (a.toNat - rodata.base.toNat)) :=
    fun a hlen hle hp => load_file_rodata hfit user hrosize hrobuf (hroat hlen)
      (hrofirst hlen) hle fun p hp' => hp p (List.mem_append_left _ hp')
  -- rwdata and bss
  have hrwbase : rwdata.base = RISCV_HALF := mergeProgbits_base hrw (by decide)
  have hrwat : rwdata.base.toNat = 2 ^ 31 := by rw [hrwbase, half_toNat]
  have hmw : Merges eh false true rwdata :=
    mergeProgbits_buf hl hrw fun sh hsh hw => Or.inl (by omega)
  have hrwload : ∀ a : Word, 2 ^ 31 ≤ a.toNat → a.toNat < 2 ^ 31 + rwdata.len.toNat →
      (∀ p ∈ ps.1 ++ ps.2, 4 ≤ (a - p.addr).toNat) →
        loadByte (initRun img.file (imageHeader img.file)
          (initStack (imageHeader img.file) stack_bytes)
          (heapLen (imageHeader img.file) ram_bytes) user).s a =
            some (rwdata.buf (a.toNat - rwdata.base.toNat)) :=
    fun a hlo hhi hp => load_file_rwdata hfit user hrwsize hrwbuf hrwat hlo hhi
      fun p hp' => hp p (List.mem_append_right _ hp')
  have hzload : ∀ a : Word, 2 ^ 31 + rwdata.len.toNat ≤ a.toNat →
      a.toNat < 2 ^ 31 + (img.rwdata_size.toNat + img.bss_size.toNat) →
        loadByte (initRun img.file (imageHeader img.file)
          (initStack (imageHeader img.file) stack_bytes)
          (heapLen (imageHeader img.file) ram_bytes) user).s a = some 0#8 :=
    fun a hlo hhi => load_file_bss hfit user (by rw [hrwsize]; exact hlo) hhi
  constructor
  case held =>
    intro w sh hsh hw a ha hp
    cases w with
    | false =>
      obtain ⟨h1, h2, h3⟩ := hmr.held sh hsh hw a ha
      have hlen : rodata.len ≠ 0#32 := fun h0 => by
        rw [h0, show (0#32).toNat = 0 from rfl] at h2
        omega
      rw [hroload a hlen h1 hp, h3]
    | true =>
      obtain ⟨h1, h2, h3⟩ := hmw.held sh hsh hw a ha
      rw [hrwload a (by omega) (by omega) hp, h3]
  case bss =>
    intro sh hsh hb a ha
    obtain ⟨hle, hall⟩ := nobitsTopFrom_top hl.bss htop
    obtain ⟨hlo, hhi⟩ := hall sh hsh hb
    obtain ⟨ha1, ha2⟩ := ha
    rw [BitVec.le_def, BitVec.toNat_add, half_toNat] at hle hlo
    have hbss : img.bss_size.toNat = top.toNat - (2 ^ 31 + rwdata.len.toNat) % 2 ^ 32 := by
      rw [hbsssize, BitVec.toNat_sub_of_le, BitVec.toNat_add, half_toNat]
      rw [BitVec.le_def, BitVec.toNat_add, half_toNat]
      exact hle
    have hrwlen : img.rwdata_size.toNat = rwdata.len.toNat := by rw [hrwsize]
    exact hzload a (by omega) (by omega)
  case rodataGap =>
    intro a hlo hnone hp
    have hlen : rodata.len ≠ 0#32 := fun h0 => by
      rw [hrosize, h0, show (0#32).toNat = 0 from rfl] at hlo
      omega
    have hat := hroat hlen
    rw [hrosize] at hlo
    rw [hroload a hlen (by omega) hp, hmr.gap a (by omega) (by omega) hnone]
  case dataGap =>
    intro a hlo hhi hnone hp
    by_cases hin : a.toNat < 2 ^ 31 + rwdata.len.toNat
    · rw [hrwload a hlo hin hp, hmw.gap a (by omega) (by omega) hnone]
    · exact hzload a (by omega) hhi
  case rodata =>
    rw [hregions.2]
    exact ⟨by rw [hsizes.1], hsizes.1⟩
  case rwdata =>
    rw [hregions.1]
    exact BitVec.sub_add_cancel RISCV_HALF _
  case arena =>
    show _ ≤ (arenaBase (imageHeader img.file)).toNat
    rw [hbasep]
    omega
  case pointers => exact fun p hp => tctool_patches htc hp

/-- An `ecall` at 0, and four bytes of rodata at the top. -/
def smallElf : Elf where
  magic := true
  e_entry := 0#32
  shdrs :=
    [⟨SHT_PROGBITS, SHF_ALLOC ||| SHF_EXECINSTR, 0#32, 4#32, 0#32, 0#32,
        fun o => if o = 0 then 0x73#8 else 0#8⟩,
      ⟨SHT_PROGBITS, SHF_ALLOC, 0xfffffffc#32, 4#32, 0#32, 0#32, fun _ => 1#8⟩]

theorem smallElf_linked : Linked smallElf where
  few := by decide
  disjoint := by decide
  inside := by decide
  bss := by decide

theorem tctool_loaded_small : ∃ img ps i, tctool smallElf = some (img, ps) ∧
    purvaRunInit img.file img.fileLen 0#32 0#32 false () = some i ∧
      Loaded smallElf (ps.1 ++ ps.2) img i.s := by
  refine ⟨_, _, _, rfl, rfl, tctool_loaded smallElf smallElf_linked _ _ rfl 0#32 0#32 false () _
    rfl ?_ ?_⟩
  · constructor <;> decide
  · decide

/-- With RAM up to the last address, no size wraps, but a load from rodata finds the heap. -/
theorem loaded_shadowed : ∃ img ps i, tctool smallElf = some (img, ps) ∧
    purvaRunInit img.file img.fileLen 0x7fffffff#32 0#32 false () = some i ∧
      HasRoom (imageHeader img.file) 0x7fffffff#32 0#32 ∧
        RISCV_HALF < i.s.host.heap_top ∧ ¬ Loaded smallElf (ps.1 ++ ps.2) img i.s := by
  refine ⟨_, _, _, rfl, rfl, ?_, ?_, ?_⟩
  · constructor
    · decide
    · decide
  · decide
  · intro h
    have hheld := h.held false _ (List.mem_cons_of_mem _ (List.mem_singleton_self _)) (by decide)
      0xfffffffc#32 (by constructor <;> decide) (by decide)
    revert hheld
    decide

end Purv.Tctool

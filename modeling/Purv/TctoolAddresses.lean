import Purv.TctoolAuipcs
import Purv.TctoolData
import Purv.TctoolMerge

/-!
# Code addresses in an image

An instruction of the code is referred to by words of data, and by pairs of instructions.

* `Translated` — every reference to an instruction is the address of its op;
* `Placed` — where a linker puts the words and the pairs;
* `Handled` — the references that the tool translates: no absolute pairs and no far calls;
* `patch_word`, `section_word` — the words;
* `translated_pair` — the pairs;
* `tctool_translated` — the tool translates what it handles, and a far call that it does not.
-/

namespace Purv.Tctool

open Bits Transcode Steps Purva

/-! ## References -/

def R_RISCV_CALL : Word := 18#32

def R_RISCV_CALL_PLT : Word := 19#32

def R_RISCV_HI20 : Word := 26#32

def R_RISCV_LO12_I : Word := 27#32

def R_RISCV_LO12_S : Word := 28#32

/-- An instruction of the code starts at `a`. -/
def Starts (len a : Word) : Prop := a.toNat % 4 = 0 ∧ a < len

instance (len a : Word) : Decidable (Starts len a) := inferInstanceAs (Decidable (_ ∧ _))

/-- A buffer holds a word. -/
def HasWord (buf : Nat → Byte) (o : Nat) (v : Word) : Prop :=
  ∀ k < 4, buf (o + k) = v.extractLsb' (8 * k) 8

/-- The op at `hi` leaves a value in its register, and the immediate of the op at `lo` makes it
`v`. -/
def PairComputes (ops : List Word) (hi lo v : Word) : Prop :=
  ∃ w w' u, ops[hi.toNat]? = some w ∧ ops[lo.toNat]? = some w' ∧
    (∀ (H : Type) (hk : Hooks H) (r : Run H) (w2 : Word),
      dispatch hk r hi w w2 = (put r (TC_A w) u, 1, .fall 1)) ∧ u + TC_IMM w' = v

/-- **Every reference to an instruction is translated**: it is the address of its op. -/
structure Translated (eh : Elf) (len : Word) (map : Nat → Word) (img : Image) : Prop where
  rodata : ∀ x ∈ eh.relocs, x.2.type = R_RISCV_32 → Starts len (eh.target x) →
    wanted false false (eh.shdr x.1.sh_info) →
      HasWord img.rodata (x.2.r_offset + img.rodata_size).toNat
        (4#32 * map (eh.target x >>> 1).toNat)
  rwdata : ∀ x ∈ eh.relocs, x.2.type = R_RISCV_32 → Starts len (eh.target x) →
    wanted false true (eh.shdr x.1.sh_info) →
      HasWord img.rwdata (x.2.r_offset - RISCV_HALF).toNat (4#32 * map (eh.target x >>> 1).toNat)
  pcrel : ∀ x ∈ eh.relocs, x.2.type = R_RISCV_PCREL_HI20 → Starts len (eh.target x) →
    ∀ y ∈ eh.relocs, y.2.isLo12 → eh.symValue y.1 y.2 = x.2.r_offset →
      PairComputes img.code (map (x.2.r_offset >>> 1).toNat) (map (y.2.r_offset >>> 1).toNat)
        (4#32 * map (eh.target x >>> 1).toNat)
  abs : ∀ x ∈ eh.relocs, x.2.type = R_RISCV_HI20 → Starts len (eh.target x) →
    ∀ y ∈ eh.relocs, y.2.type = R_RISCV_LO12_I ∨ y.2.type = R_RISCV_LO12_S →
      eh.target y = eh.target x →
        PairComputes img.code (map (x.2.r_offset >>> 1).toNat) (map (y.2.r_offset >>> 1).toNat)
          (4#32 * map (eh.target x >>> 1).toNat)
  call : ∀ x ∈ eh.relocs, x.2.type = R_RISCV_CALL ∨ x.2.type = R_RISCV_CALL_PLT →
    Starts len (eh.target x) →
      PairComputes img.code (map (x.2.r_offset >>> 1).toNat)
        (map ((x.2.r_offset + 4#32) >>> 1).toNat) (4#32 * map (eh.target x >>> 1).toNat)

/-- The references are where a linker puts them: a word in the section that its relocations are for,
no two in one place, and one symbol for each `auipc`; address 0 is code. -/
structure Placed (eh : Elf) : Prop where
  inside : ∀ x ∈ eh.relocs, x.2.type = R_RISCV_32 →
    (eh.shdr x.1.sh_info).sh_addr ≤ x.2.r_offset ∧
      x.2.r_offset.toNat + 4 ≤ (eh.shdr x.1.sh_info).endAt
  apart : ∀ x ∈ eh.relocs, x.2.type = R_RISCV_32 → ∀ x' ∈ eh.relocs, x'.2.type = R_RISCV_32 →
    x.2.r_offset = x'.2.r_offset ∧ eh.target x = eh.target x' ∨
      4 ≤ (x.2.r_offset - x'.2.r_offset).toNat ∧ 4 ≤ (x'.2.r_offset - x.2.r_offset).toNat
  shared : ∀ x ∈ eh.relocs, x.2.type = R_RISCV_PCREL_HI20 → ∀ x' ∈ eh.relocs,
    x'.2.type = R_RISCV_PCREL_HI20 → x.2.r_offset = x'.2.r_offset →
      eh.symValue x.1 x.2 = eh.symValue x'.1 x'.2 ∧ x.2.r_addend = x'.2.r_addend
  code : ∀ sh ∈ eh.shdrs, wanted false false sh → 0 < sh.sh_addr.toNat

/-- The tool translates the references: the pairs are pc-relative ones for a symbol itself, and the
writable sections with references start below the others. -/
structure Handled (eh : Elf) (len : Word) : Prop where
  kind : ∀ x ∈ eh.relocs, Starts len (eh.target x) →
    x.2.type ≠ R_RISCV_HI20 ∧ x.2.type ≠ R_RISCV_CALL ∧ x.2.type ≠ R_RISCV_CALL_PLT
  addend : ∀ x ∈ eh.relocs, x.2.type = R_RISCV_PCREL_HI20 → Starts len (eh.target x) →
    x.2.r_addend = 0#32
  below : ∀ x ∈ eh.relocs, x.2.type = R_RISCV_32 → Starts len (eh.target x) →
    wanted false true (eh.shdr x.1.sh_info) → ∀ sh ∈ eh.shdrs, wanted false false sh →
      (eh.shdr x.1.sh_info).sh_addr < sh.sh_addr

/-! ## Words of data -/

theorem patch_self (m : Merged) (p : Patch) :
    HasWord (m.patch p).buf (p.addr - m.base).toNat p.value := by
  intro k hk
  refine (if_pos ⟨Nat.le_add_right _ k, Nat.add_lt_add_left hk _⟩).trans ?_
  rw [Nat.add_sub_cancel_left]

theorem patch_apart {m : Merged} {p q : Patch} (h1 : 4 ≤ (q.addr - p.addr).toNat)
    (h2 : 4 ≤ (p.addr - q.addr).toNat) {v : Word} (h : HasWord m.buf (p.addr - m.base).toNat v) :
    HasWord (m.patch q).buf (p.addr - m.base).toNat v := by
  -- the difference of the offsets is the one of the addresses
  have hdiff : ∀ a b : Word, a - b = (a - m.base) - (b - m.base) := fun a b => by
    rw [BitVec.sub_sub, BitVec.add_comm, BitVec.sub_add_cancel]
  rw [hdiff] at h1 h2
  intro k hk
  refine (if_neg ?_).trans (h k hk)
  generalize q.addr - m.base = a at *
  generalize p.addr - m.base = b at *
  rintro ⟨h3, h4⟩
  rcases Nat.le_total a.toNat b.toNat with hle | hle
  · rw [BitVec.toNat_sub_of_le (BitVec.le_def.mpr hle)] at h2
    omega
  · rw [BitVec.toNat_sub_of_le (BitVec.le_def.mpr hle)] at h1
    omega

/-- **A patched word is there at the end**, when the other patches are elsewhere. -/
theorem patch_word {ps : List Patch} {p : Patch} (hp : p ∈ ps) (hapart : ∀ q ∈ ps, q = p ∨
    4 ≤ (q.addr - p.addr).toNat ∧ 4 ≤ (p.addr - q.addr).toNat) (m : Merged) :
    HasWord (ps.foldl Merged.patch m).buf (p.addr - m.base).toNat p.value := by
  have hkeep : ∀ (qs : List Patch) (m : Merged), (∀ q ∈ qs, q = p ∨
      4 ≤ (q.addr - p.addr).toNat ∧ 4 ≤ (p.addr - q.addr).toNat) →
      HasWord m.buf (p.addr - m.base).toNat p.value →
      HasWord (qs.foldl Merged.patch m).buf (p.addr - m.base).toNat p.value := by
    intro qs
    induction qs with
    | nil => exact fun m _ h => h
    | cons q qs ih =>
      intro m hqs h
      refine ih (m.patch q) (fun q' hq' => hqs q' (List.mem_cons_of_mem q hq')) ?_
      rcases hqs q List.mem_cons_self with rfl | ⟨h1, h2⟩
      · exact patch_self m q
      · exact patch_apart h1 h2 h
  obtain ⟨qs, qs', rfl⟩ := List.append_of_mem hp
  have hbase : ∀ (qs : List Patch) (m : Merged), (qs.foldl Merged.patch m).base = m.base := by
    intro qs
    induction qs with
    | nil => exact fun m => rfl
    | cons q qs ih => exact fun m => ih (m.patch q)
  rw [List.foldl_append, List.foldl_cons, ← hbase qs m]
  exact hkeep qs' ((qs.foldl Merged.patch m).patch p)
    (fun q hq => hapart q (List.mem_append_right _ (List.mem_cons_of_mem p hq)))
    (patch_self _ p)

/-- A section that is asked for is in the file. -/
theorem wanted_mem {eh : Elf} {i : Word} {x w : Bool} (hw : wanted x w (eh.shdr i)) :
    eh.shdr i ∈ eh.shdrs := by
  unfold Elf.shdr at hw ⊢
  rw [List.getD_eq_getElem?_getD] at hw ⊢
  cases h : eh.shdrs[i.toNat]? with
  | none =>
    rw [h] at hw
    cases hw
  | some sh => exact List.mem_of_getElem? h

/-- It holds its own address. -/
theorem wanted_holds {sh : Shdr} {x w : Bool} (hw : wanted x w sh) : sh.Holds sh.sh_addr :=
  ⟨le_refl _, Nat.lt_add_of_pos_right (wanted_size x w hw)⟩

/-- The words that `main` patches. -/
theorem translate_patches {eh : Elf} {g : Gathered} {img : Image}
    {ps : List Patch × List Patch} (h : translate eh g = some (img, ps)) {map : Nat → Word}
    {n_ops : Word} {fixups : List PcrelFixup}
    (hcol : collectPcrelCodeFixups eh g.code.len = some fixups)
    (hmap : transcodeMapEx g.code.buf g.code.len (collectCodeAddressRelocs eh g.code.len ++
      fixups.map PcrelFixup.lo_off) = some (map, n_ops)) :
    ps = patchAllRelas eh g.rodata g.rwdata map g.code.len := by
  unfold translate at h
  rw [hcol] at h
  simp only at h
  split at h
  · rename_i hmap'
    rw [hmap] at hmap'
    cases hmap'
    split at h
    · cases h
    · obtain ⟨ops', -, heq⟩ := Option.map_eq_some_iff.1 h
      cases heq
      rfl
  · cases h

section
variable {eh : Elf} (hp : Placed eh) {map : Nat → Word} {len : Word} {m : Merged}

/-- The words of a merged section are in its buffer. -/
theorem word_inside (hl : Linked eh) {w : Bool} (hm : Merges eh false w m) (hp : Placed eh)
    {x : Shdr × Rela} (hx : x ∈ eh.relocs) (htype : x.2.type = R_RISCV_32)
    (hw : wanted false w (eh.shdr x.1.sh_info)) :
    m.base ≤ x.2.r_offset ∧ x.2.r_offset - m.base + 4#32 ≤ m.len ∧ inMerged eh x.1 m := by
  obtain ⟨hlo, hhi⟩ := hp.inside x hx htype
  have hsec := wanted_mem hw
  have hend := hl.inside false w _ hsec hw
  have hnext : (x.2.r_offset + 3#32).toNat = x.2.r_offset.toNat + 3 := by
    rw [BitVec.toNat_add]
    exact Nat.mod_eq_of_lt (by
      have : (3#32).toNat = 3 := rfl
      omega)
  rw [BitVec.le_def] at hlo
  obtain ⟨h1, -, -⟩ := hm.held _ hsec hw x.2.r_offset ⟨hlo, by omega⟩
  obtain ⟨-, h2, -⟩ := hm.held _ hsec hw (x.2.r_offset + 3#32) ⟨by omega, by omega⟩
  obtain ⟨h3, h4, -⟩ := hm.held _ hsec hw _ (wanted_holds hw)
  have hbase : m.base ≤ x.2.r_offset := BitVec.le_def.mpr h1
  have hlen := m.len.isLt
  refine ⟨hbase, ?_, ?_⟩
  · rw [BitVec.le_def, BitVec.toNat_add, BitVec.toNat_sub_of_le hbase,
      show (4#32).toNat = 4 from rfl, Nat.mod_eq_of_lt (by omega)]
    omega
  · unfold inMerged
    have hne : m.len ≠ 0#32 := fun h0 => by
      rw [h0, show (0#32).toNat = 0 from rfl] at h4
      omega
    rw [Bool.and_eq_true, bne_iff_ne, decide_eq_true_iff]
    refine ⟨hne, ?_⟩
    rw [BitVec.lt_def, BitVec.toNat_sub_of_le (BitVec.le_def.mpr h3)]
    omega

include hp

/-- **A word for an instruction is the address of its op.** -/
theorem section_word {b : Shdr → Bool} {x : Shdr × Rela} (hx : x ∈ eh.relocs)
    (htype : x.2.type = R_RISCV_32) (hlt : eh.target x < len)
    (hmap : map (eh.target x >>> 1).toNat ≠ TC_SENTINEL) (hbase : m.base ≤ x.2.r_offset)
    (hin : x.2.r_offset - m.base + 4#32 ≤ m.len) (hb : b x.1 = true) :
    HasWord ((eh.shdrs.flatMap fun sh =>
      if b sh then patchRela eh sh m map len else []).foldl Merged.patch m).buf
        (x.2.r_offset - m.base).toNat (4#32 * map (eh.target x >>> 1).toNat) := by
  rw [BitVec.mul_comm]
  obtain ⟨hsh, hr⟩ := mem_relocs.1 hx
  refine @patch_word _ ⟨x.2.r_offset, map (eh.target x >>> 1).toNat * 4#32⟩
    (List.mem_flatMap.2 ⟨x.1, hsh, ?_⟩) (fun q hq => ?_) m
  · rw [if_pos hb]
    exact mem_patchRela.2 ⟨x.2, hr, htype, hlt, hmap, hbase, hin, rfl⟩
  · obtain ⟨sh, hsh', hq⟩ := List.mem_flatMap.1 hq
    split at hq
    · obtain ⟨r, hr', htype', -, -, -, -, rfl⟩ := mem_patchRela.1 hq
      rcases hp.apart (sh, r) (mem_relocs.2 ⟨hsh', hr'⟩) htype' x hx htype with ⟨h1, h2⟩ | h
      · refine .inl ?_
        rw [show r.r_offset = x.2.r_offset from h1, h2]
      · exact .inr h
    · cases hq

end

/-! ## Pairs -/

/-- Every pair of relocations for an instruction is a fixup. -/
theorem collect_all {eh : Elf} {code_len : Word} {fxs : List PcrelFixup}
    (h : collectPcrelCodeFixups eh code_len = some fxs) :
    ∀ x ∈ eh.relocs, x.2.type = R_RISCV_PCREL_HI20 → eh.symValue x.1 x.2 < code_len →
      ∀ fx ∈ pcrelFixups eh x.2.r_offset (eh.symValue x.1 x.2) x.2.r_addend, fx ∈ fxs := by
  refine Folds.foldlM_run (fun (done : List (Shdr × Rela)) (out : List PcrelFixup) => ∀ x ∈ done,
      x.2.type = R_RISCV_PCREL_HI20 → eh.symValue x.1 x.2 < code_len →
        ∀ fx ∈ pcrelFixups eh x.2.r_offset (eh.symValue x.1 x.2) x.2.r_addend, fx ∈ out)
    (fun done x hdone out mid hout hmid => ?_) (List.forall_mem_nil _) h
  have hold : ∀ out' : List PcrelFixup, (∀ fx ∈ out, fx ∈ out') → (x.2.type = R_RISCV_PCREL_HI20 →
      eh.symValue x.1 x.2 < code_len →
        ∀ fx ∈ pcrelFixups eh x.2.r_offset (eh.symValue x.1 x.2) x.2.r_addend, fx ∈ out') →
      ∀ y ∈ done ++ [x], y.2.type = R_RISCV_PCREL_HI20 → eh.symValue y.1 y.2 < code_len →
        ∀ fx ∈ pcrelFixups eh y.2.r_offset (eh.symValue y.1 y.2) y.2.r_addend, fx ∈ out' := by
    intro out' hsub hx y hy htype hval fx hfx
    rcases List.mem_append.mp hy with hy | hy
    · exact hsub fx (hout y hy htype hval fx hfx)
    · rw [List.mem_singleton.mp hy] at htype hval hfx
      exact hx htype hval fx hfx
  split at hmid
  · rename_i htype
    cases hmid
    exact hold _ (fun fx hfx => hfx) fun htype' => absurd htype' htype
  · split at hmid
    · rename_i hval
      cases hmid
      exact hold _ (fun fx hfx => hfx) fun _ hval' => absurd hval' (BitVec.not_lt.2 hval)
    · split at hmid
      · cases hmid
      · cases hmid
        exact hold _ (fun fx hfx => List.mem_append_left _ hfx)
          fun _ _ fx hfx => List.mem_append_right _ hfx

section
variable {eh : Elf} {code : Nat → Byte} {len : Word} (hlen : Sized len)
  (hw : Relocated eh code len) (hp : Placed eh) {fixups : List PcrelFixup}
  (hcol : collectPcrelCodeFixups eh len = some fixups) {targets : Targets} {map : Nat → Word}
  {prog : Transcoded}
  (hheads : ∀ c, Head code len targets c → map (c.off >>> 1).toNat = c.at_ ∧
    emit c.at_ (c.unit code len targets).1 map len <+: prog.ops.drop c.at_.toNat)
  (hsent : ∀ j, (∀ c, Head code len targets c → (c.off >>> 1).toNat ≠ j) → map j = TC_SENTINEL)
  {mid fin : List Word} (hfix : applyPcrelCodeFixups fixups map prog.ops = some mid)

include hlen hw hp hcol hheads hsent hfix

/-- The fixups of a file are pairs. -/
theorem collected_pairs :
    FixupList code len (fixups.map PcrelFixup.lo_off ++ fixups.map PcrelFixup.sym_value)
      fixups where
  hi fx hfx := by
    obtain ⟨⟨x, hx, htype, -, hhi⟩, -⟩ := collectPcrelCodeFixups_mem hcol fx hfx
    rw [← hhi]
    exact hw.hi x hx htype
  lo fx hfx := by
    obtain ⟨-, -, h4, hop⟩ := fixup_ops hw (collectPcrelCodeFixups_mem hcol) hfx
    obtain ⟨c, hc, hoff, -⟩ := mapped_head hlen (fun c hc => (hheads c hc).1) hsent h4
      (fixups_mapped hfix fx hfx).2
    have hlt := (hc.inv hlen).2
    rw [hoff] at hlt
    exact ⟨h4, BitVec.lt_def.mpr hlt, hop⟩
  ext fx hfx := ⟨List.mem_append_left _ (List.mem_map.2 ⟨fx, hfx, rfl⟩),
    List.mem_append_right _ (List.mem_map.2 ⟨fx, hfx, rfl⟩)⟩
  one fx hfx fx' hfx' heq := by
    obtain ⟨-, y, hy, hlo12, hsym, hlo⟩ := collectPcrelCodeFixups_mem hcol fx hfx
    obtain ⟨-, y', hy', hlo12', hsym', hlo'⟩ := collectPcrelCodeFixups_mem hcol fx' hfx'
    rw [← hsym, ← hsym']
    exact hw.one y hy hlo12 y' hy' hlo12' (by rw [hlo, heq, hlo'])
  shared fx hfx fx' hfx' heq := by
    have hsym : ∀ fx ∈ fixups, ∃ x ∈ eh.relocs, x.2.type = R_RISCV_PCREL_HI20 ∧
        x.2.r_offset = fx.hi_off ∧ eh.symValue x.1 x.2 = fx.sym_value ∧
        x.2.r_addend = fx.addend := by
      refine collect_run hcol fun x hx htype _ fx hfx => ?_
      obtain ⟨y, -, -, -, rfl⟩ := mem_pcrelFixups.1 hfx
      exact ⟨x, hx, htype, rfl, rfl, rfl⟩
    obtain ⟨x, hx, htype, hhi, hval, hadd⟩ := hsym fx hfx
    obtain ⟨x', hx', htype', hhi', hval', hadd'⟩ := hsym fx' hfx'
    rw [← hval, ← hval', ← hadd, ← hadd']
    exact hp.shared x hx htype x' hx' htype' (by rw [hhi, heq, hhi'])

/-- **A pair for an instruction computes the address of its op**, plus the addend. -/
theorem translated_pair (hres : resolveDataAuipc eh len map mid = some fin) {x : Shdr × Rela}
    (hx : x ∈ eh.relocs) (htype : x.2.type = R_RISCV_PCREL_HI20)
    (hval : eh.symValue x.1 x.2 < len) {y : Shdr × Rela} (hy : y ∈ eh.relocs)
    (hlo12 : y.2.isLo12) (hsym : eh.symValue y.1 y.2 = x.2.r_offset) :
    PairComputes fin (map (x.2.r_offset >>> 1).toNat) (map (y.2.r_offset >>> 1).toNat)
      (4#32 * map (eh.symValue x.1 x.2 >>> 1).toNat + x.2.r_addend) := by
  have hfrom := collectPcrelCodeFixups_mem hcol
  have hheads' := fun c hc => (hheads c hc).1
  have hf := collected_pairs hlen hw hp hcol hheads hsent hfix
  have hfx := collect_all hcol x hx htype hval _ (mem_pcrelFixups.2 ⟨y, hy, hlo12, hsym, rfl⟩)
  obtain ⟨hhi, hlo, hop⟩ := pair_words hlen hf hheads hsent hfix hfx
  obtain ⟨hathi, hatlo⟩ := pair_ops hlen hf hheads hsent hfix hfx
  obtain ⟨hmaphi, hmaplo⟩ := fixups_mapped hfix _ hfx
  obtain ⟨h4, hophi, h4', hoplo⟩ := fixup_ops hw hfrom hfx
  obtain ⟨hlength, hrun⟩ := passes_run hlen hw hfrom hheads hsent hfix hres
  -- the last pass rewrites no word of a pair
  have hsame : ∀ {off : Word} {w : Word}, off.toNat % 4 = 0 → map (off >>> 1).toNat ≠ TC_SENTINEL →
      (decode code off).op ≠ RISCV_OP_NOP → (∀ o ∈ dataAuipcs eh len, off ≠ o) →
      (map (off >>> 1).toNat).toNat < prog.ops.length →
      mid[(map (off >>> 1).toNat).toNat]? = some w →
      fin[(map (off >>> 1).toNat).toNat]? = some w := by
    intro off w h4 hm hop hfree hlt hw'
    have hresolved := (hrun _ hlt).2
    rw [List.getD_eq_getElem?_getD, hw'] at hresolved
    rw [List.getElem?_eq_getElem (by omega), List.getElem_eq_getD 0#32]
    generalize fin.getD (map (off >>> 1).toNat).toNat 0#32 = u at hresolved ⊢
    cases hresolved with
    | li ho heq hop' hv =>
      obtain ⟨x', hx', htype', -, rfl⟩ := mem_dataAuipcs.1 ho
      obtain ⟨h4x, -, hopx⟩ := hw.hi x' hx' htype'
      have hmeq := BitVec.eq_of_toNat_eq heq
      exact absurd (mapped_apart hlen hheads' hsent h4 h4x hm (by rwa [← hmeq]) hop
        (by rw [hopx]; decide) hmeq) (hfree _ ho)
    | same _ => rfl
  have hfree : ∀ o ∈ dataAuipcs eh len, x.2.r_offset ≠ o ∧ y.2.r_offset ≠ o := by
    intro o ho
    obtain ⟨x', hx', htype', hval', rfl⟩ := mem_dataAuipcs.1 ho
    obtain ⟨h1, h2⟩ := data_free hw hfrom hx' htype' hval' hfx
    exact ⟨h1.symm, h2.symm⟩
  obtain ⟨v, hdispatch, hsum⟩ := pair_value map ⟨x.2.r_offset, y.2.r_offset, eh.symValue x.1 x.2,
    x.2.r_addend, y.2.type == R_RISCV_PCREL_LO12_S⟩ (prog.ops.getD _ 0#32) hop
  exact ⟨_, _, v, hsame h4 hmaphi (by rw [hophi]; decide) (fun o ho => (hfree o ho).1)
    (opAt_lt hheads hathi) hhi, hsame h4' hmaplo (completes_op hoplo).1
    (fun o ho => (hfree o ho).2) (opAt_lt hheads hatlo) hlo, hdispatch, hsum⟩

end

/-! ## The tool -/

/-- **The tool translates every reference that it handles**, or writes no image. -/
theorem tctool_translated (eh : Elf) (hl : Linked eh) (hp : Placed eh) {g : Gathered}
    (hg : gather eh = some g) (hlen : Sized g.code.len)
    (hw : Relocated eh g.code.buf g.code.len) (hh : Handled eh g.code.len) {img : Image}
    {ps : List Patch × List Patch} (h : tctool eh = some (img, ps)) :
    ∃ fixups map n_ops, collectPcrelCodeFixups eh g.code.len = some fixups ∧
      transcodeMapEx g.code.buf g.code.len (collectCodeAddressRelocs eh g.code.len ++
        fixups.map PcrelFixup.lo_off) = some (map, n_ops) ∧
      Translated eh g.code.len map img := by
  have ht : translate eh g = some (img, ps) := by
    unfold tctool at h
    rwa [hg] at h
  obtain ⟨fixups, prog, map, n_ops, mid, hcol, hprog, hmap, hfix, hres⟩ := translate_ops ht
  obtain ⟨targets, map', prog', htargets, hmap', hprog', -, hheads, hsent⟩ :=
    transcodeEx_spec g.code.buf hlen
      (collectCodeAddressRelocs eh g.code.len ++ fixups.map PcrelFixup.lo_off)
  rw [hprog] at hprog'
  cases hprog'
  have hsame := hmap'.symm.trans hmap
  cases hsame
  obtain ⟨hsize, -, -, hrobuf, hrwbuf⟩ := translate_data ht
  obtain ⟨hro, hrw, hrobase, -⟩ := gather_some hg
  obtain rfl := translate_patches ht hcol hmap'
  have hrwbase : g.rwdata.base = RISCV_HALF := mergeProgbits_base hrw (by decide)
  have hrofirst : ∀ sh ∈ eh.shdrs, wanted false false sh →
      ∃ s ∈ eh.shdrs, wanted false false s ∧ g.rodata.base = s.sh_addr :=
    fun sh hsh hws => mergeProgbits_first hl hro hsh hws
  have hmro : Merges eh false false g.rodata := mergeProgbits_buf hl hro fun sh hsh hws => by
    obtain ⟨s, hs, hws', hbase⟩ := hrofirst sh hsh hws
    rw [hbase]
    exact .inl (hp.code s hs hws')
  have hmrw : Merges eh false true g.rwdata := mergeProgbits_buf hl hrw fun sh hsh hws => by
    rw [hrwbase]
    exact .inl (by decide)
  -- an instruction whose address is in a word has an op
  have hmapped : ∀ x ∈ eh.relocs, x.2.type = R_RISCV_32 → Starts g.code.len (eh.target x) →
      map (eh.target x >>> 1).toNat ≠ TC_SENTINEL := by
    intro x hx htype ⟨h4, hlt⟩
    obtain ⟨hsh, hr⟩ := mem_relocs.1 hx
    have hext : eh.target x ∈ collectCodeAddressRelocs eh g.code.len ++
        fixups.map PcrelFixup.lo_off := by
      refine List.mem_append_left _ (List.mem_flatMap.2 ⟨x.1, hsh, List.mem_filterMap.2
        ⟨x.2, hr, ?_⟩⟩)
      simp only
      rw [if_neg fun hne => hne.1 htype]
      exact if_neg (BitVec.not_le.2 hlt)
    obtain ⟨c, hc, hoff⟩ := target_head hlen htargets (.inl hext) h4 (BitVec.lt_def.mp hlt)
    rw [← hoff, (hheads c hc).1]
    exact head_index hlen hc
  refine ⟨fixups, map, _, hcol, hmap', ?_⟩
  constructor
  case rodata =>
    intro x hx htype hstart hws
    obtain ⟨hbase, hin, hmerged⟩ := word_inside hl hmro hp hx htype hws
    have hne : g.rodata.len ≠ 0#32 := by
      unfold inMerged at hmerged
      rw [Bool.and_eq_true, bne_iff_ne] at hmerged
      exact hmerged.1
    have hat : x.2.r_offset + img.rodata_size = x.2.r_offset - g.rodata.base := by
      rw [hsize, hrobase hne, BitVec.zero_sub, BitVec.sub_neg]
    rw [hat, hrobuf]
    exact section_word hp hx htype hstart.2 (hmapped x hx htype hstart) hbase hin hmerged
  case rwdata =>
    intro x hx htype hstart hws
    obtain ⟨hbase, hin, hmerged⟩ := word_inside hl hmrw hp hx htype hws
    -- its section is below rodata
    have hout : inMerged eh x.1 g.rodata = false := by
      unfold inMerged
      rw [Bool.and_eq_false_iff, bne_eq_false_iff_eq, decide_eq_false_iff_not, BitVec.not_lt]
      by_cases hlen0 : g.rodata.len = 0#32
      · exact .inl hlen0
      · refine .inr ?_
        have hex : ∃ sh ∈ eh.shdrs, wanted false false sh := by
          by_contra hnone
          exact hlen0 (mergeProgbits_none hro fun sh hsh hws => hnone ⟨sh, hsh, hws⟩)
        obtain ⟨sh, hsh, hws'⟩ := hex
        obtain ⟨s, hs, hws'', hsbase⟩ := hrofirst sh hsh hws'
        have hbelow := hh.below x hx htype hstart hws s hs hws''
        rw [← hsbase, hrobase hlen0] at hbelow
        rw [hrobase hlen0]
        bv_omega
    rw [← hrwbase, hrwbuf]
    refine section_word (b := fun sh => !inMerged eh sh g.rodata && inMerged eh sh g.rwdata) hp hx
      htype hstart.2 (hmapped x hx htype hstart) hbase hin ?_
    rw [hout, hmerged]
    rfl
  case pcrel =>
    intro x hx htype hstart y hy hlo12 hsym
    have hadd := hh.addend x hx htype hstart
    have htarget : eh.target x = eh.symValue x.1 x.2 := by
      unfold Elf.target
      rw [hadd, BitVec.add_zero]
    have hpair := translated_pair hlen hw hp hcol hheads hsent hfix hres hx htype
      (by rw [← htarget]; exact hstart.2) hy hlo12 hsym
    rwa [hadd, BitVec.add_zero, ← htarget] at hpair
  case abs => exact fun x hx htype hstart => absurd htype (hh.kind x hx hstart).1
  case call =>
    intro x hx htype hstart
    rcases htype with htype | htype
    · exact absurd htype (hh.kind x hx hstart).2.1
    · exact absurd htype (hh.kind x hx hstart).2.2

/-- A file with the code `auipc x1, 0; jalr x1, 16(x1); nop; ebreak; ebreak`, a word of rodata at
the top, one relocation that is for rodata, and one symbol. -/
def callElf (rela : BitVec 96) (value : Word) : Elf where
  magic := true
  e_entry := 0#32
  shdrs :=
    [⟨SHT_PROGBITS, SHF_ALLOC ||| SHF_EXECINSTR, 0#32, 20#32, 0#32, 0#32, fun i =>
        (0x001000730010007300000013010080e700000097#160).extractLsb' (8 * i) 8⟩,
      ⟨SHT_PROGBITS, SHF_ALLOC, 0xfffffffc#32, 4#32, 0#32, 0#32, fun _ => 0#8⟩,
      ⟨SHT_RELA, 0#32, 0#32, 12#32, 3#32, 1#32, fun i => rela.extractLsb' (8 * i) 8⟩,
      ⟨2#32, 0#32, 0#32, 16#32, 0#32, 0#32, fun i =>
        (value.setWidth 128 <<< 32).extractLsb' (8 * i) 8⟩]

/-- A use of `tctool_translated`: the word of rodata is the address of the last instruction. -/
theorem tctool_translated_word :
    let eh := callElf (0xfffffffc#96 ||| 1#96 <<< 32) 16#32
    ∃ g img ps, ∃ map : Nat → Word, gather eh = some g ∧ tctool eh = some (img, ps) ∧
      HasWord img.rodata 0 (4#32 * map 8) := by
  intro eh
  have hsome : ((gather eh).map fun g => decide (g.code.len = 20#32 ∧
      Relocated eh g.code.buf g.code.len)) = some true := by decide +kernel
  obtain ⟨g, hg, hdec⟩ := Option.map_eq_some_iff.1 hsome
  obtain ⟨hlen, hw⟩ := of_decide_eq_true hdec
  have htool : ((tctool eh).map fun r => r.1.rodata_size) = some 4#32 := by decide +kernel
  obtain ⟨⟨img, ps⟩, h, hsize⟩ := Option.map_eq_some_iff.1 htool
  have hx : ∃ x ∈ eh.relocs, x.2.type = R_RISCV_32 ∧ Starts 20#32 (eh.target x) ∧
      wanted false false (eh.shdr x.1.sh_info) ∧ x.2.r_offset = 0xfffffffc#32 ∧
      eh.target x = 16#32 := by decide +kernel
  obtain ⟨x, hx, htype, hstart, hws, hoff, htarget⟩ := hx
  have hl : Linked eh := by constructor <;> decide +kernel
  have hp : Placed eh := by constructor <;> decide +kernel
  have hh : Handled eh 20#32 := by constructor <;> decide +kernel
  obtain ⟨_, map, _, -, -, hall⟩ := tctool_translated eh hl hp hg
    (by rw [hlen]; exact ⟨by decide, by decide⟩) hw (by rwa [hlen]) h
  have hword := hall.rodata x hx htype (by rwa [hlen]) hws
  rw [htarget, hoff, show img.rodata_size = 4#32 from hsize] at hword
  exact ⟨g, img, ps, map, hg, h, hword⟩

/-- What a pair with an `auipc` computes. -/
theorem auipc_pair {ops : List Word} {hi lo v w w' : Word} (hw : ops[hi.toNat]? = some w)
    (hw' : ops[lo.toNat]? = some w') (hop : TC_OP w = RISCV_OP_AUIPC)
    (h : PairComputes ops hi lo v) : hi <<< 2 + TC_UIMM w <<< 12 + TC_IMM w' = v := by
  obtain ⟨u, u', val, hu, hu', hrun, rfl⟩ := h
  cases hw.symm.trans hu
  cases hw'.symm.trans hu'
  have hone := hrun Unit Hooks.null ⟨State.boot [] 0, []⟩ 0#32
  unfold RISCV_OP_AUIPC at hop
  simp only [dispatch, hop] at hone
  have hx := congrArg (fun o : Run Unit × Nat × Goto => o.1.s.x (TC_A w)) hone
  simp only [put_x, if_pos] at hx
  rw [hx]

/-- **A far call is not translated**: over the dropped `nop`, it goes to the word behind the last
one. -/
theorem tctool_far_call :
    let eh := callElf (19#96 <<< 32) 16#32
    Linked eh ∧ Placed eh ∧ ∃ g img ps fixups map n_ops, gather eh = some g ∧
      Sized g.code.len ∧ Relocated eh g.code.buf g.code.len ∧ tctool eh = some (img, ps) ∧
      collectPcrelCodeFixups eh g.code.len = some fixups ∧
      transcodeMapEx g.code.buf g.code.len (collectCodeAddressRelocs eh g.code.len ++
        fixups.map PcrelFixup.lo_off) = some (map, n_ops) ∧
      ¬ Translated eh g.code.len map img := by
  intro eh
  have hsome : ((gather eh).bind fun g => (collectPcrelCodeFixups eh g.code.len).bind fun fixups =>
      (transcodeMapEx g.code.buf g.code.len (collectCodeAddressRelocs eh g.code.len ++
        fixups.map PcrelFixup.lo_off)).bind fun t => (tctool eh).map fun r =>
          decide (g.code.len = 20#32 ∧ Relocated eh g.code.buf g.code.len ∧
            r.1.code = [0xb0200000#32, 0xa8210010#32, 0xbc000000#32, 0xbc000000#32] ∧
            t.1 0 = 0#32 ∧ t.1 2 = 1#32 ∧ t.1 8 = 3#32)) = some true := by decide +kernel
  obtain ⟨g, hg, hsome⟩ := Option.bind_eq_some_iff.1 hsome
  obtain ⟨fixups, hcol, hsome⟩ := Option.bind_eq_some_iff.1 hsome
  obtain ⟨⟨map, n_ops⟩, hmap, hsome⟩ := Option.bind_eq_some_iff.1 hsome
  obtain ⟨⟨img, ps⟩, h, hdec⟩ := Option.map_eq_some_iff.1 hsome
  obtain ⟨hlen, hw, hcode, h0, h2, h8⟩ := of_decide_eq_true hdec
  refine ⟨by constructor <;> decide +kernel, by constructor <;> decide +kernel, g, img, ps, fixups,
    map, n_ops, hg, by rw [hlen]; exact ⟨by decide, by decide⟩, hw, h, hcol, hmap, fun hall => ?_⟩
  have hx : ∃ x ∈ eh.relocs, x.2.type = R_RISCV_CALL_PLT ∧ Starts 20#32 (eh.target x) ∧
      x.2.r_offset = 0#32 ∧ eh.target x = 16#32 := by decide +kernel
  obtain ⟨x, hx, htype, hstart, hoff, htarget⟩ := hx
  have hpair := hall.call x hx (.inr htype) (by rwa [hlen])
  rw [hoff, htarget] at hpair
  change map 0 = 0#32 at h0
  change map 2 = 1#32 at h2
  change map 8 = 3#32 at h8
  change PairComputes img.code (map 0) (map 2) (4#32 * map 8) at hpair
  rw [h0, h2, h8, show img.code = _ from hcode] at hpair
  exact absurd (auipc_pair rfl rfl (by decide) hpair) (by decide)

end Purv.Tctool

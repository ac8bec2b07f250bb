import Purv.Lib.Overlay
import Purv.Lib.Tiles
import Purv.GuestBytes
import Purv.PurvhostElf

/-!
# The initial process stack (`main.c`, `purva/main.c`)

The hosts build the stack of a userspace program themselves: the argument strings below
`RISCV_HALF`, and below them the table that sp points at.  A `memcpy` outside `g_stack` is `none`:
what such a run does is undefined.

* `setupUserStack` — `setup_user_stack` of both hosts;
* `layoutSize` — the bytes it takes, strings, table and padding;
* `StackImage` — the stack that the RISC-V Linux ABI asks for, read by the guest;
* `placeStrings_tiles`, `pokeWords_held` — what the loops leave;
* `setupUserStack_image` — the stack is right whenever the layout fits.
-/

namespace Purv.UserStack

open Purvhost (CString)
open Overlays Tiling Isa

variable {H : Type}

/-! ## The stack buffer -/

/-- `g_stack` and its size: `STACK_BYTES`, or `g_stack_size`. -/
structure GStack where
  ptr : Buf
  len : Word

/-- `STACK_BYTES`. -/
def STACK_BYTES : Word := 16 * 1024 * 1024

/-- `STACK_MEM_BASE`. -/
def GStack.base (g : GStack) : Word := RISCV_HALF - g.len

/-- `memcpy(&g_stack[addr - STACK_MEM_BASE], src, n)`. -/
def GStack.copyIn (g : GStack) (s : State H) (addr : Word) (src : List Byte) : Option (State H) :=
  let o := (addr - g.base).toNat
  if o + src.length ≤ g.len.toNat then
    some { s with mem := fun b => if b = g.ptr then overlay (s.mem b) o src else s.mem b }
  else none

/-- The bytes of a word as the host stores it. -/
def wordBytes (v : Word) : List Byte :=
  [v.extractLsb' 0 8, v.extractLsb' 8 8, v.extractLsb' 16 8, v.extractLsb' 24 8]

/-- `gpoke`. -/
def gpoke (g : GStack) (s : State H) (addr v : Word) : Option (State H) :=
  g.copyIn s addr (wordBytes v)

/-- The string with its `NUL`. -/
def bytesOf (c : CString) : List Byte := c.chars ++ [0#8]

/-! ## The stack of a program -/

/-- The body of the loop over the strings: the state and sp after it. -/
def placeString (g : GStack) (c : CString) (s : State H) (sp : Word) : Option (State H × Word) :=
  let len := BitVec.ofNat 32 c.chars.length + 1#32
  let sp := sp - len
  (g.copyIn s sp ((bytesOf c).take len.toNat)).map fun s => (s, sp)

/-- The loop, from the last string to the first: the state, sp, and `ptr`. -/
def placeStrings (g : GStack) : List CString → State H → Word → Option (State H × Word × List Word)
  | [], s, sp => some (s, sp, [])
  | c :: argv, s, sp => do
    let (s, sp, ptr) ← placeStrings g argv s sp
    let (s, sp) ← placeString g c s sp
    some (s, sp, sp :: ptr)

/-- Where the table of `words` words goes, below the strings. -/
def tableAt (sp argc : Word) : Word :=
  let sp := sp &&& ~~~15#32
  let words := 1#32 + argc + 1#32 + 1#32 + 2#32
  let sp := sp - words * 4#32
  sp &&& ~~~15#32

/-- Successive `gpoke`s. -/
def pokeWords (g : GStack) : List Word → State H → Word → Option (State H)
  | [], s, _ => some s
  | v :: vs, s, p => do
    let s ← gpoke g s p v
    pokeWords g vs s (p + 4#32)

/-- `setup_user_stack`: the state it leaves and the new sp. -/
def setupUserStack (g : GStack) (argv : List CString) (s : State H) :
    Option (State H × Word) := do
  let argv := argv.take 64
  let argc := BitVec.ofNat 32 argv.length
  let (s, sp, ptr) ← placeStrings g argv s RISCV_HALF
  let sp := tableAt sp argc
  let s ← pokeWords g (argc :: ptr ++ [0#32, 0#32, 0#32, 0#32]) s sp
  some (s, sp)

/-! ## What it should leave -/

/-- The bytes of the strings. -/
def stringsSize (argv : List CString) : Nat := (argv.map fun c => (bytesOf c).length).sum

/-- `n`, up to a multiple of 16. -/
def up16 (n : Nat) : Nat := (n + 15) / 16 * 16

/-- The bytes below `RISCV_HALF` that the stack takes: the strings and the table, each with its
padding. -/
def layoutSize (argv : List CString) : Nat :=
  up16 (up16 (stringsSize argv) + 4 * (argv.length + 5))

/-- Where the guest finds string `i`, by the table at `sp`. -/
def argAt (byte : Word → Byte) (sp : Word) (i : Nat) : Word :=
  loadedFrom .w byte (sp + BitVec.ofNat 32 (4 + 4 * i))

/-- The initial stack of a program that is given `argv`, in the words that a load reads. -/
structure StackImage (byte : Word → Byte) (argv : List CString) (sp : Word) : Prop where
  aligned : sp.toNat % 16 = 0
  argc : loadedFrom .w byte sp = BitVec.ofNat 32 argv.length
  strings : ∀ i (hi : i < argv.length), ∀ k (hk : k < (bytesOf argv[i]).length),
    byte (argAt byte sp i + BitVec.ofNat 32 k) = (bytesOf argv[i])[k]
  nulls : ∀ k < 4, argAt byte sp (argv.length + k) = 0#32
  apart : ∀ i j (hi : i < argv.length) (hj : j < argv.length), i ≠ j →
    ∀ k < (bytesOf argv[i]).length, ∀ m < (bytesOf argv[j]).length,
      argAt byte sp i + BitVec.ofNat 32 k ≠ argAt byte sp j + BitVec.ofNat 32 m
  table : ∀ i (hi : i < argv.length), ∀ k < (bytesOf argv[i]).length,
    ∀ m < 4 * (argv.length + 5), argAt byte sp i + BitVec.ofNat 32 k ≠ sp + BitVec.ofNat 32 m

/-- `s'` is `s` but for bytes of `g_stack` at offsets in `[lo, hi)`. -/
def WroteIn (g : GStack) (lo hi : Nat) (s s' : State H) : Prop :=
  ∃ m, s' = { s with mem := m } ∧ Agree (s.mem g.ptr) (m g.ptr) lo hi ∧
    ∀ b, b ≠ g.ptr → m b = s.mem b

/-! ## Addresses of the buffer -/

/-- The guest address of offset `o`. -/
def GStack.addr (g : GStack) (o : Nat) : Word := g.base + BitVec.ofNat 32 o

section
variable {g : GStack} {o n : Nat}

theorem addr_add : g.addr o + BitVec.ofNat 32 n = g.addr (o + n) := by
  unfold GStack.addr
  rw [BitVec.add_assoc, ← BitVec.ofNat_add]

theorem addr_sub (hn : n ≤ o) : g.addr o - BitVec.ofNat 32 n = g.addr (o - n) := by
  have h : g.addr o = g.addr (o - n) + BitVec.ofNat 32 n := by
    rw [addr_add, Nat.sub_add_cancel hn]
  rw [h, BitVec.add_sub_cancel]

theorem addr_off (ho : o < 2 ^ 32) : (g.addr o - g.base).toNat = o := by
  unfold GStack.addr
  rw [BitVec.add_comm, BitVec.add_sub_cancel, BitVec.toNat_ofNat, Nat.mod_eq_of_lt ho]

theorem addr_inj {p : Nat} (ho : o < 2 ^ 32) (hp : p < 2 ^ 32) (h : g.addr o = g.addr p) :
    o = p := by
  rw [← addr_off (g := g) ho, h, addr_off hp]

theorem addr_top (g : GStack) : g.addr g.len.toNat = RISCV_HALF := by
  unfold GStack.addr GStack.base
  rw [BitVec.ofNat_toNat, BitVec.setWidth_eq, BitVec.sub_add_cancel]

/-- Aligning sp pads what lies above it. -/
theorem addr_align {c : Nat} (hc : up16 c ≤ g.len.toNat) :
    g.addr (g.len.toNat - c) &&& ~~~15#32 = g.addr (g.len.toNat - up16 c) := by
  have hle : c ≤ up16 c := by unfold up16; omega
  have hlen := g.len.isLt
  have hsum : ∀ d ≤ g.len.toNat, ((g.addr (g.len.toNat - d)).toNat + d) % 2 ^ 32 = 2 ^ 31 :=
    fun d hd => by
      have h := congrArg BitVec.toNat (addr_add (g := g) (o := g.len.toNat - d) (n := d))
      rw [Nat.sub_add_cancel hd, addr_top, BitVec.toNat_add, BitVec.toNat_ofNat,
        Nat.add_mod_mod] at h
      exact h
  have hx := hsum c (by omega)
  have hy := hsum (up16 c) hc
  apply BitVec.eq_of_toNat_eq
  rw [Bits.and_not_15]
  generalize g.addr (g.len.toNat - c) = x at hx ⊢
  generalize g.addr (g.len.toNat - up16 c) = y at hy ⊢
  have hxlt := x.isLt
  have hylt := y.isLt
  unfold up16 at *
  omega

end

/-! ## The loops -/

theorem WroteIn.refl (g : GStack) (lo hi : Nat) (s : State H) : WroteIn g lo hi s s :=
  ⟨s.mem, rfl, Agree.refl _ _ _, fun _ _ => rfl⟩

section
variable {g : GStack} {lo hi : Nat} {s s' t : State H}

theorem WroteIn.agree (h : WroteIn g lo hi s s') : Agree (s.mem g.ptr) (s'.mem g.ptr) lo hi := by
  obtain ⟨m, rfl, hagree, -⟩ := h
  exact hagree

theorem WroteIn.mono (h : WroteIn g lo hi s s') {lo' hi' : Nat} (hlo : lo' ≤ lo) (hhi : hi ≤ hi') :
    WroteIn g lo' hi' s s' := by
  obtain ⟨m, hs, hagree, hother⟩ := h
  exact ⟨m, hs, hagree.mono hlo hhi, hother⟩

theorem WroteIn.trans (h : WroteIn g lo hi s s') (h' : WroteIn g lo hi s' t) :
    WroteIn g lo hi s t := by
  obtain ⟨m, rfl, hagree, hother⟩ := h
  obtain ⟨m', rfl, hagree', hother'⟩ := h'
  exact ⟨m', rfl, hagree.trans hagree', fun b hb => (hother' b hb).trans (hother b hb)⟩

/-- A copy inside the buffer. -/
theorem copyIn_held (s : State H) {o : Nat} (src : List Byte)
    (hin : o + src.length ≤ g.len.toNat) (ho : o < 2 ^ 32) :
    ∃ s', g.copyIn s (g.addr o) src = some s' ∧ Holds (s'.mem g.ptr) o src ∧
      WroteIn g o (o + src.length) s s' := by
  unfold GStack.copyIn
  simp only
  rw [addr_off ho, if_pos hin]
  refine ⟨_, rfl, ?_, _, rfl, ?_, fun b hb => if_neg hb⟩
  · simp only [if_true]
    exact holds_overlay _ _ _
  · simp only [if_true]
    exact agree_overlay _ _ _

end

theorem stringsSize_nil : stringsSize [] = 0 := rfl

theorem stringsSize_cons (c : CString) (argv : List CString) :
    stringsSize (c :: argv) = (bytesOf c).length + stringsSize argv := by
  unfold stringsSize
  rw [List.map_cons, List.sum_cons]

theorem bytesOf_length (c : CString) : (bytesOf c).length = c.chars.length + 1 := by
  unfold bytesOf
  rw [List.length_append, List.length_singleton]

/-- A string, right below offset `d`. -/
theorem placeString_held (g : GStack) (c : CString) (s : State H) {d : Nat}
    (hd : d ≤ g.len.toNat) (hfit : (bytesOf c).length ≤ d) :
    ∃ s', placeString g c s (g.addr d) = some (s', g.addr (d - (bytesOf c).length)) ∧
      Holds (s'.mem g.ptr) (d - (bytesOf c).length) (bytesOf c) ∧
      WroteIn g (d - (bytesOf c).length) d s s' := by
  have hlt := g.len.isLt
  have hlen : BitVec.ofNat 32 c.chars.length + 1#32 = BitVec.ofNat 32 (bytesOf c).length := by
    rw [bytesOf_length, BitVec.ofNat_add]
  generalize hn : (bytesOf c).length = n at hfit hlen ⊢
  have htake : (BitVec.ofNat 32 n).toNat = n := by
    rw [BitVec.toNat_ofNat, Nat.mod_eq_of_lt (by omega)]
  obtain ⟨s', hcopy, hheld, hwrote⟩ := copyIn_held (g := g) (o := d - n) s (bytesOf c)
    (by omega) (by omega)
  rw [hn, Nat.sub_add_cancel hfit] at hwrote
  refine ⟨s', ?_, hheld, hwrote⟩
  unfold placeString
  simp only [hlen, htake, addr_sub hfit, List.take_of_length_le (Nat.le_of_eq hn), hcopy,
    Option.map_some]

/-- **The strings are laid end to end** below offset `d`, and `ptr` has their addresses. -/
theorem placeStrings_tiles (g : GStack) (argv : List CString) (s : State H) {d : Nat}
    (hd : d ≤ g.len.toNat) (hfit : stringsSize argv ≤ d) :
    ∃ s' l, placeStrings g argv s (g.addr d) =
        some (s', g.addr (d - stringsSize argv), l.map fun x => g.addr x.1) ∧
      l.map Prod.snd = argv ∧
      Tiles (fun c => (bytesOf c).length) (d - stringsSize argv) l d ∧
      (∀ x ∈ l, Holds (s'.mem g.ptr) x.1 (bytesOf x.2)) ∧
      WroteIn g (d - stringsSize argv) d s s' := by
  induction argv with
  | nil =>
    rw [stringsSize_nil, Nat.sub_zero]
    exact ⟨s, [], rfl, rfl, rfl, fun x hx => absurd hx List.not_mem_nil, WroteIn.refl _ _ _ _⟩
  | cons c argv ih =>
    rw [stringsSize_cons] at hfit ⊢
    obtain ⟨s₁, l, hrun, hargv, htiles, hheld, hwrote⟩ := ih (by omega)
    obtain ⟨s₂, hone, hc, hw⟩ := placeString_held g c s₁ (d := d - stringsSize argv) (by omega)
      (by omega)
    generalize hn : (bytesOf c).length = n at hfit hone hc hw ⊢
    have hsub : d - stringsSize argv - n = d - (n + stringsSize argv) := by omega
    rw [hsub] at hone hc hw
    refine ⟨s₂, (d - (n + stringsSize argv), c) :: l, ?_, ?_, ⟨rfl, ?_⟩, ?_, ?_⟩
    · rw [placeStrings, hrun, Option.bind_eq_bind, Option.bind_some]
      simp only [hone]
      rfl
    · rw [List.map_cons, hargv]
    · simp only
      rw [hn, ← hsub, Nat.sub_add_cancel (by omega)]
      exact htiles
    · intro x hx
      rcases List.mem_cons.mp hx with rfl | hx
      · exact hc
      · exact (hheld x hx).agree hw.agree (Or.inr (htiles.mem (x := x.2) hx).1)
    · exact (hwrote.mono (by omega) (Nat.le_refl _)).trans
        (hw.mono (Nat.le_refl _) (Nat.sub_le _ _))

theorem wordBytes_length (v : Word) : (wordBytes v).length = 4 := rfl

/-- The words of the table, from offset `d` up. -/
theorem pokeWords_held (g : GStack) (vs : List Word) (s : State H) {d : Nat}
    (hfit : d + 4 * vs.length ≤ g.len.toNat) :
    ∃ s', pokeWords g vs s (g.addr d) = some s' ∧
      (∀ i (hi : i < vs.length), Holds (s'.mem g.ptr) (d + 4 * i) (wordBytes vs[i])) ∧
      WroteIn g d (d + 4 * vs.length) s s' := by
  induction vs generalizing s d with
  | nil => exact ⟨s, rfl, fun i hi => absurd hi (Nat.not_lt_zero i), WroteIn.refl _ _ _ _⟩
  | cons v vs ih =>
    have hlt := g.len.isLt
    simp only [List.length_cons] at hfit ⊢
    obtain ⟨s₁, hpoke, hv, hw⟩ := copyIn_held (g := g) (o := d) s (wordBytes v)
      (by rw [wordBytes_length]; omega) (by omega)
    rw [wordBytes_length] at hw
    obtain ⟨s₂, hrun, hheld, hwrote⟩ := ih s₁ (d := d + 4) (by omega)
    refine ⟨s₂, ?_, ?_, ?_⟩
    · rw [pokeWords]
      unfold gpoke
      rw [hpoke]
      simp only [Option.bind_eq_bind, Option.bind_some]
      rw [show (4#32 : Word) = BitVec.ofNat 32 4 from rfl, addr_add, hrun]
    · intro i hi
      cases i with
      | zero => exact hv.agree hwrote.agree (Or.inl (Nat.le_refl _))
      | succ i =>
        have h := hheld i (by omega)
        rwa [show d + 4 + 4 * i = d + 4 * (i + 1) by omega] at h
    · exact (hw.mono (Nat.le_refl _) (by omega)).trans (hwrote.mono (by omega) (by omega))

/-! ## What the guest reads -/

/-- The buffer is the start of the writable region, as the hosts map it. -/
structure GStack.Mapped (g : GStack) (s : State H) : Prop where
  ptr : s.writable.ptr = g.ptr
  base : s.writable.base = g.base
  len : g.len.toNat ≤ s.writable.len.toNat

section
variable {g : GStack} {s : State H}

theorem WroteIn.mapped {lo hi : Nat} {s' : State H} (h : WroteIn g lo hi s s') (hm : g.Mapped s) :
    g.Mapped s' := by
  obtain ⟨m, rfl, -⟩ := h
  exact ⟨hm.ptr, hm.base, hm.len⟩

theorem guestByte_addr (hm : g.Mapped s) {o : Nat} (ho : o < g.len.toNat) :
    purvhostGuestByte s (g.addr o) = s.mem g.ptr o := by
  have hlen := g.len.isLt
  have hoff : (g.addr o - s.writable.base).toNat = o := by
    rw [hm.base, addr_off (by omega)]
  have hle := hm.len
  rw [guestByte_has (BitVec.lt_def.mpr (by omega)), hoff, hm.ptr]

theorem littleEndian_digits (v : Word) :
    littleEndian (fun i => BitVec.ofNat 8 (v.toNat / 256 ^ i)) 4 = v.toNat := by
  have hv := v.isLt
  simp only [littleEndian, BitVec.toNat_ofNat]
  omega

theorem guestWord_addr (hm : g.Mapped s) {o : Nat} {v : Word} (ho : o + 4 ≤ g.len.toNat)
    (hv : Holds (s.mem g.ptr) o (wordBytes v)) :
    loadedFrom .w (purvhostGuestByte s) (g.addr o) = v := by
  have hbytes : ∀ i, i < 4 → purvhostGuestByte s (g.addr o + BitVec.ofNat 32 i) =
      BitVec.ofNat 8 (v.toNat / 256 ^ i) := by
    intro i hi
    rw [addr_add, guestByte_addr hm (by omega), hv i hi, ← Bits.extract_byte]
    unfold wordBytes
    interval_cases i <;> rfl
  change BitVec.ofNat 32 (littleEndian _ 4) = v
  rw [littleEndian_congr hbytes, littleEndian_digits, BitVec.ofNat_toNat, BitVec.setWidth_eq]

/-- The table that the last loop writes. -/
def tableOf (g : GStack) (l : List (Nat × CString)) : List Word :=
  BitVec.ofNat 32 l.length :: (l.map fun x => g.addr x.1) ++ [0#32, 0#32, 0#32, 0#32]

theorem tableOf_length (l : List (Nat × CString)) : (tableOf g l).length = l.length + 5 := by
  unfold tableOf
  rw [List.length_append, List.length_cons, List.length_map]
  rfl

/-- Strings laid end to end above a table that has their addresses are the stack of a program. -/
theorem stackImage_held (hm : g.Mapped s) {l : List (Nat × CString)} {lo d : Nat}
    (htiles : Tiles (fun c => (bytesOf c).length) lo l g.len.toNat)
    (hheld : ∀ x ∈ l, Holds (s.mem g.ptr) x.1 (bytesOf x.2))
    (htable : ∀ i (hi : i < (tableOf g l).length),
      Holds (s.mem g.ptr) (d + 4 * i) (wordBytes (tableOf g l)[i]))
    (hbelow : d + 4 * (l.length + 5) ≤ lo) (halign : (g.addr d).toNat % 16 = 0) :
    StackImage (purvhostGuestByte s) (l.map Prod.snd) (g.addr d) := by
  have hlen := g.len.isLt
  have hlo := htiles.le
  have hword : ∀ i (hi : i < (tableOf g l).length),
      loadedFrom .w (purvhostGuestByte s) (g.addr (d + 4 * i)) = (tableOf g l)[i] := by
    intro i hi
    have hn := tableOf_length (g := g) l
    exact guestWord_addr hm (by omega) (htable i hi)
  have harg : ∀ i (hi : i < l.length),
      argAt (purvhostGuestByte s) (g.addr d) i = g.addr (l[i]).1 := by
    intro i hi
    unfold argAt
    rw [addr_add, show d + (4 + 4 * i) = d + 4 * (i + 1) by omega,
      hword (i + 1) (by rw [tableOf_length]; omega)]
    unfold tableOf
    rw [List.getElem_append_left (by simp; omega), List.getElem_cons_succ, List.getElem_map]
  have hin : ∀ i (hi : i < l.length), lo ≤ (l[i]).1 ∧
      (l[i]).1 + (bytesOf (l[i]).2).length ≤ g.len.toNat :=
    fun i hi => htiles.mem (List.getElem_mem hi)
  refine ⟨halign, ?_, ?_, ?_, ?_, ?_⟩
  · have h := hword 0 (by rw [tableOf_length]; omega)
    rw [List.length_map]
    exact h
  · intro i hi k hk
    rw [List.length_map] at hi
    simp only [List.getElem_map] at hk ⊢
    have hi' := hin i hi
    rw [harg i hi, addr_add, guestByte_addr hm (by omega), hheld _ (List.getElem_mem hi) k hk]
    exact (List.getElem_eq_getD _).symm
  · intro k hk
    unfold argAt
    rw [List.length_map, addr_add,
      show d + (4 + 4 * (l.length + k)) = d + 4 * (l.length + k + 1) by omega,
      hword (l.length + k + 1) (by rw [tableOf_length]; omega)]
    unfold tableOf
    rw [List.getElem_append_right (by simp)]
    interval_cases k <;> simp
  · intro i j hi hj hne k hk m hm'
    rw [List.length_map] at hi hj
    simp only [List.getElem_map] at hk hm'
    have hi' := hin i hi
    have hj' := hin j hj
    have hpair := List.pairwise_iff_getElem.mp htiles.pairwise
    rw [harg i hi, harg j hj, addr_add, addr_add]
    intro heq
    have hoff := addr_inj (by omega) (by omega) heq
    rcases Nat.lt_or_gt_of_ne hne with hlt | hlt
    · have := hpair i j hi hj hlt
      omega
    · have := hpair j i hj hi hlt
      omega
  · intro i hi k hk m hm'
    rw [List.length_map] at hi hm'
    simp only [List.getElem_map] at hk
    have hi' := hin i hi
    rw [harg i hi, addr_add, addr_add]
    intro heq
    have hoff := addr_inj (by omega) (by omega) heq
    omega

end

/-! ## The whole stack -/

/-- The table goes right below what the strings and the padding take. -/
theorem tableAt_addr {g : GStack} {argv : List CString} (hargc : argv.length ≤ 64)
    (hfit : layoutSize argv ≤ g.len.toNat) :
    tableAt (g.addr (g.len.toNat - stringsSize argv)) (BitVec.ofNat 32 argv.length) =
        g.addr (g.len.toNat - layoutSize argv) ∧
      (g.addr (g.len.toNat - layoutSize argv)).toNat % 16 = 0 := by
  have hup : ∀ n, n ≤ up16 n := fun n => by unfold up16; omega
  have h₁ := hup (stringsSize argv)
  have h₂ := hup (up16 (stringsSize argv) + 4 * (argv.length + 5))
  change up16 _ ≤ _ at hfit
  have hwords : (1#32 + BitVec.ofNat 32 argv.length + 1#32 + 1#32 + 2#32) * 4#32 =
      BitVec.ofNat 32 (4 * (argv.length + 5)) := by
    apply BitVec.eq_of_toNat_eq
    simp only [BitVec.toNat_mul, BitVec.toNat_add, BitVec.toNat_ofNat]
    omega
  have htable : tableAt (g.addr (g.len.toNat - stringsSize argv))
      (BitVec.ofNat 32 argv.length) = g.addr (g.len.toNat - layoutSize argv) := by
    unfold tableAt
    simp only
    rw [addr_align (by omega), hwords, addr_sub (by omega), Nat.sub_sub, addr_align hfit]
    rfl
  refine ⟨htable, ?_⟩
  rw [← htable]
  unfold tableAt
  simp only
  rw [Bits.and_not_15, Nat.mul_mod_left]

theorem setupUserStack_run {g : GStack} {argv : List CString} (hargc : argv.length ≤ 64)
    {s t : State H} {sp : Word} {ptr : List Word}
    (h : placeStrings g argv s RISCV_HALF = some (t, sp, ptr)) :
    setupUserStack g argv s =
      (pokeWords g (BitVec.ofNat 32 argv.length :: ptr ++ [0#32, 0#32, 0#32, 0#32]) t
        (tableAt sp (BitVec.ofNat 32 argv.length))).bind fun s =>
          some (s, tableAt sp (BitVec.ofNat 32 argv.length)) := by
  unfold setupUserStack
  simp only
  rw [List.take_of_length_le hargc, h, Option.bind_eq_bind, Option.bind_some]
  rfl

/-- **The initial stack is well formed** whenever the strings and the table, with their padding, fit
the buffer: nothing else is written, and the guest finds its arguments from sp on. -/
theorem setupUserStack_image (g : GStack) {argv : List CString} (hargc : argv.length ≤ 64)
    (hfit : layoutSize argv ≤ g.len.toNat) {s : State H} (hm : g.Mapped s) :
    ∃ s' sp, setupUserStack g argv s = some (s', sp) ∧
      WroteIn g (g.len.toNat - layoutSize argv) g.len.toNat s s' ∧
      StackImage (purvhostGuestByte s') argv sp := by
  have hup : ∀ n, n ≤ up16 n := fun n => by unfold up16; omega
  have hstrings := hup (stringsSize argv)
  have htable := hup (up16 (stringsSize argv) + 4 * (argv.length + 5))
  change _ ≤ layoutSize argv at htable
  obtain ⟨s₁, l, hplace, hargv, htiles, hheld, hw₁⟩ :=
    placeStrings_tiles g argv s (Nat.le_refl _) (by omega)
  obtain ⟨hsp, halign⟩ := tableAt_addr hargc hfit
  have hn : l.length = argv.length := by rw [← hargv, List.length_map]
  have hvs : (tableOf g l).length = argv.length + 5 := by rw [tableOf_length, hn]
  obtain ⟨s₂, hpoke, htab, hw₂⟩ := pokeWords_held g (tableOf g l) s₁
    (d := g.len.toNat - layoutSize argv) (by omega)
  rw [addr_top] at hplace
  have hlow : Agree (s₁.mem g.ptr) (s₂.mem g.ptr) 0 (g.len.toNat - stringsSize argv) :=
    hw₂.agree.mono (Nat.zero_le _) (by omega)
  refine ⟨s₂, g.addr (g.len.toNat - layoutSize argv), ?_,
    (hw₁.mono (by omega) (Nat.le_refl _)).trans (hw₂.mono (Nat.le_refl _) (by omega)), ?_⟩
  · rw [setupUserStack_run hargc hplace, hsp, ← hn]
    change (pokeWords g (tableOf g l) s₁ _).bind _ = _
    rw [hpoke, Option.bind_some]
  · have himage := stackImage_held (hw₂.mapped (hw₁.mapped hm)) htiles
      (fun x hx => (hheld x hx).agree hlow (Or.inr (htiles.mem (x := x.2) hx).1)) htab (by omega)
      halign
    rwa [hargv] at himage

/-- A fresh state with the stack of `main.c`. -/
def freshStack : State Unit where
  pc := 0#32
  inst := 0#32
  x := fun _ => 0#32
  readonly := ⟨2, 0#32, 0#32⟩
  writable := ⟨1, STACK_BYTES, RISCV_HALF - STACK_BYTES⟩
  mem := fun _ _ => 0#8
  host := ()

theorem setupUserStack_ls :
    ∃ s' sp, setupUserStack ⟨1, STACK_BYTES⟩
        [⟨[0x6c#8, 0x73#8], by decide⟩, ⟨[0x2d#8, 0x6c#8], by decide⟩] freshStack = some (s', sp) ∧
      WroteIn ⟨1, STACK_BYTES⟩ (STACK_BYTES.toNat - 48) STACK_BYTES.toNat freshStack s' ∧
      StackImage (purvhostGuestByte s')
        [⟨[0x6c#8, 0x73#8], by decide⟩, ⟨[0x2d#8, 0x6c#8], by decide⟩] sp :=
  setupUserStack_image ⟨1, STACK_BYTES⟩ (by decide) (by decide) ⟨rfl, rfl, by decide⟩

/-- A string that takes `n` bytes. -/
def longString (n : Nat) : CString where
  chars := List.replicate (n - 1) 0x61#8
  noNul := fun h => nomatch List.eq_of_mem_replicate h

theorem longString_length {n : Nat} (hn : 0 < n) : (bytesOf (longString n)).length = n := by
  rw [bytesOf_length, longString, List.length_replicate]
  omega

/-- After a string that fills the buffer the table goes below it. -/
theorem setupUserStack_full {c : CString} (hc : (bytesOf c).length = STACK_BYTES.toNat)
    (s : State H) : setupUserStack ⟨1, STACK_BYTES⟩ [c] s = none := by
  have hsize : stringsSize [c] = STACK_BYTES.toNat := by
    rw [stringsSize_cons, hc, stringsSize_nil, Nat.add_zero]
  obtain ⟨t, l, hplace, -⟩ := placeStrings_tiles ⟨1, STACK_BYTES⟩ [c] s (d := STACK_BYTES.toNat)
    (Nat.le_refl _) (Nat.le_of_eq hsize)
  have htop : GStack.addr ⟨1, STACK_BYTES⟩ STACK_BYTES.toNat = RISCV_HALF := by decide
  rw [hsize, Nat.sub_self, htop] at hplace
  have hsp : tableAt (GStack.addr ⟨1, STACK_BYTES⟩ 0) (BitVec.ofNat 32 [c].length) =
      0x7effffe0#32 := by
    change tableAt (GStack.addr ⟨1, STACK_BYTES⟩ 0) 1#32 = 0x7effffe0#32
    decide
  have hpoke : ∀ v, gpoke ⟨1, STACK_BYTES⟩ t 0x7effffe0#32 v = none := fun v => by
    unfold gpoke GStack.copyIn
    simp only
    rw [wordBytes_length]
    exact if_neg (by decide)
  have hargc : [c].length ≤ 64 := by
    rw [List.length_singleton]
    decide
  rw [setupUserStack_run hargc hplace, hsp, List.cons_append, pokeWords, hpoke]
  rfl

/-- A string that fits the buffer may leave no room for the table. -/
theorem setupUserStack_below :
    ¬ ∀ argv : List CString, argv.length ≤ 64 → stringsSize argv ≤ STACK_BYTES.toNat →
      ∀ s : State Unit, GStack.Mapped ⟨1, STACK_BYTES⟩ s →
        ∃ s' sp, setupUserStack ⟨1, STACK_BYTES⟩ argv s = some (s', sp) := by
  intro hall
  have hlen := longString_length (n := STACK_BYTES.toNat) (by decide)
  generalize longString STACK_BYTES.toNat = c at hlen
  have hsize : stringsSize [c] = STACK_BYTES.toNat := by
    rw [stringsSize_cons, hlen, stringsSize_nil, Nat.add_zero]
  obtain ⟨s', sp, hrun⟩ := hall [c] (by rw [List.length_singleton]; decide)
    (Nat.le_of_eq hsize) freshStack ⟨rfl, rfl, Nat.le_refl _⟩
  rw [setupUserStack_full hlen] at hrun
  cases hrun

end Purv.UserStack

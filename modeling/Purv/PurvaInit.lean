import Purv.PurvaRun
import Purv.PurvaFrame

/-!
# Setting up a run (`purva_run_init`)

An image is a header of five sizes and three sections.  `purva_run_init` copies the sections to
buffers of its own, and lays out the guest's writable memory: the stack, the data and bss, and the
heap from the next multiple of 16 on.

* `ImageHeader`, `purvaRunInit` — the header and the function, with its accesses and allocations;
* `initRun_leaves` — the buffers are what the accesses make of zeros;
* `LaidOut` — what a set-up run has to satisfy;
* `HasRoom` — the sizes that leave room for it;
* `purvaRunInit_laidOut` — the function is right exactly on these.
-/

namespace Purv.Purva

open Bits Transcode

variable {U : Type}

/-! ## The image -/

/-- The five sizes at the start of an image. -/
structure ImageHeader where
  code_size : Word
  rodata_size : Word
  rwdata_size : Word
  bss_size : Word
  stack_size : Word

/-- `memcpy(hdr, b, 20)`. -/
def imageHeader (image : Nat → Byte) : ImageHeader where
  code_size := wordAt image 0#32
  rodata_size := wordAt image 4#32
  rwdata_size := wordAt image 8#32
  bss_size := wordAt image 12#32
  stack_size := wordAt image 16#32

/-- A copy of `n` bytes at `src` of the image to `dst`, or a store of the allocator. -/
inductive Access where
  | copy (dst : Ptr) (src n : Nat)
  | store (dst : Ptr) (n : Nat)
  deriving DecidableEq

/-- What `purva_run_init` leaves: the state, the program, the lengths that it asked `malloc` for,
and its accesses to the image and the buffers. -/
structure Init (U : Type) where
  s : State (PurvaRun U)
  prog : Transcoded
  allocated : Buf → Nat
  accesses : List Access

/-- `r->code`, `r->rodata` and `r->writable`. -/
def codeBuf : Buf := 1

def rodataBuf : Buf := 2

def writableBuf : Buf := 3

/-- The stack size: the default for 0, and at least the image's minimum. -/
def initStack (h : ImageHeader) (stack_bytes : Word) : Word :=
  let stack_bytes := if stack_bytes = 0#32 then 1024#32 * 1024#32 else stack_bytes
  if stack_bytes < h.stack_size then h.stack_size else stack_bytes

/-- The RAM size: the default for 0. -/
def initRam (ram_bytes : Word) : Word :=
  if ram_bytes = 0#32 then 16#32 * 1024#32 * 1024#32 else ram_bytes

/-- `heap_len`. -/
def heapLen (h : ImageHeader) (ram_bytes : Word) : Word :=
  h.rwdata_size + h.bss_size + initRam ram_bytes

/-- The start of the arena. -/
def arenaBase (h : ImageHeader) : Word :=
  (RISCV_HALF + h.rwdata_size + h.bss_size + 15#32) &&& ~~~15#32

/-- The buffers after the copies: the sections of the image, and zeros. -/
def initMem (image : Nat → Byte) (h : ImageHeader) (stack_bytes : Word) (b : Buf) (o : Nat) :
    Byte :=
  let rodataAt := 20 + h.code_size.toNat
  let rwdataAt := rodataAt + h.rodata_size.toNat
  if b = codeBuf ∧ o < h.code_size.toNat then image (20 + o)
  else if b = rodataBuf ∧ o < h.rodata_size.toNat then image (rodataAt + o)
  else if b = writableBuf ∧ stack_bytes.toNat ≤ o ∧
      o < stack_bytes.toNat + h.rwdata_size.toNat then
    image (rwdataAt + (o - stack_bytes.toNat))
  else 0#8

/-- The state before the header of the arena is written. -/
def initState (image : Nat → Byte) (h : ImageHeader) (stack_bytes heap_len : Word) (user : U) :
    State (PurvaRun U) where
  pc := 0#32
  inst := 0#32
  x := fun i => if i = 2#5 then RISCV_HALF else 0#32
  readonly := ⟨rodataBuf, h.rodata_size, 0#32 - h.rodata_size⟩
  writable := ⟨writableBuf, stack_bytes + heap_len, RISCV_HALF - stack_bytes⟩
  mem := initMem image h stack_bytes
  host :=
    { status := .fuel
      exit_code := 0#32
      writable := writableBuf
      stack_len := stack_bytes
      heap_brk := arenaBase h + PURVA_HUNIT
      heap_top := RISCV_HALF + heap_len
      freep := arenaBase h
      basep := arenaBase h
      user := user
      calls := [] }

/-- `purva_run_init` after its checks. -/
def initRun (image : Nat → Byte) (h : ImageHeader) (stack_bytes heap_len : Word) (user : U) :
    Init U :=
  let rodataAt := 20 + h.code_size.toNat
  let rwdataAt := rodataAt + h.rodata_size.toNat
  let base := arenaBase h
  let s := initState image h stack_bytes heap_len user
  { s := purvaSetSize (purvaSetNext s base base) base 0#32
    prog :=
      { ops := (List.range (h.code_size / 4#32).toNat).map fun i =>
          wordAt (s.mem codeBuf) (BitVec.ofNat 32 (4 * i))
        n_ops := h.code_size / 4#32
        code_len := h.code_size }
    allocated := fun b =>
      if b = codeBuf then max 1 h.code_size.toNat
      else if b = rodataBuf then max 1 h.rodata_size.toNat
      else if b = writableBuf then stack_bytes.toNat + heap_len.toNat
      else 0
    accesses :=
      [.copy (codeBuf, 0) 20 h.code_size.toNat,
        .copy (rodataBuf, 0) rodataAt h.rodata_size.toNat,
        .copy (writableBuf, stack_bytes.toNat) rwdataAt h.rwdata_size.toNat,
        .store (purvaArena s base) 4,
        .store (purvaArena s (base + 4#32)) 4] }

/-- `purva_run_init` of the `image_len` bytes of an image; `none` is -1.  `oom` says that one of the
three allocations fails. -/
def purvaRunInit (image : Nat → Byte) (image_len : Nat) (ram_bytes stack_bytes : Word) (oom : Bool)
    (user : U) : Option (Init U) :=
  let h := imageHeader image
  let need := 20 + h.code_size.toNat + h.rodata_size.toNat + h.rwdata_size.toNat
  if image_len < 20 then none
  else if h.code_size % 4#32 ≠ 0#32 ∨ need > image_len then none
  else if oom then none
  else some (initRun image h (initStack h stack_bytes) (heapLen h ram_bytes) user)

/-! ## The accesses are what fills the buffers -/

/-- A byte of the `n` from `dst` on. -/
def Within (dst : Ptr) (n : Nat) (b : Buf) (o : Nat) : Prop := b = dst.1 ∧ dst.2 ≤ o ∧ o < dst.2 + n

instance (dst : Ptr) (n : Nat) (b : Buf) (o : Nat) : Decidable (Within dst n b o) :=
  inferInstanceAs (Decidable (_ ∧ _ ∧ _))

/-- The buffers after an access: a copy has the bytes of the image in its place, a store bytes of
its own, and no other byte changes. -/
def Access.Leaves (image : Nat → Byte) (mem mem' : Buf → Nat → Byte) : Access → Prop
  | .copy dst src n => ∀ b o,
    mem' b o = if Within dst n b o then image (src + (o - dst.2)) else mem b o
  | .store dst n => ∀ b o, ¬ Within dst n b o → mem' b o = mem b o

/-- The buffers after accesses, one after the other. -/
def Leaves (image : Nat → Byte) : (Buf → Nat → Byte) → List Access → (Buf → Nat → Byte) → Prop
  | mem, [], mem' => mem' = mem
  | mem, a :: as, mem' => ∃ next, a.Leaves image mem next ∧ Leaves image next as mem'

/-- A store of four bytes. -/
theorem stLe_leaves {H : Type} (image : Nat → Byte) (s : State H) (q : Ptr) (v : Word) :
    (Access.store q 4).Leaves image s.mem (stLe s q 4 v).mem := by
  intro b o hout
  rw [stLe_four]
  exact if_neg hout

/-- **The buffers are what the accesses make of zeros.** -/
theorem initRun_leaves (image : Nat → Byte) (h : ImageHeader) (stack_bytes heap_len : Word)
    (user : U) :
    let i := initRun image h stack_bytes heap_len user
    Leaves image (fun _ _ => 0#8) i.accesses i.s.mem := by
  let code : Buf → Nat → Byte := fun b o =>
    if b = codeBuf ∧ o < h.code_size.toNat then image (20 + o) else 0#8
  let rodata : Buf → Nat → Byte := fun b o =>
    if b = codeBuf ∧ o < h.code_size.toNat then image (20 + o)
    else if b = rodataBuf ∧ o < h.rodata_size.toNat then image (20 + h.code_size.toNat + o) else 0#8
  refine ⟨code, ?_, rodata, ?_, initMem image h stack_bytes, ?_, _, stLe_leaves image _ _ _, _,
    stLe_leaves image _ _ _, rfl⟩
  · intro b o
    simp only [Within, Nat.zero_le, true_and, Nat.zero_add, Nat.sub_zero, code]
  · intro b o
    simp only [Within, Nat.zero_le, true_and, Nat.zero_add, Nat.sub_zero, code, rodata]
    by_cases hb : b = rodataBuf
    · simp only [show ¬ b = codeBuf by rw [hb]; decide, false_and, if_false]
    · simp only [hb, false_and, if_false]
  · intro b o
    simp only [Within, initMem, rodata]
    by_cases hb : b = writableBuf
    · simp only [show ¬ b = codeBuf by rw [hb]; decide, show ¬ b = rodataBuf by rw [hb]; decide,
        false_and, if_false]
    · simp only [hb, false_and, if_false]

/-! ## What is asked of it -/

/-- The access stays inside the image and inside its buffer. -/
def Access.Inside (allocated : Buf → Nat) (image_len : Nat) : Access → Prop
  | .copy dst src n => src + n ≤ image_len ∧ dst.2 + n ≤ allocated dst.1
  | .store dst n => dst.2 + n ≤ allocated dst.1

/-- Guest addresses `[a, b)` are inside the buffer of the writable region. -/
def Init.Within (i : Init U) (a b : Word) : Prop :=
  ∀ g : Word, a ≤ g → g < b → (purvaArena i.s g).2 < i.allocated writableBuf

/-- A run is laid out safely: every access is inside the image and the buffers; the regions are as
long as the buffers, of which an empty one has one byte; rwdata, bss and the minimum stack have
their place; so has the header of the arena, at `basep`, and the rest of the arena. -/
structure LaidOut (h : ImageHeader) (image_len : Nat) (i : Init U) : Prop where
  accesses : ∀ a ∈ i.accesses, a.Inside i.allocated image_len
  code : max 1 i.prog.code_len.toNat = i.allocated codeBuf
  readonly : max 1 i.s.readonly.len.toNat = i.allocated rodataBuf
  writable : i.s.writable.len.toNat = i.allocated writableBuf
  rwdata : i.s.host.stack_len.toNat + h.rwdata_size.toNat ≤ i.allocated writableBuf
  bss : i.s.host.stack_len.toNat + (h.rwdata_size.toNat + h.bss_size.toNat) ≤
    i.allocated writableBuf
  stack : h.stack_size ≤ i.s.host.stack_len
  sentinel : (purvaArena i.s i.s.host.basep).2 + 8 ≤ i.allocated writableBuf
  arena : i.Within i.s.host.heap_brk i.s.host.heap_top

/-- The bytes of data and bss, up to the next multiple of 16. -/
def dataEnd (h : ImageHeader) : Nat :=
  (h.rwdata_size.toNat + h.bss_size.toNat + 15) / 16 * 16

/-- The sizes leave room: stack, data, bss and RAM fit in 32 bits together, and the RAM has room for
the header of the arena (or the arena starts so far up that its header wraps round to the bottom of
the stack). -/
def HasRoom (h : ImageHeader) (ram_bytes stack_bytes : Word) : Prop :=
  let stack := (initStack h stack_bytes).toNat
  let data := h.rwdata_size.toNat + h.bss_size.toNat
  let ram := (initRam ram_bytes).toNat
  stack + data + ram < 2 ^ 32 ∧
    (dataEnd h + 8 ≤ data + ram ∨ 2 ^ 32 ≤ stack + dataEnd h)

/-- The image is rejected, or an allocation fails. -/
def Rejected (h : ImageHeader) (image_len : Nat) (oom : Bool) : Prop :=
  image_len < 20 ∨ h.code_size % 4#32 ≠ 0#32 ∨
    20 + h.code_size.toNat + h.rodata_size.toNat + h.rwdata_size.toNat > image_len ∨ oom = true

/-! ## Addresses and offsets -/

theorem half_toNat : RISCV_HALF.toNat = 2 ^ 31 := rfl

/-- The offset of a guest address in the writable buffer. -/
theorem arena_offset (g stack : Word) :
    (g - (RISCV_HALF - stack)).toNat = (g.toNat + stack.toNat + 2 ^ 31) % 2 ^ 32 := by
  rw [BitVec.toNat_sub, BitVec.toNat_sub, half_toNat]
  omega

theorem arenaBase_toNat (h : ImageHeader) :
    (arenaBase h).toNat = (2 ^ 31 + dataEnd h) % 2 ^ 32 := by
  have h15 : (15#32).toNat = 15 := rfl
  unfold arenaBase dataEnd
  rw [and_not_15, BitVec.toNat_add, BitVec.toNat_add, BitVec.toNat_add, half_toNat, h15]
  omega

theorem heapLen_toNat (h : ImageHeader) (ram_bytes : Word) :
    (heapLen h ram_bytes).toNat =
      (h.rwdata_size.toNat + h.bss_size.toNat + (initRam ram_bytes).toNat) % 2 ^ 32 := by
  unfold heapLen
  simp only [BitVec.toNat_add]
  omega

theorem initRam_pos (ram_bytes : Word) : 0 < (initRam ram_bytes).toNat := by
  unfold initRam
  split
  · decide
  · rename_i h
    exact Nat.pos_of_ne_zero fun h0 => h (BitVec.eq_of_toNat_eq h0)

theorem initStack_ge (h : ImageHeader) (stack_bytes : Word) :
    h.stack_size ≤ initStack h stack_bytes := by
  unfold initStack
  simp only
  generalize (if stack_bytes = 0#32 then 1024#32 * 1024#32 else stack_bytes) = b
  split
  · exact BitVec.le_refl _
  · rename_i hlt
    exact BitVec.not_lt.mp hlt

/-! ## The layout -/

/-- The images that are rejected, and the others. -/
theorem purvaRunInit_eq (image : Nat → Byte) (image_len : Nat) (ram_bytes stack_bytes : Word)
    (oom : Bool) (user : U) :
    (Rejected (imageHeader image) image_len oom ∧
        purvaRunInit image image_len ram_bytes stack_bytes oom user = none) ∨
      (¬ Rejected (imageHeader image) image_len oom ∧
        purvaRunInit image image_len ram_bytes stack_bytes oom user =
          some (initRun image (imageHeader image) (initStack (imageHeader image) stack_bytes)
            (heapLen (imageHeader image) ram_bytes) user)) := by
  unfold purvaRunInit Rejected
  simp only
  split
  · rename_i h1
    exact Or.inl ⟨Or.inl h1, rfl⟩
  · rename_i h1
    split
    · rename_i h2
      exact Or.inl ⟨Or.inr (h2.imp_right Or.inl), rfl⟩
    · rename_i h2
      rw [not_or] at h2
      split
      · rename_i h3
        exact Or.inl ⟨Or.inr (Or.inr (Or.inr h3)), rfl⟩
      · rename_i h3
        refine Or.inr ⟨?_, rfl⟩
        rintro (h | h | h | h)
        · exact h1 h
        · exact h2.1 h
        · exact h2.2 h
        · exact h3 h

section
variable (image : Nat → Byte) (h : ImageHeader) (ram_bytes stack_bytes : Word) (user : U)

/-- The room that the sizes leave, in terms of the layout: what `LaidOut` says beyond the checks. -/
theorem hasRoom_iff {stack heap : Nat} (hstack : stack = (initStack h stack_bytes).toNat)
    (hheap : heap = (heapLen h ram_bytes).toNat) :
    HasRoom h ram_bytes stack_bytes ↔
      stack + heap < 2 ^ 32 ∧ h.rwdata_size.toNat + h.bss_size.toNat ≤ heap ∧
        (stack + dataEnd h) % 2 ^ 32 + 8 ≤ stack + heap := by
  have hram := initRam_pos ram_bytes
  have hramlt := (initRam ram_bytes).isLt
  have hlen := heapLen_toNat h ram_bytes
  have hw := h.rwdata_size.isLt
  have hb := h.bss_size.isLt
  have hs := (initStack h stack_bytes).isLt
  unfold HasRoom dataEnd
  simp only
  rw [← hstack]
  omega

/-- The offset of the header of the arena. -/
theorem arenaBase_offset (stack : Word) :
    (arenaBase h - (RISCV_HALF - stack)).toNat = (stack.toNat + dataEnd h) % 2 ^ 32 := by
  rw [arena_offset, arenaBase_toNat]
  omega

/-- The arena past its header is inside the buffer when the header is. -/
theorem arena_within {stack heap g : Word} (hfit : stack.toNat + heap.toNat < 2 ^ 32)
    (hroom : (stack.toNat + dataEnd h) % 2 ^ 32 + 8 ≤ stack.toNat + heap.toNat)
    (hlo : arenaBase h + PURVA_HUNIT ≤ g) (hhi : g < RISCV_HALF + heap) :
    (g - (RISCV_HALF - stack)).toNat < stack.toNat + heap.toNat := by
  have hg := g.isLt
  have hbase := arenaBase_toNat h
  have hunit : PURVA_HUNIT.toNat = 8 := rfl
  rw [BitVec.le_def, BitVec.toNat_add, hbase, hunit] at hlo
  rw [BitVec.lt_def, BitVec.toNat_add, half_toNat] at hhi
  rw [arena_offset]
  unfold dataEnd at hlo hroom
  omega

/-- **The layout is safe exactly when the sizes leave room.** -/
theorem initRun_laidOut {image_len : Nat}
    (hlen : 20 + h.code_size.toNat + h.rodata_size.toNat + h.rwdata_size.toNat ≤ image_len) :
    LaidOut h image_len
        (initRun image h (initStack h stack_bytes) (heapLen h ram_bytes) user) ↔
      HasRoom h ram_bytes stack_bytes := by
  have hstack := initStack_ge h stack_bytes
  rw [hasRoom_iff h ram_bytes stack_bytes rfl rfl]
  generalize initStack h stack_bytes = stack at hstack ⊢
  generalize heapLen h ram_bytes = heap
  have hoff := arenaBase_offset h stack
  constructor
  · intro hi
    have hwritable : (stack + heap).toNat = stack.toNat + heap.toNat := hi.writable
    have hbss : stack.toNat + (h.rwdata_size.toNat + h.bss_size.toNat) ≤
      stack.toNat + heap.toNat := hi.bss
    have hsentinel : (arenaBase h - (RISCV_HALF - stack)).toNat + 8 ≤
      stack.toNat + heap.toNat := hi.sentinel
    have hlt := (stack + heap).isLt
    rw [hoff] at hsentinel
    exact ⟨by omega, by omega, hsentinel⟩
  · rintro ⟨hfit, hdata, hroom⟩
    constructor
    case accesses =>
      have hnext : (arenaBase h + 4#32 - (RISCV_HALF - stack)).toNat + 4 ≤
          stack.toNat + heap.toNat := by
        rw [arena_offset]
        rw [arena_offset] at hoff
        have h4 : (4#32).toNat = 4 := rfl
        rw [BitVec.toNat_add, h4]
        omega
      have hbase : (arenaBase h - (RISCV_HALF - stack)).toNat + 4 ≤
          stack.toNat + heap.toNat := by omega
      intro a ha
      simp only [initRun, List.mem_cons, List.not_mem_nil, or_false] at ha
      rcases ha with rfl | rfl | rfl | rfl | rfl
      · exact ⟨by omega, by show 0 + h.code_size.toNat ≤ max 1 h.code_size.toNat; omega⟩
      · exact ⟨by omega, by show 0 + h.rodata_size.toNat ≤ max 1 h.rodata_size.toNat; omega⟩
      · refine ⟨by omega, ?_⟩
        show stack.toNat + h.rwdata_size.toNat ≤ stack.toNat + heap.toNat
        omega
      · exact hbase
      · exact hnext
    case code => rfl
    case readonly => rfl
    case writable =>
      show (stack + heap).toNat = stack.toNat + heap.toNat
      rw [BitVec.toNat_add]
      omega
    case rwdata =>
      show stack.toNat + h.rwdata_size.toNat ≤ stack.toNat + heap.toNat
      omega
    case bss =>
      show stack.toNat + (h.rwdata_size.toNat + h.bss_size.toNat) ≤ stack.toNat + heap.toNat
      omega
    case stack => exact hstack
    case sentinel =>
      show (arenaBase h - (RISCV_HALF - stack)).toNat + 8 ≤ stack.toNat + heap.toNat
      rw [hoff]
      exact hroom
    case arena =>
      intro g hlo hhi
      exact arena_within h hfit hroom hlo hhi

end

/-- **`purva_run_init` lays a run out safely** exactly when it rejects the image, an allocation
fails, or the sizes leave room. -/
theorem purvaRunInit_laidOut (image : Nat → Byte) (image_len : Nat) (ram_bytes stack_bytes : Word)
    (oom : Bool) (user : U) :
    (∀ i, purvaRunInit image image_len ram_bytes stack_bytes oom user = some i →
        LaidOut (imageHeader image) image_len i) ↔
      Rejected (imageHeader image) image_len oom ∨
        HasRoom (imageHeader image) ram_bytes stack_bytes := by
  rcases purvaRunInit_eq image image_len ram_bytes stack_bytes oom user with
    ⟨hrej, hinit⟩ | ⟨hrej, hinit⟩
  · refine iff_of_true ?_ (Or.inl hrej)
    intro i hi
    rw [hinit] at hi
    cases hi
  · have hlen : 20 + (imageHeader image).code_size.toNat + (imageHeader image).rodata_size.toNat +
        (imageHeader image).rwdata_size.toNat ≤ image_len :=
      Nat.not_lt.mp fun h => hrej (Or.inr (Or.inr (Or.inl h)))
    rw [hinit, or_iff_right hrej,
      ← initRun_laidOut image (imageHeader image) ram_bytes stack_bytes user hlen]
    constructor
    · intro h
      exact h _ rfl
    · intro h i hi
      cases hi
      exact h

/-- An empty image with one byte of RAM: the header of the arena is written past the buffer. -/
theorem purvaRunInit_overflow :
    ∃ i, purvaRunInit (fun _ => 0#8) 20 1#32 0#32 false () = some i ∧
      .store (writableBuf, 1048576) 4 ∈ i.accesses ∧ i.allocated writableBuf = 1048577 ∧
        ¬ LaidOut (imageHeader fun _ => 0#8) 20 i := by
  refine ⟨_, rfl, ?_, ?_, ?_⟩
  · decide
  · decide
  · intro h
    have hsentinel := h.sentinel
    revert hsentinel
    decide

end Purv.Purva

import Purv.Lib.FreeList
import Purv.PurvaFrame
import Purv.PurvaInit
import Purv.PurvaSlices

/-!
# The heap of the guest: the invariant, and freeing

The allocator's headers are words of guest memory, so the invariant is stated on what they say.

* `nextAt`, `sizeAt`, `heapByte` — the header at a guest address, and a byte there;
* `Edits` — writes in headers: the links and sizes they leave, and the bytes they do not touch;
* `HeapAt`, `HeapInv` — the free list and the tiling of the arena;
* `KeepsBlock` — a live block as it was;
* `freeWalk_place` — the search of `purva__free` ends, at the place of the block;
* `purvaFree_spec` — so freeing a live block keeps the invariant and the other live blocks;
* `initRun_heap` — `purva_run_init` makes an empty heap.
-/

namespace Purv.Purva

open Bits Transcode FreeList Function

variable {U : Type}

/-! ## Headers and bytes -/

/-- A guest address. -/
def addr (a : Nat) : Word := BitVec.ofNat 32 a

/-- Where a header can be. -/
def Header (a : Nat) : Prop := a % 8 = 0 ∧ a < 2 ^ 32

instance (a : Nat) : Decidable (Header a) := inferInstanceAs (Decidable (_ ∧ _))

theorem addr_toNat {a : Nat} (ha : a < 2 ^ 32) : (addr a).toNat = a := by
  unfold addr
  rw [BitVec.toNat_ofNat, Nat.mod_eq_of_lt ha]

theorem addr_of_toNat (a : Word) : addr a.toNat = a := by
  unfold addr
  rw [BitVec.ofNat_toNat, BitVec.setWidth_eq]

theorem addr_inj {a b : Nat} (ha : a < 2 ^ 32) (hb : b < 2 ^ 32) : addr a = addr b ↔ a = b := by
  constructor
  · intro h
    rw [← addr_toNat ha, ← addr_toNat hb, h]
  · rintro rfl
    rfl

theorem addr_lt {a b : Nat} (ha : a < 2 ^ 32) (hb : b < 2 ^ 32) : addr a < addr b ↔ a < b := by
  rw [BitVec.lt_def, addr_toNat ha, addr_toNat hb]

theorem addr_le {a b : Nat} (ha : a < 2 ^ 32) (hb : b < 2 ^ 32) : addr a ≤ addr b ↔ a ≤ b := by
  rw [BitVec.le_def, addr_toNat ha, addr_toNat hb]

theorem addr_add (a b : Nat) : addr a + addr b = addr (a + b) := by
  unfold addr
  rw [BitVec.ofNat_add]

theorem addr_units (a : Nat) : addr a * PURVA_HUNIT = addr (8 * a) := by
  unfold addr PURVA_HUNIT
  rw [Nat.mul_comm, BitVec.ofNat_mul]

theorem addr_sub {a b : Nat} (hba : b ≤ a) : addr a - addr b = addr (a - b) := by
  have h := addr_add (a - b) b
  rw [Nat.sub_add_cancel hba] at h
  rw [← h]
  exact BitVec.add_sub_cancel _ _

theorem addr_unit (a : Nat) : addr a + PURVA_HUNIT = addr (a + 8) := addr_add a 8

theorem addr_sub_unit (a : Nat) : addr (a + 8) - PURVA_HUNIT = addr a := by
  rw [← addr_unit]
  exact BitVec.add_sub_cancel _ _

theorem words_apart {a b : Word} (o : Word) (ha : a.toNat % 4 = 0) (hb : b.toNat % 4 = 0)
    (hne : a ≠ b) : (a - o).toNat + 4 ≤ (b - o).toNat ∨ (b - o).toNat + 4 ≤ (a - o).toNat := by
  bv_omega

section
variable (s : State (PurvaRun U))

/-- The offset of a guest address in its buffer. -/
def offset (a : Nat) : Nat := (purvaArena s (addr a)).2

/-- The byte at a guest address. -/
def heapByte (a : Nat) : Byte := s.mem s.host.writable (offset s a)

/-- The link in the header at `a`. -/
def nextAt (a : Nat) : Nat := if Header a then (purvaNext s (addr a)).toNat else 0

/-- The size in the header at `a`. -/
def sizeAt (a : Nat) : Nat := if Header a then (purvaSize s (addr a)).toNat else 0

theorem purvaNext_addr {a : Nat} (ha : Header a) : purvaNext s (addr a) = addr (nextAt s a) := by
  unfold nextAt
  rw [if_pos ha, addr_of_toNat]

theorem purvaSize_addr {a : Nat} (ha : Header a) : purvaSize s (addr a) = addr (sizeAt s a) := by
  unfold sizeAt
  rw [if_pos ha, addr_of_toNat]

theorem nextAt_lt (a : Nat) : nextAt s a < 2 ^ 32 := by
  unfold nextAt
  split
  · exact BitVec.isLt _
  · decide

theorem sizeAt_lt (a : Nat) : sizeAt s a < 2 ^ 32 := by
  unfold sizeAt
  split
  · exact BitVec.isLt _
  · decide

theorem purvaSt_eq (a v : Word) :
    purvaSt s a v = { s with
      mem := fun b o =>
        if b = (purvaArena s a).1 ∧ (purvaArena s a).2 ≤ o ∧ o < (purvaArena s a).2 + 4 then
          v.extractLsb' (8 * (o - (purvaArena s a).2)) 8
        else s.mem b o } :=
  stLe_four s (purvaArena s a) v

theorem purvaSt_host (a v : Word) : (purvaSt s a v).host = s.host := by
  rw [purvaSt_eq]

theorem purvaArena_st (a v b : Word) : purvaArena (purvaSt s a v) b = purvaArena s b := by
  unfold purvaArena
  rw [purvaSt_host]

/-- The bytes of a word make it up. -/
theorem word_of_bytes (v : Word) :
    (v.extractLsb' 0 8).setWidth 32 ||| (v.extractLsb' 8 8).setWidth 32 <<< 8 |||
      ((v.extractLsb' 16 8).setWidth 32 <<< 16 ||| (v.extractLsb' 24 8).setWidth 32 <<< 24) = v := by
  ext i hi
  interval_cases i <;> simp [BitVec.getLsbD_eq_getElem]

theorem purvaLd_st_self (a v : Word) : purvaLd (purvaSt s a v) a = v := by
  have hbyte : ∀ i < 4, (purvaSt s a v).byte (purvaArena s a) i = v.extractLsb' (8 * i) 8 := by
    intro i hi
    rw [purvaSt_eq]
    refine (if_pos ⟨rfl, by omega, by omega⟩).trans ?_
    rw [Nat.add_sub_cancel_left]
  unfold purvaLd
  rw [purvaArena_st]
  unfold ldLe
  rw [hbyte 0 (by decide), hbyte 1 (by decide), hbyte 2 (by decide), hbyte 3 (by decide)]
  exact word_of_bytes v

theorem purvaLd_st_ne {a b : Word} (v : Word)
    (hoff : (purvaArena s a).2 + 4 ≤ (purvaArena s b).2 ∨
      (purvaArena s b).2 + 4 ≤ (purvaArena s a).2) :
    purvaLd (purvaSt s a v) b = purvaLd s b := by
  have hbyte : ∀ i < 4, (purvaSt s a v).byte (purvaArena s b) i = s.byte (purvaArena s b) i := by
    intro i hi
    rw [purvaSt_eq]
    exact if_neg (by omega)
  unfold purvaLd
  rw [purvaArena_st]
  unfold ldLe
  rw [hbyte 0 (by decide), hbyte 1 (by decide), hbyte 2 (by decide), hbyte 3 (by decide)]

/-- Two words of the arena do not overlap. -/
theorem arena_apart {a b : Word} (ha : a.toNat % 4 = 0) (hb : b.toNat % 4 = 0) (hne : a ≠ b) :
    (purvaArena s a).2 + 4 ≤ (purvaArena s b).2 ∨ (purvaArena s b).2 + 4 ≤ (purvaArena s a).2 := by
  show (a - (RISCV_HALF - s.host.stack_len)).toNat + 4 ≤
      (b - (RISCV_HALF - s.host.stack_len)).toNat ∨
    (b - (RISCV_HALF - s.host.stack_len)).toNat + 4 ≤
      (a - (RISCV_HALF - s.host.stack_len)).toNat
  exact words_apart _ ha hb hne

theorem addr_size {a : Nat} (ha : Header a) : (addr a + 4#32).toNat = a + 4 := by
  obtain ⟨h8, hlt⟩ := ha
  show (addr a + addr 4).toNat = a + 4
  rw [addr_add, addr_toNat (by omega)]

end

section
variable (s : State (PurvaRun U)) {a : Nat} (ha : Header a) (v : Word)
include ha

theorem nextAt_setNext : nextAt (purvaSetNext s (addr a) v) = update (nextAt s) a v.toNat := by
  funext b
  by_cases hb : Header b
  · by_cases hba : b = a
    · subst hba
      rw [update_self, nextAt, if_pos hb]
      exact congrArg BitVec.toNat (purvaLd_st_self s _ v)
    · rw [update_of_ne hba, nextAt, nextAt, if_pos hb, if_pos hb]
      refine congrArg BitVec.toNat (purvaLd_st_ne s v (arena_apart s ?_ ?_ ?_))
      · rw [addr_toNat ha.2]
        have := ha.1
        omega
      · rw [addr_toNat hb.2]
        have := hb.1
        omega
      · exact fun h => hba ((addr_inj ha.2 hb.2).mp h).symm
  · have hba : b ≠ a := by
      rintro rfl
      exact hb ha
    rw [update_of_ne hba, nextAt, nextAt, if_neg hb, if_neg hb]

theorem sizeAt_setSize : sizeAt (purvaSetSize s (addr a) v) = update (sizeAt s) a v.toNat := by
  funext b
  by_cases hb : Header b
  · by_cases hba : b = a
    · subst hba
      rw [update_self, sizeAt, if_pos hb]
      exact congrArg BitVec.toNat (purvaLd_st_self s _ v)
    · rw [update_of_ne hba, sizeAt, sizeAt, if_pos hb, if_pos hb]
      refine congrArg BitVec.toNat (purvaLd_st_ne s v (arena_apart s ?_ ?_ ?_))
      · rw [addr_size ha]
        have := ha.1
        omega
      · rw [addr_size hb]
        have := hb.1
        omega
      · intro h
        have := congrArg BitVec.toNat h
        rw [addr_size ha, addr_size hb] at this
        omega
  · have hba : b ≠ a := by
      rintro rfl
      exact hb ha
    rw [update_of_ne hba, sizeAt, sizeAt, if_neg hb, if_neg hb]

theorem sizeAt_setNext : sizeAt (purvaSetNext s (addr a) v) = sizeAt s := by
  funext b
  unfold sizeAt
  split
  · rename_i hb
    refine congrArg BitVec.toNat (purvaLd_st_ne s v (arena_apart s ?_ ?_ ?_))
    · rw [addr_toNat ha.2]
      have := ha.1
      omega
    · rw [addr_size hb]
      have := hb.1
      omega
    · intro h
      have := congrArg BitVec.toNat h
      rw [addr_toNat ha.2, addr_size hb] at this
      have := ha.1
      have := hb.1
      omega
  · rfl

theorem nextAt_setSize : nextAt (purvaSetSize s (addr a) v) = nextAt s := by
  funext b
  unfold nextAt
  split
  · rename_i hb
    refine congrArg BitVec.toNat (purvaLd_st_ne s v (arena_apart s ?_ ?_ ?_))
    · rw [addr_size ha]
      have := ha.1
      omega
    · rw [addr_toNat hb.2]
      have := hb.1
      omega
    · intro h
      have := congrArg BitVec.toNat h
      rw [addr_size ha, addr_toNat hb.2] at this
      have := ha.1
      have := hb.1
      omega
  · rfl

end

/-! ## What the header writes change -/

theorem word_inside {a x : Word} (o : Word) (ha : a.toNat + 4 ≤ 2 ^ 32)
    (hlo : (a - o).toNat ≤ (x - o).toNat) (hhi : (x - o).toNat < (a - o).toNat + 4) :
    a.toNat ≤ x.toNat ∧ x.toNat < a.toNat + 4 := by
  bv_omega

theorem heapByte_st (s : State (PurvaRun U)) {a : Word} (v : Word) {x : Nat}
    (ha : a.toNat + 4 ≤ 2 ^ 32) (hx : x < 2 ^ 32) (hout : x < a.toNat ∨ a.toNat + 4 ≤ x) :
    heapByte (purvaSt s a v) x = heapByte s x := by
  unfold heapByte offset
  rw [purvaArena_st, purvaSt_host, purvaSt_eq]
  refine if_neg fun hc => ?_
  have hin := word_inside (RISCV_HALF - s.host.stack_len) ha hc.2.1 hc.2.2
  rw [addr_toNat hx] at hin
  omega

/-- The state `s'` is `s` after writes in the headers at `A`: the links, the sizes, and what stays. -/
structure Edits (s s' : State (PurvaRun U)) (nx sz : Nat → Nat) (A : Nat → Prop) : Prop where
  next : nextAt s' = nx
  size : sizeAt s' = sz
  host : s'.host = s.host
  bytes : ∀ x < 2 ^ 32, (∀ a, A a → x < a ∨ a + 8 ≤ x) → heapByte s' x = heapByte s x

theorem Edits.refl (s : State (PurvaRun U)) (A : Nat → Prop) :
    Edits s s (nextAt s) (sizeAt s) A :=
  ⟨rfl, rfl, rfl, fun _ _ _ => rfl⟩

theorem Edits.trans {s s' s'' : State (PurvaRun U)} {nx sz nx' sz' : Nat → Nat} {A A' : Nat → Prop}
    (h : Edits s s' nx sz A) (h' : Edits s' s'' nx' sz' A') :
    Edits s s'' nx' sz' (fun a => A a ∨ A' a) where
  next := h'.next
  size := h'.size
  host := h'.host.trans h.host
  bytes := fun x hx hA => (h'.bytes x hx fun a ha => hA a (.inr ha)).trans
    (h.bytes x hx fun a ha => hA a (.inl ha))

theorem Edits.setNext {s s' : State (PurvaRun U)} {nx sz : Nat → Nat} {A : Nat → Prop}
    (h : Edits s s' nx sz A) {a v : Nat} (ha : Header a) (hA : A a) (hv : v < 2 ^ 32) :
    Edits s (purvaSetNext s' (addr a) (addr v)) (update nx a v) sz A where
  next := by rw [nextAt_setNext s' ha, h.next, addr_toNat hv]
  size := by rw [sizeAt_setNext s' ha, h.size]
  host := (purvaSt_host _ _ _).trans h.host
  bytes := fun x hx hout => by
    have hx' := hout a hA
    obtain ⟨h8, hlt⟩ := ha
    rw [← h.bytes x hx hout]
    refine heapByte_st s' (addr v) ?_ hx ?_
    · rw [addr_toNat hlt]
      omega
    · rw [addr_toNat hlt]
      omega

theorem Edits.setSize {s s' : State (PurvaRun U)} {nx sz : Nat → Nat} {A : Nat → Prop}
    (h : Edits s s' nx sz A) {a v : Nat} (ha : Header a) (hA : A a) (hv : v < 2 ^ 32) :
    Edits s (purvaSetSize s' (addr a) (addr v)) nx (update sz a v) A where
  next := by rw [nextAt_setSize s' ha, h.next]
  size := by rw [sizeAt_setSize s' ha, h.size, addr_toNat hv]
  host := (purvaSt_host _ _ _).trans h.host
  bytes := fun x hx hout => by
    have hx' := hout a hA
    have hsize := addr_size ha
    obtain ⟨h8, hlt⟩ := ha
    rw [← h.bytes x hx hout]
    refine heapByte_st s' (addr v) ?_ hx ?_
    · rw [hsize]
      omega
    · rw [hsize]
      omega

/-! ## `purva__free` -/

/-- The step of `purva__free` that looks at the next node. -/
def freeNext (s : State (PurvaRun U)) (p bp : Word) : State (PurvaRun U) :=
  if bp + purvaSize s bp * PURVA_HUNIT = purvaNext s p then
    let s := purvaSetSize s bp (purvaSize s bp + purvaSize s (purvaNext s p))
    purvaSetNext s bp (purvaNext s (purvaNext s p))
  else purvaSetNext s bp (purvaNext s p)

/-- The step that looks at the node before. -/
def freePrev (s : State (PurvaRun U)) (p bp : Word) : State (PurvaRun U) :=
  if p + purvaSize s p * PURVA_HUNIT = bp then
    let s := purvaSetSize s p (purvaSize s p + purvaSize s bp)
    purvaSetNext s p (purvaNext s bp)
  else purvaSetNext s p bp

theorem purvaFree_eq (steps : Nat) (s : State (PurvaRun U)) (ap : Word) :
    purvaFree steps s ap = (freeWalk s (ap - PURVA_HUNIT) steps s.host.freep).map fun p =>
      setFreep (freePrev (freeNext s p (ap - PURVA_HUNIT)) p (ap - PURVA_HUNIT)) p := rfl

theorem edits_freeNext (s : State (PurvaRun U)) {p b : Nat} (hp : Header p) (hb : Header b)
    (hq : Header (nextAt s p)) (hlt : b + 8 * sizeAt s b < 2 ^ 32)
    (hsum : b + 8 * sizeAt s b = nextAt s p → sizeAt s b + sizeAt s (nextAt s p) < 2 ^ 32) :
    Edits s (freeNext s (addr p) (addr b)) (joinNext (nextAt s) (sizeAt s) p b).1
      (joinNext (nextAt s) (sizeAt s) p b).2 (· = b) := by
  unfold freeNext joinNext
  rw [purvaSize_addr s hb, purvaNext_addr s hp, addr_units, addr_add]
  by_cases hj : b + 8 * sizeAt s b = nextAt s p
  · rw [if_pos hj, if_pos (congrArg addr hj), purvaSize_addr s hq, addr_add]
    have h1 := (Edits.refl s (· = b)).setSize hb rfl (hsum hj)
    simp only
    rw [purvaNext_addr _ hp, nextAt_setSize s hb, purvaNext_addr _ hq, nextAt_setSize s hb]
    exact h1.setNext hb rfl (nextAt_lt s _)
  · rw [if_neg hj, if_neg fun h => hj ((addr_inj hlt hq.2).mp h)]
    exact (Edits.refl s (· = b)).setNext hb rfl hq.2

theorem edits_freePrev (s : State (PurvaRun U)) {p b : Nat} (hp : Header p) (hb : Header b)
    (hlt : p + 8 * sizeAt s p < 2 ^ 32)
    (hsum : p + 8 * sizeAt s p = b → sizeAt s p + sizeAt s b < 2 ^ 32) :
    Edits s (freePrev s (addr p) (addr b)) (joinPrev (nextAt s) (sizeAt s) p b).1
      (joinPrev (nextAt s) (sizeAt s) p b).2 (· = p) := by
  unfold freePrev joinPrev
  rw [purvaSize_addr s hp, addr_units, addr_add]
  by_cases hj : p + 8 * sizeAt s p = b
  · rw [if_pos hj, if_pos (congrArg addr hj), purvaSize_addr s hb, addr_add]
    have h1 := (Edits.refl s (· = p)).setSize hp rfl (hsum hj)
    simp only
    rw [purvaNext_addr _ hb, nextAt_setSize s hp]
    exact h1.setNext hp rfl (nextAt_lt s _)
  · rw [if_neg hj, if_neg fun h => hj ((addr_inj hlt hb.2).mp h)]
    exact (Edits.refl s (· = p)).setNext hp rfl hb.2

/-- How far the walk from `x` to the place of `b` still is. -/
def freeDist (base brk b x : Nat) : Nat := if x < b then b - x else (brk - x) + (b - base) + 1

/-- **The search of `purva__free` finds the place of the block.** -/
theorem freeWalk_place {s : State (PurvaRun U)} {base brk b : Nat} {F : Nat → Prop}
    (hr : Ring base F (nextAt s)) (hF : ∀ x, x = base ∨ F x → Header x ∧ x < brk)
    (hb : base < b ∧ b < 2 ^ 32) (hbF : ¬ F b) (n : Nat) :
    ∀ x, x = base ∨ F x → freeDist base brk b x < n →
      ∃ p, Place base (nextAt s) F b p ∧ freeWalk s (addr b) n (addr x) = some (addr p) := by
  induction n with
  | zero =>
    intro x _ hn
    omega
  | succ n ih =>
    intro x hx hn
    have hxh := hF x hx
    have hq := hr.next_node hx
    have hqh := hF _ hq
    have hxb : x ≠ b := by
      rintro rfl
      rcases hx with rfl | hx
      · omega
      · exact hbF hx
    have hbase := hr.base_le hx
    unfold freeWalk
    rw [purvaNext_addr s hxh.1]
    simp only [gt_iff_lt, ge_iff_le, addr_lt hxh.1.2 hb.2, addr_lt hb.2 hqh.1.2,
      addr_le hqh.1.2 hxh.1.2]
    by_cases h1 : x < b ∧ b < nextAt s x
    · rw [if_pos h1]
      exact ⟨x, ⟨hx, h1.1, .inl h1.2⟩, rfl⟩
    rw [if_neg h1]
    by_cases h2 : nextAt s x ≤ x ∧ (x < b ∨ b < nextAt s x)
    · rw [if_pos h2]
      have hqb : nextAt s x = base := by
        rcases hr.next x hx with ⟨_, hlt, _⟩ | ⟨hy, _⟩
        · omega
        · exact hy
      exact ⟨x, ⟨hx, by omega, .inr hqb⟩, rfl⟩
    rw [if_neg h2]
    refine ih _ hq ?_
    unfold freeDist at hn ⊢
    rcases hr.next x hx with ⟨hy, hlt, _⟩ | ⟨hy, _⟩
    · have hqb : nextAt s x ≠ b := by
        intro h
        exact hbF (h ▸ hy)
      by_cases hxlt : x < b
      · rw [if_pos hxlt] at hn
        rw [if_pos (by omega)]
        omega
      · rw [if_neg hxlt] at hn
        rw [if_neg (by omega)]
        omega
    · rw [hy] at h2 ⊢
      rw [if_neg (by omega)] at hn
      rw [if_pos hb.1]
      omega

/-! ## The invariant -/

/-- **The allocator's invariant**, with the free blocks `F` and the live blocks `L`, in an arena whose
base is as `Q` says: the free list and the tiling of `[basep + 8, heap_brk)`, the roving pointer on
the list, and the arena below `heap_top` and inside the buffer. -/
structure HeapAt (Q : Nat → Prop) (s : State (PurvaRun U)) (F L : Nat → Prop) : Prop where
  heap : Heap s.host.basep.toNat s.host.heap_brk.toNat (nextAt s) (sizeAt s) F L
  freep : s.host.freep.toNat = s.host.basep.toNat ∨ F s.host.freep.toNat
  aligned : s.host.basep.toNat % 8 = 0
  base : Q s.host.basep.toNat
  top : s.host.heap_brk ≤ s.host.heap_top
  buffer : offset s s.host.basep.toNat + (s.host.heap_top.toNat - s.host.basep.toNat) ≤ 2 ^ 32

/-- The invariant in an arena that does not begin at guest address 0. -/
abbrev HeapInv (s : State (PurvaRun U)) (F L : Nat → Prop) : Prop := HeapAt (0 < ·) s F L

/-- The host's side is as it was, up to the allocator's two words. -/
def SameHost (s s' : State (PurvaRun U)) : Prop :=
  s'.host = { s.host with freep := s'.host.freep, heap_brk := s'.host.heap_brk }

theorem SameHost.trans {s s' s'' : State (PurvaRun U)} (h : SameHost s s') (h' : SameHost s' s'') :
    SameHost s s'' := by
  unfold SameHost at *
  rw [h', h]

theorem SameHost.basep {s s' : State (PurvaRun U)} (h : SameHost s s') :
    s'.host.basep = s.host.basep := by rw [h]

theorem SameHost.heap_top {s s' : State (PurvaRun U)} (h : SameHost s s') :
    s'.host.heap_top = s.host.heap_top := by rw [h]

theorem SameHost.offset {s s' : State (PurvaRun U)} (h : SameHost s s') (a : Nat) :
    Purva.offset s' a = Purva.offset s a := by
  unfold Purva.offset purvaArena
  rw [h]

/-- The live block `c` keeps its size and its payload. -/
structure KeepsBlock (s s' : State (PurvaRun U)) (c : Nat) : Prop where
  size : sizeAt s' c = sizeAt s c
  payload : ∀ x, c + 8 ≤ x → x < c + 8 * sizeAt s c → heapByte s' x = heapByte s x

theorem KeepsBlock.refl (s : State (PurvaRun U)) (c : Nat) : KeepsBlock s s c :=
  ⟨rfl, fun _ _ _ => rfl⟩

theorem KeepsBlock.trans {s s' s'' : State (PurvaRun U)} {c : Nat} (h : KeepsBlock s s' c)
    (h' : KeepsBlock s' s'' c) : KeepsBlock s s'' c where
  size := h'.size.trans h.size
  payload := fun x hlo hhi => (h'.payload x hlo (by rw [h.size]; exact hhi)).trans
    (h.payload x hlo hhi)

section
variable {s : State (PurvaRun U)} {Q : Nat → Prop} {F L : Nat → Prop}

theorem HeapInv.pos (hi : HeapInv s F L) : 0 < s.host.basep.toNat := hi.base

theorem HeapAt.top_le (hi : HeapAt Q s F L) : s.host.heap_brk.toNat ≤ s.host.heap_top.toNat :=
  BitVec.le_def.mp hi.top

theorem HeapAt.node (hi : HeapAt Q s F L) {x : Nat} (hx : x = s.host.basep.toNat ∨ F x) :
    Header x ∧ x + 8 ≤ s.host.heap_brk.toNat := by
  have hbrk := s.host.heap_brk.isLt
  have hroom := hi.heap.tiled.room
  have halign := hi.aligned
  rcases hx with rfl | hx
  · exact ⟨⟨halign, s.host.basep.isLt⟩, hroom⟩
  · have h1 := hi.heap.tiled.aligned x (.inl hx)
    have h2 := hi.heap.tiled.high x (.inl hx)
    have h3 := hi.heap.tiled.pos x (.inl hx)
    exact ⟨⟨by omega, by omega⟩, by omega⟩

theorem HeapAt.live (hi : HeapAt Q s F L) {x : Nat} (hx : L x) :
    Header x ∧ s.host.basep.toNat + 8 ≤ x ∧ x + 8 * sizeAt s x ≤ s.host.heap_brk.toNat ∧
      0 < sizeAt s x := by
  have hbrk := s.host.heap_brk.isLt
  have halign := hi.aligned
  have h1 := hi.heap.tiled.aligned x (.inr hx)
  have h2 := hi.heap.tiled.high x (.inr hx)
  have h3 := hi.heap.tiled.pos x (.inr hx)
  exact ⟨⟨by omega, by omega⟩, hi.heap.tiled.low x (.inr hx), h2, h3⟩

/-- Writes in headers that are not those of `c` keep it. -/
theorem HeapAt.keeps (hi : HeapAt Q s F L) {s' : State (PurvaRun U)} {nx sz : Nat → Nat}
    {A : Nat → Prop} (he : Edits s s' nx sz A) {c : Nat} (hc : L c) (hsz : sz c = sizeAt s c)
    (hA : ∀ a, A a → a + 8 ≤ c + 8 ∨ c + 8 * sizeAt s c ≤ a) : KeepsBlock s s' c where
  size := (congrFun he.size c).trans hsz
  payload := fun x hlo hhi => by
    obtain ⟨_, _, hhigh, _⟩ := hi.live hc
    have := s.host.heap_brk.isLt
    refine he.bytes x (by omega) fun a ha => ?_
    rcases hA a ha with h | h
    · exact .inr (by omega)
    · exact .inl (by omega)

/-- The header of a node is outside every live block. -/
theorem HeapAt.node_outside (hi : HeapAt Q s F L) {p c : Nat}
    (hp : p = s.host.basep.toNat ∨ F p) (hc : L c) : p + 8 ≤ c + 8 ∨ c + 8 * sizeAt s c ≤ p := by
  obtain ⟨_, hlow, _, _⟩ := hi.live hc
  rcases hp with rfl | hp
  · exact .inl (by omega)
  · rcases Nat.lt_trichotomy p c with hlt | rfl | hlt
    · exact .inl (by omega)
    · exact absurd hc (hi.heap.disjoint p hp)
    · exact .inr (hi.heap.tiled.apart c p (.inr hc) (.inl hp) hlt)

/-- So is the header of another live block. -/
theorem HeapAt.live_outside (hi : HeapAt Q s F L) {b c : Nat} (hb : L b) (hc : L c) (hne : c ≠ b) :
    b + 8 ≤ c + 8 ∨ c + 8 * sizeAt s c ≤ b := by
  rcases Nat.lt_or_ge b c with hlt | hge
  · exact .inl (by omega)
  · exact .inr (hi.heap.tiled.apart c b (.inr hc) (.inr hb) (by omega))

/-- The state after header writes, and the roving pointer. -/
theorem HeapAt.edited (hi : HeapAt Q s F L) {s' : State (PurvaRun U)} {nx sz : Nat → Nat}
    {A : Nat → Prop} (he : Edits s s' nx sz A) {F' L' : Nat → Prop}
    (hh : Heap s.host.basep.toNat s.host.heap_brk.toNat nx sz F' L') {p : Nat} (hp : Header p)
    (hpF : p = s.host.basep.toNat ∨ F' p) : HeapAt Q (setFreep s' (addr p)) F' L' where
  heap := by
    show Heap s'.host.basep.toNat s'.host.heap_brk.toNat (nextAt s') (sizeAt s') F' L'
    rw [he.host, he.next, he.size]
    exact hh
  freep := by
    show (addr p).toNat = s'.host.basep.toNat ∨ F' (addr p).toNat
    rw [he.host, addr_toNat hp.2]
    exact hpF
  aligned := by
    show s'.host.basep.toNat % 8 = 0
    rw [he.host]
    exact hi.aligned
  base := by
    show Q s'.host.basep.toNat
    rw [he.host]
    exact hi.base
  top := by
    show s'.host.heap_brk ≤ s'.host.heap_top
    rw [he.host]
    exact hi.top
  buffer := by
    have ho : ∀ a, offset (setFreep s' (addr p)) a = offset s a := by
      intro a
      show (addr a - (RISCV_HALF - s'.host.stack_len)).toNat = _
      rw [he.host]
      rfl
    show offset (setFreep s' (addr p)) s'.host.basep.toNat +
      (s'.host.heap_top.toNat - s'.host.basep.toNat) ≤ 2 ^ 32
    rw [ho, he.host]
    exact hi.buffer

theorem Edits.sameHost {s' : State (PurvaRun U)} {nx sz : Nat → Nat} {A : Nat → Prop}
    (he : Edits s s' nx sz A) (p : Word) : SameHost s (setFreep s' p) := by
  have hh := he.host
  unfold SameHost setFreep
  simp only
  rw [hh]

theorem KeepsBlock.setFreep {s' : State (PurvaRun U)} {c : Nat} (hk : KeepsBlock s s' c)
    (p : Word) : KeepsBlock s (Purva.setFreep s' p) c := ⟨hk.size, hk.payload⟩

theorem nextAt_setFreep (p : Word) : nextAt (setFreep s p) = nextAt s := rfl

theorem sizeAt_setFreep (p : Word) : sizeAt (setFreep s p) = sizeAt s := rfl

/-- How many steps of a walk are always enough. -/
def WALK : Nat := 2 ^ 34

theorem HeapAt.node_place (hi : HeapAt Q s F L) {b steps : Nat} (hb : L b) (hs : WALK ≤ steps) :
    ∃ p, Place s.host.basep.toNat (nextAt s) F b p ∧
      freeWalk s (addr b) steps s.host.freep = some (addr p) := by
  obtain ⟨hbh, hlow, hhigh, hpos⟩ := hi.live hb
  have hbrk := s.host.heap_brk.isLt
  have hnodes : ∀ x, x = s.host.basep.toNat ∨ F x → Header x ∧ x < s.host.heap_brk.toNat := by
    intro x hx
    obtain ⟨hxh, hxb⟩ := hi.node hx
    exact ⟨hxh, by omega⟩
  have hfree := (hnodes _ hi.freep).2
  obtain ⟨p, hp, hw⟩ := freeWalk_place (b := b) hi.heap.ring hnodes ⟨by omega, hbh.2⟩
    (fun hF => hi.heap.disjoint b hF hb) steps s.host.freep.toNat hi.freep (by
      unfold WALK at hs
      unfold freeDist
      split <;> omega)
  rw [addr_of_toNat] at hw
  exact ⟨p, hp, hw⟩

/-- The header writes of `purva__free`. -/
theorem HeapAt.free_edits (hi : HeapAt Q s F L) {b p : Nat} (hb : L b)
    (hp : Place s.host.basep.toNat (nextAt s) F b p) {m : (Nat → Nat) × (Nat → Nat)}
    (hm : joinNext (nextAt s) (sizeAt s) p b = m) :
    Edits s (freePrev (freeNext s (addr p) (addr b)) (addr p) (addr b)) (joinPrev m.1 m.2 p b).1
      (joinPrev m.1 m.2 p b).2 (fun a => a = b ∨ a = p) := by
  obtain ⟨hbh, hlow, hhigh, hpos⟩ := hi.live hb
  have hbrk := s.host.heap_brk.isLt
  obtain ⟨hph, hpbrk⟩ := hi.node hp.node
  have hq := hi.node (hi.heap.ring.next_node hp.node)
  have hpb := hp.lt
  have e1 := edits_freeNext s hph hbh hq.1 (by omega) (fun hj => by
    have hqF : F (nextAt s p) := by
      rcases hi.heap.ring.next_node hp.node with h | h
      · omega
      · exact h
    have := hi.heap.tiled.high _ (.inl hqF)
    omega)
  obtain ⟨F₁, hl₁, hb₁, -, -, hsz₁, -⟩ := hi.heap.joinNext hb hp
  rw [hm] at e1 hl₁ hsz₁
  have hh₁ := hl₁.tiled.high b (.inl hb₁)
  have hpsz := hsz₁ p (by omega)
  have hpend : p + 8 * sizeAt s p ≤ b := by
    rcases hp.node with h | hF
    · have hzero := hi.heap.zero
      rw [← h] at hzero
      omega
    · exact hi.heap.tiled.apart p b (.inl hF) (.inr hb) hp.lt
  have e2 := edits_freePrev (freeNext s (addr p) (addr b)) hph hbh
    (by rw [e1.size]; omega) (fun _ => by rw [e1.size]; omega)
  rw [e1.next, e1.size] at e2
  exact e1.trans e2

/-- **Freeing a live block** keeps the invariant and every other live block; what was freed is part
of the block at the roving pointer, or of the one after it. -/
theorem purvaFree_spec (hi : HeapAt Q s F L) {b steps : Nat} (hb : L b) (hs : WALK ≤ steps) :
    ∃ s' F', purvaFree steps s (addr (b + 8)) = some s' ∧ SameHost s s' ∧
      s'.host.heap_brk = s.host.heap_brk ∧ HeapAt Q s' F' (fun x => L x ∧ x ≠ b) ∧
      (∀ c, L c → c ≠ b → KeepsBlock s s' c) ∧
      ∃ g, F' g ∧ (g = s'.host.freep.toNat ∨ nextAt s' s'.host.freep.toNat = g) ∧
        sizeAt s b ≤ sizeAt s' g := by
  obtain ⟨p, hp, hw⟩ := hi.node_place hb hs
  obtain ⟨F', hheap, hpF, hsz, g, hg, hgp, hgsz⟩ := hi.heap.release hb hp rfl
  have e := hi.free_edits hb hp rfl
  have hph := (hi.node hp.node).1
  have hfree : purvaFree steps s (addr (b + 8)) =
      some (setFreep (freePrev (freeNext s (addr p) (addr b)) (addr p) (addr b)) (addr p)) := by
    rw [purvaFree_eq, addr_sub_unit, hw]
    rfl
  generalize freePrev (freeNext s (addr p) (addr b)) (addr p) (addr b) = q at e hfree
  have hfreep : (setFreep q (addr p)).host.freep.toNat = p := addr_toNat hph.2
  have hbrk : (setFreep q (addr p)).host.heap_brk = s.host.heap_brk := by
    show q.host.heap_brk = _
    rw [e.host]
  refine ⟨_, F', hfree, e.sameHost _, hbrk, hi.edited e hheap hph hpF,
    ?_, g, hg, ?_, ?_⟩
  · intro c hc hne
    refine (hi.keeps e hc (hsz c hc hne) ?_).setFreep _
    rintro a (rfl | rfl)
    · exact hi.live_outside hb hc hne
    · exact hi.node_outside hp.node hc
  · rw [hfreep, nextAt_setFreep, e.next]
    exact hgp
  · rw [sizeAt_setFreep, e.size]
    exact hgsz

/-- It leaves the roving pointer at the node before what was freed. -/
theorem purvaFree_place (hi : HeapAt Q s F L) {b steps : Nat} (hb : L b) (hs : WALK ≤ steps)
    {s' : State (PurvaRun U)} (h : purvaFree steps s (addr (b + 8)) = some s') :
    Place s.host.basep.toNat (nextAt s) F b s'.host.freep.toNat := by
  obtain ⟨p, hp, hw⟩ := hi.node_place hb hs
  rw [purvaFree_eq, addr_sub_unit, hw] at h
  cases h
  show Place _ _ _ _ (addr p).toNat
  rw [addr_toNat (hi.node hp.node).1.2]
  exact hp

/-! ## The empty heap -/

/-- The header that `purva_run_init` writes makes an empty heap, if the arena has room for it. -/
theorem heapAt_empty (s : State (PurvaRun U)) (hfree : s.host.freep = s.host.basep)
    (hbrk : s.host.heap_brk.toNat = s.host.basep.toNat + 8) (hal : s.host.basep.toNat % 8 = 0)
    (hbase : Q s.host.basep.toNat) (htop : s.host.heap_brk ≤ s.host.heap_top)
    (hbuf : offset s s.host.basep.toNat + (s.host.heap_top.toNat - s.host.basep.toNat) ≤ 2 ^ 32) :
    HeapAt Q (purvaSetSize (purvaSetNext s s.host.basep s.host.basep) s.host.basep 0#32)
      (fun _ => False) (fun _ => False) := by
  have hbh : Header s.host.basep.toNat := ⟨hal, s.host.basep.isLt⟩
  have e1 := (Edits.refl s (fun _ => True)).setNext hbh trivial s.host.basep.isLt
  have e := e1.setSize hbh trivial (show 0 < 2 ^ 32 by decide)
  rw [addr_of_toNat] at e
  change Edits s (purvaSetSize (purvaSetNext s s.host.basep s.host.basep) s.host.basep 0#32) _ _ _
    at e
  generalize purvaSetSize (purvaSetNext s s.host.basep s.host.basep) s.host.basep 0#32 = s' at e ⊢
  constructor
  · rw [e.host, e.next, e.size, hbrk]
    exact Heap.empty (update_self _ _ _) (update_self _ _ _)
  · rw [e.host, hfree]
    exact .inl rfl
  · rw [e.host]
    exact hal
  · rw [e.host]
    exact hbase
  · rw [e.host]
    exact htop
  · unfold offset purvaArena at hbuf ⊢
    rw [e.host]
    exact hbuf

/-- The sizes leave room for the heap: the arena starts and ends in order, inside the buffer. -/
def ArenaRoom (h : ImageHeader) (stack heap : Word) : Prop :=
  dataEnd h + 8 ≤ heap.toNat ∧ heap.toNat < 2 ^ 31 ∧ stack.toNat + heap.toNat ≤ 2 ^ 32

instance (h : ImageHeader) (stack heap : Word) : Decidable (ArenaRoom h stack heap) :=
  inferInstanceAs (Decidable (_ ∧ _ ∧ _))

/-- **`purva_run_init` makes an empty heap.** -/
theorem initRun_heap (image : Nat → Byte) (h : ImageHeader) {stack heap : Word} (user : U)
    (hroom : ArenaRoom h stack heap) :
    HeapInv (initRun image h stack heap user).s (fun _ => False) (fun _ => False) := by
  obtain ⟨hlo, hhi, hbuf⟩ := hroom
  have hbase : (arenaBase h).toNat = 2 ^ 31 + dataEnd h := by
    rw [arenaBase_toNat]
    omega
  have h16 : dataEnd h % 16 = 0 := Nat.mul_mod_left _ _
  have hbrk : (arenaBase h + PURVA_HUNIT).toNat = 2 ^ 31 + dataEnd h + 8 := by
    show (arenaBase h + addr 8).toNat = _
    rw [BitVec.toNat_add_of_lt (by rw [hbase, addr_toNat (by decide)]; omega), hbase,
      addr_toNat (by decide)]
  have htop : (RISCV_HALF + heap).toNat = 2 ^ 31 + heap.toNat := by
    rw [BitVec.toNat_add, half_toNat]
    omega
  refine heapAt_empty (initState image h stack heap user) rfl ?_ ?_ ?_ ?_ ?_
  · show (arenaBase h + PURVA_HUNIT).toNat = (arenaBase h).toNat + 8
    rw [hbrk, hbase]
  · show (arenaBase h).toNat % 8 = 0
    rw [hbase]
    omega
  · show 0 < (arenaBase h).toNat
    rw [hbase]
    omega
  · show arenaBase h + PURVA_HUNIT ≤ RISCV_HALF + heap
    rw [BitVec.le_def, hbrk, htop]
    omega
  · show (addr (arenaBase h).toNat - (RISCV_HALF - stack)).toNat +
      ((RISCV_HALF + heap).toNat - (arenaBase h).toNat) ≤ 2 ^ 32
    rw [addr_of_toNat, arenaBase_offset, htop, hbase]
    omega

end

/-- The heap of an empty image, with 1 MiB of stack and 16 MiB of RAM. -/
def freshHeap : State (PurvaRun Unit) :=
  (initRun (fun _ => 0#8) (imageHeader fun _ => 0#8) 0x100000#32 0x1000000#32 ()).s

theorem freshHeap_inv : HeapInv freshHeap (fun _ => False) (fun _ => False) :=
  initRun_heap _ _ () (by decide)

end Purv.Purva

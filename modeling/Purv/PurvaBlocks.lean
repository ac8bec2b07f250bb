import Purv.PurvaArena
import Purv.PurvaReach

/-!
# The allocator's blocks in the buffer

* `BlockIn` — a block lies in the writable buffer with all its units;
* `ListIn` — so does every block that the free list reaches, whatever is in it;
* `ListIn.setSize`, `ListIn.setNext` — and still does after a store in a header;
* `HeapInv.listIn` — as it does in an intact heap.
-/

namespace Purv.Purva

open Bits Transcode FreeList

variable {U : Type}

/-! ## Blocks in the buffer -/

section
variable (s : State (PurvaRun U))

/-- The bytes of `w` units. -/
theorem units_toNat {w : Word} (h : 8 * w.toNat < 2 ^ 32) :
    (w * PURVA_HUNIT).toNat = 8 * w.toNat := by
  rw [BitVec.toNat_mul]
  show w.toNat * 8 % 2 ^ 32 = _
  omega

theorem arena_units {p w : Word} (h : (purvaArena s p).2 + 8 * w.toNat < 2 ^ 32) :
    (purvaArena s (p + w * PURVA_HUNIT)).2 = (purvaArena s p).2 + 8 * w.toNat := by
  have hw := units_toNat (show 8 * w.toNat < 2 ^ 32 by omega)
  rw [arena_add s (by omega), hw]

/-- A block of `n` units at `p` is aligned and lies in the buffer, with its header. -/
structure BlockIn (p : Word) (n : Nat) : Prop where
  aligned : p.toNat % 8 = 0
  room : (purvaArena s p).2 + 8 * max 1 n ≤ s.writable.len.toNat

end

section
variable {s : State (PurvaRun U)} {p q a v : Word} {n : Nat}

theorem BlockIn.shrink (h : BlockIn s p n) {k : Nat} (hk : k ≤ n) : BlockIn s p k :=
  ⟨h.aligned, by have := h.room; omega⟩

theorem BlockIn.next_in (h : BlockIn s p n) : InBuffer s p 4 := by
  have hroom := h.room
  unfold InBuffer
  omega

theorem BlockIn.size_in (h : BlockIn s p n) : InBuffer s (p + 4#32) 4 := by
  have hroom := h.room
  have h4 : (4#32).toNat = 4 := rfl
  unfold InBuffer
  rw [arena_add s (by omega), h4]
  omega

theorem BlockIn.same (h : BlockIn s p n) {s' : State (PurvaRun U)} (hs : SameBuffer s s') :
    BlockIn s' p n := by
  obtain ⟨haligned, hroom⟩ := h
  refine ⟨haligned, ?_⟩
  unfold purvaArena at hroom ⊢
  rw [hs.1, hs.2]
  exact hroom

/-- A block that ends where the next one starts, and that one, are a block. -/
theorem BlockIn.join {w v : Word} (hp : BlockIn s p w.toNat) (hq : BlockIn s q v.toNat)
    (h : p + w * PURVA_HUNIT = q) : BlockIn s p (w + v).toNat := by
  obtain ⟨haligned, hroom⟩ := hp
  obtain ⟨_, hroom'⟩ := hq
  rw [← h, arena_units s (by omega)] at hroom'
  refine ⟨haligned, ?_⟩
  rw [BitVec.toNat_add_of_lt (by omega)]
  omega

/-- The last `n` units of a block are a block. -/
theorem BlockIn.tail {w : Word} (hp : BlockIn s p w.toNat) {n : Word} (hn : 0 < n.toNat)
    (hnw : n ≤ w) : BlockIn s (p + (w - n) * PURVA_HUNIT) n.toNat := by
  obtain ⟨haligned, hroom⟩ := hp
  have hsub := BitVec.toNat_sub_of_le hnw
  have hle := BitVec.le_def.mp hnw
  have hunits := units_toNat (w := w - n) (by omega)
  constructor
  · rw [BitVec.toNat_add, hunits]
    omega
  · rw [arena_units s (by omega)]
    omega

/-- The payload of a block, up to its end. -/
theorem BlockIn.payload {k : Nat} (h : BlockIn s p n) (hk : k ≤ 8 * (n - 1)) :
    InBuffer s (p + PURVA_HUNIT) k := by
  have hroom := h.room
  have h8 : PURVA_HUNIT.toNat = 8 := rfl
  unfold InBuffer
  rw [arena_add s (by omega), h8]
  omega

/-- Where the tail of a block starts. -/
theorem tail_toNat {w n : Word} (hroom : p.toNat + 8 * w.toNat < 2 ^ 32) (hnw : n ≤ w) :
    (p + (w - n) * PURVA_HUNIT).toNat = p.toNat + 8 * (w.toNat - n.toNat) := by
  have hsub := BitVec.toNat_sub_of_le hnw
  have hunits := units_toNat (w := w - n) (by omega)
  rw [BitVec.toNat_add_of_lt (by omega), hunits, hsub]

/-- The block that `purva__morecore` makes is a block of the buffer. -/
theorem ArenaIn.more (ha : ArenaIn s) (nu : Word)
    (htop : s.host.heap_brk.toNat + 8 * nu.toNat ≤ s.host.heap_top.toNat) (hnu : 0 < nu.toNat) :
    BlockIn s s.host.heap_brk nu.toNat := by
  have hoff := ha.offset ha.base_le ha.brk_le
  exact ⟨ha.aligned, by omega⟩

/-! ## The headers after a store -/

theorem size_word (h : p.toNat % 8 = 0) : (p + 4#32).toNat = p.toNat + 4 := by
  have h4 : (4#32).toNat = 4 := rfl
  rw [BitVec.toNat_add_of_lt (by omega), h4]

theorem purvaNext_setSize (hp : p.toNat % 8 = 0) (ha : a.toNat % 8 = 0) :
    purvaNext (purvaSetSize s a v) p = purvaNext s p := by
  have hsize := size_word ha
  refine purvaLd_st_ne s v (arena_apart s (by omega) (by omega) ?_)
  rintro rfl
  omega

theorem purvaSize_setNext (hp : p.toNat % 8 = 0) (ha : a.toNat % 8 = 0) :
    purvaSize (purvaSetNext s a v) p = purvaSize s p := by
  have hsize := size_word hp
  refine purvaLd_st_ne s v (arena_apart s (by omega) (by omega) ?_)
  rintro rfl
  omega

theorem purvaNext_setNext_ne (hp : p.toNat % 8 = 0) (ha : a.toNat % 8 = 0) (hne : p ≠ a) :
    purvaNext (purvaSetNext s a v) p = purvaNext s p :=
  purvaLd_st_ne s v (arena_apart s (by omega) (by omega) hne.symm)

theorem purvaSize_setSize_ne (hp : p.toNat % 8 = 0) (ha : a.toNat % 8 = 0) (hne : p ≠ a) :
    purvaSize (purvaSetSize s a v) p = purvaSize s p := by
  have hsize := size_word hp
  have hsize' := size_word ha
  refine purvaLd_st_ne s v (arena_apart s (by omega) (by omega) fun h => hne ?_)
  apply BitVec.eq_of_toNat_eq
  have := congrArg BitVec.toNat h
  omega

theorem purvaNext_setNext (s : State (PurvaRun U)) (a v : Word) :
    purvaNext (purvaSetNext s a v) a = v := purvaLd_st_self s a v

theorem purvaSize_setSize (s : State (PurvaRun U)) (a v : Word) :
    purvaSize (purvaSetSize s a v) a = v := purvaLd_st_self s _ v

theorem purvaSize_setSize_eq (hp : p.toNat % 8 = 0) (hq : q.toNat % 8 = 0) (v : Word) :
    purvaSize (purvaSetSize s q v) p = if p = q then v else purvaSize s p := by
  split
  · rename_i h
    rw [h, purvaSize_setSize]
  · exact purvaSize_setSize_ne hp hq ‹_›

theorem setNext_host (s : State (PurvaRun U)) (a v : Word) : (purvaSetNext s a v).host = s.host :=
  purvaSt_host s a v

theorem setNext_same (s : State (PurvaRun U)) (a v : Word) : SameBuffer s (purvaSetNext s a v) :=
  purvaSt_same s a v

theorem setSize_same (s : State (PurvaRun U)) (a v : Word) : SameBuffer s (purvaSetSize s a v) :=
  purvaSt_same s _ v

theorem setSize_host (s : State (PurvaRun U)) (a v : Word) : (purvaSetSize s a v).host = s.host :=
  purvaSt_host s _ v

theorem BlockIn.sized (h : BlockIn s a v.toNat) :
    BlockIn (purvaSetSize s a v) a (purvaSize (purvaSetSize s a v) a).toNat := by
  rw [purvaSize_setSize]
  exact h.same (purvaSt_same s _ v)

/-! ## The free list -/

/-- **The free list lies in the buffer**: the blocks `N` have every block that the list reaches from
the roving pointer, and fit, whatever the guest has written in them. -/
structure ListIn (s : State (PurvaRun U)) (N : Word → Prop) : Prop where
  freep : N s.host.freep
  next : ∀ p, N p → N (purvaNext s p)
  fits : ∀ p, N p → BlockIn s p (purvaSize s p).toNat

variable {N : Word → Prop}

theorem ListIn.setSize (hl : ListIn s N) (ha : BlockIn s a v.toNat) :
    ListIn (purvaSetSize s a v) N where
  freep := by
    unfold purvaSetSize
    rw [purvaSt_host]
    exact hl.freep
  next := fun p hp => by
    rw [purvaNext_setSize (hl.fits p hp).aligned ha.aligned]
    exact hl.next p hp
  fits := fun p hp => by
    refine BlockIn.same ?_ (purvaSt_same s _ v)
    by_cases hpa : p = a
    · rw [hpa, purvaSize_setSize]
      exact ha
    · rw [purvaSize_setSize_ne (hl.fits p hp).aligned ha.aligned hpa]
      exact hl.fits p hp

theorem ListIn.setNext (hl : ListIn s N) (ha : BlockIn s a (purvaSize s a).toNat)
    (hv : N v ∨ v = a) : ListIn (purvaSetNext s a v) fun p => N p ∨ p = a where
  freep := by
    unfold purvaSetNext
    rw [purvaSt_host]
    exact .inl hl.freep
  next := fun p hp => by
    by_cases hpa : p = a
    · rw [hpa, purvaNext_setNext]
      exact hv
    · have hpN := hp.resolve_right hpa
      rw [purvaNext_setNext_ne (hl.fits p hpN).aligned ha.aligned hpa]
      exact .inl (hl.next p hpN)
  fits := fun p hp => by
    refine BlockIn.same ?_ (purvaSt_same s a v)
    rcases hp with hp | rfl
    · rw [purvaSize_setNext (hl.fits p hp).aligned ha.aligned]
      exact hl.fits p hp
    · rw [purvaSize_setNext ha.aligned ha.aligned]
      exact ha

theorem ListIn.setFreep (hl : ListIn s N) (hp : N p) : ListIn (setFreep s p) N where
  freep := hp
  next := hl.next
  fits := fun q hq => (hl.fits q hq).same ⟨rfl, rfl⟩

theorem ListIn.setBrk (hl : ListIn s N) (v : Word) : ListIn (setBrk s v) N where
  freep := hl.freep
  next := hl.next
  fits := fun q hq => (hl.fits q hq).same ⟨rfl, rfl⟩

theorem ListIn.setX (hl : ListIn s N) (i : Reg) (v : Word) : ListIn (s.setX i v) N where
  freep := hl.freep
  next := hl.next
  fits := fun q hq => (hl.fits q hq).same ⟨rfl, rfl⟩

/-- A block of the list that is added again. -/
theorem ListIn.again (hl : ListIn s fun q => N q ∨ q = p) (hp : N p) : ListIn s N := by
  have hN : (fun q => N q ∨ q = p) = N := by
    funext q
    refine propext (or_iff_left_of_imp ?_)
    rintro rfl
    exact hp
  rwa [hN] at hl

theorem freeWalk_mem (hl : ListIn s N) {bp : Word} (k : Nat) (hp : N p)
    (hw : freeWalk s bp k p = some q) : N q := by
  induction k generalizing p with
  | zero => cases hw
  | succ k ih =>
    unfold freeWalk at hw
    split at hw
    · cases hw
      exact hp
    · split at hw
      · cases hw
        exact hp
      · exact ih (hl.next p hp) hw

/-- A link outside the list. -/
theorem ListIn.setNext_outside (hl : ListIn s N) {a : Word} (ha : a.toNat % 8 = 0) (hna : ¬ N a)
    (v : Word) : ListIn (purvaSetNext s a v) N where
  freep := by
    rw [setNext_host]
    exact hl.freep
  next := fun p hp => by
    have hpa : p ≠ a := by
      rintro rfl
      exact hna hp
    rw [purvaNext_setNext_ne (hl.fits p hp).aligned ha hpa]
    exact hl.next p hp
  fits := fun p hp => by
    rw [purvaSize_setNext (hl.fits p hp).aligned ha]
    exact (hl.fits p hp).same (purvaSt_same s a v)

/-! ## The blocks of an intact heap -/

variable {F L : Nat → Prop}

/-- A node of the list, or a live block, of a heap with the invariant. -/
theorem HeapInv.placed (hi : HeapInv s F L) {x : Nat} (hx : (x = s.host.basep.toNat ∨ F x) ∨ L x) :
    Header x ∧ s.host.basep.toNat ≤ x ∧
      x + 8 * max 1 (sizeAt s x) ≤ s.host.heap_brk.toNat := by
  rcases hx with hx | hx
  · obtain ⟨hxh, hroom⟩ := hi.node hx
    refine ⟨hxh, hi.heap.ring.base_le hx, ?_⟩
    rcases hx with rfl | hx
    · have hzero := hi.heap.zero
      omega
    · have hhigh := hi.heap.tiled.high x (.inl hx)
      omega
  · obtain ⟨hxh, hlow, hhigh, hpos⟩ := hi.live hx
    exact ⟨hxh, by omega, by omega⟩

theorem HeapInv.blockIn (hi : HeapInv s F L) (ha : ArenaIn s) {x : Nat}
    (hx : (x = s.host.basep.toNat ∨ F x) ∨ L x) :
    BlockIn s (addr x) (purvaSize s (addr x)).toNat := by
  obtain ⟨hxh, hlow, hhigh⟩ := hi.placed hx
  have hbrk := hi.top_le
  have hnat := addr_toNat hxh.2
  have hoff := ha.offset (a := addr x) (by rw [BitVec.le_def]; omega) (by rw [BitVec.le_def]; omega)
  rw [purvaSize_addr s hxh, addr_toNat (sizeAt_lt s x)]
  exact ⟨by rw [hnat]; exact hxh.1, by omega⟩

/-- The nodes of the list, as addresses. -/
def Nodes (s : State (PurvaRun U)) (F : Nat → Prop) (q : Word) : Prop :=
  ∃ x, (x = s.host.basep.toNat ∨ F x) ∧ q = addr x

/-- A heap with the invariant has its free list in the buffer. -/
theorem HeapInv.listIn (hi : HeapInv s F L) (ha : ArenaIn s) : ListIn s (Nodes s F) where
  freep := ⟨_, hi.freep, (addr_of_toNat _).symm⟩
  next := by
    rintro _ ⟨x, hx, rfl⟩
    exact ⟨_, hi.heap.ring.next_node hx, purvaNext_addr s (hi.node hx).1⟩
  fits := by
    rintro _ ⟨x, hx, rfl⟩
    exact hi.blockIn ha (.inl hx)

end

end Purv.Purva

import Purv.PurvaRealloc

/-!
# The sizes of allocations

The units of a request are counted in 32 bits, and so are their bytes.

* `units_wrapped`, `units_phantom` — the sizes that wrap to one unit, and to `2 ^ 29`;
* `purvaMorecore_phantom`, `mallocWalk_phantom` — for these the heap grows by a block of no bytes,
  which is handed out;
* `purvaMalloc_answers` — what `malloc` does for every size, `Refused` — when it answers 0;
* `purvaMalloc_sizes` — when `malloc` and the runtime's `calloc` are as large as requested.
-/

namespace Purv.Purva

open Bits Transcode FreeList Function

variable {U : Type}

section
variable {s : State (PurvaRun U)} {F L : Nat → Prop}

/-! ## Requests that wrap -/

/-- From `0xfffffff9` on, the rounding wraps and one unit is asked for. -/
theorem units_wrapped {nbytes : Word} (hn : 0xfffffff9 ≤ nbytes.toNat) :
    (nbytes + PURVA_HUNIT - 1#32) / PURVA_HUNIT + 1#32 = addr 1 := by
  have h7 : (nbytes + PURVA_HUNIT - 1#32).toNat < 8 := by
    unfold PURVA_HUNIT
    bv_omega
  have h0 : (nbytes + PURVA_HUNIT - 1#32) / PURVA_HUNIT = 0#32 := by
    apply BitVec.eq_of_toNat_eq
    rw [BitVec.toNat_udiv]
    show (nbytes + PURVA_HUNIT - 1#32).toNat / 8 = 0
    omega
  rw [h0]
  rfl

/-- The units whose bytes wrap to 0. -/
def PHANTOM : Nat := 2 ^ 29

/-- The eight sizes before those ask for `2 ^ 29` units. -/
theorem units_phantom {nbytes : Word} (hlo : 0xfffffff1 ≤ nbytes.toNat)
    (hhi : nbytes.toNat < 0xfffffff9) :
    (nbytes + PURVA_HUNIT - 1#32) / PURVA_HUNIT + 1#32 = addr PHANTOM := by
  have h7 : (nbytes + PURVA_HUNIT - 1#32).toNat = nbytes.toNat + 7 := by
    unfold PURVA_HUNIT
    bv_omega
  have h0 : (nbytes + PURVA_HUNIT - 1#32) / PURVA_HUNIT = 0x1fffffff#32 := by
    apply BitVec.eq_of_toNat_eq
    rw [BitVec.toNat_udiv, h7]
    show (nbytes.toNat + 7) / 8 = 0x1fffffff
    omega
  rw [h0]
  rfl

/-- The invariant is about the headers of nodes and live blocks only. -/
theorem HeapInv.of_headers (hi : HeapInv s F L) {s' : State (PurvaRun U)} {p : Nat}
    (hhost : s'.host = { s.host with freep := addr p }) (hp : Header p)
    (hpF : p = s.host.basep.toNat ∨ F p)
    (hnx : ∀ x, x = s.host.basep.toNat ∨ F x → nextAt s' x = nextAt s x)
    (hsz : ∀ x, x = s.host.basep.toNat ∨ F x ∨ L x → sizeAt s' x = sizeAt s x) :
    HeapInv s' F L := by
  have hbuf := hi.buffer
  refine ⟨?_, ?_, ?_, ?_, ?_, ?_⟩
  · rw [hhost]
    exact hi.heap.congr hnx hsz
  · rw [hhost]
    show (addr p).toNat = _ ∨ F (addr p).toNat
    rw [addr_toNat hp.2]
    exact hpF
  · rw [hhost]
    exact hi.aligned
  · rw [hhost]
    exact hi.pos
  · rw [hhost]
    exact hi.top
  · unfold offset purvaArena at hbuf ⊢
    rw [hhost]
    exact hbuf

/-- The free list with a block of no bytes at the end, told from the node before it. -/
structure Phantom (s s' : State (PurvaRun U)) (F : Nat → Prop) (p : Nat) : Prop where
  place : Place s.host.basep.toNat (nextAt s) F s.host.heap_brk.toNat p
  host : s'.host = { s.host with freep := addr p }
  next : nextAt s' = (joinPrev (update (nextAt s) s.host.heap_brk.toNat (nextAt s p))
    (update (sizeAt s) s.host.heap_brk.toNat PHANTOM) p s.host.heap_brk.toNat).1
  size : sizeAt s' = (joinPrev (update (nextAt s) s.host.heap_brk.toNat (nextAt s p))
    (update (sizeAt s) s.host.heap_brk.toNat PHANTOM) p s.host.heap_brk.toNat).2

theorem HeapInv.brk_header (hi : HeapInv s F L) : Header s.host.heap_brk.toNat := by
  have h1 := hi.heap.tiled.brk_aligned
  have h2 := hi.aligned
  exact ⟨by omega, s.host.heap_brk.isLt⟩

theorem purvaMorecore_phantom (hi : HeapInv s F L) {steps : Nat} (hs : WALK ≤ steps) :
    ∃ s' p, purvaMorecore steps s (addr PHANTOM) = some (s', addr p) ∧ Phantom s s' F p := by
  have hbrk := s.host.heap_brk.isLt
  have hroom := hi.heap.tiled.room
  have hbh := hi.brk_header
  have htop := hi.top_le
  have e1 := (Edits.refl s (fun _ => True)).setSize hbh trivial (show PHANTOM < 2 ^ 32 by decide)
  generalize hs₁ : purvaSetSize s (addr s.host.heap_brk.toNat) (addr PHANTOM) = s₁ at e1
  obtain ⟨p, hp, hw⟩ := @freeWalk_place U s₁ s.host.basep.toNat s.host.heap_brk.toNat
    s.host.heap_brk.toNat F (by rw [e1.next]; exact hi.heap.ring) hi.nodes ⟨by omega, hbrk⟩
    (fun hF => by
      have := (hi.nodes _ (.inr hF)).2
      omega) steps s.host.freep.toNat hi.freep (by
      have := (hi.nodes _ hi.freep).2
      unfold WALK at hs
      unfold freeDist
      split <;> omega)
  rw [e1.next] at hp
  have hph := hi.nodes _ hp.node
  have hq := hi.nodes _ (hi.heap.ring.next_node hp.node)
  have hpb := hp.lt
  have hpend : p + 8 * sizeAt s p ≤ s.host.heap_brk.toNat := by
    rcases hp.node with h | hF
    · have hzero := hi.heap.zero
      rw [← h] at hzero
      omega
    · exact hi.heap.tiled.high p (.inl hF)
  have hnext : freeNext s₁ (addr p) (addr s.host.heap_brk.toNat) =
      purvaSetNext s₁ (addr s.host.heap_brk.toNat) (addr (nextAt s p)) := by
    unfold freeNext
    rw [purvaSize_addr s₁ hbh, e1.size, update_self, addr_units, purvaNext_addr s₁ hph.1, e1.next]
    refine if_neg fun h => ?_
    have h0 : addr (8 * PHANTOM) = 0#32 := rfl
    rw [h0, BitVec.add_zero, addr_inj hbrk hq.1.2] at h
    omega
  have e2 := e1.setNext hbh trivial hq.1.2
  rw [← hnext] at e2
  have hpsz : sizeAt (freeNext s₁ (addr p) (addr s.host.heap_brk.toNat)) p = sizeAt s p := by
    rw [e2.size, update_of_ne (by omega)]
  have e3 := edits_freePrev (freeNext s₁ (addr p) (addr s.host.heap_brk.toNat)) hph.1 hbh
    (by rw [hpsz]; omega) (fun _ => by
      rw [hpsz, e2.size, update_self]
      unfold PHANTOM
      omega)
  rw [e2.next, e2.size] at e3
  have e := e2.trans e3
  refine ⟨setFreep (freePrev (freeNext s₁ (addr p) (addr s.host.heap_brk.toNat)) (addr p)
    (addr s.host.heap_brk.toNat)) (addr p), p, ?_, hp, ?_, ?_, ?_⟩
  · have hfree : purvaFree steps s₁ (s.host.heap_brk + PURVA_HUNIT) =
        some (setFreep (freePrev (freeNext s₁ (addr p) (addr s.host.heap_brk.toNat)) (addr p)
          (addr s.host.heap_brk.toNat)) (addr p)) := by
      rw [addr_of_toNat, addr_of_toNat] at hw
      rw [purvaFree_eq, e1.host, BitVec.add_sub_cancel, hw, addr_of_toNat]
      rfl
    have hnlt : ¬ addr PHANTOM < 4096#32 := by decide
    have h0 : addr (8 * PHANTOM) = 0#32 := rfl
    unfold purvaMorecore
    simp only [if_neg hnlt, addr_units, h0, BitVec.add_zero]
    rw [if_neg (by simp; omega)]
    rw [addr_of_toNat] at hs₁
    change Option.map _ (purvaFree steps (purvaSetSize s s.host.heap_brk (addr PHANTOM)) _) = _
    rw [hs₁, hfree]
    rfl
  · have hh := e.host
    unfold setFreep
    simp only
    rw [hh]
  · rw [nextAt_setFreep, e.next]
  · rw [sizeAt_setFreep, e.size]

/-- Nodes and live blocks are below the end. -/
theorem HeapInv.ne_brk (hi : HeapInv s F L) {x : Nat} (hx : x = s.host.basep.toNat ∨ F x ∨ L x) :
    x ≠ s.host.heap_brk.toNat := by
  rcases hx with hx | hx | hx
  · have := (hi.nodes x (.inl hx)).2
    omega
  · have := (hi.nodes x (.inr hx)).2
    omega
  · obtain ⟨_, _, h3, h4⟩ := hi.live hx
    omega

section
variable {s₂ : State (PurvaRun U)} {p steps k : Nat}

/-- The block before has taken it in: the walk comes round to that block and splits it again. -/
theorem mallocWalk_joined (hi : HeapInv s F L) (hph : Phantom s s₂ F p) (hk : WALK ≤ k)
    (hj : p + 8 * sizeAt s p = s.host.heap_brk.toNat) :
    ∃ s', mallocWalk steps (addr PHANTOM) k s₂ (addr p) (purvaNext s₂ (addr p)) =
        some (s', addr (s.host.heap_brk.toNat + 8)) ∧ HeapInv s' F L := by
  obtain ⟨hp, hhost, hnx, hsz⟩ := hph
  have hbh := hi.brk_header
  have hpp := hi.nodes _ hp.node
  have hlt : PHANTOM < 2 ^ 32 := by decide
  have hpos : 0 < PHANTOM := by decide
  have hfreep : s₂.host.freep.toNat = p := by
    rw [hhost]
    exact addr_toNat hpp.1.2
  unfold joinPrev at hnx hsz
  rw [update_of_ne (by have := hp.lt; omega)] at hnx hsz
  rw [if_pos hj] at hnx hsz
  simp only [update_self] at hnx hsz
  have hpF : F p := by
    rcases hp.node with h | hF
    · have hzero := hi.heap.zero
      rw [← h] at hzero
      have := hp.lt
      omega
    · exact hF
  have hppos := hi.heap.tiled.pos p (.inl hpF)
  have hpsz : sizeAt s₂ p = sizeAt s p + PHANTOM := by
    rw [hsz, update_self]
  have hsame : ∀ x, x = s.host.basep.toNat ∨ F x ∨ L x → x ≠ p → sizeAt s₂ x = sizeAt s x := by
    intro x hx hxp
    rw [hsz, update_of_ne hxp, update_of_ne (hi.ne_brk hx)]
  have hnode : ∀ x, x = s.host.basep.toNat ∨ F x → nextAt s₂ x = nextAt s x := by
    intro x hx
    rw [hnx]
    by_cases hxp : x = p
    · rw [hxp, update_self]
    · rw [update_of_ne hxp, update_of_ne (hi.ne_brk (hx.imp id .inl))]
  have hring : Ring s.host.basep.toNat F (nextAt s₂) := by
    refine ⟨hi.heap.ring.above, fun x hx => ?_⟩
    rw [hnode x hx]
    exact hi.heap.ring.next x hx
  have hbase := hi.heap.ring.above p hpF
  have hzero : sizeAt s₂ s.host.basep.toNat < PHANTOM := by
    rw [hsame _ (.inl rfl) (by omega), hi.heap.zero]
    exact hpos
  have hdist : mallocDist s.host.basep.toNat s.host.heap_brk.toNat s₂.host.freep.toNat
      (nextAt s₂ p) < k := by
    unfold WALK at hk
    unfold mallocDist
    split <;> omega
  rw [purvaNext_addr s₂ hpp.1]
  rcases mallocWalk_phase hring hi.nodes (by rw [hfreep]; exact hp.node) steps hzero
    hlt k p hp.node hdist with ⟨prev, hprev, hg, hle, hw⟩ | ⟨hsmall, _⟩
  · have hgp : nextAt s₂ prev = p := by
      by_contra hne
      rw [hsame _ (.inr (.inl hg)) hne] at hle
      have := hi.heap.tiled.high _ (.inl hg)
      unfold PHANTOM at hle
      omega
    rw [hw, hgp]
    unfold taken
    have hpl := sizeAt_lt s₂ p
    rw [purvaSize_addr s₂ hpp.1, hpsz, if_neg fun h => by
      have := (addr_inj (hpsz ▸ hpl) hlt).mp h
      omega]
    rw [addr_sub (Nat.le_add_left _ _), Nat.add_sub_cancel]
    have e1 := (Edits.refl s₂ (fun _ => True)).setSize hpp.1 trivial (sizeAt_lt s p)
    simp only
    rw [purvaSize_addr _ hpp.1, e1.size, update_self, addr_units, addr_add, hj, addr_unit]
    have e := e1.setSize hbh trivial hlt
    refine ⟨_, rfl, hi.of_headers (p := prev) ?_ (hi.nodes _ hprev).1 hprev (fun x hx => ?_)
      fun x hx => ?_⟩
    · show ({ (purvaSetSize _ _ _).host with freep := addr prev } : PurvaRun U) = _
      rw [e.host, hhost]
    · rw [nextAt_setFreep, e.next]
      exact hnode x hx
    · rw [sizeAt_setFreep, e.size, update_of_ne (hi.ne_brk hx)]
      by_cases hxp : x = p
      · rw [hxp, update_self]
      · rw [update_of_ne hxp]
        exact hsame x hx hxp
  · have := hsmall p hp.node (by
      rw [hfreep]
      unfold mallocDist
      rw [if_pos (Nat.le_refl _)]
      omega)
    omega

/-- It is linked in, and taken at once. -/
theorem mallocWalk_linked (hi : HeapInv s F L) (hph : Phantom s s₂ F p) (hk : WALK ≤ k)
    (hj : ¬ p + 8 * sizeAt s p = s.host.heap_brk.toNat) :
    ∃ s', mallocWalk steps (addr PHANTOM) k s₂ (addr p) (purvaNext s₂ (addr p)) =
        some (s', addr (s.host.heap_brk.toNat + 8)) ∧ HeapInv s' F L := by
  obtain ⟨hp, hhost, hnx, hsz⟩ := hph
  have hbh := hi.brk_header
  have hpp := hi.nodes _ hp.node
  have hq := hi.nodes _ (hi.heap.ring.next_node hp.node)
  unfold joinPrev at hnx hsz
  rw [update_of_ne (by have := hp.lt; omega)] at hnx hsz
  rw [if_neg hj] at hnx hsz
  simp only at hnx hsz
  obtain ⟨k, rfl⟩ : ∃ j, k = j + 1 := ⟨k - 1, by unfold WALK at hk; omega⟩
  have hpn : nextAt s₂ p = s.host.heap_brk.toNat := by rw [hnx, update_self]
  have hbn : nextAt s₂ s.host.heap_brk.toNat = nextAt s p := by
    rw [hnx, update_of_ne (by have := hp.lt; omega), update_self]
  have hbs : sizeAt s₂ s.host.heap_brk.toNat = PHANTOM := by rw [hsz, update_self]
  rw [purvaNext_addr s₂ hpp.1, hpn, mallocWalk_succ, purvaSize_addr s₂ hbh, hbs,
    if_pos (BitVec.le_refl _)]
  unfold taken
  rw [purvaSize_addr s₂ hbh, hbs, if_pos rfl, purvaNext_addr s₂ hbh, hbn, addr_unit]
  have e := (Edits.refl s₂ (fun _ => True)).setNext hpp.1 trivial hq.1.2
  refine ⟨_, rfl, hi.of_headers (p := p) ?_ hpp.1 hp.node (fun x hx => ?_) fun x hx => ?_⟩
  · show ({ (purvaSetNext _ _ _).host with freep := addr p } : PurvaRun U) = _
    rw [e.host, hhost]
  · rw [nextAt_setFreep, e.next]
    by_cases hxp : x = p
    · rw [hxp, update_self]
    · rw [update_of_ne hxp, hnx, update_of_ne hxp, update_of_ne (hi.ne_brk (hx.imp id .inl))]
  · rw [sizeAt_setFreep, e.size, hsz, update_of_ne (hi.ne_brk hx)]

/-- The block of no bytes is handed out, and the heap is as it was. -/
theorem mallocWalk_phantom (hi : HeapInv s F L) (hph : Phantom s s₂ F p) (hk : WALK ≤ k) :
    ∃ s', mallocWalk steps (addr PHANTOM) k s₂ (addr p) (purvaNext s₂ (addr p)) =
        some (s', addr (s.host.heap_brk.toNat + 8)) ∧ HeapInv s' F L := by
  by_cases hj : p + 8 * sizeAt s p = s.host.heap_brk.toNat
  · exact mallocWalk_joined hi hph hk hj
  · exact mallocWalk_linked hi hph hk hj

end

/-! ## Every size -/

/-- `malloc` answers 0: for no bytes; for a request the heap has no room for; for one that wraps to
a unit it has no room for; or for a block of no bytes whose address wraps to 0. -/
def Refused (s : State (PurvaRun U)) (F : Nat → Prop) (n : Word) : Prop :=
  n = 0#32 ∨ (n.toNat ≤ 0xfffffff0 ∧ Exhausted s F (units n.toNat)) ∨
    (0xfffffff9 ≤ n.toNat ∧ Exhausted s F 1) ∨
    (0xfffffff0 < n.toNat ∧ n.toNat < 0xfffffff9 ∧ s.host.heap_brk.toNat + 8 = 2 ^ 32)

/-- What `malloc` does with a request of any size. -/
structure MallocAnswer (s s' : State (PurvaRun U)) (F L : Nat → Prop) (n r : Word) : Prop where
  refused : r = 0#32 ↔ Refused s F n
  keeps : r = 0#32 → ∃ F', HeapInv s' F' L
  allocated : n.toNat ≤ 0xfffffff0 → r ≠ 0#32 →
    ∃ b, r = addr (b + 8) ∧ Allocated (0 < ·) s s' L (units n.toNat) b

theorem Allocated.addr_ne {s' : State (PurvaRun U)} {n b : Nat} (ha : Allocated (0 < ·) s s' L n b) :
    addr (b + 8) ≠ 0#32 := by
  obtain ⟨F', hi'⟩ := ha.inv
  obtain ⟨_, hlo, hhi, hpos⟩ := hi'.live (x := b) (.inr rfl)
  have := s'.host.heap_brk.isLt
  exact addr_ne_zero (by omega) (by omega)

/-- **`malloc`, for every size.** -/
theorem purvaMalloc_answers (hi : HeapInv s F L) {steps : Nat} (hs : 4 * WALK ≤ steps) (n : Word) :
    ∃ s' r, purvaMalloc steps s n = some (s', r) ∧ MallocAnswer s s' F L n r := by
  by_cases hn : n.toNat ≤ 0xfffffff0
  · rcases purvaMalloc_spec hi (.inl hi.base) hn hs with ⟨hr, hm⟩ | ⟨hr, s', b, hm, ha⟩
    · refine ⟨s, 0#32, hm, iff_of_true rfl ?_, fun _ => ⟨F, hi⟩, fun _ h => absurd rfl h⟩
      exact hr.imp id fun he => .inl ⟨hn, he⟩
    · refine ⟨s', addr (b + 8), hm, iff_of_false ha.addr_ne ?_, fun h => absurd h ha.addr_ne,
        fun _ _ => ⟨b, rfl, ha⟩⟩
      rintro (h | ⟨_, h⟩ | ⟨h, _⟩ | ⟨h, _⟩)
      · exact hr (.inl h)
      · exact hr (.inr h)
      · omega
      · omega
  have h0 : n ≠ 0#32 := by
    rintro rfl
    exact hn (by decide)
  by_cases hw : 0xfffffff9 ≤ n.toNat
  · unfold purvaMalloc
    rw [if_neg h0]
    simp only [units_wrapped hw]
    rcases mallocWalk_spec hi (.inl hi.base) (n := 1) (by decide) (by decide) hs with
      ⟨he, hm⟩ | ⟨he, s', b, hm, ha⟩
    · exact ⟨s, 0#32, hm, iff_of_true rfl (.inr (.inr (.inl ⟨hw, he⟩))), fun _ => ⟨F, hi⟩,
        fun h => absurd h hn⟩
    · refine ⟨s', addr (b + 8), hm, iff_of_false ha.addr_ne ?_, fun h => absurd h ha.addr_ne,
        fun h => absurd h hn⟩
      rintro (h | ⟨h, _⟩ | ⟨_, h⟩ | ⟨_, h, _⟩)
      · exact h0 h
      · exact hn h
      · exact he h
      · omega
  · have hwalk : 0 < WALK := by decide
    have hbrk := s.host.heap_brk.isLt
    have hbh := hi.brk_header
    obtain ⟨s₂, p, hmore, hph⟩ := purvaMorecore_phantom hi (show WALK ≤ steps by omega)
    have hm : ∃ s', purvaMalloc steps s n = some (s', addr (s.host.heap_brk.toNat + 8)) ∧
        HeapInv s' F L := by
      have hu := @units_phantom n (by omega) (by omega)
      unfold purvaMalloc
      rw [if_neg h0]
      simp only [hu]
      rcases hi.walk steps (show 0 < PHANTOM by decide) (by decide)
        (show WALK ≤ steps by omega) with ⟨prev, hp, hg, hle, _⟩ | ⟨_, k', hk', hw'⟩
      · have := hi.heap.tiled.high _ (.inl hg)
        unfold PHANTOM at hle
        omega
      · rw [hw']
        unfold grown
        have hp := hi.nodes _ hph.place.node
        have hp0 := hi.heap.ring.base_le hph.place.node
        have hpos := hi.pos
        rw [hmore]
        simp only
        rw [if_neg (addr_ne_zero (by omega) hp.1.2)]
        exact mallocWalk_phantom hi hph (by omega)
    obtain ⟨s', hm, hi'⟩ := hm
    refine ⟨s', _, hm, ?_, fun _ => ⟨F, hi'⟩, fun h => absurd h hn⟩
    have h8 := hbh.1
    constructor
    · intro hz
      by_contra hne
      refine addr_ne_zero (by omega) ?_ hz
      by_contra hge
      exact hne (.inr (.inr (.inr ⟨by omega, by omega, by omega⟩)))
    · rintro (h | ⟨h, _⟩ | ⟨h, _⟩ | ⟨_, _, h⟩)
      · exact absurd h h0
      · exact absurd h hn
      · exact absurd h hw
      · rw [h]
        rfl

/-- `malloc(n)` meets its promise: 0, or a live block of `n` bytes, and the invariant. -/
def MallocOk (steps : Nat) (s : State (PurvaRun U)) (L : Nat → Prop) (n : Word) : Prop :=
  ∃ s' r, purvaMalloc steps s n = some (s', r) ∧
    ((r = 0#32 ∧ ∃ F', HeapInv s' F' L) ∨
      ∃ b F', r = addr (b + 8) ∧ r ≠ 0#32 ∧ HeapInv s' F' (fun x => L x ∨ x = b) ∧
        n.toNat ≤ 8 * (sizeAt s' b - 1))

/-- `calloc` of the guest's runtime: `malloc` of the product, then `memset`. -/
def calloc (steps : Nat) (s : State (PurvaRun U)) (a b : Word) :
    Option (State (PurvaRun U) × Word) :=
  let n := a * b
  match purvaMalloc steps s n with
  | none => none
  | some (s, p) =>
    if p = 0#32 then some (s, p) else some (memset s (purvaArena s p) 0#8 n.toNat, p)

/-- `calloc(a, b)` meets its promise: 0, or a zeroed live block of `a * b` bytes, the product taken
with no wrap, and the invariant. -/
def CallocOk (steps : Nat) (s : State (PurvaRun U)) (L : Nat → Prop) (a b : Word) : Prop :=
  ∃ s' r, calloc steps s a b = some (s', r) ∧
    ((r = 0#32 ∧ ∃ F', HeapInv s' F' L) ∨
      ∃ c F', r = addr (c + 8) ∧ r ≠ 0#32 ∧ HeapInv s' F' (fun x => L x ∨ x = c) ∧
        a.toNat * b.toNat ≤ 8 * (sizeAt s' c - 1) ∧
        ∀ i < a.toNat * b.toNat, heapByte s' (c + 8 + i) = 0#8)

/-- No live block has more than `0xfffffff0` bytes. -/
theorem HeapInv.payload_lt (hi : HeapInv s F L) {b : Nat} (hb : L b) :
    8 * (sizeAt s b - 1) ≤ 0xfffffff0 - 8 := by
  obtain ⟨_, hlo, hhi, hpos⟩ := hi.live hb
  have := s.host.heap_brk.isLt
  have := hi.pos
  have := hi.aligned
  omega

theorem mallocOk_iff (hi : HeapInv s F L) {steps : Nat} (hs : 4 * WALK ≤ steps) (n : Word) :
    MallocOk steps s L n ↔ n.toNat ≤ 0xfffffff0 ∨ Refused s F n := by
  obtain ⟨s', r, hm, ha⟩ := purvaMalloc_answers hi hs n
  unfold MallocOk
  rw [hm]
  constructor
  · rintro ⟨s'', r', he, h⟩
    cases he
    rcases h with ⟨h0, _⟩ | ⟨b, F', _, _, hi', hle⟩
    · exact .inr (ha.refused.mp h0)
    · have := hi'.payload_lt (.inr rfl)
      exact .inl (by omega)
  · intro h
    refine ⟨s', r, rfl, ?_⟩
    by_cases h0 : r = 0#32
    · exact .inl ⟨h0, ha.keeps h0⟩
    · rcases h with h | h
      · obtain ⟨b, hb, hal⟩ := ha.allocated h h0
        obtain ⟨F', hi'⟩ := hal.inv
        refine .inr ⟨b, F', hb, h0, hi', ?_⟩
        have := hal.size
        unfold units at this
        omega
      · exact absurd (ha.refused.mpr h) h0

/-- Zeros in the payload of a live block. -/
theorem HeapInv.zeros (hi : HeapInv s F L) {c k : Nat} (hc : L c) (hk : k ≤ 8 * (sizeAt s c - 1))
    {s' : State (PurvaRun U)} (hs : s' = memset s (purvaArena s (addr (c + 8))) 0#8 k) :
    HeapInv s' F L ∧ sizeAt s' c = sizeAt s c ∧ ∀ i < k, heapByte s' (c + 8 + i) = 0#8 := by
  obtain ⟨_, _, _, hcpos⟩ := hi.live hc
  have hhost : s'.host = s.host := by rw [hs]; rfl
  have hmem : ∀ o, s'.mem s.host.writable o =
      if offset s (c + 8) ≤ o ∧ o < offset s (c + 8) + k then 0#8
      else s.mem s.host.writable o := by
    intro o
    rw [hs]
    show (if s.host.writable = s.host.writable ∧ _ then _ else _) = _
    simp only [true_and]
    rfl
  obtain ⟨hi', hsz, _, hbytes⟩ := hi.overwrite (f := fun _ => 0#8) hc (Nat.le_refl _) (by omega)
    hhost hmem
  exact ⟨hi', hsz c hc, fun i hik => by
    rw [hbytes (c + 8 + i) (by omega) (by omega), if_pos (by omega)]⟩

theorem callocOk_iff (hi : HeapInv s F L) {steps : Nat} (hs : 4 * WALK ≤ steps) (a b : Word) :
    CallocOk steps s L a b ↔ a.toNat * b.toNat ≤ 0xfffffff0 ∨ Refused s F (a * b) := by
  obtain ⟨s', r, hm, ha⟩ := purvaMalloc_answers hi hs (a * b)
  unfold CallocOk calloc
  simp only [hm]
  by_cases h0 : r = 0#32
  · rw [if_pos h0]
    exact iff_of_true ⟨s', r, rfl, .inl ⟨h0, ha.keeps h0⟩⟩ (.inr (ha.refused.mp h0))
  rw [if_neg h0]
  constructor
  · rintro ⟨s'', r', he, h⟩
    cases he
    rcases h with ⟨h, _⟩ | ⟨c, F', _, _, hi', hle, _⟩
    · exact absurd h h0
    · have := hi'.payload_lt (.inr rfl)
      exact .inl (by omega)
  · rintro (h | h)
    · have hprod : (a * b).toNat = a.toNat * b.toNat := by
        rw [BitVec.toNat_mul, Nat.mod_eq_of_lt (by omega)]
      obtain ⟨c, hc, hal⟩ := ha.allocated (by omega) h0
      obtain ⟨F', hi'⟩ := hal.inv
      have hle : (a * b).toNat ≤ 8 * (sizeAt s' c - 1) := by
        have := hal.size
        unfold units at this
        omega
      rw [hc]
      obtain ⟨hi'', hsz, hzero⟩ := HeapInv.zeros hi' (c := c) (.inr rfl) hle rfl
      refine ⟨_, _, rfl, .inr ⟨c, F', rfl, hc ▸ h0, hi'', ?_, ?_⟩⟩
      · rw [hsz, ← hprod]
        exact hle
      · rw [← hprod]
        exact hzero
    · exact absurd (ha.refused.mpr h) h0

/-- **When an allocation is as large as requested**: `malloc` up to `0xfffffff0` bytes and `calloc`
up to that product, and beyond them only where the call is refused. -/
theorem purvaMalloc_sizes (hi : HeapInv s F L) {steps : Nat} (hs : 4 * WALK ≤ steps) :
    (∀ n, MallocOk steps s L n ↔ n.toNat ≤ 0xfffffff0 ∨ Refused s F n) ∧
      ∀ a b, CallocOk steps s L a b ↔ a.toNat * b.toNat ≤ 0xfffffff0 ∨ Refused s F (a * b) :=
  ⟨mallocOk_iff hi hs, callocOk_iff hi hs⟩

end

/-- In a fresh heap, `malloc(0xfffffff9)` answers a block of no bytes, and
`calloc(0x10000, 0x10001)` one of `0x10000`. -/
theorem purvaMalloc_wraps :
    HeapInv freshHeap (fun _ => False) (fun _ => False) ∧
      ¬ MallocOk (4 * WALK) freshHeap (fun _ => False) 0xfffffff9#32 ∧
      ¬ CallocOk (4 * WALK) freshHeap (fun _ => False) 0x10000#32 0x10001#32 := by
  have hroom : ∀ n, n ≤ 10000 → ¬ Exhausted freshHeap (fun _ => False) n := by
    rintro n hn ⟨_, htop⟩
    have hbrk : freshHeap.host.heap_brk.toNat = 0x80000008 := by decide
    have hend : freshHeap.host.heap_top.toNat = 0x81000000 := by decide
    unfold moreUnits at htop
    rw [hbrk, hend] at htop
    split at htop <;> omega
  refine ⟨freshHeap_inv, ?_, ?_⟩
  · rw [mallocOk_iff freshHeap_inv (Nat.le_refl _)]
    rintro (h | h | ⟨h, _⟩ | ⟨_, h⟩ | ⟨_, h, _⟩)
    · revert h
      decide
    · revert h
      decide
    · revert h
      decide
    · exact hroom 1 (by decide) h
    · revert h
      decide
  · rw [callocOk_iff freshHeap_inv (Nat.le_refl _)]
    rintro (h | h | ⟨_, h⟩ | ⟨h, _⟩ | ⟨h, _⟩)
    · revert h
      decide
    · revert h
      decide
    · exact hroom _ (by decide) h
    · revert h
      decide
    · revert h
      decide

/-- A request of 100 bytes. -/
theorem purvaMalloc_sizes_100 : MallocOk (4 * WALK) freshHeap (fun _ => False) 100#32 :=
  ((purvaMalloc_sizes freshHeap_inv (Nat.le_refl _)).1 100#32).2 (.inl (by decide))

end Purv.Purva

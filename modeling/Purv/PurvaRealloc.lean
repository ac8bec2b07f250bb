import Purv.PurvaMalloc

/-!
# The heap of the guest: client writes and `purva__realloc`

* `Client`, `HeapAt.client` — writes inside live payloads keep the invariant;
* `HeapAt.overwrite`, `HeapAt.copy` — so does a run of bytes, and the copy of `purva__realloc`;
* `purvaRealloc_spec` — the block itself, nothing, or a `Moved` block;
* `Atomic`, `purvaRealloc_atomic` — when failed allocations change nothing, and contents are
  preserved; `purvaRealloc_wrapped` is a heap where they do not.
-/

namespace Purv.Purva

open Bits Transcode FreeList Function

variable {U : Type}

section
variable {s : State (PurvaRun U)} {Q : Nat → Prop} {F L : Nat → Prop}

/-! ## What the client writes -/

theorem offset_add (s : State (PurvaRun U)) {a i : Nat} (h : offset s a + i < 2 ^ 32) :
    offset s (a + i) = offset s a + i := by
  have hi : i < 2 ^ 32 := by omega
  unfold offset purvaArena at h ⊢
  simp only at h ⊢
  generalize RISCV_HALF - s.host.stack_len = B at h ⊢
  rw [← addr_add]
  have h2 : addr a + addr i - B = (addr a - B) + addr i := by bv_omega
  rw [h2, BitVec.toNat_add_of_lt (by rw [addr_toNat hi]; exact h), addr_toNat hi]

/-- Offsets in the arena do not wrap. -/
theorem HeapAt.offset_eq (hi : HeapAt Q s F L) {x : Nat} (hlo : s.host.basep.toNat ≤ x)
    (hhi : x < s.host.heap_top.toNat) :
    offset s x = offset s s.host.basep.toNat + (x - s.host.basep.toNat) := by
  have hb := hi.buffer
  have h := offset_add s (a := s.host.basep.toNat) (i := x - s.host.basep.toNat) (by omega)
  rwa [Nat.add_sub_cancel' hlo] at h

/-- A header is its eight bytes. -/
theorem header_of_bytes {s' : State (PurvaRun U)} (hhost : s'.host = s.host) {a : Nat}
    (hoff : offset s a + 8 ≤ 2 ^ 32)
    (hbytes : ∀ i < 8, heapByte s' (a + i) = heapByte s (a + i)) :
    nextAt s' a = nextAt s a ∧ sizeAt s' a = sizeAt s a := by
  have hoff' : ∀ i, i < 8 → offset s (a + i) = offset s a + i := fun i hi =>
    offset_add s (by omega)
  have harena : ∀ x, purvaArena s' x = purvaArena s x := by
    intro x
    unfold purvaArena
    rw [hhost]
  have hmem : ∀ i, i < 8 → s'.mem s.host.writable (offset s a + i) =
      s.mem s.host.writable (offset s a + i) := by
    intro i hi
    have h := hbytes i hi
    unfold heapByte offset at h
    rw [harena, hhost] at h
    rw [← hoff' i hi]
    exact h
  have hnext : purvaNext s' (addr a) = purvaNext s (addr a) := by
    unfold purvaNext purvaLd ldLe
    rw [harena]
    have hb : ∀ i, i < 4 → s'.byte (purvaArena s (addr a)) i = s.byte (purvaArena s (addr a)) i :=
      fun i hi => hmem i (by omega)
    rw [hb 0 (by decide), hb 1 (by decide), hb 2 (by decide), hb 3 (by decide)]
  have hsize : purvaSize s' (addr a) = purvaSize s (addr a) := by
    unfold purvaSize purvaLd ldLe
    rw [harena]
    have hb : ∀ i, i < 4 → s'.byte (purvaArena s (addr a + 4#32)) i =
        s.byte (purvaArena s (addr a + 4#32)) i := by
      intro i hi
      have h4 : (purvaArena s (addr a + 4#32)).2 = offset s a + 4 :=
        (congrArg (fun w => (purvaArena s w).2) (addr_add a 4)).trans (hoff' 4 (by decide))
      have h := hmem (4 + i) (by omega)
      rw [← Nat.add_assoc, ← h4] at h
      exact h
    rw [hb 0 (by decide), hb 1 (by decide), hb 2 (by decide), hb 3 (by decide)]
  constructor
  · unfold nextAt
    rw [hnext]
  · unfold sizeAt
    rw [hsize]

/-- The bytes of the arena that are in no live payload are as they were. -/
structure Client (s s' : State (PurvaRun U)) (L : Nat → Prop) : Prop where
  host : s'.host = s.host
  bytes : ∀ x, s.host.basep.toNat ≤ x → x < s.host.heap_brk.toNat →
    (∀ c, L c → x < c + 8 ∨ c + 8 * sizeAt s c ≤ x) → heapByte s' x = heapByte s x

/-- **Writes inside live payloads keep the invariant.** -/
theorem HeapAt.client (hi : HeapAt Q s F L) {s' : State (PurvaRun U)} (hc : Client s s' L) :
    HeapAt Q s' F L ∧ ∀ c, L c → sizeAt s' c = sizeAt s c := by
  have htop := hi.top_le
  have hbuf := hi.buffer
  have hhead : ∀ x, x = s.host.basep.toNat ∨ F x ∨ L x →
      nextAt s' x = nextAt s x ∧ sizeAt s' x = sizeAt s x := by
    intro x hx
    have hxh : Header x ∧ s.host.basep.toNat ≤ x ∧ x + 8 ≤ s.host.heap_brk.toNat := by
      rcases hx with hx | hx | hx
      · obtain ⟨h1, h2⟩ := hi.node (.inl hx)
        exact ⟨h1, by omega, h2⟩
      · obtain ⟨h1, h2⟩ := hi.node (.inr hx)
        exact ⟨h1, Nat.le_of_lt (hi.heap.ring.above x hx), h2⟩
      · obtain ⟨h1, h2, h3, h4⟩ := hi.live hx
        exact ⟨h1, by omega, by omega⟩
    obtain ⟨hh, hlo, hhi⟩ := hxh
    refine header_of_bytes hc.host ?_ fun i hi' => ?_
    · rw [hi.offset_eq hlo (by omega)]
      omega
    · refine hc.bytes _ (by omega) (by omega) fun c hcL => ?_
      rcases hx with hx | hx | hx
      · rcases hi.node_outside (.inl hx) hcL with h | h
        · exact .inl (by omega)
        · exact .inr (by omega)
      · rcases hi.node_outside (.inr hx) hcL with h | h
        · exact .inl (by omega)
        · exact .inr (by omega)
      · by_cases hxc : c = x
        · exact .inl (by omega)
        · rcases hi.live_outside hx hcL hxc with h | h
          · exact .inl (by omega)
          · exact .inr (by omega)
  refine ⟨⟨?_, ?_, ?_, ?_, ?_, ?_⟩, fun c hcL => (hhead c (.inr (.inr hcL))).2⟩
  · rw [hc.host]
    exact hi.heap.congr (fun x hx => (hhead x (hx.imp id .inl)).1) fun x hx => (hhead x hx).2
  · rw [hc.host]
    exact hi.freep
  · rw [hc.host]
    exact hi.aligned
  · rw [hc.host]
    exact hi.base
  · rw [hc.host]
    exact hi.top
  · unfold offset purvaArena at hbuf ⊢
    rw [hc.host]
    exact hbuf

/-- **`k` bytes written from `a` on in a live payload**: the invariant and every size stay, the
other live blocks are kept, and only these bytes change. -/
theorem HeapAt.overwrite (hi : HeapAt Q s F L) {a c k : Nat} {f : Nat → Byte} (hc : L c)
    (hlo : c + 8 ≤ a) (hhi : a + k ≤ c + 8 * sizeAt s c) {s' : State (PurvaRun U)}
    (hhost : s'.host = s.host)
    (hmem : ∀ o, s'.mem s.host.writable o =
      if offset s a ≤ o ∧ o < offset s a + k then f (o - offset s a)
      else s.mem s.host.writable o) :
    HeapAt Q s' F L ∧ (∀ d, L d → sizeAt s' d = sizeAt s d) ∧
      (∀ d, L d → d ≠ c → KeepsBlock s s' d) ∧
      ∀ x, c + 8 ≤ x → x < c + 8 * sizeAt s c →
        heapByte s' x = if a ≤ x ∧ x < a + k then f (x - a) else heapByte s x := by
  have htop := hi.top_le
  obtain ⟨_, hclo, hchi, hcpos⟩ := hi.live hc
  have hbyte : ∀ x, s.host.basep.toNat ≤ x → x < s.host.heap_brk.toNat →
      heapByte s' x = if a ≤ x ∧ x < a + k then f (x - a) else heapByte s x := by
    intro x hxlo hxhi
    have hoff : offset s' x = offset s x := by
      unfold offset purvaArena
      rw [hhost]
    have hsame : heapByte s' x = s'.mem s.host.writable (offset s x) := by
      unfold heapByte
      rw [hhost, hoff]
    rw [hsame, hmem]
    -- with nothing written the payload may be empty, and end where the buffer does
    by_cases hk : k = 0
    · rw [if_neg (by omega), if_neg (by omega)]
      rfl
    have hx := hi.offset_eq hxlo (by omega)
    have ha := hi.offset_eq (x := a) (by omega) (by omega)
    by_cases hin : a ≤ x ∧ x < a + k
    · rw [if_pos (by omega), if_pos hin]
      congr 1
      omega
    · rw [if_neg (by omega), if_neg hin]
      rfl
  have hclient : Client s s' L := by
    refine ⟨hhost, fun x hxlo hxhi hout => ?_⟩
    rw [hbyte x hxlo hxhi, if_neg]
    have := hout c hc
    omega
  obtain ⟨hi', hsz⟩ := hi.client hclient
  refine ⟨hi', hsz, fun d hd hne => ⟨hsz d hd, fun x hxlo hxhi => ?_⟩, fun x hxlo hxhi => ?_⟩
  · obtain ⟨_, hdlo, hdhi, _⟩ := hi.live hd
    rw [hbyte x (by omega) (by omega), if_neg]
    rcases Nat.lt_or_ge c d with hlt | hge
    · have := hi.heap.tiled.apart c d (.inr hc) (.inr hd) hlt
      omega
    · have := hi.heap.tiled.apart d c (.inr hd) (.inr hc) (by omega)
      omega
  · exact hbyte x (by omega) (by omega)

/-- A copy from the payload of one live block into that of another. -/
theorem HeapAt.copy (hi : HeapAt Q s F L) {b c k : Nat} (hb : L b) (hc : L c)
    (hkb : k ≤ 8 * (sizeAt s b - 1)) (hkc : k ≤ 8 * (sizeAt s c - 1)) {s' : State (PurvaRun U)}
    (hs : s' = memmove s (purvaArena s (addr (c + 8))) (purvaArena s (addr (b + 8))) k) :
    HeapAt Q s' F L ∧ SameHost s s' ∧ sizeAt s' c = sizeAt s c ∧
      (∀ d, L d → d ≠ c → KeepsBlock s s' d) ∧
      ∀ i < k, heapByte s' (c + 8 + i) = heapByte s (b + 8 + i) := by
  have htop := hi.top_le
  obtain ⟨_, hblo, hbhi, hbpos⟩ := hi.live hb
  obtain ⟨_, hclo, hchi, hcpos⟩ := hi.live hc
  have hhost : s'.host = s.host := by rw [hs]; rfl
  have hmem : ∀ o, s'.mem s.host.writable o =
      if offset s (c + 8) ≤ o ∧ o < offset s (c + 8) + k then
        s.mem s.host.writable (offset s (b + 8) + (o - offset s (c + 8)))
      else s.mem s.host.writable o := by
    intro o
    rw [hs]
    show (if s.host.writable = s.host.writable ∧ _ then _ else _) = _
    simp only [true_and]
    rfl
  obtain ⟨hi', hsz, hkeep, hbytes⟩ := hi.overwrite
    (f := fun i => s.mem s.host.writable (offset s (b + 8) + i)) hc (Nat.le_refl _) (by omega)
    hhost hmem
  refine ⟨hi', ?_, hsz c hc, hkeep, fun i hik => ?_⟩
  · unfold SameHost
    rw [hhost]
  · have hb8 := hi.offset_eq (x := b + 8) (by omega) (by omega)
    have hbi := hi.offset_eq (x := b + 8 + i) (by omega) (by omega)
    have hoff : offset s (b + 8) + i = offset s (b + 8 + i) := by omega
    rw [hbytes (c + 8 + i) (by omega) (by omega), if_pos (by omega), Nat.add_sub_cancel_left, hoff]
    rfl

/-! ## `purva__realloc` -/

theorem addr_ne_zero {a : Nat} (h0 : 0 < a) (h : a < 2 ^ 32) : addr a ≠ 0#32 := by
  intro hz
  have := congrArg BitVec.toNat hz
  rw [addr_toNat h] at this
  simp at this
  omega

/-- A moved block: a new one of at least `n` bytes, with the payload of the old one, which is
free. -/
structure Moved (Q : Nat → Prop) (s s' : State (PurvaRun U)) (L : Nat → Prop) (b n c : Nat) :
    Prop where
  inv : ∃ F', HeapAt Q s' F' (fun x => (L x ∧ x ≠ b) ∨ x = c)
  host : SameHost s s'
  fresh : ¬ L c
  room : n ≤ 8 * (sizeAt s' c - 1)
  payload : ∀ i < 8 * (sizeAt s b - 1), heapByte s' (c + 8 + i) = heapByte s (b + 8 + i)
  keeps : ∀ d, L d → d ≠ b → KeepsBlock s s' d

/-- **`purva__realloc`** of a live block: the block itself if it is large enough; else nothing, or a
move. -/
theorem purvaRealloc_spec (hi : HeapAt Q s F L) (hground : Grounded s F) {b steps : Nat}
    {n : Word} (hb : L b) (hn0 : n ≠ 0#32) (hn : n.toNat ≤ 0xfffffff0) (hs : 4 * WALK ≤ steps) :
    (n.toNat ≤ 8 * (sizeAt s b - 1) ∧
      purvaRealloc steps s (addr (b + 8)) n = some (s, addr (b + 8))) ∨
    (8 * (sizeAt s b - 1) < n.toNat ∧
      (purvaRealloc steps s (addr (b + 8)) n = some (s, 0#32) ∨
        ∃ s' c, purvaRealloc steps s (addr (b + 8)) n = some (s', addr (c + 8)) ∧
          Moved Q s s' L b n.toNat c)) := by
  obtain ⟨hbh, hblo, hbhi, hbpos⟩ := hi.live hb
  have hbrk := s.host.heap_brk.isLt
  have hold : (purvaSize s (addr (b + 8) - PURVA_HUNIT) - 1#32) * PURVA_HUNIT =
      addr (8 * (sizeAt s b - 1)) := by
    rw [addr_sub_unit, purvaSize_addr s hbh, ← addr_units]
    exact congrArg (· * PURVA_HUNIT) (addr_sub hbpos)
  have hnw : addr n.toNat = n := addr_of_toNat n
  have hle : n ≤ addr (8 * (sizeAt s b - 1)) ↔ n.toNat ≤ 8 * (sizeAt s b - 1) := by
    conv_lhs => rw [← hnw]
    exact addr_le n.isLt (by omega)
  have hbn : addr (b + 8) ≠ 0#32 := addr_ne_zero (by omega) (by omega)
  unfold purvaRealloc
  rw [if_neg hbn, if_neg hn0]
  simp only [hold, ge_iff_le, hle]
  by_cases hfit : n.toNat ≤ 8 * (sizeAt s b - 1)
  · rw [if_pos hfit]
    exact .inl ⟨hfit, rfl⟩
  rw [if_neg hfit]
  refine .inr ⟨by omega, ?_⟩
  rcases purvaMalloc_spec hi hground hn hs with ⟨_, hm⟩ | ⟨_, s₁, c, hm, ha⟩
  · rw [hm]
    exact .inl rfl
  rw [hm]
  obtain ⟨F₁, hi₁⟩ := ha.inv
  obtain ⟨_, hclo, hchi, hcpos⟩ := hi₁.live (x := c) (.inr rfl)
  have hbrk₁ := s₁.host.heap_brk.isLt
  have hcn : addr (c + 8) ≠ 0#32 := addr_ne_zero (by omega) (by omega)
  have hmin : (if addr (8 * (sizeAt s b - 1)) < n then addr (8 * (sizeAt s b - 1)) else n).toNat =
      8 * (sizeAt s b - 1) := by
    rw [if_pos, addr_toNat (by omega)]
    rw [BitVec.lt_def, addr_toNat (by omega)]
    omega
  simp only [if_neg hcn, hmin]
  have hbc : b ≠ c := by
    rintro rfl
    exact ha.fresh hb
  have hroom : n.toNat ≤ 8 * (sizeAt s₁ c - 1) := by
    have := ha.size
    unfold units at this
    omega
  have hbk := ha.keeps b hb
  obtain ⟨hi₂, hh₂, hsz₂, hk₂, hcopy⟩ := hi₁.copy (b := b) (c := c)
    (k := 8 * (sizeAt s b - 1)) (.inl hb) (.inr rfl) (by rw [hbk.size])
    (by omega) rfl
  generalize memmove s₁ (purvaArena s₁ (addr (c + 8))) (purvaArena s₁ (addr (b + 8)))
    (8 * (sizeAt s b - 1)) = s₂ at hi₂ hh₂ hsz₂ hk₂ hcopy ⊢
  obtain ⟨s₃, F₃, hfree, hh₃, _, hi₃, hk₃, _⟩ :=
    purvaFree_spec hi₂ (.inl hb) (show WALK ≤ steps by omega)
  have hck := hk₃ c (.inr rfl) (Ne.symm hbc)
  rw [hfree]
  refine .inr ⟨s₃, c, rfl, ⟨F₃, ?_⟩, ha.host.trans (hh₂.trans hh₃), ha.fresh, ?_, ?_, ?_⟩
  · have hL : (fun x => (L x ∨ x = c) ∧ x ≠ b) = fun x => (L x ∧ x ≠ b) ∨ x = c := by
      funext x
      refine propext ⟨fun h => h.1.imp (fun hx => ⟨hx, h.2⟩) id, fun h => ?_⟩
      rcases h with h | rfl
      · exact ⟨.inl h.1, h.2⟩
      · exact ⟨.inr rfl, Ne.symm hbc⟩
    rwa [← hL]
  · rw [hck.size, hsz₂]
    exact hroom
  · intro i hik
    rw [hck.payload _ (by omega) (by rw [hsz₂]; omega), hcopy i hik]
    exact hbk.payload _ (by omega) (by omega)
  · intro d hd hdb
    have hdc : d ≠ c := by
      rintro rfl
      exact ha.fresh hd
    exact (ha.keeps d hd).trans ((hk₂ d (.inl hd) hdc).trans (hk₃ d (.inl hd) hdb))

/-- What `purva__realloc` of the live block `b` to `n` bytes answers: nothing, with the heap as it
was; or a block of `n` bytes that starts with the old payload, all other blocks kept.  The old block
is live after it just when the answer is the old block. -/
structure Reallocated (Q : Nat → Prop) (s s' : State (PurvaRun U)) (L : Nat → Prop) (b n : Nat)
    (r : Word) : Prop where
  fails : r = 0#32 → s' = s
  moves : r ≠ 0#32 → ∃ c F' L', r = addr (c + 8) ∧ HeapAt Q s' F' L' ∧ (L' b ↔ c = b) ∧
    (∀ x, x ≠ b → (L' x ↔ L x ∨ x = c)) ∧ (c = b ∨ ¬ L c) ∧ L' c ∧ n ≤ 8 * (sizeAt s' c - 1) ∧
    (∀ i < min (8 * (sizeAt s b - 1)) n, heapByte s' (c + 8 + i) = heapByte s (b + 8 + i)) ∧
    ∀ d, L d → d ≠ b → KeepsBlock s s' d

/-- Failed allocations change nothing, and `purva__realloc` preserves contents, for requests up to
`0xfffffff0` bytes. -/
def Atomic (Q : Nat → Prop) (steps : Nat) (s : State (PurvaRun U)) (L : Nat → Prop) : Prop :=
  (∀ n : Word, n.toNat ≤ 0xfffffff0 →
    ∃ s' r, purvaMalloc steps s n = some (s', r) ∧ (r = 0#32 → s' = s)) ∧
  ∀ b, L b → ∀ n : Word, n ≠ 0#32 → n.toNat ≤ 0xfffffff0 →
    ∃ s' r, purvaRealloc steps s (addr (b + 8)) n = some (s', r) ∧
      Reallocated Q s s' L b n.toNat r

theorem Grounded.atomic (hground : Grounded s F) (hi : HeapAt Q s F L) {steps : Nat}
    (hs : 4 * WALK ≤ steps) : Atomic Q steps s L := by
  constructor
  · intro n hn
    rcases purvaMalloc_spec hi hground hn hs with ⟨_, hm⟩ | ⟨_, s', c, hm, ha⟩
    · exact ⟨s, 0#32, hm, fun _ => rfl⟩
    · obtain ⟨F', hi'⟩ := ha.inv
      obtain ⟨_, hclo, hchi, hcpos⟩ := hi'.live (x := c) (.inr rfl)
      have := s'.host.heap_brk.isLt
      exact ⟨s', addr (c + 8), hm, fun h => absurd h (addr_ne_zero (by omega) (by omega))⟩
  · intro b hb n hn0 hn
    obtain ⟨_, hblo, hbhi, hbpos⟩ := hi.live hb
    have hbrk := s.host.heap_brk.isLt
    rcases purvaRealloc_spec hi hground hb hn0 hn hs with ⟨hfit, hm⟩ | ⟨hlt, hm | ⟨s', c, hm, hmv⟩⟩
    · refine ⟨s, addr (b + 8), hm, fun _ => rfl, fun _ => ?_⟩
      refine ⟨b, F, L, rfl, hi, iff_of_true hb rfl, fun x hx => (or_iff_left hx).symm, .inl rfl, hb,
        hfit, fun _ _ => rfl, fun d _ _ => .refl s d⟩
    · exact ⟨s, 0#32, hm, fun _ => rfl, fun h => absurd rfl h⟩
    · obtain ⟨F', hi'⟩ := hmv.inv
      obtain ⟨_, hclo, hchi, hcpos⟩ := hi'.live (x := c) (.inr rfl)
      have hbrk' := s'.host.heap_brk.isLt
      have hcb : c ≠ b := by
        rintro rfl
        exact hmv.fresh hb
      refine ⟨s', addr (c + 8), hm, fun h => absurd h (addr_ne_zero (by omega) (by omega)),
        fun _ => ?_⟩
      refine ⟨c, F', _, rfl, hi', ?_, fun x hx => ?_, .inr hmv.fresh, .inr rfl, hmv.room,
        fun i hik => hmv.payload i (by omega), hmv.keeps⟩
      · constructor
        · rintro (h | h)
          · exact absurd rfl h.2
          · exact h.symm
        · intro h
          exact absurd h hcb
      · exact or_congr_left (and_iff_left hx)

/-- An arena at address 0 with no free block is grown in vain: the roving pointer, which
`purva__malloc` then takes for a failure, is left at 0. -/
theorem purvaMalloc_in_vain (hi : HeapAt Q s F L) (hground : ¬ Grounded s F) {steps : Nat}
    (hs : 4 * WALK ≤ steps) :
    ∃ s', purvaMalloc steps s 100#32 = some (s', 0#32) ∧
      s'.host.heap_brk.toNat = s.host.heap_brk.toNat + 32768 := by
  unfold Grounded at hground
  rw [not_or, not_or, not_exists] at hground
  obtain ⟨hzero, hnone, hroom⟩ := hground
  have hwalk : 0 < WALK := by decide
  have hmore : moreUnits 14 = 4096 := by decide
  have hunits : (100#32 + PURVA_HUNIT - 1#32) / PURVA_HUNIT + 1#32 = addr 14 := by decide
  unfold purvaMalloc
  rw [if_neg (by decide), hunits]
  rcases hi.walk steps (show 0 < 14 by decide) (by decide) (show WALK ≤ steps by omega) with
    ⟨_, _, hF, _⟩ | ⟨_, k', _, hw⟩
  · exact absurd hF (hnone _)
  rcases purvaMorecore_spec hi (show 0 < 14 by decide) (by decide) (show WALK ≤ steps by omega) with
    ⟨hfull, _⟩ | ⟨_, s', _, hm, _, _, _, hbrk, hfreep, _⟩
  · rw [hmore] at hfull
    omega
  · have hat : s'.host.freep = 0#32 := by
      have h0 := hfreep.resolve_right (hnone _)
      refine BitVec.eq_of_toNat_eq ?_
      rw [h0, show (0#32 : Word).toNat = 0 from rfl]
      omega
    refine ⟨s', ?_, ?_⟩
    · show mallocWalk _ _ _ _ _ _ = _
      rw [hw]
      unfold grown
      rw [hm]
      simp only
      rw [if_pos hat]
    · rw [hbrk, hmore]

/-- **Failed allocations change nothing, and `purva__realloc` preserves contents**, in just the heaps
that do not grow to end at address 0. -/
theorem purvaRealloc_atomic (hi : HeapAt Q s F L) {steps : Nat} (hs : 4 * WALK ≤ steps) :
    Atomic Q steps s L ↔ Grounded s F := by
  refine ⟨fun h => ?_, fun h => h.atomic hi hs⟩
  by_contra hground
  obtain ⟨s', hm, hbrk⟩ := purvaMalloc_in_vain hi hground hs
  obtain ⟨s'', r, hm', hsame⟩ := h.1 100#32 (by decide)
  obtain ⟨rfl, rfl⟩ := Prod.mk.inj (Option.some.inj (hm.symm.trans hm'))
  rw [hsame rfl] at hbrk
  omega

end

/-- A live block of 8 bytes in a heap with no free block, asked to be 100 bytes. -/
theorem purvaRealloc_atomic_100 :
    ∃ (s : State (PurvaRun Unit)) (b : Nat) (s' : State (PurvaRun Unit)) (r : Word),
      purvaRealloc (4 * WALK) s (addr (b + 8)) 100#32 = some (s', r) ∧
        Reallocated (0 < ·) s s' (fun x => False ∨ x = b) b 100 r :=
  have hi := (freshHeap_inv.more (show 0 < 2 by decide) (by decide)).1
  ⟨_, _, ((purvaRealloc_atomic hi (Nat.le_refl _)).mpr (.inl hi.base)).2 _ (.inr rfl) 100#32
    (by decide) (by decide)⟩

/-- An image of no code and no data that asks for 2 GiB of zeros: its arena is at address 0. -/
def wrappedImage (i : Nat) : Byte := if i = 15 then 0x80#8 else 0#8

/-- A request for 100 bytes of its run grows the heap, and answers 0. -/
theorem purvaRealloc_wrapped :
    ∃ i, purvaRunInit wrappedImage 20 0#32 0#32 false () = some i ∧
      HeapAt (fun _ => True) i.s (fun _ => False) (fun _ => False) ∧
      (∃ s', purvaMalloc (4 * WALK) i.s 100#32 = some (s', 0#32) ∧
        s'.host.heap_brk.toNat = i.s.host.heap_brk.toNat + 32768) ∧
      ¬ Atomic (fun _ => True) (4 * WALK) i.s (fun _ => False) := by
  have hi : HeapAt (fun _ => True) (initRun wrappedImage (imageHeader wrappedImage) 0x100000#32
      0x81000000#32 ()).s (fun _ => False) (fun _ => False) :=
    heapAt_empty (initState wrappedImage (imageHeader wrappedImage) 0x100000#32 0x81000000#32 ())
      rfl (by decide) (by decide) trivial (by decide) (by decide)
  obtain ⟨s', hm, hbrk⟩ := purvaMalloc_in_vain hi (by
    unfold Grounded
    rintro (h | ⟨_, h⟩ | h)
    · exact absurd h (by decide)
    · exact h
    · exact absurd h (by decide)) (Nat.le_refl _)
  refine ⟨initRun wrappedImage (imageHeader wrappedImage) 0x100000#32 0x81000000#32 (), rfl, hi,
    ⟨s', hm, hbrk⟩, fun h => ?_⟩
  obtain ⟨s'', r, hm', hsame⟩ := h.1 100#32 (by decide)
  obtain ⟨rfl, rfl⟩ := Prod.mk.inj (Option.some.inj (hm.symm.trans hm'))
  rw [hsame rfl] at hbrk
  omega

end Purv.Purva

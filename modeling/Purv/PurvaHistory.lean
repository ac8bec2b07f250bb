import Purv.PurvaSizes

/-!
# The heap over a whole run

* `Block`, `History` — the states a heap goes through, with what the client has asked for and
  written in each live block;
* `Integrity` — the invariant, and every live block as large as it was asked to be and with what
  was last written in it;
* `History.integrity` — every state of a history has it;
* `heap_integrity` — so the heaps of `purva_run_init` and of the SQLite host are sound exactly when
  the sizes leave room for them;
* `hostcalls_return` — every call of such a run comes back, and `hostcalls_hang`: one that frees
  the sentinel does not.
-/

namespace Purv.Purva

open Bits Transcode FreeList Function

variable {U : Type}

/-! ## Histories -/

/-- A live block: the bytes asked for, and what was last written at each offset of its payload. -/
structure Block where
  req : Nat
  data : Nat → Option Byte

/-- The live blocks of a heap. -/
abbrev Blocks := Nat → Option Block

/-- The heap is untouched: the host's side and the arena are as they were. -/
def SameHeap (s s' : State (PurvaRun U)) : Prop :=
  s'.host = s.host ∧ ∀ x, s.host.basep.toNat ≤ x → x < s.host.heap_brk.toNat →
    heapByte s' x = heapByte s x

/-- What the heap `s₀` goes through: requests of at most `0xfffffff0` bytes, live blocks freed and
moved, and writes inside live payloads. -/
inductive History (steps : Nat) (s₀ : State (PurvaRun U)) : State (PurvaRun U) → Blocks → Prop where
  | start : History steps s₀ s₀ fun _ => none
  | idle {s s' live} (h : History steps s₀ s live) (hs : SameHeap s s') : History steps s₀ s' live
  | write {s live b k} (h : History steps s₀ s live) (hb : live b = some k) {i : Nat} {v : Byte}
      (hi : i < 8 * (sizeAt s b - 1)) :
      History steps s₀ (s.setByte (purvaArena s (addr (b + 8 + i))) 0 v)
        (update live b (some ⟨k.req, update k.data i (some v)⟩))
  | refused {s s' live} (h : History steps s₀ s live) {n : Word} (hn : n.toNat ≤ 0xfffffff0)
      (hm : purvaMalloc steps s n = some (s', 0#32)) : History steps s₀ s' live
  | malloc {s s' live} (h : History steps s₀ s live) {n r : Word} (hn : n.toNat ≤ 0xfffffff0)
      (hm : purvaMalloc steps s n = some (s', r)) (hr : r ≠ 0#32) {b : Nat} (hb : r = addr (b + 8))
      (hlt : b + 8 < 2 ^ 32) :
      History steps s₀ s' (update live b (some ⟨n.toNat, fun _ => none⟩))
  | free {s s' live b k} (h : History steps s₀ s live) (hb : live b = some k)
      (hm : purvaFree steps s (addr (b + 8)) = some s') : History steps s₀ s' (update live b none)
  | release {s s' live b k} (h : History steps s₀ s live) (hb : live b = some k)
      (hm : purvaRealloc steps s (addr (b + 8)) 0#32 = some (s', 0#32)) :
      History steps s₀ s' (update live b none)
  | unmoved {s s' live b k} (h : History steps s₀ s live) (hb : live b = some k) {n : Word}
      (hn0 : n ≠ 0#32) (hn : n.toNat ≤ 0xfffffff0)
      (hm : purvaRealloc steps s (addr (b + 8)) n = some (s', 0#32)) : History steps s₀ s' live
  | realloc {s s' live b k} (h : History steps s₀ s live) (hb : live b = some k) {n r : Word}
      (hn0 : n ≠ 0#32) (hn : n.toNat ≤ 0xfffffff0)
      (hm : purvaRealloc steps s (addr (b + 8)) n = some (s', r)) (hr : r ≠ 0#32) {c : Nat}
      (hc : r = addr (c + 8)) (hlt : c + 8 < 2 ^ 32) :
      History steps s₀ s' (update (update live b none) c (some ⟨n.toNat, k.data⟩))

/-- The live blocks. -/
def Blocks.Live (live : Blocks) (b : Nat) : Prop := ∃ k, live b = some k

/-- A live block has the room it was asked to have, and what was written in it. -/
structure Block.Holds (s : State (PurvaRun U)) (b : Nat) (k : Block) : Prop where
  room : k.req ≤ 8 * (sizeAt s b - 1)
  data : ∀ i v, k.data i = some v →
    i < 8 * (sizeAt s b - 1) ∧ heapByte s (b + 8 + i) = v

/-- **Integrity**: the invariant, and every live block holds. -/
structure Integrity (s : State (PurvaRun U)) (live : Blocks) : Prop where
  inv : ∃ F, HeapInv s F live.Live
  holds : ∀ b k, live b = some k → k.Holds s b

theorem KeepsBlock.holds {s s' : State (PurvaRun U)} {b : Nat} {k : Block}
    (hk : KeepsBlock s s' b) (h : k.Holds s b) : k.Holds s' b where
  room := by
    rw [hk.size]
    exact h.room
  data := fun i v hv => by
    obtain ⟨hi, hb⟩ := h.data i v hv
    rw [hk.size]
    exact ⟨hi, (hk.payload _ (by omega) (by omega)).trans hb⟩

theorem live_update_some (live : Blocks) (b : Nat) (k : Block) :
    Blocks.Live (update live b (some k)) = fun x => live.Live x ∨ x = b := by
  funext x
  unfold Blocks.Live
  by_cases hx : x = b
  · simp [hx]
  · simp [hx]

/-- A live block that is changed stays live. -/
theorem live_update_live {live : Blocks} {b : Nat} {k k' : Block} (hb : live b = some k) :
    Blocks.Live (update live b (some k')) = live.Live := by
  rw [live_update_some]
  funext x
  refine propext ⟨fun hx => ?_, .inl⟩
  rcases hx with hx | rfl
  · exact hx
  · exact ⟨k, hb⟩

theorem live_update_none (live : Blocks) (b : Nat) :
    Blocks.Live (update live b none) = fun x => live.Live x ∧ x ≠ b := by
  funext x
  unfold Blocks.Live
  by_cases hx : x = b
  · simp [hx]
  · simp [hx]

theorem sameHeap_setX (s : State (PurvaRun U)) (i : Reg) (v : Word) : SameHeap s (s.setX i v) :=
  ⟨rfl, fun _ _ _ => rfl⟩

section
variable {s s' : State (PurvaRun U)} {live : Blocks} {steps : Nat}

theorem Integrity.idle (h : Integrity s live) (hs : SameHeap s s') : Integrity s' live := by
  obtain ⟨F, hi⟩ := h.inv
  have hc : Client s s' live.Live := ⟨hs.1, fun x hlo hhi _ => hs.2 x hlo hhi⟩
  obtain ⟨hi', hsz⟩ := hi.client hc
  refine ⟨⟨F, hi'⟩, fun b k hb => ?_⟩
  obtain ⟨_, hlo, hhi, _⟩ := hi.live ⟨k, hb⟩
  exact KeepsBlock.holds ⟨hsz b ⟨k, hb⟩, fun x hx hx' => hs.2 x (by omega) (by omega)⟩
    (h.holds b k hb)

theorem Integrity.write (h : Integrity s live) {b i : Nat} {k : Block} {v : Byte}
    (hb : live b = some k) (hi : i < 8 * (sizeAt s b - 1)) :
    Integrity (s.setByte (purvaArena s (addr (b + 8 + i))) 0 v)
      (update live b (some ⟨k.req, update k.data i (some v)⟩)) := by
  obtain ⟨F, hinv⟩ := h.inv
  generalize hs : s.setByte (purvaArena s (addr (b + 8 + i))) 0 v = s'
  have hhost : s'.host = s.host := by rw [← hs]; rfl
  have hmem : ∀ o, s'.mem s.host.writable o =
      if offset s (b + 8 + i) ≤ o ∧ o < offset s (b + 8 + i) + 1 then v
      else s.mem s.host.writable o := by
    intro o
    have hset : s'.mem s.host.writable o =
        if o = offset s (b + 8 + i) + 0 then v else s.mem s.host.writable o := by
      rw [← hs]
      show (if s.host.writable = s.host.writable ∧ _ then _ else _) = _
      simp only [true_and]
      rfl
    rw [hset, Nat.add_zero]
    generalize offset s (b + 8 + i) = p
    clear hi
    by_cases ho : o = p
    · rw [if_pos ho, if_pos (by omega)]
    · rw [if_neg ho, if_neg (by omega)]
  obtain ⟨hinv', hsz, hkeep, hbyte⟩ := hinv.overwrite (a := b + 8 + i) (k := 1) (f := fun _ => v)
    ⟨k, hb⟩ (by omega) (by omega) hhost hmem
  refine ⟨⟨F, by rw [live_update_live hb]; exact hinv'⟩, fun c k' hck => ?_⟩
  by_cases hcb : c = b
  · subst hcb
    rw [update_self] at hck
    cases hck
    obtain ⟨hroom, hdata⟩ := h.holds c k hb
    refine ⟨by rw [hsz c ⟨k, hb⟩]; exact hroom, fun j w hw => ?_⟩
    rw [hsz c ⟨k, hb⟩]
    by_cases hji : j = i
    · subst hji
      simp only [update_self, Option.some.injEq] at hw
      exact ⟨hi, by rw [hbyte _ (by omega) (by omega), if_pos (by omega)]; exact hw⟩
    · simp only [update_of_ne hji] at hw
      obtain ⟨hj, hv⟩ := hdata j w hw
      exact ⟨hj, by rw [hbyte _ (by omega) (by omega), if_neg (by omega)]; exact hv⟩
  · rw [update_of_ne hcb] at hck
    exact (hkeep c ⟨k', hck⟩ hcb).holds (h.holds c k' hck)

theorem Integrity.free (h : Integrity s live) (hs : 4 * WALK ≤ steps) {b : Nat} {k : Block}
    (hb : live b = some k) (hm : purvaFree steps s (addr (b + 8)) = some s') :
    Integrity s' (update live b none) := by
  obtain ⟨F, hi⟩ := h.inv
  obtain ⟨s'', F', hm', _, _, hi', hk, _⟩ := purvaFree_spec hi ⟨k, hb⟩
    (show WALK ≤ steps by omega)
  rw [hm] at hm'
  cases hm'
  refine ⟨⟨F', by rw [live_update_none]; exact hi'⟩, fun c k' hck => ?_⟩
  by_cases hcb : c = b
  · rw [hcb, update_self] at hck
    cases hck
  · rw [update_of_ne hcb] at hck
    exact (hk c ⟨k', hck⟩ hcb).holds (h.holds c k' hck)

theorem addr_cancel {a b : Nat} (ha : a + 8 < 2 ^ 32) (hb : b + 8 < 2 ^ 32)
    (h : addr (a + 8) = addr (b + 8)) : a = b := by
  have := (addr_inj ha hb).mp h
  omega

theorem Integrity.malloc (h : Integrity s live) (hs : 4 * WALK ≤ steps) {n r : Word}
    (hn : n.toNat ≤ 0xfffffff0) (hm : purvaMalloc steps s n = some (s', r)) :
    (r = 0#32 → Integrity s' live) ∧ ∀ b, r ≠ 0#32 → r = addr (b + 8) → b + 8 < 2 ^ 32 →
      Integrity s' (update live b (some ⟨n.toNat, fun _ => none⟩)) := by
  obtain ⟨F, hi⟩ := h.inv
  rcases purvaMalloc_spec hi (.inl hi.base) hn hs with ⟨_, hm'⟩ | ⟨_, s'', c, hm', ha⟩
  · rw [hm] at hm'
    cases hm'
    exact ⟨fun _ => h, fun _ hr => absurd rfl hr⟩
  · rw [hm] at hm'
    cases hm'
    refine ⟨fun hr => absurd hr ha.addr_ne, fun b _ hb hlt => ?_⟩
    obtain ⟨F', hi'⟩ := ha.inv
    obtain ⟨_, hclo, hchi, hcpos⟩ := hi'.live (x := c) (.inr rfl)
    have hbrk := s'.host.heap_brk.isLt
    obtain rfl := addr_cancel (by omega) hlt hb
    refine ⟨⟨F', by rw [live_update_some]; exact hi'⟩, fun d k hd => ?_⟩
    by_cases hdc : d = c
    · rw [hdc, update_self] at hd
      cases hd
      refine ⟨?_, fun _ _ hv => nomatch hv⟩
      rw [hdc]
      have := ha.size
      unfold units at this
      simp only
      omega
    · rw [update_of_ne hdc] at hd
      exact (ha.keeps d ⟨k, hd⟩).holds (h.holds d k hd)

theorem Integrity.realloc (h : Integrity s live) (hs : 4 * WALK ≤ steps) {n r : Word} {b : Nat}
    {k : Block} (hb : live b = some k) (hn0 : n ≠ 0#32) (hn : n.toNat ≤ 0xfffffff0)
    (hm : purvaRealloc steps s (addr (b + 8)) n = some (s', r)) :
    (r = 0#32 → Integrity s' live) ∧ ∀ c, r ≠ 0#32 → r = addr (c + 8) → c + 8 < 2 ^ 32 →
      Integrity s' (update (update live b none) c (some ⟨n.toNat, k.data⟩)) := by
  obtain ⟨F, hi⟩ := h.inv
  obtain ⟨_, hblo, hbhi, hbpos⟩ := hi.live ⟨k, hb⟩
  have hbrk := s.host.heap_brk.isLt
  obtain ⟨hroom, hdata⟩ := h.holds b k hb
  rcases purvaRealloc_spec hi (.inl hi.base) ⟨k, hb⟩ hn0 hn hs
    with ⟨hfit, hm'⟩ | ⟨hlt, hm' | ⟨s'', d, hm', hmv⟩⟩
  · rw [hm] at hm'
    cases hm'
    refine ⟨fun hr => absurd hr (addr_ne_zero (by omega) (by omega)), fun c _ hc hlt => ?_⟩
    obtain rfl := addr_cancel (by omega) hlt hc
    rw [update_idem]
    refine ⟨⟨F, by rw [live_update_live hb]; exact hi⟩, fun d k' hd => ?_⟩
    by_cases hdb : d = b
    · rw [hdb, update_self] at hd
      cases hd
      rw [hdb]
      exact ⟨hfit, hdata⟩
    · rw [update_of_ne hdb] at hd
      exact h.holds d k' hd
  · rw [hm] at hm'
    cases hm'
    exact ⟨fun _ => h, fun _ hr => absurd rfl hr⟩
  · rw [hm] at hm'
    cases hm'
    obtain ⟨F', hi'⟩ := hmv.inv
    obtain ⟨_, hdlo, hdhi, hdpos⟩ := hi'.live (x := d) (.inr rfl)
    have hbrk' := s'.host.heap_brk.isLt
    refine ⟨fun hr => absurd hr (addr_ne_zero (by omega) (by omega)), fun c _ hc hlt => ?_⟩
    obtain rfl := addr_cancel (by omega) hlt hc
    refine ⟨⟨F', by rw [live_update_some, live_update_none]; exact hi'⟩, fun e k' he => ?_⟩
    by_cases hed : e = d
    · rw [hed, update_self] at he
      cases he
      rw [hed]
      refine ⟨hmv.room, fun i v hv => ?_⟩
      obtain ⟨hik, hv'⟩ := hdata i v hv
      have hroom' := hmv.room
      exact ⟨by omega, (hmv.payload i hik).trans hv'⟩
    · rw [update_of_ne hed] at he
      by_cases heb : e = b
      · rw [heb, update_self] at he
        cases he
      · rw [update_of_ne heb] at he
        exact (hmv.keeps e ⟨k', he⟩ heb).holds (h.holds e k' he)

theorem purvaRealloc_zero {b : Nat} (hpos : 0 < b) (hb : b + 8 < 2 ^ 32) :
    purvaRealloc steps s (addr (b + 8)) 0#32 =
      (purvaFree steps s (addr (b + 8))).map fun s => (s, 0#32) := by
  unfold purvaRealloc
  rw [if_neg (addr_ne_zero (by omega) hb), if_pos rfl]

/-- **The run lemma**: every state of a history has integrity. -/
theorem History.integrity {s₀ : State (PurvaRun U)} (h₀ : Integrity s₀ fun _ => none)
    (hs : 4 * WALK ≤ steps) (h : History steps s₀ s live) : Integrity s live := by
  induction h with
  | start => exact h₀
  | idle _ hu ih => exact ih.idle hu
  | write _ hb hi ih => exact ih.write hb hi
  | refused _ hn hm ih => exact (ih.malloc hs hn hm).1 rfl
  | malloc _ hn hm hr hb hlt ih => exact (ih.malloc hs hn hm).2 _ hr hb hlt
  | free _ hb hm ih => exact ih.free hs hb hm
  | @release s s' live b k _ hb hm ih =>
    obtain ⟨F, hi⟩ := ih.inv
    obtain ⟨_, hlo, hhi, hpos⟩ := hi.live ⟨k, hb⟩
    have hbrk := s.host.heap_brk.isLt
    rw [purvaRealloc_zero (by omega) (by omega), Option.map_eq_some_iff] at hm
    obtain ⟨s'', hf, he⟩ := hm
    cases he
    exact ih.free hs hb hf
  | unmoved _ hb hn0 hn hm ih => exact (ih.realloc hs hb hn0 hn hm).1 rfl
  | realloc _ hb hn0 hn hm hr hc hlt ih => exact (ih.realloc hs hb hn0 hn hm).2 _ hr hc hlt

end

/-! ## The heap that is begun -/

/-- `heap_init`, as the last lines of `purva_run_init` have it. -/
def heapInit (s : State (PurvaRun U)) (base top : Word) : State (PurvaRun U) :=
  let host := { s.host with
    basep := base, freep := base, heap_brk := base + PURVA_HUNIT, heap_top := top }
  purvaSetSize (purvaSetNext { s with host := host } base base) base 0#32

/-- The arena begins at an aligned address other than 0, has room for the sentinel below `top`, and
its addresses do not wrap in the buffer. -/
def HeapRoom (s : State (PurvaRun U)) (base top : Word) : Prop :=
  base.toNat % 8 = 0 ∧ 0 < base.toNat ∧ base.toNat + 8 ≤ top.toNat ∧
    offset s base.toNat + (top.toNat - base.toNat) ≤ 2 ^ 32

instance (s : State (PurvaRun U)) (base top : Word) : Decidable (HeapRoom s base top) :=
  inferInstanceAs (Decidable (_ ∧ _))

/-- Every state of every history from `s₀` has integrity. -/
def Sound (s₀ : State (PurvaRun U)) : Prop :=
  ∀ steps, 4 * WALK ≤ steps → ∀ s live, History steps s₀ s live → Integrity s live

theorem heapInit_integrity {s : State (PurvaRun U)} {base top : Word} (h : HeapRoom s base top) :
    Integrity (heapInit s base top) fun _ => none := by
  obtain ⟨hal, hpos, htop, hbuf⟩ := h
  have hbrk : (base + PURVA_HUNIT).toNat = base.toNat + 8 := by
    show (base + addr 8).toNat = _
    have := top.isLt
    rw [BitVec.toNat_add_of_lt (by rw [addr_toNat (by decide)]; omega), addr_toNat (by decide)]
  have hlive : Blocks.Live (fun _ => none) = fun _ => False := by
    funext b
    simp [Blocks.Live]
  refine ⟨⟨fun _ => False, ?_⟩, fun b k hb => nomatch hb⟩
  rw [hlive]
  refine heapAt_empty _ rfl hbrk hal hpos ?_ hbuf
  show base + PURVA_HUNIT ≤ top
  rw [BitVec.le_def, hbrk]
  exact htop

theorem heapInit_host (s : State (PurvaRun U)) (base top : Word) :
    (heapInit s base top).host = { s.host with
      basep := base, freep := base, heap_brk := base + PURVA_HUNIT, heap_top := top } := by
  show (purvaSt (purvaSt _ _ _) _ _).host = _
  rw [purvaSt_host, purvaSt_host]

/-- The histories are sound exactly when there is room. -/
theorem heapInit_sound (s : State (PurvaRun U)) (base top : Word) :
    Sound (heapInit s base top) ↔ HeapRoom s base top := by
  constructor
  · intro h
    obtain ⟨⟨F, hi⟩, _⟩ := h (4 * WALK) (Nat.le_refl _) _ _ .start
    have hhost := heapInit_host s base top
    have hoff : offset (heapInit s base top) base.toNat = offset s base.toNat := by
      unfold offset purvaArena
      rw [hhost]
    have hroom := hi.heap.tiled.room
    have htop := hi.top
    have hal := hi.aligned
    have hpos := hi.pos
    have hbuf := hi.buffer
    rw [hhost] at hroom htop hal hpos hbuf
    rw [hoff] at hbuf
    rw [BitVec.le_def] at htop
    exact ⟨hal, hpos, Nat.le_trans hroom htop, hbuf⟩
  · intro h steps hs s' live hist
    exact hist.integrity (heapInit_integrity h) hs

/-- The sizes of a run leave room for its heap. -/
def RunRoom (h : ImageHeader) (stack heap : Word) : Prop :=
  0 < (arenaBase h).toNat ∧ (arenaBase h).toNat + 8 ≤ (RISCV_HALF + heap).toNat ∧
    (arenaBase h - (RISCV_HALF - stack)).toNat +
      ((RISCV_HALF + heap).toNat - (arenaBase h).toNat) ≤ 2 ^ 32

instance (h : ImageHeader) (stack heap : Word) : Decidable (RunRoom h stack heap) :=
  inferInstanceAs (Decidable (_ ∧ _ ∧ _))

theorem arenaBase_aligned (h : ImageHeader) : (arenaBase h).toNat % 8 = 0 := by
  have h16 : dataEnd h % 16 = 0 := Nat.mul_mod_left _ _
  rw [arenaBase_toNat]
  omega

theorem initRun_sound (image : Nat → Byte) (h : ImageHeader) (stack heap : Word) (user : U) :
    Sound (initRun image h stack heap user).s ↔ RunRoom h stack heap := by
  have hinit := heapInit_sound (initState image h stack heap user) (arenaBase h)
    (RISCV_HALF + heap)
  refine hinit.trans ?_
  unfold HeapRoom RunRoom offset purvaArena
  rw [addr_of_toNat]
  exact and_iff_right (arenaBase_aligned h)

/-- `STACK_BYTES` of the SQLite host. -/
def STACK_BYTES : Word := 16#32 * 1024#32 * 1024#32

/-- `RAM_BYTES` of the SQLite host. -/
def RAM_BYTES : Word := 256#32 * 1024#32 * 1024#32

/-- `heap_base` of the SQLite host. -/
def heapBase (image_end : Word) : Word :=
  let heap_base := (image_end + 15#32) &&& ~~~15#32
  if heap_base < RISCV_HALF then RISCV_HALF else heap_base

/-- The heap of the SQLite host, after an image that ends at `image_end`: its arena `g_heap` comes
after the stack in the same buffer. -/
def sqliteHeap (s : State (PurvaRun U)) (image_end : Word) : State (PurvaRun U) :=
  heapInit { s with host := { s.host with stack_len := STACK_BYTES } } (heapBase image_end)
    (RISCV_HALF + RAM_BYTES)

theorem heapBase_spec (image_end : Word) :
    (heapBase image_end).toNat % 8 = 0 ∧ 2 ^ 31 ≤ (heapBase image_end).toNat := by
  unfold heapBase
  simp only
  split
  · decide
  · rename_i h
    rw [BitVec.lt_def, half_toNat] at h
    have h16 := and_not_15 (image_end + 15#32)
    omega

theorem sqliteHeap_sound (s : State (PurvaRun U)) (image_end : Word) :
    Sound (sqliteHeap s image_end) ↔ (heapBase image_end).toNat + 8 ≤ 0x90000000 := by
  obtain ⟨hal, hge⟩ := heapBase_spec image_end
  have hlt := (heapBase image_end).isLt
  have htop : (RISCV_HALF + RAM_BYTES).toNat = 0x90000000 := by decide
  have hoff : (heapBase image_end - (RISCV_HALF - STACK_BYTES)).toNat =
      (heapBase image_end).toNat - 0x7f000000 := by
    have : (RISCV_HALF - STACK_BYTES).toNat = 0x7f000000 := by decide
    rw [BitVec.toNat_sub_of_le (by rw [BitVec.le_def]; omega), this]
  refine (heapInit_sound _ _ _).trans ?_
  unfold HeapRoom offset purvaArena
  rw [addr_of_toNat, htop]
  show _ ∧ _ ∧ _ ∧ (heapBase image_end - (RISCV_HALF - STACK_BYTES)).toNat + _ ≤ _ ↔ _
  rw [hoff]
  omega

/-- **Heap integrity**: every history of a run's heap, and of the SQLite host's, keeps it exactly
when the sizes leave room for it. -/
theorem heap_integrity (image : Nat → Byte) (h : ImageHeader) (stack heap : Word) (user : U)
    (s : State (PurvaRun U)) (image_end : Word) :
    (Sound (initRun image h stack heap user).s ↔ RunRoom h stack heap) ∧
      (Sound (sqliteHeap s image_end) ↔ (heapBase image_end).toNat + 8 ≤ 0x90000000) :=
  ⟨initRun_sound image h stack heap user, sqliteHeap_sound s image_end⟩

/-- With one byte of RAM `heap_brk` begins above `heap_top`. -/
theorem heap_integrity_fails :
    ∃ r, purvaRunInit (fun _ => 0#8) 20 1#32 0#32 false () = some r ∧ ¬ Sound r.s := by
  refine ⟨_, rfl, fun h => ?_⟩
  rw [initRun_sound] at h
  revert h
  decide

/-! ## Every call comes back -/

/-- What a call of the allocator may be given: nothing or a live block to free or to move, and at
most `0xfffffff0` bytes to ask for. -/
def CallOk (live : Blocks) (s : State (PurvaRun U)) : Prop :=
  s.x 17#5 = 2#32 ∧ (s.x 10#5).toNat ≤ 0xfffffff0 ∨
  s.x 17#5 = 3#32 ∧ (s.x 10#5 = 0#32 ∨ ∃ b, live.Live b ∧ s.x 10#5 = addr (b + 8)) ∨
  s.x 17#5 = 4#32 ∧ (s.x 11#5).toNat ≤ 0xfffffff0 ∧
    (s.x 10#5 = 0#32 ∨ ∃ b, live.Live b ∧ s.x 10#5 = addr (b + 8))

section
variable {s : State (PurvaRun U)} {live : Blocks} {steps : Nat}

theorem Integrity.malloc_returns (h : Integrity s live) (hs : 4 * WALK ≤ steps) (n : Word) :
    ∃ o, purvaMalloc steps s n = some o := by
  obtain ⟨F, hi⟩ := h.inv
  obtain ⟨s', r, hm, _⟩ := purvaMalloc_answers hi hs n
  exact ⟨_, hm⟩

theorem Integrity.free_returns (h : Integrity s live) (hs : 4 * WALK ≤ steps) {b : Nat}
    (hb : live.Live b) : ∃ s', purvaFree steps s (addr (b + 8)) = some s' := by
  obtain ⟨F, hi⟩ := h.inv
  obtain ⟨s', _, hm, _⟩ := purvaFree_spec hi hb (show WALK ≤ steps by omega)
  exact ⟨s', hm⟩

theorem Integrity.realloc_returns (h : Integrity s live) (hs : 4 * WALK ≤ steps) {b : Nat}
    (hb : live.Live b) {n : Word} (hn : n.toNat ≤ 0xfffffff0) :
    ∃ o, purvaRealloc steps s (addr (b + 8)) n = some o := by
  obtain ⟨F, hi⟩ := h.inv
  by_cases hn0 : n = 0#32
  · obtain ⟨_, hlo, hhi, hpos⟩ := hi.live hb
    have hbrk := s.host.heap_brk.isLt
    obtain ⟨s', hf⟩ := h.free_returns hs hb
    rw [hn0, purvaRealloc_zero (by omega) (by omega), hf]
    exact ⟨_, rfl⟩
  · rcases purvaRealloc_spec hi (.inl hi.base) hb hn0 hn hs with ⟨_, hm⟩ | ⟨_, hm | ⟨_, _, hm, _⟩⟩
    · exact ⟨_, hm⟩
    · exact ⟨_, hm⟩
    · exact ⟨_, hm⟩

theorem Integrity.returns (h : Integrity s live) (hs : 4 * WALK ≤ steps) (cb : PurvaCallbacks U)
    (hc : CallOk live s) : (purvaOnEcall cb steps s).2 = false := by
  unfold purvaOnEcall
  rcases hc with ⟨hfn, _⟩ | ⟨hfn, ha⟩ | ⟨hfn, hn, ha⟩
  · rw [hfn]
    show (answer s (purvaMalloc steps s (s.x 10#5))).2 = false
    obtain ⟨o, hm⟩ := h.malloc_returns hs (s.x 10#5)
    rw [hm]
    rfl
  · rw [hfn]
    show (if s.x 10#5 = 0#32 then answer s (some (s, 0#32))
      else answer s ((purvaFree steps s (s.x 10#5)).map fun s => (s, 0#32))).2 = false
    rcases ha with h0 | ⟨b, hb, hab⟩
    · rw [if_pos h0]
      rfl
    · split
      · rfl
      · obtain ⟨s', hf⟩ := h.free_returns hs hb
        rw [hab, hf]
        rfl
  · rw [hfn]
    show (answer s (purvaRealloc steps s (s.x 10#5) (s.x 11#5))).2 = false
    rcases ha with h0 | ⟨b, hb, hab⟩
    · obtain ⟨o, hm⟩ := h.malloc_returns hs (s.x 11#5)
      unfold purvaRealloc
      rw [if_pos h0, hm]
      rfl
    · obtain ⟨o, hm⟩ := h.realloc_returns hs hb hn
      rw [hab, hm]
      rfl

end

/-- **Every hostcall of the allocator returns**, in a run that frees and moves live blocks only,
writes inside them and asks for at most `0xfffffff0` bytes. -/
theorem hostcalls_return (cb : PurvaCallbacks U) (image : Nat → Byte) {h : ImageHeader}
    {stack heap : Word} (user : U) (hroom : RunRoom h stack heap) {steps : Nat}
    (hs : 4 * WALK ≤ steps) {s : State (PurvaRun U)} {live : Blocks}
    (hist : History steps (initRun image h stack heap user).s s live) (hc : CallOk live s) :
    (purvaOnEcall cb steps s).2 = false :=
  ((initRun_sound image h stack heap user).mpr hroom steps hs s live hist).returns hs cb hc

/-- A first request for 100 bytes returns. -/
theorem hostcalls_return_malloc :
    (purvaOnEcall ⟨none, none⟩ (4 * WALK)
      ((freshHeap.setX 17#5 2#32).setX 10#5 100#32)).2 = false :=
  have hroom : RunRoom (imageHeader fun _ => 0#8) 0x100000#32 0x1000000#32 := by decide
  have hist : History (4 * WALK) freshHeap ((freshHeap.setX 17#5 2#32).setX 10#5 100#32)
      fun _ => none :=
    (History.start.idle (sameHeap_setX _ _ _)).idle (sameHeap_setX _ _ _)
  hostcalls_return ⟨none, none⟩ _ () hroom (Nat.le_refl _) hist (.inl ⟨rfl, by decide⟩)

/-- The walk of `free` goes round a list of one node, which is freed. -/
theorem freeWalk_self {s : State (PurvaRun U)} {p : Word} (hp : purvaNext s p = p) :
    ∀ n, freeWalk s p n p = none
  | 0 => rfl
  | n + 1 => by
    unfold freeWalk
    rw [hp, if_neg (fun h => BitVec.lt_irrefl p h.1),
      if_neg (fun h => h.2.elim (BitVec.lt_irrefl p) (BitVec.lt_irrefl p))]
    exact freeWalk_self hp n

/-- The guest frees the sentinel of an empty heap. -/
def freesSentinel : State (PurvaRun Unit) :=
  (freshHeap.setX 17#5 3#32).setX 10#5 (freshHeap.host.basep + PURVA_HUNIT)

/-- The walk has no end: however many steps it is given, the call does not return. -/
theorem hostcalls_hang :
    ¬ ∃ steps, (purvaOnEcall ⟨none, none⟩ steps freesSentinel).2 = false := by
  rintro ⟨steps, h⟩
  have hnext : purvaNext freesSentinel freesSentinel.host.basep = freesSentinel.host.basep := by
    decide
  have hfree : purvaFree steps freesSentinel (freesSentinel.x 10#5) = none := by
    unfold purvaFree
    simp only
    rw [show freesSentinel.x 10#5 - PURVA_HUNIT = freesSentinel.host.basep by decide]
    rw [show freesSentinel.host.freep = freesSentinel.host.basep from rfl, freeWalk_self hnext]
    rfl
  have hcall : purvaOnEcall ⟨none, none⟩ steps freesSentinel =
      answer freesSentinel ((purvaFree steps freesSentinel (freesSentinel.x 10#5)).map
        fun s => (s, 0#32)) := rfl
  rw [hcall, hfree] at h
  cases h

end Purv.Purva

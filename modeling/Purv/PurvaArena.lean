import Purv.PurvaHistory

/-!
# The arena of a run

* `ArenaIn` — the arena begins and ends in order, inside the writable buffer;
* `Grows` — what every call of the allocator does to it, whatever is in the headers;
* `Reached`, `Reached.arenaIn` — so every state of a run has it;
* `initRun_arenaIn` — as it has at first.
-/

namespace Purv.Purva

open Bits Transcode FreeList

variable {U : Type}

section
variable {s : State (PurvaRun U)} {a : Word}

/-! ## The arena -/

/-- Offsets in the buffer do not wrap. -/
theorem arena_add (s : State (PurvaRun U)) {a w : Word}
    (h : (purvaArena s a).2 + w.toNat < 2 ^ 32) :
    (purvaArena s (a + w)).2 = (purvaArena s a).2 + w.toNat := by
  unfold purvaArena at h ⊢
  simp only at h ⊢
  generalize RISCV_HALF - s.host.stack_len = B at h ⊢
  have hsub : a + w - B = (a - B) + w := by bv_omega
  rw [hsub, BitVec.toNat_add_of_lt h]

/-- The buffer is the same. -/
def SameBuffer (s s' : State (PurvaRun U)) : Prop :=
  s'.writable = s.writable ∧ s'.host.stack_len = s.host.stack_len

theorem purvaSt_same (s : State (PurvaRun U)) (a v : Word) : SameBuffer s (purvaSt s a v) := by
  rw [purvaSt_eq]
  exact ⟨rfl, rfl⟩

/-- What the host's side of a run keeps: the arena begins and ends in order, inside the buffer. -/
structure ArenaIn (s : State (PurvaRun U)) : Prop where
  aligned : s.host.heap_brk.toNat % 8 = 0
  base_le : s.host.basep ≤ s.host.heap_brk
  brk_le : s.host.heap_brk ≤ s.host.heap_top
  room : (purvaArena s s.host.basep).2 + (s.host.heap_top - s.host.basep).toNat ≤
    s.writable.len.toNat

/-- Offsets in the arena are distances from its base. -/
theorem ArenaIn.offset_eq (ha : ArenaIn s) (hlo : s.host.basep.toNat ≤ a.toNat)
    (hhi : a.toNat ≤ s.host.heap_top.toNat) :
    (purvaArena s a).2 = (purvaArena s s.host.basep).2 + (a.toNat - s.host.basep.toNat) := by
  have hroom := ha.room
  rw [BitVec.toNat_sub_of_le (BitVec.le_trans ha.base_le ha.brk_le)] at hroom
  have hsub := BitVec.toNat_sub_of_le (BitVec.le_def.mpr hlo)
  have hadd := arena_add s (a := s.host.basep) (w := a - s.host.basep) (by omega)
  rwa [show s.host.basep + (a - s.host.basep) = a by bv_omega, hsub] at hadd

/-- An address of the arena, up to its end. -/
theorem ArenaIn.offset (ha : ArenaIn s) (hlo : s.host.basep ≤ a) (hhi : a ≤ s.host.heap_top) :
    (purvaArena s a).2 + (s.host.heap_top.toNat - a.toNat) ≤ s.writable.len.toNat := by
  have hroom := ha.room
  rw [BitVec.toNat_sub_of_le (BitVec.le_trans hlo hhi)] at hroom
  have hlo' := BitVec.le_def.mp hlo
  have hhi' := BitVec.le_def.mp hhi
  have hoff := ha.offset_eq hlo' hhi'
  omega

/-- The arena after a step: in the same buffer, and grown by whole units at most. -/
structure Grows (s s' : State (PurvaRun U)) : Prop where
  buffer : SameBuffer s s'
  basep : s'.host.basep = s.host.basep
  top : s'.host.heap_top = s.host.heap_top
  brk : s'.host.heap_brk.toNat % 8 = s.host.heap_brk.toNat % 8
  le : s.host.heap_brk ≤ s'.host.heap_brk
  le_top : s.host.heap_brk ≤ s.host.heap_top → s'.host.heap_brk ≤ s'.host.heap_top

theorem Grows.refl (s : State (PurvaRun U)) : Grows s s :=
  ⟨⟨rfl, rfl⟩, rfl, rfl, rfl, BitVec.le_refl _, id⟩

theorem Grows.trans {s s' s'' : State (PurvaRun U)} (h : Grows s s') (h' : Grows s' s'') :
    Grows s s'' where
  buffer := ⟨h'.buffer.1.trans h.buffer.1, h'.buffer.2.trans h.buffer.2⟩
  basep := h'.basep.trans h.basep
  top := h'.top.trans h.top
  brk := h'.brk.trans h.brk
  le := BitVec.le_trans h.le h'.le
  le_top := fun hle => h'.le_top (h.le_top hle)

theorem ArenaIn.grows (ha : ArenaIn s) {s' : State (PurvaRun U)} (h : Grows s s') : ArenaIn s' where
  aligned := h.brk.trans ha.aligned
  base_le := by
    rw [h.basep]
    exact BitVec.le_trans ha.base_le h.le
  brk_le := h.le_top ha.brk_le
  room := by
    have hroom := ha.room
    unfold purvaArena at hroom ⊢
    rw [h.basep, h.top, h.buffer.1, h.buffer.2]
    exact hroom

/-- A step that leaves the host's side as it was, up to the roving pointer. -/
theorem Grows.of_host {s' : State (PurvaRun U)} (hw : s'.writable = s.writable)
    (hh : s'.host = { s.host with freep := s'.host.freep }) : Grows s s' := by
  refine ⟨⟨hw, ?_⟩, ?_, ?_, ?_, ?_, ?_⟩
  · rw [hh]
  · rw [hh]
  · rw [hh]
  · rw [hh]
  · rw [hh]
    exact BitVec.le_refl _
  · rw [hh]
    exact id

theorem purvaSt_grows (s : State (PurvaRun U)) (a v : Word) : Grows s (purvaSt s a v) :=
  .of_host (purvaSt_same s a v).1 (by rw [purvaSt_host])

theorem setFreep_grows (s : State (PurvaRun U)) (p : Word) : Grows s (setFreep s p) :=
  .of_host rfl rfl

theorem freeNext_grows (s : State (PurvaRun U)) (p bp : Word) : Grows s (freeNext s p bp) := by
  unfold freeNext
  split
  · exact (purvaSt_grows s _ _).trans (purvaSt_grows _ _ _)
  · exact purvaSt_grows s _ _

theorem freePrev_grows (s : State (PurvaRun U)) (p bp : Word) : Grows s (freePrev s p bp) := by
  unfold freePrev
  split
  · exact (purvaSt_grows s _ _).trans (purvaSt_grows _ _ _)
  · exact purvaSt_grows s _ _

theorem purvaFree_grows {steps : Nat} {s' : State (PurvaRun U)} {ap : Word}
    (h : purvaFree steps s ap = some s') : Grows s s' := by
  rw [purvaFree_eq] at h
  obtain ⟨p, _, rfl⟩ := Option.map_eq_some_iff.mp h
  exact ((freeNext_grows s p _).trans (freePrev_grows _ p _)).trans (setFreep_grows _ p)

theorem purvaMorecore_grows {steps : Nat} {nu : Word} {o : State (PurvaRun U) × Word}
    (h : purvaMorecore steps s nu = some o) : Grows s o.1 := by
  unfold purvaMorecore at h
  simp only at h
  generalize (if nu < 4096#32 then 4096#32 else nu) = nu' at h
  split at h
  · cases h
    exact .refl s
  · rename_i htop
    obtain ⟨s', hs', rfl⟩ := Option.map_eq_some_iff.mp h
    have hsum : (s.host.heap_brk + nu' * PURVA_HUNIT).toNat =
        s.host.heap_brk.toNat + (nu' * PURVA_HUNIT).toNat :=
      BitVec.toNat_add_of_lt (by omega)
    have hunits : (nu' * PURVA_HUNIT).toNat % 8 = 0 := by
      rw [BitVec.toNat_mul]
      show nu'.toNat * 8 % 2 ^ 32 % 8 = 0
      omega
    have hbrk : Grows s (setBrk s (s.host.heap_brk + nu' * PURVA_HUNIT)) := by
      refine ⟨⟨rfl, rfl⟩, rfl, rfl, ?_, ?_, fun _ => ?_⟩
      · show (s.host.heap_brk + nu' * PURVA_HUNIT).toNat % 8 = _
        omega
      · show s.host.heap_brk ≤ s.host.heap_brk + nu' * PURVA_HUNIT
        rw [BitVec.le_def]
        omega
      · show s.host.heap_brk + nu' * PURVA_HUNIT ≤ s.host.heap_top
        rw [BitVec.le_def]
        omega
    exact hbrk.trans ((purvaSt_grows _ _ _).trans (purvaFree_grows hs'))

theorem taken_grows (s : State (PurvaRun U)) (prevp p nunits : Word) :
    Grows s (taken s prevp p nunits).1 := by
  unfold taken
  split
  · exact (purvaSt_grows s _ _).trans (setFreep_grows _ _)
  · exact (purvaSt_grows s _ _).trans ((purvaSt_grows _ _ _).trans (setFreep_grows _ _))

theorem mallocWalk_grows {steps : Nat} {nunits : Word} {k : Nat} {prevp p : Word}
    {o : State (PurvaRun U) × Word} (h : mallocWalk steps nunits k s prevp p = some o) :
    Grows s o.1 := by
  induction k generalizing s prevp p with
  | zero => cases h
  | succ k ih =>
    rw [mallocWalk_succ] at h
    split at h
    · cases h
      exact taken_grows s prevp p nunits
    · split at h
      · unfold grown at h
        cases hm : purvaMorecore steps s nunits with
        | none =>
          rw [hm] at h
          cases h
        | some o' =>
          have hgrow := purvaMorecore_grows hm
          rw [hm] at h
          simp only at h
          split at h
          · cases h
            exact hgrow
          · exact hgrow.trans (ih h)
      · exact ih h

theorem purvaMalloc_grows {steps : Nat} {nbytes : Word} {o : State (PurvaRun U) × Word}
    (h : purvaMalloc steps s nbytes = some o) : Grows s o.1 := by
  unfold purvaMalloc at h
  split at h
  · cases h
    exact .refl s
  · exact mallocWalk_grows h

theorem purvaRealloc_grows {steps : Nat} {ap n : Word} {o : State (PurvaRun U) × Word}
    (h : purvaRealloc steps s ap n = some o) : Grows s o.1 := by
  unfold purvaRealloc at h
  split at h
  · exact purvaMalloc_grows h
  split at h
  · obtain ⟨s', hs', rfl⟩ := Option.map_eq_some_iff.mp h
    exact purvaFree_grows hs'
  simp only at h
  split at h
  · cases h
    exact .refl s
  cases hm : purvaMalloc steps s n with
  | none =>
    rw [hm] at h
    cases h
  | some o' =>
    have hgrow := purvaMalloc_grows hm
    rw [hm] at h
    simp only at h
    split at h
    · cases h
      exact hgrow
    · obtain ⟨s', hs', rfl⟩ := Option.map_eq_some_iff.mp h
      have hmove : Grows o'.1 (memmove o'.1 (purvaArena o'.1 o'.2) (purvaArena o'.1 ap)
          (if (purvaSize s (ap - PURVA_HUNIT) - 1#32) * PURVA_HUNIT < n then
            (purvaSize s (ap - PURVA_HUNIT) - 1#32) * PURVA_HUNIT else n).toNat) :=
        .of_host rfl rfl
      exact hgrow.trans (hmove.trans (purvaFree_grows hs'))

/-! ## The states of a run -/

/-- The allocator's words of the host's side, and its buffer, are as they were. -/
def SameArena (s s' : State (PurvaRun U)) : Prop :=
  s'.writable = s.writable ∧ s'.host.stack_len = s.host.stack_len ∧
    s'.host.heap_brk = s.host.heap_brk ∧ s'.host.heap_top = s.host.heap_top ∧
    s'.host.freep = s.host.freep ∧ s'.host.basep = s.host.basep

/-- What a run from `s₀` reaches: the guest and the other hostcalls do as they like to registers and
memory, headers included, and the allocator is called with any arguments. -/
inductive Reached (s₀ : State (PurvaRun U)) : State (PurvaRun U) → Prop where
  | start : Reached s₀ s₀
  | other {s s'} (h : Reached s₀ s) (hs : SameArena s s') : Reached s₀ s'
  | malloc {s s' steps n r} (h : Reached s₀ s) (hm : purvaMalloc steps s n = some (s', r)) :
      Reached s₀ s'
  | free {s s' steps ap} (h : Reached s₀ s) (hm : purvaFree steps s ap = some s') : Reached s₀ s'
  | realloc {s s' steps ap n r} (h : Reached s₀ s)
      (hm : purvaRealloc steps s ap n = some (s', r)) : Reached s₀ s'

theorem SameArena.grows {s s' : State (PurvaRun U)} (h : SameArena s s') : Grows s s' := by
  obtain ⟨hw, hstack, hbrk, htop, _, hbase⟩ := h
  refine ⟨⟨hw, hstack⟩, hbase, htop, ?_, ?_, ?_⟩
  · rw [hbrk]
  · rw [hbrk]
    exact BitVec.le_refl _
  · rw [hbrk, htop]
    exact id

theorem Reached.arenaIn {s₀ : State (PurvaRun U)} (h : Reached s₀ s) (ha : ArenaIn s₀) :
    ArenaIn s := by
  induction h with
  | start => exact ha
  | other _ hs ih => exact ih.grows hs.grows
  | malloc _ hm ih => exact ih.grows (purvaMalloc_grows hm)
  | free _ hm ih => exact ih.grows (purvaFree_grows hm)
  | realloc _ hm ih => exact ih.grows (purvaRealloc_grows hm)

/-- Ordinary sizes: the arena has room for its header, below `RISCV_HALF + heap`, and the whole
buffer is less than 4 GiB. -/
def OrdinarySizes (h : ImageHeader) (stack heap : Word) : Prop :=
  dataEnd h + 8 ≤ heap.toNat ∧ heap.toNat < 2 ^ 31 ∧ stack.toNat + heap.toNat < 2 ^ 32

instance (h : ImageHeader) (stack heap : Word) : Decidable (OrdinarySizes h stack heap) :=
  inferInstanceAs (Decidable (_ ∧ _ ∧ _))

/-- **`purva_run_init` sets up an arena in the buffer.** -/
theorem initRun_arenaIn (image : Nat → Byte) {h : ImageHeader} {stack heap : Word} (user : U)
    (hroom : OrdinarySizes h stack heap) : ArenaIn (initRun image h stack heap user).s := by
  obtain ⟨hlo, hhi, hbuf⟩ := hroom
  have hbase : (arenaBase h).toNat = 2 ^ 31 + dataEnd h := by
    rw [arenaBase_toNat]
    omega
  have h16 : dataEnd h % 16 = 0 := Nat.mul_mod_left _ _
  have hbrk : (arenaBase h + PURVA_HUNIT).toNat = 2 ^ 31 + dataEnd h + 8 := by
    show (arenaBase h + addr 8).toNat = _
    rw [BitVec.toNat_add_of_lt (by rw [hbase, addr_toNat (by decide)]; omega), hbase,
      addr_toNat (by decide)]
  have htop : (RISCV_HALF + heap).toNat = 2 ^ 31 + heap.toNat := by
    rw [BitVec.toNat_add, half_toNat]
    omega
  have hlen : (stack + heap).toNat = stack.toNat + heap.toNat := BitVec.toNat_add_of_lt hbuf
  have hstart : ArenaIn (initState image h stack heap user) := by
    constructor
    · show (arenaBase h + PURVA_HUNIT).toNat % 8 = 0
      omega
    · show arenaBase h ≤ arenaBase h + PURVA_HUNIT
      rw [BitVec.le_def, hbrk, hbase]
      omega
    · show arenaBase h + PURVA_HUNIT ≤ RISCV_HALF + heap
      rw [BitVec.le_def, hbrk, htop]
      omega
    · have hend : (RISCV_HALF + heap - arenaBase h).toNat = heap.toNat - dataEnd h := by
        rw [BitVec.toNat_sub_of_le (by rw [BitVec.le_def, htop, hbase]; omega), htop, hbase]
        omega
      show (arenaBase h - (RISCV_HALF - stack)).toNat +
        (RISCV_HALF + heap - arenaBase h).toNat ≤ (stack + heap).toNat
      rw [hend, arenaBase_offset, hlen]
      omega
  exact hstart.grows ((purvaSt_grows _ _ _).trans (purvaSt_grows _ _ _))

end

end Purv.Purva

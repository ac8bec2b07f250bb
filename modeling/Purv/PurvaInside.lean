import Purv.PurvaTidy

/-!
# The allocator's hostcalls stay in the buffer

* `purvaFreeIn_safe`, `purvaMallocIn_safe`, `purvaReallocIn_safe` — a free list in the buffer is
  enough for each function;
* `purvaFreeIn_inside`, `purvaMallocIn_inside`, `purvaReallocIn_inside` — exactly which words have
  to be there;
* `Served`, `mallocGroup_inside` — a call stays in the buffer exactly if it has what it needs;
  `mallocGroup_outside` is one that does not.
-/

namespace Purv.Purva

open Bits Transcode FreeList Guarded

variable {U : Type}

/-- The nodes that a search comes to from `p`: it follows the links up to a node where it stops. -/
inductive Visited (s : State (PurvaRun U)) (stops : Word → Prop) (p : Word) : Word → Prop where
  | start : Visited s stops p p
  | next {q} (h : Visited s stops p q) (go : ¬ stops q) : Visited s stops p (purvaNext s q)

/-- Where the search of `purva__free` for the place of `bp` stops. -/
def FreeStops (s : State (PurvaRun U)) (bp p : Word) : Prop :=
  bp > p ∧ bp < purvaNext s p ∨ p ≥ purvaNext s p ∧ (bp > p ∨ bp < purvaNext s p)

instance (s : State (PurvaRun U)) (bp p : Word) : Decidable (FreeStops s bp p) :=
  inferInstanceAs (Decidable (_ ∨ _))

/-- The words that `purva__free` reads and writes once it has found the place of `bp` after `p`: the
header of the block, the size of the node, and the header of the one after it where they join. -/
structure PlaceIn (s : State (PurvaRun U)) (p bp : Word) : Prop where
  size : InBuffer s (bp + 4#32) 4
  link : InBuffer s bp 4
  node : InBuffer s (p + 4#32) 4
  join : bp + purvaSize s bp * PURVA_HUNIT = purvaNext s p →
    InBuffer s (purvaNext s p + 4#32) 4 ∧
      InBuffer s (purvaNext (purvaSetSize s bp (purvaSize s bp + purvaSize s (purvaNext s p))) p) 4

/-- The words that `purva__free` of `ap` reads and writes, all in the buffer. -/
structure FreeIn (s : State (PurvaRun U)) (ap : Word) : Prop where
  links : ∀ q, Visited s (FreeStops s (ap - PURVA_HUNIT)) s.host.freep q → InBuffer s q 4
  place : ∀ q, Visited s (FreeStops s (ap - PURVA_HUNIT)) s.host.freep q →
    FreeStops s (ap - PURVA_HUNIT) q → PlaceIn s q (ap - PURVA_HUNIT)

/-- Where the search of `purva__malloc` stops: at a block that is large enough, and at `freep`. -/
def MallocStops (s : State (PurvaRun U)) (nunits p : Word) : Prop :=
  purvaSize s p ≥ nunits ∨ p = s.host.freep

/-- What `purva__malloc` writes in the block that it takes: where the block is as large as asked, its
link goes to the node before; else its tail gets a header. -/
def TakenIn (s : State (PurvaRun U)) (nunits p : Word) : Prop :=
  if purvaSize s p = nunits then InBuffer s p 4
  else InBuffer s (p + (purvaSize s p - nunits) * PURVA_HUNIT + 4#32) 4

/-- The words that the search of `purva__malloc` for `nunits` units reads and writes, all in the
buffer. -/
structure SearchIn (s : State (PurvaRun U)) (nunits : Word) : Prop where
  freep : InBuffer s s.host.freep 4
  size : ∀ q, Visited s (MallocStops s nunits) (purvaNext s s.host.freep) q →
    InBuffer s (q + 4#32) 4
  link : ∀ q, Visited s (MallocStops s nunits) (purvaNext s s.host.freep) q →
    ¬ MallocStops s nunits q → InBuffer s q 4
  taken : ∀ q, Visited s (MallocStops s nunits) (purvaNext s s.host.freep) q →
    purvaSize s q ≥ nunits → TakenIn s nunits q

/-- The units that `purva__malloc` asks for. -/
def nunits (nbytes : Word) : Word := (nbytes + PURVA_HUNIT - 1#32) / PURVA_HUNIT + 1#32

/-- The search comes back to `freep`, which is too small, and there is room for more. -/
def NeedsMore (s : State (PurvaRun U)) (nunits : Word) : Prop :=
  Visited s (MallocStops s nunits) (purvaNext s s.host.freep) s.host.freep ∧
    purvaSize s s.host.freep < nunits ∧
    s.host.heap_brk.toNat + ((if nunits < 4096#32 then 4096#32 else nunits) * PURVA_HUNIT).toNat ≤
      s.host.heap_top.toNat

/-- The heap as `purva__morecore` has raised it, with the size of the block that it then frees. -/
def raised (s : State (PurvaRun U)) (nunits : Word) : State (PurvaRun U) :=
  let nu := if nunits < 4096#32 then 4096#32 else nunits
  purvaSetSize (setBrk s (s.host.heap_brk + nu * PURVA_HUNIT)) s.host.heap_brk nu

/-- The words that `purva__morecore` reads and writes: the size of the new block, and what
`purva__free` needs for it. -/
structure MoreIn (s : State (PurvaRun U)) (nunits : Word) : Prop where
  size : InBuffer s (s.host.heap_brk + 4#32) 4
  free : FreeIn (raised s nunits) (s.host.heap_brk + PURVA_HUNIT)

/-- What a search makes of the heap by growing it, any number of times. -/
inductive Grown (nunits : Word) (s : State (PurvaRun U)) : State (PurvaRun U) → Prop where
  | start : Grown nunits s s
  | more {s' s'' p steps} (h : Grown nunits s s') (needs : NeedsMore s' nunits)
      (grow : purvaMorecoreIn steps s' nunits = .ok (s'', p)) (hp : p ≠ 0#32) : Grown nunits s s''

/-- The words that `purva__malloc` of `nunits` units reads and writes: those of its search, before
and after each time that it grows the heap, and those of growing it. -/
structure MallocIn (s : State (PurvaRun U)) (nunits : Word) : Prop where
  search : ∀ s', Grown nunits s s' → SearchIn s' nunits
  more : ∀ s', Grown nunits s s' → NeedsMore s' nunits → MoreIn s' nunits

section
variable {s : State (PurvaRun U)} {p q a v : Word} {n : Nat} {N : Word → Prop}

/-! ## One access -/

theorem BlockIn.nextIn (h : BlockIn s p n) : Safe .outside (purvaNextIn s p) (· = purvaNext s p) :=
  .check h.next_in rfl

theorem purvaSizeIn_safe (h : InBuffer s (p + 4#32) 4) :
    Safe .outside (purvaSizeIn s p) (· = purvaSize s p) := .check h rfl

theorem BlockIn.sizeIn (h : BlockIn s p n) : Safe .outside (purvaSizeIn s p) (· = purvaSize s p) :=
  purvaSizeIn_safe h.size_in

theorem BlockIn.setNextIn (h : BlockIn s p n) (v : Word) :
    Safe .outside (purvaSetNextIn s p v) (· = purvaSetNext s p v) := .check h.next_in rfl

theorem BlockIn.setSizeIn (h : BlockIn s p n) (v : Word) :
    Safe .outside (purvaSetSizeIn s p v) (· = purvaSetSize s p v) := .check h.size_in rfl

theorem memmoveIn_safe (ha : InBuffer s a n) (hp : InBuffer s p n) :
    Safe .outside (memmoveIn s a p n) (· = memmove s (purvaArena s a) (purvaArena s p) n) :=
  .check ⟨ha, hp⟩ rfl

/-! ## `purva__free` -/

theorem freeWalkIn_safe (hl : ListIn s N) (bp : Word) (k : Nat) {p : Word} (hp : N p) :
    Safe .outside (freeWalkIn s bp k p) N := by
  induction k generalizing p with
  | zero => exact .other (by decide) N
  | succ k ih =>
    refine (hl.fits p hp).nextIn.bind ?_
    rintro _ rfl
    split
    · exact .ok hp
    · split
      · exact .ok hp
      · exact ih (hl.next p hp)

theorem freeNextIn_safe (hl : ListIn s N) (hp : N p) {bp : Word}
    (hb : BlockIn s bp (purvaSize s bp).toNat) :
    Safe .outside (freeNextIn s p bp) fun s' => ListIn s' fun q => N q ∨ q = bp := by
  refine hb.sizeIn.bind ?_
  rintro _ rfl
  refine (hl.fits p hp).nextIn.bind ?_
  rintro _ rfl
  have hq := hl.fits _ (hl.next p hp)
  split
  · rename_i hjoin
    have hsum := hb.join hq hjoin
    refine hq.sizeIn.bind ?_
    rintro _ rfl
    refine (hb.setSizeIn _).bind ?_
    rintro _ rfl
    have hl' := hl.setSize hsum
    refine (hl'.fits p hp).nextIn.bind ?_
    rintro _ rfl
    have hq' := hl'.next p hp
    refine (hl'.fits _ hq').nextIn.bind ?_
    rintro _ rfl
    have hb' := hsum.sized
    refine (hb'.setNextIn _).imp ?_
    rintro _ rfl
    exact hl'.setNext hb' (.inl (hl'.next _ hq'))
  · refine (hb.setNextIn _).imp ?_
    rintro _ rfl
    exact hl.setNext hb (.inl (hl.next p hp))

theorem freePrevIn_safe (hl : ListIn s N) (hp : N p) {bp : Word} (hb : N bp) :
    Safe .outside (freePrevIn s p bp) fun s' => ListIn s' N := by
  have hpf := hl.fits p hp
  refine hpf.sizeIn.bind ?_
  rintro _ rfl
  split
  · rename_i hjoin
    have hsum := hpf.join (hl.fits bp hb) hjoin
    refine (hl.fits bp hb).sizeIn.bind ?_
    rintro _ rfl
    refine (hpf.setSizeIn _).bind ?_
    rintro _ rfl
    have hl' := hl.setSize hsum
    refine (hl'.fits bp hb).nextIn.bind ?_
    rintro _ rfl
    refine ((hl'.fits p hp).setNextIn _).imp ?_
    rintro _ rfl
    exact (hl'.setNext (hl'.fits p hp) (.inl (hl'.next bp hb))).again hp
  · refine (hpf.setNextIn _).imp ?_
    rintro _ rfl
    exact (hl.setNext hpf (.inl hb)).again hp

/-- **Freeing a block that lies in the buffer** stays in the buffer, and the list still does. -/
theorem purvaFreeIn_safe (hl : ListIn s N) (ap : Word)
    (hb : BlockIn s (ap - PURVA_HUNIT) (purvaSize s (ap - PURVA_HUNIT)).toNat) (steps : Nat) :
    Safe .outside (purvaFreeIn steps s ap) fun s' => ∃ N', ListIn s' N' := by
  refine (freeWalkIn_safe hl _ steps hl.freep).bind fun p hp => ?_
  refine (freeNextIn_safe hl hp hb).bind fun s₁ hl₁ => ?_
  refine (freePrevIn_safe hl₁ (.inl hp) (.inr rfl)).bind fun s₂ hl₂ => ?_
  exact .ok ⟨_, hl₂.setFreep (.inl hp)⟩

/-! ## `purva__malloc` -/

/-- Growing stays in the buffer; where it succeeds the list has the new block, and the answer. -/
theorem purvaMorecoreIn_safe (ha : ArenaIn s) (hl : ListIn s N) (steps : Nat) {nu : Word}
    (hnu : nu.toNat < 2 ^ 29) :
    Safe .outside (purvaMorecoreIn steps s nu) fun o =>
      o.2 = 0#32 ∨ ∃ N', ListIn o.1 N' ∧ o.2 = o.1.host.freep := by
  unfold purvaMorecoreIn
  simp only
  have hmore := moreUnits_lt hnu
  generalize (if nu < 4096#32 then 4096#32 else nu) = nu at hmore ⊢
  have hbytes := units_toNat (w := nu) (by omega)
  rw [hbytes]
  split
  · exact .ok (.inl rfl)
  · have hb := ha.more nu (by omega) hmore.2
    have hb₁ : BlockIn (setBrk s (s.host.heap_brk + nu * PURVA_HUNIT)) s.host.heap_brk nu.toNat :=
      hb.same ⟨rfl, rfl⟩
    refine (hb₁.setSizeIn nu).bind ?_
    rintro _ rfl
    have hl₁ := (hl.setBrk (s.host.heap_brk + nu * PURVA_HUNIT)).setSize hb₁
    have hbp : s.host.heap_brk + PURVA_HUNIT - PURVA_HUNIT = s.host.heap_brk :=
      BitVec.add_sub_cancel _ _
    refine (purvaFreeIn_safe hl₁ (s.host.heap_brk + PURVA_HUNIT) ?_ steps).bind ?_
    · rw [hbp]
      exact hb₁.sized
    · rintro s' ⟨N', hl'⟩
      exact .ok (.inr ⟨N', hl', rfl⟩)

/-- Taking a block that is large enough stays in the buffer. -/
theorem takenIn_safe (hl : ListIn s N) {prevp nunits : Word} (hprev : N prevp) (hp : N p)
    (hn : 0 < nunits.toNat) (hfit : nunits ≤ purvaSize s p) :
    Safe .outside (takenIn s prevp p (purvaSize s p) nunits) fun _ => True := by
  have hpf := hl.fits p hp
  unfold takenIn
  split
  · refine hpf.nextIn.bind ?_
    rintro _ rfl
    refine ((hl.fits prevp hprev).setNextIn _).bind fun s' _ => ?_
    exact .ok trivial
  · have hle := BitVec.le_def.mp hfit
    have hrest := hpf.shrink (k := (purvaSize s p - nunits).toNat) (by
      rw [BitVec.toNat_sub_of_le hfit]
      omega)
    refine (hrest.setSizeIn _).bind ?_
    rintro _ rfl
    refine hrest.sized.sizeIn.bind ?_
    rintro _ rfl
    rw [purvaSize_setSize]
    have htail := (hpf.tail hn hfit).same (purvaSt_same s (p + 4#32) (purvaSize s p - nunits))
    refine (htail.setSizeIn nunits).bind fun s' _ => ?_
    exact .ok trivial

theorem mallocWalkIn_safe (steps : Nat) {nunits : Word} (hn : 0 < nunits.toNat)
    (hn' : nunits.toNat < 2 ^ 29) (k : Nat) {prevp : Word} (ha : ArenaIn s) (hl : ListIn s N)
    (hprev : N prevp) (hp : N p) :
    Safe .outside (mallocWalkIn steps nunits k s prevp p) fun _ => True := by
  induction k generalizing s N prevp p with
  | zero => exact .other (by decide) _
  | succ k ih =>
    refine (hl.fits p hp).sizeIn.bind ?_
    rintro _ rfl
    split
    · rename_i hfit
      exact takenIn_safe hl hprev hp hn hfit
    · split
      · have hmore := (purvaMorecoreIn_safe ha hl steps hn').tracks
          (purvaMorecoreIn_tracks steps s nunits)
        refine hmore.bind ?_
        rintro ⟨s', p'⟩ ⟨ho, hm⟩
        simp only at ho ⊢
        split
        · exact .ok trivial
        · obtain ⟨N', hl', rfl⟩ := ho.resolve_left ‹_›
          have ha' := ha.grows (purvaMorecore_grows hm)
          refine (hl'.fits _ hl'.freep).nextIn.bind ?_
          rintro _ rfl
          exact ih ha' hl' hl'.freep (hl'.next _ hl'.freep)
      · refine (hl.fits p hp).nextIn.bind ?_
        rintro _ rfl
        exact ih ha hl hp (hl.next p hp)

/-- The units of a request do not come to `2^29`, whose bytes are 0 again. -/
def Countable (nbytes : Word) : Prop := ¬ (0xfffffff1 ≤ nbytes.toNat ∧ nbytes.toNat ≤ 0xfffffff8)

instance (nbytes : Word) : Decidable (Countable nbytes) := inferInstanceAs (Decidable (¬ _))

theorem Countable.units (h : Countable a) :
    0 < ((a + PURVA_HUNIT - 1#32) / PURVA_HUNIT + 1#32).toNat ∧
      ((a + PURVA_HUNIT - 1#32) / PURVA_HUNIT + 1#32).toNat < 2 ^ 29 := by
  unfold Countable at h
  by_cases hle : a.toNat ≤ 0xfffffff0
  · have hunits : Purva.units a.toNat < 2 ^ 29 ∧ 0 < Purva.units a.toNat := by
      unfold Purva.units
      omega
    rw [units_eq hle, addr_toNat (by omega)]
    exact hunits.symm
  · rw [units_wrapped (by omega)]
    decide

/-- **Allocating** stays in the buffer, if the free list does. -/
theorem purvaMallocIn_safe (ha : ArenaIn s) (hl : ListIn s N) (steps : Nat) {nbytes : Word}
    (hn : Countable nbytes) : Safe .outside (purvaMallocIn steps s nbytes) fun _ => True := by
  unfold purvaMallocIn
  split
  · exact .ok trivial
  · obtain ⟨hpos, hlt⟩ := hn.units
    refine (hl.fits _ hl.freep).nextIn.bind ?_
    rintro _ rfl
    exact mallocWalkIn_safe steps hpos hlt steps ha hl hl.freep (hl.next _ hl.freep)

/-! ## `purva__realloc` -/

/-- **Moving a block** of a tidy heap stays in the buffer. -/
theorem purvaReallocIn_safe (ha : ArenaIn s) {ap n : Word} (h : Tidy s N (ap - PURVA_HUNIT))
    (hap : ap ≠ 0#32) (hn0 : n ≠ 0#32) (hn : n.toNat ≤ 0xfffffff0) (steps : Nat) :
    Safe .outside (purvaReallocIn steps s ap n) fun _ => True := by
  have hblock := h.block
  have hap' : ap - PURVA_HUNIT + PURVA_HUNIT = ap := BitVec.sub_add_cancel _ _
  unfold purvaReallocIn
  rw [if_neg hap, if_neg hn0]
  refine hblock.sizeIn.bind ?_
  rintro _ rfl
  generalize hb : ap - PURVA_HUNIT = b at h hblock hap'
  generalize hsize : purvaSize s b = size at hblock
  simp only
  split
  · exact .ok trivial
  rename_i hlt
  rw [ge_iff_le, BitVec.not_le] at hlt
  rw [if_pos hlt]
  have hroom := hblock.room
  -- a size of 0 would be 0xfffffff8 bytes
  have hsize0 : 0 < size.toNat := by
    refine Nat.pos_of_ne_zero fun h0 => ?_
    rw [BitVec.eq_of_toNat_eq (y := 0#32) h0, BitVec.lt_def] at hlt
    have hwrap : ((0#32 - 1#32) * PURVA_HUNIT).toNat = 0xfffffff8 := rfl
    omega
  have hone : (1#32 : Word) ≤ size := by
    rw [BitVec.le_def]
    exact hsize0
  have hsub : (size - 1#32).toNat = size.toNat - 1 := BitVec.toNat_sub_of_le hone
  have hold : ((size - 1#32) * PURVA_HUNIT).toNat = 8 * (size.toNat - 1) := by
    rw [units_toNat (by omega), hsub]
  rw [BitVec.lt_def] at hlt
  rw [hold] at hlt ⊢
  have hcount : Countable n := fun hc => by omega
  have hmalloc := (purvaMallocIn_safe ha h.list steps hcount).tracks
    (purvaMallocIn_tracks steps s n)
  refine hmalloc.bind ?_
  rintro ⟨s₁, np⟩ ⟨-, hm⟩
  simp only [movedIn]
  split
  · exact .ok trivial
  rename_i hnp
  obtain ⟨N', c, rfl, hclears⟩ := purvaMalloc_clears ha h hn hm hnp
  have hgrows := purvaMalloc_grows hm
  have ha₁ := ha.grows hgrows
  have hunits : n.toNat ≤ 8 * (units n.toNat - 1) ∧ 0 < units n.toNat := by
    unfold units
    omega
  have hto := hclears.fits.payload (k := 8 * (size.toNat - 1)) (by omega)
  have hfrom := (hblock.same hgrows.buffer).payload (Nat.le_refl _)
  rw [hap'] at hfrom
  refine (memmoveIn_safe hto hfrom).bind ?_
  rintro s₂ hs₂
  obtain ⟨hlist, hblock'⟩ := hclears.copied ha₁ hunits.2 (by omega) ap hs₂
  rw [← hb] at hblock'
  exact (purvaFreeIn_safe hlist ap hblock' steps).bind fun s₃ _ => .ok trivial

/-! ## Exactly what `purva__free` reaches -/

theorem Visited.cons {stops : Word → Prop} (go : ¬ stops p)
    (h : Visited s stops (purvaNext s p) q) : Visited s stops p q := by
  induction h with
  | start => exact .next .start go
  | next _ hgo ih => exact .next ih hgo

theorem freeWalkIn_succ (s : State (PurvaRun U)) (bp : Word) (k : Nat) (p : Word) :
    freeWalkIn s bp (k + 1) p = (check .outside (InBuffer s p 4) () >>= fun _ =>
      if FreeStops s bp p then .ok p else freeWalkIn s bp k (purvaNext s p)) := by
  show (check .outside (InBuffer s p 4) (purvaNext s p) >>= fun next =>
      if bp > p ∧ bp < next then .ok p
      else if p ≥ next ∧ (bp > p ∨ bp < next) then .ok p else freeWalkIn s bp k next) = _
  unfold check
  by_cases hin : InBuffer s p 4
  · rw [if_pos hin, if_pos hin]
    change (if bp > p ∧ bp < purvaNext s p then _ else _) = ite _ _ _
    by_cases h : bp > p ∧ bp < purvaNext s p
    · rw [if_pos h, if_pos (.inl h)]
    · rw [if_neg h]
      exact if_congr (or_iff_right h).symm rfl rfl
  · rw [if_neg hin, if_neg hin]
    rfl

/-- **The search stays in the buffer exactly if the link of every node that it comes to does.** -/
theorem freeWalkIn_inside {bp : Word} :
    (∀ k, freeWalkIn s bp k p ≠ .error .outside) ↔
      ∀ q, Visited s (FreeStops s bp) p q → InBuffer s q 4 := by
  constructor
  · intro h q hq
    have hrest : ∀ k, freeWalkIn s bp k q ≠ .error .outside := by
      induction hq with
      | start => exact h
      | next hv hgo ih =>
        intro k
        have hk := ih (k + 1)
        rw [freeWalkIn_succ] at hk
        have hnext := (bind_inside.mp hk).2
        rwa [if_neg hgo] at hnext
    have h1 := hrest 1
    rw [freeWalkIn_succ] at h1
    exact (bind_inside.mp h1).1
  · intro h k
    induction k generalizing p with
    | zero => exact fun h => by cases h
    | succ k ih =>
      rw [freeWalkIn_succ]
      refine bind_inside.mpr ⟨h p .start, ?_⟩
      by_cases hstop : FreeStops s bp p
      · rw [if_pos hstop]
        exact fun h => by cases h
      · rw [if_neg hstop]
        exact ih fun q hq => h q (hq.cons hstop)

/-- Where the search comes back from. -/
theorem freeWalkIn_ok {bp : Word} {k : Nat} (h : freeWalkIn s bp k p = .ok q) :
    Visited s (FreeStops s bp) p q ∧ FreeStops s bp q := by
  induction k generalizing p with
  | zero => cases h
  | succ k ih =>
    rw [freeWalkIn_succ] at h
    obtain ⟨_, -, h⟩ := bind_ok h
    by_cases hstop : FreeStops s bp p
    · rw [if_pos hstop] at h
      cases h
      exact ⟨.start, hstop⟩
    · rw [if_neg hstop] at h
      obtain ⟨hv, hs⟩ := ih h
      exact ⟨hv.cons hstop, hs⟩

/-- It does come back from there. -/
theorem freeWalkIn_found {bp : Word} (hv : Visited s (FreeStops s bp) p q)
    (hstop : FreeStops s bp q) (hin : ∀ q, Visited s (FreeStops s bp) p q → InBuffer s q 4) :
    ∃ k, freeWalkIn s bp k p = .ok q := by
  have hback : ∀ r, Visited s (FreeStops s bp) p r → (∃ k, freeWalkIn s bp k r = .ok q) →
      ∃ k, freeWalkIn s bp k p = .ok q := by
    intro r hr
    induction hr with
    | start => exact id
    | @next r hv hgo ih =>
      rintro ⟨k, hk⟩
      refine ih ⟨k + 1, ?_⟩
      rw [freeWalkIn_succ, check, if_pos (hin r hv)]
      exact (if_neg hgo).trans hk
  refine hback q hv ⟨1, ?_⟩
  rw [freeWalkIn_succ, check, if_pos (hin q hv)]
  exact if_pos hstop

theorem SameBuffer.inBuffer {s' : State (PurvaRun U)} (h : SameBuffer s s') :
    InBuffer s' a n ↔ InBuffer s a n := by
  unfold InBuffer purvaArena
  rw [h.1, h.2]

theorem freeNextIn_inside {bp : Word} (hp : InBuffer s p 4) :
    freeNextIn s p bp ≠ .error .outside ↔
      InBuffer s (bp + 4#32) 4 ∧ InBuffer s bp 4 ∧
        (bp + purvaSize s bp * PURVA_HUNIT = purvaNext s p →
          InBuffer s (purvaNext s p + 4#32) 4 ∧
            InBuffer s
              (purvaNext (purvaSetSize s bp (purvaSize s bp + purvaSize s (purvaNext s p))) p) 4) := by
  refine bind_inside.trans (and_congr_right fun hsize => bind_inside.trans ?_)
  refine (and_iff_right hp).trans ?_
  by_cases hjoin : bp + purvaSize s bp * PURVA_HUNIT = purvaNext s p
  · have hjoin' : bp + purvaLd s (bp + 4#32) * PURVA_HUNIT = purvaLd s p := hjoin
    rw [if_pos hjoin']
    have hsame := setSize_same s bp (purvaSize s bp + purvaSize s (purvaNext s p))
    refine bind_inside.trans ?_
    rw [forall_prop_of_true hjoin, and_left_comm]
    refine and_congr_right fun hnext => bind_inside.trans ((and_iff_right hsize).trans ?_)
    refine bind_inside.trans ((and_iff_right (hsame.inBuffer.mpr hp)).trans ?_)
    refine bind_inside.trans (Iff.trans ?_ and_comm)
    exact and_congr hsame.inBuffer (check_inside.trans hsame.inBuffer)
  · have hjoin' : ¬ bp + purvaLd s (bp + 4#32) * PURVA_HUNIT = purvaLd s p := hjoin
    rw [if_neg hjoin']
    exact check_inside.trans (and_iff_left fun h => absurd h hjoin).symm

theorem freePrevIn_inside {bp : Word} (hp : InBuffer s p 4) (hsize : InBuffer s (bp + 4#32) 4)
    (hlink : InBuffer s bp 4) :
    freePrevIn s p bp ≠ .error .outside ↔ InBuffer s (p + 4#32) 4 := by
  refine bind_inside.trans (and_iff_left_of_imp fun hnode => ?_)
  split
  · have hsame := setSize_same s p (purvaLd s (p + 4#32) + purvaLd s (bp + 4#32))
    refine bind_inside.mpr ⟨hsize, bind_inside.mpr ⟨hnode, bind_inside.mpr ⟨?_, ?_⟩⟩⟩
    · exact hsame.inBuffer.mpr hlink
    · exact check_inside.mpr (hsame.inBuffer.mpr hp)
  · exact check_inside.mpr hp

/-- **Once the place is found**, `purva__free` stays in the buffer exactly if these words are. -/
theorem placeIn_inside {bp : Word} (hp : InBuffer s p 4) :
    (freeNextIn s p bp >>= fun s => freePrevIn s p bp >>= fun s => .ok (setFreep s p)) ≠
      .error .outside ↔ PlaceIn s p bp := by
  refine (freeNextIn_tracks s p bp).bind_inside.trans ?_
  rw [freeNextIn_inside hp, map_inside]
  have hsame := (freeNext_grows s p bp).buffer
  have hprev := fun (hsize : InBuffer s (bp + 4#32) 4) (hlink : InBuffer s bp 4) =>
    freePrevIn_inside (hsame.inBuffer.mpr hp) (hsame.inBuffer.mpr hsize) (hsame.inBuffer.mpr hlink)
  constructor
  · rintro ⟨⟨hsize, hlink, hjoin⟩, h⟩
    exact ⟨hsize, hlink, hsame.inBuffer.mp ((hprev hsize hlink).mp h), hjoin⟩
  · rintro ⟨hsize, hlink, hnode, hjoin⟩
    exact ⟨⟨hsize, hlink, hjoin⟩, (hprev hsize hlink).mpr (hsame.inBuffer.mpr hnode)⟩

/-- **`purva__free` stays in the buffer exactly if** the link of every node that its search comes to
does, and the words around the place where the search stops. -/
theorem purvaFreeIn_inside {ap : Word} :
    (∀ steps, purvaFreeIn steps s ap ≠ .error .outside) ↔ FreeIn s ap := by
  constructor
  · intro h
    have hlinks := freeWalkIn_inside.mp fun k => (bind_inside_iff.mp (h k)).1
    refine ⟨hlinks, fun q hq hstop => ?_⟩
    obtain ⟨k, hk⟩ := freeWalkIn_found hq hstop hlinks
    exact (placeIn_inside (hlinks q hq)).mp ((bind_inside_iff.mp (h k)).2 q hk)
  · rintro ⟨hlinks, hplace⟩ steps
    refine bind_inside_iff.mpr ⟨freeWalkIn_inside.mpr hlinks steps, fun q hq => ?_⟩
    obtain ⟨hv, hstop⟩ := freeWalkIn_ok hq
    exact (placeIn_inside (hlinks q hv)).mpr (hplace q hv hstop)

/-! ## Exactly what the search of `purva__malloc` reaches -/

/-- What is left of `purva__malloc` once the search is back at `freep`. -/
def grownIn (steps : Nat) (nunits : Word) (k : Nat) (s : State (PurvaRun U)) :
    Except HeapFault (State (PurvaRun U) × Word) :=
  purvaMorecoreIn steps s nunits >>= fun o =>
    if o.2 = 0#32 then .ok (o.1, 0#32)
    else purvaNextIn o.1 o.2 >>= fun next => mallocWalkIn steps nunits k o.1 o.2 next

theorem mallocWalkIn_succ (steps : Nat) (nunits : Word) (k : Nat) (s : State (PurvaRun U))
    (prevp p : Word) :
    mallocWalkIn steps nunits (k + 1) s prevp p = (check .outside (InBuffer s (p + 4#32) 4)
        (purvaSize s p) >>= fun size =>
      if size ≥ nunits then takenIn s prevp p size nunits
      else if p = s.host.freep then grownIn steps nunits k s
      else check .outside (InBuffer s p 4) (purvaNext s p) >>= fun next =>
        mallocWalkIn steps nunits k s p next) := rfl

theorem takenIn_inside {prevp nunits : Word} (hprev : InBuffer s prevp 4)
    (hsize : InBuffer s (p + 4#32) 4) :
    takenIn s prevp p (purvaSize s p) nunits ≠ .error .outside ↔ TakenIn s nunits p := by
  unfold takenIn TakenIn
  split
  · refine bind_inside.trans (and_iff_left_of_imp fun _ => ?_)
    exact bind_inside.mpr ⟨hprev, fun h => by cases h⟩
  · have hsame := setSize_same s p (purvaSize s p - nunits)
    refine bind_inside.trans ((and_iff_right hsize).trans ?_)
    refine bind_inside.trans ((and_iff_right (hsame.inBuffer.mpr hsize)).trans ?_)
    rw [show purvaLd (purvaSt s (p + 4#32) (purvaSize s p - nunits)) (p + 4#32) =
      purvaSize s p - nunits from purvaSize_setSize s p _]
    refine bind_inside.trans (Iff.trans (and_iff_left fun h => by cases h) hsame.inBuffer)

/-! ## More steps -/

theorem freeWalkIn_settled (bp : Word) {k k' : Nat} (hk : k ≤ k') :
    Settled .lost (freeWalkIn s bp k p) (freeWalkIn s bp k' p) := by
  induction k generalizing k' p with
  | zero => exact fun h => absurd rfl h
  | succ k ih =>
    have hpos : 0 < k' := Nat.lt_of_lt_of_le k.succ_pos hk
    obtain ⟨k', rfl⟩ := Nat.exists_eq_succ_of_ne_zero (Nat.ne_of_gt hpos)
    rw [freeWalkIn_succ, freeWalkIn_succ s bp k']
    refine (Settled.refl _).bind fun _ => ?_
    split
    · exact .refl _
    · exact ih (Nat.le_of_succ_le_succ hk)

variable {steps steps' : Nat}

theorem purvaFreeIn_settled (hsteps : steps ≤ steps') (ap : Word) :
    Settled .lost (purvaFreeIn steps s ap) (purvaFreeIn steps' s ap) :=
  (freeWalkIn_settled _ hsteps).bind fun _ => .refl _

theorem purvaMorecoreIn_settled (hsteps : steps ≤ steps') (nunits : Word) :
    Settled .lost (purvaMorecoreIn steps s nunits) (purvaMorecoreIn steps' s nunits) := by
  unfold purvaMorecoreIn
  simp only
  generalize (if nunits < 4096#32 then 4096#32 else nunits) = nu
  split
  · exact .refl _
  · exact (Settled.refl _).bind fun _ => (purvaFreeIn_settled hsteps _).bind fun _ => .refl _

theorem mallocWalkIn_settled (hsteps : steps ≤ steps') (nunits : Word) {k k' : Nat} (hk : k ≤ k')
    {prevp : Word} :
    Settled .lost (mallocWalkIn steps nunits k s prevp p)
      (mallocWalkIn steps' nunits k' s prevp p) := by
  induction k generalizing k' s prevp p with
  | zero => exact fun h => absurd rfl h
  | succ k ih =>
    have hpos : 0 < k' := Nat.lt_of_lt_of_le k.succ_pos hk
    obtain ⟨k', rfl⟩ := Nat.exists_eq_succ_of_ne_zero (Nat.ne_of_gt hpos)
    have hk' := Nat.le_of_succ_le_succ hk
    rw [mallocWalkIn_succ, mallocWalkIn_succ]
    refine (Settled.refl _).bind fun size => ?_
    split
    · exact .refl _
    split
    · refine (purvaMorecoreIn_settled hsteps nunits).bind fun o => ?_
      split
      · exact .refl _
      · exact (Settled.refl _).bind fun _ => ih hk'
    · exact (Settled.refl _).bind fun _ => ih hk'

theorem grownIn_settled (hsteps : steps ≤ steps') (nunits : Word) {k k' : Nat} (hk : k ≤ k') :
    Settled .lost (grownIn steps nunits k s) (grownIn steps' nunits k' s) := by
  refine (purvaMorecoreIn_settled hsteps nunits).bind fun o => ?_
  split
  · exact .refl _
  · exact (Settled.refl _).bind fun _ => mallocWalkIn_settled hsteps nunits hk

theorem purvaMallocIn_settled (hsteps : steps ≤ steps') (nbytes : Word) :
    Settled .lost (purvaMallocIn steps s nbytes) (purvaMallocIn steps' s nbytes) := by
  unfold purvaMallocIn
  split
  · exact .refl _
  · exact (Settled.refl _).bind fun _ => mallocWalkIn_settled hsteps _ hsteps

theorem movedIn_settled (hsteps : steps ≤ steps') (np ap : Word) (n : Nat) :
    Settled .lost (movedIn steps s np ap n) (movedIn steps' s np ap n) := by
  unfold movedIn
  split
  · exact .refl _
  · exact (Settled.refl _).bind fun _ => (purvaFreeIn_settled hsteps ap).bind fun _ => .refl _

/-! ## Growing -/

/-- `purva__morecore` answers with `freep`. -/
theorem purvaMorecoreIn_freep {nunits : Word} {s' : State (PurvaRun U)}
    (h : purvaMorecoreIn steps s nunits = .ok (s', p)) (hp : p ≠ 0#32) : s'.host.freep = p := by
  unfold purvaMorecoreIn at h
  simp only at h
  generalize (if nunits < 4096#32 then 4096#32 else nunits) = nu at h
  split at h
  · cases h
    exact absurd rfl hp
  · obtain ⟨_, _, h⟩ := bind_ok h
    obtain ⟨_, _, h⟩ := bind_ok h
    cases h
    rfl

theorem purvaMorecoreIn_inside {nunits : Word} (hmore : NeedsMore s nunits) :
    (∀ steps, purvaMorecoreIn steps s nunits ≠ .error .outside) ↔ MoreIn s nunits := by
  unfold purvaMorecoreIn
  simp only [if_neg (Nat.not_lt.mpr hmore.2.2)]
  constructor
  · intro h
    refine ⟨(bind_inside.mp (h 0)).1, purvaFreeIn_inside.mp fun steps => ?_⟩
    exact map_inside.mp (bind_inside.mp (h steps)).2
  · intro h steps
    exact bind_inside.mpr ⟨h.size, map_inside.mpr (purvaFreeIn_inside.mpr h.free steps)⟩

theorem Grown.trans {nunits : Word} {s' s'' : State (PurvaRun U)} (h : Grown nunits s s')
    (h' : Grown nunits s' s'') : Grown nunits s s'' := by
  induction h' with
  | start => exact h
  | more _ needs grow hp ih => exact .more ih needs grow hp

theorem MallocIn.grown {nunits : Word} {s' : State (PurvaRun U)} (h : MallocIn s nunits)
    (hg : Grown nunits s s') : MallocIn s' nunits :=
  ⟨fun t ht => h.search t (hg.trans ht), fun t ht => h.more t (hg.trans ht)⟩

/-! ## The words are enough -/

/-- The search from a node that it comes to. -/
theorem SearchIn.walk {nunits : Word} (h : SearchIn s nunits) (steps k : Nat)
    (hmore : NeedsMore s nunits → ∀ j < k, Purva.grownIn steps nunits j s ≠ .error .outside)
    {prevp : Word} (hprev : InBuffer s prevp 4)
    (hv : Visited s (MallocStops s nunits) (purvaNext s s.host.freep) p) :
    mallocWalkIn steps nunits k s prevp p ≠ .error .outside := by
  induction k generalizing prevp p with
  | zero => exact fun h => by cases h
  | succ k ih =>
    rw [mallocWalkIn_succ]
    refine bind_inside.mpr ⟨h.size p hv, ?_⟩
    split
    · rename_i hfit
      exact (takenIn_inside hprev (h.size p hv)).mpr (h.taken p hv hfit)
    rename_i hfit
    split
    · rename_i hback
      subst hback
      by_cases hroom : NeedsMore s nunits
      · exact hmore hroom k (Nat.lt_succ_self k)
      · have hfull : s.host.heap_brk.toNat +
            ((if nunits < 4096#32 then 4096#32 else nunits) * PURVA_HUNIT).toNat >
              s.host.heap_top.toNat :=
          Nat.lt_of_not_le fun hle => hroom ⟨hv, BitVec.not_le.mp hfit, hle⟩
        unfold Purva.grownIn purvaMorecoreIn
        simp only [if_pos hfull]
        exact fun h => by cases h
    · rename_i hback
      have hgo : ¬ MallocStops s nunits p := fun h => h.elim hfit hback
      have hlink := h.link p hv hgo
      have hless := fun needs j (hj : j < k) => hmore needs j (Nat.lt_succ_of_lt hj)
      exact bind_inside.mpr ⟨hlink, ih hless hlink (.next hv hgo)⟩

/-- The rest of the search once the heap has to grow: it goes on in the grown heap. -/
theorem MallocIn.grownIn {nunits : Word} (h : MallocIn s nunits) (needs : NeedsMore s nunits)
    (steps k : Nat) : Purva.grownIn steps nunits k s ≠ .error .outside := by
  induction k using Nat.strong_induction_on generalizing s with
  | _ k ih =>
    have hmore := (purvaMorecoreIn_inside needs).mpr (h.more s .start needs)
    refine bind_inside_iff.mpr ⟨hmore steps, ?_⟩
    rintro ⟨s', p⟩ hgrow
    split
    · exact fun h => by cases h
    · rename_i hp
      have h' : MallocIn s' nunits := h.grown (.more .start needs hgrow hp)
      have hsearch := h'.search s' .start
      obtain rfl := purvaMorecoreIn_freep hgrow hp
      exact bind_inside.mpr ⟨hsearch.freep,
        hsearch.walk steps k (fun needs' j hj => ih j hj h' needs') hsearch.freep .start⟩

/-! ## The words are needed -/

/-- The search for `nunits` units stays in the buffer. -/
def StaysIn (s : State (PurvaRun U)) (nunits : Word) : Prop :=
  ∀ steps, (purvaNextIn s s.host.freep >>= fun next =>
    mallocWalkIn steps nunits steps s s.host.freep next) ≠ .error .outside

/-- It does so from every node that it comes to, with any number of steps left. -/
theorem StaysIn.visited {nunits : Word} (h : StaysIn s nunits)
    (hq : Visited s (MallocStops s nunits) (purvaNext s s.host.freep) q) :
    ∃ prevp, InBuffer s prevp 4 ∧
      ∀ k, ∃ steps, k ≤ steps ∧ mallocWalkIn steps nunits k s prevp q ≠ .error .outside := by
  induction hq with
  | start => exact ⟨s.host.freep, (bind_inside.mp (h 0)).1,
      fun k => ⟨k, Nat.le_refl k, (bind_inside.mp (h k)).2⟩⟩
  | @next q hv hgo ih =>
    obtain ⟨prevp, -, hk⟩ := ih
    have hon : ∀ k, ∃ steps, k ≤ steps ∧ InBuffer s q 4 ∧
        mallocWalkIn steps nunits k s q (purvaNext s q) ≠ .error .outside := by
      intro k
      obtain ⟨steps, hle, hin⟩ := hk (k + 1)
      rw [mallocWalkIn_succ] at hin
      have hin' := (bind_inside.mp hin).2
      rw [if_neg fun hfit => hgo (.inl hfit), if_neg fun hback => hgo (.inr hback)] at hin'
      exact ⟨steps, Nat.le_of_succ_le hle, bind_inside.mp hin'⟩
    obtain ⟨_, -, hlink, -⟩ := hon 0
    exact ⟨q, hlink, fun k => (hon k).imp fun _ hs => ⟨hs.1, hs.2.2⟩⟩

/-- What the search has to have in the buffer, from the first node on. -/
theorem StaysIn.search {nunits : Word} (h : StaysIn s nunits) : SearchIn s nunits := by
  have hone : ∀ q, Visited s (MallocStops s nunits) (purvaNext s s.host.freep) q →
      ∃ prevp, InBuffer s prevp 4 ∧ ∃ steps, InBuffer s (q + 4#32) 4 ∧
        (if purvaSize s q ≥ nunits then takenIn s prevp q (purvaSize s q) nunits
          else if q = s.host.freep then grownIn steps nunits 0 s
          else check .outside (InBuffer s q 4) (purvaNext s q) >>= fun next =>
            mallocWalkIn steps nunits 0 s q next) ≠ .error .outside := by
    intro q hq
    obtain ⟨prevp, hprev, hk⟩ := h.visited hq
    obtain ⟨steps, -, hin⟩ := hk 1
    rw [mallocWalkIn_succ] at hin
    have hboth := bind_inside.mp hin
    exact ⟨prevp, hprev, steps, hboth.1, hboth.2⟩
  refine ⟨(bind_inside.mp (h 0)).1, fun q hq => ?_, fun q hq hgo => ?_, fun q hq hfit => ?_⟩
  · obtain ⟨_, -, _, hsize, -⟩ := hone q hq
    exact hsize
  · obtain ⟨_, -, _, -, hin⟩ := hone q hq
    rw [if_neg fun hfit => hgo (.inl hfit), if_neg fun hback => hgo (.inr hback)] at hin
    exact (bind_inside.mp hin).1
  · obtain ⟨_, hprev, _, hsize, hin⟩ := hone q hq
    rw [if_pos hfit] at hin
    exact (takenIn_inside hprev hsize).mp hin

/-- Where the heap has to grow, the rest of the search stays in the buffer too. -/
theorem StaysIn.grownIn {nunits : Word} (h : StaysIn s nunits) (needs : NeedsMore s nunits)
    (steps k : Nat) : Purva.grownIn steps nunits k s ≠ .error .outside := by
  obtain ⟨prevp, -, hk⟩ := h.visited needs.1
  obtain ⟨steps', hle, hin⟩ := hk (max steps k + 1)
  rw [mallocWalkIn_succ] at hin
  have hrest := (bind_inside.mp hin).2
  rw [if_neg (BitVec.not_le.mpr needs.2.1), if_pos rfl] at hrest
  exact (grownIn_settled (by omega) nunits (Nat.le_max_right steps k)).inside (by decide) hrest

/-- And the search in the grown heap. -/
theorem StaysIn.grown {nunits : Word} {s' : State (PurvaRun U)} (h : StaysIn s nunits)
    (hg : Grown nunits s s') : StaysIn s' nunits := by
  induction hg with
  | start => exact h
  | @more s' s'' p steps _ needs hgrow hp ih =>
    intro k
    have hin := ih.grownIn needs (max steps k) (max steps k)
    have hgrow' := (purvaMorecoreIn_settled (Nat.le_max_left steps k) nunits).returns hgrow
    unfold Purva.grownIn at hin
    have hrest := (bind_inside_iff.mp hin).2 _ hgrow'
    rw [if_neg hp] at hrest
    obtain rfl := purvaMorecoreIn_freep hgrow hp
    have hk := Nat.le_max_right steps k
    exact ((Settled.refl _).bind fun _ => mallocWalkIn_settled hk nunits hk).inside
      (by decide) hrest

theorem StaysIn.mallocIn {nunits : Word} (h : StaysIn s nunits) : MallocIn s nunits := by
  refine ⟨fun s' hg => (h.grown hg).search, fun s' hg needs => ?_⟩
  exact (purvaMorecoreIn_inside needs).mp fun steps =>
    (bind_inside_iff.mp ((h.grown hg).grownIn needs steps 0)).1

/-- **`purva__malloc` stays in the buffer exactly if** the words of its search do, however often it
grows the heap. -/
theorem purvaMallocIn_inside {nbytes : Word} (hn : nbytes ≠ 0#32) :
    (∀ steps, purvaMallocIn steps s nbytes ≠ .error .outside) ↔ MallocIn s (nunits nbytes) := by
  unfold purvaMallocIn
  simp only [if_neg hn]
  refine ⟨fun h => StaysIn.mallocIn h, fun h steps => ?_⟩
  have hsearch := h.search s .start
  exact bind_inside.mpr ⟨hsearch.freep,
    hsearch.walk steps steps (fun needs j _ => h.grownIn needs steps j) hsearch.freep .start⟩

/-! ## What no call does without -/

theorem purvaSizeIn_ok (h : purvaSizeIn s p = .ok v) : InBuffer s (p + 4#32) 4 := (check_ok h).1

/-- A block that is freed has its size word in the buffer. -/
theorem purvaFreeIn_header {steps : Nat} {ap : Word} {s' : State (PurvaRun U)}
    (h : purvaFreeIn steps s ap = .ok s') : InBuffer s (ap - PURVA_HUNIT + 4#32) 4 := by
  obtain ⟨p, _, h⟩ := bind_ok h
  obtain ⟨s₁, hnext, _⟩ := bind_ok h
  obtain ⟨size, hsize, _⟩ := bind_ok hnext
  exact purvaSizeIn_ok hsize

/-- So has a block that is reallocated. -/
theorem purvaReallocIn_header {steps : Nat} {ap n : Word} {o : State (PurvaRun U) × Word}
    (hap : ap ≠ 0#32) (h : purvaReallocIn steps s ap n = .ok o) :
    InBuffer s (ap - PURVA_HUNIT + 4#32) 4 := by
  unfold purvaReallocIn at h
  rw [if_neg hap] at h
  split at h
  · obtain ⟨s', hfree, _⟩ := bind_ok h
    exact purvaFreeIn_header hfree
  · obtain ⟨size, hsize, _⟩ := bind_ok h
    exact purvaSizeIn_ok hsize

/-! ## What is asked of a call -/

/-- What `malloc` needs: nothing to allocate, or its words in the buffer. -/
def MallocServed (s : State (PurvaRun U)) (nbytes : Word) : Prop :=
  nbytes = 0#32 ∨ MallocIn s (nunits nbytes)

/-- What `free` needs: nothing to free, or its words in the buffer. -/
def FreeServed (s : State (PurvaRun U)) (ap : Word) : Prop := ap = 0#32 ∨ FreeIn s ap

/-- What `purva__realloc` reads and writes once it has the block `np`: the `n` bytes at both, and then
the words of `purva__free`. -/
structure MoveIn (s : State (PurvaRun U)) (np ap : Word) (n : Nat) : Prop where
  payload : InBuffer s np n ∧ InBuffer s ap n
  free : FreeIn (memmove s (purvaArena s np) (purvaArena s ap) n) ap

/-- The bytes that the size word of a block says it has. -/
def oldbytes (s : State (PurvaRun U)) (ap : Word) : Word :=
  (purvaSize s (ap - PURVA_HUNIT) - 1#32) * PURVA_HUNIT

/-- What `realloc` needs: what `malloc` or `free` does; or the size word, and where that is too
small, the words of `malloc` and, where it has a block to give, those of the move. -/
def ReallocServed (s : State (PurvaRun U)) (ap n : Word) : Prop :=
  if ap = 0#32 then MallocServed s n
  else if n = 0#32 then FreeServed s ap
  else
    InBuffer s (ap - PURVA_HUNIT + 4#32) 4 ∧
      (oldbytes s ap < n → MallocIn s (nunits n) ∧
        ∀ steps s' np, purvaMallocIn steps s n = .ok (s', np) → np ≠ 0#32 →
          MoveIn s' np ap (oldbytes s ap).toNat)

/-- What a hostcall of the malloc group needs. -/
structure Served (s : State (PurvaRun U)) : Prop where
  malloc : (s.x 17#5).toNat = 2 → MallocServed s (s.x 10#5)
  free : (s.x 17#5).toNat = 3 → FreeServed s (s.x 10#5)
  realloc : (s.x 17#5).toNat = 4 → ReallocServed s (s.x 10#5) (s.x 11#5)

theorem mallocServed_iff {nbytes : Word} :
    (∀ steps, purvaMallocIn steps s nbytes ≠ .error .outside) ↔ MallocServed s nbytes := by
  by_cases hn : nbytes = 0#32
  · refine iff_of_true (fun steps => ?_) (.inl hn)
    unfold purvaMallocIn
    rw [if_pos hn]
    exact fun h => by cases h
  · exact (purvaMallocIn_inside hn).trans (or_iff_right hn).symm

theorem movedIn_inside {np ap : Word} :
    (∀ steps, movedIn steps s np ap n ≠ .error .outside) ↔ (np ≠ 0#32 → MoveIn s np ap n) := by
  unfold movedIn
  by_cases hnp : np = 0#32
  · simp only [if_pos hnp]
    exact iff_of_true (fun _ h => by cases h) fun h => absurd hnp h
  simp only [if_neg hnp]
  constructor
  · intro h _
    refine ⟨(bind_inside.mp (h 0)).1, purvaFreeIn_inside.mp fun steps => ?_⟩
    exact map_inside.mp (bind_inside.mp (h steps)).2
  · intro h steps
    have hmove := h hnp
    exact bind_inside.mpr ⟨hmove.payload, map_inside.mpr (purvaFreeIn_inside.mpr hmove.free steps)⟩

/-- **`purva__realloc` stays in the buffer exactly if** what it needs is there. -/
theorem purvaReallocIn_inside {ap n : Word} :
    (∀ steps, purvaReallocIn steps s ap n ≠ .error .outside) ↔ ReallocServed s ap n := by
  unfold purvaReallocIn ReallocServed
  by_cases hap : ap = 0#32
  · simp only [if_pos hap]
    exact mallocServed_iff
  by_cases hn : n = 0#32
  · simp only [if_neg hap, if_pos hn]
    refine Iff.trans (forall_congr' fun _ => map_inside) ?_
    exact purvaFreeIn_inside.trans (or_iff_right hap).symm
  simp only [if_neg hap, if_neg hn]
  refine Iff.trans (forall_congr' fun _ => bind_inside) (forall_and.trans ?_)
  refine and_congr (forall_const _) ?_
  change (∀ steps, (if oldbytes s ap ≥ n then _ else
    purvaMallocIn steps s n >>= fun o => movedIn steps o.1 o.2 ap
      (if oldbytes s ap < n then oldbytes s ap else n).toNat) ≠ _) ↔ _
  by_cases hlt : oldbytes s ap < n
  · simp only [if_neg (BitVec.not_le.mpr hlt), if_pos hlt, ge_iff_le]
    rw [← purvaMallocIn_inside hn]
    constructor
    · intro h _
      refine ⟨fun steps => (bind_inside_iff.mp (h steps)).1, fun steps s' np hm => ?_⟩
      refine movedIn_inside.mp fun k => ?_
      have hm' := (purvaMallocIn_settled (Nat.le_max_left steps k) n).returns hm
      have hmove := (bind_inside_iff.mp (h (max steps k))).2 _ hm'
      exact (movedIn_settled (Nat.le_max_right steps k) np ap _).inside (by decide) hmove
    · intro h steps
      obtain ⟨hmalloc, hmove⟩ := h hlt
      refine bind_inside_iff.mpr ⟨hmalloc steps, ?_⟩
      rintro ⟨s', np⟩ hm
      exact movedIn_inside.mpr (hmove steps s' np hm) steps
  · have hge : oldbytes s ap ≥ n := BitVec.not_lt.mp hlt
    simp only [if_pos hge]
    exact iff_of_true (fun _ h => by cases h) fun h => absurd h hlt

/-- **A call stays in the buffer exactly if** it has what it needs. -/
theorem onEcallIn_inside {cb : PurvaCallbacks U} :
    (∀ steps, onEcallIn cb steps s ≠ .error .outside) ↔ Served s := by
  constructor
  · intro h
    unfold onEcallIn at h
    refine ⟨fun hfn => mallocServed_iff.mp fun steps => ?_, fun hfn => ?_,
      fun hfn => purvaReallocIn_inside.mp fun steps => ?_⟩
    · have hin := h steps
      simp only [hfn] at hin
      exact map_inside.mp hin
    · by_cases ha : s.x 10#5 = 0#32
      · exact .inl ha
      · refine .inr (purvaFreeIn_inside.mp fun steps => ?_)
        have hin := h steps
        simp only [hfn, if_neg ha] at hin
        exact map_inside.mp (map_inside.mp hin)
    · have hin := h steps
      simp only [hfn] at hin
      exact map_inside.mp hin
  · intro h steps
    unfold onEcallIn
    simp only
    split
    · rename_i hfn
      exact map_inside.mpr (mallocServed_iff.mpr (h.malloc hfn) steps)
    · rename_i hfn
      split
      · exact fun h => by cases h
      · have hfree := (h.free hfn).resolve_left ‹_›
        exact map_inside.mpr (map_inside.mpr (purvaFreeIn_inside.mpr hfree steps))
    · rename_i hfn
      exact map_inside.mpr (purvaReallocIn_inside.mpr (h.realloc hfn) steps)
    · exact fun h => by cases h

/-- **In an intact heap** of a run every call of the guest has what it needs: a request that can be
counted in units, and its own live blocks. -/
theorem HeapInv.served {image : Nat → Byte} {h : ImageHeader} {stack heap : Word} {user : U}
    (hroom : OrdinarySizes h stack heap) (hr : Reached (initRun image h stack heap user).s s)
    {F L : Nat → Prop} (hi : HeapInv s F L) :
    (∀ n, Countable n → MallocServed s n) ∧
      ∀ b, L b → FreeServed s (addr (b + 8)) ∧
        ∀ n : Word, n ≠ 0#32 → n.toNat ≤ 0xfffffff0 → ReallocServed s (addr (b + 8)) n := by
  have ha := hr.arenaIn (initRun_arenaIn image user hroom)
  have hl := hi.listIn ha
  refine ⟨fun n hn => mallocServed_iff.mp fun steps => (purvaMallocIn_safe ha hl steps hn).1,
    fun b hb => ?_⟩
  obtain ⟨_, hlo, hhi, hpos⟩ := hi.live hb
  have hbrk := s.host.heap_brk.isLt
  have hblock := hi.blockIn ha (.inr hb)
  have hne : addr (b + 8) ≠ 0#32 := addr_ne_zero (by omega) (by omega)
  constructor
  · refine .inr (purvaFreeIn_inside.mp fun steps => ?_)
    rw [← addr_sub_unit b] at hblock
    exact (purvaFreeIn_safe hl _ hblock steps).1
  · intro n hn0 hn
    have htidy := hi.tidy ha hb
    rw [← addr_sub_unit b] at htidy
    exact purvaReallocIn_inside.mp fun steps =>
      (purvaReallocIn_safe ha htidy hne hn0 hn steps).1

/-- A call to free or to reallocate a block that comes back has found its size word in the
buffer. -/
theorem onEcallIn_header {cb : PurvaCallbacks U} {steps : Nat} {o : State (PurvaRun U) × Bool}
    (h : onEcallIn cb steps s = .ok o)
    (hfn : (s.x 17#5).toNat = 3 ∨ (s.x 17#5).toNat = 4) (ha : s.x 10#5 ≠ 0#32) :
    InBuffer s (s.x 10#5 - PURVA_HUNIT + 4#32) 4 := by
  unfold onEcallIn at h
  rcases hfn with hfn | hfn
  · simp only [hfn, if_neg ha] at h
    obtain ⟨o', hret, _⟩ := bind_ok h
    obtain ⟨s', hfree, _⟩ := bind_ok hret
    exact purvaFreeIn_header hfree
  · simp only [hfn] at h
    obtain ⟨o', hret, _⟩ := bind_ok h
    exact purvaReallocIn_header ha hret

end

/-- **The allocator's hostcalls stay in the writable buffer exactly if** they have what they need,
whatever the guest has written; and none comes back that is given a block with its size outside. -/
theorem mallocGroup_inside (cb : PurvaCallbacks U) (s : State (PurvaRun U)) :
    ((∀ steps, onEcallIn cb steps s ≠ .error .outside) ↔ Served s) ∧
      ((s.x 17#5).toNat = 3 ∨ (s.x 17#5).toNat = 4 → s.x 10#5 ≠ 0#32 →
        ¬ InBuffer s (s.x 10#5 - PURVA_HUNIT + 4#32) 4 →
        ∀ steps o, onEcallIn cb steps s ≠ .ok o) := by
  refine ⟨onEcallIn_inside, fun hfn ha hout steps o h => ?_⟩
  exact hout (onEcallIn_header h hfn ha)

/-- A first request for 100 bytes stays in the buffer. -/
theorem mallocGroup_inside_malloc :
    Reached freshHeap ((freshHeap.setX 17#5 2#32).setX 10#5 100#32) ∧
      ∀ steps, onEcallIn ⟨none, none⟩ steps ((freshHeap.setX 17#5 2#32).setX 10#5 100#32) ≠
        .error .outside := by
  have hroom : OrdinarySizes (imageHeader fun _ => 0#8) 0x100000#32 0x1000000#32 := by decide
  have hr : Reached freshHeap ((freshHeap.setX 17#5 2#32).setX 10#5 100#32) :=
    Reached.start.other ⟨rfl, rfl, rfl, rfl, rfl, rfl⟩
  have hl := freshHeap_inv.listIn (initRun_arenaIn (fun _ => 0#8) () hroom)
  have ha := hr.arenaIn (initRun_arenaIn (fun _ => 0#8) () hroom)
  have hs : Served ((freshHeap.setX 17#5 2#32).setX 10#5 100#32) :=
    { malloc := fun _ => mallocServed_iff.mp fun steps =>
        (purvaMallocIn_safe ha (hl.setX _ _ |>.setX _ _) steps (by decide)).1
      free := fun h => absurd h (by decide)
      realloc := fun h => absurd h (by decide) }
  exact ⟨hr, (mallocGroup_inside ⟨none, none⟩ _).1.mpr hs⟩

/-- The guest frees address 16. -/
def freesBelow : State (PurvaRun Unit) := (freshHeap.setX 17#5 3#32).setX 10#5 16#32

/-- The size at 12 is more than 2 GiB above the stack. -/
theorem mallocGroup_outside :
    ¬ ∀ s, Reached freshHeap s → ∀ steps, 4 * WALK ≤ steps →
      onEcallIn ⟨none, none⟩ steps s ≠ .error .outside := by
  intro h
  have hr : Reached freshHeap freesBelow := Reached.start.other ⟨rfl, rfl, rfl, rfl, rfl, rfl⟩
  refine h _ hr (4 * WALK) (Nat.le_refl _) ?_
  have hwalk : freeWalkIn freesBelow 8#32 (4 * WALK) freesBelow.host.freep =
      .ok freesBelow.host.freep := by
    show freeWalkIn freesBelow 8#32 ((4 * WALK - 1) + 1) freesBelow.host.freep = _
    unfold freeWalkIn
    rfl
  have hsize : purvaSizeIn freesBelow 8#32 = .error .outside := by
    unfold purvaSizeIn purvaLdIn check
    exact if_neg (by decide)
  have hnext : ∀ p, freeNextIn freesBelow p 8#32 = .error .outside := by
    intro p
    unfold freeNextIn
    rw [hsize]
    rfl
  have hfree : purvaFreeIn (4 * WALK) freesBelow 16#32 = .error .outside := by
    unfold purvaFreeIn
    simp only
    rw [show (16#32 : Word) - PURVA_HUNIT = 8#32 from rfl, hwalk]
    simp only [bind, Except.bind, hnext]
  have hcall : onEcallIn ⟨none, none⟩ (4 * WALK) freesBelow =
      answerIn (purvaFreeIn (4 * WALK) freesBelow 16#32 >>= fun s => .ok (s, 0#32)) := rfl
  rw [hcall, hfree]
  rfl

end Purv.Purva

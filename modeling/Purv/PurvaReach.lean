import Purv.Lib.Guarded
import Purv.PurvaHistory

/-!
# What the allocator's hostcalls reach

The allocator follows links and sizes that are in guest memory.  Here every load, store and copy of
it is checked against the writable buffer of the instance.

* `HeapFault`, `InBuffer` — what can go wrong, and when an access is inside;
* `purvaFreeIn`, `purvaMallocIn`, `purvaReallocIn`, `onEcallIn` — the functions, with every access
  checked;
* `onEcallIn_tracks` — the checks aside, the hook is `purvaOnEcall`.
-/

namespace Purv.Purva

open Bits Transcode FreeList Guarded

variable {U : Type}

/-! ## The accesses -/

/-- Why a call does not come back: an access outside the buffer, or a walk that is not over. -/
inductive HeapFault where
  | outside
  | lost
  deriving DecidableEq

section
variable (s : State (PurvaRun U)) (a v : Word)

/-- `n` bytes at a guest address are inside the writable buffer. -/
def InBuffer (n : Nat) : Prop := (purvaArena s a).2 + n ≤ s.writable.len.toNat

instance (n : Nat) : Decidable (InBuffer s a n) := inferInstanceAs (Decidable (_ ≤ _))

/-- `purva__ld`. -/
def purvaLdIn : Except HeapFault Word := check .outside (InBuffer s a 4) (purvaLd s a)

/-- `purva__st`. -/
def purvaStIn : Except HeapFault (State (PurvaRun U)) :=
  check .outside (InBuffer s a 4) (purvaSt s a v)

/-- `purva__next`. -/
def purvaNextIn : Except HeapFault Word := purvaLdIn s a

/-- `purva__size`. -/
def purvaSizeIn : Except HeapFault Word := purvaLdIn s (a + 4#32)

/-- `purva__set_next`. -/
def purvaSetNextIn : Except HeapFault (State (PurvaRun U)) := purvaStIn s a v

/-- `purva__set_size`. -/
def purvaSetSizeIn : Except HeapFault (State (PurvaRun U)) := purvaStIn s (a + 4#32) v

/-- `memmove(purva__arena(r, to), purva__arena(r, from), n)`. -/
def memmoveIn (to_ from_ : Word) (n : Nat) : Except HeapFault (State (PurvaRun U)) :=
  check .outside (InBuffer s to_ n ∧ InBuffer s from_ n)
    (memmove s (purvaArena s to_) (purvaArena s from_) n)

end

/-- The search of `purva__free`. -/
def freeWalkIn (s : State (PurvaRun U)) (bp : Word) : Nat → Word → Except HeapFault Word
  | 0, _ => .error .lost
  | n + 1, p => do
    let next ← purvaNextIn s p
    if bp > p ∧ bp < next then .ok p
    else if p ≥ next ∧ (bp > p ∨ bp < next) then .ok p
    else freeWalkIn s bp n next

/-- The step of `purva__free` that looks at the next node. -/
def freeNextIn (s : State (PurvaRun U)) (p bp : Word) : Except HeapFault (State (PurvaRun U)) := do
  let size ← purvaSizeIn s bp
  let next ← purvaNextIn s p
  if bp + size * PURVA_HUNIT = next then
    let nextSize ← purvaSizeIn s next
    let s ← purvaSetSizeIn s bp (size + nextSize)
    let next ← purvaNextIn s p
    let next ← purvaNextIn s next
    purvaSetNextIn s bp next
  else purvaSetNextIn s bp next

/-- The step that looks at the node before. -/
def freePrevIn (s : State (PurvaRun U)) (p bp : Word) : Except HeapFault (State (PurvaRun U)) := do
  let size ← purvaSizeIn s p
  if p + size * PURVA_HUNIT = bp then
    let bpSize ← purvaSizeIn s bp
    let s ← purvaSetSizeIn s p (size + bpSize)
    let next ← purvaNextIn s bp
    purvaSetNextIn s p next
  else purvaSetNextIn s p bp

/-- `purva__free`. -/
def purvaFreeIn (steps : Nat) (s : State (PurvaRun U)) (ap : Word) :
    Except HeapFault (State (PurvaRun U)) := do
  let bp := ap - PURVA_HUNIT
  let p ← freeWalkIn s bp steps s.host.freep
  let s ← freeNextIn s p bp
  let s ← freePrevIn s p bp
  .ok (setFreep s p)

/-- `purva__morecore`. -/
def purvaMorecoreIn (steps : Nat) (s : State (PurvaRun U)) (nu : Word) :
    Except HeapFault (State (PurvaRun U) × Word) :=
  let nu := if nu < 4096#32 then 4096#32 else nu
  let bytes := nu * PURVA_HUNIT
  if s.host.heap_brk.toNat + bytes.toNat > s.host.heap_top.toNat then .ok (s, 0#32)
  else do
    let up := s.host.heap_brk
    let s := setBrk s (up + bytes)
    let s ← purvaSetSizeIn s up nu
    let s ← purvaFreeIn steps s (up + PURVA_HUNIT)
    .ok (s, s.host.freep)

/-- What `purva__malloc` does once the block at `p`, of `size` units, is large enough. -/
def takenIn (s : State (PurvaRun U)) (prevp p size nunits : Word) :
    Except HeapFault (State (PurvaRun U) × Word) :=
  if size = nunits then do
    let next ← purvaNextIn s p
    let s ← purvaSetNextIn s prevp next
    .ok (setFreep s prevp, p + PURVA_HUNIT)
  else do
    let s ← purvaSetSizeIn s p (size - nunits)
    let size ← purvaSizeIn s p
    let p := p + size * PURVA_HUNIT
    let s ← purvaSetSizeIn s p nunits
    .ok (setFreep s prevp, p + PURVA_HUNIT)

/-- The loop of `purva__malloc`. -/
def mallocWalkIn (steps : Nat) (nunits : Word) :
    Nat → State (PurvaRun U) → Word → Word → Except HeapFault (State (PurvaRun U) × Word)
  | 0, _, _, _ => .error .lost
  | n + 1, s, prevp, p => do
    let size ← purvaSizeIn s p
    if size ≥ nunits then takenIn s prevp p size nunits
    else if p = s.host.freep then
      let (s, p) ← purvaMorecoreIn steps s nunits
      if p = 0#32 then .ok (s, 0#32)
      else
        let next ← purvaNextIn s p
        mallocWalkIn steps nunits n s p next
    else
      let next ← purvaNextIn s p
      mallocWalkIn steps nunits n s p next

/-- `purva__malloc`. -/
def purvaMallocIn (steps : Nat) (s : State (PurvaRun U)) (nbytes : Word) :
    Except HeapFault (State (PurvaRun U) × Word) :=
  if nbytes = 0#32 then .ok (s, 0#32)
  else do
    let nunits := (nbytes + PURVA_HUNIT - 1#32) / PURVA_HUNIT + 1#32
    let next ← purvaNextIn s s.host.freep
    mallocWalkIn steps nunits steps s s.host.freep next

/-- The end of `purva__realloc`: the copy to `np`, and the old block freed. -/
def movedIn (steps : Nat) (s : State (PurvaRun U)) (np ap : Word) (n : Nat) :
    Except HeapFault (State (PurvaRun U) × Word) :=
  if np = 0#32 then .ok (s, 0#32)
  else do
    let s ← memmoveIn s np ap n
    let s ← purvaFreeIn steps s ap
    .ok (s, np)

/-- `purva__realloc`. -/
def purvaReallocIn (steps : Nat) (s : State (PurvaRun U)) (ap n : Word) :
    Except HeapFault (State (PurvaRun U) × Word) :=
  if ap = 0#32 then purvaMallocIn steps s n
  else if n = 0#32 then do
    let s ← purvaFreeIn steps s ap
    .ok (s, 0#32)
  else do
    let size ← purvaSizeIn s (ap - PURVA_HUNIT)
    let oldbytes := (size - 1#32) * PURVA_HUNIT
    if oldbytes ≥ n then .ok (s, ap)
    else
      let (s, np) ← purvaMallocIn steps s n
      movedIn steps s np ap (if oldbytes < n then oldbytes else n).toNat

/-- The end of `purva__on_ecall`. -/
def answerIn (ret : Except HeapFault (State (PurvaRun U) × Word)) :
    Except HeapFault (State (PurvaRun U) × Bool) := do
  let (s, ret) ← ret
  .ok (s.setX 10#5 ret, false)

/-- `purva__on_ecall`; the hostcalls that are not the allocator's are as they are. -/
def onEcallIn (cb : PurvaCallbacks U) (steps : Nat) (s : State (PurvaRun U)) :
    Except HeapFault (State (PurvaRun U) × Bool) :=
  let a0 := s.x 10#5
  let a1 := s.x 11#5
  match (s.x 17#5).toNat with
  | 2 => answerIn (purvaMallocIn steps s a0)
  | 3 =>
    if a0 = 0#32 then answerIn (.ok (s, 0#32))
    else answerIn do
      let s ← purvaFreeIn steps s a0
      .ok (s, 0#32)
  | 4 => answerIn (purvaReallocIn steps s a0 a1)
  | _ => .ok (purvaOnEcall cb steps s)

/-! ## The checks aside -/

section
variable (s : State (PurvaRun U)) (a v : Word)

theorem purvaNextIn_tracks : Tracks .outside (purvaNextIn s a) (some (purvaNext s a)) := .check _

theorem purvaSizeIn_tracks : Tracks .outside (purvaSizeIn s a) (some (purvaSize s a)) := .check _

theorem purvaSetNextIn_tracks :
    Tracks .outside (purvaSetNextIn s a v) (some (purvaSetNext s a v)) := .check _

theorem purvaSetSizeIn_tracks :
    Tracks .outside (purvaSetSizeIn s a v) (some (purvaSetSize s a v)) := .check _

end

theorem freeWalkIn_tracks (s : State (PurvaRun U)) (bp : Word) (n : Nat) (p : Word) :
    Tracks .outside (freeWalkIn s bp n p) (freeWalk s bp n p) := by
  induction n generalizing p with
  | zero => exact .other _
  | succ n ih =>
    refine (purvaNextIn_tracks s p).then ?_
    rw [freeWalk]
    split
    · exact .ok p
    · split
      · exact .ok p
      · exact ih _

theorem freeNextIn_tracks (s : State (PurvaRun U)) (p bp : Word) :
    Tracks .outside (freeNextIn s p bp) (some (freeNext s p bp)) := by
  refine (purvaSizeIn_tracks s bp).then ((purvaNextIn_tracks s p).then ?_)
  unfold freeNext
  split
  · refine (purvaSizeIn_tracks s _).then ((purvaSetSizeIn_tracks s _ _).then ?_)
    refine (purvaNextIn_tracks _ p).then ((purvaNextIn_tracks _ _).then ?_)
    exact purvaSetNextIn_tracks _ _ _
  · exact purvaSetNextIn_tracks s _ _

theorem freePrevIn_tracks (s : State (PurvaRun U)) (p bp : Word) :
    Tracks .outside (freePrevIn s p bp) (some (freePrev s p bp)) := by
  refine (purvaSizeIn_tracks s p).then ?_
  unfold freePrev
  split
  · refine (purvaSizeIn_tracks s bp).then ((purvaSetSizeIn_tracks s _ _).then ?_)
    exact (purvaNextIn_tracks _ bp).then (purvaSetNextIn_tracks _ _ _)
  · exact purvaSetNextIn_tracks s _ _

theorem purvaFreeIn_tracks (steps : Nat) (s : State (PurvaRun U)) (ap : Word) :
    Tracks .outside (purvaFreeIn steps s ap) (purvaFree steps s ap) := by
  rw [purvaFree_eq, Option.map_eq_bind]
  refine (freeWalkIn_tracks s _ steps _).bind fun p => ?_
  refine (freeNextIn_tracks s p _).then ((freePrevIn_tracks _ p _).then ?_)
  exact .ok _

theorem purvaMorecoreIn_tracks (steps : Nat) (s : State (PurvaRun U)) (nu : Word) :
    Tracks .outside (purvaMorecoreIn steps s nu) (purvaMorecore steps s nu) := by
  unfold purvaMorecoreIn purvaMorecore
  simp only
  generalize (if nu < 4096#32 then 4096#32 else nu) = nu
  split
  · exact .ok _
  · rw [Option.map_eq_bind]
    refine (purvaSetSizeIn_tracks _ _ _).then ?_
    exact (purvaFreeIn_tracks steps _ _).bind fun s => .ok _

theorem takenIn_tracks (s : State (PurvaRun U)) (prevp p nunits : Word) :
    Tracks .outside (takenIn s prevp p (purvaSize s p) nunits) (some (taken s prevp p nunits)) := by
  unfold takenIn taken
  split
  · exact (purvaNextIn_tracks s p).then ((purvaSetNextIn_tracks s _ _).then (.ok _))
  · refine (purvaSetSizeIn_tracks s p _).then ((purvaSizeIn_tracks _ p).then ?_)
    exact (purvaSetSizeIn_tracks _ _ _).then (.ok _)

theorem mallocWalkIn_tracks (steps : Nat) (nunits : Word) (n : Nat) (s : State (PurvaRun U))
    (prevp p : Word) :
    Tracks .outside (mallocWalkIn steps nunits n s prevp p)
      (mallocWalk steps nunits n s prevp p) := by
  induction n generalizing s prevp p with
  | zero => exact .other _
  | succ n ih =>
    rw [mallocWalk_succ]
    refine (purvaSizeIn_tracks s p).then ?_
    split
    · exact takenIn_tracks s prevp p nunits
    · split
      · have hmore := purvaMorecoreIn_tracks steps s nunits
        unfold grown
        cases hm : purvaMorecore steps s nunits with
        | none =>
          rw [hm] at hmore
          exact hmore.fails _
        | some o =>
          rw [hm] at hmore
          refine hmore.then ?_
          simp only
          split
          · exact .ok _
          · exact (purvaNextIn_tracks o.1 o.2).then (ih _ _ _)
      · exact (purvaNextIn_tracks s p).then (ih _ _ _)

theorem purvaMallocIn_tracks (steps : Nat) (s : State (PurvaRun U)) (nbytes : Word) :
    Tracks .outside (purvaMallocIn steps s nbytes) (purvaMalloc steps s nbytes) := by
  unfold purvaMallocIn purvaMalloc
  split
  · exact .ok _
  · exact (purvaNextIn_tracks s _).then (mallocWalkIn_tracks steps _ steps s _ _)

theorem purvaReallocIn_tracks (steps : Nat) (s : State (PurvaRun U)) (ap n : Word) :
    Tracks .outside (purvaReallocIn steps s ap n) (purvaRealloc steps s ap n) := by
  unfold purvaReallocIn purvaRealloc
  split
  · exact purvaMallocIn_tracks steps s n
  split
  · rw [Option.map_eq_bind]
    exact (purvaFreeIn_tracks steps s ap).bind fun s => .ok _
  refine (purvaSizeIn_tracks s _).then ?_
  simp only
  generalize (purvaSize s (ap - PURVA_HUNIT) - 1#32) * PURVA_HUNIT = oldbytes
  split
  · exact .ok _
  · have hmalloc := purvaMallocIn_tracks steps s n
    cases hm : purvaMalloc steps s n with
    | none =>
      rw [hm] at hmalloc
      exact hmalloc.fails _
    | some o =>
      rw [hm] at hmalloc
      refine hmalloc.then ?_
      unfold movedIn
      simp only
      split
      · exact .ok _
      · rw [Option.map_eq_bind]
        exact (Tracks.check _).then ((purvaFreeIn_tracks steps _ ap).bind fun s => .ok _)

theorem answerIn_tracks (s : State (PurvaRun U))
    {ret : Except HeapFault (State (PurvaRun U) × Word)} {o : Option (State (PurvaRun U) × Word)}
    (h : Tracks .outside ret o) (hin : answerIn ret ≠ .error .outside) :
    answer s o = (answerIn ret).toOption.getD (setStatus s .lost, true) := by
  cases ret with
  | error e =>
    have ho := h (fun he => hin (by cases he; rfl))
    rw [← ho]
    rfl
  | ok o' =>
    have ho := h (fun he => by cases he)
    rw [← ho]
    rfl

/-- **The checks aside, the hook is the one without**: unless an access is outside the buffer, it
does the same, or its walk is not over either. -/
theorem onEcallIn_tracks (cb : PurvaCallbacks U) (steps : Nat) (s : State (PurvaRun U))
    (hin : onEcallIn cb steps s ≠ .error .outside) :
    purvaOnEcall cb steps s =
      (onEcallIn cb steps s).toOption.getD (setStatus s .lost, true) := by
  unfold onEcallIn at hin ⊢
  simp only at hin ⊢
  split at hin
  · rename_i hfn
    simp only [purvaOnEcall, hfn]
    exact answerIn_tracks s (purvaMallocIn_tracks steps s _) hin
  · rename_i hfn
    simp only [purvaOnEcall, hfn]
    split at hin
    · rw [if_pos ‹_›, if_pos ‹_›]
      exact answerIn_tracks s (.ok _) hin
    · rw [if_neg ‹_›, if_neg ‹_›]
      refine answerIn_tracks s ?_ hin
      rw [Option.map_eq_bind]
      exact (purvaFreeIn_tracks steps s _).bind fun s => .ok _
  · rename_i hfn
    simp only [purvaOnEcall, hfn]
    exact answerIn_tracks s (purvaReallocIn_tracks steps s _ _) hin
  · rfl

end Purv.Purva

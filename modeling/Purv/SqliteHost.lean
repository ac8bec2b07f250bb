import Purv.Purva

/-!
# The illegal-instruction handler of the sqlite host (`sqlite/host.c`)

The handler runs the bulk memory instruction for the engines that have no op for it.

* `onIllegal` — the handler;
* `Clobbers` — the bulk memory instructions that write `x0`;
* `purvMemop_zero`, `onIllegal_zero` — the other ones leave it zero.
-/

namespace Purv.Purva

open Bits

variable {H U : Type}

/-- What the host keeps: `g_halt`, `g_exit`, and the rest. -/
structure SqliteHost (U : Type) where
  g_halt : Bool
  g_exit : Word
  rest : U

/-- The raw instruction is the bulk memory one. -/
def isMemop (w : Word) : Bool := w &&& 0x7f#32 == 0x0b#32 && w >>> 25 == 0#32

/-- `on_illegal`, with the callback that the state points to. -/
def onIllegal (callback : Option (MemFn (SqliteHost U))) : TrapFn (SqliteHost U) := fun s =>
  let w := s.inst
  if isMemop w then
    ((purvMemop ⟨none, none, none, callback⟩ ⟨s, []⟩ (w >>> 12 &&& 7#32).toNat
      (w.extractLsb' 7 5) (w.extractLsb' 15 5) (w.extractLsb' 20 5)).1.s, false)
  else ({ s with host := { s.host with g_halt := true, g_exit := 1#32 } }, true)

/-! ## `x0` -/

/-- `x0` is zero. -/
def Zero (s : State H) : Prop := s.x 0#5 = 0#32

/-- The callback leaves `x0` alone. -/
def KeepsZero (callback : Option (MemFn H)) : Prop :=
  ∀ f, callback = some f → ∀ s op a v, (f s op a v).1.x 0#5 = s.x 0#5

/-- A scan into `x0` that finds memory at the address in `x0`. -/
def Clobbers (s : State H) (f3 : Nat) (rd : Reg) : Prop :=
  rd = 0#5 ∧ 2 ≤ f3 ∧ (pmoSpan s (s.x 0#5)).isSome

theorem put_zero {r : Run H} {i : Reg} {v : Word} (h0 : Zero r.s) (hi : i ≠ 0#5 ∨ v = 0#32) :
    Zero (put r i v).s := by
  unfold Zero put
  rw [setX_x]
  split
  · rename_i heq
    exact hi.resolve_left fun hne => hne heq.symm
  · exact h0

theorem wr_zero_reg {r : Run H} (h0 : Zero r.s) (i : Reg) (v : Word) : Zero (r.wr i v).s :=
  (wr_x_zero r.s i v).trans h0

section
variable {h : Hooks H} (hcb : KeepsZero h.callback)
include hcb

theorem callback_zero {r : Run H} (h0 : Zero r.s) (op : MemOp) (a v : Word) :
    Zero (r.callback h op a v).1.s := by
  unfold Run.callback
  split
  · exact h0
  · rename_i f hf
    exact (hcb f hf r.s op a v).trans h0

theorem copyByte_zero {r : Run H} (h0 : Zero r.s) (to_ from_ : Word) :
    Zero (copyByte h r to_ from_).s := by
  have hread := callback_zero hcb h0 .load from_ 0#32
  unfold copyByte
  simp only
  cases pmoSpan r.s from_ with
  | some q =>
    simp only
    split
    · exact h0
    · exact callback_zero hcb h0 _ _ _
  | none =>
    simp only
    split
    · exact hread
    · exact callback_zero hcb hread _ _ _

theorem fillByte_zero {r : Run H} (h0 : Zero r.s) (to_ v : Word) : Zero (fillByte h r to_ v).s := by
  unfold fillByte
  split
  · exact h0
  · exact callback_zero hcb h0 _ _ _

omit hcb in
theorem foldl_zero {step : Run H → Nat → Run H} (hstep : ∀ r i, Zero r.s → Zero (step r i).s)
    (is : List Nat) {r : Run H} (h0 : Zero r.s) : Zero (is.foldl step r).s := by
  induction is generalizing r with
  | nil => exact h0
  | cons i is ih => exact ih (hstep r i h0)

omit hcb in
/-- Nothing is found where there is nothing to scan. -/
theorem firstIndex_zero (p : Nat → Bool) : firstIndex p 0 = none := rfl

omit hcb in
theorem getD_zero {o : Option (Run H)} {r : Run H} (ho : ∀ q, o = some q → Zero q.s)
    (h0 : Zero r.s) : Zero (o.getD r).s := by
  cases o with
  | none => exact h0
  | some q => exact ho q rfl

/-- A copy and a fill write no register. -/
theorem moves_zero {r : Run H} (h0 : Zero r.s) (rd rs1 rs2 : Reg) :
    Zero (purvMemop h r 0 rd rs1 rs2).1.s ∧ Zero (purvMemop h r 1 rd rs1 rs2).1.s := by
  constructor
  · unfold purvMemop
    simp only
    refine getD_zero (fun q hq => ?_) (foldl_zero (fun r i hr => copyByte_zero hcb hr _ _) _ h0)
    split at hq
    · split at hq
      · cases hq
        exact h0
      · cases hq
    · cases hq
  · unfold purvMemop
    simp only
    refine getD_zero (fun q hq => ?_) (foldl_zero (fun r i hr => fillByte_zero hcb hr _ _) _ h0)
    split at hq
    · split at hq
      · cases hq
        exact h0
      · cases hq
    · cases hq

omit hcb in
/-- A scan writes its register. -/
theorem scans_put (h : Hooks H) (r : Run H) {f3 : Nat} (hf3 : 2 ≤ f3) (rd rs1 rs2 : Reg) :
    ∃ v, (purvMemop h r f3 rd rs1 rs2).1 = put r rd v := by
  unfold purvMemop
  simp only
  split
  · omega
  · omega
  all_goals
    first
      | exact ⟨_, rfl⟩
      | split
        · exact ⟨_, rfl⟩
        · exact ⟨_, rfl⟩

omit hcb in
/-- A scan of nothing answers 0. -/
theorem scans_none (h : Hooks H) (r : Run H) {f3 : Nat} (hf3 : 2 ≤ f3) (rd rs1 rs2 : Reg)
    (hnone : pmoSpan r.s (r.s.x rd) = none) :
    (purvMemop h r f3 rd rs1 rs2).1 = put r rd 0#32 := by
  have hav : avail (none : Option (Ptr × Nat)) = 0 := rfl
  unfold purvMemop
  simp only [hnone, hav, Nat.min_zero, Nat.zero_min, firstIndex_zero]
  split
  · omega
  · omega
  all_goals rfl

/-- **The bulk memory instruction leaves `x0` zero**, unless it scans memory into it. -/
theorem purvMemop_zero {r : Run H} (h0 : Zero r.s) {f3 : Nat} {rd : Reg} (rs1 rs2 : Reg)
    (hc : ¬ Clobbers r.s f3 rd) : Zero (purvMemop h r f3 rd rs1 rs2).1.s := by
  by_cases hf3 : 2 ≤ f3
  · by_cases hrd : rd = 0#5
    · have hnone : pmoSpan r.s (r.s.x rd) = none := by
        rw [hrd, ← Option.not_isSome_iff_eq_none]
        exact fun hs => hc ⟨hrd, hf3, hs⟩
      rw [scans_none h r hf3 rd rs1 rs2 hnone]
      exact put_zero h0 (.inr rfl)
    · obtain ⟨v, hv⟩ := scans_put h r hf3 rd rs1 rs2
      rw [hv]
      exact put_zero h0 (.inl hrd)
  · obtain ⟨hcopy, hfill⟩ := moves_zero hcb h0 rd rs1 rs2
    obtain rfl | rfl : f3 = 0 ∨ f3 = 1 := by omega
    · exact hcopy
    · exact hfill

end

/-- What the handler is given is a bulk memory instruction that scans memory into `x0`. -/
def IllegalClobbers (s : State H) : Prop :=
  isMemop s.inst ∧ Clobbers s (s.inst >>> 12 &&& 7#32).toNat (s.inst.extractLsb' 7 5)

/-- **The handler leaves `x0` zero**, unless its instruction scans memory into it. -/
theorem onIllegal_zero {callback : Option (MemFn (SqliteHost U))} (hcb : KeepsZero callback)
    {s : State (SqliteHost U)} (h0 : Zero s) (hc : ¬ IllegalClobbers s) :
    Zero (onIllegal callback s).1 := by
  unfold onIllegal
  simp only
  split
  · rename_i hw
    exact @purvMemop_zero _ ⟨none, none, none, callback⟩ hcb ⟨s, []⟩ h0 _ _ _ _
      fun hcl => hc ⟨hw, hcl⟩
  · exact h0

end Purv.Purva

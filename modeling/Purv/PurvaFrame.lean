import Purv.PurvaFuse
import Mathlib.Data.List.Sort

/-!
# Prologues and epilogues

The op word of a frame keeps its size and a mask of registers.  The places are derived: the
registers in the order of their ranks, from the top of the frame down.

* `slots` — those places;
* `saveAt`, `restAt` — one save and one restore, with a callback that is a fixed function;
* `saveFast_slow`, `restFast_slow` — the check of one band stands in for every translation;
* `frameCanonical_slots` — a canonical set of saves is the slots of its mask, in some order;
* `prologue_replays`, `epilogue_replays` — the op does what the run of instructions does.
-/

namespace Purv.Purva

open Bits Transcode

variable {H : Type}

/-! ## Saves and restores -/

/-- The places of `regs` below `top`, one word each. -/
def slots (top : Word) : List Reg → List (Reg × Word)
  | [] => []
  | i :: regs => (i, top - 4#32) :: slots (top - 4#32) regs

/-- The memory callback is a fixed function of the operation and the address. -/
def Hooks.IsFixed (h : Hooks H) (g : MemOp → Word → Word) : Prop :=
  h.callback = some fun s op a _ => (s, g op a)

/-- One save. -/
def saveAt (s : State H) (p : Reg × Word) : State H :=
  match memW s p.2 4#32 with
  | some q => stLe s q 4 (s.x p.1)
  | none => s

/-- The word at `a`. -/
def wordOf (g : MemOp → Word → Word) (s : State H) (a : Word) : Word :=
  match memR s a 4#32 with
  | some q => ldLe s q 4
  | none => g .load a

/-- One restore. -/
def restAt (g : MemOp → Word → Word) (s : State H) (p : Reg × Word) : State H :=
  s.setX p.1 (wordOf g s p.2)

section
variable {h : Hooks H} {g : MemOp → Word → Word} (hfix : Hooks.IsFixed h g) (r : Run H)
include hfix

theorem store_s (a : Word) (i : Reg) : (store h r a (r.s.x i) 4).s = saveAt r.s (i, a) := by
  unfold store saveAt
  show (match memW r.s a 4#32 with
    | some q => ({ r with s := stLe r.s q 4 (r.s.x i) } : Run H)
    | none => (r.callback h .store a (r.s.x i)).1).s = _
  cases memW r.s a 4#32 with
  | some q => rfl
  | none =>
    simp only
    unfold Run.callback
    rw [hfix]

theorem load_s (a : Word) : (load h r a 4).1.s = r.s ∧ (load h r a 4).2 = wordOf g r.s a := by
  unfold load wordOf
  show (match memR r.s a 4#32 with
    | some q => (r, ldLe r.s q 4)
    | none => r.callback h .load a 0#32).1.s = _ ∧ (match memR r.s a 4#32 with
    | some q => (r, ldLe r.s q 4)
    | none => r.callback h .load a 0#32).2 = _
  cases memR r.s a 4#32 with
  | some q => exact ⟨rfl, rfl⟩
  | none =>
    simp only
    unfold Run.callback
    rw [hfix]
    exact ⟨rfl, rfl⟩

/-- The slow paths, slot by slot. -/
theorem prologueSlow_s (top : Word) (regs : List Reg) :
    (prologueSlow h r top regs).s = (slots top regs).foldl saveAt r.s := by
  induction regs generalizing r top with
  | nil => rfl
  | cons i regs ih =>
    rw [prologueSlow, ih, store_s hfix]
    rfl

theorem epilogueSlow_s (top : Word) (regs : List Reg) :
    (epilogueSlow h r top regs).s = (slots top regs).foldl (restAt g) r.s := by
  induction regs generalizing r top with
  | nil => rfl
  | cons i regs ih =>
    obtain ⟨hs, hv⟩ := load_s hfix r (top - 4#32)
    rw [epilogueSlow]
    simp only
    rw [ih]
    show (slots (top - 4#32) regs).foldl (restAt g)
      ((load h r (top - 4#32) 4).1.s.setX i (load h r (top - 4#32) 4).2) = _
    rw [hs, hv]
    rfl

end

/-! ## One band -/

theorem stLe_x (s : State H) (q : Ptr) (n : Nat) (v : Word) : (stLe s q n v).x = s.x := by
  unfold stLe
  simp only
  split <;> split <;> rfl

theorem stLe_writable (s : State H) (q : Ptr) (n : Nat) (v : Word) :
    (stLe s q n v).writable = s.writable := by
  unfold stLe
  simp only
  split <;> split <;> rfl

theorem stLe_readonly (s : State H) (q : Ptr) (n : Nat) (v : Word) :
    (stLe s q n v).readonly = s.readonly := by
  unfold stLe
  simp only
  split <;> split <;> rfl

/-- The translation of a slot in the band. -/
theorem memW_slot {s : State H} {top : Word} (hlo : 4 ≤ (top - s.writable.base).toNat)
    (hhi : (top - s.writable.base).toNat ≤ s.writable.len.toNat) :
    memW s (top - 4#32) 4#32 =
        some (s.writable.ptr, (top - s.writable.base).toNat - 4) ∧
      (top - 4#32 - s.writable.base).toNat = (top - s.writable.base).toNat - 4 := by
  have hrel : (top - 4#32 - s.writable.base).toNat = (top - s.writable.base).toNat - 4 := by
    have hcomm : top - 4#32 - s.writable.base = top - s.writable.base - 4#32 := by
      rw [BitVec.sub_sub, BitVec.sub_sub, BitVec.add_comm]
    rw [hcomm, BitVec.toNat_sub_of_le (by rw [BitVec.le_def]; exact hlo)]
    rfl
  refine ⟨?_, hrel⟩
  unfold memW Region.hit
  simp only
  have hlt : top - 4#32 - s.writable.base < s.writable.len := by
    rw [BitVec.lt_def, hrel]
    omega
  have hfit : 4#32 ≤ s.writable.len - (top - 4#32 - s.writable.base) := by
    rw [BitVec.le_def, BitVec.toNat_sub_of_le (BitVec.le_of_lt hlt), hrel]
    show 4 ≤ _
    omega
  rw [if_pos ⟨hlt, hfit⟩, hrel]
  rfl

/-- `frame_top` answers when the band below `top` is in the writable region. -/
theorem frameTop_some {s : State H} (hlen : FRAME_SAVE_SPAN ≤ s.writable.len) {top : Word} {q : Ptr}
    (hq : frameTop s top = some q) :
    q = (s.writable.ptr, (top - s.writable.base).toNat) ∧
      52 ≤ (top - s.writable.base).toNat ∧
      (top - s.writable.base).toNat ≤ s.writable.len.toNat := by
  unfold frameTop at hq
  simp only at hq
  split at hq
  · rename_i hle
    cases hq
    refine ⟨rfl, ?_⟩
    unfold FRAME_SAVE_SPAN at *
    rw [BitVec.le_def, BitVec.toNat_sub_of_le hlen, BitVec.toNat_sub] at hle
    rw [BitVec.le_def] at hlen
    have hrel := (top - s.writable.base).isLt
    have hmax := s.writable.len.isLt
    change 52 ≤ _ at hlen
    change (2 ^ 32 - 52 + (top - s.writable.base).toNat) % 2 ^ 32 ≤ s.writable.len.toNat - 52 at hle
    omega
  · cases hq

/-- **The fast saves are the slow ones**, in a band with a word for each register. -/
theorem saveFast_slow (h : Hooks H) (r : Run H) (regs : List Reg) {top : Word} {b : Buf} {q : Nat}
    (hb : b = r.s.writable.ptr) (hq : q = (top - r.s.writable.base).toNat)
    (hlo : 4 * regs.length ≤ q) (hhi : q ≤ r.s.writable.len.toNat) :
    saveFast r b q regs = prologueSlow h r top regs := by
  induction regs generalizing r top q with
  | nil => rfl
  | cons i regs ih =>
    rw [List.length_cons] at hlo
    obtain ⟨hw, hrel⟩ := @memW_slot H r.s top (by omega) (by omega)
    have hstore : store h r (top - 4#32) (r.s.x i) 4 =
        { r with s := stLe r.s (b, q - 4) 4 (r.s.x i) } := by
      unfold store
      show (match memW r.s (top - 4#32) 4#32 with
        | some q => ({ r with s := stLe r.s q 4 (r.s.x i) } : Run H)
        | none => (r.callback h .store (top - 4#32) (r.s.x i)).1) = _
      rw [hw, hb, hq]
    rw [saveFast, prologueSlow, hstore]
    refine ih _ ?_ ?_ (by omega) ?_
    · exact hb.trans (congrArg Region.ptr (stLe_writable _ _ _ _)).symm
    · show q - 4 = (top - 4#32 - (stLe _ _ _ _).writable.base).toNat
      rw [stLe_writable, hrel, hq]
    · show q - 4 ≤ (stLe _ _ _ _).writable.len.toNat
      rw [stLe_writable]
      omega

/-- **The fast restores are the slow ones.** -/
theorem restFast_slow (h : Hooks H) (r : Run H) (regs : List Reg) {top : Word} {b : Buf} {q : Nat}
    (hb : b = r.s.writable.ptr) (hq : q = (top - r.s.writable.base).toNat)
    (hlo : 4 * regs.length ≤ q) (hhi : q ≤ r.s.writable.len.toNat) :
    restFast r b q regs = epilogueSlow h r top regs := by
  induction regs generalizing r top q with
  | nil => rfl
  | cons i regs ih =>
    rw [List.length_cons] at hlo
    obtain ⟨hw, hrel⟩ := @memW_slot H r.s top (by omega) (by omega)
    have hload : load h r (top - 4#32) 4 = (r, ldLe r.s (b, q - 4) 4) := by
      unfold load memR
      show (match (match memW r.s (top - 4#32) 4#32 with
          | some q => some q
          | none => _) with
        | some q => (r, ldLe r.s q 4)
        | none => r.callback h .load (top - 4#32) 0#32) = _
      rw [hw, hb, hq]
    rw [restFast, epilogueSlow, hload]
    refine ih _ hb ?_ (by omega) ?_
    · show q - 4 = (top - 4#32 - r.s.writable.base).toNat
      rw [hrel, hq]
    · show q - 4 ≤ r.s.writable.len.toNat
      omega

theorem maskRegs_length (rmask : Word) : (maskRegs rmask).length ≤ 13 := by
  unfold maskRegs
  exact Nat.le_trans (List.length_filterMap_le _ _) (Nat.le_of_eq List.length_range)

/-! ## The places of a canonical frame -/

theorem slots_length (top : Word) (regs : List Reg) : (slots top regs).length = regs.length := by
  induction regs generalizing top with
  | nil => rfl
  | cons i regs ih => rw [slots, List.length_cons, List.length_cons, ih]

theorem slots_fst (top : Word) (regs : List Reg) : (slots top regs).map Prod.fst = regs := by
  induction regs generalizing top with
  | nil => rfl
  | cons i regs ih => rw [slots, List.map_cons, ih]

/-- The `k`-th slot is `k + 1` words below the top. -/
theorem mem_slots {top : Word} {regs : List Reg} {x : Reg × Word} (hx : x ∈ slots top regs) :
    ∃ k < regs.length, x.2 = top - 4#32 * BitVec.ofNat 32 (k + 1) ∧ regs[k]? = some x.1 := by
  induction regs generalizing top with
  | nil => cases hx
  | cons i regs ih =>
    rw [slots, List.mem_cons] at hx
    rcases hx with rfl | hx
    · exact ⟨0, by rw [List.length_cons]; omega, rfl, rfl⟩
    · obtain ⟨k, hk, ha, hi⟩ := ih hx
      refine ⟨k + 1, by rw [List.length_cons]; omega, ?_, hi⟩
      rw [ha, BitVec.ofNat_add (k + 1) 1, BitVec.mul_add, BitVec.sub_sub, BitVec.add_comm]
      rfl

/-- Two words that do not overlap. -/
def Apart (a b : Word) : Prop := 4 ≤ (a - b).toNat ∧ 4 ≤ (b - a).toNat

theorem slots_apart {top : Word} {regs : List Reg} (h13 : regs.length ≤ 13) {x y : Reg × Word}
    (hx : x ∈ slots top regs) (hy : y ∈ slots top regs) (hne : x ≠ y) : Apart x.2 y.2 := by
  obtain ⟨k, hk, ha, hi⟩ := mem_slots hx
  obtain ⟨l, hl, hb, hj⟩ := mem_slots hy
  have hkl : k ≠ l := by
    rintro rfl
    rw [hi, Option.some.injEq] at hj
    exact hne (Prod.ext hj (ha.trans hb.symm))
  have hmul : ∀ n : Nat, n ≤ 13 → (4#32 * BitVec.ofNat 32 n : Word).toNat = 4 * n := fun n hn => by
    rw [BitVec.toNat_mul, BitVec.toNat_ofNat, BitVec.toNat_ofNat]
    omega
  have hk4 := hmul (k + 1) (by omega)
  have hl4 := hmul (l + 1) (by omega)
  have hdiff : ∀ u v : Word, top - u - (top - v) = v - u := fun u v => by grind
  unfold Apart
  rw [ha, hb, hdiff, hdiff, BitVec.toNat_sub, BitVec.toNat_sub, hk4, hl4]
  omega

/-- The registers with a rank. -/
theorem rank_reg : ∀ i : Reg, 0 ≤ rankOf i → (rankOf i).toNat < 13 ∧
    rank2reg.getD (rankOf i).toNat 0#5 = i ∧ i ≠ 0#5 ∧ i ≠ 2#5 := by
  decide

theorem filterMap_if (l : List Nat) (p : Nat → Bool) (f : Nat → Reg) :
    (l.filterMap fun b => if p b then some (f b) else none) = (l.filter p).map f := by
  induction l with
  | nil => rfl
  | cons b l ih =>
    rw [List.filterMap_cons, List.filter_cons]
    by_cases hp : p b = true
    · simp [hp, ih]
    · simp [hp, ih]

/-- A mask by the ranks of its registers. -/
theorem maskRegs_eq {rmask : Word} {regs : List Reg} (hrank : ∀ i ∈ regs, 0 ≤ rankOf i)
    (hsorted : regs.Pairwise fun i j => rankOf i < rankOf j)
    (hbits : ∀ k < 13, rmask.getLsbD k = decide (k ∈ regs.map fun i => (rankOf i).toNat)) :
    maskRegs rmask = regs := by
  have hranks : (List.range 13).filter (fun b => rmask.getLsbD b) =
      regs.map fun i => (rankOf i).toNat := by
    refine List.Pairwise.eq_of_mem_iff (r := fun a b : Nat => a < b)
      (List.pairwise_lt_range.filter _) ?_ fun k => ?_
    · rw [List.pairwise_map]
      refine hsorted.imp_of_mem fun {i j} hi hj hlt => ?_
      have := hrank i hi
      omega
    · rw [List.mem_filter, List.mem_range]
      constructor
      · rintro ⟨hk, hb⟩
        rwa [hbits k hk, decide_eq_true_eq] at hb
      · intro hk
        have hlt : k < 13 := by
          obtain ⟨i, hi, rfl⟩ := List.mem_map.1 hk
          exact (rank_reg i (hrank i hi)).1
        exact ⟨hlt, by rw [hbits k hlt, decide_eq_true_eq]; exact hk⟩
  unfold maskRegs
  rw [filterMap_if, hranks, List.map_map]
  calc regs.map ((fun b => rank2reg.getD b 0#5) ∘ fun i => (rankOf i).toNat)
      = regs.map id := List.map_congr_left fun i hi => (rank_reg i (hrank i hi)).2.1
    _ = regs := List.map_id _

/-- What the loop of `frame_canonical` has found when it ends. -/
theorem canonicalFrom_spec {saves : List (Reg × Word)} (hrank : ∀ s ∈ saves, 0 ≤ rankOf s.1)
    {N rmask : Word} (left p : Nat) (prev : Int) (m : Word)
    (hc : canonicalFrom saves N left p prev m = some rmask) :
    ∃ regs : List Reg, regs.length = left ∧
      (∀ x ∈ slots (N - 4#32 * BitVec.ofNat 32 p) regs, x ∈ saves) ∧
      (∀ i ∈ regs, prev < rankOf i) ∧ (∀ i ∈ regs, 0 ≤ rankOf i) ∧
      (regs.Pairwise fun i j => rankOf i < rankOf j) ∧
      ∀ k < 13, rmask.getLsbD k =
        (m.getLsbD k || decide (k ∈ regs.map fun i => (rankOf i).toNat)) := by
  induction left generalizing p prev m with
  | zero =>
    cases hc
    refine ⟨[], rfl, nofun, nofun, nofun, List.Pairwise.nil, fun k _ => ?_⟩
    simp
  | succ left ih =>
    unfold canonicalFrom at hc
    cases hf : saves.find? fun s => s.2 == N - 4#32 - 4#32 * BitVec.ofNat 32 p with
    | none =>
      rw [hf] at hc
      cases hc
    | some s =>
      obtain ⟨r, a⟩ := s
      rw [hf] at hc
      simp only at hc
      split at hc
      · cases hc
      rename_i hprev
      have hmem : (r, a) ∈ saves := List.mem_of_find?_eq_some hf
      have ha : a = N - 4#32 - 4#32 * BitVec.ofNat 32 p := by
        simpa using List.find?_some hf
      have h0 := hrank _ hmem
      have h13 := (rank_reg r h0).1
      obtain ⟨regs, hlen, hsub, hgt, hge, hsorted, hbits⟩ := ih (p + 1) (rankOf r) _ hc
      have hnext : N - 4#32 * BitVec.ofNat 32 p - 4#32 =
          N - 4#32 * BitVec.ofNat 32 (p + 1) := by
        rw [BitVec.ofNat_add p 1, BitVec.mul_add, BitVec.sub_sub]
        rfl
      refine ⟨r :: regs, by rw [List.length_cons, hlen], ?_, ?_, ?_, ?_, ?_⟩
      · intro x hx
        rw [slots, List.mem_cons] at hx
        rcases hx with rfl | hx
        · have hw : N - 4#32 * BitVec.ofNat 32 p - 4#32 = a := by
            rw [ha, BitVec.sub_sub, BitVec.sub_sub, BitVec.add_comm]
          rw [hw]
          exact hmem
        · rw [hnext] at hx
          exact hsub x hx
      · intro i hi
        rcases List.mem_cons.1 hi with rfl | hi
        · omega
        · have := hgt i hi
          omega
      · intro i hi
        rcases List.mem_cons.1 hi with rfl | hi
        · exact h0
        · exact hge i hi
      · exact List.Pairwise.cons hgt hsorted
      · intro k hk
        have hone : (1#32 <<< (rankOf r).toNat : Word).getLsbD k =
            decide (k = (rankOf r).toNat) := by
          rw [BitVec.getLsbD_shiftLeft, BitVec.getLsbD_one]
          by_cases hkr : k = (rankOf r).toNat
          · simp [hkr, show (rankOf r).toNat < 32 by omega]
          · simp only [hkr, decide_false, Bool.and_eq_false_iff]
            by_cases hlt : k < (rankOf r).toNat
            · simp [hlt]
            · right
              simp
              omega
        rw [hbits k hk, BitVec.getLsbD_or, hone, List.map_cons]
        by_cases hkr : k = (rankOf r).toNat
        · simp [hkr]
        · simp [hkr]

/-- **A canonical set of saves is the slots of its mask**, in some order. -/
theorem frameCanonical_slots {saves : List (Reg × Word)} (hrank : ∀ s ∈ saves, 0 ≤ rankOf s.1)
    {N rmask : Word} (hc : frameCanonical saves N = some rmask) :
    saves.Perm (slots N (maskRegs rmask)) ∧ (maskRegs rmask).Nodup ∧
      ∀ i ∈ maskRegs rmask, i ≠ 0#5 ∧ i ≠ 2#5 := by
  obtain ⟨regs, hlen, hsub, -, hge, hsorted, hbits⟩ := canonicalFrom_spec hrank _ 0 (-1) 0#32 hc
  have hmask : maskRegs rmask = regs := maskRegs_eq hge hsorted fun k hk => by
    rw [hbits k hk]
    simp
  have hnodup : regs.Nodup := hsorted.imp fun hlt heq => by
    rw [heq] at hlt
    exact absurd hlt (lt_irrefl _)
  rw [hmask]
  refine ⟨?_, hnodup, fun i hi => (rank_reg i (hge i hi)).2.2⟩
  have hslots : (slots N regs).Nodup := List.Nodup.of_map Prod.fst (by rwa [slots_fst])
  have hN : N - 4#32 * BitVec.ofNat 32 0 = N := by
    show N - 0#32 = N
    exact BitVec.sub_zero N
  rw [hN] at hsub
  exact ((List.subperm_of_subset hslots hsub).perm_of_length_le
    (by rw [slots_length, hlen])).symm

/-! ## The order of saves and restores -/

theorem stLe_four (s : State H) (q : Ptr) (v : Word) :
    stLe s q 4 v = { s with mem := fun b o =>
      if b = q.1 ∧ q.2 ≤ o ∧ o < q.2 + 4 then v.extractLsb' (8 * (o - q.2)) 8 else s.mem b o } := by
  show ({ s with mem := fun b o =>
    if b = q.1 ∧ o = q.2 + 3 then v.extractLsb' 24 8 else
    if b = q.1 ∧ o = q.2 + 2 then v.extractLsb' 16 8 else
    if b = q.1 ∧ o = q.2 + 1 then v.extractLsb' 8 8 else
    if b = q.1 ∧ o = q.2 + 0 then v.extractLsb' 0 8 else s.mem b o } : State H) = _
  congr 1
  funext b o
  by_cases hb : b = q.1
  · by_cases hin : q.2 ≤ o ∧ o < q.2 + 4
    · obtain ⟨k, hk, rfl⟩ : ∃ k < 4, o = q.2 + k := ⟨o - q.2, by omega, by omega⟩
      interval_cases k <;> simp [hb]
    · rw [if_neg (by omega), if_neg (by omega), if_neg (by omega), if_neg (by omega),
        if_neg (by omega)]
  · simp [hb]

theorem stLe_comm (s : State H) {q q' : Ptr} (v v' : Word)
    (hoff : q.2 + 4 ≤ q'.2 ∨ q'.2 + 4 ≤ q.2) :
    stLe (stLe s q 4 v) q' 4 v' = stLe (stLe s q' 4 v') q 4 v := by
  simp only [stLe_four]
  congr 1
  funext b o
  by_cases hq : b = q.1 ∧ q.2 ≤ o ∧ o < q.2 + 4
  · have hq' : ¬ (b = q'.1 ∧ q'.2 ≤ o ∧ o < q'.2 + 4) := by omega
    rw [if_neg hq', if_pos hq, if_pos hq]
  · rw [if_neg hq, if_neg hq]

theorem memW_stLe (s : State H) (q : Ptr) (v a n : Word) : memW (stLe s q 4 v) a n = memW s a n := by
  unfold memW
  rw [stLe_writable]

theorem memW_some {s : State H} {a : Word} {q : Ptr} (hq : memW s a 4#32 = some q) :
    q.2 = (a - s.writable.base).toNat := by
  unfold memW at hq
  obtain ⟨off, hhit, rfl⟩ := Option.map_eq_some_iff.1 hq
  exact (Region.hit_some hhit).1

/-- Saves to words that do not overlap commute. -/
theorem saveAt_comm (s : State H) {x y : Reg × Word} (hxy : Apart x.2 y.2) :
    saveAt (saveAt s x) y = saveAt (saveAt s y) x := by
  unfold saveAt
  cases hx : memW s x.2 4#32 with
  | none =>
    simp only
    cases hy : memW s y.2 4#32 with
    | none => simp only [hx]
    | some q' => simp only [memW_stLe, hx]
  | some q =>
    simp only [memW_stLe, stLe_x]
    cases hy : memW s y.2 4#32 with
    | none => simp only [hx]
    | some q' =>
      simp only [memW_stLe, stLe_x, hx]
      refine stLe_comm s _ _ ?_
      have hsub : ∀ a b : Word, a - b = a - s.writable.base - (b - s.writable.base) := fun a b => by
        bv_omega
      obtain ⟨h1, h2⟩ := hxy
      rw [hsub, BitVec.toNat_sub, ← memW_some hx, ← memW_some hy] at h1 h2
      have hq := memW_some hx ▸ (x.2 - s.writable.base).isLt
      have hq' := memW_some hy ▸ (y.2 - s.writable.base).isLt
      omega

/-- Restores of different registers commute. -/
theorem restAt_comm (g : MemOp → Word → Word) (s : State H) {x y : Reg × Word} (hxy : x.1 ≠ y.1) :
    restAt g (restAt g s x) y = restAt g (restAt g s y) x := by
  show (s.setX x.1 (wordOf g s x.2)).setX y.1 (wordOf g s y.2) =
    (s.setX y.1 (wordOf g s y.2)).setX x.1 (wordOf g s x.2)
  unfold State.setX
  congr 1
  funext j
  by_cases hx : j = x.1
  · simp [hx, hxy]
  · simp [hx]

/-- Saves do not see the stack pointer. -/
theorem saves_setX (s : State H) {i : Reg} (v : Word) (l : List (Reg × Word))
    (hl : ∀ x ∈ l, x.1 ≠ i) : l.foldl saveAt (s.setX i v) = (l.foldl saveAt s).setX i v := by
  induction l generalizing s with
  | nil => rfl
  | cons x l ih =>
    have hx : saveAt (s.setX i v) x = (saveAt s x).setX i v := by
      unfold saveAt
      show (match memW s x.2 4#32 with
        | some q => stLe (s.setX i v) q 4 ((s.setX i v).x x.1)
        | none => s.setX i v) = _
      rw [setX_x, if_neg (hl x List.mem_cons_self)]
      cases memW s x.2 4#32 with
      | none => rfl
      | some q =>
        simp only [stLe_four]
        rfl
    rw [List.foldl_cons, List.foldl_cons, hx]
    exact ih _ fun y hy => hl y (List.mem_cons_of_mem _ hy)

/-- Saves leave the registers alone. -/
theorem saves_x (s : State H) (l : List (Reg × Word)) : (l.foldl saveAt s).x = s.x := by
  induction l generalizing s with
  | nil => rfl
  | cons x l ih =>
    rw [List.foldl_cons, ih]
    unfold saveAt
    split
    · exact stLe_x _ _ _ _
    · rfl

/-- The slots of a frame at `v`, as addresses. -/
theorem slots_map (v N : Word) (regs : List Reg) :
    (slots N regs).map (fun s => (s.1, v + s.2)) = slots (v + N) regs := by
  induction regs generalizing N with
  | nil => rfl
  | cons i regs ih =>
    have hsub : v + (N - 4#32) = v + N - 4#32 := by bv_omega
    rw [slots, slots, List.map_cons, ih, hsub]

section
variable {saves : List (Reg × Word)} (hrank : ∀ s ∈ saves, 0 ≤ rankOf s.1) {N rmask : Word}
  (hc : frameCanonical saves N = some rmask) (s : State H) (v : Word)
include hrank hc

/-- Saves in any order are saves in the order of the ranks. -/
theorem saves_canonical :
    (saves.map fun x => (x.1, v + x.2)).foldl saveAt s =
      (slots (v + N) (maskRegs rmask)).foldl saveAt s := by
  obtain ⟨hperm, -, -⟩ := frameCanonical_slots hrank hc
  have hmap := hperm.map fun x : Reg × Word => (x.1, v + x.2)
  rw [slots_map] at hmap
  refine (hmap.symm.foldl_eq' (fun x hx y hy z => ?_) s).symm
  by_cases hxy : x = y
  · rw [hxy]
  · exact saveAt_comm z (slots_apart (maskRegs_length _) hx hy hxy)

/-- Restores in any order are restores in the order of the ranks. -/
theorem rests_canonical (g : MemOp → Word → Word) :
    (saves.map fun x => (x.1, v + x.2)).foldl (restAt g) s =
      (slots (v + N) (maskRegs rmask)).foldl (restAt g) s := by
  obtain ⟨hperm, hnodup, -⟩ := frameCanonical_slots hrank hc
  have hmap := hperm.map fun x : Reg × Word => (x.1, v + x.2)
  rw [slots_map] at hmap
  refine (hmap.symm.foldl_eq' (fun x hx y hy z => ?_) s).symm
  by_cases hxy : x = y
  · rw [hxy]
  · refine restAt_comm g z fun hfst => hxy ?_
    exact List.inj_on_of_nodup_map (f := Prod.fst)
      (by rw [slots_fst]; exact hnodup) hx hy hfst

end

/-! ## The op words -/

/-- `PROLOGUE` and `EPILOGUE`. -/
theorem emit_frame (at_ : Word) {d : Dec} (map : Nat → Word) (len : Word)
    (hop : d.op = RISCV_OP_PROLOGUE ∨ d.op = RISCV_OP_EPILOGUE) :
    emit at_ d map len = [opField d.op ||| (d.imm &&& 0x3ffffff#32)] := by
  obtain ⟨op, rd, rs1, rs2, imm, target, width⟩ := d
  rcases hop with hop | hop
  · simp only at hop
    subst hop
    rfl
  · simp only at hop
    subst hop
    rfl

/-- The fields of a frame word. -/
theorem frame_word {op : Nat} (hop : op < 64) (rmask : Word) {N : Word} (hN : ¬ N > 0x1fff#32) :
    TC_OP (opField op ||| (frameEnc rmask N &&& 0x3ffffff#32)) = op ∧
      maskRegs ((opField op ||| (frameEnc rmask N &&& 0x3ffffff#32)) >>> 13) = maskRegs rmask ∧
      (opField op ||| (frameEnc rmask N &&& 0x3ffffff#32)) &&& 0x1fff#32 = N := by
  have hN' : N &&& 0x1fff#32 = N := by
    apply BitVec.eq_of_toNat_eq
    rw [BitVec.toNat_and]
    have hle : N.toNat ≤ 0x1fff := Nat.le_of_not_lt hN
    exact (Nat.and_two_pow_sub_one_eq_mod N.toNat 13).trans (Nat.mod_eq_of_lt (by omega))
  refine ⟨op_of_or hop ?_, ?_, ?_⟩
  · rw [BitVec.toNat_and]
    exact Nat.and_lt_two_pow _ (by decide)
  · unfold maskRegs
    rw [filterMap_if, filterMap_if]
    congr 1
    refine List.filter_congr fun k hk => ?_
    have h13 := List.mem_range.1 hk
    unfold frameEnc opField
    clear hN hN' hk
    interval_cases k <;> simp
  · conv_rhs => rw [← hN']
    unfold frameEnc opField
    clear hN hN'
    refine BitVec.eq_of_getLsbD_eq fun i hi => ?_
    interval_cases i <;> simp

section
variable {h : Hooks H} {g : MemOp → Word → Word} (hfix : Hooks.IsFixed h g) (r : Run H)
  (hlen : FRAME_SAVE_SPAN ≤ r.s.writable.len) (w : Word)
include hfix hlen

/-- **What `PROLOGUE` does**, wherever sp is. -/
theorem prologue_s : (prologue h r w).1.s =
    ((slots (r.s.x 2#5) (maskRegs (w >>> 13))).foldl saveAt r.s).setX 2#5
      (r.s.x 2#5 - (w &&& 0x1fff#32)) := by
  rw [← prologueSlow_s hfix]
  unfold prologue
  cases hq : frameTop r.s (r.s.x 2#5) with
  | none =>
    simp only [hq]
    rfl
  | some q =>
    obtain ⟨rfl, hlo, hhi⟩ := frameTop_some hlen hq
    have hregs := maskRegs_length (w >>> 13)
    simp only [hq]
    rw [saveFast_slow h r _ rfl rfl (by omega) hhi]
    rfl

/-- **What `EPILOGUE` does.** -/
theorem epilogue_s : (epilogue h r w).1.s =
    ((slots (r.s.x 2#5 + (w &&& 0x1fff#32)) (maskRegs (w >>> 13))).foldl (restAt g) r.s).setX 2#5
      (r.s.x 2#5 + (w &&& 0x1fff#32)) := by
  rw [← epilogueSlow_s hfix]
  unfold epilogue
  cases hq : frameTop r.s (r.s.x 2#5 + (w &&& 0x1fff#32)) with
  | none =>
    simp only [hq]
    rfl
  | some q =>
    obtain ⟨rfl, hlo, hhi⟩ := frameTop_some hlen hq
    have hregs := maskRegs_length (w >>> 13)
    simp only [hq]
    rw [restFast_slow h r _ rfl rfl (by omega) hhi]
    rfl

end

/-! ## The runs they replace -/

theorem next_addi (h : Hooks H) (r : Run H) (pc inst : Word) {d : Dec} (hop : d.op = RISCV_OP_ADDI) :
    d.next h r pc inst = (r.wr d.rd (r.s.x d.rs1 + d.imm), .done) := by
  obtain ⟨op, rd, rs1, rs2, imm, target, width⟩ := d
  cases hop
  rfl

/-- `l` is read off the instructions from `o` on: each has the op, counts from sp, and names a
register with a rank. -/
def ReadOff (code : Nat → Byte) (op : Nat) (reg : Dec → Reg) : Word → List (Reg × Word) → Prop
  | _, [] => True
  | o, s :: l =>
    (decode code o).op = op ∧ (decode code o).rs1 = 2#5 ∧ 0 ≤ rankOf s.1 ∧
      s = (reg (decode code o), (decode code o).imm) ∧ ReadOff code op reg (o + 4#32) l

theorem ReadOff.rank {code : Nat → Byte} {op : Nat} {reg : Dec → Reg} {o : Word}
    {l : List (Reg × Word)} (hl : ReadOff code op reg o l) : ∀ s ∈ l, 0 ≤ rankOf s.1 := by
  induction l generalizing o with
  | nil => nofun
  | cons s l ih =>
    obtain ⟨-, -, hrank, -, hl⟩ := hl
    intro t ht
    rcases List.mem_cons.1 ht with rfl | ht
    · exact hrank
    · exact ih hl t ht

section
variable (code : Nat → Byte) (len : Word) (targets : Targets)

theorem prologueSaves_read (left : Nat) (o : Word) :
    (prologueSaves code len targets left o).length ≤ left ∧
      ReadOff code RISCV_OP_SW Dec.rs2 o (prologueSaves code len targets left o) := by
  induction left generalizing o with
  | zero => exact ⟨Nat.le_refl _, trivial⟩
  | succ left ih =>
    unfold prologueSaves
    simp only
    repeat' split
    · exact ⟨Nat.zero_le _, trivial⟩
    · exact ⟨Nat.zero_le _, trivial⟩
    · rename_i hsw
      rw [not_or, not_or, Classical.not_not, Classical.not_not] at hsw
      obtain ⟨hlen, hread⟩ := ih (o + 4#32)
      exact ⟨Nat.succ_le_succ hlen, hsw.1, hsw.2.1, Int.not_lt.1 hsw.2.2, rfl, hread⟩
    · exact ⟨Nat.zero_le _, trivial⟩

theorem epilogueLoads_read (off : Word) (left : Nat) (o : Word) :
    (epilogueLoads code len off targets left o).length ≤ left ∧
      ReadOff code RISCV_OP_LW Dec.rd o (epilogueLoads code len off targets left o) := by
  induction left generalizing o with
  | zero => exact ⟨Nat.le_refl _, trivial⟩
  | succ left ih =>
    unfold epilogueLoads
    simp only
    repeat' split
    · exact ⟨Nat.zero_le _, trivial⟩
    · exact ⟨Nat.zero_le _, trivial⟩
    · rename_i hlw
      rw [not_or, not_or, Classical.not_not, Classical.not_not] at hlw
      obtain ⟨hlen, hread⟩ := ih (o + 4#32)
      exact ⟨Nat.succ_le_succ hlen, hlw.1, hlw.2.1, Int.not_lt.1 hlw.2.2, rfl, hread⟩
    · exact ⟨Nat.zero_le _, trivial⟩

end

/-- **A run of saves or of restores**, instruction by instruction. -/
theorem replay_readOff {h : Hooks H} {code : Nat → Byte} {op : Nat} {reg : Dec → Reg}
    {f : State H → Reg × Word → State H} (hclear : Clear op)
    (hstep : ∀ (r : Run H) (d : Dec), d.op = op → d.rs1 = 2#5 → 0 ≤ rankOf (reg d) →
      ∃ r', (∀ pc inst, d.next h r pc inst = (r', .done)) ∧
        r'.s = f r.s (reg d, r.s.x 2#5 + d.imm) ∧ r'.s.x 2#5 = r.s.x 2#5)
    (n : Nat) {l : List (Reg × Word)} {o : Word} (r : Run H) (hl : ReadOff code op reg o l) :
    ∃ q, replay h code (l.length + n) r o =
        replay h code n q (o + 4#32 * BitVec.ofNat 32 l.length) ∧
      q.s = (l.map fun s => (s.1, r.s.x 2#5 + s.2)).foldl f r.s ∧ q.s.x 2#5 = r.s.x 2#5 := by
  induction l generalizing o r with
  | nil =>
    refine ⟨r, ?_, rfl, rfl⟩
    show replay h code (0 + n) r o = replay h code n r (o + 0#32)
    rw [Nat.zero_add, BitVec.add_zero]
  | cons s l ih =>
    obtain ⟨hop, hrs1, hrank, rfl, hl⟩ := hl
    obtain ⟨r', hnext, hs, hx⟩ := hstep r (decode code o) hop hrs1 hrank
    obtain ⟨q, hrun, hq, hqx⟩ := ih r' hl
    have hpast : o + 4#32 + 4#32 * BitVec.ofNat 32 l.length =
        o + 4#32 * BitVec.ofNat 32 (l.length + 1) := by
      rw [BitVec.ofNat_add l.length 1, BitVec.mul_add, BitVec.add_assoc, BitVec.add_comm 4#32]
      rfl
    refine ⟨q, ?_, ?_, hqx.trans hx⟩
    · rw [List.length_cons, Nat.add_right_comm,
        replay_done (by rw [hop]; exact hclear) (hnext _ _) rfl, hrun, hpast]
    · rw [hq, hx, hs]
      rfl

section
variable {h : Hooks H} {g : MemOp → Word → Word} (hfix : Hooks.IsFixed h g) (r : Run H) (d : Dec)
  (hrs1 : d.rs1 = 2#5)
include hfix hrs1

theorem next_save (hop : d.op = RISCV_OP_SW) :
    ∃ r', (∀ pc inst, d.next h r pc inst = (r', .done)) ∧
      r'.s = saveAt r.s (d.rs2, r.s.x 2#5 + d.imm) ∧ r'.s.x 2#5 = r.s.x 2#5 := by
  have hs := store_s hfix r (r.s.x 2#5 + d.imm) d.rs2
  refine ⟨_, fun pc inst => next_sw hop, ?_, ?_⟩
  · rw [hrs1, hs]
  · rw [hrs1, hs]
    exact congrFun (saves_x r.s [(d.rs2, r.s.x 2#5 + d.imm)]) 2#5

theorem next_restore (hop : d.op = RISCV_OP_LW) (hrank : 0 ≤ rankOf d.rd) :
    ∃ r', (∀ pc inst, d.next h r pc inst = (r', .done)) ∧
      r'.s = restAt g r.s (d.rd, r.s.x 2#5 + d.imm) ∧ r'.s.x 2#5 = r.s.x 2#5 := by
  obtain ⟨-, -, h0, h2⟩ := rank_reg d.rd hrank
  obtain ⟨hs, hv⟩ := load_s hfix r (r.s.x 2#5 + d.imm)
  have hr : (put (load h r (r.s.x d.rs1 + d.imm) 4).1 d.rd (load h r (r.s.x d.rs1 + d.imm) 4).2).s =
      restAt g r.s (d.rd, r.s.x 2#5 + d.imm) := by
    rw [hrs1]
    show (load h r (r.s.x 2#5 + d.imm) 4).1.s.setX d.rd (load h r (r.s.x 2#5 + d.imm) 4).2 = _
    rw [hs, hv]
    rfl
  refine ⟨_, fun pc inst => next_lw hop h0, hr, ?_⟩
  rw [hr]
  exact if_neg (Ne.symm h2)

end

/-! ## Fused frames -/

section
variable {code : Nat → Byte} {len off : Word} {targets : Targets} {out d : Dec} {width : Word}

/-- What a fused prologue stands for. -/
theorem tryFusePrologue_some (hf : tryFusePrologue code len off targets out = some (d, width)) :
    ∃ N rmask, (decode code off).op = RISCV_OP_ADDI ∧ (decode code off).rd = 2#5 ∧
      (decode code off).rs1 = 2#5 ∧ (decode code off).imm = -N ∧ ¬ N > 0x1fff#32 ∧
      frameCanonical (prologueSaves code len targets 13 (off + 4#32)) N = some rmask ∧
      d.op = RISCV_OP_PROLOGUE ∧ d.imm = frameEnc rmask N ∧
      width.toNat / 4 = 1 + (prologueSaves code len targets 13 (off + 4#32)).length := by
  unfold tryFusePrologue at hf
  simp only at hf
  split at hf
  · cases hf
  rename_i ha
  rw [not_or, not_or, not_or, Classical.not_not, Classical.not_not, Classical.not_not] at ha
  split at hf
  · cases hf
  rename_i hN
  split at hf
  · cases hf
  split at hf
  · cases hf
  rename_i rmask hc
  cases hf
  refine ⟨_, rmask, ha.1, ha.2.1, ha.2.2.1, (BitVec.neg_neg).symm, fun h => hN (Or.inr h), hc, rfl,
    rfl, ?_⟩
  have h13 := (prologueSaves_read code len targets 13 (off + 4#32)).1
  have hadd : (1#32 + BitVec.ofNat 32 (prologueSaves code len targets 13 (off + 4#32)).length :
      Word) = BitVec.ofNat 32 (1 + (prologueSaves code len targets 13 (off + 4#32)).length) :=
    (BitVec.ofNat_add _ _).symm
  rw [hadd, BitVec.toNat_mul, BitVec.toNat_ofNat, BitVec.toNat_ofNat]
  omega

/-- What a fused epilogue stands for. -/
theorem tryFuseEpilogue_some (hf : tryFuseEpilogue code len off targets out = some (d, width)) :
    ∃ N rmask o, o = off + 4#32 * BitVec.ofNat 32 (epilogueLoads code len off targets 13 off).length ∧
      (decode code o).op = RISCV_OP_ADDI ∧ (decode code o).rd = 2#5 ∧ (decode code o).rs1 = 2#5 ∧
      (decode code o).imm = N ∧ ¬ N > 0x1fff#32 ∧ (decode code (o + 4#32)).op = RISCV_OP_JALR ∧
      (decode code (o + 4#32)).rd = 0#5 ∧ (decode code (o + 4#32)).rs1 = 1#5 ∧
      (decode code (o + 4#32)).imm = 0#32 ∧
      frameCanonical (epilogueLoads code len off targets 13 off) N = some rmask ∧
      d.op = RISCV_OP_EPILOGUE ∧ d.imm = frameEnc rmask N ∧
      width.toNat / 4 = (epilogueLoads code len off targets 13 off).length + 2 := by
  unfold tryFuseEpilogue at hf
  simp only at hf
  split at hf
  · cases hf
  split at hf
  · cases hf
  split at hf
  · cases hf
  rename_i had
  rw [not_or, not_or, not_or, Classical.not_not, Classical.not_not, Classical.not_not] at had
  split at hf
  · cases hf
  rename_i hN
  split at hf
  · cases hf
  rename_i hrt
  rw [not_or, not_or, not_or, Classical.not_not, Classical.not_not, Classical.not_not,
    Classical.not_not] at hrt
  split at hf
  · cases hf
  rename_i rmask hc
  cases hf
  refine ⟨_, rmask, _, rfl, had.1, had.2.1, had.2.2.1, rfl, hN, hrt.1, hrt.2.1, hrt.2.2.1,
    hrt.2.2.2, hc, rfl, rfl, ?_⟩
  have h13 := (epilogueLoads_read code len targets off 13 off).1
  have hsub : ∀ v : Word, off + v + 8#32 - off = v + 8#32 := fun v => by bv_omega
  have h8 : (8#32 : Word).toNat = 8 := rfl
  rw [hsub, BitVec.toNat_add, BitVec.toNat_mul, BitVec.toNat_ofNat, BitVec.toNat_ofNat, h8]
  omega

variable {h : Hooks H} {g : MemOp → Word → Word} (hfix : Hooks.IsFixed h g) (r : Run H)
  (hlen : FRAME_SAVE_SPAN ≤ r.s.writable.len)
include hfix hlen

/-- **A fused prologue leaves the state that its `addi` and its saves leave.** -/
theorem prologue_replays (p : Word) (map : Nat → Word) (clen : Word)
    (hf : tryFusePrologue code len off targets out = some (d, width)) :
    (evalUnit h r p d map clen).1.s = (replay h code (width.toNat / 4) r off).1.s ∧
      (evalUnit h r p d map clen).2.2 = .fall 1 ∧
      (replay h code (width.toNat / 4) r off).2 = .done := by
  obtain ⟨N, rmask, hop, hrd, hrs1, himm, hN, hc, hdop, hdimm, hwidth⟩ := tryFusePrologue_some hf
  obtain ⟨-, hread⟩ := prologueSaves_read code len targets 13 (off + 4#32)
  generalize prologueSaves code len targets 13 (off + 4#32) = saves at hc hwidth hread
  obtain ⟨-, -, hregs⟩ := frameCanonical_slots hread.rank hc
  -- the op word
  obtain ⟨hwop, hmask, hframe⟩ := @frame_word RISCV_OP_PROLOGUE (by decide) rmask N hN
  rw [evalUnit_one (emit_frame p map clen (Or.inl hdop)), hdop, hdimm]
  generalize opField RISCV_OP_PROLOGUE ||| (frameEnc rmask N &&& 0x3ffffff#32) = w at *
  have hdisp : dispatch h r p w 0#32 = ((prologue h r w).1, (prologue h r w).2 + 1, .fall 1) := by
    unfold RISCV_OP_PROLOGUE at hwop
    simp only [dispatch, hwop]
  -- the source
  have haddi : ∀ inst, (decode code off).next h r off inst =
      (put r 2#5 (r.s.x 2#5 - N), .done) := fun inst => by
    rw [next_addi h r off inst hop, hrd, hrs1, himm, ← BitVec.sub_eq_add_neg, put_eq (by decide)]
  obtain ⟨q, hrun, hq, -⟩ := replay_readOff (by decide) (fun r d hop hrs1 _ =>
    next_save hfix r d hrs1 hop) 0 (put r 2#5 (r.s.x 2#5 - N)) hread
  have hsrc : replay h code (width.toNat / 4) r off = (q, .done) := by
    rw [hwidth, Nat.add_comm, replay_done (by rw [hop]; decide) (haddi _) rfl]
    exact hrun
  rw [hsrc, hdisp]
  refine ⟨?_, rfl, rfl⟩
  rw [prologue_s hfix r hlen, hmask, hframe, hq]
  have hsp : (put r 2#5 (r.s.x 2#5 - N)).s.x 2#5 + N = r.s.x 2#5 := by
    rw [put_x, if_pos rfl, BitVec.sub_add_cancel]
  rw [saves_canonical hread.rank hc, hsp]
  refine (saves_setX r.s _ _ fun x hx => ?_).symm
  obtain ⟨k, -, -, hk⟩ := mem_slots hx
  exact (hregs _ (List.mem_of_getElem? hk)).2

/-- **A fused epilogue leaves the state that its restores, its `addi` and its `ret` leave**, and
returns to the same address. -/
theorem epilogue_replays (p : Word) (map : Nat → Word) (clen : Word)
    (hf : tryFuseEpilogue code len off targets out = some (d, width)) :
    (evalUnit h r p d map clen).1.s = (replay h code (width.toNat / 4) r off).1.s ∧
      ∃ t, (evalUnit h r p d map clen).2.2 = .indirect t ∧
        (replay h code (width.toNat / 4) r off).2 = .jump t := by
  obtain ⟨N, rmask, o, ho, hop, hrd, hrs1, himm, hN, hjop, hjrd, hjrs1, hjimm, hc, hdop, hdimm,
    hwidth⟩ := tryFuseEpilogue_some hf
  obtain ⟨-, hread⟩ := epilogueLoads_read code len targets off 13 off
  generalize epilogueLoads code len off targets 13 off = loads at ho hc hwidth hread
  obtain ⟨-, -, hregs⟩ := frameCanonical_slots hread.rank hc
  -- the op word
  obtain ⟨hwop, hmask, hframe⟩ := @frame_word RISCV_OP_EPILOGUE (by decide) rmask N hN
  rw [evalUnit_one (emit_frame p map clen (Or.inr hdop)), hdop, hdimm]
  generalize opField RISCV_OP_EPILOGUE ||| (frameEnc rmask N &&& 0x3ffffff#32) = w at *
  have hdisp : dispatch h r p w 0#32 = ((epilogue h r w).1, (epilogue h r w).2 + 2,
      .indirect ((epilogue h r w).1.s.x 1#5 &&& ~~~1#32)) := by
    unfold RISCV_OP_EPILOGUE at hwop
    simp only [dispatch, hwop]
  -- the source
  obtain ⟨q, hrun, hq, hx⟩ := replay_readOff (by decide) (fun r d hop hrs1 hrank =>
    next_restore hfix r d hrs1 hop hrank) 2 r hread
  have haddi : ∀ inst, (decode code o).next h q o inst =
      (put q 2#5 (r.s.x 2#5 + N), .done) := fun inst => by
    rw [next_addi h q o inst hop, hrd, hrs1, himm, hx, put_eq (by decide)]
  have hret : ∀ inst, (decode code (o + 4#32)).next h (put q 2#5 (r.s.x 2#5 + N)) (o + 4#32) inst =
      (put q 2#5 (r.s.x 2#5 + N), .jump (q.s.x 1#5 &&& ~~~1#32)) := fun inst => by
    rw [next_jalr hjop, hjrd, hjrs1, hjimm, BitVec.add_zero, put_x, if_neg (by decide)]
    unfold Run.wr
    rw [wr_zero]
  have hsrc : replay h code (width.toNat / 4) r off =
      (put q 2#5 (r.s.x 2#5 + N), .jump (q.s.x 1#5 &&& ~~~1#32)) := by
    rw [hwidth, hrun, ← ho, replay_done (by rw [hop]; decide) (haddi _) rfl,
      replay_jump (by rw [hjop]; decide) (hret _)]
  have hstate : (epilogue h r w).1.s = (put q 2#5 (r.s.x 2#5 + N)).s := by
    rw [epilogue_s hfix r hlen, hmask, hframe]
    show _ = q.s.setX 2#5 (r.s.x 2#5 + N)
    rw [hq, rests_canonical hread.rank hc]
  rw [hsrc, hdisp]
  refine ⟨hstate, _, rfl, ?_⟩
  show Next.jump _ = Next.jump _
  rw [hstate, put_x, if_neg (by decide)]

end

/-- **Fused prologues and epilogues equal the sequences they replace**, and the path inside the
handler is the one out of line. -/
theorem frames_replay (h : Hooks H) (g : MemOp → Word → Word) (hfix : Hooks.IsFixed h g) (r : Run H)
    (hlen : FRAME_SAVE_SPAN ≤ r.s.writable.len) (code : Nat → Byte) (len off : Word)
    (targets : Targets) (out : Dec) (p : Word) (map : Nat → Word) (clen : Word) :
    (∀ d width, tryFusePrologue code len off targets out = some (d, width) →
      (evalUnit h r p d map clen).1.s = (replay h code (width.toNat / 4) r off).1.s ∧
        (evalUnit h r p d map clen).2.2 = .fall 1 ∧
        (replay h code (width.toNat / 4) r off).2 = .done) ∧
    (∀ d width, tryFuseEpilogue code len off targets out = some (d, width) →
      (evalUnit h r p d map clen).1.s = (replay h code (width.toNat / 4) r off).1.s ∧
        ∃ t, (evalUnit h r p d map clen).2.2 = .indirect t ∧
          (replay h code (width.toNat / 4) r off).2 = .jump t) ∧
    (∀ top q rmask, frameTop r.s top = some q →
      saveFast r q.1 q.2 (maskRegs rmask) = prologueSlow h r top (maskRegs rmask) ∧
        restFast r q.1 q.2 (maskRegs rmask) = epilogueSlow h r top (maskRegs rmask)) := by
  refine ⟨fun d width hf => prologue_replays hfix r hlen p map clen hf,
    fun d width hf => epilogue_replays hfix r hlen p map clen hf, fun top q rmask hq => ?_⟩
  obtain ⟨rfl, hlo, hhi⟩ := frameTop_some hlen hq
  have hregs := maskRegs_length rmask
  exact ⟨saveFast_slow h r _ rfl rfl (by omega) hhi, restFast_slow h r _ rfl rfl (by omega) hhi⟩

/-- A use of `frames_replay`: `addi sp, sp, -16; sw ra, 12(sp)` with an sp off the region. -/
theorem frames_replay_prologue :
    let h : Hooks Unit := { Hooks.null with callback := some fun s _ a _ => (s, a) }
    let code : Nat → Byte := fun i => (0x00112623ff010113#64).extractLsb' (8 * i) 8
    let d : Dec := ⟨RISCV_OP_PROLOGUE, 0#5, 0#5, 0#5, 0x2010#32, 0#32, 0#32⟩
    (evalUnit h ⟨.boot [] 64, []⟩ 0#32 d (fun _ => TC_SENTINEL) 8#32).1.s =
      (replay h code 2 ⟨.boot [] 64, []⟩ 0#32).1.s := by
  intro h code d
  exact ((frames_replay h (fun _ a => a) rfl ⟨.boot [] 64, []⟩ (by decide) code 8#32 0#32
    ⟨fun _ => false, 2#32⟩ ⟨0, 0#5, 0#5, 0#5, 0#32, 0#32, 0#32⟩ 0#32 (fun _ => TC_SENTINEL)
    8#32).1 d 8#32 (by decide)).1

end Purv.Purva

import Purv.PurvsResume

/-!
# Whether `purvs` returns

The count that the loop is bounded by moves on with every round in which an instruction is executed.
A round whose evaluator stops before its first record leaves it as it is.

* `Idle` — such a round;
* `nextRound_idle`, `nextRound_busy` — what the two kinds of round do to the count;
* `returns_iff_ends` — the loop returns exactly when its rounds end;
* `riscvEmulatorLoop_ends_iff` — and they end exactly when they do not idle for ever.
-/

namespace Purv.Purvs

open Bits Steps

variable {H : Type}

section
variable (h : Hooks H) (eval : EvalFn H) (code : Buf) (code_len win : Word) (max : Nat)

/-- A round that calls the evaluator, which returns 0. -/
def Idle (x : Start H) : Prop :=
  let a := ahead code code_len win (x.lim max) x.block x.r
  a.n ≠ 0 ∧ (eval h (x.r.setPc a.pc) a.closed).2 = 0

/-- The loop returns, given rounds enough. -/
def Returns (x : Start H) : Prop :=
  ∃ rounds, (loopFrom h eval code code_len win max rounds x.block x.r x.k).stop ≠ .running

end

section
variable {h : Hooks H} {eval : EvalFn H} {code : Buf} {code_len win : Word} {max : Nat}

theorem nextRound_lt {x y : Start H} (hxy : nextRound h eval code code_len win max x = some y) :
    x.k < max := by
  by_contra hlt
  unfold nextRound at hxy
  rw [if_neg hlt] at hxy
  cases hxy

/-- The walk counts each instruction. -/
theorem fixupPc_le (c : Nat → Byte) (n : Nat) (fuel : Nat) (pc : Word) (recs cnt : Nat) :
    cnt ≤ (fixupPc c n fuel pc recs cnt).2 := by
  induction fuel generalizing pc recs cnt with
  | zero => exact Nat.le_refl cnt
  | succ fuel ih =>
    rw [fixupPc_succ]
    split
    · exact Nat.le_trans (Nat.le_succ cnt) (ih _ _ _)
    · exact Nat.le_refl cnt

/-- A round that goes on has moved the count on, unless it was idle. -/
theorem round_count {lim : Nat} (hlim : 0 < lim) {block block' : Block} {r r' : Run H} {k : Nat}
    (hround : round h eval code code_len win lim block r = .next r' k block') :
    0 < k ∨ ((ahead code code_len win lim block r).n ≠ 0 ∧
      (eval h (r.setPc (ahead code code_len win lim block r).pc)
        (ahead code code_len win lim block r).closed).2 = 0) := by
  generalize ha : ahead code code_len win lim block r = a
  by_cases h0 : a.insns = 0
  · rw [round_empty (beforeTrap_empty ha h0)] at hround
    cases hround
  by_cases hn : a.n = 0
  · rw [round_next (beforeTrap_jumps ha h0 hn)] at hround
    cases hround
    exact .inl (Nat.pos_of_ne_zero h0)
  cases he : eval h (r.setPc a.pc) a.closed with
  | mk r₁ ran =>
    by_cases hran : ran < a.n
    · rw [round_next (beforeTrap_early ha he hran)] at hround
      cases hround
      by_cases hzero : ran = 0
      · exact .inr ⟨hn, hzero⟩
      · -- the walk has a first instruction
        obtain ⟨lim, rfl⟩ : ∃ l, lim = l + 1 := ⟨lim - 1, by omega⟩
        left
        rw [fixupPc_succ, if_pos (Nat.pos_of_ne_zero hzero)]
        exact fixupPc_le _ _ _ _ _ _
    · have hb := beforeTrap_ran ha h0 hn he (by omega)
      by_cases htrap : isTrap (a.closed a.last_w).op.toNat = true
      · rw [if_pos htrap] at hb
        rw [round_trap hb] at hround
        split at hround
        · cases hround
        · cases hround
          exact .inl (Nat.pos_of_ne_zero h0)
      · rw [if_neg htrap] at hb
        rw [round_next hb] at hround
        cases hround
        exact .inl (Nat.pos_of_ne_zero h0)

/-- The count never falls, and a round that is not idle moves it on. -/
theorem nextRound_count {x y : Start H}
    (hxy : nextRound h eval code code_len win max x = some y) :
    x.k ≤ y.k ∧ (¬ Idle h eval code code_len win max x → x.k < y.k) := by
  have hlt := nextRound_lt hxy
  have hlim : 0 < x.lim max := by
    unfold Start.lim RISCV_BLOCK_MAX
    omega
  unfold nextRound at hxy
  rw [if_pos hlt] at hxy
  split at hxy
  · rename_i hround
    cases hxy
    refine ⟨Nat.le_add_right _ _, fun hidle => ?_⟩
    have hpos := (round_count hlim hround).resolve_right hidle
    exact Nat.lt_add_of_pos_right hpos
  · cases hxy

/-- Where there is no next round the loop returns. -/
theorem loopFrom_last {x : Start H} (hx : nextRound h eval code code_len win max x = none) :
    (loopFrom h eval code code_len win max 1 x.block x.r x.k).stop ≠ .running := by
  rw [loopFrom]
  unfold nextRound at hx
  split at hx
  · rename_i hlt
    rw [if_pos hlt]
    unfold Start.lim at hx
    split at hx
    · cases hx
    · rename_i hnext
      split
      · exact fun h => by cases h
      · rename_i hround
        exact absurd hround (hnext _ _ _)
      · exact fun h => by cases h
      · exact fun h => by cases h
  · rename_i hlt
    rw [if_neg hlt]
    exact fun h => by cases h

/-- The loop returns exactly when its rounds end. -/
theorem returns_iff_ends (x : Start H) : Returns h eval code code_len win max x ↔
    ∃ y, Ends (nextRound h eval code code_len win max) x y := by
  constructor
  · rintro ⟨rounds, hstop⟩
    by_contra hends
    obtain ⟨y, hy⟩ := iter_of_not_ends hends rounds
    obtain ⟨z, hz⟩ : ∃ z, nextRound h eval code code_len win max y = some z := by
      cases hn : nextRound h eval code code_len win max y with
      | none => exact absurd ⟨y, rounds, hy, hn⟩ hends
      | some z => exact ⟨z, rfl⟩
    have hloop := loopFrom_iter hy 0
    rw [Nat.add_zero] at hloop
    rw [hloop, loopFrom, if_pos (nextRound_lt hz)] at hstop
    exact hstop rfl
  · rintro ⟨y, n, hn, hy⟩
    refine ⟨n + 1, ?_⟩
    rw [loopFrom_iter hn 1]
    exact loopFrom_last hy

end

/-- **`purvs` returns exactly when its evaluator does not, from some call on, return 0 every time.**
And the walk of an early stop ends, with an evaluator that leaves the code alone. -/
theorem riscvEmulatorLoop_ends_iff (h : Hooks H) (eval : EvalFn H) (block : Block) (r : Run H)
    (max : Nat) (code : Buf) (code_len win : Word) :
    (Returns h eval code code_len win max ⟨block, r, 0⟩ ↔
      ¬ ∃ m, ∀ n, m ≤ n → ∃ x,
        iter (nextRound h eval code code_len win max) n ⟨block, r, 0⟩ = some x ∧
          Idle h eval code code_len win max x) ∧
    ∀ (x : Start H) (r' : Run H) (ran : Nat),
      let a := ahead code code_len win (x.lim max) x.block x.r
      eval h (x.r.setPc a.pc) a.closed = (r', ran) → ran < a.n → r'.s.mem code = x.r.s.mem code →
      ∃ pc done, ∀ fuel, x.lim max ≤ fuel →
        fixupPc (r'.s.mem code) ran fuel x.r.s.pc 0 0 = (pc, done) := by
  refine ⟨(returns_iff_ends _).trans ⟨?_, ?_⟩, ?_⟩
  · rintro ⟨y, hy⟩
    exact not_idles_of_ends hy
  · intro hidles
    by_contra hends
    exact hidles (ends_or_idles (fun x : Start H => x.k)
      (fun x y hxy => (nextRound_count hxy).1) (fun x y hxy => (nextRound_count hxy).2)
      (fun x y hxy => nextRound_lt hxy) hends)
  · intro x r' ran a heval hran hkeep
    have hcode : code ≠ 0 := by
      intro h0
      have hn : a.n = 0 := by
        show (ahead code code_len win (x.lim max) x.block x.r).n = 0
        unfold ahead
        rw [if_pos h0]
      omega
    have hn := ahead_records hcode code_len win (x.lim max) x.block x.r
    obtain ⟨j, pc', hres⟩ := fixupPc_resumes (x.lim max) x.r.s.pc ran (hn ▸ hran)
    refine ⟨pc', j, fun fuel hfuel => ?_⟩
    have hwalk := hres.walk fuel 0 0 hfuel
    rwa [Nat.zero_add, Nat.zero_add, ← hkeep] at hwalk

/-- An evaluator that never executes a record meets the contract, and `purvs` decodes the same run
for ever. -/
theorem riscvEmulatorLoop_stuck (rounds : Nat) (block : Block) :
    (loopFrom Hooks.null (stopsAfter 0) 1 8#32 (winOf 8#32) 1 rounds block jumpedNops 0).stop =
      .running := by
  induction rounds generalizing block with
  | zero => rfl
  | succ rounds ih =>
    have ha : (ahead 1 8#32 (winOf 8#32) 1 block jumpedNops).n = 1 :=
      (ahead_records (by decide) _ _ _ _ _).trans (by decide)
    have he : stopsAfter 0 (Hooks.null : Hooks Unit)
        (jumpedNops.setPc (ahead 1 8#32 (winOf 8#32) 1 block jumpedNops).pc)
        (ahead 1 8#32 (winOf 8#32) 1 block jumpedNops).closed =
        (jumpedNops.setPc (ahead 1 8#32 (winOf 8#32) 1 block jumpedNops).pc, 0) := rfl
    have hround : round Hooks.null (stopsAfter 0) 1 8#32 (winOf 8#32) 1 block jumpedNops =
        .next jumpedNops 0 (ahead 1 8#32 (winOf 8#32) 1 block jumpedNops).closed :=
      round_next (beforeTrap_early rfl he (by rw [ha]; exact Nat.one_pos))
    rw [loopFrom, if_pos (by decide)]
    have hlim : min (1 - 0) RISCV_BLOCK_MAX = 1 := rfl
    rw [hlim, hround]
    exact ih _

theorem riscvEmulatorLoop_never :
    ¬ ∃ rounds, (loopFrom Hooks.null (stopsAfter 0) 1 8#32 (winOf 8#32) 1 rounds
      (fun _ => Slot.ofImm 0) jumpedNops 0).stop ≠ .running := by
  rintro ⟨rounds, hstop⟩
  exact hstop (riscvEmulatorLoop_stuck rounds _)

end Purv.Purvs

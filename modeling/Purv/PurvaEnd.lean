import Purv.PurvaUnits
import Purv.PurvaTargets

/-!
# Running past the last op

* `goOn` — one op of an engine call, with its budget;
* `Entered` — the cursors that a call comes to;
* `GoesPast` — the ops behind which, or at whose target, no instruction is left;
* `Slips` — those of them that do not look at the program's length or at the budget;
* `reached_place` — the walk over the units is at a unit, or at the end of the op array;
* `riscvEmulatorLoop_past` — a call stays inside the op array, and stops cleanly where it runs
  past the last op, exactly if none of its ops slips.
-/

namespace Purv.Purva

open Bits Transcode Steps

variable {H : Type}

/-! ## One op of a call -/

section
variable (h : Hooks H) (m : Image) (max : Nat)

/-- What the op at the cursor does. -/
def OpCursor.op (q : OpCursor H) : Option (Run H × Nat × Goto) :=
  m.ops[q.p]?.map (q.dispatch h m)

/-- Where a call goes on after an op; `none` where it returns. -/
def OpCursor.next (q : OpCursor H) : Run H × Nat × Goto → Option (OpCursor H)
  | (r, c, .fall n) => some ⟨r, q.p + n, q.k + c⟩
  | (r, c, .reloc idx) => if q.k + c ≥ max then none else some ⟨r, idx.toNat, q.k + c⟩
  | (r, c, .indirect t) =>
    if t ≥ m.prog.code_len then none
    else if q.k + c ≥ max then none
    else some ⟨r, (t >>> 2).toNat, q.k + c⟩
  | (r, c, .trap stop) =>
    if stop then none else if q.k + c ≥ max then none else some ⟨r, q.p + 1, q.k + c⟩

/-- One op of a call. -/
def goOn (q : OpCursor H) : Option (OpCursor H) :=
  match q.op h m with
  | none => none
  | some o => q.next m max o

/-- The cursors that a call comes to. -/
def Entered (r : Run H) (q : OpCursor H) : Prop :=
  r.s.pc < m.prog.code_len ∧ ∃ n, iter (goOn h m max) n (OpCursor.start r) = some q

variable {h m max}

theorem op_inside {q : OpCursor H} {o : Run H × Nat × Goto} (ho : q.op h m = some o) :
    ∃ w, m.ops[q.p]? = some w ∧ q.dispatch h m w = o :=
  Option.map_eq_some_iff.1 ho

theorem goOn_op {q : OpCursor H} {o : Run H × Nat × Goto} (ho : q.op h m = some o) :
    goOn h m max q = q.next m max o := by
  unfold goOn
  rw [ho]

theorem loopFrom_landFrom (fuel : Nat) {q : OpCursor H} {o : Run H × Nat × Goto}
    (ho : q.op h m = some o) :
    loopFrom h m.ops m.prog.code_len max (fuel + 1) q.r q.p q.k = landFrom h m max fuel q o := by
  obtain ⟨w, hw, rfl⟩ := op_inside ho
  exact loopFrom_op fuel hw

/-- **The loop takes the steps of `goOn`.** -/
theorem landFrom_next (fuel : Nat) (q : OpCursor H) (o : Run H × Nat × Goto) :
    (∀ q', q.next m max o = some q' → landFrom h m max fuel q o =
      loopFrom h m.ops m.prog.code_len max fuel q'.r q'.p q'.k) ∧
    (q.next m max o = none → landFrom h m max fuel q o = landFrom h m max 0 q o) := by
  obtain ⟨r, c, g⟩ := o
  unfold OpCursor.next landFrom
  cases g with
  | fall n =>
    simp only
    refine ⟨fun q' hq => ?_, fun hq => by cases hq⟩
    cases hq
    rfl
  | reloc idx =>
    simp only
    split
    · exact ⟨fun q' hq => (by cases hq), fun _ => rfl⟩
    · refine ⟨fun q' hq => ?_, fun hq => by cases hq⟩
      cases hq
      rfl
  | indirect t =>
    simp only
    split
    · exact ⟨fun q' hq => (by cases hq), fun _ => rfl⟩
    · split
      · exact ⟨fun q' hq => (by cases hq), fun _ => rfl⟩
      · refine ⟨fun q' hq => ?_, fun hq => by cases hq⟩
        cases hq
        rfl
  | trap stop =>
    cases stop with
    | true => exact ⟨fun q' hq => (by cases hq), fun _ => rfl⟩
    | false =>
      simp only [Bool.false_eq_true, if_false]
      split
      · exact ⟨fun q' hq => (by cases hq), fun _ => rfl⟩
      · refine ⟨fun q' hq => ?_, fun hq => by cases hq⟩
        cases hq
        rfl

/-- Every step uses up some of the dispatches that are left. -/
theorem goOn_left {q q' : OpCursor H} (hq : goOn h m max q = some q')
    (hp : q.p < m.ops.length) (hp' : q'.p < m.ops.length) :
    dispatchesLeft m max q' < dispatchesLeft m max q := by
  have hget := List.getElem?_eq_getElem hp
  have ho : q.op h m = some (q.dispatch h m m.ops[q.p]) := by
    unfold OpCursor.op
    rw [hget]
    rfl
  rw [goOn_op ho] at hq
  have hgoes : Goes _ (q.dispatch h m m.ops[q.p]) := dispatch_goes q.r ..
  revert hq
  generalize q.dispatch h m m.ops[q.p] = o at hgoes
  unfold OpCursor.next dispatchesLeft
  intro hq
  cases hgoes with
  | fall hc hn =>
    cases hq
    simp only at hp' ⊢
    split <;> split <;> omega
  | reloc hc =>
    simp only at hq
    split at hq
    · cases hq
    · cases hq
      simp only
      split <;> split <;> omega
  | indirect hc =>
    simp only at hq
    split at hq
    · cases hq
    · split at hq
      · cases hq
      · cases hq
        simp only
        split <;> split <;> omega
  | @trap r c stop hc ht =>
    cases stop with
    | true => cases hq
    | false =>
      simp only [Bool.false_eq_true, if_false] at hq
      split at hq
      · cases hq
      · cases hq
        simp only
        split <;> split <;> omega

/-- **The loop comes to the cursors of `goOn`**, as long as they stay inside the op array. -/
theorem entered_loop {r : Run H} (hin : ∀ q, Entered h m max r q → q.p < m.ops.length)
    (hpc : r.s.pc < m.prog.code_len) {n : Nat} {q : OpCursor H}
    (hq : iter (goOn h m max) n (OpCursor.start r) = some q) :
    ∃ fuel, dispatchesLeft m max q < fuel + 1 ∧ riscvEmulatorLoop h m.prog r max =
      loopFrom h m.ops m.prog.code_len max (fuel + 1) q.r q.p q.k := by
  induction n generalizing q with
  | zero =>
    cases hq
    refine ⟨max + m.ops.length, ?_, ?_⟩
    · unfold dispatchesLeft OpCursor.start
      simp only
      split <;> omega
    · unfold riscvEmulatorLoop
      rw [if_neg (BitVec.not_le.2 hpc)]
      rfl
  | succ n ih =>
    obtain ⟨q₁, hq₁, hgo⟩ := iter_last hq
    obtain ⟨fuel, hleft, hloop⟩ := ih hq₁
    have hless := goOn_left hgo (hin q₁ ⟨hpc, n, hq₁⟩) (hin q ⟨hpc, n + 1, hq⟩)
    obtain ⟨fuel, rfl⟩ : ∃ f, fuel = f + 1 := ⟨fuel - 1, by omega⟩
    refine ⟨fuel, by omega, ?_⟩
    unfold goOn at hgo
    cases ho : q₁.op h m with
    | none =>
      rw [ho] at hgo
      cases hgo
    | some o =>
      rw [ho] at hgo
      rw [hloop, loopFrom_landFrom (fuel + 1) ho]
      exact (landFrom_next (fuel + 1) q₁ o).1 q hgo

end

/-! ## How an op goes on -/

section
variable {h : Hooks H} {r : Run H} {p w w2 : Word}

/-- A load-and-branch jumps, or falls past its second word. -/
theorem dispatch_loadBranch (hop : LoadBranch (TC_OP w)) :
    (∃ idx, (dispatch h r p w w2).2.2 = .reloc idx) ∨ (dispatch h r p w w2).2.2 = .fall 2 := by
  have hbz : ∀ T, (∃ idx, (hLoadBz h r p w w2 T).2.2 = .reloc idx) ∨
      (hLoadBz h r p w w2 T).2.2 = .fall 2 := by
    intro T
    unfold hLoadBz
    simp only
    split
    · exact .inl ⟨_, rfl⟩
    · exact .inr rfl
  rcases hop with hop | hop
  · unfold dispatch
    simp only [hop]
    exact hbz _
  · unfold dispatch
    simp only [hop]
    exact hbz _

/-- An op falls past its words. -/
theorem dispatch_fall_words {n : Nat} (hop : TC_OP w ≠ RISCV_OP_NOP)
    (hg : (dispatch h r p w w2).2.2 = .fall n) : n = (opWords (TC_OP w)).toNat := by
  unfold opWords
  rw [if_neg hop]
  by_cases hl : TC_OP w = RISCV_OP_LW_BZ ∨ TC_OP w = RISCV_OP_LBU_BZ
  · rw [if_pos hl]
    rcases @dispatch_loadBranch H h r p w w2 hl with ⟨idx, hj⟩ | hj
    · rw [hj] at hg
      cases hg
    · rw [hj] at hg
      cases hg
      rfl
  · rw [if_neg hl]
    rcases dispatch_fall h r p w w2 hg with hn | ⟨-, hn⟩
    · exact hn
    · exact absurd hn hl

/-- A trap has one word. -/
theorem dispatch_trap_words {stop : Bool} (hg : (dispatch h r p w w2).2.2 = .trap stop) :
    opWords (TC_OP w) = 1#32 := by
  unfold opWords
  rw [if_neg, if_neg]
  · intro hl
    rcases @dispatch_loadBranch H h r p w w2 hl with ⟨idx, hj⟩ | hj
    · rw [hj] at hg
      cases hg
    · rw [hj] at hg
      cases hg
  · intro hop
    unfold dispatch at hg
    simp only [hop] at hg
    cases hg

/-- Only the ops with a target jump by a displacement. -/
theorem dispatch_reloc_op {idx : Word} (hj : (dispatch h r p w w2).2.2 = .reloc idx) :
    Direct (TC_OP w) ∨ LoadBranch (TC_OP w) := by
  unfold dispatch at hj
  simp only at hj
  split at hj
  all_goals rename_i hop
  -- every other handler falls through, jumps indirectly or traps
  all_goals try (simp only [reduceCtorEq] at hj; done)
  case h_59 =>
    unfold hTrap at hj
    simp only [reduceCtorEq] at hj
  all_goals
    rw [hop]
    decide

end

/-! ## Places -/

section
variable (code : Nat → Byte) (len : Word) (targets : Targets)

/-- From the offset `o` on there are no instructions but dropped `NOP`s. -/
def Trailing (o : Word) : Prop :=
  ∀ c, Head code len targets c → o.toNat ≤ c.off.toNat →
    (c.unit code len targets).1.op = RISCV_OP_NOP

/-- The evaluator is at the unit `c`. -/
structure OpCursor.At (q : OpCursor H) (c : Cursor) : Prop where
  head : Head code len targets c
  index : c.at_.toNat = q.p
  op : (c.unit code len targets).1.op ≠ RISCV_OP_NOP

variable {code len targets}

/-- **The walk is at a unit, or at the end of the op array.** -/
theorem reached_place (hlen : Sized len) {n : Nat} {e : Cursor}
    (hrun : iter (walk code len targets) n .start = some e) (hend : len.toNat ≤ e.off.toNat)
    {k : Nat} {x : Cursor} (hx : iter (walk code len targets) k .start = some x) :
    (Trailing code len targets x.off ∧ x.at_ = e.at_) ∨
      (¬ Trailing code len targets x.off ∧ AtUnit code len targets x.at_.toNat) := by
  induction hm : len.toNat - x.off.toNat using Nat.strong_induction_on generalizing k x with
  | _ m ih =>
    have hinv := (walk_run hlen (start_inv len) hx).1
    have hinve := (walk_run hlen (start_inv len) hrun).1
    rcases Nat.lt_or_ge x.off.toNat len.toNat with hlt | hge
    · have hh : Head code len targets x := ⟨⟨k, hx⟩, (unitAt_iff hlen hinv code).2 hlt⟩
      have hwalk := walk_some hlen hinv code targets hlt
      obtain ⟨j, hu, hoff, hat, hinv'⟩ := past_spec hlen hinv code targets hlt
      have hpos := hu.pos
      by_cases hnop : (x.unit code len targets).1.op = RISCV_OP_NOP
      · -- a dropped `NOP` has the place of what follows it
        have hsame : (x.past code len targets).at_ = x.at_ := by
          refine BitVec.eq_of_toNat_eq ?_
          rw [hat, hnop]
          rfl
        have htrail : Trailing code len targets x.off ↔
            Trailing code len targets (x.past code len targets).off := by
          constructor
          · intro ht c hc hle
            exact ht c hc (by omega)
          · intro ht c hc hle
            rcases heads_ordered hlen hh hc with rfl | ⟨i, hi⟩ | ⟨i, hi⟩
            · exact hnop
            · have := (walk_run hlen hinv' hi).2.1
              exact ht c hc (by omega)
            · have := (heads_apart hlen hc hi).2.1
              omega
        rw [htrail, ← hsame]
        exact ih _ (by omega) (iter_add hx (iter_one hwalk)) rfl
      · exact .inr ⟨fun ht => hnop (ht x hh (Nat.le_refl _)), x, hh, rfl, hnop⟩
    · have heq : x = e := ends_unique ⟨k, hx, walk_none hlen hinv code targets hge⟩
        ⟨n, hrun, walk_none hlen hinve code targets hend⟩
      refine .inl ⟨fun c hc hle => ?_, congrArg Cursor.at_ heq⟩
      have := (hc.inv hlen).2
      omega

/-- The offset behind a unit is reached. -/
theorem past_reached (hlen : Sized len) {c : Cursor} (hc : Head code len targets c) :
    ∃ k, iter (walk code len targets) k .start = some (c.past code len targets) := by
  obtain ⟨k, hk⟩ := hc.reached
  obtain ⟨hinv, hlt⟩ := hc.inv hlen
  exact ⟨k + 1, iter_add hk (iter_one (walk_some hlen hinv code targets hlt))⟩

/-- The index behind a unit. -/
theorem past_index (hlen : Sized len) {c : Cursor} (hc : Head code len targets c) :
    (c.past code len targets).at_.toNat =
      c.at_.toNat + (opWords (c.unit code len targets).1.op).toNat := by
  obtain ⟨hinv, hlt⟩ := hc.inv hlen
  obtain ⟨-, -, -, hat, -⟩ := past_spec hlen hinv code targets hlt
  exact hat

end

/-! ## Where a displacement leads -/

theorem toNat_even (v : Word) : v[0] = false ↔ v.toNat % 2 = 0 := by
  rw [← BitVec.getLsbD_eq_getElem, BitVec.getLsbD, Nat.testBit_zero]
  simp

theorem branchImm_even (w : Word) : (branchImm w).toNat % 2 = 0 := by
  rw [← toNat_even]
  unfold branchImm bits
  rw [sext_eq _ 13 (by decide) (by decide)]
  simp [BitVec.getElem_signExtend]

theorem jalImm_even (w : Word) : (jalImm w).toNat % 2 = 0 := by
  rw [← toNat_even]
  unfold jalImm bits
  rw [sext_eq _ 21 (by decide) (by decide)]
  simp [BitVec.getElem_signExtend]

theorem target_even {code : Nat → Byte} {o : Word} (ho : o.toNat % 4 = 0)
    (hop : Direct (decode code o).op) : (decode code o).target.toNat % 2 = 0 := by
  have hfold : decode code o = decodeWord (wordAt code o) o := by
    unfold decode Dec.foldZero at hop ⊢
    split
    · rename_i hz
      rw [if_pos hz] at hop
      exact absurd hop (show ¬ Direct RISCV_OP_NOP by decide)
    · rfl
  rw [hfold] at hop ⊢
  rcases decodeWord_direct hop with ⟨-, ht⟩ | ⟨-, ht⟩
  · have := jalImm_even (wordAt code o)
    rw [ht, BitVec.toNat_add]
    omega
  · have := branchImm_even (wordAt code o)
    rw [ht, BitVec.toNat_add]
    omega

section
variable {code : Nat → Byte} {len : Word} {targets : Targets} {map : Nat → Word} {c : Cursor}

/-- A target that is no unit has the displacement zero. -/
theorem delta4_zero (hlen : Sized len)
    (hrest : ∀ j, (∀ c, Head code len targets c → (c.off >>> 1).toNat ≠ j) → map j = TC_SENTINEL)
    (hh : Head code len targets c)
    (hop : Direct (c.unit code len targets).1.op ∨ LoadBranch (c.unit code len targets).1.op)
    (hnone : ∀ c', Head code len targets c' → c'.off ≠ (c.unit code len targets).1.target) :
    delta4 c.at_ (c.unit code len targets).1 map len = 0#32 := by
  obtain ⟨o, -, -, hmod, -, hdirect, htarget, -⟩ := jump_behind hlen hh hop
  have heven := target_even hmod hdirect
  rw [htarget] at heven
  have hword : targetWord map len (c.unit code len targets).1.target c.at_ = c.at_ := by
    unfold targetWord
    split
    · rfl
    · simp only
      rw [hrest, if_pos rfl]
      intro c' hc' heq
      refine hnone c' hc' (BitVec.eq_of_toNat_eq ?_)
      have hmul := (hc'.inv hlen).1.mul
      rw [BitVec.toNat_ushiftRight, BitVec.toNat_ushiftRight, Nat.shiftRight_eq_div_pow,
        Nat.shiftRight_eq_div_pow] at heq
      omega
  unfold delta4
  rw [hword, BitVec.sub_self, BitVec.zero_mul]

/-- **Where a displacement leads**: to the unit at the target, or nowhere. -/
theorem unit_lands (hlen : Sized len) (htop : len.toNat ≤ 2 ^ 32 - 2 ^ 20) {ext : List Word}
    (htargets : collectTargets code len ext = some targets)
    (hheads : ∀ c, Head code len targets c → map (c.off >>> 1).toNat = c.at_)
    (hrest : ∀ j, (∀ c, Head code len targets c → (c.off >>> 1).toNat ≠ j) → map j = TC_SENTINEL)
    (hh : Head code len targets c)
    (hop : Direct (c.unit code len targets).1.op ∨ LoadBranch (c.unit code len targets).1.op)
    {w : Word} {rest : List Word}
    (hemit : emit c.at_ (c.unit code len targets).1 map len = w :: rest) {w2 : Word}
    (hw2 : ∀ w', rest = [w'] → w2 = w') :
    (∀ c', Head code len targets c' → c'.off = (c.unit code len targets).1.target →
      c.at_ + displacement w w2 = c'.at_) ∧
    ((∀ c', Head code len targets c' → c'.off ≠ (c.unit code len targets).1.target) →
      c.at_ + displacement w w2 = c.at_) := by
  constructor
  · intro c' hc' htarget
    obtain ⟨hinv, hlt⟩ := hc'.inv hlen
    rw [htarget] at hlt
    have hmul := hinv.mul
    rw [htarget] at hmul
    obtain ⟨c'', hc'', hoff, w', rest', hemit', hdisp⟩ :=
      unit_displacement hlen htop htargets hheads hh hop hmul hlt
    rw [hemit] at hemit'
    cases hemit'
    have hsame : c''.at_ = c'.at_ := by
      rw [← hheads c'' hc'', ← hheads c' hc', hoff, htarget]
    rw [← hsame]
    exact reloc_index hlen hh hc'' (hdisp w2 hw2)
  · intro hnone
    have hzero := delta4_zero hlen hrest hh hop hnone
    obtain ⟨w', rest', hemit', hdisp⟩ := displacement_emit c.at_ map len hop
      (fun _ => by rw [hzero]; decide) (fun _ _ => by rw [hzero]; decide)
    rw [hemit] at hemit'
    cases hemit'
    rw [hdisp w2 hw2, hzero]
    exact BitVec.add_zero _

end

/-! ## Past the last op -/

section
variable (code : Nat → Byte) (len : Word) (targets : Targets) (h : Hooks H) (m : Image)

/-- The op at the cursor leads past the last instruction: no instruction is left behind it, it jumps
to where none is left, or it jumps indirectly to an address past the program. -/
inductive GoesPast (q : OpCursor H) : Prop
  | fall {c : Cursor} {r : Run H} {k n : Nat} (at_ : q.At code len targets c)
      (op : q.op h m = some (r, k, .fall n))
      (past : Trailing code len targets (c.past code len targets).off)
  | trap {c : Cursor} {r : Run H} {k : Nat} (at_ : q.At code len targets c)
      (op : q.op h m = some (r, k, .trap false))
      (past : Trailing code len targets (c.past code len targets).off)
  | reloc {c : Cursor} {r : Run H} {k : Nat} {idx : Word} (at_ : q.At code len targets c)
      (op : q.op h m = some (r, k, .reloc idx))
      (past : Trailing code len targets (c.unit code len targets).1.target)
  | indirect {r : Run H} {k : Nat} {t : Word} (op : q.op h m = some (r, k, .indirect t))
      (past : t ≥ m.prog.code_len)

/-- The op at the cursor leads past the last instruction, and nothing stops it there: `NEXT` checks
nothing, `RELOC` and a serviced trap check only the budget `max`, and a target that has no op is
taken for the jump itself. -/
inductive Slips (max : Nat) (q : OpCursor H) : Prop
  | fall {c : Cursor} {r : Run H} {k n : Nat} (at_ : q.At code len targets c)
      (op : q.op h m = some (r, k, .fall n))
      (past : Trailing code len targets (c.past code len targets).off)
  | trap {c : Cursor} {r : Run H} {k : Nat} (at_ : q.At code len targets c)
      (op : q.op h m = some (r, k, .trap false))
      (past : Trailing code len targets (c.past code len targets).off) (left : q.k + k < max)
  | reloc {c : Cursor} {r : Run H} {k : Nat} {idx : Word} (at_ : q.At code len targets c)
      (op : q.op h m = some (r, k, .reloc idx))
      (past : Trailing code len targets (c.unit code len targets).1.target)
      (left : (∀ c', Head code len targets c' → c'.off ≠ (c.unit code len targets).1.target) ∨
        q.k + k < max)

/-- The words that the op at the cursor reads are words of the program. -/
def ReadsInside (m : Image) (q : OpCursor H) : Prop :=
  ∃ w, m.ops[q.p]? = some w ∧ (LoadBranch (TC_OP w) → q.p + 1 < m.ops.length)

end

/-- A transcoded program, and the walk over its units. -/
structure Walked (code : Nat → Byte) (len : Word) (ext : List Word) (targets : Targets)
    (map : Nat → Word) (m : Image) : Prop where
  sized : Sized len
  top : len.toNat ≤ 2 ^ 32 - 2 ^ 20
  collected : collectTargets code len ext = some targets
  heads : ∀ c, Head code len targets c → map (c.off >>> 1).toNat = c.at_ ∧
    emit c.at_ (c.unit code len targets).1 map len <+: m.ops.drop c.at_.toNat
  rest : ∀ j, (∀ c, Head code len targets c → (c.off >>> 1).toNat ≠ j) → map j = TC_SENTINEL
  ends : ∃ n e, iter (walk code len targets) n .start = some e ∧ len.toNat ≤ e.off.toNat ∧
    e.at_.toNat = m.ops.length

section
variable {code : Nat → Byte} {len : Word} {ext : List Word} {targets : Targets} {map : Nat → Word}
  {m : Image} (hm : Walked code len ext targets map m) {h : Hooks H} {max : Nat} {q : OpCursor H}
  {c : Cursor}
include hm

/-- An address that the walk reaches has the place of an op, or the end of the program. -/
theorem Walked.place {k : Nat} {x : Cursor} (hx : iter (walk code len targets) k .start = some x) :
    (Trailing code len targets x.off ∧ x.at_.toNat = m.ops.length) ∨
      (¬ Trailing code len targets x.off ∧ AtUnit code len targets x.at_.toNat) := by
  obtain ⟨n, e, hrun, hend, hcount⟩ := hm.ends
  rcases reached_place hm.sized hrun hend hx with ⟨ht, he⟩ | hu
  · exact .inl ⟨ht, by rw [he]; exact hcount⟩
  · exact .inr hu

/-- The words of a unit. -/
theorem Walked.word (hat : q.At code len targets c) :
    ∃ w rest, emit c.at_ (c.unit code len targets).1 map len = w :: rest ∧
      m.ops[q.p]? = some w ∧ TC_OP w = (c.unit code len targets).1.op ∧
      (∀ w', rest = [w'] → m.ops.getD (q.p + 1) 0#32 = w') ∧
      q.p + (opWords (c.unit code len targets).1.op).toNat ≤ m.ops.length := by
  obtain ⟨-, hpre⟩ := hm.heads c hat.head
  obtain ⟨w, rest, hemit, hop⟩ := emit_cons c.at_ map len (unit_op_lt c) hat.op
  have hlen := emit_length c.at_ (c.unit code len targets).1 map len
  have hfits := hpre.length_le
  rw [hat.index] at hpre hfits
  rw [List.length_drop] at hfits
  rw [hemit] at hpre hlen hfits
  have hget : m.ops[q.p]? = some w := by
    obtain ⟨tail, htail⟩ := hpre
    have h0 : (m.ops.drop q.p)[0]? = some w := by
      rw [← htail]
      rfl
    rwa [List.getElem?_drop, Nat.add_zero] at h0
  have hlt : q.p < m.ops.length := (List.getElem?_eq_some_iff.1 hget).1
  refine ⟨w, rest, hemit, hget, hop, ?_, by omega⟩
  rintro w' rfl
  exact getD_of_prefix hpre (by simp)

/-- What the op at a unit does is what `dispatch` makes of its words. -/
theorem Walked.op (hat : q.At code len targets c) {o : Run H × Nat × Goto}
    (ho : q.op h m = some o) :
    ∃ w rest, emit c.at_ (c.unit code len targets).1 map len = w :: rest ∧
      TC_OP w = (c.unit code len targets).1.op ∧
      (∀ w', rest = [w'] → m.ops.getD (q.p + 1) 0#32 = w') ∧
      dispatch h q.r (BitVec.ofNat 32 q.p) w (m.ops.getD (q.p + 1) 0#32) = o := by
  obtain ⟨w, rest, hemit, hget, hop, hw2, -⟩ := hm.word hat
  obtain ⟨w', hget', hd⟩ := op_inside ho
  rw [hget] at hget'
  cases hget'
  exact ⟨w, rest, hemit, hop, hw2, hd⟩

/-- A unit falls, and a trap returns, to the index behind it. -/
theorem Walked.behind (hat : q.At code len targets c) {r : Run H} {k : Nat} :
    (∀ n, q.op h m = some (r, k, .fall n) → q.p + n = (c.past code len targets).at_.toNat) ∧
    (∀ stop, q.op h m = some (r, k, .trap stop) →
      q.p + 1 = (c.past code len targets).at_.toNat) := by
  have hpast := past_index hm.sized hat.head
  rw [hat.index] at hpast
  constructor
  · intro n ho
    obtain ⟨w, rest, -, hop, -, hd⟩ := hm.op hat ho
    have hnop := hat.op
    rw [← hop] at hnop hpast
    rw [hpast, dispatch_fall_words hnop (congrArg (·.2.2) hd)]
  · intro stop ho
    obtain ⟨w, rest, -, hop, -, hd⟩ := hm.op hat ho
    rw [hpast, ← hop, dispatch_trap_words (congrArg (·.2.2) hd)]
    rfl

/-- A displacement leads to the unit at the target, or nowhere. -/
theorem Walked.lands (hat : q.At code len targets c) {r : Run H} {k : Nat} {idx : Word}
    (ho : q.op h m = some (r, k, .reloc idx)) :
    (∀ c', Head code len targets c' → c'.off = (c.unit code len targets).1.target →
      idx = c'.at_) ∧
    ((∀ c', Head code len targets c' → c'.off ≠ (c.unit code len targets).1.target) →
      idx = c.at_) := by
  obtain ⟨w, rest, hemit, hop, hw2, hd⟩ := hm.op hat ho
  have hj : (dispatch h q.r (BitVec.ofNat 32 q.p) w (m.ops.getD (q.p + 1) 0#32)).2.2 =
      .reloc idx := congrArg (·.2.2) hd
  have htarget := dispatch_reloc_op hj
  rw [hop] at htarget
  have hp : BitVec.ofNat 32 q.p = c.at_ := by
    rw [← hat.index, BitVec.ofNat_toNat, BitVec.setWidth_eq]
  rw [dispatch_reloc hj, hp]
  exact unit_lands hm.sized hm.top hm.collected (fun c hc => (hm.heads c hc).1) hm.rest hat.head
    htarget hemit hw2

theorem Walked.readsInside (hp : AtUnit code len targets q.p) : ReadsInside m q := by
  obtain ⟨c, hc, hi, hop⟩ := hp
  obtain ⟨w, rest, -, hget, hw, -, hfits⟩ := hm.word ⟨hc, hi, hop⟩
  refine ⟨w, hget, fun hl => ?_⟩
  have htwo : (opWords (c.unit code len targets).1.op).toNat = 2 := by
    rw [← hw]
    rcases hl with hl | hl
    · rw [hl]
      rfl
    · rw [hl]
      rfl
  omega

/-- **A step that does not slip** goes on at a unit. -/
theorem Walked.step (hat : AtUnit code len targets q.p)
    (hind : ∀ r k t, q.op h m = some (r, k, .indirect t) → t < m.prog.code_len →
      ∃ c, Head code len targets c ∧ c.at_ = t >>> 2)
    (hslip : ¬ Slips code len targets h m max q) {q' : OpCursor H}
    (hq : goOn h m max q = some q') : AtUnit code len targets q'.p := by
  obtain ⟨c, hc, hi, hop⟩ := hat
  have hat : q.At code len targets c := ⟨hc, hi, hop⟩
  obtain ⟨k, hk⟩ := past_reached hm.sized hc
  cases ho : q.op h m with
  | none =>
    unfold goOn at hq
    rw [ho] at hq
    cases hq
  | some o =>
    rw [goOn_op ho] at hq
    unfold OpCursor.next at hq
    obtain ⟨r, n, g⟩ := o
    cases g with
    | fall j =>
      cases hq
      rcases hm.place hk with ⟨ht, -⟩ | ⟨-, hu⟩
      · exact absurd (.fall hat ho ht) hslip
      · show AtUnit code len targets (q.p + j)
        rwa [(hm.behind hat).1 j ho]
    | trap stop =>
      cases stop with
      | true => cases hq
      | false =>
        simp only [Bool.false_eq_true, if_false] at hq
        split at hq
        · cases hq
        · rename_i hmax
          cases hq
          rcases hm.place hk with ⟨ht, -⟩ | ⟨-, hu⟩
          · exact absurd (.trap hat ho ht (by omega)) hslip
          · show AtUnit code len targets (q.p + 1)
            rwa [(hm.behind hat).2 false ho]
    | reloc idx =>
      simp only at hq
      split at hq
      · cases hq
      · rename_i hmax
        cases hq
        obtain ⟨hunit, hnone⟩ := hm.lands hat ho
        by_cases hex : ∃ c', Head code len targets c' ∧
            c'.off = (c.unit code len targets).1.target
        · obtain ⟨c', hc', htarget⟩ := hex
          show AtUnit code len targets idx.toNat
          rw [hunit c' hc' htarget]
          obtain ⟨k', hk'⟩ := hc'.reached
          rcases hm.place hk' with ⟨ht, -⟩ | ⟨-, hu⟩
          · rw [htarget] at ht
            exact absurd (.reloc hat ho ht (.inr (by omega))) hslip
          · exact hu
        · show AtUnit code len targets idx.toNat
          rw [hnone fun c' hc' heq => hex ⟨c', hc', heq⟩]
          exact ⟨c, hc, rfl, hop⟩
    | indirect t =>
      simp only at hq
      split at hq
      · cases hq
      · rename_i hwin
        split at hq
        · cases hq
        · cases hq
          have hlt : t < m.prog.code_len := BitVec.not_le.1 hwin
          obtain ⟨c', hc', hat'⟩ := hind r n t ho hlt
          obtain ⟨k', hk'⟩ := hc'.reached
          show AtUnit code len targets (t >>> 2).toNat
          rw [← hat']
          rcases hm.place hk' with ⟨-, hend⟩ | ⟨-, hu⟩
          · -- the end of the program is not below `code_len`
            rw [hat', BitVec.toNat_ushiftRight, Nat.shiftRight_eq_div_pow] at hend
            rw [BitVec.lt_def, m.code_len] at hlt
            omega
          · exact hu

/-- The start of the program is at a unit. -/
theorem Walked.start {r : Run H} (hpc : r.s.pc = 0#32) (hwin : r.s.pc < m.prog.code_len) :
    AtUnit code len targets (OpCursor.start r).p := by
  have hp : (OpCursor.start r).p = Cursor.start.at_.toNat := by
    show (r.s.pc >>> 2).toNat = 0
    rw [hpc]
    rfl
  rw [hp]
  rcases hm.place (k := 0) rfl with ⟨-, hend⟩ | ⟨-, hu⟩
  · rw [BitVec.lt_def, m.code_len, ← hend] at hwin
    exact absurd hwin (Nat.not_lt_zero _)
  · exact hu

omit hm in
/-- Where a call returns, it is with what `landFrom` makes of the op. -/
theorem landFrom_last {r : Run H} (hin : ∀ q, Entered h m max r q → q.p < m.ops.length)
    (hq : Entered h m max r q) {o : Run H × Nat × Goto} (ho : q.op h m = some o)
    (hnone : q.next m max o = none) :
    riscvEmulatorLoop h m.prog r max = landFrom h m max 0 q o := by
  obtain ⟨hpc, n, hn⟩ := hq
  obtain ⟨fuel, -, hloop⟩ := entered_loop hin hpc hn
  rw [hloop, loopFrom_landFrom fuel ho]
  exact (landFrom_next fuel q o).2 hnone

omit hm in
/-- The address behind the last word. -/
theorem pc_behind {i : Word} (hi : i.toNat = m.ops.length) : i <<< 2 ≥ m.prog.code_len := by
  have hsmall := m.small
  rw [ge_iff_le, BitVec.le_def, m.code_len, BitVec.toNat_shiftLeft, hi, Nat.shiftLeft_eq]
  omega

/-- **A call that does not slip stops cleanly** where it goes past the last op. -/
theorem Walked.stops {r : Run H} (hin : ∀ q, Entered h m max r q → q.p < m.ops.length)
    (hq : Entered h m max r q) (hslip : ¬ Slips code len targets h m max q)
    (hpast : GoesPast code len targets h m q) :
    goOn h m max q = none ∧ (riscvEmulatorLoop h m.prog r max).r.s.pc ≥ m.prog.code_len := by
  have hp := hin q hq
  have hsmall := m.small
  cases hpast with
  | fall hat ho ht => exact absurd (.fall hat ho ht) hslip
  | @trap c r' k hat ho ht =>
    have hmax : q.k + k ≥ max := by
      by_contra hlt
      exact hslip (.trap hat ho ht (Nat.not_le.1 hlt))
    have hnone : q.next m max (r', k, .trap false) = none := if_pos hmax
    refine ⟨(goOn_op ho).trans hnone, ?_⟩
    rw [landFrom_last hin hq ho hnone]
    unfold landFrom
    simp only
    rw [if_pos hmax]
    show BitVec.ofNat 32 q.p <<< 2 + 4#32 ≥ m.prog.code_len
    obtain ⟨j, hj⟩ := past_reached hm.sized hat.head
    rcases hm.place hj with ⟨-, hend⟩ | ⟨hne, -⟩
    · have hbehind := (hm.behind hat).2 false ho
      have hpc : BitVec.ofNat 32 q.p <<< 2 + 4#32 = BitVec.ofNat 32 (q.p + 1) <<< 2 := by
        refine BitVec.eq_of_toNat_eq ?_
        rw [BitVec.toNat_add, BitVec.toNat_shiftLeft, BitVec.toNat_shiftLeft, Nat.shiftLeft_eq,
          Nat.shiftLeft_eq, BitVec.toNat_ofNat, BitVec.toNat_ofNat, BitVec.toNat_ofNat]
        omega
      rw [hpc]
      refine pc_behind ?_
      rw [BitVec.toNat_ofNat, Nat.mod_eq_of_lt (by omega)]
      omega
    · exact absurd ht hne
  | @reloc c r' k idx hat ho ht =>
    have hmax : q.k + k ≥ max := by
      by_contra hlt
      exact hslip (.reloc hat ho ht (.inr (Nat.not_le.1 hlt)))
    have hex : ∃ c', Head code len targets c' ∧
        c'.off = (c.unit code len targets).1.target := by
      by_contra hno
      exact hslip (.reloc hat ho ht (.inl fun c' hc' heq => hno ⟨c', hc', heq⟩))
    obtain ⟨c', hc', htarget⟩ := hex
    have hnone : q.next m max (r', k, .reloc idx) = none := if_pos hmax
    refine ⟨(goOn_op ho).trans hnone, ?_⟩
    rw [landFrom_last hin hq ho hnone]
    unfold landFrom
    simp only
    rw [if_pos hmax]
    show idx <<< 2 ≥ m.prog.code_len
    refine pc_behind ?_
    rw [(hm.lands hat ho).1 c' hc' htarget]
    obtain ⟨j, hj⟩ := hc'.reached
    rw [← htarget] at ht
    rcases hm.place hj with ⟨-, hend⟩ | ⟨hne, -⟩
    · exact hend
    · exact absurd ht hne
  | @indirect r' k t ho ht =>
    have hnone : q.next m max (r', k, .indirect t) = none := if_pos ht
    refine ⟨(goOn_op ho).trans hnone, ?_⟩
    rw [landFrom_last hin hq ho hnone]
    unfold landFrom
    simp only
    rw [if_pos ht]
    exact ht

/-- **A call that stops cleanly does not slip.** -/
theorem Walked.holds {r : Run H} (hin : ∀ q, Entered h m max r q → q.p < m.ops.length)
    (hq : Entered h m max r q)
    (hstop : GoesPast code len targets h m q → goOn h m max q = none ∧
      (riscvEmulatorLoop h m.prog r max).r.s.pc ≥ m.prog.code_len) :
    ¬ Slips code len targets h m max q := by
  have hp := hin q hq
  have hsmall := m.small
  intro hs
  cases hs with
  | fall hat ho ht =>
    obtain ⟨hnone, -⟩ := hstop (.fall hat ho ht)
    rw [goOn_op ho] at hnone
    cases hnone
  | trap hat ho ht hleft =>
    obtain ⟨hnone, -⟩ := hstop (.trap hat ho ht)
    rw [goOn_op ho] at hnone
    unfold OpCursor.next at hnone
    simp only [Bool.false_eq_true, if_false] at hnone
    rw [if_neg (by omega)] at hnone
    cases hnone
  | @reloc c r' k idx hat ho ht hleft =>
    obtain ⟨hnone, hpc⟩ := hstop (.reloc hat ho ht)
    rw [goOn_op ho] at hnone
    have hmax : q.k + k ≥ max := by
      by_contra hlt
      unfold OpCursor.next at hnone
      simp only at hnone
      rw [if_neg hlt] at hnone
      cases hnone
    rcases hleft with hno | hleft
    · -- the jump is taken for its own target, which lies in the program
      rw [landFrom_last hin hq ho hnone] at hpc
      unfold landFrom at hpc
      simp only at hpc
      rw [if_pos hmax] at hpc
      change idx <<< 2 ≥ m.prog.code_len at hpc
      rw [(hm.lands hat ho).2 hno, ge_iff_le, BitVec.le_def, m.code_len, BitVec.toNat_shiftLeft,
        hat.index, Nat.shiftLeft_eq] at hpc
      omega
    · omega

end

/-- **Running past the last op.**  From pc 0, with every indirect jump to a unit of the program, a
call reads only words of the program, and returns with a pc at or past `code_len` wherever it goes
past the last instruction, exactly if none of its ops slips. -/
theorem riscvEmulatorLoop_past (code : Nat → Byte) {len : Word} (hmul : len.toNat % 4 = 0)
    (htop : len.toNat ≤ 2 ^ 32 - 2 ^ 20) (ext : List Word) :
    ∃ targets map, ∃ m : Image, collectTargets code len ext = some targets ∧
      transcodeMapEx code len ext = some (map, m.prog.n_ops) ∧
      transcodeEx code len ext = some m.prog ∧
      (∀ a ∈ ext, a.toNat % 4 = 0 → a.toNat < len.toNat →
        ∃ c, Head code len targets c ∧ c.off = a ∧ map (a >>> 1).toNat = c.at_) ∧
      ∀ (h : Hooks H) (r : Run H) (max : Nat), r.s.pc = 0#32 →
        (∀ q, Entered h m max r q → ∀ r' k t, q.op h m = some (r', k, .indirect t) →
          t < m.prog.code_len → ∃ c, Head code len targets c ∧ c.at_ = t >>> 2) →
        ((∀ q, Entered h m max r q → ReadsInside m q ∧
            (GoesPast code len targets h m q → goOn h m max q = none ∧
              (riscvEmulatorLoop h m.prog r max).r.s.pc ≥ m.prog.code_len)) ↔
          ∀ q, Entered h m max r q → ¬ Slips code len targets h m max q) := by
  have hlen : Sized len := ⟨hmul, by omega⟩
  obtain ⟨targets, map, m, htargets, hmap, hprog, -, hheads, hrest, hends⟩ :=
    transcodeEx_image code hlen ext
  have hm : Walked code len ext targets map m := ⟨hlen, htop, htargets, hheads, hrest, hends⟩
  refine ⟨targets, map, m, htargets, hmap, hprog, ?_, ?_⟩
  · intro a ha h4 hin
    obtain ⟨c, hc, rfl⟩ := target_head hlen htargets (.inl ha) h4 hin
    exact ⟨c, hc, rfl, (hheads c hc).1⟩
  · intro h r max hpc hind
    have hinside : ∀ q : OpCursor H, ReadsInside m q → q.p < m.ops.length := by
      rintro q ⟨w, hw, -⟩
      exact (List.getElem?_eq_some_iff.1 hw).1
    constructor
    · intro hprop q hq
      exact hm.holds (fun q hq => hinside q (hprop q hq).1) hq (hprop q hq).2
    · intro hslip
      have hunits : ∀ n q, r.s.pc < m.prog.code_len →
          iter (goOn h m max) n (OpCursor.start r) = some q → AtUnit code len targets q.p := by
        intro n
        induction n with
        | zero =>
          intro q hwin hq
          cases hq
          exact hm.start hpc hwin
        | succ n ih =>
          intro q hwin hq
          obtain ⟨q₁, hq₁, hgo⟩ := iter_last hq
          have hent : Entered h m max r q₁ := ⟨hwin, n, hq₁⟩
          exact hm.step (ih q₁ hwin hq₁) (hind q₁ hent) (hslip q₁ hent) hgo
      have hreads : ∀ q, Entered h m max r q → ReadsInside m q := by
        rintro q ⟨hwin, n, hn⟩
        exact hm.readsInside (hunits n q hwin hn)
      intro q hq
      exact ⟨hreads q hq, hm.stops (fun q hq => hinside q (hreads q hq)) hq (hslip q hq)⟩

/-- A use of `riscvEmulatorLoop_past`: `BEQ x0, x0, 0`, with a budget of 1. -/
theorem riscvEmulatorLoop_past_beq :
    ∃ targets, ∃ m : Image,
      transcodeEx (fun i => [0x63, 0x00, 0x00, 0x00].getD i 0) 4#32 [] = some m.prog ∧
      ((∀ q, Entered Hooks.null m 1 ⟨State.boot [] 1, []⟩ q → ReadsInside m q ∧
          (GoesPast (fun i => [0x63, 0x00, 0x00, 0x00].getD i 0) 4#32 targets Hooks.null m q →
            goOn Hooks.null m 1 q = none ∧
              (riscvEmulatorLoop Hooks.null m.prog ⟨State.boot [] 1, []⟩ 1).r.s.pc ≥
                m.prog.code_len)) ↔
        ∀ q, Entered Hooks.null m 1 ⟨State.boot [] 1, []⟩ q →
          ¬ Slips (fun i => [0x63, 0x00, 0x00, 0x00].getD i 0) 4#32 targets Hooks.null m 1 q) := by
  obtain ⟨targets, map, m, -, -, hprog, -, hall⟩ :=
    @riscvEmulatorLoop_past Unit (fun i => [0x63, 0x00, 0x00, 0x00].getD i 0) 4#32 (by decide)
      (by decide) []
  refine ⟨targets, m, hprog, hall Hooks.null ⟨State.boot [] 1, []⟩ 1 rfl ?_⟩
  have hops : some m.ops = some [0x8c000000#32] :=
    (congrArg (Option.map Transcoded.ops) hprog).symm.trans (by decide)
  rw [Option.some.injEq] at hops
  have hstart : (OpCursor.start ⟨State.boot [] 1, []⟩).op Hooks.null m =
      some (⟨State.boot [] 1, []⟩, 1, .reloc 0#32) := by
    unfold OpCursor.op OpCursor.dispatch
    rw [hops]
    rfl
  rintro q ⟨-, n, hn⟩ r' k t ho
  cases n with
  | zero =>
    cases hn
    rw [hstart] at ho
    cases ho
  | succ n =>
    rw [iter, goOn_op hstart] at hn
    cases hn

/-- `addi x1, x0, 5` and nothing else: the evaluator goes on to an op word that is not there. -/
theorem addi_runs_past :
    let r : Run Unit := ⟨State.boot [] 1, []⟩
    let m : Image := ⟨[0x28200005#32], by decide⟩
    r.s.pc = 0#32 ∧
      (transcodeEx (fun i => [0x93, 0x00, 0x50, 0x00].getD i 0) 4#32 []).map Transcoded.ops =
        some m.ops ∧
      (∃ q, Entered Hooks.null m 10 r q ∧ ¬ ReadsInside m q) ∧
      (riscvEmulatorLoop Hooks.null m.prog r 10).stop = .wild := by
  refine ⟨rfl, by decide, ⟨_, ⟨by decide, 1, rfl⟩, ?_⟩, by decide⟩
  rintro ⟨w, hw, -⟩
  cases hw

end Purv.Purva

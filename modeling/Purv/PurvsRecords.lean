import Purv.Lib.Tiles
import Purv.PurvsTrap

/-!
# The records of a round of `purvs`

Loop 1 decides the width of a record by a mask over the op numbers, and the evaluator by what each
handler reads.  Here the records that loop 1 leaves are followed through the buffer, and the cursor
of the evaluator over them.

* `iterationsFrom`, `emittedFrom` — the loop at each call of `decode_one`, and what it leaves there;
* `Emitted` — the records fill the buffer up to the write cursor, and only the last is a trap;
* `cursorsFrom` — where the evaluator dispatches;
* `eval_emitted` — it dispatches on each record in order, and then on the sentinel;
* `ahead_wellFormed` — so it is for every code window, start pc and budget.
-/

namespace Purv.Purvs

open Bits Tiling

variable {H : Type}

/-! ## What loop 1 leaves -/

/-- The slots of a record: its head, and its immediate if its op has one. -/
def Pair.width (d : Pair) : Nat := if opHasImm d.head.op.toNat then 2 else 1

/-- `w` and `w[1]`. -/
def Block.pair (b : Block) (w : Nat) : Pair := ⟨b w, b (w + 1)⟩

/-- The variables of loop 1 at each call of `decode_one`. -/
def iterationsFrom (code : Nat → Byte) (code_len win : Word) : Nat → Ahead → List Ahead
  | 0, _ => []
  | left + 1, a =>
    if mustStop code code_len win a.pc then []
    else
      match a.lower (fetch code a.pc) with
      | (_, true) => [a]
      | (b, false) => a :: iterationsFrom code code_len win left b

/-- The records that loop 1 leaves, each with the slot of its head. -/
def emittedFrom (code : Nat → Byte) (code_len win : Word) : Nat → Ahead → List (Nat × Pair)
  | 0, _ => []
  | left + 1, a =>
    if mustStop code code_len win a.pc then []
    else
      match a.lower (fetch code a.pc) with
      | (b, true) => [(a.w, b.block.pair a.w)]
      | (b, false) =>
        if b.n = a.n then emittedFrom code code_len win left b
        else (a.w, b.block.pair a.w) :: emittedFrom code code_len win left b

theorem pair_width (d : Pair) : 0 < d.width := by
  unfold Pair.width
  split <;> decide

theorem trap_imm {op : Nat} (htrap : isTrap op = true) : opHasImm op = true := by
  unfold isTrap RISCV_OP_ECALL RISCV_OP_ILLEGAL at htrap
  unfold opHasImm
  rw [htrap, Bool.or_true]

theorem wrote_pair (a : Ahead) (d : Pair) : (a.wrote d).pair a.w = d := by
  unfold Block.pair
  rw [wrote_head, wrote_tail]

/-- An iteration leaves no record, or one at its cursor that moves the cursor by its width; a trap
is the last. -/
theorem lower_pair (a : Ahead) (i : Insn) :
    ((a.lower i).1.n = a.n ∧ (a.lower i).1.w = a.w ∧ (a.lower i).1.last_w = a.last_w ∧
        (a.lower i).2 = false) ∨
      ((a.lower i).1.n = a.n + 1 ∧ (a.lower i).1.last_w = a.w ∧
        (a.lower i).1.w = a.w + ((a.lower i).1.block.pair a.w).width ∧
        ((a.lower i).1.block.pair a.w).head.op.toNat < RISCV_OP_END ∧
        (isTrap ((a.lower i).1.block.pair a.w).head.op.toNat = true → (a.lower i).2 = true)) := by
  have hop := decoded_op a i
  unfold Ahead.lower
  simp only
  split
  · split
    · -- a linking jump leaves its link
      refine Or.inr ⟨rfl, rfl, ?_, ?_, ?_⟩
      all_goals simp only [wrote_pair]
      · rfl
      · exact (by decide : RISCV_OP_LUI < RISCV_OP_END)
      · intro htrap
        cases htrap
    · exact Or.inl ⟨rfl, rfl, rfl, rfl⟩
  · refine Or.inr ⟨rfl, rfl, ?_, ?_, ?_⟩
    all_goals simp only [wrote_pair]
    · rfl
    · exact hop
    · intro htrap
      unfold isTrap at htrap
      unfold isTerminator
      rw [htrap, Bool.or_true]

/-- The records `l` are what loop 1 leaves between `a` and `z`. -/
structure Emitted (a : Ahead) (l : List (Nat × Pair)) (z : Ahead) : Prop where
  count : z.n = a.n + l.length
  tiles : Tiles Pair.width a.w l z.w
  last : z.last_w = (l.map Prod.fst).getLastD a.last_w
  op : ∀ d p, (d, p) ∈ l → p.head.op.toNat < RISCV_OP_END
  head : ∀ d p, (d, p) ∈ l → z.block d = p.head
  tail : ∀ d p, (d, p) ∈ l → opHasImm p.head.op.toNat = true → z.block (d + 1) = p.tail
  alone : l.Pairwise fun x _ => isTrap x.2.head.op.toNat = false

theorem Emitted.nil (a : Ahead) : Emitted a [] a where
  count := rfl
  tiles := rfl
  last := rfl
  op := fun _ _ h => absurd h List.not_mem_nil
  head := fun _ _ h => absurd h List.not_mem_nil
  tail := fun _ _ h => absurd h List.not_mem_nil
  alone := List.Pairwise.nil

section
variable {a b z : Ahead} {l : List (Nat × Pair)}

/-- An iteration that leaves no record. -/
theorem Emitted.skip (hn : b.n = a.n) (hw : b.w = a.w) (hl : b.last_w = a.last_w)
    (he : Emitted b l z) : Emitted a l z where
  count := hn ▸ he.count
  tiles := hw ▸ he.tiles
  last := hl ▸ he.last
  op := he.op
  head := he.head
  tail := he.tail
  alone := he.alone

/-- An iteration that leaves one. -/
theorem Emitted.cons (hn : b.n = a.n + 1) (hl : b.last_w = a.w)
    (hw : b.w = a.w + (b.block.pair a.w).width)
    (hop : (b.block.pair a.w).head.op.toNat < RISCV_OP_END)
    (htrap : isTrap (b.block.pair a.w).head.op.toNat = true → l = [])
    (hbelow : ∀ j < b.w, z.block j = b.block j) (he : Emitted b l z) :
    Emitted a ((a.w, b.block.pair a.w) :: l) z where
  count := by
    rw [he.count, hn, List.length_cons]
    omega
  tiles := ⟨rfl, hw ▸ he.tiles⟩
  last := by
    rw [he.last, hl, List.map_cons, List.getLastD_cons]
  op := by
    intro d p hp
    cases hp with
    | head => exact hop
    | tail _ hp => exact he.op d p hp
  head := by
    intro d p hp
    cases hp with
    | head =>
      have hpos := pair_width (b.block.pair a.w)
      exact hbelow a.w (by omega)
    | tail _ hp => exact he.head d p hp
  tail := by
    intro d p hp himm
    cases hp with
    | head =>
      have hwide : (b.block.pair a.w).width = 2 := if_pos himm
      exact hbelow (a.w + 1) (by omega)
    | tail _ hp => exact he.tail d p hp himm
  alone := by
    refine List.Pairwise.cons (fun y hy => ?_) he.alone
    refine Bool.eq_false_iff.mpr fun h => ?_
    rw [htrap h] at hy
    cases hy

end

section
variable {code : Nat → Byte} {code_len win : Word}

theorem decodeAhead_emitted (left : Nat) (a : Ahead) :
    Emitted a (emittedFrom code code_len win left a) (decodeAhead code code_len win left a) := by
  induction left generalizing a with
  | zero => exact Emitted.nil a
  | succ left ih =>
    unfold decodeAhead emittedFrom
    cases mustStop code code_len win a.pc with
    | true => exact Emitted.nil a
    | false =>
      have hone := lower_pair a (fetch code a.pc)
      simp only [Bool.false_eq_true, if_false]
      cases hl : a.lower (fetch code a.pc) with
      | mk b stop =>
        rw [hl] at hone
        simp only at hone
        cases stop with
        | true =>
          simp only
          rcases hone with ⟨-, -, -, hgo⟩ | ⟨hn, hlast, hw, hop, -⟩
          · cases hgo
          · exact Emitted.cons hn hlast hw hop (fun _ => rfl) (fun _ _ => rfl) (Emitted.nil b)
        | false =>
          simp only
          rcases hone with ⟨hn, hw, hlast, -⟩ | ⟨hn, hlast, hw, hop, htrap⟩
          · rw [if_pos hn]
            exact Emitted.skip hn hw hlast (ih b)
          · rw [if_neg (by omega)]
            exact Emitted.cons hn hlast hw hop (fun h => by cases htrap h)
              (decodeAhead_spec code code_len win left b).1 (ih b)

/-- The write cursor is at most two slots on for each instruction, at each iteration and after the
last. -/
theorem iterations_bound (left : Nat) (a : Ahead) (hw : a.w ≤ 2 * a.insns) :
    (∀ x ∈ iterationsFrom code code_len win left a,
      x.w ≤ 2 * x.insns ∧ x.insns < a.insns + left) ∧
    (decodeAhead code code_len win left a).w ≤ 2 * (decodeAhead code code_len win left a).insns ∧
    (decodeAhead code code_len win left a).insns ≤ a.insns + left := by
  induction left generalizing a with
  | zero => exact ⟨fun x hx => absurd hx List.not_mem_nil, hw, Nat.le_refl _⟩
  | succ left ih =>
    unfold decodeAhead iterationsFrom
    cases mustStop code code_len win a.pc with
    | true => exact ⟨fun x hx => absurd hx List.not_mem_nil, hw, Nat.le_add_right _ _⟩
    | false =>
      obtain ⟨-, -, hstep, hinsns⟩ := lower_spec a (fetch code a.pc)
      simp only [Bool.false_eq_true, if_false]
      cases hl : a.lower (fetch code a.pc) with
      | mk b stop =>
        rw [hl] at hstep hinsns
        simp only at hstep hinsns
        have hb : b.w ≤ 2 * b.insns := by omega
        cases stop with
        | true =>
          refine ⟨fun x hx => ?_, hb, by simp only; omega⟩
          rw [List.mem_singleton.mp hx]
          exact ⟨hw, by omega⟩
        | false =>
          obtain ⟨hall, hlast, hcount⟩ := ih b hb
          refine ⟨fun x hx => ?_, hlast, by simp only; omega⟩
          rcases List.mem_cons.mp hx with rfl | hx
          · exact ⟨hw, by omega⟩
          · obtain ⟨hx, hlt⟩ := hall x hx
            exact ⟨hx, by omega⟩

end

/-! ## Where the evaluator dispatches -/

/-- The slots at which the evaluator dispatches, from `d` on. -/
def cursorsFrom (h : Hooks H) (block : Block) : Nat → Run H → Nat → List Nat
  | 0, _, _ => []
  | fuel + 1, r, d =>
    let op := (block d).op.toNat
    if isTrap op then [d]
    else if op = RISCV_OP_END then [d]
    else
      let (r, stride) := handler h r (block d) (block (d + 1)).imm
      d :: cursorsFrom h block fuel r (d + stride)

theorem cursors_step (h : Hooks H) {block : Block} (fuel : Nat) (r : Run H) {d : Nat}
    (htrap : isTrap (block d).op.toNat = false) (hend : (block d).op.toNat ≠ RISCV_OP_END) :
    cursorsFrom h block (fuel + 1) r d =
      d :: cursorsFrom h block fuel (handler h r (block d) (block (d + 1)).imm).1
        (d + (handler h r (block d) (block (d + 1)).imm).2) := by
  rw [cursorsFrom]
  simp only [htrap, if_neg hend]
  rfl

/-- The evaluator, after dispatching on `heads`, ends on the sentinel at `stop`, or on a trap that is
the last of them; what it returns is past it. -/
inductive EndsAt (block : Block) (heads : List Nat) (stop : Nat) : List Nat → Nat → Prop where
  | sentinel (hend : (block stop).op = opByte RISCV_OP_END) :
      EndsAt block heads stop (heads ++ [stop]) stop
  | trap (d : Nat) (hlast : heads.getLast? = some d) (htrap : isTrap (block d).op.toNat = true) :
      EndsAt block heads stop heads (d + 1)

theorem EndsAt.cons {block : Block} {heads cursors : List Nat} {stop ran : Nat} (d : Nat)
    (h : EndsAt block heads stop cursors ran) :
    EndsAt block (d :: heads) stop (d :: cursors) ran := by
  cases h with
  | sentinel hend => exact EndsAt.sentinel hend
  | trap e hlast htrap =>
    refine EndsAt.trap e ?_ htrap
    rw [List.getLast?_cons, hlast]
    rfl

/-- One dispatch strides over the record, or over the head of a trap. -/
theorem eval_stride (h : Hooks H) {block : Block} (r : Run H) {d : Nat} {p : Pair}
    (hhead : block d = p.head) (hop : p.head.op.toNat < RISCV_OP_END) :
    (defaultEvalFrom h block 1 r d).2 =
      d + if isTrap p.head.op.toNat then 1 else p.width := by
  cases htrap : isTrap p.head.op.toNat with
  | true =>
    rw [defaultEvalFrom, hhead]
    simp only [htrap, if_true]
  | false =>
    rw [eval_step h 0 r (by rw [hhead]; exact htrap) (by rw [hhead]; omega), hhead,
      handler_stride h r _ htrap]
    rfl

/-- **The evaluator over the records of a buffer** dispatches on each in order, and then on the
sentinel unless the last is a trap. -/
theorem eval_emitted (h : Hooks H) {block : Block} {l : List (Nat × Pair)} {w stop : Nat}
    (htiles : Tiles Pair.width w l stop)
    (hop : ∀ d p, (d, p) ∈ l → p.head.op.toNat < RISCV_OP_END)
    (hhead : ∀ d p, (d, p) ∈ l → block d = p.head)
    (halone : l.Pairwise fun x _ => isTrap x.2.head.op.toNat = false)
    (hend : (block stop).op = opByte RISCV_OP_END) {fuel : Nat} (hfuel : l.length < fuel)
    (r : Run H) :
    EndsAt block (l.map Prod.fst) stop (cursorsFrom h block fuel r w)
        (defaultEvalFrom h block fuel r w).2 ∧
      w + l.length ≤ (defaultEvalFrom h block fuel r w).2 := by
  obtain ⟨fuel, rfl⟩ : ∃ f, fuel = f + 1 := ⟨fuel - 1, by omega⟩
  induction l generalizing w fuel r with
  | nil =>
    have hw : w = stop := htiles
    subst hw
    have hcur : cursorsFrom h block (fuel + 1) r w = [w] := by
      rw [cursorsFrom]
      simp only [hend]
      rfl
    rw [eval_sentinel h hfuel r hend, hcur]
    exact ⟨EndsAt.sentinel hend, Nat.le_refl _⟩
  | cons x l ih =>
    obtain ⟨d, p⟩ := x
    obtain ⟨rfl, htiles⟩ := htiles
    have hd : block d = p.head := hhead d p (by simp)
    have hlt : p.head.op.toNat < RISCV_OP_END := hop d p (by simp)
    obtain ⟨hfirst, halone⟩ := List.pairwise_cons.mp halone
    cases htrap : isTrap p.head.op.toNat with
    | true =>
      -- nothing follows a trap
      have hnil : l = [] := List.eq_nil_iff_forall_not_mem.mpr fun y hy => by
        have hno := hfirst y hy
        rw [htrap] at hno
        cases hno
      subst hnil
      have hcur : cursorsFrom h block (fuel + 1) r d = [d] := by
        rw [cursorsFrom]
        simp only [hd, htrap, if_true]
      have heval : (defaultEvalFrom h block (fuel + 1) r d).2 = d + 1 := by
        rw [defaultEvalFrom]
        simp only [hd, htrap, if_true]
      rw [hcur, heval]
      exact ⟨EndsAt.trap d rfl (by rw [hd]; exact htrap), Nat.le_refl _⟩
    | false =>
      have hgo : isTrap (block d).op.toNat = false := by rw [hd]; exact htrap
      have hne : (block d).op.toNat ≠ RISCV_OP_END := by rw [hd]; omega
      have hstride : (handler h r (block d) (block (d + 1)).imm).2 = p.width := by
        rw [handler_stride h r _ hgo, hd]
        rfl
      rw [cursors_step h fuel r hgo hne, eval_step h fuel r hgo hne, hstride]
      have hpos := pair_width p
      simp only [List.length_cons] at hfuel
      obtain ⟨f, rfl⟩ : ∃ f, fuel = f + 1 := ⟨fuel - 1, by omega⟩
      obtain ⟨hends, hran⟩ := ih htiles (fun e q hq => hop e q (by simp [hq]))
        (fun e q hq => hhead e q (by simp [hq])) halone
        (handler h r (block d) (block (d + 1)).imm).1 f (by omega)
      refine ⟨hends.cons d, ?_⟩
      simp only [List.length_cons]
      omega

/-! ## A round -/

/-- The start of loop 1. -/
def Ahead.start (block : Block) (r : Run H) : Ahead := ⟨block, 0, 0, r.s.pc, 0, 0⟩

/-- The variables of loop 1 at each call of `decode_one` of the round from `r`. -/
def iterations (code : Buf) (code_len win : Word) (lim : Nat) (block : Block) (r : Run H) :
    List Ahead :=
  if code = 0 then []
  else iterationsFrom (r.s.mem code) code_len win lim (Ahead.start block r)

/-- The records of the round from `r`, each with the slot of its head. -/
def emitted (code : Buf) (code_len win : Word) (lim : Nat) (block : Block) (r : Run H) :
    List (Nat × Pair) :=
  if code = 0 then []
  else emittedFrom (r.s.mem code) code_len win lim (Ahead.start block r)

section
variable (code : Buf) (code_len win : Word) (lim : Nat) (block : Block) (r : Run H)

theorem ahead_emitted : Emitted (Ahead.start block r) (emitted code code_len win lim block r)
    (ahead code code_len win lim block r) := by
  unfold ahead emitted
  split
  · exact Emitted.nil _
  · exact decodeAhead_emitted lim _

theorem ahead_bound :
    (∀ x ∈ iterations code code_len win lim block r, x.w ≤ 2 * x.insns ∧ x.insns < lim) ∧
      (ahead code code_len win lim block r).w ≤
        2 * (ahead code code_len win lim block r).insns ∧
      (ahead code code_len win lim block r).insns ≤ lim := by
  have h := @iterations_bound (r.s.mem code) code_len win lim (Ahead.start block r) (Nat.le_refl 0)
  rw [show (Ahead.start block r).insns = 0 from rfl, Nat.zero_add] at h
  unfold ahead iterations
  split
  · exact ⟨fun x hx => absurd hx List.not_mem_nil, Nat.le_refl 0, Nat.zero_le _⟩
  · exact h

end

/-- Closing the buffer leaves the records in it. -/
theorem Emitted.closed {a z : Ahead} {l : List (Nat × Pair)} (he : Emitted a l z) {d : Nat}
    {p : Pair} (hp : (d, p) ∈ l) :
    z.closed d = p.head ∧ (opHasImm p.head.op.toNat = true → z.closed (d + 1) = p.tail) := by
  have hc := closed_closed z
  have hin := (he.tiles.mem hp).2
  have hpos := pair_width p
  refine ⟨(hc.below d (by omega)).trans (he.head d p hp), fun himm => ?_⟩
  have hwide : p.width = 2 := if_pos himm
  exact (hc.below (d + 1) (by omega)).trans (he.tail d p hp himm)

/-- A trap is the last head. -/
theorem Emitted.trap_last {a z : Ahead} {l : List (Nat × Pair)} (he : Emitted a l z) {d : Nat}
    {p : Pair} (hp : (d, p) ∈ l) (htrap : isTrap p.head.op.toNat = true) : d = z.last_w := by
  obtain ⟨before, after, hl⟩ := List.append_of_mem hp
  have halone := he.alone
  rw [hl, List.pairwise_append, List.pairwise_cons] at halone
  have hnil : after = [] := List.eq_nil_iff_forall_not_mem.mpr fun y hy => by
    have hno := halone.2.1.1 y hy
    rw [htrap] at hno
    cases hno
  rw [he.last, hl, hnil, List.map_append, List.map_singleton, List.getLastD_concat]

/-- The write cursor of loop 1 stays in the buffer: at most two slots on for each instruction, with
room for the two slots of `decode_one` at each iteration and for the sentinel after the last. -/
structure InBuffer (points : List Ahead) (a : Ahead) : Prop where
  cursor : ∀ x ∈ points, x.w ≤ 2 * x.insns
  decode : ∀ x ∈ points, x.w + 1 < RISCV_BLOCK_SLOTS
  last : a.w ≤ 2 * a.insns
  sentinel : a.w < RISCV_BLOCK_SLOTS

/-- A record `p` at slot `d` of a closed buffer, as the evaluator finds it: the head and the
immediate are there, and the cursor strides over the immediate exactly when there is one; a trap
is the last head, and the cursor stops at its immediate. -/
structure Framed (h : Hooks H) (a : Ahead) (d : Nat) (p : Pair) : Prop where
  head : a.closed d = p.head
  tail : opHasImm p.head.op.toNat = true → a.closed (d + 1) = p.tail
  stride : isTrap p.head.op.toNat = false → ∀ r,
    (defaultEvalFrom h a.closed 1 r d).2 = d + if opHasImm p.head.op.toNat then 2 else 1
  trap : isTrap p.head.op.toNat = true → d = a.last_w ∧ opHasImm p.head.op.toNat = true ∧
    ∀ r, (defaultEvalFrom h a.closed 1 r d).2 = d + 1

/-- The run loop reads the raw word of a trap from its immediate. -/
theorem Emitted.trap_inst {a z : Ahead} {l : List (Nat × Pair)} (he : Emitted a l z) {d : Nat}
    {p : Pair} (hp : (d, p) ∈ l) (htrap : isTrap p.head.op.toNat = true) {h : Hooks H} {code : Buf}
    {code_len win : Word} {lim : Nat} {block : Block} {r : Run H}
    (hz : ahead code code_len win lim block r = z) (hw : z.w ≤ 2 * z.insns)
    (hran : z.n ≤ (defaultEval h (r.setPc z.pc) z.closed).2) :
    ∃ t, beforeTrap h defaultEval code code_len win lim block r = .trap t ∧
      t.inst = p.tail.imm := by
  obtain ⟨hhead, htail⟩ := he.closed hp
  have hd := he.trap_last hp htrap
  have hin := (he.tiles.mem hp).2
  have hpos := pair_width p
  have hlen := List.length_pos_of_mem hp
  have hn := he.count
  have hlast : isTrap (z.closed z.last_w).op.toNat = true := by rw [← hd, hhead]; exact htrap
  cases hev : defaultEval h (r.setPc z.pc) z.closed with
  | mk r' ran =>
    rw [hev] at hran
    rw [beforeTrap_ran hz (by omega) (by omega) hev hran, if_pos hlast]
    refine ⟨_, rfl, ?_⟩
    simp only
    rw [← hd, htail (trap_imm htrap)]

/-- **Loop 1 never overflows its buffer, and what it leaves is well formed**, for every code window,
start pc and budget: the evaluator dispatches on every record in order and ends on the sentinel or
on the final trap, and what it returns is at least the count of records.  The immediate of a trap is
the raw word that the run loop reads. -/
theorem ahead_wellFormed (h : Hooks H) (code : Buf) (code_len win : Word) (room : Nat)
    (block : Block) (r q : Run H) :
    let lim := min room RISCV_BLOCK_MAX
    let a := ahead code code_len win lim block r
    let l := emitted code code_len win lim block r
    InBuffer (iterations code code_len win lim block r) a ∧ l.length = a.n ∧
      Tiles Pair.width 0 l a.w ∧ (∀ d p, (d, p) ∈ l → Framed h a d p) ∧
      EndsAt a.closed (l.map Prod.fst) a.w (cursorsFrom h a.closed RISCV_BLOCK_SLOTS q 0)
        (defaultEval h q a.closed).2 ∧
      a.n ≤ (defaultEval h q a.closed).2 ∧
      ∀ d p, (d, p) ∈ l → isTrap p.head.op.toNat = true →
        ∃ t, beforeTrap h defaultEval code code_len win lim block r = .trap t ∧
          t.inst = p.tail.imm := by
  intro lim a l
  obtain ⟨hpoints, hw, hinsns⟩ := ahead_bound code code_len win lim block r
  change a.w ≤ 2 * a.insns at hw
  change a.insns ≤ lim at hinsns
  have he : Emitted (Ahead.start block r) l a := ahead_emitted code code_len win lim block r
  have hlim : lim ≤ RISCV_BLOCK_MAX := Nat.min_le_right _ _
  have hslots : RISCV_BLOCK_SLOTS = 2 * RISCV_BLOCK_MAX + 1 := rfl
  have hcount : a.n = l.length := he.count.trans (Nat.zero_add _)
  have htiles : Tiles Pair.width 0 l a.w := he.tiles
  have hlen : 0 + l.length ≤ a.w := htiles.length_le fun _ p _ => pair_width p
  have heval := fun q => eval_emitted h htiles he.op (fun d p hp => (he.closed hp).1) he.alone
    (closed_closed a).sentinel (show l.length < RISCV_BLOCK_SLOTS by omega) q
  have hran : ∀ q, a.n ≤ (defaultEval h q a.closed).2 := fun q => by
    have hq := (heval q).2
    rw [hcount]
    unfold defaultEval
    omega
  refine ⟨⟨fun x hx => (hpoints x hx).1, fun x hx => ?_, hw, by omega⟩, hcount.symm, htiles,
    fun d p hp => ?_, (heval q).1, hran q, fun d p hp htrap =>
      he.trap_inst hp htrap rfl hw (hran (r.setPc a.pc))⟩
  · obtain ⟨hx, hlt⟩ := hpoints x hx
    omega
  · obtain ⟨hhead, htail⟩ := he.closed hp
    have hstride := fun r => eval_stride h r hhead (he.op d p hp)
    refine ⟨hhead, htail, fun hgo r => ?_,
      fun htrap => ⟨he.trap_last hp htrap, trap_imm htrap, fun r => ?_⟩⟩
    · rw [hstride, hgo]
      rfl
    · rw [hstride, htrap]
      rfl

/-- A lone `ECALL`. -/
def loneEcall : Run Unit := ⟨State.boot [0x73, 0x00, 0x00, 0x00] 0, []⟩

/-- A trap has an immediate slot that its handler does not consume: the evaluator returns with its
cursor on that slot. -/
theorem ahead_trap_slot :
    let h : Hooks Unit := ⟨none, none, none, none⟩
    let block : Block := fun _ => ⟨0#8, 0#8, 0#8, 0#8⟩
    let a := ahead 1 4#32 (winOf 4#32) 1 block loneEcall
    let l := emitted 1 4#32 (winOf 4#32) 1 block loneEcall
    ¬ ∀ d p, (d, p) ∈ l → (opHasImm p.head.op.toNat = true ↔
      (defaultEvalFrom h a.closed 1 loneEcall d).2 = d + 2) := by
  intro h block a l hall
  have hl : l.map (fun x => (x.1, x.2.head.op.toNat)) = [(0, RISCV_OP_ECALL)] := by decide
  have hmem : (0, RISCV_OP_ECALL) ∈ l.map fun x => (x.1, x.2.head.op.toNat) := by
    rw [hl]
    exact List.mem_singleton.mpr rfl
  obtain ⟨⟨d, p⟩, hp, heq⟩ := List.mem_map.mp hmem
  obtain ⟨rfl, hop⟩ := Prod.mk.inj heq
  have hran : (defaultEvalFrom h a.closed 1 loneEcall 0).2 = 1 := by decide
  have htwo := (hall 0 p hp).mp (by rw [hop]; rfl)
  rw [hran] at htwo
  cases htwo

end Purv.Purvs

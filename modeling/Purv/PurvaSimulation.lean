import Purv.PurvaSources
import Purv.Batch

/-!
# Whole runs of a transcoded program

The interpreter runs the code; the evaluator runs what the transcoder made of it.

* `Calm` — a state of an interpreter run over code that stays as it is, in its window;
* `replay_iter` — the source of a unit, as steps of the interpreter;
* `Tracks` — a cursor of the evaluator beside a state of the interpreter;
* `Tracks.settles` — the interpreter goes through the instructions that have no op;
* `Tracks.steps` — one op of the evaluator, and the instructions that it stands for;
* `entered_tracks` — every cursor that a call comes to is beside a state of the interpreter;
* `riscvEmulatorLoop_simulates` — a call ends where a run of the interpreter comes to, or traps.
-/

namespace Purv.Purva

open Bits Transcode Steps

variable {H : Type}

/-! ## The interpreter over a direct-control-flow program -/

/-- The code is as it was, `x0` is zero, the writable region has room for a frame, and the pc is at
an instruction of the window. -/
structure Calm (code : Nat → Byte) (buf : Buf) (len : Word) (x : Run H × Word) : Prop where
  code : x.1.s.mem buf = code
  x0 : x.1.s.x 0#5 = 0#32
  span : FRAME_SAVE_SPAN ≤ x.1.s.writable.len
  mul : x.2.toNat % 4 = 0
  inside : x.2.toNat < len.toNat

section
variable {h : Hooks H} {code : Nat → Byte} {buf : Buf} {len : Word} (hbuf : (buf == 0) = false)
  (hlen : Sized len) (hflow : DirectFlow code len)
include hbuf hlen

/-- There is an instruction wherever a calm run is. -/
theorem Calm.fetchable {x : Run H × Word} (hx : Calm code buf len x) :
    Fetchable (x.1.s.mem buf) (buf == 0) len x.2 := by
  have hmul := hx.mul
  have hin := hx.inside
  have hl := hlen.mul
  exact ⟨hbuf, by omega, fun _ => by omega⟩

include hflow

theorem Calm.next {r : Run H} {pc : Word} (hx : Calm code buf len (r, pc)) :
    next h buf len (r, pc) =
      match oneInsn h r pc (fetch code pc) with
      | (r, .done) => some (r, pc + 4#32)
      | (r, .jump t) => some (r, t)
      | (_, .out) => none := by
  have hf := hx.fetchable hbuf hlen
  unfold Purv.next
  simp only at hf ⊢
  rw [if_pos hf, show r.s.mem buf = code from hx.code]
  have hwidth := (hflow pc hx.mul hx.inside).width
  generalize (fetch code pc).width = width at hwidth ⊢
  subst hwidth
  rfl

/-- **The source of a unit, as steps of the interpreter**: to the instruction behind it, to the
target of a jump, or to the trap that stops it. -/
theorem replay_iter (n : Nat) {r : Run H} {pc : Word}
    (hcalm : Always (Purv.next h buf len) (Calm code buf len) (r, pc)) :
    ((replay h code n r pc).2 = .done →
      iter (Purv.next h buf len) n (r, pc) = some ((replay h code n r pc).1, slot pc n)) ∧
    (∀ t, (replay h code n r pc).2 = .jump t → ∃ k < n,
      iter (Purv.next h buf len) (k + 1) (r, pc) = some ((replay h code n r pc).1, t) ∧
      (k = 0 → (oneInsn h r pc (fetch code pc)).2 ≠ .done)) ∧
    ((replay h code n r pc).2 = .out → ∃ k < n, ∃ x,
      iter (Purv.next h buf len) k (r, pc) = some x ∧
      oneInsn h x.1 x.2 (fetch code x.2) = ((replay h code n r pc).1, .out)) := by
  induction n generalizing r pc with
  | zero =>
    refine ⟨fun _ => ?_, fun t ht => (by cases ht), fun ho => (by cases ho)⟩
    rw [slot_zero]
    rfl
  | succ n ih =>
    have hx := hcalm 0 _ rfl
    have hnext := hx.next (h := h) hbuf hlen hflow
    have hwidth := (hflow pc hx.mul hx.inside).width
    rw [replay, hwidth]
    generalize ho : oneInsn h r pc (fetch code pc) = o at hnext
    obtain ⟨r₁, nx⟩ := o
    cases nx with
    | done =>
      simp only at hnext ⊢
      obtain ⟨hdone, hjump, hout⟩ := ih (always_iter hcalm (iter_one hnext))
      refine ⟨fun hd => ?_, fun t ht => ?_, fun hd => ?_⟩
      · rw [iter_succ hnext, hdone hd, slot_succ]
      · obtain ⟨k, hk, hrun, -⟩ := hjump t ht
        exact ⟨k + 1, by omega, by rw [iter_succ hnext, hrun], fun hz => by omega⟩
      · obtain ⟨k, hk, x, hrun, hx'⟩ := hout hd
        exact ⟨k + 1, by omega, x, by rw [iter_succ hnext, hrun], hx'⟩
    | jump t =>
      refine ⟨fun hd => (by cases hd), fun t' ht => ?_, fun hd => (by cases hd)⟩
      cases ht
      exact ⟨0, by omega, iter_one hnext, fun _ hd => by cases hd⟩
    | out =>
      refine ⟨fun hd => (by cases hd), fun t' ht => (by cases ht), fun _ => ?_⟩
      exact ⟨0, by omega, (r, pc), rfl, ho⟩

end

/-! ## Side by side -/

/-- The second word is read by the fused loads and branches only. -/
theorem dispatch_one {h : Hooks H} {r : Run H} {p w w2 w2' : Word} (hop : ¬ LoadBranch (TC_OP w)) :
    dispatch h r p w w2 = dispatch h r p w w2' := by
  unfold dispatch
  simp only
  split <;> rename_i hk
  all_goals first
    | rfl
    | (exfalso; rw [hk] at hop; revert hop; decide)

/-- The op at a cursor is the unit there. -/
theorem Walked.eval {code : Nat → Byte} {len : Word} {ext : List Word} {targets : Targets}
    {map : Nat → Word} {m : Image} (hm : Walked code len ext targets map m) {h : Hooks H}
    {q : OpCursor H} {c : Cursor} (hat : q.At code len targets c) :
    q.op h m = some (evalUnit h q.r c.at_ (c.unit code len targets).1 map len) := by
  obtain ⟨w, rest, hemit, hget, hop, hw2, -⟩ := hm.word hat
  have hp : BitVec.ofNat 32 q.p = c.at_ := by
    rw [← hat.index, BitVec.ofNat_toNat, BitVec.setWidth_eq]
  have hlength := emit_length c.at_ (c.unit code len targets).1 map len
  unfold OpCursor.op
  rw [hget, Option.map_some]
  unfold OpCursor.dispatch evalUnit
  rw [hemit, hp]
  simp only
  refine congrArg some ?_
  rw [hemit, List.length_cons] at hlength
  cases rest with
  | nil =>
    refine dispatch_one fun hl => ?_
    rw [hop] at hl
    rcases hl with hl | hl
    · rw [hl] at hlength
      exact absurd hlength (by decide)
    · rw [hl] at hlength
      exact absurd hlength (by decide)
  | cons w' rest' =>
    have hle := opWords_le_two (c.unit code len targets).1.op
    rw [List.length_cons] at hlength
    cases rest' with
    | nil => rw [hw2 w' rfl, List.headD_cons]
    | cons _ _ =>
      rw [List.length_cons] at hlength
      omega

/-- A cursor of the evaluator beside a state of the interpreter: the walk over the units is where
both are, they differ by pc and inst only, and no more was charged than was run. -/
structure Tracks (h : Hooks H) (code : Nat → Byte) (buf : Buf) (len : Word) (targets : Targets)
    (x₀ : Run H × Word) (q : OpCursor H) (n : Nat) (x : Run H × Word) (c : Cursor) : Prop where
  run : iter (Purv.next h buf len) n x₀ = some x
  bare : State.bare q.r.s = State.bare x.1.s
  charge : q.k ≤ n
  walked : ∃ k, iter (walk code len targets) k .start = some c
  off : c.off = x.2
  index : c.at_.toNat = q.p

/-- How a call ends beside a run of the interpreter: with its budget used up where the run comes to,
or at the trap where the run stops. -/
inductive EndsBeside (h : Hooks H) (code : Nat → Byte) (buf : Buf) (len : Word)
    (x₀ : Run H × Word) (max : Nat) (R : Result H) : Prop
  | budget {n : Nat} {x : Run H × Word} (stop : R.stop = .budget)
      (run : iter (Purv.next h buf len) n x₀ = some x)
      (bare : State.bare R.r.s = State.bare x.1.s) (used : max ≤ R.k) (charge : R.k ≤ n)
  | trap {n : Nat} {x : Run H × Word} {r : Run H} (stop : R.stop = .trap)
      (run : iter (Purv.next h buf len) n x₀ = some x)
      (out : oneInsn h x.1 x.2 (fetch code x.2) = (r, .out))
      (bare : State.bare R.r.s = State.bare r.s) (charge : R.k ≤ n + 1)

section
variable {h : Hooks H} (hblind : Hooks.Blind h) {g : MemOp → Word → Word}
  (hfix : Hooks.IsFixed h g) {code : Nat → Byte} {buf : Buf} {len : Word}
  (hbuf : (buf == 0) = false) (hlen : Sized len) (hflow : DirectFlow code len)
  {targets : Targets} {map : Nat → Word} {x₀ : Run H × Word}
  (hcalm : Always (Purv.next h buf len) (Calm code buf len) x₀)
include hlen hcalm

/-- The walk is at a unit wherever the interpreter is. -/
theorem Tracks.head {q : OpCursor H} {n : Nat} {x : Run H × Word} {c : Cursor}
    (ht : Tracks h code buf len targets x₀ q n x c) :
    Head code len targets c ∧ c.Inv len := by
  have hx := hcalm n x ht.run
  obtain ⟨k, hk⟩ := ht.walked
  have hinv := (walk_run hlen (start_inv len) hk).1
  exact ⟨⟨⟨k, hk⟩, (unitAt_iff hlen hinv code).2 (by rw [ht.off]; exact hx.inside)⟩, hinv⟩

include hblind hfix hflow

/-- What the unit at a cursor is to the steps of the interpreter there. -/
theorem Tracks.replays {q : OpCursor H} {n : Nat} {x : Run H × Word} {c : Cursor}
    (ht : Tracks h code buf len targets x₀ q n x c) (map : Nat → Word) :
    ∃ j, UnitReplays h q.r code c.off c.at_ (c.unit code len targets).1 map len j ∧
      slot c.off j = (c.past code len targets).off ∧ 0 < j ∧
      State.bare (replay h code j q.r c.off).1.s = State.bare (replay h code j x.1 x.2).1.s ∧
      (replay h code j q.r c.off).2 = (replay h code j x.1 x.2).2 ∧
      (oneInsn h q.r c.off (fetch code c.off)).2 = (oneInsn h x.1 x.2 (fetch code x.2)).2 := by
  have hx := hcalm n x ht.run
  obtain ⟨hhead, hinv⟩ := ht.head hlen hcalm
  have hlt : c.off.toNat < len.toNat := by rw [ht.off]; exact hx.inside
  have hl := hlen.mul
  have hmul := hinv.mul
  obtain ⟨j, hu, -, -, -⟩ := past_spec hlen hinv code targets hlt
  have hj : (c.unit code len targets).2.toNat / 4 = j := by rw [hu.width]; omega
  have hrep : UnitReplays h q.r code c.off c.at_ (c.unit code len targets).1 map len
      ((c.unit code len targets).2.toNat / 4) :=
    unit_replays hblind hfix (by rw [bare_x ht.bare]; exact hx.x0)
      (by rw [bare_writable ht.bare]; exact hx.span) hlen hmul (by omega) hflow rfl c.at_ map
  rw [hj] at hrep
  obtain ⟨hs, hn⟩ := replay_bare hblind hfix code j ht.bare c.off
  have hone := (oneInsn_bare hblind ht.bare hfix c.off (fetch code c.off)).2
  rw [← ht.off]
  refine ⟨j, hrep, ?_, hu.pos, hs, hn, hone⟩
  unfold slot Cursor.past
  simp only
  rw [← hu.width, BitVec.ofNat_toNat, BitVec.setWidth_eq]

include hbuf

/-- **The interpreter goes through the instructions that have no op**, up to one that has. -/
theorem Tracks.settles {q : OpCursor H} {n : Nat} {x : Run H × Word} {c : Cursor}
    (ht : Tracks h code buf len targets x₀ q n x c) :
    ∃ n' x' c', Tracks h code buf len targets x₀ q n' x' c' ∧
      (c'.unit code len targets).1.op ≠ RISCV_OP_NOP := by
  induction hleft : len.toNat - c.off.toNat using Nat.strongRecOn generalizing n x c with
  | ind left ih =>
    by_cases hop : (c.unit code len targets).1.op = RISCV_OP_NOP
    · obtain ⟨hhead, hinv⟩ := ht.head hlen hcalm
      have hlt : c.off.toNat < len.toNat := by rw [ht.off]; exact (hcalm n x ht.run).inside
      obtain ⟨_, hu, hoff, hat, -⟩ := past_spec hlen hinv code targets hlt
      obtain ⟨j, hrep, hslot, -, hs, hn, -⟩ :=
        ht.replays hblind hfix hlen hflow hcalm (fun _ => 0#32)
      have heval : evalUnit h q.r c.at_ (c.unit code len targets).1 (fun _ => 0#32) len =
          (q.r, 0, .fall 0) := by
        unfold evalUnit
        rw [emit_nop _ _ _ _ hop]
      have hrun := hrep.run
      have halong := hrep.along
      rw [heval] at hrun halong
      have hdone : (replay h code j x.1 x.2).2 = .done := by
        rw [← hn]
        generalize (replay h code j q.r c.off).2 = nx at halong
        cases nx with
        | done => rfl
        | jump t => exact halong.elim
        | out => exact halong.elim
      have hiter := (replay_iter hbuf hlen hflow j (always_iter hcalm ht.run)).1 hdone
      refine ih _ ?_ (n := n + j) (x := (_, slot x.2 j)) (c := c.past code len targets)
        ⟨iter_add ht.run hiter, ?_, ?_, past_reached hlen hhead, ?_, ?_⟩ rfl
      · have := hu.pos
        omega
      · exact (hrun.trans hs)
      · exact Nat.le_add_right_of_le ht.charge
      · rw [← hslot, ht.off]
      · rw [hat, ht.index, hop]
        rfl
    · exact ⟨n, x, c, ht, hop⟩

/-- **One op of the evaluator, and the instructions that it stands for.** -/
theorem Tracks.steps {ext : List Word} {m : Image} (hm : Walked code len ext targets map m)
    (max : Nat) {q : OpCursor H} {n : Nat} {x : Run H × Word} {c : Cursor}
    (ht : Tracks h code buf len targets x₀ q n x c)
    (hop : (c.unit code len targets).1.op ≠ RISCV_OP_NOP) :
    ∃ o, q.op h m = some o ∧
      (∀ q', q.next m max o = some q' → ∃ n' x' c', n < n' ∧
        Tracks h code buf len targets x₀ q' n' x' c') ∧
      (q.next m max o = none → EndsBeside h code buf len x₀ max (landFrom h m max 0 q o)) := by
  obtain ⟨hhead, hinv⟩ := ht.head hlen hcalm
  have hat : q.At code len targets c := ⟨hhead, ht.index, hop⟩
  have ho := hm.eval (h := h) hat
  obtain ⟨j, hrep, hslot, hpos, hs, hn, hone⟩ := ht.replays hblind hfix hlen hflow hcalm map
  obtain ⟨hdone, hjump, hout⟩ := replay_iter hbuf hlen hflow j (always_iter hcalm ht.run)
  refine ⟨_, ho, ?_⟩
  have hrun := hrep.run.trans hs
  have halong := hrep.along
  have hcharge := hrep.charge
  have hk := ht.charge
  rw [hn] at halong
  generalize evalUnit h q.r c.at_ (c.unit code len targets).1 map len = o at *
  obtain ⟨r, k, g'⟩ := o
  simp only at hrun halong hcharge
  -- behind the unit
  have hbehind : ∀ p, q.p + p = (c.past code len targets).at_.toNat →
      (replay h code j x.1 x.2).2 = .done → Tracks h code buf len targets x₀ ⟨r, q.p + p, q.k + k⟩
        (n + j) ((replay h code j x.1 x.2).1, slot x.2 j) (c.past code len targets) :=
    fun p hp hd => ⟨iter_add ht.run (hdone hd), hrun, Nat.add_le_add hk hcharge,
      past_reached hlen hhead, by rw [← hslot, ht.off], hp.symm⟩
  cases hnx : (replay h code j x.1 x.2).2 with
  | done =>
    cases g' with
    | fall p =>
      refine ⟨fun q' hq => ?_, fun hq => by cases hq⟩
      cases hq
      exact ⟨_, _, _, by omega, hbehind p ((hm.behind hat).1 p ho) hnx⟩
    | trap stop =>
      rw [hnx] at halong
      cases (show stop = false from halong)
      unfold OpCursor.next landFrom
      simp only [Bool.false_eq_true, if_false]
      split
      · rename_i hmax
        refine ⟨fun q' hq => (by cases hq), fun _ => ?_⟩
        exact .budget rfl (iter_add ht.run (hdone hnx)) hrun hmax (Nat.add_le_add hk hcharge)
      · refine ⟨fun q' hq => ?_, fun hq => by cases hq⟩
        cases hq
        exact ⟨_, _, _, by omega, hbehind 1 ((hm.behind hat).2 false ho) hnx⟩
    | reloc i => rw [hnx] at halong; exact halong.elim
    | indirect u => rw [hnx] at halong; exact halong.elim
  | jump t =>
    rw [hnx] at halong
    cases g' with
    | reloc idx =>
      have htarget : t = (c.unit code len targets).1.target := halong
      obtain ⟨i, hi, hiter, hfirst⟩ := hjump t hnx
      -- the jump is the last instruction of the unit
      have hlast : i + 1 = j := by
        rcases hrep.jump t (hn.trans hnx) with h1 | ⟨h2, hd⟩
        · omega
        · have hne : i ≠ 0 := fun hz => hfirst hz (hone ▸ hd)
          omega
      have hrun' := iter_add ht.run hiter
      have hx' := hcalm _ _ hrun'
      obtain ⟨w, rest, -, hw, -, hd⟩ := hm.op hat ho
      have hdirect := dispatch_reloc_op (congrArg (·.2.2) hd)
      rw [hw] at hdirect
      obtain ⟨o', -, -, hmul', hfit', hop', heq', -⟩ := jump_behind hlen hhead hdirect
      obtain ⟨c', hc', hoff'⟩ := target_head hlen hm.collected
        (.inr ⟨o', hmul', hfit', hop', rfl⟩) (by rw [heq', ← htarget]; exact hx'.mul)
        (by rw [heq', ← htarget]; exact hx'.inside)
      have hidx := (hm.lands hat ho).1 c' hc' (hoff'.trans heq')
      rw [hlast] at hrun'
      unfold OpCursor.next landFrom
      simp only
      split
      · rename_i hmax
        refine ⟨fun q' hq => (by cases hq), fun _ => ?_⟩
        exact .budget rfl hrun' hrun hmax (Nat.add_le_add hk hcharge)
      · refine ⟨fun q' hq => ?_, fun hq => by cases hq⟩
        cases hq
        exact ⟨_, _, c', by omega, hrun', hrun, Nat.add_le_add hk hcharge, hc'.reached,
          by rw [hoff', heq', ← htarget], by rw [hidx]⟩
    | fall p => exact halong.elim
    | trap stop => exact halong.elim
    | indirect u => exact halong.elim
  | out =>
    rw [hnx] at halong
    cases g' with
    | trap stop =>
      cases (show stop = true from halong)
      refine ⟨fun q' hq => (by cases hq), fun _ => ?_⟩
      obtain ⟨i, hi, x', hiter, hstop⟩ := hout hnx
      have hj := hrep.out (hn.trans hnx)
      refine .trap rfl (iter_add ht.run hiter) hstop hrun ?_
      show q.k + k ≤ n + i + 1
      omega
    | fall p => exact halong.elim
    | reloc i => exact halong.elim
    | indirect u => exact halong.elim

end

/-! ## Hosts that leave a run calm -/

/-- The handlers leave `x0`, the code and the writable region where they are. -/
def Hooks.Still (h : Hooks H) (buf : Buf) : Prop :=
  ∀ t f, (h.handler t).1 = some f → ∀ s,
    Purv.Keeps buf s (f s).1 ∧ State.writable (f s).1 = State.writable s

section
variable {h : Hooks H} {buf : Buf} (hstill : Hooks.Still h buf) {g : MemOp → Word → Word}
  (hfix : Hooks.IsFixed h g)
include hstill

theorem raise_writable (r : Run H) (pc inst : Word) (t : Trap) :
    (r.raise h pc inst t).1.s.writable = r.s.writable := by
  unfold Run.raise Run.trap
  simp only
  split
  · rfl
  · rename_i f _ hf
    exact (hstill t f (by rw [hf]) (r.fault pc inst).s).2

include hfix

theorem still_keep : h.Keep buf where
  trap t f hf s := (hstill t f hf s).1
  callback f hf s op a v := by
    rw [hfix] at hf
    cases hf
    exact Purv.Keeps.refl buf s

theorem execute_writable (r : Run H) (pc width inst : Word) (a : Action) :
    (execute h r pc width inst a).1.s.writable = r.s.writable := by
  have hraise := raise_writable hstill r pc inst
  have hset : ∀ (s : State H) (p : Ptr) (i : Nat) (v : Byte),
      (s.setByte p i v).writable = s.writable := fun _ _ _ _ => rfl
  cases a <;> simp only [execute]
  case load rd a imm f3 =>
    split
    · exact hraise _
    · unfold execLoad
      simp only
      split
      · rfl
      · split
        · exact wr_writable _ _ _
        · exact (wr_writable _ _ _).trans
            (congrArg State.writable (callback_fixed hfix r .load _ _).1)
  case store a b imm f3 =>
    split
    · exact hraise _
    · unfold execStore
      split
      · unfold storeValue
        split <;> simp only [hset]
      · exact congrArg State.writable (callback_fixed hfix r .store _ _).1
  case branch a b imm f3 =>
    split
    · exact hraise _
    · rfl
    · rfl
  case system rd rs1 f3 imm =>
    split
    · exact hraise _
    · split
      · exact hraise _
      · exact hraise _
  case ebreak => exact hraise _
  case illegal => exact hraise _
  all_goals exact wr_writable _ _ _

theorem next_writable {code_len : Word} {x y : Run H × Word}
    (hx : Purv.next h buf code_len x = some y) : y.1.s.writable = x.1.s.writable := by
  obtain ⟨r, pc⟩ := x
  have he := execute_writable hstill hfix r pc (fetch (r.s.mem buf) pc).width
    (fetch (r.s.mem buf) pc).inst ((fetch (r.s.mem buf) pc).decode r.s.x)
  unfold Purv.next at hx
  simp only at hx
  split at hx
  · split at hx
    · rename_i r' hi
      cases hx
      unfold oneInsn at hi
      rwa [hi] at he
    · rename_i r' t hi
      cases hx
      unfold oneInsn at hi
      rwa [hi] at he
    · cases hx
  · cases hx

/-- **A run that jumps to instructions of the window only is calm.** -/
theorem calm_run {code : Nat → Byte} {len : Word} {x₀ : Run H × Word}
    (hcode : x₀.1.s.mem buf = code) (hx0 : x₀.1.s.x 0#5 = 0#32)
    (hspan : FRAME_SAVE_SPAN ≤ x₀.1.s.writable.len) (hptr : x₀.1.s.writable.ptr ≠ buf)
    (hin : Always (Purv.next h buf len)
      (fun x => x.2.toNat % 4 = 0 ∧ x.2.toNat < len.toNat) x₀) :
    Always (Purv.next h buf len) (Calm code buf len) x₀ := by
  intro n x hn
  obtain ⟨hkeep, hw⟩ : Purv.Keeps buf x₀.1.s x.1.s ∧ x.1.s.writable = x₀.1.s.writable := by
    refine iter_invariant (fun y => Purv.Keeps buf x₀.1.s y.1.s ∧ y.1.s.writable = x₀.1.s.writable)
      (fun y z hy hz => ?_) ⟨Purv.Keeps.refl buf _, rfl⟩ hn
    have hp : y.1.s.writable.ptr ≠ buf := by rwa [hy.2]
    exact ⟨hy.1.trans (next_keeps (still_keep hstill hfix) hp hz),
      (next_writable hstill hfix hz).trans hy.2⟩
  exact ⟨hkeep.code.trans hcode, hkeep.x0.trans hx0, by rwa [hw], (hin n x hn).1, (hin n x hn).2⟩

end

/-! ## Calls -/

section
variable {h : Hooks H} (hblind : Hooks.Blind h) {g : MemOp → Word → Word}
  (hfix : Hooks.IsFixed h g) {code : Nat → Byte} {buf : Buf} {len : Word}
  (hbuf : (buf == 0) = false) (hlen : Sized len) (hflow : DirectFlow code len)
  {targets : Targets} {map : Nat → Word} {ext : List Word} {m : Image}
  (hm : Walked code len ext targets map m) {r r' : Run H} (hpc : r.s.pc = 0#32)
  (hbare : State.bare r.s = State.bare r'.s)
  (hcalm : Always (Purv.next h buf len) (Calm code buf len) (r', 0#32))
include hpc hbare in
/-- A call starts beside the interpreter. -/
theorem start_tracks : Tracks h code buf len targets (r', 0#32) (OpCursor.start r) 0 (r', 0#32)
    .start := by
  refine ⟨rfl, hbare, Nat.le_refl 0, ⟨0, rfl⟩, rfl, ?_⟩
  unfold OpCursor.start
  rw [hpc]
  rfl

include hblind hfix hbuf hlen hflow hcalm hm hpc hbare

/-- **Every cursor that a call comes to is beside a state of the interpreter.** -/
theorem entered_tracks {max n : Nat} {q : OpCursor H}
    (hq : iter (goOn h m max) n (OpCursor.start r) = some q) :
    ∃ n x c, Tracks h code buf len targets (r', 0#32) q n x c ∧
      (c.unit code len targets).1.op ≠ RISCV_OP_NOP := by
  induction n generalizing q with
  | zero =>
    cases hq
    exact (start_tracks hpc hbare).settles hblind hfix hbuf hlen hflow hcalm
  | succ n ih =>
    obtain ⟨q₁, hq₁, hgo⟩ := iter_last hq
    obtain ⟨n, x, c, ht, hop⟩ := ih hq₁
    obtain ⟨o, ho, hnext, -⟩ := ht.steps hblind hfix hbuf hlen hflow hcalm hm max hop
    rw [goOn_op ho] at hgo
    obtain ⟨n', x', c', -, ht'⟩ := hnext q hgo
    exact ht'.settles hblind hfix hbuf hlen hflow hcalm

/-- The cursors of a call are inside the op array. -/
theorem entered_inside {max : Nat} {q : OpCursor H} (hq : Entered h m max r q) :
    q.p < m.ops.length := by
  obtain ⟨-, n, hn⟩ := hq
  obtain ⟨n', x, c, ht, hop⟩ :=
    entered_tracks hblind hfix hbuf hlen hflow hm hpc hbare hcalm hn
  obtain ⟨w, rest, -, hw, -⟩ := hm.word ⟨(ht.head hlen hcalm).1, ht.index, hop⟩
  exact (List.getElem?_eq_some_iff.1 hw).1

/-- A call comes to a last op. -/
theorem entered_last {max : Nat} (hwin : r.s.pc < m.prog.code_len) :
    ∃ q, Entered h m max r q ∧ goOn h m max q = none := by
  by_contra hnone
  have hmore : ∀ q, Entered h m max r q → ∃ q', goOn h m max q = some q' ∧
      Entered h m max r q' := by
    intro q hq
    cases hgo : goOn h m max q with
    | none => exact absurd ⟨q, hq, hgo⟩ hnone
    | some q' =>
      obtain ⟨-, n, hn⟩ := hq
      exact ⟨q', rfl, hwin, n + 1, iter_add hn (iter_one hgo)⟩
  have hin := fun q => @entered_inside H h hblind g hfix code buf len hbuf hlen hflow targets map
    ext m hm r r' hpc hbare hcalm max q
  -- each op uses up some of what is left
  have hdown : ∀ left q, Entered h m max r q → dispatchesLeft m max q ≠ left := by
    intro left
    induction left using Nat.strongRecOn with
    | ind left ih =>
      rintro q hq rfl
      obtain ⟨q', hgo, hq'⟩ := hmore q hq
      exact ih _ (goOn_left hgo (hin q hq) (hin q' hq')) q' hq' rfl
  exact hdown _ _ ⟨hwin, 0, rfl⟩ rfl

/-- **A call ends beside the interpreter.** -/
theorem call_ends (max : Nat) :
    EndsBeside h code buf len (r', 0#32) max (riscvEmulatorLoop h m.prog r max) := by
  have hin := fun q => @entered_inside H h hblind g hfix code buf len hbuf hlen hflow targets map
    ext m hm r r' hpc hbare hcalm max q
  have hwin : r.s.pc < m.prog.code_len := by
    have hstart : iter (goOn h m max) 0 (OpCursor.start r) = some (OpCursor.start r) := rfl
    obtain ⟨n, x, c, ht, hop⟩ :=
      entered_tracks hblind hfix hbuf hlen hflow hm hpc hbare hcalm hstart
    obtain ⟨w, rest, -, hw, -⟩ := hm.word ⟨(ht.head hlen hcalm).1, ht.index, hop⟩
    have hlt := (List.getElem?_eq_some_iff.1 hw).1
    rw [hpc, BitVec.lt_def, m.code_len]
    show 0 < _
    omega
  obtain ⟨q, hq, hgo⟩ : ∃ q, Entered h m max r q ∧ goOn h m max q = none :=
    entered_last hblind hfix hbuf hlen hflow hm hpc hbare hcalm hwin
  obtain ⟨-, k, hk⟩ := hq
  obtain ⟨n, x, c, ht, hop⟩ := entered_tracks hblind hfix hbuf hlen hflow hm hpc hbare hcalm hk
  obtain ⟨o, ho, -, hlast⟩ := ht.steps hblind hfix hbuf hlen hflow hcalm hm max hop
  rw [goOn_op ho] at hgo
  rw [landFrom_last hin ⟨hwin, k, hk⟩ ho hgo]
  exact hlast hgo

end

/-- From where there is no step a run cannot have come further. -/
theorem stuck_first {σ : Type} {f : σ → Option σ} {k n : Nat} {x y z : σ}
    (hk : iter f k x = some y) (hy : f y = none) (hn : iter f n x = some z) : n ≤ k := by
  by_contra hlt
  obtain ⟨d, rfl⟩ : ∃ d, n = k + (d + 1) := ⟨n - k - 1, by omega⟩
  obtain ⟨y', hy', hrest⟩ := iter_split hn
  rw [hk] at hy'
  cases hy'
  rw [iter, hy] at hrest
  cases hrest

/-- **The transcoder preserves what a direct-control-flow program does.**  A call of the evaluator
ends at the trap that stops the interpreter, with the same registers, memory and host, or with its
budget used up at a state that the interpreter comes to; and where the interpreter stops at a trap,
so does a call with a budget for as many instructions.  The host is any type, so handlers that
record their calls in it are called alike. -/
theorem riscvEmulatorLoop_simulates {h : Hooks H} (hblind : Hooks.Blind h)
    {g : MemOp → Word → Word} (hfix : Hooks.IsFixed h g) {buf : Buf} (hbuf : (buf == 0) = false)
    (hstill : Hooks.Still h buf) (code : Nat → Byte) {len : Word} (hmul : len.toNat % 4 = 0)
    (htop : len.toNat ≤ 2 ^ 32 - 2 ^ 20) (hflow : DirectFlow code len) (ext : List Word) :
    ∃ prog, transcodeEx code len ext = some prog ∧
      ∀ r r' : Run H, State.bare r.s = State.bare r'.s → r.s.pc = 0#32 → r'.s.pc = 0#32 →
        r'.s.readonly.ptr = buf → r'.s.readonly.len = len →
        r'.s.mem buf = code → r'.s.x 0#5 = 0#32 → FRAME_SAVE_SPAN ≤ r'.s.writable.len →
        r'.s.writable.ptr ≠ buf →
        Always (Purv.next h buf len) (fun x => x.2.toNat % 4 = 0 ∧ x.2.toNat < len.toNat)
          (r', 0#32) →
        ∀ max, EndsBeside h code buf len (r', 0#32) max (riscvEmulatorLoop h prog r max) ∧
          ∀ max', (Purv.riscvEmulatorLoop h r' max').stop = .trap →
            (Purv.riscvEmulatorLoop h r' max').k ≤ max →
            (riscvEmulatorLoop h prog r max).stop = .trap ∧
            State.bare (riscvEmulatorLoop h prog r max).r.s =
              State.bare (Purv.riscvEmulatorLoop h r' max').r.s ∧
            (riscvEmulatorLoop h prog r max).k ≤ (Purv.riscvEmulatorLoop h r' max').k := by
  have hlen : Sized len := ⟨hmul, by omega⟩
  obtain ⟨targets, map, m, htargets, -, hprog, -, hheads, hrest, hends⟩ :=
    transcodeEx_image code hlen ext
  have hm : Walked code len ext targets map m := ⟨hlen, htop, htargets, hheads, hrest, hends⟩
  refine ⟨m.prog, hprog, ?_⟩
  intro r r' hbare hpc hpc' hptr hl hcode hx0 hspan hw hin max
  have hcalm : Always (Purv.next h buf len) (Calm code buf len) (r', 0#32) :=
    calm_run hstill hfix hcode hx0 hspan hw hin
  have hend := call_ends hblind hfix hbuf hlen hflow hm hpc hbare hcalm max
  refine ⟨hend, fun max' hstop hle => ?_⟩
  have hloop := (riscvEmulatorLoop_checked h r' max').1
  rw [hptr, hl, hpc'] at hloop
  rw [hloop] at hstop hle ⊢
  rcases stepwise_halted h buf len max' r' 0#32 with ⟨_, _, -, hb⟩ | ⟨-, hhalt⟩
  · rw [hb] at hstop
    cases hstop
  · generalize stepwise h buf len max' r' 0#32 0 = R at hstop hle hhalt
    cases hhalt with
    | fetch => cases hstop
    | @trap r₁ pc₁ k t run check raise refused =>
      have hx := hcalm _ _ run
      have hout : oneInsn h r₁ pc₁ (fetch code pc₁) = (((r₁.fault pc₁
          (fetch (r₁.s.mem buf) pc₁).inst).trap h t).1, .out) := by
        rw [show r₁.s.mem buf = code from hx.code] at raise refused ⊢
        rw [raise]
        unfold Run.raise
        simp only
        rw [(refused_iff h _ t).1 refused, if_pos rfl]
      have hnone : Purv.next h buf len (r₁, pc₁) = none := by
        rw [hx.next hbuf hlen hflow, hout]
      have hend' := hend
      cases hend' with
      | @budget n x stop run' bare used charge =>
        have := stuck_first run hnone run'
        simp only at hle
        omega
      | @trap n x r₂ stop run' out bare charge =>
        have hx' := hcalm _ _ run'
        have hnone' : Purv.next h buf len x = none := by
          obtain ⟨r₃, pc₃⟩ := x
          rw [hx'.next hbuf hlen hflow, out]
        have h1 := stuck_first run hnone run'
        have h2 := stuck_first run' hnone' run
        obtain rfl : n = k := by omega
        rw [run] at run'
        cases run'
        rw [hout] at out
        cases out
        exact ⟨stop, bare, charge⟩

/-- `FENCE; ADDI x1, x0, 5; EBREAK`. -/
def fiveBytes : List Byte :=
  [0x0f, 0x00, 0x00, 0x00, 0x93, 0x00, 0x50, 0x00, 0x73, 0x00, 0x10, 0x00]

def fiveCode (i : Nat) : Byte := fiveBytes.getD i 0#8

def fiveHooks : Hooks Unit := { Hooks.null with callback := some fun s _ a _ => (s, a) }

def fiveRun : Run Unit := ⟨State.boot fiveBytes 64, []⟩

theorem five_flow : DirectFlow fiveCode 12#32 := by
  intro o h4 hlt
  have hplain : ∀ o : Word, o = 0#32 ∨ o = 4#32 ∨ o = 8#32 → Plain fiveCode o := by
    rintro o (rfl | rfl | rfl)
    all_goals
      refine ⟨by decide, ?_, by decide, by decide, by decide, by decide⟩
      rintro (⟨hk, -⟩ | ⟨hk, -⟩) <;> exact absurd hk (by decide)
  have ho : o.toNat = 0 ∨ o.toNat = 4 ∨ o.toNat = 8 := by
    have : (12#32).toNat = 12 := rfl
    omega
  rcases ho with ho | ho | ho
  · exact hplain o (.inl (BitVec.eq_of_toNat_eq ho))
  · exact hplain o (.inr (.inl (BitVec.eq_of_toNat_eq ho)))
  · exact hplain o (.inr (.inr (BitVec.eq_of_toNat_eq ho)))

theorem five_next :
    Purv.next fiveHooks 1 12#32 (fiveRun, 0#32) = some (fiveRun, 4#32) ∧
      Purv.next fiveHooks 1 12#32 (fiveRun, 4#32) = some (fiveRun.wr 1#5 5#32, 8#32) ∧
      Purv.next fiveHooks 1 12#32 (fiveRun.wr 1#5 5#32, 8#32) = none := by
  unfold Purv.next
  simp only
  rw [if_pos (by decide), if_pos (by decide), if_pos (by decide)]
  exact ⟨rfl, rfl, rfl⟩

/-- A use of `riscvEmulatorLoop_simulates`. -/
theorem riscvEmulatorLoop_simulates_five :
    ∃ prog, transcodeEx fiveCode 12#32 [] = some prog ∧
      (riscvEmulatorLoop fiveHooks prog fiveRun 3).stop = .trap ∧
      State.bare (riscvEmulatorLoop fiveHooks prog fiveRun 3).r.s =
        State.bare (Purv.riscvEmulatorLoop fiveHooks fiveRun 3).r.s := by
  have hnone : ∀ t, (fiveHooks.handler t).1 = none := fun t => by cases t <;> rfl
  obtain ⟨prog, hprog, hall⟩ := @riscvEmulatorLoop_simulates Unit fiveHooks
    (fun t f hf => by rw [hnone] at hf; cases hf) (fun _ a => a) rfl 1 rfl
    (fun t f hf => by rw [hnone] at hf; cases hf) fiveCode 12#32 (by decide) (by decide)
    five_flow []
  refine ⟨prog, hprog, ?_⟩
  obtain ⟨h1, h2, h3⟩ := five_next
  have hin : Always (Purv.next fiveHooks 1 12#32)
      (fun x => x.2.toNat % 4 = 0 ∧ x.2.toNat < (12#32 : Word).toNat) (fiveRun, 0#32) := by
    intro n x hn
    rcases n with _ | _ | _ | n
    · cases hn
      decide
    · rw [iter_one h1] at hn
      cases hn
      decide
    · rw [iter_succ h1, iter_one h2] at hn
      cases hn
      decide
    · rw [iter_succ h1, iter_succ h2, iter, h3] at hn
      cases hn
  obtain ⟨-, hstop⟩ := hall fiveRun fiveRun rfl rfl rfl rfl rfl rfl rfl (by decide)
    (by decide) hin 3
  obtain ⟨ht, hb, -⟩ := hstop 3 (by decide) (by decide)
  exact ⟨ht, hb⟩

end Purv.Purva

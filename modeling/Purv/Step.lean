import Purv.Lib.Steps
import Purv.Window

/-!
# Runs of the interpreter

* `next` — one iteration of the loop, as a partial step on a run and a pc;
* `stepwise_iter` — the loop over a run of `next`;
* `Keeps`, `next_keeps` — what every instruction leaves alone: `x0`, the code, and where the
  writable region is;
* `Run.noPc`, `execute_noPc` — hosts that do not look at `state->pc` cannot tell two engines
  apart that keep it differently.
-/

namespace Purv

open Bits Steps

variable {H : Type}

/-! ## Steps -/

/-- One iteration of the loop; `none` when it returns. -/
def next (h : Hooks H) (code : Buf) (code_len : Word) (x : Run H × Word) : Option (Run H × Word) :=
  let (r, pc) := x
  if Fetchable (r.s.mem code) (code == 0) code_len pc then
    let i := fetch (r.s.mem code) pc
    match oneInsn h r pc i with
    | (r, .done) => some (r, pc + i.width)
    | (r, .jump t) => some (r, t)
    | (_, .out) => none
  else none

/-- The loop takes the steps of `next`. -/
theorem stepwise_iter {h : Hooks H} {code : Buf} {code_len : Word} {m : Nat} {r r' : Run H}
    {pc pc' : Word} (hm : iter (next h code code_len) m (r, pc) = some (r', pc')) (n k : Nat) :
    stepwise h code code_len (m + n) r pc k = stepwise h code code_len n r' pc' (k + m) := by
  induction m generalizing r pc k with
  | zero =>
    cases hm
    rw [Nat.zero_add]
    rfl
  | succ m ih =>
    rw [Nat.succ_add, stepwise]
    cases hx : next h code code_len (r, pc) with
    | none =>
      rw [iter, hx] at hm
      cases hm
    | some y =>
      rw [iter_succ hx] at hm
      unfold next at hx
      simp only at hx
      split at hx
      · rename_i hf
        rw [if_pos hf]
        simp only at hx ⊢
        cases hi : oneInsn h r pc (fetch (r.s.mem code) pc) with
        | mk r₁ nx =>
          rw [hi] at hx
          cases nx with
          | done =>
            cases hx
            simp only
            rw [ih hm, show k + 1 + m = k + (m + 1) by omega]
          | jump t =>
            cases hx
            simp only
            rw [ih hm, show k + 1 + m = k + (m + 1) by omega]
          | out => cases hx
      · cases hx

/-! ## What an instruction leaves alone -/

/-- `x0`, the code buffer and the buffer of the writable region are as they were. -/
structure Keeps (code : Buf) (s s' : State H) : Prop where
  x0 : s'.x 0#5 = s.x 0#5
  code : s'.mem code = s.mem code
  ptr : s'.writable.ptr = s.writable.ptr

theorem Keeps.refl (code : Buf) (s : State H) : Keeps code s s := ⟨rfl, rfl, rfl⟩

theorem Keeps.trans {code : Buf} {s t u : State H} (h : Keeps code s t) (h' : Keeps code t u) :
    Keeps code s u :=
  ⟨h'.x0.trans h.x0, h'.code.trans h.code, h'.ptr.trans h.ptr⟩

theorem keeps_wr (code : Buf) (s : State H) (i : Reg) (v : Word) : Keeps code s (s.wr i v) :=
  ⟨wr_x_zero s i v, by rw [wr_mem], by rw [wr_writable]⟩

theorem keeps_setByte {code : Buf} (s : State H) {p : Ptr} (hp : p.1 ≠ code) (i : Nat) (v : Byte) :
    Keeps code s (s.setByte p i v) := by
  refine ⟨rfl, ?_, rfl⟩
  funext o
  show (if code = p.1 ∧ o = p.2 + i then v else s.mem code o) = s.mem code o
  rw [if_neg fun hc => hp hc.1.symm]

theorem keeps_storeValue {code : Buf} (s : State H) {p : Ptr} (hp : p.1 ≠ code) (b : Word)
    (f3 : BitVec 3) : Keeps code s (storeValue s p b f3) := by
  unfold storeValue
  split
  · exact keeps_setByte s hp _ _
  · exact (keeps_setByte s hp _ _).trans (keeps_setByte _ hp _ _)
  · exact (((keeps_setByte s hp _ _).trans (keeps_setByte _ hp _ _)).trans
      (keeps_setByte _ hp _ _)).trans (keeps_setByte _ hp _ _)

/-- The host calls of a run leave `x0`, the code and the writable buffer alone. -/
structure Hooks.Keep (h : Hooks H) (code : Buf) : Prop where
  trap : ∀ t f, (h.handler t).1 = some f → ∀ s, Keeps code s (f s).1
  callback : ∀ f, h.callback = some f → ∀ s op a v, Keeps code s (f s op a v).1

theorem keeps_callback {h : Hooks H} {code : Buf} (hk : h.Keep code) (r : Run H) (op : MemOp)
    (a v : Word) : Keeps code r.s (r.callback h op a v).1.s := by
  unfold Run.callback
  split
  · exact Keeps.refl _ _
  · rename_i f hf
    exact hk.callback f hf r.s op a v

theorem keeps_trap {h : Hooks H} {code : Buf} (hk : h.Keep code) (r : Run H) (t : Trap) :
    Keeps code r.s (r.trap h t).1.s := by
  unfold Run.trap
  split
  · exact Keeps.refl _ _
  · rename_i f _ hf
    exact hk.trap t f (by rw [hf]) r.s

theorem keeps_raise {h : Hooks H} {code : Buf} (hk : h.Keep code) (r : Run H) (pc inst : Word)
    (t : Trap) : Keeps code r.s (r.raise h pc inst t).1.s := by
  have hf : Keeps code r.s (r.fault pc inst).s := ⟨rfl, rfl, rfl⟩
  exact hf.trans (keeps_trap hk (r.fault pc inst) t)

theorem keeps_execLoad {h : Hooks H} {code : Buf} (hk : h.Keep code) (r : Run H) (rd : Reg)
    (a : Word) (f3 : BitVec 3) : Keeps code r.s (execLoad h r rd a f3).s := by
  unfold execLoad
  simp only
  split
  · exact Keeps.refl _ _
  · split
    · exact keeps_wr _ _ _ _
    · exact (keeps_callback hk r _ _ _).trans (keeps_wr _ _ _ _)

theorem memXlate_write {s : State H} {a n : Word} {p : Ptr} (h : memXlate s a n true = some p) :
    p.1 = s.writable.ptr := by
  unfold memXlate at h
  split at h
  · cases h
    rfl
  · cases h

theorem keeps_execStore {h : Hooks H} {code : Buf} (hk : h.Keep code) {r : Run H}
    (hp : r.s.writable.ptr ≠ code) (a b : Word) (f3 : BitVec 3) :
    Keeps code r.s (execStore h r a b f3).s := by
  unfold execStore
  split
  · rename_i p hx
    exact keeps_storeValue r.s (by rwa [memXlate_write hx]) b f3
  · exact keeps_callback hk r _ _ _

/-- **Every action body keeps `x0`, the code and the writable buffer.** -/
theorem execute_keeps {h : Hooks H} {code : Buf} (hk : h.Keep code) {r : Run H}
    (hp : r.s.writable.ptr ≠ code) (pc width inst : Word) (a : Action) :
    Keeps code r.s (execute h r pc width inst a).1.s := by
  cases a with
  | alu rd a b f3 f7 => exact keeps_wr _ _ _ _
  | mul rd a b f3 => exact keeps_wr _ _ _ _
  | load rd a imm f3 =>
    simp only [execute]
    split
    · exact keeps_raise hk r pc inst _
    · exact keeps_execLoad hk r _ _ _
  | store a b imm f3 =>
    simp only [execute]
    split
    · exact keeps_raise hk r pc inst _
    · exact keeps_execStore hk hp _ _ _
  | branch a b imm f3 =>
    simp only [execute]
    split
    · exact keeps_raise hk r pc inst _
    · exact Keeps.refl _ _
    · exact Keeps.refl _ _
  | jal rd imm => exact keeps_wr _ _ _ _
  | jalr rd a imm => exact keeps_wr _ _ _ _
  | lui rd imm => exact keeps_wr _ _ _ _
  | auipc rd imm => exact keeps_wr _ _ _ _
  | system rd rs1 f3 imm =>
    simp only [execute]
    split
    · exact keeps_raise hk r pc inst _
    · split
      · exact keeps_raise hk r pc inst _
      · exact keeps_raise hk r pc inst _
  | ebreak => exact keeps_raise hk r pc inst _
  | illegal => exact keeps_raise hk r pc inst _
  | done => exact Keeps.refl _ _

/-- A step keeps them too. -/
theorem next_keeps {h : Hooks H} {code : Buf} {code_len : Word} (hk : h.Keep code)
    {x y : Run H × Word} (hp : x.1.s.writable.ptr ≠ code) (hx : next h code code_len x = some y) :
    Keeps code x.1.s y.1.s := by
  obtain ⟨r, pc⟩ := x
  have he := execute_keeps hk hp pc (fetch (r.s.mem code) pc).width (fetch (r.s.mem code) pc).inst
    ((fetch (r.s.mem code) pc).decode r.s.x)
  unfold next at hx
  simp only at hx
  split at hx
  · split at hx
    · rename_i r' hi
      cases hx
      unfold oneInsn at hi
      rwa [hi] at he
    · rename_i r' t hi
      cases hx
      unfold oneInsn at hi
      rwa [hi] at he
    · cases hx
  · cases hx

/-! ## Runs up to the pc that the host sees -/

/-- The state without its pc. -/
def State.noPc (s : State H) : State H := { s with pc := 0#32 }

/-- A host call without the pc it saw. -/
def Call.noPc : Call H → Call H
  | .mem op a v s => .mem op a v s.noPc
  | .trap t s => .trap t s.noPc

/-- A run without any pc. -/
def Run.noPc (r : Run H) : Run H := ⟨r.s.noPc, r.log.map Call.noPc⟩

/-- The answers of the host do not depend on the pc it sees. -/
structure Hooks.PcFree (h : Hooks H) : Prop where
  trap : ∀ t f, (h.handler t).1 = some f → ∀ s s', s.noPc = s'.noPc →
    (f s).1.noPc = (f s').1.noPc ∧ (f s).2 = (f s').2
  callback : ∀ f, h.callback = some f → ∀ s s' op a v, s.noPc = s'.noPc →
    (f s op a v).1.noPc = (f s' op a v).1.noPc ∧ (f s op a v).2 = (f s' op a v).2

@[simp] theorem setPc_noPc (r : Run H) (pc : Word) : (r.setPc pc).noPc = r.noPc := rfl

section
variable {r q : Run H} (hrq : r.noPc = q.noPc)
include hrq

theorem noPc_state : r.s.noPc = q.s.noPc := congrArg Run.s hrq

theorem noPc_x : r.s.x = q.s.x := congrArg (fun a => a.s.x) hrq

theorem noPc_mem : r.s.mem = q.s.mem := congrArg (fun a => a.s.mem) hrq

theorem noPc_writable : r.s.writable = q.s.writable := congrArg (fun a => a.s.writable) hrq

theorem noPc_readonly : r.s.readonly = q.s.readonly := congrArg (fun a => a.s.readonly) hrq

theorem noPc_log : r.log.map Call.noPc = q.log.map Call.noPc := congrArg Run.log hrq

theorem noPc_xlate (a n : Word) (w : Bool) : memXlate r.s a n w = memXlate q.s a n w := by
  unfold memXlate
  rw [noPc_writable hrq, noPc_readonly hrq]

end

theorem wr_noPc {r q : Run H} (hrq : r.noPc = q.noPc) (i : Reg) (v : Word) :
    (r.wr i v).noPc = (q.wr i v).noPc := by
  have hcomm : ∀ s : State H, (s.wr i v).noPc = s.noPc.wr i v := fun s => by
    unfold State.wr
    split <;> rfl
  show (⟨(r.s.wr i v).noPc, r.log.map Call.noPc⟩ : Run H) =
    ⟨(q.s.wr i v).noPc, q.log.map Call.noPc⟩
  rw [hcomm, hcomm, noPc_state hrq, noPc_log hrq]

theorem setByte_noPc {s s' : State H} (h : s.noPc = s'.noPc) (p : Ptr) (i : Nat) (v : Byte) :
    (s.setByte p i v).noPc = (s'.setByte p i v).noPc := by
  have hcomm : ∀ s : State H, (s.setByte p i v).noPc = s.noPc.setByte p i v := fun _ => rfl
  rw [hcomm, hcomm, h]

theorem storeValue_noPc {s s' : State H} (h : s.noPc = s'.noPc) (p : Ptr) (b : Word)
    (f3 : BitVec 3) : (storeValue s p b f3).noPc = (storeValue s' p b f3).noPc := by
  unfold storeValue
  split
  · exact setByte_noPc h _ _ _
  · exact setByte_noPc (setByte_noPc h _ _ _) _ _ _
  · exact setByte_noPc (setByte_noPc (setByte_noPc (setByte_noPc h _ _ _) _ _ _) _ _ _) _ _ _

section
variable {h : Hooks H} (hfree : h.PcFree) {r q : Run H} (hrq : r.noPc = q.noPc)
include hfree hrq

theorem callback_noPc (op : MemOp) (a v : Word) :
    (r.callback h op a v).1.noPc = (q.callback h op a v).1.noPc ∧
      (r.callback h op a v).2 = (q.callback h op a v).2 := by
  unfold Run.callback
  split
  · exact ⟨hrq, rfl⟩
  · rename_i f hf
    obtain ⟨hs, hv⟩ := hfree.callback f hf r.s q.s op a v (noPc_state hrq)
    refine ⟨?_, hv⟩
    simp only [Run.noPc, List.map_append, List.map_cons, List.map_nil, Call.noPc, hs,
      noPc_log hrq, noPc_state hrq]

theorem trap_noPc (t : Trap) :
    (r.trap h t).1.noPc = (q.trap h t).1.noPc ∧ (r.trap h t).2 = (q.trap h t).2 := by
  unfold Run.trap
  split
  · exact ⟨hrq, rfl⟩
  · rename_i f _ hf
    obtain ⟨hs, hv⟩ := hfree.trap t f (by rw [hf]) r.s q.s (noPc_state hrq)
    refine ⟨?_, hv⟩
    simp only [Run.noPc, List.map_append, List.map_cons, List.map_nil, Call.noPc, hs,
      noPc_log hrq, noPc_state hrq]

omit hfree in
theorem fault_noPc (pc pc' inst : Word) :
    (r.fault pc inst).noPc = (q.fault pc' inst).noPc := by
  have hcomm : ∀ (r : Run H) (p : Word), (r.fault p inst).noPc =
      { r.noPc with s := { r.noPc.s with inst := inst } } := fun _ _ => rfl
  rw [hcomm, hcomm, hrq]

theorem raise_noPc (pc pc' inst : Word) (t : Trap) :
    (r.raise h pc inst t).1.noPc = (q.raise h pc' inst t).1.noPc ∧
      (r.raise h pc inst t).2 = (q.raise h pc' inst t).2 := by
  obtain ⟨h1, h2⟩ := trap_noPc hfree (fault_noPc hrq pc pc' inst) t
  unfold Run.raise
  simp only
  rw [h2]
  exact ⟨h1, rfl⟩

theorem execLoad_noPc (rd : Reg) (a : Word) (f3 : BitVec 3) :
    (execLoad h r rd a f3).noPc = (execLoad h q rd a f3).noPc := by
  unfold execLoad
  simp only
  split
  · exact hrq
  · rw [noPc_xlate hrq]
    split
    · rename_i p _
      have hv : loadValue r.s p f3 = loadValue q.s p f3 := by
        unfold loadValue State.byte
        rw [noPc_mem hrq]
      rw [hv]
      exact wr_noPc hrq _ _
    · obtain ⟨h1, h2⟩ := callback_noPc hfree hrq .load a 0#32
      rw [h2]
      exact wr_noPc h1 _ _

theorem execStore_noPc (a b : Word) (f3 : BitVec 3) :
    (execStore h r a b f3).noPc = (execStore h q a b f3).noPc := by
  unfold execStore
  rw [noPc_xlate hrq]
  split
  · show (⟨(storeValue r.s _ b f3).noPc, r.log.map Call.noPc⟩ : Run H) = ⟨_, _⟩
    rw [storeValue_noPc (noPc_state hrq), noPc_log hrq]
  · exact (callback_noPc hfree hrq .store a b).1

/-- **Every action body does the same in two runs that differ by their pc.** -/
theorem execute_noPc (pc width inst : Word) (a : Action) :
    (execute h r pc width inst a).1.noPc = (execute h q pc width inst a).1.noPc ∧
      (execute h r pc width inst a).2 = (execute h q pc width inst a).2 := by
  have hraise := fun t => raise_noPc hfree hrq pc pc inst t
  cases a <;> simp only [execute]
  case load rd a imm f3 =>
    split
    · exact hraise _
    · exact ⟨execLoad_noPc hfree hrq _ _ _, rfl⟩
  case store a b imm f3 =>
    split
    · exact hraise _
    · exact ⟨execStore_noPc hfree hrq _ _ _, rfl⟩
  case branch a b imm f3 =>
    split
    · exact hraise _
    · exact ⟨hrq, rfl⟩
    · exact ⟨hrq, rfl⟩
  case system rd rs1 f3 imm =>
    split
    · exact hraise _
    · split
      · exact hraise _
      · exact hraise _
  case ebreak => exact hraise _
  case illegal => exact hraise _
  case done => exact ⟨hrq, trivial⟩
  all_goals exact ⟨wr_noPc hrq _ _, trivial⟩

theorem oneInsn_noPc (pc : Word) (i : Insn) :
    (oneInsn h r pc i).1.noPc = (oneInsn h q pc i).1.noPc ∧
      (oneInsn h r pc i).2 = (oneInsn h q pc i).2 := by
  unfold oneInsn
  rw [noPc_x hrq]
  exact execute_noPc hfree hrq _ _ _ _

end

end Purv

import Mathlib.Tactic.IntervalCases
import Purv.Purva

/-!
# What an op does not see

An op that does not trap works on the registers and the regions.  It neither reads nor writes the pc
of the state, the faulting word and the host, as long as the memory callback is the engine's own.

* `graft` — the registers and regions of one state with the rest of another;
* `dispatch_graft` — an op that does not trap does the same in both;
* `dispatch_traps` — a trap op sets the pc and the faulting word, and calls its handler.
-/

namespace Purv.Purva

open Bits Transcode

variable {H K : Type}

/-- The registers and the regions of `s`, with the pc, the faulting word and the host of `t`. -/
def graft (t : State K) (s : State H) : State K :=
  { t with x := s.x, readonly := s.readonly, writable := s.writable, mem := s.mem }

/-- The run of a graft; the log is `t`'s. -/
def graftRun (t : Run K) (r : Run H) : Run K := ⟨graft t.s r.s, t.log⟩

section
variable (t : Run K) (r : Run H)

theorem graft_x : (graftRun t r).s.x = r.s.x := rfl

theorem graft_pmoWspan (a : Word) : pmoWspan (graftRun t r).s a = pmoWspan r.s a := rfl

theorem graft_pmoSpan (a : Word) : pmoSpan (graftRun t r).s a = pmoSpan r.s a := rfl

theorem graft_spanByte (q : Option (Ptr × Nat)) (i : Nat) :
    spanByte (graftRun t r).s q i = spanByte r.s q i := by
  cases q with
  | none => rfl
  | some q => rfl

theorem graft_put (i : Reg) (v : Word) : put (graftRun t r) i v = graftRun t (put r i v) := rfl

theorem graft_wr (i : Reg) (v : Word) : (graftRun t r).wr i v = graftRun t (r.wr i v) := by
  unfold Run.wr graftRun State.wr
  split <;> rfl

theorem graft_stLe (s : State H) (q : Ptr) (n : Nat) (v : Word) :
    stLe (graft t.s s) q n v = graft t.s (stLe s q n v) := by
  unfold stLe
  simp only
  split <;> split <;> rfl

theorem graft_saveFast (b : Buf) (q : Nat) (regs : List Reg) :
    saveFast (graftRun t r) b q regs = graftRun t (saveFast r b q regs) := by
  induction regs generalizing r q with
  | nil => rfl
  | cons i regs ih =>
    rw [saveFast, saveFast, ← ih]
    have hst := graft_stLe t r.s (b, q - 4) 4 (r.s.x i)
    exact congrArg (fun s : State K => saveFast ⟨s, t.log⟩ b (q - 4) regs) hst

theorem graft_restFast (b : Buf) (q : Nat) (regs : List Reg) :
    restFast (graftRun t r) b q regs = graftRun t (restFast r b q regs) := by
  induction regs generalizing r q with
  | nil => rfl
  | cons i regs ih => exact ih (put r i (ldLe r.s (b, q - 4) 4)) (q - 4)

end

section
variable {h : Hooks H} {k : Hooks K} (hh : h.callback = none) (hk : k.callback = none) (t : Run K)
  (r : Run H)
include hh hk

theorem graft_load (a : Word) (n : Nat) :
    load k (graftRun t r) a n = (graftRun t (load h r a n).1, (load h r a n).2) := by
  have hmem : memR (graftRun t r).s a (BitVec.ofNat 32 n) = memR r.s a (BitVec.ofNat 32 n) := rfl
  unfold load
  rw [hmem]
  cases memR r.s a (BitVec.ofNat 32 n) with
  | some q => rfl
  | none =>
    unfold Run.callback
    rw [hh, hk]

theorem graft_store (a v : Word) (n : Nat) :
    store k (graftRun t r) a v n = graftRun t (store h r a v n) := by
  have hmem : memW (graftRun t r).s a (BitVec.ofNat 32 n) = memW r.s a (BitVec.ofNat 32 n) := rfl
  unfold store
  rw [hmem]
  cases memW r.s a (BitVec.ofNat 32 n) with
  | some q => exact congrArg (fun s : State K => (⟨s, t.log⟩ : Run K)) (graft_stLe t r.s q n v)
  | none =>
    unfold Run.callback
    rw [hh, hk]

theorem graft_prologueSlow (top : Word) (regs : List Reg) :
    prologueSlow k (graftRun t r) top regs = graftRun t (prologueSlow h r top regs) := by
  induction regs generalizing r top with
  | nil => rfl
  | cons i regs ih =>
    rw [prologueSlow, prologueSlow, ← ih]
    exact congrArg (fun q => prologueSlow k q (top - 4#32) regs)
      (graft_store hh hk t r (top - 4#32) (r.s.x i) 4)

theorem graft_epilogueSlow (top : Word) (regs : List Reg) :
    epilogueSlow k (graftRun t r) top regs = graftRun t (epilogueSlow h r top regs) := by
  induction regs generalizing r top with
  | nil => rfl
  | cons i regs ih =>
    rw [epilogueSlow, epilogueSlow, graft_load hh hk]
    exact ih (put (load h r (top - 4#32) 4).1 i (load h r (top - 4#32) 4).2) (top - 4#32)

theorem graft_prologue (w : Word) :
    prologue k (graftRun t r) w = (graftRun t (prologue h r w).1, (prologue h r w).2) := by
  have htop : frameTop (graftRun t r).s (r.s.x 2#5) = frameTop r.s (r.s.x 2#5) := rfl
  unfold prologue
  simp only
  rw [graft_x, htop]
  cases frameTop r.s (r.s.x 2#5) with
  | some q =>
    simp only
    rw [graft_saveFast]
    rfl
  | none =>
    simp only
    rw [graft_prologueSlow hh hk]
    rfl

theorem graft_epilogue (w : Word) :
    epilogue k (graftRun t r) w = (graftRun t (epilogue h r w).1, (epilogue h r w).2) := by
  have htop : frameTop (graftRun t r).s (r.s.x 2#5 + (w &&& 0x1fff#32)) =
      frameTop r.s (r.s.x 2#5 + (w &&& 0x1fff#32)) := rfl
  unfold epilogue
  simp only
  rw [graft_x, htop]
  cases frameTop r.s (r.s.x 2#5 + (w &&& 0x1fff#32)) with
  | some q =>
    simp only
    rw [graft_restFast]
    rfl
  | none =>
    simp only
    rw [graft_epilogueSlow hh hk]
    rfl

theorem graft_callback (op : MemOp) (a v : Word) :
    (graftRun t r).callback k op a v = (graftRun t r, 0) ∧ r.callback h op a v = (r, 0) := by
  unfold Run.callback
  rw [hh, hk]
  exact ⟨rfl, rfl⟩

theorem graft_fillByte (to_ v : Word) :
    fillByte k (graftRun t r) to_ v = graftRun t (fillByte h r to_ v) := by
  unfold fillByte
  rw [graft_pmoWspan]
  cases pmoWspan r.s to_ with
  | some q => rfl
  | none =>
    obtain ⟨h1, h2⟩ := graft_callback hh hk t r .store to_ v
    simp only [h1, h2]

theorem graft_copyByte (to_ from_ : Word) :
    copyByte k (graftRun t r) to_ from_ = graftRun t (copyByte h r to_ from_) := by
  unfold copyByte
  rw [graft_pmoSpan]
  cases pmoSpan r.s from_ with
  | some q => exact graft_fillByte hh hk t r to_ ((r.s.byte q.1 0).setWidth 32)
  | none =>
    obtain ⟨h1, h2⟩ := graft_callback hh hk t r .load from_ 0#32
    simp only [h1, h2]
    exact graft_fillByte hh hk t r to_ 0

omit hh hk in
/-- A loop of byte moves. -/
theorem graft_foldl (f : Run H → Nat → Run H) (g : Run K → Nat → Run K)
    (hfg : ∀ r i, g (graftRun t r) i = graftRun t (f r i)) (l : List Nat) :
    l.foldl g (graftRun t r) = graftRun t (l.foldl f r) := by
  induction l generalizing r with
  | nil => rfl
  | cons i l ih => rw [List.foldl_cons, List.foldl_cons, hfg, ih]

theorem graft_purvMemop (f3 : Nat) (rd rs1 rs2 : Reg) :
    purvMemop k (graftRun t r) f3 rd rs1 rs2 =
      (graftRun t (purvMemop h r f3 rd rs1 rs2).1, (purvMemop h r f3 rd rs1 rs2).2) := by
  unfold purvMemop
  simp only [graft_x, graft_pmoWspan, graft_pmoSpan, graft_spanByte]
  have hcopy := fun (to_ from_ : Nat → Word) => graft_foldl t r
    (fun r i => copyByte h r (to_ i) (from_ i)) (fun r i => copyByte k r (to_ i) (from_ i))
    fun r i => graft_copyByte hh hk t r (to_ i) (from_ i)
  have hfill := fun (to_ : Nat → Word) (v : Word) => graft_foldl t r
    (fun r i => fillByte h r (to_ i) v) (fun r i => fillByte k r (to_ i) v)
    fun r i => graft_fillByte hh hk t r (to_ i) v
  split
  case h_1 =>
    rw [hcopy]
    split
    · rename_i d da q sa _ _
      show (Option.getD (if (r.s.x rs2).toNat ≤ da ∧ (r.s.x rs2).toNat ≤ sa
          then some (graftRun t { r with s := memmove r.s d q (r.s.x rs2).toNat }) else none)
        (graftRun t _), _) = _
      split
      · rfl
      · rfl
    · rfl
  case h_2 =>
    rw [hfill]
    split
    · rename_i d da _
      show (Option.getD (if (r.s.x rs2).toNat ≤ da then
            some (graftRun t ⟨memset r.s d ((r.s.x rs1).extractLsb' 0 8) (r.s.x rs2).toNat, r.log⟩)
          else none) (graftRun t _), _) = _
      split
      · rfl
      · rfl
    · rfl
  case h_5 => rfl
  all_goals
    split
    · rfl
    · rfl

theorem graft_hLoad (w : Word) (T : CType) :
    hLoad k (graftRun t r) w T = graftRun t (hLoad h r w T) := by
  unfold hLoad
  rw [graft_x, graft_load hh hk]
  split
  · rfl
  · rfl

theorem graft_hStore (w : Word) (n : Nat) :
    hStore k (graftRun t r) w n = graftRun t (hStore h r w n) := by
  unfold hStore
  rw [graft_x, graft_store hh hk]

theorem graft_loadTwice (w : Word) :
    loadTwice k (graftRun t r) w = (graftRun t (loadTwice h r w).1, (loadTwice h r w).2) := by
  unfold loadTwice
  rw [graft_x, graft_load hh hk]
  simp only
  rw [graft_load hh hk]

theorem graft_hLwsw (w : Word) : hLwsw k (graftRun t r) w = graftRun t (hLwsw h r w) := by
  unfold hLwsw
  rw [graft_x, graft_load hh hk]
  simp only
  rw [graft_put, graft_x, graft_store hh hk]

theorem graft_hLoadBz (p w w2 : Word) (T : CType) :
    hLoadBz k (graftRun t r) p w w2 T =
      (graftRun t (hLoadBz h r p w w2 T).1, (hLoadBz h r p w w2 T).2) := by
  unfold hLoadBz
  rw [graft_x, graft_load hh hk]
  rfl

/-- An op of `h_trap`. -/
def IsTrap (op : Nat) : Prop := (RISCV_OP_ECALL ≤ op ∧ op ≤ RISCV_OP_ILLEGAL) ∨ RISCV_OP_MEMOP < op

instance (op : Nat) : Decidable (IsTrap op) := inferInstanceAs (Decidable (_ ∨ _))

/-- **An op that does not trap** does the same to the registers and the regions whatever the rest of
the state is, and leaves the rest alone. -/
theorem dispatch_graft (p w w2 : Word) (hop : ¬ IsTrap (TC_OP w)) :
    dispatch k (graftRun t r) p w w2 =
      (graftRun t (dispatch h r p w w2).1, (dispatch h r p w w2).2) := by
  unfold dispatch
  simp only [graft_x]
  split
  case h_28 | h_29 | h_30 | h_31 | h_32 => rw [graft_hLoad hh hk]
  case h_33 | h_34 | h_35 => rw [graft_hStore hh hk]
  case h_42 | h_43 => rw [graft_wr]
  case h_47 => rw [graft_prologue hh hk]
  case h_48 =>
    rw [graft_epilogue hh hk]
    rfl
  case h_52 =>
    rw [graft_load hh hk]
    rfl
  case h_53 =>
    rw [graft_loadTwice hh hk]
    rfl
  case h_54 | h_55 => exact graft_hLoadBz hh hk t r p w w2 _
  case h_56 => rw [graft_hLwsw hh hk]
  case h_57 =>
    rw [graft_loadTwice hh hk]
    rfl
  case h_58 => rw [graft_purvMemop hh hk]
  case h_59 =>
    refine absurd ?_ hop
    unfold IsTrap RISCV_OP_ECALL RISCV_OP_ILLEGAL RISCV_OP_MEMOP
    generalize TC_OP w = op at *
    by_contra hc
    have hle : op ≤ 60 := by omega
    interval_cases op <;> contradiction
  all_goals rfl

end

/-- **A trap op** sets the pc and the faulting word, and calls its handler. -/
theorem dispatch_traps (h : Hooks H) (r : Run H) (p w w2 : Word) (hop : IsTrap (TC_OP w)) :
    dispatch h r p w w2 = hTrap h r p w := by
  unfold dispatch
  simp only
  split
  case h_59 => rfl
  all_goals
    rename_i hw
    rw [hw] at hop
    exact absurd hop (by decide)

/-! ## The pc and the count -/

section
variable {h : Hooks H} (hh : h.callback = none) (r : Run H) (p w w2 v : Word)

include hh in
/-- An op that does not trap leaves everything but the registers and the regions alone. -/
theorem dispatch_keeps (hop : ¬ IsTrap (TC_OP w)) :
    (dispatch h r p w w2).1 = graftRun r (dispatch h r p w w2).1 :=
  congrArg Prod.fst (dispatch_graft hh hh r r p w w2 hop)

include hh in
/-- An op that does not trap does the same at any pc, and leaves it. -/
theorem dispatch_setPc (hop : ¬ IsTrap (TC_OP w)) :
    dispatch h (r.setPc v) p w w2 =
      ((dispatch h r p w w2).1.setPc v, (dispatch h r p w w2).2) := by
  have hv := dispatch_graft hh hh (r.setPc v) r p w w2 hop
  have hr := dispatch_keeps hh r p w w2 hop
  rw [show graftRun (r.setPc v) r = r.setPc v from rfl] at hv
  rw [hv, hr]
  rfl

/-- A trap op does the same at any pc. -/
theorem dispatch_traps_setPc (hop : IsTrap (TC_OP w)) :
    dispatch h (r.setPc v) p w w2 = dispatch h r p w w2 := by
  rw [dispatch_traps h _ p w w2 hop, dispatch_traps h _ p w w2 hop]
  rfl

/-- The ways on from an op: each counts at least one, `NEXT` moves forward, and only `h_trap`, whose
outcome is `t`, calls a handler. -/
inductive Goes (t : Run H × Nat × Goto) : Run H × Nat × Goto → Prop
  | fall {r : Run H} {c n : Nat} : 0 < c → 0 < n → Goes t (r, c, .fall n)
  | reloc {r : Run H} {c : Nat} {idx : Word} : 0 < c → Goes t (r, c, .reloc idx)
  | indirect {r : Run H} {c : Nat} {a : Word} : 0 < c → Goes t (r, c, .indirect a)
  | trap {r : Run H} {c : Nat} {stop : Bool} : 0 < c → t = (r, c, .trap stop) →
      Goes t (r, c, .trap stop)

theorem goes_branch (t : Run H × Nat × Goto) (taken : Bool) :
    Goes t (hBranch r p w taken) := by
  unfold hBranch
  cases taken with
  | true => exact .reloc Nat.one_pos
  | false => exact .fall Nat.one_pos Nat.one_pos

theorem goes_loadBz (t : Run H × Nat × Goto) (T : CType) : Goes t (hLoadBz h r p w w2 T) := by
  unfold hLoadBz
  simp only
  split
  · exact .reloc Nat.two_pos
  · exact .fall Nat.two_pos Nat.two_pos

/-- **The ways on from the op at the cursor.** -/
theorem dispatch_goes : Goes (hTrap h r p w) (dispatch h r p w w2) := by
  unfold dispatch
  simp only
  split
  case h_36 | h_37 | h_38 | h_39 | h_40 | h_41 => exact goes_branch ..
  case h_42 => exact .reloc Nat.one_pos
  case h_43 => exact .indirect Nat.one_pos
  case h_48 | h_57 => exact .indirect (Nat.succ_pos _)
  case h_54 | h_55 => exact goes_loadBz ..
  case h_59 => exact .trap Nat.one_pos rfl
  all_goals exact .fall (Nat.succ_pos _) Nat.one_pos

/-- An outcome that calls a handler is the one of `h_trap`. -/
theorem goes_trap {t o : Run H × Nat × Goto} {stop : Bool} (ho : Goes t o)
    (hg : o.2.2 = .trap stop) : t = o := by
  cases ho with
  | fall hc hn => cases hg
  | reloc hc => cases hg
  | indirect hc => cases hg
  | trap hc ht => exact ht

include hh in
/-- **An op does the same at any pc**, and leaves another one there unless it calls a handler. -/
theorem dispatch_pc : ∃ v', dispatch h (r.setPc v) p w w2 =
    ((dispatch h r p w w2).1.setPc v', (dispatch h r p w w2).2) ∧
      ∀ stop, (dispatch h r p w w2).2.2 = .trap stop → v' = (dispatch h r p w w2).1.s.pc := by
  by_cases hop : IsTrap (TC_OP w)
  · exact ⟨(dispatch h r p w w2).1.s.pc, dispatch_traps_setPc r p w w2 v hop, fun _ _ => rfl⟩
  · have hv := dispatch_setPc hh r p w w2 v hop
    refine ⟨v, hv, fun stop hg => ?_⟩
    have ht := goes_trap (dispatch_goes r p w w2) hg
    have hg' : (dispatch h (r.setPc v) p w w2).2.2 = .trap stop := by rw [hv]; exact hg
    have ht' := goes_trap (dispatch_goes (r.setPc v) p w w2) hg'
    have hsame : dispatch h r p w w2 = dispatch h (r.setPc v) p w w2 := ht.symm.trans ht'
    rw [hsame, hv]
    rfl

end

end Purv.Purva

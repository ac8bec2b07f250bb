import Purv.PurvaBudget

/-!
# The host bytes that the evaluator touches

* `Touch` — one access of a handler, with the host bytes that the source computes for it;
* `touches` — the accesses of one op;
* `Handler`, `dispatch_handler` — what a handler may be: its accesses, and registers after them;
* `dispatch_misses` — the accesses that touch no host byte are the calls of the callback;
* `Overruns` — the frames of `h_prologue` and `h_epilogue` that leave the writable region;
* `touches_inside` — the other ones, and every other access, stay inside the regions.
-/

namespace Purv.Purva

open Bits Transcode

variable {H : Type}

/-! ## Accesses -/

/-- An access of a handler to `n` bytes at `addr`: the state that it is made in, and the buffer and
the offset of the host bytes that it touches (below zero: before the buffer), if it touches any. -/
structure Touch (H : Type) where
  s : State H
  op : MemOp
  addr : Word
  n : Nat
  host : Option (Buf × Int)

/-- The host bytes are bytes of a region: of the writable one, or of the read-only one if they are
read. -/
def Touch.Inside (t : Touch H) : Prop :=
  ∀ b o, t.host = some (b, o) → 0 ≤ o ∧
    (b = t.s.writable.ptr ∧ o + t.n ≤ t.s.writable.len.toNat ∨
      t.op = .load ∧ b = t.s.readonly.ptr ∧ o + t.n ≤ t.s.readonly.len.toNat)

/-- A load of `n` bytes. -/
def loadTouch (s : State H) (a : Word) (n : Nat) : Touch H :=
  ⟨s, .load, a, n, (memR s a (BitVec.ofNat 32 n)).map fun q => (q.1, (q.2 : Int))⟩

/-- A store of `n` bytes. -/
def storeTouch (s : State H) (a : Word) (n : Nat) : Touch H :=
  ⟨s, .store, a, n, (memW s a (BitVec.ofNat 32 n)).map fun q => (q.1, (q.2 : Int))⟩

/-- The run of `SAVE`s, or of `REST`s: `q` is the offset to step down from, for the address `addr`. -/
def frameTouches (s : State H) (op : MemOp) (b : Buf) : Int → Word → List Reg → List (Touch H)
  | _, _, [] => []
  | q, addr, _ :: regs =>
    ⟨s, op, addr - 4#32, 4, some (b, q - 4)⟩ :: frameTouches s op b (q - 4) (addr - 4#32) regs

/-- `prologue_slow`. -/
def slowSaves (h : Hooks H) (r : Run H) : Word → List Reg → List (Touch H)
  | _, [] => []
  | addr, i :: regs =>
    storeTouch r.s (addr - 4#32) 4 ::
      slowSaves h (store h r (addr - 4#32) (r.s.x i) 4) (addr - 4#32) regs

/-- `epilogue_slow`. -/
def slowRests (h : Hooks H) (r : Run H) : Word → List Reg → List (Touch H)
  | _, [] => []
  | addr, i :: regs =>
    let (r', v) := load h r (addr - 4#32) 4
    loadTouch r.s (addr - 4#32) 4 :: slowRests h (put r' i v) (addr - 4#32) regs

/-- The accesses of a frame below `top`. -/
def frameAccesses (h : Hooks H) (r : Run H) (op : MemOp) (top : Word) (regs : List Reg) :
    List (Touch H) :=
  match frameTop r.s top, op with
  | some q, op => frameTouches r.s op q.1 q.2 top regs
  | none, .store => slowSaves h r top regs
  | none, .load => slowRests h r top regs

/-- The two loads of `LWLW` and `VCALL`. -/
def loadTwiceTouches (h : Hooks H) (r : Run H) (w : Word) : List (Touch H) :=
  let (r', v) := load h r (r.s.x (TC_B w) + TC_O1 w) 4
  [loadTouch r.s (r.s.x (TC_B w) + TC_O1 w) 4, loadTouch r'.s (v + TC_O2 w) 4]

/-- The load and the store of `h_lwsw`. -/
def lwswTouches (h : Hooks H) (r : Run H) (w : Word) : List (Touch H) :=
  let (r', v) := load h r (r.s.x (TC_B w) + TC_W1 w) 4
  let r' := put r' (TC_A w) v
  [loadTouch r.s (r.s.x (TC_B w) + TC_W1 w) 4, storeTouch r'.s (r'.s.x (TC_C w) + TC_W2 w) 4]

/-- `LOAD`: nothing is read for `x0`. -/
def hLoadTouches (r : Run H) (w : Word) (T : CType) : List (Touch H) :=
  if TC_A w ≠ 0#5 then [loadTouch r.s (r.s.x (TC_B w) + TC_IMM w) T.size] else []

/-- The accesses of the handlers, except for `h_memop`. -/
def touches (h : Hooks H) (r : Run H) (w : Word) : List (Touch H) :=
  let a := r.s.x (TC_B w) + TC_IMM w
  match TC_OP w with
  | RISCV_OP_LB => hLoadTouches r w .int8_t
  | RISCV_OP_LH => hLoadTouches r w .int16_t
  | RISCV_OP_LW => hLoadTouches r w .int32_t
  | RISCV_OP_LBU => hLoadTouches r w .uint8_t
  | RISCV_OP_LHU => hLoadTouches r w .uint16_t
  | RISCV_OP_SB => [storeTouch r.s a 1]
  | RISCV_OP_SH => [storeTouch r.s a 2]
  | RISCV_OP_SW => [storeTouch r.s a 4]
  | RISCV_OP_PROLOGUE => frameAccesses h r .store (r.s.x 2#5) (maskRegs (w >>> 13))
  | RISCV_OP_EPILOGUE =>
    frameAccesses h r .load (r.s.x 2#5 + (w &&& 0x1fff#32)) (maskRegs (w >>> 13))
  | RISCV_OP_LWX => [loadTouch r.s (r.s.x (TC_B w) + r.s.x (TC_C w) + TC_OFF11 w) 4]
  | RISCV_OP_LWLW => loadTwiceTouches h r w
  | RISCV_OP_LW_BZ => [loadTouch r.s a 4]
  | RISCV_OP_LBU_BZ => [loadTouch r.s a 1]
  | RISCV_OP_LWSW => lwswTouches h r w
  | RISCV_OP_VCALL => loadTwiceTouches h r w
  | _ => []

/-! ## Handlers -/

/-- The run over other buffers. -/
def Run.over (r : Run H) (m : Buf → Nat → Byte) : Run H := { r with s := { r.s with mem := m } }

/-- How a handler ends, once its accesses are made: it leaves the log and the buffers as they are,
and does not look at these. -/
structure RegOnly {α : Type} (f : Run H × α → Run H × Nat × Goto) : Prop where
  log : ∀ q, (f q).1.log = q.1.log
  mem : ∀ q, (f q).1.s.mem = q.1.s.mem
  buffers : ∀ q m, f (Run.over q.1 m, q.2) = (Run.over (f q).1 m, (f q).2)

section
variable (h : Hooks H) (r : Run H) (m : Buf → Nat → Byte) (p w w2 : Word)

/-- What the handler of an op may be: its accesses, what it makes of the run `r`, and what of `r`
over the buffers `m`. -/
inductive Handler : List (Touch H) → Run H × Nat × Goto → Run H × Nat × Goto → Prop
  | load (a : Word) {n : Nat} (hn : n = 1 ∨ n = 2 ∨ n = 4) {f : Run H × Word → _}
      (hf : RegOnly f) :
    Handler [loadTouch r.s a n] (f (load h r a n)) (f (load h (Run.over r m) a n))
  | store (a v : Word) {n : Nat} (hn : n = 1 ∨ n = 2 ∨ n = 4) {f : Run H × Unit → _}
      (hf : RegOnly f) :
    Handler [storeTouch r.s a n] (f (store h r a v n, ())) (f (store h (Run.over r m) a v n, ()))
  | loadTwice {f : Run H × Word → _} (hf : RegOnly f) :
    Handler (loadTwiceTouches h r w) (f (loadTwice h r w)) (f (loadTwice h (Run.over r m) w))
  | lwsw {f : Run H × Unit → _} (hf : RegOnly f) :
    Handler (lwswTouches h r w) (f (hLwsw h r w, ())) (f (hLwsw h (Run.over r m) w, ()))
  | prologue {f : Run H × Nat → _} (hf : RegOnly f) :
    Handler (frameAccesses h r .store (r.s.x 2#5) (maskRegs (w >>> 13))) (f (prologue h r w))
      (f (prologue h (Run.over r m) w))
  | epilogue {f : Run H × Nat → _} (hf : RegOnly f) :
    Handler (frameAccesses h r .load (r.s.x 2#5 + (w &&& 0x1fff#32)) (maskRegs (w >>> 13)))
      (f (epilogue h r w)) (f (epilogue h (Run.over r m) w))
  | plain {o o' : Run H × Nat × Goto} (hlog : o.1.log = r.log) (hmem : o.1.s.mem = r.s.mem)
      (hover : o' = (Run.over o.1 m, o.2)) : Handler [] o o'
  | memop (hw : TC_OP w = RISCV_OP_MEMOP) {o o' : Run H × Nat × Goto} : Handler [] o o'
  | trap : Handler [] (hTrap h r p w) (hTrap h (Run.over r m) p w)

theorem hLoad_handler (T : CType) :
    Handler h r m p w (hLoadTouches r w T) (hLoad h r w T, 1, .fall 1)
      (hLoad h (Run.over r m) w T, 1, .fall 1) := by
  unfold hLoadTouches hLoad
  split
  · exact .load (f := fun q => (put q.1 (TC_A w) (T.cast q.2), 1, .fall 1)) _
      (by cases T <;> decide) ⟨fun _ => rfl, fun _ => rfl, fun _ _ => rfl⟩
  · exact .plain rfl rfl rfl

theorem hStore_handler {n : Nat} (hn : n = 1 ∨ n = 2 ∨ n = 4) :
    Handler h r m p w [storeTouch r.s (r.s.x (TC_B w) + TC_IMM w) n] (hStore h r w n, 1, .fall 1)
      (hStore h (Run.over r m) w n, 1, .fall 1) :=
  .store (f := fun q => (q.1, 1, .fall 1)) _ (r.s.x (TC_A w)) hn
    ⟨fun _ => rfl, fun _ => rfl, fun _ _ => rfl⟩

theorem hLoadBz_handler {T : CType} {n : Nat} (hn : T.size = n) :
    Handler h r m p w [loadTouch r.s (r.s.x (TC_B w) + TC_IMM w) n] (hLoadBz h r p w w2 T)
      (hLoadBz h (Run.over r m) p w w2 T) := by
  subst hn
  exact .load (f := fun q => (put q.1 (TC_A w) (T.cast q.2), 2,
      if (T.cast q.2 == 0#32) == (w2 &&& 1#32 == 1#32) then .reloc (p + w2.sshiftRight 2)
      else .fall 2)) _
    (by cases T <;> decide) ⟨fun _ => rfl, fun _ => rfl, fun _ _ => rfl⟩

/-- **Every op has one of these handlers.** -/
theorem dispatch_handler :
    Handler h r m p w (touches h r w) (dispatch h r p w w2) (dispatch h (Run.over r m) p w w2) := by
  unfold dispatch touches
  simp only
  split
  case h_1 hw | h_2 hw | h_3 hw | h_4 hw | h_5 hw =>
    simp only [hw]
    exact hLoad_handler h r m p w _
  case h_6 hw | h_7 hw | h_8 hw =>
    simp only [hw]
    exact hStore_handler h r m p w (by decide)
  case h_9 hw =>
    simp only [hw]
    exact .prologue (f := fun q => (q.1, q.2 + 1, .fall 1))
      ⟨fun _ => rfl, fun _ => rfl, fun _ _ => rfl⟩
  case h_10 hw =>
    simp only [hw]
    exact .epilogue (f := fun q => (q.1, q.2 + 2, .indirect (q.1.s.x 1#5 &&& ~~~1#32)))
      ⟨fun _ => rfl, fun _ => rfl, fun _ _ => rfl⟩
  case h_11 hw =>
    simp only [hw]
    exact .load _ (.inr (.inr rfl)) (f := fun q => (put q.1 (TC_A w) q.2, 2, .fall 1))
      ⟨fun _ => rfl, fun _ => rfl, fun _ _ => rfl⟩
  case h_12 hw =>
    simp only [hw]
    exact .loadTwice (f := fun q => (put q.1 (TC_A w) q.2, 2, .fall 1))
      ⟨fun _ => rfl, fun _ => rfl, fun _ _ => rfl⟩
  case h_13 hw | h_14 hw =>
    simp only [hw]
    exact hLoadBz_handler h r m p w w2 rfl
  case h_15 hw =>
    simp only [hw]
    exact .lwsw (f := fun q => (q.1, 2, .fall 1)) ⟨fun _ => rfl, fun _ => rfl, fun _ _ => rfl⟩
  case h_16 hw =>
    simp only [hw]
    exact .loadTwice (f := fun q => (put (put q.1 (TC_A w) (q.2 &&& ~~~1#32)) 1#5 (p <<< 2 + 4#32),
      3, .indirect (q.2 &&& ~~~1#32))) ⟨fun _ => rfl, fun _ => rfl, fun _ _ => rfl⟩
  case h_17 =>
    split
    case h_42 | h_43 =>
      unfold Run.wr State.wr
      refine .plain rfl ?_ ?_
      · split <;> rfl
      · split <;> rfl
    case h_58 hw => exact .memop hw
    case h_59 => exact .trap
    all_goals
      first
        | contradiction
        | exact .plain rfl rfl rfl

end

/-! ## The callback -/

/-- The accesses that the callback has been called for. -/
def callbacks (log : List (Call H)) : List (MemOp × Word) :=
  log.filterMap fun
    | .mem op addr _ _ => some (op, addr)
    | .trap _ _ => none

/-- The accesses that touch no host byte. -/
def missed (ts : List (Touch H)) : List (MemOp × Word) :=
  ts.filterMap fun t => if t.host.isNone then some (t.op, t.addr) else none

/-- From `r` to `r'` the callback gets the accesses of `ts` that touch no host byte. -/
def Misses (r : Run H) (ts : List (Touch H)) (r' : Run H) : Prop :=
  callbacks r'.log = callbacks r.log ++ missed ts

theorem misses_none {r r' : Run H} (hlog : r'.log = r.log) : Misses r [] r' := by
  unfold Misses
  rw [hlog]
  exact (List.append_nil _).symm

theorem misses_trans {r r' r'' : Run H} {ts ts' : List (Touch H)} (h : Misses r ts r')
    (h' : Misses r' ts' r'') : Misses r (ts ++ ts') r'' := by
  unfold Misses at h h' ⊢
  rw [h', h, List.append_assoc]
  unfold missed
  rw [List.filterMap_append]

theorem misses_log {r r' r'' : Run H} {ts : List (Touch H)} (h : Misses r ts r')
    (hlog : r''.log = r'.log) : Misses r ts r'' := by
  have h' := misses_trans h (misses_none hlog)
  rwa [List.append_nil] at h'

section
variable {h : Hooks H} (hcb : h.callback.isSome)
include hcb

theorem callback_misses (r : Run H) (op : MemOp) (a v : Word) (n : Nat) :
    Misses r [⟨r.s, op, a, n, none⟩] (r.callback h op a v).1 := by
  obtain ⟨f, hf⟩ := Option.isSome_iff_exists.mp hcb
  unfold Misses callbacks Run.callback
  rw [hf]
  simp only
  rw [List.filterMap_append]
  rfl

theorem load_misses (r : Run H) (a : Word) (n : Nat) :
    Misses r [loadTouch r.s a n] (load h r a n).1 := by
  unfold loadTouch load
  cases memR r.s a (BitVec.ofNat 32 n) with
  | some q => exact misses_none rfl
  | none => exact callback_misses hcb r .load a 0#32 n

theorem store_misses (r : Run H) (a v : Word) (n : Nat) :
    Misses r [storeTouch r.s a n] (store h r a v n) := by
  unfold storeTouch store
  cases memW r.s a (BitVec.ofNat 32 n) with
  | some q => exact misses_none rfl
  | none => exact callback_misses hcb r .store a v n

theorem slowSaves_misses (r : Run H) (addr : Word) (regs : List Reg) :
    Misses r (slowSaves h r addr regs) (prologueSlow h r addr regs) := by
  induction regs generalizing r addr with
  | nil => exact misses_none rfl
  | cons i regs ih => exact misses_trans (store_misses hcb r _ _ 4) (ih _ _)

theorem slowRests_misses (r : Run H) (addr : Word) (regs : List Reg) :
    Misses r (slowRests h r addr regs) (epilogueSlow h r addr regs) := by
  induction regs generalizing r addr with
  | nil => exact misses_none rfl
  | cons i regs ih => exact misses_trans (misses_log (load_misses hcb r _ 4) rfl) (ih _ _)

theorem loadTwice_misses (r : Run H) (w : Word) :
    Misses r (loadTwiceTouches h r w) (loadTwice h r w).1 :=
  misses_trans (load_misses hcb r _ 4) (load_misses hcb _ _ 4)

theorem hLwsw_misses (r : Run H) (w : Word) : Misses r (lwswTouches h r w) (hLwsw h r w) :=
  misses_trans (misses_log (load_misses hcb r _ 4) rfl) (store_misses hcb _ _ _ 4)

end

theorem frameTouches_hit (s : State H) (op : MemOp) (b : Buf) (q : Int) (addr : Word)
    (regs : List Reg) : missed (frameTouches s op b q addr regs) = [] := by
  induction regs generalizing q addr with
  | nil => rfl
  | cons i regs ih => exact ih _ _

theorem saveFast_log (r : Run H) (b : Buf) (q : Nat) (regs : List Reg) :
    (saveFast r b q regs).log = r.log := by
  induction regs generalizing r q with
  | nil => rfl
  | cons i regs ih => exact ih _ _

theorem restFast_log (r : Run H) (b : Buf) (q : Nat) (regs : List Reg) :
    (restFast r b q regs).log = r.log := by
  induction regs generalizing r q with
  | nil => rfl
  | cons i regs ih => exact ih _ _

theorem fast_misses {r r' : Run H} {s : State H} {op : MemOp} {b : Buf} {q : Int} {addr : Word}
    {regs : List Reg} (hlog : r'.log = r.log) : Misses r (frameTouches s op b q addr regs) r' := by
  unfold Misses
  rw [frameTouches_hit, List.append_nil, hlog]

section
variable {h : Hooks H} (hcb : h.callback.isSome) (r : Run H) (p w w2 : Word)
include hcb

theorem prologue_misses :
    Misses r (frameAccesses h r .store (r.s.x 2#5) (maskRegs (w >>> 13))) (prologue h r w).1 := by
  unfold frameAccesses prologue
  simp only
  cases frameTop r.s (r.s.x 2#5) with
  | some q => exact fast_misses (saveFast_log r q.1 q.2 _)
  | none => exact misses_log (slowSaves_misses hcb r _ _) rfl

theorem epilogue_misses :
    Misses r (frameAccesses h r .load (r.s.x 2#5 + (w &&& 0x1fff#32)) (maskRegs (w >>> 13)))
      (epilogue h r w).1 := by
  unfold frameAccesses epilogue
  simp only
  cases frameTop r.s (r.s.x 2#5 + (w &&& 0x1fff#32)) with
  | some q => exact fast_misses (restFast_log r q.1 q.2 _)
  | none => exact misses_log (slowRests_misses hcb r _ _) rfl

omit hcb in
theorem hTrap_callbacks : Misses r [] (hTrap h r p w).1 := by
  unfold Misses hTrap Run.trap
  simp only
  split
  · exact (List.append_nil _).symm
  · unfold callbacks
    rw [List.filterMap_append]
    rfl

theorem Handler.misses {m : Buf → Nat → Byte} {ts : List (Touch H)} {o o' : Run H × Nat × Goto}
    (hh : Handler h r m p w ts o o') (hop : TC_OP w ≠ RISCV_OP_MEMOP) : Misses r ts o.1 := by
  cases hh with
  | load a hn hf => exact misses_log (load_misses hcb r a _) (hf.log _)
  | store a v hn hf => exact misses_log (store_misses hcb r a v _) (hf.log _)
  | loadTwice hf => exact misses_log (loadTwice_misses hcb r w) (hf.log _)
  | lwsw hf => exact misses_log (hLwsw_misses hcb r w) (hf.log _)
  | prologue hf => exact misses_log (prologue_misses hcb r w) (hf.log _)
  | epilogue hf => exact misses_log (epilogue_misses hcb r w) (hf.log _)
  | plain hlog hmem hover => exact misses_none hlog
  | memop hw => exact absurd hw hop
  | trap => exact hTrap_callbacks r p w

/-- **Anything else goes to the callback**: the accesses that touch no host byte, and no others. -/
theorem dispatch_misses (hop : TC_OP w ≠ RISCV_OP_MEMOP) :
    Misses r (touches h r w) (dispatch h r p w w2).1 :=
  (dispatch_handler h r r.s.mem p w w2).misses hcb r p w hop

end

/-! ## Single accesses -/

theorem loadTouch_inside (s : State H) (a : Word) {n : Nat} (hn : n < 2 ^ 32) :
    (loadTouch s a n).Inside := by
  have hsize : (BitVec.ofNat 32 n).toNat = n := by
    rw [BitVec.toNat_ofNat, Nat.mod_eq_of_lt hn]
  intro b o heq
  obtain ⟨q, hq, hqb⟩ := Option.map_eq_some_iff.mp heq
  cases hqb
  refine ⟨Int.natCast_nonneg _, ?_⟩
  unfold memR memW at hq
  change q.1 = s.writable.ptr ∧ (q.2 : Int) + n ≤ s.writable.len.toNat ∨
    MemOp.load = .load ∧ q.1 = s.readonly.ptr ∧ (q.2 : Int) + n ≤ s.readonly.len.toNat
  cases hw : s.writable.hit a (BitVec.ofNat 32 n) with
  | some rel =>
    rw [hw] at hq
    cases hq
    obtain ⟨-, -, hle⟩ := Region.hit_some hw
    exact .inl ⟨rfl, by simp only; omega⟩
  | none =>
    rw [hw] at hq
    obtain ⟨rel, hr, hqr⟩ := Option.map_eq_some_iff.mp hq
    cases hqr
    obtain ⟨-, -, hle⟩ := Region.hit_some hr
    exact .inr ⟨rfl, rfl, by simp only; omega⟩

theorem storeTouch_inside (s : State H) (a : Word) {n : Nat} (hn : n < 2 ^ 32) :
    (storeTouch s a n).Inside := by
  have hsize : (BitVec.ofNat 32 n).toNat = n := by
    rw [BitVec.toNat_ofNat, Nat.mod_eq_of_lt hn]
  intro b o heq
  obtain ⟨q, hq, hqb⟩ := Option.map_eq_some_iff.mp heq
  cases hqb
  obtain ⟨rel, hw, hqw⟩ := Option.map_eq_some_iff.mp hq
  cases hqw
  obtain ⟨-, -, hle⟩ := Region.hit_some hw
  refine ⟨Int.natCast_nonneg _, .inl ⟨rfl, ?_⟩⟩
  show (rel : Int) + n ≤ s.writable.len.toNat
  omega

theorem slowSaves_inside (h : Hooks H) (r : Run H) (addr : Word) (regs : List Reg) :
    ∀ t ∈ slowSaves h r addr regs, t.Inside := by
  induction regs generalizing r addr with
  | nil => exact fun t ht => nomatch ht
  | cons i regs ih =>
    intro t ht
    rcases List.mem_cons.mp ht with rfl | ht
    · exact storeTouch_inside _ _ (by decide)
    · exact ih _ _ t ht

theorem slowRests_inside (h : Hooks H) (r : Run H) (addr : Word) (regs : List Reg) :
    ∀ t ∈ slowRests h r addr regs, t.Inside := by
  induction regs generalizing r addr with
  | nil => exact fun t ht => nomatch ht
  | cons i regs ih =>
    intro t ht
    rcases List.mem_cons.mp ht with rfl | ht
    · exact loadTouch_inside _ _ (by decide)
    · exact ih _ _ t ht

theorem CType.size_lt (T : CType) : T.size < 2 ^ 32 := by
  cases T <;> decide

/-! ## Frames -/

/-- How much of the writable buffer an access may touch. -/
def room (s : State H) : MemOp → Nat
  | .store => s.writable.len.toNat
  | .load =>
    if s.readonly.ptr = s.writable.ptr then max s.writable.len.toNat s.readonly.len.toNat
    else s.writable.len.toNat

theorem touch_inside_iff {s : State H} {op : MemOp} {addr : Word} {n : Nat} {o : Int} :
    (Touch.mk s op addr n (some (s.writable.ptr, o))).Inside ↔ 0 ≤ o ∧ o + n ≤ room s op := by
  constructor
  · intro hin
    obtain ⟨ho, hin⟩ := hin _ _ rfl
    refine ⟨ho, ?_⟩
    simp only at hin
    unfold room
    rcases hin with ⟨-, hle⟩ | ⟨rfl, hptr, hle⟩
    · cases op with
      | store => exact hle
      | load =>
        simp only
        split <;> omega
    · simp only
      rw [if_pos hptr.symm]
      omega
  · rintro ⟨ho, hle⟩ b o' heq
    cases heq
    refine ⟨ho, ?_⟩
    simp only
    unfold room at hle
    cases op with
    | store => exact .inl ⟨trivial, hle⟩
    | load =>
      simp only at hle
      split at hle
      · rename_i hptr
        by_cases hw : o + n ≤ s.writable.len.toNat
        · exact .inl ⟨trivial, hw⟩
        · exact .inr ⟨rfl, hptr.symm, by omega⟩
      · exact .inl ⟨trivial, hle⟩

/-- A run of accesses down from `q` stays inside when its ends do. -/
theorem frameTouches_inside {s : State H} {op : MemOp} (q : Int) (addr : Word) (regs : List Reg) :
    (∀ t ∈ frameTouches s op s.writable.ptr q addr regs, t.Inside) ↔
      regs = [] ∨ 4 * regs.length ≤ q ∧ q ≤ room s op := by
  induction regs generalizing q addr with
  | nil => exact ⟨fun _ => .inl rfl, fun _ t ht => nomatch ht⟩
  | cons i regs ih =>
    unfold frameTouches
    rw [List.forall_mem_cons, touch_inside_iff, ih]
    constructor
    · rintro ⟨⟨h0, hq⟩, hrest⟩
      refine .inr ⟨?_, by omega⟩
      rw [List.length_cons]
      rcases hrest with rfl | ⟨hle, -⟩
      · simp only [List.length_nil]
        omega
      · omega
    · rintro (hnil | ⟨hle, hq⟩)
      · cases hnil
      · rw [List.length_cons] at hle
        exact ⟨⟨by omega, by omega⟩, .inr ⟨by omega, by omega⟩⟩

/-- The test of `frame_top`: with less than `FRAME_SAVE_SPAN` bytes both sides of it wrap. -/
theorem frameTop_iff {s : State H} {top : Word} {q : Ptr} :
    frameTop s top = some q ↔ q = (s.writable.ptr, (top - s.writable.base).toNat) ∧
      if s.writable.len.toNat < 52 then
        ¬ (s.writable.len.toNat < (top - s.writable.base).toNat ∧
          (top - s.writable.base).toNat < 52)
      else 52 ≤ (top - s.writable.base).toNat ∧
        (top - s.writable.base).toNat ≤ s.writable.len.toNat := by
  have htest : top - s.writable.base - FRAME_SAVE_SPAN ≤ s.writable.len - FRAME_SAVE_SPAN ↔
      if s.writable.len.toNat < 52 then
        ¬ (s.writable.len.toNat < (top - s.writable.base).toNat ∧
          (top - s.writable.base).toNat < 52)
      else 52 ≤ (top - s.writable.base).toNat ∧
        (top - s.writable.base).toNat ≤ s.writable.len.toNat := by
    have hspan : FRAME_SAVE_SPAN.toNat = 52 := rfl
    rw [BitVec.le_def, BitVec.toNat_sub _ FRAME_SAVE_SPAN, BitVec.toNat_sub _ FRAME_SAVE_SPAN,
      hspan]
    have hrel := (top - s.writable.base).isLt
    have hlen := s.writable.len.isLt
    split
    · omega
    · omega
  unfold frameTop
  simp only
  constructor
  · intro heq
    split at heq
    · rename_i hle
      cases heq
      exact ⟨rfl, htest.mp hle⟩
    · cases heq
  · rintro ⟨rfl, hc⟩
    exact if_pos (htest.mpr hc)

/-- A frame of `n` registers below `top` that leaves the writable region: the region is shorter than
`FRAME_SAVE_SPAN`, the test of `frame_top` passes, and the registers do not fit. -/
def FrameOverruns (s : State H) (op : MemOp) (top : Word) (n : Nat) : Prop :=
  s.writable.len.toNat < 52 ∧ n ≠ 0 ∧
    ¬ (s.writable.len.toNat < (top - s.writable.base).toNat ∧
      (top - s.writable.base).toNat < 52) ∧
    ¬ (4 * n ≤ (top - s.writable.base).toNat ∧ (top - s.writable.base).toNat ≤ room s op)

theorem room_ge (s : State H) (op : MemOp) : s.writable.len.toNat ≤ room s op := by
  unfold room
  cases op with
  | store => exact le_refl _
  | load =>
    simp only
    split <;> omega

theorem frameAccesses_inside (h : Hooks H) (r : Run H) (op : MemOp) (top : Word)
    {regs : List Reg} (hregs : regs.length ≤ 13) :
    (∀ t ∈ frameAccesses h r op top regs, t.Inside) ↔
      ¬ FrameOverruns r.s op top regs.length := by
  unfold frameAccesses FrameOverruns
  cases hq : frameTop r.s top with
  | none =>
    refine ⟨fun _ hover => ?_, fun _ => ?_⟩
    · rw [frameTop_iff.mpr ⟨rfl, by rw [if_pos hover.1]; exact hover.2.2.1⟩] at hq
      cases hq
    · cases op with
      | store => exact slowSaves_inside h r top regs
      | load => exact slowRests_inside h r top regs
  | some q =>
    obtain ⟨rfl, hc⟩ := frameTop_iff.mp hq
    simp only
    rw [frameTouches_inside]
    have hroom := room_ge r.s op
    have hnil : regs = [] ↔ regs.length = 0 := List.length_eq_zero_iff.symm
    rw [hnil]
    split at hc
    · omega
    · omega

/-! ## The ops -/

/-- The op is a prologue or an epilogue whose frame leaves the writable region. -/
def Overruns (s : State H) (w : Word) : Prop :=
  (TC_OP w = RISCV_OP_PROLOGUE ∧
    FrameOverruns s .store (s.x 2#5) (maskRegs (w >>> 13)).length) ∨
  (TC_OP w = RISCV_OP_EPILOGUE ∧
    FrameOverruns s .load (s.x 2#5 + (w &&& 0x1fff#32)) (maskRegs (w >>> 13)).length)

theorem not_overruns {s : State H} {w : Word} (hp : TC_OP w ≠ RISCV_OP_PROLOGUE)
    (he : TC_OP w ≠ RISCV_OP_EPILOGUE) : ¬ Overruns s w := by
  rintro (⟨hw, -⟩ | ⟨hw, -⟩)
  · exact hp hw
  · exact he hw

theorem overruns_prologue {s : State H} {w : Word} (hw : TC_OP w = RISCV_OP_PROLOGUE) :
    Overruns s w ↔ FrameOverruns s .store (s.x 2#5) (maskRegs (w >>> 13)).length := by
  refine ⟨fun ho => ?_, fun ho => .inl ⟨hw, ho⟩⟩
  rcases ho with ⟨-, ho⟩ | ⟨he, -⟩
  · exact ho
  · rw [hw] at he
    cases he

theorem overruns_epilogue {s : State H} {w : Word} (hw : TC_OP w = RISCV_OP_EPILOGUE) :
    Overruns s w ↔ FrameOverruns s .load (s.x 2#5 + (w &&& 0x1fff#32))
      (maskRegs (w >>> 13)).length := by
  refine ⟨fun ho => ?_, fun ho => .inr ⟨hw, ho⟩⟩
  rcases ho with ⟨hp, -⟩ | ⟨-, ho⟩
  · rw [hw] at hp
    cases hp
  · exact ho

theorem hLoadTouches_inside (r : Run H) (w : Word) (T : CType) :
    ∀ t ∈ hLoadTouches r w T, t.Inside := by
  unfold hLoadTouches
  split
  · exact List.forall_mem_singleton.mpr (loadTouch_inside _ _ T.size_lt)
  · exact fun t ht => nomatch ht

/-- An access of an op stays inside the regions, unless the op overruns. -/
theorem touches_inside (h : Hooks H) (r : Run H) (w : Word) :
    (∀ t ∈ touches h r w, t.Inside) ↔ ¬ Overruns r.s w := by
  have hother : ∀ {ts : List (Touch H)}, (∀ t ∈ ts, t.Inside) → TC_OP w ≠ RISCV_OP_PROLOGUE →
      TC_OP w ≠ RISCV_OP_EPILOGUE → ((∀ t ∈ ts, t.Inside) ↔ ¬ Overruns r.s w) :=
    fun hts hp he => ⟨fun _ => not_overruns hp he, fun _ => hts⟩
  have hload : ∀ a {n : Nat}, n < 2 ^ 32 → ∀ t ∈ [loadTouch r.s a n], t.Inside := fun a _ hn =>
    List.forall_mem_singleton.mpr (loadTouch_inside r.s a hn)
  have hstore : ∀ a {n : Nat}, n < 2 ^ 32 → ∀ t ∈ [storeTouch r.s a n], t.Inside := fun a _ hn =>
    List.forall_mem_singleton.mpr (storeTouch_inside r.s a hn)
  have htwo : ∀ {t t' : Touch H}, t.Inside → t'.Inside → ∀ u ∈ [t, t'], u.Inside :=
    fun ht ht' => List.forall_mem_cons.mpr ⟨ht, List.forall_mem_singleton.mpr ht'⟩
  have h4 : 4 < 2 ^ 32 := by decide
  have hregs : (maskRegs (w >>> 13)).length ≤ 13 := maskRegs_length _
  unfold touches
  simp only
  split
  case h_9 hw => rw [overruns_prologue hw, frameAccesses_inside h r .store _ hregs]
  case h_10 hw => rw [overruns_epilogue hw, frameAccesses_inside h r .load _ hregs]
  case h_17 hp he _ _ _ _ _ _ =>
    exact hother (fun t ht => nomatch ht) hp he
  all_goals
    rename_i hw
    refine hother ?_ (by rw [hw]; decide) (by rw [hw]; decide)
  case h_1 | h_2 | h_3 | h_4 | h_5 => exact hLoadTouches_inside r w _
  case h_6 | h_7 | h_8 => exact hstore _ (by decide)
  case h_11 | h_13 | h_14 => exact hload _ (by decide)
  case h_12 | h_16 => exact htwo (loadTouch_inside _ _ h4) (loadTouch_inside _ _ h4)
  case h_15 => exact htwo (loadTouch_inside _ _ h4) (storeTouch_inside _ _ h4)

/-- **The handlers stay inside the regions**, and what is not there goes to the callback, unless a
prologue or an epilogue overruns a writable region of less than 52 bytes. -/
theorem dispatch_inside {h : Hooks H} (hcb : h.callback.isSome) (r : Run H) (p w w2 : Word)
    (hop : TC_OP w ≠ RISCV_OP_MEMOP) :
    ((∀ t ∈ touches h r w, t.Inside) ∧ Misses r (touches h r w) (dispatch h r p w w2).1) ↔
      ¬ Overruns r.s w := by
  rw [touches_inside]
  exact and_iff_left (dispatch_misses hcb r p w w2 hop)

/-- A callback that answers 0. -/
def zeroCallback : Hooks Unit := ⟨none, none, none, some fun s _ _ _ => (s, 0#32)⟩

/-- A state with no memory at all, and the stack pointer at `RISCV_HALF`. -/
def unmapped : Run Unit where
  s :=
    { pc := 0#32, inst := 0#32, x := fun i => if i = 2#5 then RISCV_HALF else 0#32
      readonly := ⟨0, 0#32, 0#32⟩, writable := ⟨0, 0#32, RISCV_HALF⟩, mem := fun _ _ => 0#8
      host := () }
  log := []

/-- A use of `dispatch_inside`: `sw x0, 0(x2)` goes to the callback. -/
theorem dispatch_inside_unmapped :
    let w := BitVec.ofNat 32 (RISCV_OP_SW <<< 26 + 2 <<< 16)
    (∀ t ∈ touches zeroCallback unmapped w, t.Inside) ∧
      Misses unmapped (touches zeroCallback unmapped w)
        (dispatch zeroCallback unmapped 0#32 w 0#32).1 :=
  (dispatch_inside rfl unmapped 0#32 _ 0#32 (by decide)).mpr
    (not_overruns (by decide) (by decide))

/-- A prologue that saves `ra` with no memory stores four bytes before the null pointer. -/
theorem prologue_overruns :
    ¬ ∀ t ∈ touches zeroCallback unmapped (BitVec.ofNat 32 (RISCV_OP_PROLOGUE <<< 26 + 1 <<< 13 + 16)),
      t.Inside := by
  intro hin
  obtain ⟨hneg, -⟩ := hin ⟨unmapped.s, .store, RISCV_HALF - 4#32, 4, some (0, -4)⟩
    List.mem_cons_self 0 (-4) rfl
  exact absurd hneg (by decide)

end Purv.Purva

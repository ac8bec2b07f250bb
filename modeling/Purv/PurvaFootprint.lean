import Purv.PurvaBounds

/-!
# The bytes that the evaluator touches are those of its accesses

The accesses of `touches` against the handlers that make them.

* `Frames`, `dispatch_frames` — a handler changes no byte but those of its stores;
* `Serves`, `dispatch_over` — and reads no byte but those of its loads: over other buffers that have
  these, it does the same.
-/

namespace Purv.Purva

open Bits Transcode

variable {H : Type}

/-! ## Stores -/

/-- The byte `o` of the buffer `b` is one of the access's. -/
def Touch.Covers (t : Touch H) (b : Buf) (o : Nat) : Prop :=
  ∃ q, t.host = some (b, q) ∧ q ≤ o ∧ (o : Int) < q + t.n

/-- From `mem` to `mem'` no byte changes but those of the stores of `ts`. -/
def Frames (ts : List (Touch H)) (mem mem' : Buf → Nat → Byte) : Prop :=
  ∀ b o, (∀ t ∈ ts, t.op = .store → ¬ t.Covers b o) → mem' b o = mem b o

/-- The host's functions leave the buffers alone. -/
structure Aloof (h : Hooks H) : Prop where
  callback : ∀ (r : Run H) op a v, (r.callback h op a v).1.s.mem = r.s.mem
  trap : ∀ (r : Run H) t, (r.trap h t).1.s.mem = r.s.mem

theorem frames_same {ts : List (Touch H)} {mem mem' : Buf → Nat → Byte} (h : mem' = mem) :
    Frames ts mem mem' := fun b o _ => congrFun (congrFun h b) o

theorem frames_trans {ts ts' : List (Touch H)} {mem mem' mem'' : Buf → Nat → Byte}
    (h : Frames ts mem mem') (h' : Frames ts' mem' mem'') : Frames (ts ++ ts') mem mem'' :=
  fun b o hout => (h' b o fun t ht => hout t (List.mem_append_right _ ht)).trans
    (h b o fun t ht => hout t (List.mem_append_left _ ht))

/-- `st_le` writes the `n` bytes at `q`. -/
theorem stLe_frame (s : State H) (q : Ptr) {n : Nat} (v : Word) (hn : n = 1 ∨ n = 2 ∨ n = 4)
    {b : Buf} {o : Nat} (hout : ¬ (b = q.1 ∧ q.2 ≤ o ∧ o < q.2 + n)) :
    (stLe s q n v).mem b o = s.mem b o := by
  have hne : ∀ i < n, ¬ (b = q.1 ∧ o = q.2 + i) :=
    fun i hi ⟨hb, ho⟩ => hout ⟨hb, by omega, by omega⟩
  rcases hn with rfl | rfl | rfl
  · exact if_neg (hne 0 (by decide))
  · exact (if_neg (hne 1 (by decide))).trans (if_neg (hne 0 (by decide)))
  · rw [stLe_four]
    exact if_neg hout

theorem stLe_frames (s : State H) (b : Buf) (q : Nat) {n : Nat} (v : Word) {t : Touch H}
    (hop : t.op = .store) (hhost : t.host = some (b, (q : Int))) (hsize : t.n = n)
    (hn : n = 1 ∨ n = 2 ∨ n = 4) : Frames [t] s.mem (stLe s (b, q) n v).mem := by
  intro b' o hout
  refine stLe_frame s (b, q) v hn fun ⟨hb, hle, hlt⟩ => ?_
  refine hout t List.mem_cons_self hop ⟨q, by rw [hb]; exact hhost, by omega, ?_⟩
  simp only at hlt
  omega

section
variable {h : Hooks H} (ha : Aloof h)
include ha

theorem load_mem (r : Run H) (a : Word) (n : Nat) : (load h r a n).1.s.mem = r.s.mem := by
  unfold load
  split
  · rfl
  · exact ha.callback r .load a 0#32

theorem store_frames (r : Run H) (a v : Word) {n : Nat} (hn : n = 1 ∨ n = 2 ∨ n = 4) :
    Frames [storeTouch r.s a n] r.s.mem (store h r a v n).s.mem := by
  unfold storeTouch store
  cases memW r.s a (BitVec.ofNat 32 n) with
  | some q => exact stLe_frames r.s q.1 q.2 v rfl rfl rfl hn
  | none => exact frames_same (ha.callback r .store a v)

theorem slowSaves_frames (r : Run H) (addr : Word) (regs : List Reg) :
    Frames (slowSaves h r addr regs) r.s.mem (prologueSlow h r addr regs).s.mem := by
  induction regs generalizing r addr with
  | nil => exact frames_same rfl
  | cons i regs ih => exact frames_trans (store_frames ha r _ _ (.inr (.inr rfl))) (ih _ _)

theorem slowRests_mem (r : Run H) (addr : Word) (regs : List Reg) :
    (epilogueSlow h r addr regs).s.mem = r.s.mem := by
  induction regs generalizing r addr with
  | nil => rfl
  | cons i regs ih => exact (ih _ _).trans (load_mem ha r _ 4)

theorem loadTwice_mem (r : Run H) (w : Word) : (loadTwice h r w).1.s.mem = r.s.mem :=
  (load_mem ha _ _ 4).trans (load_mem ha r _ 4)

theorem hLwsw_frames (r : Run H) (w : Word) :
    Frames (lwswTouches h r w) r.s.mem (hLwsw h r w).s.mem :=
  @frames_trans _ [_] _ _ _ _ (frames_same (load_mem ha r _ 4))
    (store_frames ha (put (load h r (r.s.x (TC_B w) + TC_W1 w) 4).1 (TC_A w) _) _ _
      (.inr (.inr rfl)))

end

theorem restFast_mem (r : Run H) (b : Buf) (q : Nat) (regs : List Reg) :
    (restFast r b q regs).s.mem = r.s.mem := by
  induction regs generalizing r q with
  | nil => rfl
  | cons i regs ih => exact ih _ _

theorem saveFast_frames (s : State H) (r : Run H) (b : Buf) (q : Nat) (addr : Word)
    (regs : List Reg) (hq : 4 * regs.length ≤ q) :
    Frames (frameTouches s .store b q addr regs) r.s.mem (saveFast r b q regs).s.mem := by
  induction regs generalizing r q addr with
  | nil => exact frames_same rfl
  | cons i regs ih =>
    rw [List.length_cons] at hq
    unfold frameTouches saveFast
    rw [show (q : Int) - 4 = ((q - 4 : Nat) : Int) by omega]
    exact frames_trans (stLe_frames r.s b (q - 4) (r.s.x i) rfl rfl rfl (.inr (.inr rfl)))
      (ih _ _ _ (by omega))

section
variable {h : Hooks H} (ha : Aloof h) (r : Run H) (p w w2 : Word)
include ha

theorem prologue_frames
    (hin : ∀ t ∈ frameAccesses h r .store (r.s.x 2#5) (maskRegs (w >>> 13)), t.Inside) :
    Frames (frameAccesses h r .store (r.s.x 2#5) (maskRegs (w >>> 13))) r.s.mem
      (prologue h r w).1.s.mem := by
  unfold frameAccesses at hin ⊢
  unfold prologue
  simp only at hin ⊢
  cases hq : frameTop r.s (r.s.x 2#5) with
  | some q =>
    rw [hq] at hin
    obtain ⟨rfl, -⟩ := frameTop_iff.mp hq
    refine saveFast_frames r.s r _ _ _ _ ?_
    rcases (frameTouches_inside _ _ _).mp hin with hnil | hle
    · rw [hnil]
      exact Nat.zero_le _
    · have := hle.1
      simp only at this ⊢
      omega
  | none => exact slowSaves_frames ha r _ _

theorem epilogue_mem : (epilogue h r w).1.s.mem = r.s.mem := by
  unfold epilogue
  simp only
  split
  · exact restFast_mem _ _ _ _
  · exact slowRests_mem ha _ _ _

theorem Handler.frames {m : Buf → Nat → Byte} {ts : List (Touch H)} {o o' : Run H × Nat × Goto}
    (hh : Handler h r m p w ts o o') (hop : TC_OP w ≠ RISCV_OP_MEMOP)
    (hin : ∀ t ∈ ts, t.Inside) : Frames ts r.s.mem o.1.s.mem := by
  cases hh with
  | load a hn hf => exact frames_same ((hf.mem _).trans (load_mem ha r a _))
  | store a v hn hf =>
    rw [hf.mem]
    exact store_frames ha r a v hn
  | loadTwice hf => exact frames_same ((hf.mem _).trans (loadTwice_mem ha r w))
  | lwsw hf =>
    rw [hf.mem]
    exact hLwsw_frames ha r w
  | prologue hf =>
    rw [hf.mem]
    exact prologue_frames ha r w hin
  | epilogue hf => exact frames_same ((hf.mem _).trans (epilogue_mem ha r w))
  | plain hlog hmem hover => exact frames_same hmem
  | memop hw => exact absurd hw hop
  | trap => exact frames_same (ha.trap _ _)

/-- **A handler changes no byte but those of its stores.** -/
theorem dispatch_frames (hop : TC_OP w ≠ RISCV_OP_MEMOP) (hover : ¬ Overruns r.s w) :
    Frames (touches h r w) r.s.mem (dispatch h r p w w2).1.s.mem :=
  (dispatch_handler h r r.s.mem p w w2).frames ha r p w hop ((touches_inside h r w).mpr hover)

end

/-! ## Loads -/

/-- Every access of `ts` has its host bytes, and where it loads, `m` has there what `mem` has. -/
def Serves (ts : List (Touch H)) (mem m : Buf → Nat → Byte) : Prop :=
  ∀ t ∈ ts, t.host.isSome ∧ (t.op = .load → ∀ b o, t.Covers b o → m b o = mem b o)

section
variable {h : Hooks H} {m : Buf → Nat → Byte}

/-- `ld_le` reads the `n` bytes at `q`. -/
theorem ldLe_over (s : State H) (q : Ptr) {n : Nat} (hn : n = 1 ∨ n = 2 ∨ n = 4)
    (hm : ∀ i < n, m q.1 (q.2 + i) = s.mem q.1 (q.2 + i)) :
    ldLe { s with mem := m } q n = ldLe s q n := by
  unfold ldLe State.byte
  rcases hn with rfl | rfl | rfl
  · simp only [gt_iff_lt, Nat.lt_irrefl, Nat.reduceLT, if_false, hm 0 (by decide)]
  · simp only [gt_iff_lt, Nat.lt_irrefl, Nat.reduceLT, if_true, if_false, hm 0 (by decide),
      hm 1 (by decide)]
  · simp only [gt_iff_lt, Nat.reduceLT, if_true, hm 0 (by decide), hm 1 (by decide),
      hm 2 (by decide), hm 3 (by decide)]

theorem load_over (r : Run H) (a : Word) {n : Nat} (hn : n = 1 ∨ n = 2 ∨ n = 4)
    (hs : Serves [loadTouch r.s a n] r.s.mem m) :
    (load h r a n).1 = r ∧
      load h (Run.over r m) a n = (Run.over (load h r a n).1 m, (load h r a n).2) := by
  obtain ⟨hhost, hm⟩ := hs _ List.mem_cons_self
  have hplace : memR (Run.over r m).s a (BitVec.ofNat 32 n) = memR r.s a (BitVec.ofNat 32 n) := rfl
  unfold loadTouch Touch.Covers at hm
  unfold loadTouch at hhost
  unfold load
  rw [hplace]
  cases hq : memR r.s a (BitVec.ofNat 32 n) with
  | some q =>
    rw [hq] at hm
    refine ⟨rfl, congrArg (Prod.mk _) (ldLe_over r.s q hn fun i hi => ?_)⟩
    exact hm rfl _ _ ⟨q.2, rfl, by omega, by simp only; omega⟩
  | none =>
    rw [hq] at hhost
    cases hhost

theorem stLe_over (s : State H) (q : Ptr) (n : Nat) (v : Word) :
    ∃ m', stLe { s with mem := m } q n v = { stLe s q n v with mem := m' } := by
  refine ⟨(stLe { s with mem := m } q n v).mem, ?_⟩
  unfold stLe
  simp only
  split <;> split <;> rfl

theorem store_over (r : Run H) (a v : Word) (n : Nat)
    (hs : Serves [storeTouch r.s a n] r.s.mem m) :
    ∃ m', store h (Run.over r m) a v n = Run.over (store h r a v n) m' := by
  obtain ⟨hhost, -⟩ := hs _ List.mem_cons_self
  have hplace : memW (Run.over r m).s a (BitVec.ofNat 32 n) = memW r.s a (BitVec.ofNat 32 n) := rfl
  unfold storeTouch at hhost
  unfold store
  rw [hplace]
  cases hq : memW r.s a (BitVec.ofNat 32 n) with
  | some q =>
    obtain ⟨m', hm'⟩ := @stLe_over _ m r.s q n v
    exact ⟨m', congrArg (fun s => (⟨s, r.log⟩ : Run H)) hm'⟩
  | none =>
    rw [hq] at hhost
    cases hhost

theorem serves_cons {t : Touch H} {ts : List (Touch H)} {mem : Buf → Nat → Byte}
    (hs : Serves (t :: ts) mem m) : Serves [t] mem m ∧ Serves ts mem m :=
  ⟨fun u hu => hs u (List.mem_singleton.mp hu ▸ List.mem_cons_self),
    fun u hu => hs u (List.mem_cons_of_mem t hu)⟩

theorem prologueSlow_over (r : Run H) (addr : Word) (regs : List Reg) (m : Buf → Nat → Byte)
    (hs : ∀ t ∈ slowSaves h r addr regs, t.host.isSome) :
    ∃ m', prologueSlow h (Run.over r m) addr regs = Run.over (prologueSlow h r addr regs) m' := by
  induction regs generalizing r addr m with
  | nil => exact ⟨m, rfl⟩
  | cons i regs ih =>
    have hone : Serves [storeTouch r.s (addr - 4#32) 4] r.s.mem m := fun t ht => by
      rw [List.mem_singleton] at ht
      subst ht
      exact ⟨hs _ List.mem_cons_self, fun hop => by cases hop⟩
    obtain ⟨m₁, h₁⟩ := @store_over _ h m r (addr - 4#32) (r.s.x i) 4 hone
    obtain ⟨m', h'⟩ := ih (store h r (addr - 4#32) (r.s.x i) 4) (addr - 4#32) m₁
      fun t ht => hs t (List.mem_cons_of_mem _ ht)
    refine ⟨m', ?_⟩
    unfold prologueSlow
    rw [show (Run.over r m).s.x i = r.s.x i from rfl, h₁, h']

theorem epilogueSlow_over (r : Run H) (addr : Word) (regs : List Reg)
    (hs : Serves (slowRests h r addr regs) r.s.mem m) :
    epilogueSlow h (Run.over r m) addr regs = Run.over (epilogueSlow h r addr regs) m := by
  induction regs generalizing r addr with
  | nil => rfl
  | cons i regs ih =>
    change Serves (_ :: slowRests h (put (load h r (addr - 4#32) 4).1 i
      (load h r (addr - 4#32) 4).2) (addr - 4#32) regs) r.s.mem m at hs
    obtain ⟨hone, hrest⟩ := serves_cons hs
    obtain ⟨hsame, hload⟩ := @load_over _ h m r (addr - 4#32) 4 (.inr (.inr rfl)) hone
    unfold epilogueSlow
    rw [hload]
    simp only
    rw [hsame] at hrest ⊢
    exact ih (put r i (load h r (addr - 4#32) 4).2) (addr - 4#32) hrest

theorem saveFast_over (r : Run H) (b : Buf) (q : Nat) (regs : List Reg) (m : Buf → Nat → Byte) :
    ∃ m', saveFast (Run.over r m) b q regs = Run.over (saveFast r b q regs) m' := by
  induction regs generalizing r q m with
  | nil => exact ⟨m, rfl⟩
  | cons i regs ih =>
    obtain ⟨m₁, h₁⟩ := @stLe_over _ m r.s (b, q - 4) 4 (r.s.x i)
    obtain ⟨m', h'⟩ := ih { r with s := stLe r.s (b, q - 4) 4 (r.s.x i) } (q - 4) m₁
    refine ⟨m', Eq.trans ?_ h'⟩
    exact congrArg (fun s => saveFast (⟨s, r.log⟩ : Run H) b (q - 4) regs) h₁

theorem restFast_over (s : State H) (r : Run H) (b : Buf) (q : Nat) (addr : Word)
    (regs : List Reg) (hq : 4 * regs.length ≤ q)
    (hs : Serves (frameTouches s .load b q addr regs) r.s.mem m) :
    restFast (Run.over r m) b q regs = Run.over (restFast r b q regs) m := by
  induction regs generalizing r q addr with
  | nil => rfl
  | cons i regs ih =>
    rw [List.length_cons] at hq
    unfold frameTouches at hs
    rw [show (q : Int) - 4 = ((q - 4 : Nat) : Int) by omega] at hs
    obtain ⟨hone, hrest⟩ := serves_cons hs
    have hm := (hone _ List.mem_cons_self).2 rfl
    have hld : ldLe (Run.over r m).s (b, q - 4) 4 = ldLe r.s (b, q - 4) 4 :=
      ldLe_over r.s (b, q - 4) (.inr (.inr rfl)) fun j hj =>
        hm _ _ ⟨_, rfl, by simp only; omega, by simp only; omega⟩
    unfold restFast
    rw [hld]
    exact ih (put r i (ldLe r.s (b, q - 4) 4)) (q - 4) (addr - 4#32) (by omega) hrest

end

section
variable {h : Hooks H} (r : Run H) (p w w2 : Word) {m : Buf → Nat → Byte}

theorem loadTwice_over (hs : Serves (loadTwiceTouches h r w) r.s.mem m) :
    loadTwice h (Run.over r m) w = (Run.over (loadTwice h r w).1 m, (loadTwice h r w).2) := by
  let first := load h r (r.s.x (TC_B w) + TC_O1 w) 4
  change Serves [_, loadTouch first.1.s (first.2 + TC_O2 w) 4] r.s.mem m at hs
  obtain ⟨hone, hrest⟩ := serves_cons hs
  obtain ⟨hsame, hload⟩ := @load_over _ h m r _ _ (.inr (.inr rfl)) hone
  rw [show first.1 = r from hsame] at hrest
  obtain ⟨hsame', hload'⟩ := @load_over _ h m r _ _ (.inr (.inr rfl)) hrest
  unfold loadTwice
  rw [show (Run.over r m).s.x (TC_B w) = r.s.x (TC_B w) from rfl, hload]
  simp only
  rw [hsame, hload', hsame']

theorem hLwsw_over (hs : Serves (lwswTouches h r w) r.s.mem m) :
    ∃ m', hLwsw h (Run.over r m) w = Run.over (hLwsw h r w) m' := by
  let first := load h r (r.s.x (TC_B w) + TC_W1 w) 4
  let r' := put first.1 (TC_A w) first.2
  change Serves [_, storeTouch r'.s (r'.s.x (TC_C w) + TC_W2 w) 4] r.s.mem m at hs
  obtain ⟨hone, hrest⟩ := serves_cons hs
  obtain ⟨hsame, hload⟩ := @load_over _ h m r _ _ (.inr (.inr rfl)) hone
  rw [show r' = put r (TC_A w) first.2 from congrArg (put · _ _) hsame] at hrest
  obtain ⟨m', h'⟩ := @store_over _ h m (put r (TC_A w) first.2) _ first.2 _ hrest
  refine ⟨m', ?_⟩
  unfold hLwsw
  rw [show (Run.over r m).s.x (TC_B w) = r.s.x (TC_B w) from rfl, hload]
  simp only
  rw [hsame]
  exact h'

theorem prologue_over
    (hs : Serves (frameAccesses h r .store (r.s.x 2#5) (maskRegs (w >>> 13))) r.s.mem m) :
    ∃ m', prologue h (Run.over r m) w = (Run.over (prologue h r w).1 m', (prologue h r w).2) := by
  unfold frameAccesses at hs
  unfold prologue
  simp only at hs ⊢
  rw [show frameTop (Run.over r m).s ((Run.over r m).s.x 2#5) = frameTop r.s (r.s.x 2#5) from rfl]
  cases hq : frameTop r.s (r.s.x 2#5) with
  | some q =>
    obtain ⟨m', h'⟩ := saveFast_over r q.1 q.2 (maskRegs (w >>> 13)) m
    refine ⟨m', ?_⟩
    simp only
    rw [h']
    rfl
  | none =>
    rw [hq] at hs
    obtain ⟨m', h'⟩ := prologueSlow_over r (r.s.x 2#5) (maskRegs (w >>> 13)) m
      fun t ht => (hs t ht).1
    refine ⟨m', ?_⟩
    simp only
    rw [show (Run.over r m).s.x 2#5 = r.s.x 2#5 from rfl, h']
    rfl

theorem epilogue_over
    (hin : ∀ t ∈ frameAccesses h r .load (r.s.x 2#5 + (w &&& 0x1fff#32)) (maskRegs (w >>> 13)),
      t.Inside)
    (hs : Serves (frameAccesses h r .load (r.s.x 2#5 + (w &&& 0x1fff#32)) (maskRegs (w >>> 13)))
      r.s.mem m) :
    epilogue h (Run.over r m) w = (Run.over (epilogue h r w).1 m, (epilogue h r w).2) := by
  unfold frameAccesses at hin hs
  unfold epilogue
  simp only at hin hs ⊢
  rw [show frameTop (Run.over r m).s ((Run.over r m).s.x 2#5 + (w &&& 0x1fff#32)) =
    frameTop r.s (r.s.x 2#5 + (w &&& 0x1fff#32)) from rfl]
  cases hq : frameTop r.s (r.s.x 2#5 + (w &&& 0x1fff#32)) with
  | some q =>
    rw [hq] at hin hs
    obtain ⟨rfl, -⟩ := frameTop_iff.mp hq
    have hfit : 4 * (maskRegs (w >>> 13)).length ≤
        (r.s.x 2#5 + (w &&& 0x1fff#32) - r.s.writable.base).toNat := by
      rcases (frameTouches_inside _ _ _).mp hin with hnil | hle
      · rw [hnil]
        exact Nat.zero_le _
      · have := hle.1
        simp only at this
        omega
    simp only at hs ⊢
    rw [restFast_over r.s r _ _ _ _ hfit hs]
    rfl
  | none =>
    rw [hq] at hs
    simp only at hs ⊢
    rw [show (Run.over r m).s.x 2#5 = r.s.x 2#5 from rfl, epilogueSlow_over r _ _ hs]
    rfl

theorem Handler.buffers {ts : List (Touch H)} {o o' : Run H × Nat × Goto}
    (hh : Handler h r m p w ts o o') (hop : TC_OP w ≠ RISCV_OP_MEMOP)
    (hgo : ∀ stop, o.2.2 ≠ .trap stop) (hin : ∀ t ∈ ts, t.Inside) (hs : Serves ts r.s.mem m) :
    ∃ m', o' = (Run.over o.1 m', o.2) := by
  cases hh with
  | load a hn hf =>
    refine ⟨m, ?_⟩
    rw [(load_over r a hn hs).2]
    exact hf.buffers _ m
  | store a v hn hf =>
    obtain ⟨m', h'⟩ := store_over r a v _ hs
    refine ⟨m', ?_⟩
    rw [h']
    exact hf.buffers (_, ()) m'
  | loadTwice hf =>
    refine ⟨m, ?_⟩
    rw [loadTwice_over r w hs]
    exact hf.buffers _ m
  | lwsw hf =>
    obtain ⟨m', h'⟩ := hLwsw_over r w hs
    refine ⟨m', ?_⟩
    rw [h']
    exact hf.buffers (hLwsw h r w, ()) m'
  | prologue hf =>
    obtain ⟨m', h'⟩ := prologue_over r w hs
    refine ⟨m', ?_⟩
    rw [h']
    exact hf.buffers _ m'
  | epilogue hf =>
    refine ⟨m, ?_⟩
    rw [epilogue_over r w hin hs]
    exact hf.buffers _ m
  | plain hlog hmem hover => exact ⟨m, hover⟩
  | memop hw => exact absurd hw hop
  | trap =>
    unfold hTrap at hgo
    simp only at hgo
    exact absurd rfl (hgo _)

/-- **A handler that finds its bytes reads no others**: over other buffers that have the same bytes
where it loads, it does the same to everything but the buffers. -/
theorem dispatch_over (hop : TC_OP w ≠ RISCV_OP_MEMOP)
    (hgo : ∀ stop, (dispatch h r p w w2).2.2 ≠ .trap stop) (hover : ¬ Overruns r.s w)
    (hs : Serves (touches h r w) r.s.mem m) :
    ∃ m', dispatch h (Run.over r m) p w w2 =
      (Run.over (dispatch h r p w w2).1 m', (dispatch h r p w w2).2) :=
  (dispatch_handler h r m p w w2).buffers r p w hop hgo ((touches_inside h r w).mpr hover) hs

end

end Purv.Purva

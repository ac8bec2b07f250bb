import Purv.PurvaHeap

/-!
# The heap of the guest: allocating

* `Allocated` — a new live block, all others kept;
* `mallocWalk_phase` — the walk ends at a block that is large enough or comes round;
* `purvaMorecore_spec` — growing fails and changes nothing, or adds a free block;
* `Exhausted`, `purvaMalloc_spec` — `purva__malloc` fails exactly when no free block is large enough
  and there is no room for one, and then changes nothing.
-/

namespace Purv.Purva

open Bits Transcode FreeList Function

variable {U : Type}

section
variable {s : State (PurvaRun U)} {Q : Nat → Prop} {F L : Nat → Prop}

/-! ## `purva__malloc` -/

/-- What `purva__malloc` does once the block at `p` is large enough. -/
def taken (s : State (PurvaRun U)) (prevp p nunits : Word) : State (PurvaRun U) × Word :=
  if purvaSize s p = nunits then
    (setFreep (purvaSetNext s prevp (purvaNext s p)) prevp, p + PURVA_HUNIT)
  else
    let s := purvaSetSize s p (purvaSize s p - nunits)
    let p := p + purvaSize s p * PURVA_HUNIT
    (setFreep (purvaSetSize s p nunits) prevp, p + PURVA_HUNIT)

/-- And once the walk is back at the roving pointer. -/
def grown (steps : Nat) (nunits : Word) (n : Nat) (s : State (PurvaRun U)) :
    Option (State (PurvaRun U) × Word) :=
  match purvaMorecore steps s nunits with
  | none => none
  | some (s, p) =>
    if p = 0#32 then some (s, 0#32) else mallocWalk steps nunits n s p (purvaNext s p)

theorem mallocWalk_succ (steps : Nat) (nunits : Word) (n : Nat) (s : State (PurvaRun U))
    (prevp p : Word) :
    mallocWalk steps nunits (n + 1) s prevp p =
      if purvaSize s p ≥ nunits then some (taken s prevp p nunits)
      else if p = s.host.freep then grown steps nunits n s
      else mallocWalk steps nunits n s p (purvaNext s p) := by
  rw [mallocWalk]
  unfold taken grown
  split
  · split <;> rfl
  · rfl

/-- What a success of `purva__malloc` is: a new live block of at least `n` units, with its header. -/
structure Allocated (Q : Nat → Prop) (s s' : State (PurvaRun U)) (L : Nat → Prop) (n b : Nat) :
    Prop where
  inv : ∃ F', HeapAt Q s' F' (fun x => L x ∨ x = b)
  host : SameHost s s'
  fresh : ¬ L b
  size : n ≤ sizeAt s' b
  keeps : ∀ c, L c → KeepsBlock s s' c

theorem taken_spec (hi : HeapAt Q s F L) {prev n : Nat} (hp : prev = s.host.basep.toNat ∨ F prev)
    (hg : F (nextAt s prev)) (hn : 0 < n) (hfit : n ≤ sizeAt s (nextAt s prev)) :
    ∃ b, (taken s (addr prev) (addr (nextAt s prev)) (addr n)).2 = addr (b + 8) ∧
      Allocated Q s (taken s (addr prev) (addr (nextAt s prev)) (addr n)).1 L n b := by
  have hph := (hi.node hp).1
  have hgh := (hi.node (.inr hg)).1
  have hbrk := s.host.heap_brk.isLt
  have hhigh := hi.heap.tiled.high _ (.inl hg)
  have hsz := sizeAt_lt s (nextAt s prev)
  generalize hge : nextAt s prev = g at hg hfit hgh hhigh hsz ⊢
  unfold taken
  rw [purvaSize_addr s hgh]
  by_cases heq : sizeAt s g = n
  · rw [if_pos (congrArg addr heq), purvaNext_addr s hgh]
    have e := (Edits.refl s (· = prev)).setNext hph rfl (nextAt_lt s g)
    refine ⟨g, addr_unit g, ⟨_, hi.edited e (hi.heap.takeAll hp hg hge) hph ?_⟩, e.sameHost _,
      hi.heap.disjoint g hg, ?_, ?_⟩
    · refine hp.imp id fun hF => ⟨hF, ?_⟩
      rintro rfl
      rcases hi.heap.ring.next prev hp with ⟨_, hlt, _⟩ | ⟨hb, _⟩
      · omega
      · have := hi.heap.ring.above _ hg
        omega
    · rw [sizeAt_setFreep, e.size]
      omega
    · intro c hc
      refine (hi.keeps e hc rfl ?_).setFreep _
      rintro a rfl
      exact hi.node_outside hp hc
  · rw [if_neg fun h => heq ((addr_inj hsz (by omega)).mp h), addr_sub hfit]
    have e1 := (Edits.refl s (fun a => a = g ∨ a = g + 8 * (sizeAt s g - n))).setSize hgh (.inl rfl)
      (show sizeAt s g - n < 2 ^ 32 by omega)
    simp only
    rw [purvaSize_addr _ hgh, e1.size, update_self, addr_units, addr_add]
    have hch : Header (g + 8 * (sizeAt s g - n)) := by
      obtain ⟨h8, _⟩ := hgh
      exact ⟨by omega, by omega⟩
    have e := e1.setSize hch (.inr rfl) (show n < 2 ^ 32 by omega)
    obtain ⟨hheap, hnew⟩ := hi.heap.takeTail hg hn (by omega) rfl
    refine ⟨_, addr_unit _, ⟨_, hi.edited e hheap hph hp⟩, e.sameHost _,
      fun h => hnew (.inr h), ?_, ?_⟩
    · rw [sizeAt_setFreep, e.size, update_self]
    · intro c hc
      have hcg : c ≠ g := by
        rintro rfl
        exact hi.heap.disjoint c hg hc
      have hcc : c ≠ g + 8 * (sizeAt s g - n) := by
        rintro rfl
        exact hnew (.inr hc)
      refine (hi.keeps e hc ?_ ?_).setFreep _
      · rw [update_of_ne hcc, update_of_ne hcg]
      · rintro a (rfl | rfl)
        · exact hi.node_outside (.inr hg) hc
        · rcases hi.node_outside (.inr hg) hc with h | h
          · have := hi.heap.tiled.apart g c (.inl hg) (.inr hc) (by omega)
            exact .inl (by omega)
          · exact .inr (by omega)

/-- How far the walk from `x` to the roving pointer `f` still is. -/
def mallocDist (base brk f x : Nat) : Nat := if x ≤ f then f - x else (brk - x) + (f - base) + 1

/-- The next node is nearer, and no node is between. -/
theorem mallocDist_next {base brk f x : Nat} {nx : Nat → Nat} (hr : Ring base F nx)
    (hnode : ∀ x, x = base ∨ F x → x < brk) (hf : f = base ∨ F f) (hx : x = base ∨ F x)
    (hne : x ≠ f) :
    mallocDist base brk f (nx x) < mallocDist base brk f x ∧
      ∀ z, z = base ∨ F z → z ≠ x → mallocDist base brk f z ≤ mallocDist base brk f x →
        mallocDist base brk f z ≤ mallocDist base brk f (nx x) := by
  have hxh := hnode _ hx
  have hfh := hnode _ hf
  have hyh := hnode _ (hr.next_node hx)
  have hxbase := hr.base_le hx
  have hfbase := hr.base_le hf
  rcases hr.next _ hx with ⟨hy, hlt, hmin⟩ | ⟨hy, hmax⟩
  · have hmin' : ∀ z, z = base ∨ F z → x < z → nx x ≤ z := by
      intro z hz hlt'
      rcases hz with rfl | hz
      · omega
      · exact hmin z hz hlt'
    have hfmin := hmin' _ hf
    constructor
    · unfold mallocDist
      split <;> split <;> omega
    · intro z hz hzx hle
      have hzh := hnode z hz
      have hzmin := hmin' z hz
      have hzbase := hr.base_le hz
      unfold mallocDist at hle ⊢
      split at hle <;> split at hle <;> split <;> split <;> omega
  · -- the last node: the walk is past the roving pointer
    have hxf : ¬ x ≤ f := by
      intro hle
      rcases hf with h | h
      · omega
      · have := hmax _ h
        omega
    constructor
    · unfold mallocDist
      rw [hy, if_pos hfbase, if_neg hxf]
      omega
    · intro z hz hzx hle
      have hzbase := hr.base_le hz
      have hzh := hnode z hz
      have hzx' : z ≤ x := by
        rcases hz with rfl | hz
        · exact hxbase
        · exact hmax z hz
      unfold mallocDist at hle ⊢
      rw [if_neg hxf] at hle
      rw [hy, if_pos hfbase]
      split at hle <;> split <;> omega

/-- **The walk of `purva__malloc`** ends at a block that is large enough, or back at the roving
pointer with every block on the way too small. -/
theorem mallocWalk_phase {base brk : Nat} (hr : Ring base F (nextAt s))
    (hnode : ∀ x, x = base ∨ F x → Header x ∧ x < brk)
    (hfree : s.host.freep.toNat = base ∨ F s.host.freep.toNat) (steps : Nat) {n : Nat}
    (hzero : sizeAt s base < n) (hn' : n < 2 ^ 32) (k : Nat) :
    ∀ prev, prev = base ∨ F prev →
      mallocDist base brk s.host.freep.toNat (nextAt s prev) < k →
      (∃ prev', (prev' = base ∨ F prev') ∧ F (nextAt s prev') ∧
        n ≤ sizeAt s (nextAt s prev') ∧
        mallocWalk steps (addr n) k s (addr prev) (addr (nextAt s prev)) =
          some (taken s (addr prev') (addr (nextAt s prev')) (addr n))) ∨
      ((∀ z, z = base ∨ F z → mallocDist base brk s.host.freep.toNat z ≤
          mallocDist base brk s.host.freep.toNat (nextAt s prev) → sizeAt s z < n) ∧
        ∃ k', k ≤ k' + mallocDist base brk s.host.freep.toNat (nextAt s prev) + 1 ∧
          mallocWalk steps (addr n) k s (addr prev) (addr (nextAt s prev)) =
            grown steps (addr n) k' s) := by
  induction k with
  | zero =>
    intro prev _ hk
    omega
  | succ k ih =>
    intro prev hp hk
    have hx := hr.next_node hp
    have hxh := hnode _ hx
    rw [mallocWalk_succ, purvaSize_addr s hxh.1]
    simp only [ge_iff_le, addr_le hn' (sizeAt_lt s _)]
    by_cases hfit : n ≤ sizeAt s (nextAt s prev)
    · rw [if_pos hfit]
      refine .inl ⟨prev, hp, ?_, hfit, rfl⟩
      rcases hx with hx | hx
      · rw [hx] at hfit
        omega
      · exact hx
    rw [if_neg hfit]
    by_cases hf : nextAt s prev = s.host.freep.toNat
    · rw [if_pos (by rw [hf, addr_of_toNat])]
      refine .inr ⟨fun z _ hz => ?_, k, by omega, rfl⟩
      have hzf : z = nextAt s prev := by
        rw [hf] at hz ⊢
        unfold mallocDist at hz
        rw [if_pos (Nat.le_refl _)] at hz
        split at hz <;> omega
      rw [hzf]
      omega
    have hne : addr (nextAt s prev) ≠ s.host.freep := by
      intro h
      have := congrArg BitVec.toNat h
      rw [addr_toNat hxh.1.2] at this
      exact hf this
    rw [if_neg hne, purvaNext_addr s hxh.1]
    have hdist := mallocDist_next hr (fun x hx => (hnode x hx).2) hfree hx hf
    rcases ih (nextAt s prev) hx (by omega) with h | ⟨h1, k', hk', h2⟩
    · exact .inl h
    · refine .inr ⟨fun z hz hle => ?_, k', by omega, h2⟩
      by_cases hzx : z = nextAt s prev
      · rw [hzx]
        omega
      · exact h1 z hz (hdist.2 z hz hzx hle)

/-- `r->heap_brk = v`. -/
def setBrk (s : State (PurvaRun U)) (v : Word) : State (PurvaRun U) :=
  { s with host := { s.host with heap_brk := v } }

/-- How many units `purva__morecore` asks for. -/
def moreUnits (n : Nat) : Nat := if n < 4096 then 4096 else n

/-- The heap grown by a block that is not free yet. -/
theorem HeapAt.more (hi : HeapAt Q s F L) {nu : Nat} (hnu : 0 < nu)
    (htop : s.host.heap_brk.toNat + 8 * nu ≤ s.host.heap_top.toNat) :
    let s' := purvaSetSize (setBrk s (addr (s.host.heap_brk.toNat + 8 * nu))) s.host.heap_brk
      (addr nu)
    HeapAt Q s' F (fun x => L x ∨ x = s.host.heap_brk.toNat) ∧
      ¬ L s.host.heap_brk.toNat ∧ sizeAt s' s.host.heap_brk.toNat = nu ∧ SameHost s s' ∧
      ∀ c, L c → KeepsBlock s s' c := by
  intro s'
  have hlt := s.host.heap_top.isLt
  have hbh : Header s.host.heap_brk.toNat := by
    have h1 := hi.heap.tiled.brk_aligned
    have h2 := hi.aligned
    exact ⟨by omega, s.host.heap_brk.isLt⟩
  have hset : s' = purvaSetSize (setBrk s (addr (s.host.heap_brk.toNat + 8 * nu)))
      (addr s.host.heap_brk.toNat) (addr nu) := by rw [addr_of_toNat]
  have e := (Edits.refl (setBrk s (addr (s.host.heap_brk.toNat + 8 * nu)))
    (· = s.host.heap_brk.toNat)).setSize hbh rfl (show nu < 2 ^ 32 by omega)
  rw [← hset] at e
  have hsz : sizeAt s' = update (sizeAt s) s.host.heap_brk.toNat nu := e.size
  have hnx : nextAt s' = nextAt s := e.next
  obtain ⟨hheap, hnew⟩ := hi.heap.grow hnu
  have hhost : s'.host = { s.host with heap_brk := addr (s.host.heap_brk.toNat + 8 * nu) } := e.host
  have hbase : s'.host.basep = s.host.basep := by rw [hhost]
  have htop' : s'.host.heap_top = s.host.heap_top := by rw [hhost]
  have hbrk' : s'.host.heap_brk.toNat = s.host.heap_brk.toNat + 8 * nu := by
    rw [hhost]
    exact addr_toNat (by omega)
  have hsame : SameHost s s' := by
    unfold SameHost
    rw [hhost]
  refine ⟨⟨?_, ?_, ?_, ?_, ?_, ?_⟩, fun h => hnew (.inr h), ?_, hsame, ?_⟩
  · rw [hbase, hbrk', hnx, hsz]
    exact hheap
  · rw [hbase, show s'.host.freep = s.host.freep by rw [hhost]]
    exact hi.freep
  · rw [hbase]
    exact hi.aligned
  · rw [hbase]
    exact hi.base
  · rw [BitVec.le_def, hbrk', htop']
    exact htop
  · rw [hbase, htop', hsame.offset]
    exact hi.buffer
  · rw [hsz, update_self]
  · intro c hc
    obtain ⟨_, _, hhigh, hcpos⟩ := hi.live hc
    have hne : c ≠ s.host.heap_brk.toNat := by omega
    refine ⟨by rw [hsz, update_of_ne hne], fun x hlo hhi => ?_⟩
    exact e.bytes x (by omega) (by rintro a rfl; exact .inl (by omega))

/-- **`purva__morecore`** fails and changes nothing, or grows the heap by a free block; the roving
pointer is then at the last node before it. -/
theorem purvaMorecore_spec (hi : HeapAt Q s F L) {n steps : Nat} (hn : 0 < n) (hn' : n < 2 ^ 29)
    (hs : WALK ≤ steps) :
    (s.host.heap_top.toNat < s.host.heap_brk.toNat + 8 * moreUnits n ∧
      purvaMorecore steps s (addr n) = some (s, 0#32)) ∨
    (s.host.heap_brk.toNat + 8 * moreUnits n ≤ s.host.heap_top.toNat ∧
      ∃ s' F', purvaMorecore steps s (addr n) = some (s', s'.host.freep) ∧ SameHost s s' ∧
        HeapAt Q s' F' L ∧ (∀ c, L c → KeepsBlock s s' c) ∧
        s'.host.heap_brk.toNat = s.host.heap_brk.toNat + 8 * moreUnits n ∧
        (s'.host.freep.toNat = s.host.basep.toNat ∨ F s'.host.freep.toNat) ∧
        (∀ x, F x → x ≤ s'.host.freep.toNat) ∧
        ∃ g, F' g ∧ (g = s'.host.freep.toNat ∨ nextAt s' s'.host.freep.toNat = g) ∧
          n ≤ sizeAt s' g) := by
  have hnu : n ≤ moreUnits n ∧ 0 < moreUnits n ∧ moreUnits n < 2 ^ 29 := by
    unfold moreUnits
    split <;> omega
  have hunits : (if addr n < 4096#32 then 4096#32 else addr n) = addr (moreUnits n) := by
    have hlt : addr n < 4096#32 ↔ n < 4096 := addr_lt (by omega) (by decide)
    unfold moreUnits
    simp only [hlt]
    split <;> rfl
  have hbytes : (addr (8 * moreUnits n)).toNat = 8 * moreUnits n := addr_toNat (by omega)
  have hsum : s.host.heap_brk + addr (8 * moreUnits n) =
      addr (s.host.heap_brk.toNat + 8 * moreUnits n) := by
    rw [← addr_add, addr_of_toNat]
  unfold purvaMorecore
  simp only [hunits, addr_units, hbytes, hsum]
  by_cases htop : s.host.heap_brk.toNat + 8 * moreUnits n ≤ s.host.heap_top.toNat
  · obtain ⟨hi', hnL, hsz', hhost, hkeeps⟩ := hi.more hnu.2.1 htop
    rw [if_neg (by omega)]
    refine .inr ⟨htop, ?_⟩
    obtain ⟨s', F', hfree, hhost', hbrk', hi'', hkeeps', g, hg, hgp, hgsz⟩ :=
      purvaFree_spec (b := s.host.heap_brk.toNat) hi' (.inr rfl) hs
    have hplace := purvaFree_place (b := s.host.heap_brk.toNat) hi' (.inr rfl) hs hfree
    have hlast : ∀ x, F x → x ≤ s'.host.freep.toNat := fun x hx =>
      hplace.last hi'.heap.ring (fun y hy => (hi.node (.inr hy)).2) x hx
    rw [← addr_unit, addr_of_toNat] at hfree
    have hL : (fun x => (L x ∨ x = s.host.heap_brk.toNat) ∧ x ≠ s.host.heap_brk.toNat) = L := by
      funext x
      refine propext ⟨fun h => h.1.resolve_right h.2, fun h => ⟨.inl h, ?_⟩⟩
      rintro rfl
      exact hnL h
    rw [hL] at hi''
    refine ⟨s', F', ?_, hhost.trans hhost', hi'', ?_, ?_, hplace.node, hlast, g, hg, hgp,
      by omega⟩
    · unfold setBrk at hfree
      rw [hfree]
      rfl
    · intro c hc
      refine (hkeeps c hc).trans (hkeeps' c (.inl hc) ?_)
      rintro rfl
      exact hnL hc
    · rw [hbrk']
      exact addr_toNat (by omega)
  · rw [if_pos (by omega)]
    exact .inl ⟨by omega, rfl⟩

theorem HeapAt.nodes (hi : HeapAt Q s F L) : ∀ x, x = s.host.basep.toNat ∨ F x →
    Header x ∧ x < s.host.heap_brk.toNat := by
  intro x hx
  obtain ⟨hxh, hxb⟩ := hi.node hx
  exact ⟨hxh, by omega⟩

/-- The walk from the roving pointer all the way round. -/
theorem HeapAt.walk (hi : HeapAt Q s F L) (steps : Nat) {n k : Nat} (hn : 0 < n) (hn' : n < 2 ^ 32)
    (hk : WALK ≤ k) :
    (∃ prev, (prev = s.host.basep.toNat ∨ F prev) ∧ F (nextAt s prev) ∧
      n ≤ sizeAt s (nextAt s prev) ∧
      mallocWalk steps (addr n) k s s.host.freep (purvaNext s s.host.freep) =
        some (taken s (addr prev) (addr (nextAt s prev)) (addr n))) ∨
    ((∀ z, F z → sizeAt s z < n) ∧ ∃ k', k ≤ k' + WALK ∧
      mallocWalk steps (addr n) k s s.host.freep (purvaNext s s.host.freep) =
        grown steps (addr n) k' s) := by
  have hfh := hi.nodes _ hi.freep
  have hx := hi.nodes _ (hi.heap.ring.next_node hi.freep)
  have hxbase := hi.heap.ring.base_le (hi.heap.ring.next_node hi.freep)
  have hnext : purvaNext s s.host.freep = addr (nextAt s s.host.freep.toNat) := by
    rw [← purvaNext_addr s hfh.1, addr_of_toNat]
  have hbrk := s.host.heap_brk.isLt
  have hdist : mallocDist s.host.basep.toNat s.host.heap_brk.toNat s.host.freep.toNat
      (nextAt s s.host.freep.toNat) + 1 < WALK := by
    unfold WALK mallocDist
    split <;> omega
  have hzero : sizeAt s s.host.basep.toNat < n := by
    rw [hi.heap.zero]
    exact hn
  have hphase := mallocWalk_phase hi.heap.ring hi.nodes hi.freep steps hzero hn' k
    s.host.freep.toNat hi.freep (by omega)
  rw [addr_of_toNat, ← hnext] at hphase
  rcases hphase with h | ⟨hsmall, k', hk', hw⟩
  · exact .inl h
  · refine .inr ⟨fun z hz => hsmall z (.inr hz) ?_, k', by omega, hw⟩
    -- every node is on the way
    have hzb := hi.nodes z (.inr hz)
    have hzbase := hi.heap.ring.base_le (.inr hz)
    have hfbase := hi.heap.ring.base_le hi.freep
    unfold mallocDist
    rcases hi.heap.ring.next _ hi.freep with ⟨_, hlt, hmin⟩ | ⟨hy, hmax⟩
    · have := hmin z hz
      split <;> split <;> omega
    · rw [hy, if_pos (hmax z hz), if_pos hfbase]
      omega

/-- The units of a request: its bytes rounded up, and one for the header. -/
def units (nbytes : Nat) : Nat := (nbytes + 7) / 8 + 1

theorem units_eq {nbytes : Word} (hn : nbytes.toNat ≤ 0xfffffff0) :
    (nbytes + PURVA_HUNIT - 1#32) / PURVA_HUNIT + 1#32 = addr (units nbytes.toNat) := by
  apply BitVec.eq_of_toNat_eq
  rw [addr_toNat (by unfold units; omega)]
  unfold units PURVA_HUNIT
  have h7 : (nbytes + 8#32 - 1#32).toNat = nbytes.toNat + 7 := by bv_omega
  rw [BitVec.toNat_add, BitVec.toNat_udiv, h7]
  show ((nbytes.toNat + 7) / 8 + 1) % 2 ^ 32 = _
  omega

/-- No free block has `n` units, and the arena has no room for them. -/
def Exhausted (s : State (PurvaRun U)) (F : Nat → Prop) (n : Nat) : Prop :=
  (∀ x, F x → sizeAt s x < n) ∧
    s.host.heap_top.toNat < s.host.heap_brk.toNat + 8 * moreUnits n

/-- Growing the heap does not end at address 0: the arena does not begin there, or a free block is in
it, or it has no room to grow. -/
def Grounded (s : State (PurvaRun U)) (F : Nat → Prop) : Prop :=
  0 < s.host.basep.toNat ∨ (∃ x, F x) ∨
    s.host.heap_top.toNat < s.host.heap_brk.toNat + 32768

theorem moreUnits_ge (n : Nat) : 4096 ≤ moreUnits n := by
  unfold moreUnits
  split <;> omega

/-- The walk fails and changes nothing when the heap is exhausted, and makes a live block else. -/
theorem mallocWalk_spec (hi : HeapAt Q s F L) (hground : Grounded s F) {n steps : Nat}
    (hn : 0 < n) (hn' : n < 2 ^ 29) (hs : 4 * WALK ≤ steps) :
    (Exhausted s F n ∧ mallocWalk steps (addr n) steps s s.host.freep (purvaNext s s.host.freep) =
      some (s, 0#32)) ∨
    (¬ Exhausted s F n ∧ ∃ s' b,
      mallocWalk steps (addr n) steps s s.host.freep (purvaNext s s.host.freep) =
        some (s', addr (b + 8)) ∧ Allocated Q s s' L n b) := by
  have hwalk : 0 < WALK := by decide
  rcases hi.walk steps hn (by omega) (show WALK ≤ steps by omega) with
    ⟨prev, hp, hF, hle, hw⟩ | ⟨hsmall, k', hk', hw⟩
  · obtain ⟨b, hb, ha⟩ := taken_spec hi hp hF hn hle
    refine .inr ⟨fun he => ?_, _, b, by rw [hw, ← hb], ha⟩
    have := he.1 _ hF
    omega
  rw [hw]
  unfold grown
  rcases purvaMorecore_spec hi hn hn' (show WALK ≤ steps by omega) with
    ⟨htop, hm⟩ | ⟨htop, s', F', hm, hhost, hi', hkeeps, -, -, hlast, g, hg, _, hfit⟩
  · rw [hm]
    exact .inl ⟨⟨hsmall, htop⟩, rfl⟩
  · rw [hm]
    have hne : s'.host.freep ≠ 0#32 := by
      intro h
      have hzero : s'.host.freep.toNat = 0 := by rw [h]; rfl
      rcases hground with hpos | ⟨x, hx⟩ | hfull
      · have hbase := hi'.heap.ring.base_le hi'.freep
        rw [hhost.basep] at hbase
        omega
      · have habove := hi.heap.ring.above x hx
        have := hlast x hx
        omega
      · have := moreUnits_ge n
        omega
    simp only
    rw [if_neg hne]
    -- the new block is large enough, so the walk does not come round again
    rcases hi'.walk steps hn (by omega) (show WALK ≤ k' by omega) with
      ⟨prev, hp, hF, hle, hw'⟩ | ⟨hsmall', _⟩
    · obtain ⟨b, hb, ha⟩ := taken_spec hi' hp hF hn hle
      refine .inr ⟨fun he => ?_, _, b, by rw [hw', ← hb], ha.inv, hhost.trans ha.host, ha.fresh,
        ha.size, fun c hc => (hkeeps c hc).trans (ha.keeps c hc)⟩
      have := he.2
      omega
    · have := hsmall' g hg
      omega

/-- **`purva__malloc`** fails and changes nothing, or makes a live block that is large enough. -/
theorem purvaMalloc_spec (hi : HeapAt Q s F L) (hground : Grounded s F) {nbytes : Word}
    {steps : Nat} (hn : nbytes.toNat ≤ 0xfffffff0) (hs : 4 * WALK ≤ steps) :
    ((nbytes = 0#32 ∨ Exhausted s F (units nbytes.toNat)) ∧
      purvaMalloc steps s nbytes = some (s, 0#32)) ∨
    (¬ (nbytes = 0#32 ∨ Exhausted s F (units nbytes.toNat)) ∧
      ∃ s' b, purvaMalloc steps s nbytes = some (s', addr (b + 8)) ∧
        Allocated Q s s' L (units nbytes.toNat) b) := by
  unfold purvaMalloc
  by_cases h0 : nbytes = 0#32
  · rw [if_pos h0]
    exact .inl ⟨.inl h0, rfl⟩
  rw [if_neg h0]
  simp only [units_eq hn]
  have hpos : 0 < units nbytes.toNat := by unfold units; omega
  have hlt : units nbytes.toNat < 2 ^ 29 := by unfold units; omega
  rcases mallocWalk_spec hi hground hpos hlt hs with ⟨he, hw⟩ | ⟨he, h⟩
  · exact .inl ⟨.inr he, hw⟩
  · exact .inr ⟨not_or.mpr ⟨h0, he⟩, h⟩

end

end Purv.Purva

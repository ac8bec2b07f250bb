import Purv.PurvaBlocks

/-!
# A tidy heap around a block

`purva__realloc` writes a payload, and then walks the free list again.

* `Tidy` — the block and the list are in the arena, and no header is inside a block of the list;
* `Clears` — so the block that `purva__malloc` takes has no header in its payload
  (`purvaMalloc_clears`);
* `Clears.copied` — and writing the payload leaves the list as it was;
* `HeapInv.tidy` — an intact heap is tidy.
-/

namespace Purv.Purva

open Bits Transcode FreeList

variable {U : Type}

section
variable {s : State (PurvaRun U)} {N : Word → Prop} {b p q : Word}

/-- **A tidy heap around the block `b`**: it and the blocks of the free list lie between `basep` and
`heap_brk`, and no header is inside a block of the list. -/
structure Tidy (s : State (PurvaRun U)) (N : Word → Prop) (b : Word) : Prop where
  list : ListIn s N
  block : BlockIn s b (purvaSize s b).toNat
  low : ∀ p, N p ∨ p = b → s.host.basep.toNat ≤ p.toNat
  high : ∀ p, N p ∨ p = b → p.toNat + 8 * max 1 (purvaSize s p).toNat ≤ s.host.heap_brk.toNat
  clear : ∀ p q, N p → (N q ∨ q = b) → p.toNat < q.toNat →
    p.toNat + 8 * (purvaSize s p).toNat ≤ q.toNat

/-- A block of `n` units at `c` whose payload has no header in it. -/
structure Clears (s : State (PurvaRun U)) (N : Word → Prop) (b c : Word) (n : Nat) : Prop where
  list : ListIn s N
  block : BlockIn s b (purvaSize s b).toNat
  fits : BlockIn s c n
  low : ∀ q, N q ∨ q = b → s.host.basep.toNat ≤ q.toNat
  high : ∀ q, N q ∨ q = b → q.toNat + 8 ≤ s.host.heap_brk.toNat
  base : s.host.basep.toNat ≤ c.toNat
  top : c.toNat + 8 * n ≤ s.host.heap_brk.toNat
  clear : ∀ q, N q ∨ q = b → q.toNat ≤ c.toNat ∨ c.toNat + 8 * n ≤ q.toNat

theorem Tidy.aligned (h : Tidy s N b) (hp : N p ∨ p = b) : p.toNat % 8 = 0 := by
  rcases hp with hp | rfl
  · exact (h.list.fits p hp).aligned
  · exact h.block.aligned

theorem Clears.setFreep {c : Word} {n : Nat} (h : Clears s N b c n) (hp : N p) :
    Clears (setFreep s p) N b c n where
  list := h.list.setFreep hp
  block := h.block.same ⟨rfl, rfl⟩
  fits := h.fits.same ⟨rfl, rfl⟩
  low := h.low
  high := h.high
  base := h.base
  top := h.top
  clear := h.clear

/-- A block of a tidy heap, or the end of one, has no header in its payload. -/
theorem Tidy.clears (h : Tidy s N b) {s' : State (PurvaRun U)} {c : Word} {n : Nat} (hp : N p)
    (hhost : s'.host = s.host) (hlist : ListIn s' N)
    (hblock : BlockIn s' b (purvaSize s' b).toNat) (hfits : BlockIn s' c n)
    (hlo : p.toNat ≤ c.toNat) (hend : c.toNat + 8 * n = p.toNat + 8 * (purvaSize s p).toNat) :
    Clears s' N b c n := by
  have hlow := h.low p (.inl hp)
  have hhigh := h.high p (.inl hp)
  refine ⟨hlist, hblock, hfits, ?_, ?_, ?_, ?_, ?_⟩
  · intro q hq
    rw [hhost]
    exact h.low q hq
  · intro q hq
    have := h.high q hq
    rw [hhost]
    omega
  · rw [hhost]
    omega
  · rw [hhost]
    omega
  · intro q hq
    rcases Nat.lt_or_ge p.toNat q.toNat with hlt | hge
    · have := h.clear p q hp hq hlt
      exact .inr (by omega)
    · exact .inl (by omega)

theorem taken_clears (h : Tidy s N b) {prevp n : Word} (hprev : N prevp) (hp : N p)
    (hn : 0 < n.toNat) (hfit : n ≤ purvaSize s p) :
    ∃ c, (taken s prevp p n).2 = c + PURVA_HUNIT ∧
      Clears (taken s prevp p n).1 N b c n.toNat := by
  have hpf := h.list.fits p hp
  have hle := BitVec.le_def.mp hfit
  have hhigh := h.high p (.inl hp)
  unfold taken
  by_cases heq : purvaSize s p = n
  · rw [if_pos heq]
    have hsame := setNext_same s prevp (purvaNext s p)
    have hprevf := h.list.fits prevp hprev
    have hlist := (h.list.setNext hprevf (.inl (h.list.next p hp))).again hprev
    have hb : purvaSize (purvaSetNext s prevp (purvaNext s p)) b = purvaSize s b :=
      purvaSize_setNext h.block.aligned hprevf.aligned
    refine ⟨p, rfl, Clears.setFreep (h.clears hp (setNext_host s _ _) hlist ?_ ?_ ?_ ?_) hprev⟩
    · rw [hb]
      exact h.block.same hsame
    · rw [← heq]
      exact hpf.same hsame
    · exact Nat.le_refl _
    · rw [heq]
  · rw [if_neg heq]
    simp only
    rw [purvaSize_setSize]
    have hsub := BitVec.toNat_sub_of_le hfit
    have hrest := hpf.shrink (k := (purvaSize s p - n).toNat) (by omega)
    have htail := hpf.tail hn hfit
    have htnat := tail_toNat (p := p) (w := purvaSize s p) (by omega) hfit
    generalize p + (purvaSize s p - n) * PURVA_HUNIT = t at htail htnat ⊢
    have hsame := setSize_same s p (purvaSize s p - n)
    have hsame' := setSize_same (purvaSetSize s p (purvaSize s p - n)) t n
    have hlist := (h.list.setSize hrest).setSize (htail.same hsame)
    have hlt : n.toNat < (purvaSize s p).toNat :=
      Nat.lt_of_le_of_ne hle fun hc => heq (BitVec.eq_of_toNat_eq hc).symm
    have hne : b ≠ t := by
      rintro rfl
      have := h.clear p b hp (.inr rfl) (by omega)
      omega
    have hb : BlockIn s b (purvaSize (purvaSetSize s p (purvaSize s p - n)) b).toNat := by
      rw [purvaSize_setSize_eq h.block.aligned hpf.aligned]
      split
      · rename_i hbp
        rw [hbp]
        exact hrest
      · exact h.block
    refine ⟨t, rfl, Clears.setFreep (h.clears hp ?_ hlist ?_ ?_ ?_ ?_) hprev⟩
    · rw [setSize_host, setSize_host]
    · rw [purvaSize_setSize_ne h.block.aligned htail.aligned hne]
      exact (hb.same hsame).same hsame'
    · exact (htail.same hsame).same hsame'
    · omega
    · omega

/-! ## Growing -/

/-- The units that `purva__morecore` asks for. -/
theorem moreUnits_lt {nu : Word} (hnu : nu.toNat < 2 ^ 29) :
    (if nu < 4096#32 then 4096#32 else nu).toNat < 2 ^ 29 ∧
      0 < (if nu < 4096#32 then 4096#32 else nu).toNat := by
  have h4096 : (4096#32).toNat = 4096 := rfl
  split
  · omega
  · rename_i hge
    rw [BitVec.lt_def] at hge
    omega

/-- A heap with a new block of `n` units at its end `up`, that is linked to the list. -/
structure Extended (s s' : State (PurvaRun U)) (N : Word → Prop) (up n : Word) : Prop where
  here : s.host.heap_brk = up
  buffer : SameBuffer s s'
  basep : s'.host.basep = s.host.basep
  brk : s'.host.heap_brk.toNat = up.toNat + 8 * n.toNat
  list : ListIn s' N
  link : N (purvaNext s' up)
  fits : BlockIn s' up n.toNat
  size : purvaSize s' up = n
  others : ∀ q, q.toNat % 8 = 0 → q ≠ up → purvaSize s' q = purvaSize s q

section
variable {s' : State (PurvaRun U)} {up n : Word}

theorem Extended.below (he : Extended s s' N up n) (h : Tidy s N b) (hq : N q ∨ q = b) :
    q.toNat + 8 * max 1 (purvaSize s q).toNat ≤ up.toNat := by
  have hhigh := h.high q hq
  rwa [he.here] at hhigh

theorem Extended.size_eq (he : Extended s s' N up n) (h : Tidy s N b) (hq : N q ∨ q = b) :
    purvaSize s' q = purvaSize s q := by
  have hbelow := he.below h hq
  refine he.others q (h.aligned hq) ?_
  rintro rfl
  omega

/-- The block before it takes the new block in. -/
theorem Tidy.joined (h : Tidy s N b) (he : Extended s s' N up n) (hp : N p)
    (hjoin : p + purvaSize s' p * PURVA_HUNIT = up) :
    Tidy (setFreep (purvaSetNext (purvaSetSize s' p (purvaSize s' p + n)) p (purvaNext s' up)) p)
      N b := by
  have hpa := h.aligned (.inl hp)
  have hpsize := he.size_eq h (.inl hp)
  have hbelow := he.below h (.inl hp)
  have hbrk := he.brk
  have hsum : BlockIn s' p (purvaSize s' p + n).toNat :=
    (he.list.fits p hp).join he.fits hjoin
  have hsumNat : (purvaSize s' p + n).toNat = (purvaSize s p).toNat + n.toNat := by
    rw [hpsize, BitVec.toNat_add_of_lt (by omega)]
  have hpend : p.toNat + 8 * (purvaSize s p).toNat = up.toNat := by
    have hunits := units_toNat (w := purvaSize s p) (by omega)
    rw [← hjoin, hpsize, BitVec.toNat_add_of_lt (by omega), hunits]
  have hl₁ := he.list.setSize hsum
  have hl₂ := (hl₁.setNext (hl₁.fits p hp) (.inl he.link)).again hp
  have hsame := setSize_same s' p (purvaSize s' p + n)
  have hsame' := setNext_same (purvaSetSize s' p (purvaSize s' p + n)) p (purvaNext s' up)
  have hsize : ∀ q, N q ∨ q = b →
      purvaSize (purvaSetNext (purvaSetSize s' p (purvaSize s' p + n)) p (purvaNext s' up)) q =
        if q = p then purvaSize s' p + n else purvaSize s q := by
    intro q hq
    rw [purvaSize_setNext (h.aligned hq) hpa, purvaSize_setSize_eq (h.aligned hq) hpa,
      he.size_eq h hq]
  have hhost : (purvaSetNext (purvaSetSize s' p (purvaSize s' p + n)) p
      (purvaNext s' up)).host = s'.host := by
    rw [setNext_host, setSize_host]
  generalize purvaSetNext (purvaSetSize s' p (purvaSize s' p + n)) p (purvaNext s' up) = s₂ at *
  refine ⟨hl₂.setFreep hp, ?_, ?_, ?_, ?_⟩
  · show BlockIn (setFreep s₂ p) b (purvaSize s₂ b).toNat
    rw [hsize b (.inr rfl)]
    split
    · rename_i hbp
      rw [hbp]
      exact ((hsum.same hsame).same hsame').same ⟨rfl, rfl⟩
    · exact (((h.block.same he.buffer).same hsame).same hsame').same ⟨rfl, rfl⟩
  · intro q hq
    show s₂.host.basep.toNat ≤ _
    rw [hhost, he.basep]
    exact h.low q hq
  · intro q hq
    show q.toNat + 8 * max 1 (purvaSize s₂ q).toNat ≤ s₂.host.heap_brk.toNat
    have := he.below h hq
    rw [hhost, hsize q hq]
    split
    · rename_i hqp
      rw [hqp, hsumNat]
      omega
    · omega
  · intro q q' hq hq' hlt
    show q.toNat + 8 * (purvaSize s₂ q).toNat ≤ q'.toNat
    have hold := h.clear q q' hq hq' hlt
    rw [hsize q (.inl hq)]
    split
    · -- nothing is above the block that ended the arena
      rename_i hqp
      have := he.below h hq'
      rw [hqp] at hold
      omega
    · exact hold

/-- Or the new block is the next one. -/
theorem Tidy.linked (h : Tidy s N b) (hbase : s.host.basep ≤ up) (hn : 0 < n.toNat)
    (he : Extended s s' N up n) (hp : N p) :
    Tidy (setFreep (purvaSetNext s' p up) p) (fun q => (N q ∨ q = up) ∨ q = p) b := by
  have hpa := h.aligned (.inl hp)
  have hbase' := BitVec.le_def.mp hbase
  have hbrk := he.brk
  have hupa := he.fits.aligned
  have hl₁ : ListIn s' fun q => N q ∨ q = up := by
    refine ⟨.inl he.list.freep, ?_, ?_⟩
    · rintro q (hq | rfl)
      · exact .inl (he.list.next q hq)
      · exact .inl he.link
    · rintro q (hq | rfl)
      · exact he.list.fits q hq
      · rw [he.size]
        exact he.fits
  have hl₂ := hl₁.setNext (he.list.fits p hp) (.inl (.inr rfl))
  have hcases : ∀ q, ((N q ∨ q = up) ∨ q = p) ∨ q = b → (N q ∨ q = b) ∨ q = up := by
    rintro q (((hq | hq) | rfl) | hq)
    · exact .inl (.inl hq)
    · exact .inr hq
    · exact .inl (.inl hp)
    · exact .inl (.inr hq)
  have hsize : ∀ q, N q ∨ q = b → purvaSize (purvaSetNext s' p up) q = purvaSize s q := by
    intro q hq
    rw [purvaSize_setNext (h.aligned hq) hpa, he.size_eq h hq]
  have hupsize : purvaSize (purvaSetNext s' p up) up = n := by
    rw [purvaSize_setNext hupa hpa, he.size]
  have hsame := setNext_same s' p up
  have hhost := setNext_host s' p up
  generalize purvaSetNext s' p up = s₂ at *
  refine ⟨hl₂.setFreep (.inr rfl), ?_, ?_, ?_, ?_⟩
  · show BlockIn (setFreep s₂ p) b (purvaSize s₂ b).toNat
    rw [hsize b (.inr rfl)]
    exact ((h.block.same he.buffer).same hsame).same ⟨rfl, rfl⟩
  · intro q hq
    show s₂.host.basep.toNat ≤ _
    rw [hhost, he.basep]
    rcases hcases q hq with hq | rfl
    · exact h.low q hq
    · exact hbase'
  · intro q hq
    show q.toNat + 8 * max 1 (purvaSize s₂ q).toNat ≤ s₂.host.heap_brk.toNat
    rw [hhost]
    rcases hcases q hq with hq | rfl
    · have := he.below h hq
      rw [hsize q hq]
      omega
    · rw [hupsize]
      omega
  · intro q q' hq hq' hlt
    show q.toNat + 8 * (purvaSize s₂ q).toNat ≤ q'.toNat
    have hN : N q ∨ q = up := by
      rcases hq with hq | rfl
      · exact hq
      · exact .inl hp
    rcases hN with hN | rfl
    · have hbelow := he.below h (.inl hN)
      rw [hsize q (.inl hN)]
      rcases hcases q' hq' with hq' | rfl
      · exact h.clear q q' hN hq' hlt
      · omega
    · rcases hcases q' hq' with hq' | rfl
      · have := he.below h hq'
        omega
      · omega

/-- Either way the heap is tidy. -/
theorem Tidy.extended (h : Tidy s N b) (hbase : s.host.basep ≤ up) (hn : 0 < n.toNat)
    (he : Extended s s' N up n) (hp : N p) :
    ∃ N', Tidy (setFreep (freePrev s' p up) p) N' b := by
  unfold freePrev
  rw [he.size]
  split
  · rename_i hjoin
    simp only
    rw [purvaNext_setSize he.fits.aligned (h.aligned (.inl hp))]
    exact ⟨N, h.joined he hp hjoin⟩
  · exact ⟨_, h.linked hbase hn he hp⟩

end

/-- A block of `nu` units at the end of the arena, that is linked to what follows `p`. -/
theorem Tidy.appended (ha : ArenaIn s) (h : Tidy s N b) {nu : Word} (hnu : 0 < nu.toNat)
    (htop : s.host.heap_brk.toNat + 8 * nu.toNat ≤ s.host.heap_top.toNat)
    {s₁ : State (PurvaRun U)} (hs₁ : s₁ = setBrk s (s.host.heap_brk + nu * PURVA_HUNIT))
    (hp : N p) :
    freeNext (purvaSetSize s₁ s.host.heap_brk nu) p s.host.heap_brk =
        purvaSetNext (purvaSetSize s₁ s.host.heap_brk nu) s.host.heap_brk (purvaNext s p) ∧
      Extended s (purvaSetNext (purvaSetSize s₁ s.host.heap_brk nu) s.host.heap_brk
        (purvaNext s p)) N s.host.heap_brk nu := by
  have hbytes := units_toNat (w := nu) (by omega)
  have hbrk' : (s.host.heap_brk + nu * PURVA_HUNIT).toNat =
      s.host.heap_brk.toNat + 8 * nu.toNat := by
    rw [BitVec.toNat_add_of_lt (by omega), hbytes]
  have hfits : BlockIn s s.host.heap_brk nu.toNat := ha.more nu htop hnu
  have hNup : ¬ N s.host.heap_brk := by
    intro hN
    have := h.high _ (.inl hN)
    omega
  have hnexts : (purvaNext s p).toNat < s.host.heap_brk.toNat := by
    have := h.high _ (.inl (h.list.next p hp))
    omega
  have hl₁ : ListIn s₁ N := hs₁ ▸ h.list.setBrk _
  have hsame₁ : SameBuffer s s₁ := hs₁ ▸ ⟨rfl, rfl⟩
  have hhost₁ : s₁.host = { s.host with heap_brk := s.host.heap_brk + nu * PURVA_HUNIT } :=
    hs₁ ▸ rfl
  have hnext₁ : purvaNext s₁ p = purvaNext s p := hs₁ ▸ rfl
  have hsize₁ : ∀ q, purvaSize s₁ q = purvaSize s q := fun q => hs₁ ▸ rfl
  generalize hup : s.host.heap_brk = up at *
  have hpa := h.aligned (.inl hp)
  have hf₁ := hfits.same hsame₁
  have hl₂ := hl₁.setSize hf₁
  have hsame₂ := setSize_same s₁ up nu
  have hsame₃ := setNext_same (purvaSetSize s₁ up nu) up (purvaNext s p)
  constructor
  · unfold freeNext
    rw [purvaSize_setSize, purvaNext_setSize hpa hfits.aligned, hnext₁, if_neg]
    -- the next node is below the end, and the block ends above it
    intro hj
    rw [← hj, hbrk'] at hnexts
    omega
  · refine ⟨hup, ?_, ?_, ?_, hl₂.setNext_outside hfits.aligned hNup _, ?_, ?_, ?_, ?_⟩
    · exact ⟨hsame₃.1.trans (hsame₂.1.trans hsame₁.1), hsame₃.2.trans (hsame₂.2.trans hsame₁.2)⟩
    · rw [setNext_host, setSize_host, hhost₁]
    · rw [setNext_host, setSize_host, hhost₁]
      exact hbrk'
    · rw [purvaNext_setNext]
      exact h.list.next p hp
    · exact (hf₁.same hsame₂).same hsame₃
    · rw [purvaSize_setNext hfits.aligned hfits.aligned, purvaSize_setSize]
    · intro q hq hqup
      rw [purvaSize_setNext hq hfits.aligned, purvaSize_setSize_ne hq hfits.aligned hqup, hsize₁]

/-- **Growing a tidy heap** leaves a tidy heap, at the answer. -/
theorem purvaMorecore_tidy (ha : ArenaIn s) (h : Tidy s N b) {steps : Nat} {nu : Word}
    (hnu : nu.toNat < 2 ^ 29) {o : State (PurvaRun U) × Word}
    (hm : purvaMorecore steps s nu = some o) (hne : o.2 ≠ 0#32) :
    ∃ N', Tidy o.1 N' b ∧ o.2 = o.1.host.freep := by
  unfold purvaMorecore at hm
  simp only at hm
  have hmore := moreUnits_lt hnu
  generalize (if nu < 4096#32 then 4096#32 else nu) = nu at hmore hm
  have hbytes := units_toNat (w := nu) (by omega)
  split at hm
  · cases hm
    exact absurd rfl hne
  rename_i htop
  rw [hbytes] at htop
  obtain ⟨s', hs', rfl⟩ := Option.map_eq_some_iff.mp hm
  change purvaFree steps (purvaSetSize (setBrk s (s.host.heap_brk + nu * PURVA_HUNIT))
    s.host.heap_brk nu) (s.host.heap_brk + PURVA_HUNIT) = some s' at hs'
  rw [purvaFree_eq, BitVec.add_sub_cancel] at hs'
  obtain ⟨p, hp, rfl⟩ := Option.map_eq_some_iff.mp hs'
  have hfits : BlockIn s s.host.heap_brk nu.toNat := ha.more nu (by omega) hmore.2
  have hlist := (h.list.setBrk (s.host.heap_brk + nu * PURVA_HUNIT)).setSize
    (hfits.same ⟨rfl, rfl⟩)
  have hpN := freeWalk_mem hlist steps hlist.freep hp
  obtain ⟨hfree, hext⟩ := h.appended ha hmore.2 (by omega) rfl hpN
  rw [hfree]
  obtain ⟨N', h'⟩ := h.extended ha.base_le hmore.2 hext hpN
  exact ⟨N', h', rfl⟩

/-! ## The block that `purva__malloc` takes -/

theorem mallocWalk_clears (steps : Nat) {nunits : Word} (hn : 0 < nunits.toNat)
    (hn' : nunits.toNat < 2 ^ 29) (k : Nat) (ha : ArenaIn s) (h : Tidy s N b) {prevp : Word}
    (hprev : N prevp) (hp : N p) {o : State (PurvaRun U) × Word}
    (hw : mallocWalk steps nunits k s prevp p = some o) (hne : o.2 ≠ 0#32) :
    ∃ N' c, o.2 = c + PURVA_HUNIT ∧ Clears o.1 N' b c nunits.toNat := by
  induction k generalizing s N prevp p with
  | zero => cases hw
  | succ k ih =>
    rw [mallocWalk_succ] at hw
    split at hw
    · rename_i hfit
      cases hw
      obtain ⟨c, hc, hclears⟩ := taken_clears h hprev hp hn hfit
      exact ⟨N, c, hc, hclears⟩
    · split at hw
      · unfold grown at hw
        cases hm : purvaMorecore steps s nunits with
        | none =>
          rw [hm] at hw
          cases hw
        | some o' =>
          rw [hm] at hw
          simp only at hw
          split at hw
          · cases hw
            exact absurd rfl hne
          · rename_i hne'
            obtain ⟨N', h', hfreep⟩ := purvaMorecore_tidy ha h hn' hm hne'
            have hlist := h'.list
            rw [hfreep] at hw
            exact ih (ha.grows (purvaMorecore_grows hm)) h' hlist.freep
              (hlist.next _ hlist.freep) hw
      · exact ih ha h hp (h.list.next p hp) hw

theorem purvaMalloc_clears {steps : Nat} (ha : ArenaIn s) (h : Tidy s N b) {n : Word}
    (hn : n.toNat ≤ 0xfffffff0) {o : State (PurvaRun U) × Word}
    (hm : purvaMalloc steps s n = some o) (hne : o.2 ≠ 0#32) :
    ∃ N' c, o.2 = c + PURVA_HUNIT ∧ Clears o.1 N' b c (units n.toNat) := by
  unfold purvaMalloc at hm
  split at hm
  · cases hm
    exact absurd rfl hne
  · have hunits : units n.toNat < 2 ^ 29 ∧ 0 < units n.toNat := by
      unfold units
      omega
    have hnat : (addr (units n.toNat)).toNat = units n.toNat := addr_toNat (by omega)
    rw [units_eq hn] at hm
    have hclears := mallocWalk_clears steps (by omega) (by omega) steps ha h h.list.freep
      (h.list.next _ h.list.freep) hm hne
    rwa [hnat] at hclears

/-! ## The copy -/

/-- A word that a copy does not reach. -/
theorem purvaLd_memmove {k : Nat}
    (h : (purvaArena s p).2 + 4 ≤ (purvaArena s q).2 ∨ (purvaArena s q).2 + k ≤ (purvaArena s p).2)
    (a : Word) : purvaLd (memmove s (purvaArena s q) (purvaArena s a) k) p = purvaLd s p := by
  have hbyte : ∀ i < 4, (memmove s (purvaArena s q) (purvaArena s a) k).byte (purvaArena s p) i =
      s.byte (purvaArena s p) i := by
    intro i hi
    exact if_neg (by omega)
  show ldLe _ (purvaArena s p) 4 = ldLe s (purvaArena s p) 4
  unfold ldLe
  rw [hbyte 0 (by decide), hbyte 1 (by decide), hbyte 2 (by decide), hbyte 3 (by decide)]

/-- The payload of the new block is written, and every header is as it was. -/
theorem Clears.copied (ha : ArenaIn s) {c : Word} {n k : Nat} (h : Clears s N b c n) (hn : 0 < n)
    (hk : k ≤ 8 * (n - 1)) (a : Word) {s' : State (PurvaRun U)}
    (hs : s' = memmove s (purvaArena s (c + PURVA_HUNIT)) (purvaArena s a) k) :
    ListIn s' N ∧ BlockIn s' b (purvaSize s' b).toNat := by
  have hsame : SameBuffer s s' := by
    rw [hs]
    exact ⟨rfl, rfl⟩
  have hhost : s'.host = s.host := by
    rw [hs]
    rfl
  have hbase := h.base
  have htop := h.top
  have hbrk := BitVec.le_def.mp ha.brk_le
  have h8 : PURVA_HUNIT.toNat = 8 := rfl
  have hpay : (c + PURVA_HUNIT).toNat = c.toNat + 8 := by
    rw [BitVec.toNat_add_of_lt (by omega), h8]
  have hpayOff := ha.offset_eq (a := c + PURVA_HUNIT) (by omega) (by omega)
  have hword : ∀ w : Word, s.host.basep.toNat ≤ w.toNat → w.toNat ≤ s.host.heap_top.toNat →
      w.toNat + 4 ≤ c.toNat + 8 ∨ c.toNat + 8 * n ≤ w.toNat → purvaLd s' w = purvaLd s w := by
    intro w hlo hhi hapart
    have hoff := ha.offset_eq hlo hhi
    rw [hs]
    exact purvaLd_memmove (by omega) a
  have hheader : ∀ q, N q ∨ q = b → q.toNat % 8 = 0 →
      purvaNext s' q = purvaNext s q ∧ purvaSize s' q = purvaSize s q := by
    intro q hq h8q
    have hlow := h.low q hq
    have hhigh := h.high q hq
    have hclear := h.clear q hq
    have hsize : (q + 4#32).toNat = q.toNat + 4 := size_word h8q
    exact ⟨hword q hlow (by omega) (by omega), hword (q + 4#32) (by omega) (by omega) (by omega)⟩
  refine ⟨⟨?_, ?_, ?_⟩, ?_⟩
  · rw [hhost]
    exact h.list.freep
  · intro q hq
    rw [(hheader q (.inl hq) (h.list.fits q hq).aligned).1]
    exact h.list.next q hq
  · intro q hq
    rw [(hheader q (.inl hq) (h.list.fits q hq).aligned).2]
    exact (h.list.fits q hq).same hsame
  · rw [(hheader b (.inr rfl) h.block.aligned).2]
    exact h.block.same hsame

/-! ## An intact heap -/

/-- **An intact heap is tidy** around any of its live blocks. -/
theorem HeapInv.tidy {F L : Nat → Prop} (hi : HeapInv s F L) (ha : ArenaIn s) {x : Nat}
    (hx : L x) : Tidy s (Nodes s F) (addr x) := by
  have hplaced : ∀ q, Nodes s F q ∨ q = addr x → ∃ y, ((y = s.host.basep.toNat ∨ F y) ∨ L y) ∧
      q.toNat = y ∧ (purvaSize s q).toNat = sizeAt s y := by
    rintro _ (⟨y, hy, rfl⟩ | rfl)
    · have hyh := (hi.node hy).1
      exact ⟨y, .inl hy, addr_toNat hyh.2, by rw [purvaSize_addr s hyh, addr_toNat (sizeAt_lt s y)]⟩
    · have hxh := (hi.live hx).1
      exact ⟨x, .inr hx, addr_toNat hxh.2, by rw [purvaSize_addr s hxh, addr_toNat (sizeAt_lt s x)]⟩
  refine ⟨hi.listIn ha, hi.blockIn ha (.inr hx), ?_, ?_, ?_⟩
  · intro p hp
    obtain ⟨y, hy, hpy, _⟩ := hplaced p hp
    rw [hpy]
    exact (hi.placed hy).2.1
  · intro p hp
    obtain ⟨y, hy, hpy, hsize⟩ := hplaced p hp
    rw [hpy, hsize]
    exact (hi.placed hy).2.2
  · intro p q hp hq hlt
    obtain ⟨y, hy, rfl⟩ := hp
    obtain ⟨z, hz, hqz, _⟩ := hplaced q hq
    have hyh := (hi.node hy).1
    rw [purvaSize_addr s hyh, addr_toNat (sizeAt_lt s y), addr_toNat hyh.2]
    rw [addr_toNat hyh.2] at hlt
    rcases hy with rfl | hy
    · have hzero := hi.heap.zero
      omega
    · have hlow := hi.heap.tiled.low y (.inl hy)
      rcases hz with (rfl | hz) | hz
      · omega
      · have := hi.heap.tiled.apart y z (.inl hy) (.inl hz) (by omega)
        omega
      · have := hi.heap.tiled.apart y z (.inl hy) (.inr hz) (by omega)
        omega

end

end Purv.Purva

import Mathlib.Logic.Function.Basic

/-!
# An address-ordered free list

Blocks of a memory are known by their addresses, and their sizes are counted in units of eight
bytes.

* `Ring` — the free blocks above a sentinel, linked in address order with one wrap;
* `Tiled` — blocks that cover an interval without overlap;
* `Heap` — both, with no two free blocks adjacent;
* `Heap.release`, `Heap.takeAll`, `Heap.takeTail`, `Heap.grow` — freeing with coalescing on both
  sides, taking a whole free block or the tail of one, and a new block at the end.
-/

namespace FreeList

open Function

/-! ## The ring -/

/-- `y` follows `x` among the addresses in `F`, the last followed by `base`. -/
def Follows (base : Nat) (F : Nat → Prop) (x y : Nat) : Prop :=
  (F y ∧ x < y ∧ ∀ z, F z → x < z → y ≤ z) ∨ (y = base ∧ ∀ z, F z → z ≤ x)

/-- `nx` links `base` and the addresses in `F`, all above it, in order. -/
structure Ring (base : Nat) (F : Nat → Prop) (nx : Nat → Nat) : Prop where
  above : ∀ x, F x → base < x
  next : ∀ x, x = base ∨ F x → Follows base F x (nx x)

section
variable {base : Nat} {F : Nat → Prop} {nx : Nat → Nat}

theorem Ring.base_le (hr : Ring base F nx) {x : Nat} (hx : x = base ∨ F x) : base ≤ x := by
  rcases hx with rfl | hx
  · exact Nat.le_refl _
  · exact Nat.le_of_lt (hr.above x hx)

/-- The next node is a node. -/
theorem Ring.next_node (hr : Ring base F nx) {x : Nat} (hx : x = base ∨ F x) :
    nx x = base ∨ F (nx x) := by
  rcases hr.next x hx with ⟨hy, _, _⟩ | ⟨hy, _⟩
  · exact .inr hy
  · exact .inl hy

/-- Between a node and the next there is no other. -/
theorem Ring.none_between (hr : Ring base F nx) {p z : Nat} (hp : p = base ∨ F p) (hz : F z)
    (hpz : p < z) : F (nx p) ∧ p < nx p ∧ nx p ≤ z := by
  rcases hr.next p hp with ⟨hy, hlt, hmin⟩ | ⟨_, hmax⟩
  · exact ⟨hy, hlt, hmin z hz hpz⟩
  · exact absurd (hmax z hz) (by omega)

/-- A new node `b` goes between `p` and the node after it. -/
theorem Ring.insert (hr : Ring base F nx) {p b : Nat} (hp : p = base ∨ F p) (hpb : p < b)
    (hbq : b < nx p ∨ nx p = base) :
    Ring base (fun x => F x ∨ x = b) (update (update nx b (nx p)) p b) := by
  have hbase := hr.base_le hp
  -- a free address above `p` is above `b`
  have habove : ∀ z, F z → p < z → b < z := by
    intro z hz hpz
    obtain ⟨hq, hlt, hle⟩ := hr.none_between hp hz hpz
    have := hr.above _ hq
    omega
  constructor
  · intro x hx
    rcases hx with hx | rfl
    · exact hr.above x hx
    · omega
  · intro x hx
    by_cases hxp : x = p
    · subst hxp
      rw [update_self]
      refine .inl ⟨.inr rfl, hpb, fun z hz hpz => ?_⟩
      rcases hz with hz | rfl
      · exact Nat.le_of_lt (habove z hz hpz)
      · exact Nat.le_refl _
    rw [update_of_ne hxp]
    by_cases hxb : x = b
    · subst hxb
      rw [update_self]
      rcases hr.next p hp with ⟨hq, hlt, hmin⟩ | ⟨hq, hmax⟩
      · refine .inl ⟨.inl hq, habove _ hq hlt, fun z hz hxz => ?_⟩
        rcases hz with hz | rfl
        · exact hmin z hz (by omega)
        · omega
      · refine .inr ⟨hq, fun z hz => ?_⟩
        rcases hz with hz | rfl
        · have := hmax z hz
          omega
        · exact Nat.le_refl _
    rw [update_of_ne hxb]
    have hx : x = base ∨ F x := by
      rcases hx with hx | hx | hx
      · exact .inl hx
      · exact .inr hx
      · exact absurd hx hxb
    have hxbase := hr.base_le hx
    -- an old node below `b` is below `p`
    have hbelow : x < b → x < p ∧ F p := by
      intro hlt
      have hle : x ≤ p := by
        rcases Nat.lt_or_ge p x with hlt' | hge
        · have hx' : F x := by
            rcases hx with rfl | hx
            · omega
            · exact hx
          have := habove x hx' hlt'
          omega
        · exact hge
      have hlt' : x < p := by omega
      refine ⟨hlt', ?_⟩
      rcases hp with rfl | hp
      · omega
      · exact hp
    rcases hr.next x hx with ⟨hy, hlt, hmin⟩ | ⟨hy, hmax⟩
    · refine .inl ⟨.inl hy, hlt, fun z hz hxz => ?_⟩
      rcases hz with hz | rfl
      · exact hmin z hz hxz
      · obtain ⟨hlt', hF⟩ := hbelow hxz
        have := hmin p hF hlt'
        omega
    · refine .inr ⟨hy, fun z hz => ?_⟩
      rcases hz with hz | rfl
      · exact hmax z hz
      · rcases Nat.lt_or_ge x z with hlt | hge
        · obtain ⟨hlt', hF⟩ := hbelow hlt
          have := hmax p hF
          omega
        · exact hge

/-- The node after `p` goes. -/
theorem Ring.remove (hr : Ring base F nx) {p g : Nat} (hp : p = base ∨ F p) (hg : F g)
    (hn : nx p = g) : Ring base (fun x => F x ∧ x ≠ g) (update nx p (nx g)) := by
  have hgb := hr.above g hg
  have hpg : p < g ∧ ∀ z, F z → p < z → g ≤ z := by
    rcases hr.next p hp with ⟨_, hlt, hmin⟩ | ⟨hy, _⟩
    · rw [hn] at hlt hmin
      exact ⟨hlt, hmin⟩
    · omega
  constructor
  · intro x hx
    exact hr.above x hx.1
  · intro x hx
    by_cases hxp : x = p
    · subst hxp
      rw [update_self]
      rcases hr.next g (.inr hg) with ⟨hy, hlt, hmin⟩ | ⟨hy, hmax⟩
      · refine .inl ⟨⟨hy, by omega⟩, by omega, fun z hz hxz => ?_⟩
        have := hpg.2 z hz.1 hxz
        have := hz.2
        exact hmin z hz.1 (by omega)
      · refine .inr ⟨hy, fun z hz => ?_⟩
        rcases Nat.lt_or_ge x z with hlt | hge
        · have h1 := hpg.2 z hz.1 hlt
          have h2 := hmax z hz.1
          have := hz.2
          omega
        · exact hge
    rw [update_of_ne hxp]
    have hx' : x = base ∨ F x := hx.imp id And.left
    have hxbase := hr.base_le hx'
    have hpbase := hr.base_le hp
    rcases hr.next x hx' with ⟨hy, hlt, hmin⟩ | ⟨hy, hmax⟩
    · refine .inl ⟨⟨hy, fun hyg => ?_⟩, hlt, fun z hz hxz => hmin z hz.1 hxz⟩
      -- `g` follows `p` only
      rw [hyg] at hlt hmin
      rcases Nat.lt_or_ge x p with hlt' | hge
      · rcases hp with rfl | hp
        · omega
        · have := hmin p hp hlt'
          omega
      · rcases hx' with rfl | hx'
        · omega
        · have := hpg.2 x hx' (by omega)
          omega
    · exact .inr ⟨hy, fun z hz => hmax z hz.1⟩

end

/-! ## The tiling -/

/-- The blocks at the addresses in `B` tile `[base + 8, brk)`. -/
structure Tiled (base brk : Nat) (sz : Nat → Nat) (B : Nat → Prop) : Prop where
  room : base + 8 ≤ brk
  pos : ∀ b, B b → 0 < sz b
  low : ∀ b, B b → base + 8 ≤ b
  high : ∀ b, B b → b + 8 * sz b ≤ brk
  apart : ∀ b c, B b → B c → b < c → b + 8 * sz b ≤ c
  cover : ∀ x, base + 8 ≤ x → x < brk → ∃ b, B b ∧ b ≤ x ∧ x < b + 8 * sz b
  aligned : ∀ b, B b → b % 8 = base % 8
  brk_aligned : brk % 8 = base % 8

section
variable {base brk : Nat} {sz : Nat → Nat} {B : Nat → Prop}

theorem Tiled.congr (ht : Tiled base brk sz B) {B' : Nat → Prop} (hB : ∀ x, B' x ↔ B x) :
    Tiled base brk sz B' := by
  have : B' = B := funext fun x => propext (hB x)
  rwa [this]

/-- Two blocks in a row become one. -/
theorem Tiled.merge (ht : Tiled base brk sz B) {b c : Nat} (hb : B b) (hc : B c)
    (hbc : b + 8 * sz b = c) :
    Tiled base brk (update sz b (sz b + sz c)) (fun x => B x ∧ x ≠ c) := by
  have hpos := ht.pos b hb
  have hne : ∀ x, x ≠ b → update sz b (sz b + sz c) x = sz x := fun x hx => update_of_ne hx _ _
  have hself : update sz b (sz b + sz c) b = sz b + sz c := update_self _ _ _
  constructor
  · exact ht.room
  · intro x hx
    by_cases hxb : x = b
    · rw [hxb, hself]
      omega
    · rw [hne x hxb]
      exact ht.pos x hx.1
  · intro x hx
    exact ht.low x hx.1
  · intro x hx
    by_cases hxb : x = b
    · rw [hxb, hself]
      have := ht.high c hc
      omega
    · rw [hne x hxb]
      exact ht.high x hx.1
  · intro x y hx hy hxy
    by_cases hxb : x = b
    · rw [hxb, hself]
      have h1 := ht.apart b y hb hy.1 (by omega)
      have h2 := hy.2
      have h3 := ht.apart c y hc hy.1 (by omega)
      omega
    · rw [hne x hxb]
      exact ht.apart x y hx.1 hy.1 hxy
  · intro x hlo hhi
    obtain ⟨d, hd, hdx, hxd⟩ := ht.cover x hlo hhi
    by_cases hdc : d = c
    · subst hdc
      refine ⟨b, ⟨hb, by omega⟩, by omega, ?_⟩
      rw [hself]
      omega
    · refine ⟨d, ⟨hd, hdc⟩, hdx, ?_⟩
      by_cases hdb : d = b
      · subst hdb
        rw [hself]
        omega
      · rwa [hne d hdb]
  · intro x hx
    exact ht.aligned x hx.1
  · exact ht.brk_aligned

/-- The last `n` units of a block become one of their own. -/
theorem Tiled.split (ht : Tiled base brk sz B) {g n c : Nat} (hg : B g) (hn : 0 < n)
    (hlt : n < sz g) (hc : c = g + 8 * (sz g - n)) :
    Tiled base brk (update (update sz g (sz g - n)) c n) (fun x => B x ∨ x = c) ∧ ¬ B c := by
  have hhigh := ht.high g hg
  have hlow := ht.low g hg
  have hgc : g < c := by omega
  have hnB : ¬ B c := by
    intro hB
    have := ht.apart g c hg hB hgc
    omega
  have hself : update (update sz g (sz g - n)) c n c = n := update_self _ _ _
  have hsg : update (update sz g (sz g - n)) c n g = sz g - n := by
    rw [update_of_ne (by omega), update_self]
  have hne : ∀ x, B x → x ≠ g → update (update sz g (sz g - n)) c n x = sz x := by
    intro x hx hxg
    have hxc : x ≠ c := by
      rintro rfl
      exact hnB hx
    rw [update_of_ne hxc, update_of_ne hxg]
  refine ⟨?_, hnB⟩
  constructor
  · exact ht.room
  · intro x hx
    rcases hx with hx | rfl
    · by_cases hxg : x = g
      · rw [hxg, hsg]
        omega
      · rw [hne x hx hxg]
        exact ht.pos x hx
    · rw [hself]
      exact hn
  · intro x hx
    rcases hx with hx | rfl
    · exact ht.low x hx
    · omega
  · intro x hx
    rcases hx with hx | rfl
    · by_cases hxg : x = g
      · rw [hxg, hsg]
        omega
      · rw [hne x hx hxg]
        exact ht.high x hx
    · rw [hself]
      omega
  · intro x y hx hy hxy
    rcases hx with hx | rfl
    · by_cases hxg : x = g
      · subst hxg
        rw [hsg]
        rcases hy with hy | rfl
        · have := ht.apart x y hx hy hxy
          omega
        · omega
      · rw [hne x hx hxg]
        rcases hy with hy | rfl
        · exact ht.apart x y hx hy hxy
        · rcases Nat.lt_or_ge x g with hxg' | hxg'
          · have := ht.apart x g hx hg hxg'
            omega
          · have := ht.apart g x hg hx (by omega)
            omega
    · rw [hself]
      rcases hy with hy | rfl
      · have := ht.apart g y hg hy (by omega)
        omega
      · omega
  · intro x hlo hhi
    obtain ⟨d, hd, hdx, hxd⟩ := ht.cover x hlo hhi
    by_cases hdg : d = g
    · subst hdg
      rcases Nat.lt_or_ge x c with hxc | hxc
      · refine ⟨d, .inl hd, hdx, ?_⟩
        rw [hsg]
        omega
      · refine ⟨c, .inr rfl, hxc, ?_⟩
        rw [hself]
        omega
    · refine ⟨d, .inl hd, hdx, ?_⟩
      rwa [hne d hd hdg]
  · intro x hx
    rcases hx with hx | rfl
    · exact ht.aligned x hx
    · have := ht.aligned g hg
      omega
  · exact ht.brk_aligned

/-- A block of `n` units at the end. -/
theorem Tiled.grow (ht : Tiled base brk sz B) {n : Nat} (hn : 0 < n) :
    Tiled base (brk + 8 * n) (update sz brk n) (fun x => B x ∨ x = brk) ∧ ¬ B brk := by
  have hroom := ht.room
  have hnB : ¬ B brk := by
    intro hB
    have := ht.high brk hB
    have := ht.pos brk hB
    omega
  have hself : update sz brk n brk = n := update_self _ _ _
  have hne : ∀ x, B x → update sz brk n x = sz x := by
    intro x hx
    have hxc : x ≠ brk := by
      rintro rfl
      exact hnB hx
    exact update_of_ne hxc _ _
  refine ⟨?_, hnB⟩
  constructor
  · omega
  · intro x hx
    rcases hx with hx | rfl
    · rw [hne x hx]
      exact ht.pos x hx
    · rw [hself]
      exact hn
  · intro x hx
    rcases hx with hx | rfl
    · exact ht.low x hx
    · exact hroom
  · intro x hx
    rcases hx with hx | rfl
    · rw [hne x hx]
      have := ht.high x hx
      omega
    · exact Nat.le_of_eq (by rw [hself])
  · intro x y hx hy hxy
    rcases hx with hx | rfl
    · rw [hne x hx]
      rcases hy with hy | rfl
      · exact ht.apart x y hx hy hxy
      · exact ht.high x hx
    · rcases hy with hy | rfl
      · have := ht.high y hy
        omega
      · omega
  · intro x hlo hhi
    rcases Nat.lt_or_ge x brk with hxb | hxb
    · obtain ⟨d, hd, hdx, hxd⟩ := ht.cover x hlo hxb
      exact ⟨d, .inl hd, hdx, by rwa [hne d hd]⟩
    · exact ⟨brk, .inr rfl, hxb, by rw [hself]; omega⟩
  · intro x hx
    rcases hx with hx | rfl
    · exact ht.aligned x hx
    · exact ht.brk_aligned
  · have := ht.brk_aligned
    omega

end

/-! ## The heap -/

/-- Free blocks `F`, linked, and live blocks `L` tile the interval; the sentinel is empty. -/
structure Linked (base brk : Nat) (nx sz : Nat → Nat) (F L : Nat → Prop) : Prop where
  ring : Ring base F nx
  tiled : Tiled base brk sz (fun x => F x ∨ L x)
  disjoint : ∀ x, F x → ¬ L x
  zero : sz base = 0

/-- No two free blocks are adjacent either. -/
structure Heap (base brk : Nat) (nx sz : Nat → Nat) (F L : Nat → Prop) : Prop extends
    Linked base brk nx sz F L where
  gaps : ∀ x y, F x → F y → x + 8 * sz x ≠ y

section
variable {base brk : Nat} {nx sz : Nat → Nat} {F L : Nat → Prop}

/-- A live block becomes a free one. -/
theorem Linked.insert (hl : Linked base brk nx sz F L) {p b : Nat} (hp : p = base ∨ F p)
    (hb : L b) (hpb : p < b) (hbq : b < nx p ∨ nx p = base) :
    Linked base brk (update (update nx b (nx p)) p b) sz (fun x => F x ∨ x = b)
      (fun x => L x ∧ x ≠ b) where
  ring := hl.ring.insert hp hpb hbq
  tiled := by
    refine hl.tiled.congr fun x => ?_
    by_cases hx : x = b
    · simp [hx, hb]
    · simp [hx]
  disjoint := by
    rintro x (hx | hx) ⟨hL, hne⟩
    · exact hl.disjoint x hx hL
    · exact hne hx
  zero := hl.zero

/-- Two free blocks in a row become one. -/
theorem Linked.merge (hl : Linked base brk nx sz F L) {b c : Nat} (hb : F b) (hc : F c)
    (hn : nx b = c) (hbc : b + 8 * sz b = c) :
    Linked base brk (update nx b (nx c)) (update sz b (sz b + sz c)) (fun x => F x ∧ x ≠ c) L where
  ring := hl.ring.remove (.inr hb) hc hn
  tiled := by
    refine (hl.tiled.merge (.inl hb) (.inl hc) hbc).congr fun x => ?_
    constructor
    · rintro (⟨hx, hne⟩ | hx)
      · exact ⟨.inl hx, hne⟩
      · refine ⟨.inr hx, ?_⟩
        rintro rfl
        exact hl.disjoint x hc hx
    · rintro ⟨hx | hx, hne⟩
      · exact .inl ⟨hx, hne⟩
      · exact .inr hx
  disjoint := fun x hx => hl.disjoint x hx.1
  zero := by
    have := hl.ring.above b hb
    rw [update_of_ne (by omega)]
    exact hl.zero

/-- The empty heap: the sentinel alone. -/
theorem Heap.empty (hn : nx base = base) (hz : sz base = 0) :
    Heap base (base + 8) nx sz (fun _ => False) (fun _ => False) where
  ring := by
    refine ⟨fun _ h => h.elim, fun x hx => .inr ⟨?_, fun _ h => h.elim⟩⟩
    rcases hx with rfl | h
    · exact hn
    · exact h.elim
  tiled := by
    have hno : ∀ x : Nat, ¬ (False ∨ False) := fun _ h => h.elim id id
    exact ⟨Nat.le_refl _, fun b h => (hno b h).elim, fun b h => (hno b h).elim,
      fun b h => (hno b h).elim, fun b _ h => (hno b h).elim, fun x hlo hhi => by omega,
      fun b h => (hno b h).elim, by omega⟩
  disjoint := fun _ h => h.elim
  zero := hz
  gaps := fun _ _ h => h.elim

/-- Only the headers matter. -/
theorem Heap.congr (hh : Heap base brk nx sz F L) {nx' sz' : Nat → Nat}
    (hnx : ∀ x, x = base ∨ F x → nx' x = nx x)
    (hsz : ∀ x, x = base ∨ F x ∨ L x → sz' x = sz x) : Heap base brk nx' sz' F L where
  ring := by
    refine ⟨hh.ring.above, fun x hx => ?_⟩
    rw [hnx x hx]
    exact hh.ring.next x hx
  tiled := by
    have hs : ∀ x, F x ∨ L x → sz' x = sz x := fun x hx => hsz x (.inr hx)
    constructor
    · exact hh.tiled.room
    · intro b hb
      rw [hs b hb]
      exact hh.tiled.pos b hb
    · exact hh.tiled.low
    · intro b hb
      rw [hs b hb]
      exact hh.tiled.high b hb
    · intro b c hb hc hbc
      rw [hs b hb]
      exact hh.tiled.apart b c hb hc hbc
    · intro x hlo hhi
      obtain ⟨b, hb, hbx, hxb⟩ := hh.tiled.cover x hlo hhi
      exact ⟨b, hb, hbx, by rwa [hs b hb]⟩
    · exact hh.tiled.aligned
    · exact hh.tiled.brk_aligned
  disjoint := hh.disjoint
  zero := (hsz base (.inl rfl)).trans hh.zero
  gaps := fun x y hx hy => by
    rw [hsz x (.inr (.inl hx))]
    exact hh.gaps x y hx hy

/-- What freeing `b` after the node `p` makes of the links and the sizes. -/
def joinNext (nx sz : Nat → Nat) (p b : Nat) : (Nat → Nat) × (Nat → Nat) :=
  if b + 8 * sz b = nx p then (update nx b (nx (nx p)), update sz b (sz b + sz (nx p)))
  else (update nx b (nx p), sz)

/-- And of those, when the node before is told. -/
def joinPrev (nx sz : Nat → Nat) (p b : Nat) : (Nat → Nat) × (Nat → Nat) :=
  if p + 8 * sz p = b then (update nx p (nx b), update sz p (sz p + sz b))
  else (update nx p b, sz)

/-- Where a block goes: after the node `p`, and before the next one. -/
structure Place (base : Nat) (nx : Nat → Nat) (F : Nat → Prop) (b p : Nat) : Prop where
  node : p = base ∨ F p
  lt : p < b
  next : b < nx p ∨ nx p = base

/-- The place of a block above all nodes is the last of them. -/
theorem Place.last {b p : Nat} (hp : Place base nx F b p) (hr : Ring base F nx)
    (hb : ∀ x, F x → x + 8 ≤ b) : ∀ x, F x → x ≤ p := by
  intro x hx
  rcases hr.next p hp.node with ⟨hF, hlt, hmin⟩ | ⟨-, hmax⟩
  · have hbase := hr.base_le hp.node
    have hhigh := hb _ hF
    rcases hp.next with h | h
    · omega
    · omega
  · exact hmax x hx

/-- Freeing up to the node before: at most it and the block are adjacent. -/
theorem Heap.joinNext (hh : Heap base brk nx sz F L) {p b : Nat} (hb : L b)
    (hp : Place base nx F b p) :
    ∃ F', Linked base brk (update (FreeList.joinNext nx sz p b).1 p b)
        (FreeList.joinNext nx sz p b).2 F' (fun x => L x ∧ x ≠ b) ∧
      F' b ∧ (p = base ∨ F' p) ∧
      (∀ x y, F' x → F' y → x + 8 * (FreeList.joinNext nx sz p b).2 x = y → x = p ∧ y = b) ∧
      (∀ x, x ≠ b → (FreeList.joinNext nx sz p b).2 x = sz x) ∧
      sz b ≤ (FreeList.joinNext nx sz p b).2 b := by
  have hl := hh.toLinked.insert hp.node hb hp.lt hp.next
  have hpb := hp.lt
  have hbF : ¬ F b := fun hF => hh.disjoint b hF hb
  have hlow := hh.tiled.low b (.inr hb)
  have hpos := hh.tiled.pos b (.inr hb)
  -- only `p` can end at `b`
  have hprev : ∀ x, F x → x + 8 * sz x = b → x = p := by
    intro x hx hxb
    have hxpos := hh.tiled.pos x (.inl hx)
    rcases Nat.lt_trichotomy x p with hlt | rfl | hlt
    · have hbase := hh.ring.above x hx
      rcases hp.node with hp' | hp'
      · omega
      · have := hh.tiled.apart x p (.inl hx) (.inl hp') hlt
        omega
    · rfl
    · obtain ⟨hq, _, hle⟩ := hh.ring.none_between hp.node hx hlt
      have := hh.ring.above _ hq
      rcases hp.next with hn | hn <;> omega
  unfold FreeList.joinNext
  by_cases hq : b + 8 * sz b = nx p
  · have hqF : F (nx p) := by
      rcases hh.ring.next_node hp.node with hbase | hF
      · omega
      · exact hF
    have hqp : nx p ≠ p := by omega
    have hqb : nx p ≠ b := by omega
    rw [if_pos hq]
    have hm := hl.merge (b := b) (c := nx p) (.inr rfl) (.inl hqF)
      (by rw [update_of_ne (by omega), update_self]) hq
    rw [update_of_ne hqp, update_of_ne hqb, update_comm (show p ≠ b by omega),
      update_idem] at hm
    refine ⟨_, hm, ⟨.inr rfl, by omega⟩, ?_, ?_, fun x hx => update_of_ne hx _ _, ?_⟩
    case refine_3 =>
      simp only [update_self]
      omega
    · rcases hp.node with hbase | hF
      · exact .inl hbase
      · exact .inr ⟨.inl hF, fun h => hqp h.symm⟩
    · rintro x y ⟨hx, hxq⟩ ⟨hy, hyq⟩ hxy
      rcases hx with hx | rfl
      · have hxb : x ≠ b := by
          rintro rfl
          exact hbF hx
        simp only [update_of_ne hxb] at hxy
        rcases hy with hy | rfl
        · exact absurd hxy (hh.gaps x y hx hy)
        · exact ⟨hprev x hx hxy, rfl⟩
      · simp only [update_self] at hxy
        rcases hy with hy | rfl
        · exact absurd (by omega) (hh.gaps (nx p) y hqF hy)
        · omega
  · rw [if_neg hq]
    refine ⟨_, hl, .inr rfl, hp.node.imp id .inl, ?_, fun _ _ => rfl, Nat.le_refl _⟩
    intro x y hx hy hxy
    simp only at hxy
    rcases hx with hx | rfl
    · rcases hy with hy | rfl
      · exact absurd hxy (hh.gaps x y hx hy)
      · exact ⟨hprev x hx hxy, rfl⟩
    · rcases hy with hy | rfl
      · obtain ⟨hqF, hlt, hle⟩ := hh.ring.none_between hp.node hy (by omega)
        have hqb := hh.ring.above _ hqF
        have := hh.tiled.apart x (nx p) (.inr hb) (.inl hqF) (by rcases hp.next with h | h <;> omega)
        omega
      · omega

/-- **Freeing keeps the heap**, and every other live block its size; what was freed is part of the
block at the node before, or of the one after it. -/
theorem Heap.release (hh : Heap base brk nx sz F L) {p b : Nat} (hb : L b)
    (hp : Place base nx F b p) {m : (Nat → Nat) × (Nat → Nat)}
    (hm : FreeList.joinNext nx sz p b = m) :
    ∃ F', Heap base brk (joinPrev m.1 m.2 p b).1 (joinPrev m.1 m.2 p b).2 F'
        (fun x => L x ∧ x ≠ b) ∧ (p = base ∨ F' p) ∧
      (∀ x, L x → x ≠ b → (joinPrev m.1 m.2 p b).2 x = sz x) ∧
      ∃ g, F' g ∧ (g = p ∨ (joinPrev m.1 m.2 p b).1 p = g) ∧
        sz b ≤ (joinPrev m.1 m.2 p b).2 g := by
  obtain ⟨F', hl, hFb, hFp, hgaps, hsz, hle⟩ := hh.joinNext hb hp
  rw [hm] at hl hgaps hsz hle
  have hpb := hp.lt
  have hLp : ¬ L p := by
    intro hL
    rcases hp.node with hbase | hF
    · have := hh.tiled.low p (.inr hL)
      omega
    · exact hh.disjoint p hF hL
  unfold joinPrev
  by_cases hj : p + 8 * m.2 p = b
  · rw [if_pos hj]
    have hpF : F' p := by
      rcases hFp with hbase | hF
      · have := hsz p (by omega)
        have := hh.zero
        rw [← hbase] at this
        omega
      · exact hF
    have hmm := hl.merge hpF hFb (update_self _ _ _) hj
    rw [update_of_ne (by omega), update_idem] at hmm
    refine ⟨_, ⟨hmm, ?_⟩, .inr ⟨hpF, by omega⟩, fun x hx hxb => ?_, p, ⟨hpF, by omega⟩,
      .inl rfl, ?_⟩
    case refine_3 =>
      simp only [update_self]
      omega
    · rintro x y ⟨hx, hxb⟩ ⟨hy, hyb⟩ hxy
      simp only at hxy
      by_cases hxp : x = p
      · subst hxp
        rw [update_self] at hxy
        have := hgaps b y hFb hy (by omega)
        omega
      · rw [update_of_ne hxp] at hxy
        exact hxp (hgaps x y hx hy hxy).1
    · have hxp : x ≠ p := by
        rintro rfl
        exact hLp hx
      exact (update_of_ne hxp _ _).trans (hsz x hxb)
  · rw [if_neg hj]
    refine ⟨F', ⟨hl, ?_⟩, hFp, fun x _ hxb => hsz x hxb, b, hFb, .inr (update_self _ _ _), hle⟩
    intro x y hx hy hxy
    obtain ⟨rfl, rfl⟩ := hgaps x y hx hy hxy
    exact hj hxy

/-- **Taking a whole free block keeps the heap.** -/
theorem Heap.takeAll (hh : Heap base brk nx sz F L) {p g : Nat} (hp : p = base ∨ F p) (hg : F g)
    (hn : nx p = g) :
    Heap base brk (update nx p (nx g)) sz (fun x => F x ∧ x ≠ g) (fun x => L x ∨ x = g) where
  ring := hh.ring.remove hp hg hn
  tiled := by
    refine hh.tiled.congr fun x => ?_
    by_cases hx : x = g
    · simp [hx, hg]
    · simp [hx]
  disjoint := by
    rintro x ⟨hx, hne⟩ (hL | hxg)
    · exact hh.disjoint x hx hL
    · exact hne hxg
  zero := hh.zero
  gaps := fun x y hx hy => hh.gaps x y hx.1 hy.1

/-- **Taking the tail of a free block keeps the heap.** -/
theorem Heap.takeTail (hh : Heap base brk nx sz F L) {g n c : Nat} (hg : F g) (hn : 0 < n)
    (hlt : n < sz g) (hc : c = g + 8 * (sz g - n)) :
    Heap base brk nx (update (update sz g (sz g - n)) c n) F (fun x => L x ∨ x = c) ∧
      ¬ (F c ∨ L c) := by
  obtain ⟨ht, hnB⟩ := hh.tiled.split (.inl hg) hn hlt hc
  have hgb := hh.ring.above g hg
  refine ⟨⟨⟨hh.ring, ?_, ?_, ?_⟩, ?_⟩, hnB⟩
  · exact ht.congr fun x => or_assoc.symm
  · rintro x hx (hL | rfl)
    · exact hh.disjoint x hx hL
    · exact hnB (.inl hx)
  · rw [update_of_ne (by omega), update_of_ne (by omega)]
    exact hh.zero
  · intro x y hx hy hxy
    have hxc : x ≠ c := by
      rintro rfl
      exact hnB (.inl hx)
    rw [update_of_ne hxc] at hxy
    by_cases hxg : x = g
    · subst hxg
      rw [update_self] at hxy
      have hyc : y = c := by omega
      exact hnB (.inl (hyc ▸ hy))
    · rw [update_of_ne hxg] at hxy
      exact hh.gaps x y hx hy hxy

/-- **A new live block at the end keeps the heap.** -/
theorem Heap.grow (hh : Heap base brk nx sz F L) {n : Nat} (hn : 0 < n) :
    Heap base (brk + 8 * n) nx (update sz brk n) F (fun x => L x ∨ x = brk) ∧
      ¬ (F brk ∨ L brk) := by
  obtain ⟨ht, hnB⟩ := hh.tiled.grow hn
  have hroom := hh.tiled.room
  refine ⟨⟨⟨hh.ring, ?_, ?_, ?_⟩, ?_⟩, hnB⟩
  · exact ht.congr fun x => or_assoc.symm
  · rintro x hx (hL | rfl)
    · exact hh.disjoint x hx hL
    · exact hnB (.inl hx)
  · rw [update_of_ne (by omega)]
    exact hh.zero
  · intro x y hx hy hxy
    have hxc : x ≠ brk := by
      rintro rfl
      exact hnB (.inl hx)
    rw [update_of_ne hxc] at hxy
    exact hh.gaps x y hx hy hxy

end

end FreeList

import Purv.GdbStub
import Mathlib.Data.Finset.Card
import Mathlib.Data.Finset.Image

/-!
# The breakpoint packets of the gdb stub (`gdbstub.c`)

* `parseHex`, `breakpointPacket` — a `Z` or `z` packet;
* `wanted` — the addresses inserted and not since removed;
* `Table` — the table holds a set, each address once;
* `breakpoints_follow` — the table is the set exactly as long as the set fits it.
-/

namespace Purv.Gdb

open Function

variable {H : Type}

/-- The loop of `parse_hex` from `p` on, over at most `fuel` digits. -/
def parseHexFrom (buf : Nat → Byte) : Nat → Nat → Word → Word × Nat
  | 0, p, v => (v, p)
  | fuel + 1, p, v =>
    if isHex (buf p) then parseHexFrom buf fuel (p + 1) (v <<< 4 ||| hexval (buf p)) else (v, p)

/-- `parse_hex` from `p` on: the value, and where it ends.  The `NUL` at `n` is no digit. -/
def parseHex (buf : Nat → Byte) (n p : Nat) : Word × Nat := parseHexFrom buf (n + 1 - p) p 0#32

/-- `if (*p == c) p++`. -/
def skip (buf : Nat → Byte) (c : Byte) (p : Nat) : Nat := if buf p = c then p + 1 else p

/-- The address of a `Z` or `z` packet. -/
def breakpointAddr (buf : Nat → Byte) (n : Nat) : Word := (parseHex buf n (skip buf 0x2c#8 2)).1

/-- `OK`. -/
def OK : List Byte := [0x4f#8, 0x4b#8]

/-- The packet is about software or hardware breakpoints. -/
def aboutBreakpoints (buf : Nat → Byte) : Bool := buf 1 = 0x30#8 ∨ buf 1 = 0x31#8

/-- A `Z` or `z` packet, with its reply. -/
def breakpointPacket (g : Stub) (buf : Nat → Byte) (n : Nat) : Stub × List Byte :=
  if aboutBreakpoints buf = false then (g, [])
  else if buf 0 = 0x5a#8 then (bpAdd g (breakpointAddr buf n), OK)
  else (bpDel g (breakpointAddr buf n), OK)

/-- A packet: the buffer, and how much of it is the packet. -/
abbrev Body := (Nat → Byte) × Nat

/-- The stub after the packets. -/
def afterPackets (g : Stub) (ps : List Body) : Stub :=
  ps.foldl (fun g p => (breakpointPacket g p.1 p.2).1) g

/-- The set after a packet. -/
def wantedAfter (S : Finset Word) (p : Body) : Finset Word :=
  if aboutBreakpoints p.1 = false then S
  else if p.1 0 = 0x5a#8 then insert (breakpointAddr p.1 p.2) S
  else S.erase (breakpointAddr p.1 p.2)

/-- The addresses inserted and not since removed. -/
def wanted (ps : List Body) : Finset Word := ps.foldl wantedAfter ∅

/-! ## The table -/

theorem bpHit_iff (g : Stub) (a : Word) : bpHit g a ↔ ∃ i < g.g_nbp, g.g_bp i = a := by
  simp [bpHit]

/-- The table holds `S`, each address once. -/
structure Table (g : Stub) (S : Finset Word) : Prop where
  holds : S = (Finset.range g.g_nbp).image g.g_bp
  once : ∀ i < g.g_nbp, ∀ j < g.g_nbp, g.g_bp i = g.g_bp j → i = j

theorem Table.hit {g : Stub} {S : Finset Word} (ht : Table g S) (a : Word) :
    bpHit g a ↔ a ∈ S := by
  rw [bpHit_iff, ht.holds]
  simp

theorem Table.card {g : Stub} {S : Finset Word} (ht : Table g S) : S.card = g.g_nbp := by
  have hinj : Set.InjOn g.g_bp (Finset.range g.g_nbp) := by
    intro i hi j hj hij
    simp only [Finset.coe_range, Set.mem_Iio] at hi hj
    exact ht.once i hi j hj hij
  rw [ht.holds, Finset.card_image_of_injOn hinj, Finset.card_range]

/-- An insertion into a table that has the address or room for it. -/
theorem Table.add {g : Stub} {S : Finset Word} (ht : Table g S) {a : Word}
    (hroom : (insert a S).card ≤ GDB_MAX_BP) : Table (bpAdd g a) (insert a S) := by
  unfold bpAdd
  by_cases hhit : bpHit g a
  · rw [if_pos (.inl hhit), Finset.insert_eq_self.mpr ((ht.hit a).mp hhit)]
    exact ht
  · have hnew : a ∉ S := fun h => hhit ((ht.hit a).mpr h)
    rw [Finset.card_insert_of_notMem hnew, ht.card] at hroom
    have hfresh : ∀ i < g.g_nbp, g.g_bp i ≠ a := by
      intro i hi h
      exact hhit ((bpHit_iff g a).mpr ⟨i, hi, h⟩)
    rw [if_neg (by rintro (h | h); exacts [hhit h, absurd hroom (by omega)])]
    constructor
    · rw [ht.holds]
      simp only [Finset.range_add_one, Finset.image_insert, update_self]
      congr 1
      apply Finset.image_congr
      intro i hi
      simp only [Finset.coe_range, Set.mem_Iio] at hi
      exact (update_of_ne (by omega) _ _).symm
    · intro i hi j hj hij
      simp only at hi hj hij
      rcases Nat.lt_or_eq_of_le (Nat.le_of_lt_succ hi) with hi | rfl
      · rcases Nat.lt_or_eq_of_le (Nat.le_of_lt_succ hj) with hj | rfl
        · rw [update_of_ne (by omega), update_of_ne (by omega)] at hij
          exact ht.once i hi j hj hij
        · rw [update_of_ne (by omega), update_self] at hij
          exact absurd hij (hfresh i hi)
      · rcases Nat.lt_or_eq_of_le (Nat.le_of_lt_succ hj) with hj | rfl
        · rw [update_self, update_of_ne (by omega)] at hij
          exact absurd hij.symm (hfresh j hj)
        · rfl

/-- A removal, by which the last entry moves. -/
theorem Table.del {g : Stub} {S : Finset Word} (ht : Table g S) (a : Word) :
    Table (bpDel g a) (S.erase a) := by
  unfold bpDel
  cases hf : (List.range g.g_nbp).find? fun i => g.g_bp i == a with
  | none =>
    have hnot : a ∉ S := by
      intro h
      obtain ⟨i, hi, hia⟩ := (bpHit_iff g a).mp ((ht.hit a).mpr h)
      have := List.find?_eq_none.mp hf i (List.mem_range.mpr hi)
      simp [hia] at this
    rw [Finset.erase_eq_of_notMem hnot]
    exact ht
  | some i =>
    have hi : i < g.g_nbp := List.mem_range.mp (List.mem_of_find?_eq_some hf)
    have hia : g.g_bp i = a := by
      have := List.find?_some hf
      simpa using this
    -- the entries after the removal, by where they were
    have hentry : ∀ j < g.g_nbp - 1, ∃ k < g.g_nbp, k ≠ i ∧
        update g.g_bp i (g.g_bp (g.g_nbp - 1)) j = g.g_bp k ∧
        (k = j ∨ (j = i ∧ k = g.g_nbp - 1)) := by
      intro j hj
      by_cases hji : j = i
      · rw [hji, update_self]
        exact ⟨g.g_nbp - 1, by omega, by omega, rfl, .inr ⟨rfl, rfl⟩⟩
      · rw [update_of_ne hji]
        exact ⟨j, by omega, hji, rfl, .inl rfl⟩
    constructor
    · apply Finset.ext
      intro b
      simp only [Finset.mem_erase, ht.holds, Finset.mem_image, Finset.mem_range]
      constructor
      · rintro ⟨hba, k, hk, hkb⟩
        have hki : k ≠ i := by
          rintro rfl
          exact hba (hkb.symm.trans hia)
        by_cases hlast : k = g.g_nbp - 1
        · exact ⟨i, by omega, by rw [update_self, ← hlast]; exact hkb⟩
        · exact ⟨k, by omega, by rw [update_of_ne hki]; exact hkb⟩
      · rintro ⟨j, hj, hjb⟩
        obtain ⟨k, hk, hki, hjk, _⟩ := hentry j hj
        rw [hjk] at hjb
        refine ⟨?_, k, hk, hjb⟩
        intro hba
        exact hki (ht.once k hk i hi (hjb.trans (hba.trans hia.symm)))
    · intro j hj j' hj' heq
      obtain ⟨k, hk, hki, hjk, hor⟩ := hentry j hj
      obtain ⟨k', hk', hki', hjk', hor'⟩ := hentry j' hj'
      simp only at heq hj hj'
      rw [hjk, hjk'] at heq
      have := ht.once k hk k' hk' heq
      omega

/-- **One packet**, with a set after it that fits the table. -/
theorem Table.packet {g : Stub} {S : Finset Word} (ht : Table g S) (p : Body)
    (hroom : (wantedAfter S p).card ≤ GDB_MAX_BP) :
    Table (breakpointPacket g p.1 p.2).1 (wantedAfter S p) := by
  unfold breakpointPacket wantedAfter at *
  split
  · exact ht
  · rename_i hb
    rw [if_neg hb] at hroom
    split
    · rename_i hz
      rw [if_pos hz] at hroom
      exact ht.add hroom
    · exact ht.del _

/-! ## Over all packets -/

/-- `bp_hit` is membership. -/
def Follows (g : Stub) (S : Finset Word) : Prop := ∀ a, bpHit g a ↔ a ∈ S

/-- A continue stops with `STOP_TRAP` at the first pc after at least one step that is in `S`, unless
the program ends or gdb interrupts before. -/
def StopsIn (H : Type) (g : Stub) (S : Finset Word) : Prop :=
  ∀ (h : Hooks H) (halted : H → Bool) (interrupt : Nat → Bool) (fuel : Nat) (r : Run H) (g' : Stub)
    (r' : Run H),
    gdbRun h halted interrupt true fuel 0 g r = some (g', r', .trap) ↔
      ∃ k < fuel, steps h (k + 1) g r = (g', r') ∧ r'.s.pc ∈ S ∧ halted r'.s.host = false ∧
        ∀ j < k, (steps h (j + 1) g r).2.s.pc ∉ S ∧
          halted (steps h (j + 1) g r).2.s.host = false ∧
          ¬ ((j + 1) % 1024 = 0 ∧ interrupt (j + 1))

theorem Follows.stopsIn {g : Stub} {S : Finset Word} (hf : Follows g S) : StopsIn H g S := by
  intro h halted interrupt fuel r g' r'
  rw [gdbRun_iff]
  have htrap : ∀ (t k : Nat), outcome halted interrupt true t (steps h k g r).1
      (steps h k g r).2.s = some .trap ↔
      (steps h k g r).2.s.pc ∈ S ∧ halted (steps h k g r).2.s.host = false := by
    intro t k
    rw [outcome_trap, steps_bp, hf, and_comm]
  have hnone : ∀ (t k : Nat), outcome halted interrupt true t (steps h k g r).1
      (steps h k g r).2.s = none ↔
      (steps h k g r).2.s.pc ∉ S ∧ halted (steps h k g r).2.s.host = false ∧
        ¬ (t % 1024 = 0 ∧ interrupt t) := by
    intro t k
    rw [outcome_none, steps_bp, ← Bool.not_eq_true (bpHit g _), hf, and_left_comm]
  constructor
  · rintro ⟨k, hk, hst, ho, hj⟩
    have h1 := htrap (0 + k + 1) (k + 1)
    rw [hst] at h1
    obtain ⟨hpc, hhalt⟩ := h1.mp ho
    refine ⟨k, hk, hst, hpc, hhalt, ?_⟩
    intro j hjk
    have h2 := (hnone (0 + j + 1) (j + 1)).mp (hj j hjk)
    rwa [Nat.zero_add] at h2
  · rintro ⟨k, hk, hst, hpc, hhalt, hj⟩
    have h1 := htrap (0 + k + 1) (k + 1)
    rw [hst] at h1
    refine ⟨k, hk, hst, h1.mpr ⟨hpc, hhalt⟩, ?_⟩
    intro j hjk
    apply (hnone (0 + j + 1) (j + 1)).mpr
    rw [Nat.zero_add]
    exact hj j hjk

/-- The table never has more than `GDB_MAX_BP` entries. -/
theorem nbp_le {g : Stub} (hg : g.g_nbp ≤ GDB_MAX_BP) (ps : List Body) :
    (afterPackets g ps).g_nbp ≤ GDB_MAX_BP := by
  induction ps generalizing g with
  | nil => exact hg
  | cons p ps ih =>
    apply ih
    show (breakpointPacket g p.1 p.2).1.g_nbp ≤ GDB_MAX_BP
    unfold breakpointPacket
    split
    · exact hg
    · split
      · unfold bpAdd
        split
        · exact hg
        · rename_i hc
          simp only [not_or, not_le] at hc
          exact hc.2
      · unfold bpDel
        split
        · exact Nat.le_trans (Nat.sub_le _ _) hg
        · exact hg

/-- A table that is a set has room for it. -/
theorem Follows.card_le {g : Stub} {S : Finset Word} (hf : Follows g S)
    (hg : g.g_nbp ≤ GDB_MAX_BP) : S.card ≤ GDB_MAX_BP := by
  have hsub : S ⊆ (Finset.range g.g_nbp).image g.g_bp := by
    intro a ha
    obtain ⟨i, hi, hia⟩ := (bpHit_iff g a).mp ((hf a).mpr ha)
    exact Finset.mem_image.mpr ⟨i, Finset.mem_range.mpr hi, hia⟩
  have hcard := Finset.card_le_card hsub
  have himage := Finset.card_image_le (s := Finset.range g.g_nbp) (f := g.g_bp)
  rw [Finset.card_range] at himage
  omega

theorem afterPackets_snoc (g : Stub) (ps : List Body) (p : Body) :
    afterPackets g (ps ++ [p]) = (breakpointPacket (afterPackets g ps) p.1 p.2).1 := by
  simp [afterPackets]

theorem wanted_snoc (ps : List Body) (p : Body) : wanted (ps ++ [p]) = wantedAfter (wanted ps) p := by
  simp [wanted]

/-- **The packets**: as long as the sets fit, the table holds them. -/
theorem table_packets {g : Stub} (hg : g.Fresh) (ps : List Body)
    (hroom : ∀ qs, qs <+: ps → (wanted qs).card ≤ GDB_MAX_BP) :
    Table (afterPackets g ps) (wanted ps) := by
  induction ps using List.reverseRecOn with
  | nil =>
    have h0 : g.g_nbp = 0 := hg.1
    constructor
    · simp [wanted, afterPackets, h0]
    · intro i hi
      simp [afterPackets, h0] at hi
  | append_singleton ps p ih =>
    rw [afterPackets_snoc, wanted_snoc]
    apply (ih fun qs hq => hroom qs (hq.trans (List.prefix_append ps [p]))).packet
    rw [← wanted_snoc]
    exact hroom _ (List.prefix_refl _)

/-- **The breakpoint set follows the packets**, and a continue stops in it, after every packet of a
sequence, exactly when no more than 64 addresses are wanted at any time. -/
theorem breakpoints_follow (H : Type) {g : Stub} (hg : g.Fresh) (ps : List Body) :
    (∀ qs, qs <+: ps → Follows (afterPackets g qs) (wanted qs) ∧
        StopsIn H (afterPackets g qs) (wanted qs)) ↔
      ∀ qs, qs <+: ps → (wanted qs).card ≤ 64 := by
  constructor
  · intro h qs hq
    apply (h qs hq).1.card_le
    apply nbp_le
    rw [hg.1]
    exact Nat.zero_le _
  · intro hroom qs hq
    have ht := table_packets hg qs fun qs' hq' => hroom qs' (hq'.trans hq)
    have hf : Follows (afterPackets g qs) (wanted qs) := ht.hit
    exact ⟨hf, hf.stopsIn⟩

/-- The packet `Z0,` with an address of two digits. -/
def insertPacket (i : Nat) : Body :=
  (fun j => if j = 0 then 0x5a#8 else if j = 1 then 0x30#8 else if j = 2 then 0x2c#8
    else if j = 3 then hexd (BitVec.ofNat 8 (i / 16)) else if j = 4 then hexd (BitVec.ofNat 8 (i % 16))
    else 0#8, 5)

/-- The 65th breakpoint is acknowledged and dropped. -/
theorem breakpoints_dropped :
    (breakpointPacket (afterPackets freshStub ((List.range 64).map insertPacket))
        (insertPacket 64).1 (insertPacket 64).2).2 = OK ∧
      ¬ Follows (afterPackets freshStub ((List.range 65).map insertPacket))
        (wanted ((List.range 65).map insertPacket)) := by
  refine ⟨rfl, ?_⟩
  intro h
  have hcard : (wanted ((List.range 65).map insertPacket)).card = 65 := by decide +kernel
  have hle := h.card_le (nbp_le (Nat.zero_le _) _)
  rw [hcard] at hle
  exact absurd hle (by decide)

theorem breakpoints_follow_one :
    (∀ qs, qs <+: [insertPacket 16] → Follows (afterPackets freshStub qs) (wanted qs) ∧
        StopsIn Unit (afterPackets freshStub qs) (wanted qs)) ↔
      ∀ qs, qs <+: [insertPacket 16] → (wanted qs).card ≤ 64 :=
  breakpoints_follow Unit ⟨rfl, rfl, rfl⟩ _

end Purv.Gdb

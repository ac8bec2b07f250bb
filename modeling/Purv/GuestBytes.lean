import Purv.IsaRefine

/-!
# Guest memory as one array of bytes

Seen through the two regions, guest memory is an array of bytes: `purvhostGuestByte`, the reader of
the host, says what stands at an address.

* `Region.Has`, `Region.holds` — an address of a region, and a run of them;
* `Flat` — regions that share no host byte and no guest address;
* `Word.covers`, `lastByte` — the bytes of a store, and the last of several that covers an address;
* `guestByte_storeBytes`, `guestByte_stores` — the array after a store, and after a sequence.
-/

namespace Purv

open Bits Isa

variable {H : Type}

/-- `purvhost_guest_byte`. -/
def purvhostGuestByte (s : State H) (a : Word) : Byte :=
  let rel := a - s.writable.base
  if rel < s.writable.len then s.mem s.writable.ptr rel.toNat
  else
    let rel := a - s.readonly.base
    if rel < s.readonly.len then s.mem s.readonly.ptr rel.toNat else 0#8

/-! ## The addresses of a region -/

/-- `a` is an address of the region. -/
def Region.Has (g : Region) (a : Word) : Prop := a - g.base < g.len

instance (g : Region) (a : Word) : Decidable (g.Has a) := inferInstanceAs (Decidable (_ < _))

/-- Each of the `n` addresses from `a` on is one of the region. -/
def Region.Holds (g : Region) (a : Word) (n : Nat) : Prop :=
  ∀ i, i < n → g.Has (a + BitVec.ofNat 32 i)

instance (g : Region) (a : Word) (n : Nat) : Decidable (g.Holds a n) :=
  inferInstanceAs (Decidable (∀ i, i < n → _))

/-- The `n` bytes from `a` on all lie in one region. -/
def OneRegion (s : State H) (a : Word) (n : Nat) : Prop :=
  s.writable.Holds a n ∨ s.readonly.Holds a n

instance (s : State H) (a : Word) (n : Nat) : Decidable (OneRegion s a n) :=
  inferInstanceAs (Decidable (_ ∨ _))

/-- The regions share no byte of the host and no address of the guest. -/
structure Flat (s : State H) : Prop where
  apart : s.writable.ptr ≠ s.readonly.ptr ∨ s.writable.len = 0#32 ∨ s.readonly.len = 0#32
  disjoint : ∀ a, s.writable.Has a → ¬ s.readonly.Has a

section
variable {s : State H} {a : Word}

theorem guestByte_has (h : s.writable.Has a) :
    purvhostGuestByte s a = s.mem s.writable.ptr (a - s.writable.base).toNat := if_pos h

theorem guestByte_second (hw : ¬ s.writable.Has a) (hr : s.readonly.Has a) :
    purvhostGuestByte s a = s.mem s.readonly.ptr (a - s.readonly.base).toNat :=
  (if_neg hw).trans (if_pos hr)

theorem guestByte_unmapped (hw : ¬ s.writable.Has a) (hr : ¬ s.readonly.Has a) :
    purvhostGuestByte s a = 0#8 :=
  (if_neg hw).trans (if_neg hr)

end

/-- The offset of `a + i`, as long as it does not wrap. -/
theorem offset_add (g : Region) (a : Word) (i : Nat) (hi : (a - g.base).toNat + i < 2 ^ 32) :
    (a + BitVec.ofNat 32 i - g.base).toNat = (a - g.base).toNat + i := by
  have heq : a + BitVec.ofNat 32 i - g.base = a - g.base + BitVec.ofNat 32 i := by
    rw [BitVec.sub_eq_add_neg, BitVec.sub_eq_add_neg, BitVec.add_assoc, BitVec.add_assoc,
      BitVec.add_comm (BitVec.ofNat 32 i)]
  rw [heq, BitVec.toNat_add, BitVec.toNat_ofNat, Nat.add_mod_mod, Nat.mod_eq_of_lt hi]

/-- An offset past the end of the region is never one of its addresses, so a run of addresses does
not wrap. -/
theorem holds_iff {g : Region} {a : Word} {n : Nat} (hn : 0 < n) : g.Holds a n ↔ Maps g a n := by
  have hlen := g.len.isLt
  unfold Region.Holds Maps
  constructor
  · intro h
    have h0 : (a - g.base).toNat < g.len.toNat := by
      have := h 0 hn
      rwa [Region.Has, BitVec.lt_def, BitVec.add_zero] at this
    by_contra hout
    have hlast := h (g.len.toNat - (a - g.base).toNat) (by omega)
    rw [Region.Has, BitVec.lt_def, offset_add _ _ _ (by omega)] at hlast
    omega
  · intro h i hi
    rw [Region.Has, BitVec.lt_def, offset_add _ _ _ (by omega)]
    omega

section
variable {s : State H} {a : Word} {n : Nat}

theorem guestByte_writable (h : Maps s.writable a n) {i : Nat} (hi : i < n) :
    purvhostGuestByte s (a + BitVec.ofNat 32 i) = bytesAt s s.writable a i := by
  have hm : Maps s.writable a n := h
  unfold Maps at hm
  have hlen := s.writable.len.isLt
  have hoff := offset_add s.writable a i (by omega)
  rw [guestByte_has (BitVec.lt_def.mpr (by omega)), hoff]
  rfl

theorem guestByte_readonly (hf : Flat s) (h : Maps s.readonly a n) {i : Nat} (hi : i < n) :
    purvhostGuestByte s (a + BitVec.ofNat 32 i) = bytesAt s s.readonly a i := by
  have hhas : s.readonly.Has (a + BitVec.ofNat 32 i) := (holds_iff (by omega)).mpr h i hi
  have hnot : ¬ s.writable.Has (a + BitVec.ofNat 32 i) := fun hw => hf.disjoint _ hw hhas
  have hm : Maps s.readonly a n := h
  unfold Maps at hm
  have hlen := s.readonly.len.isLt
  have hoff := offset_add s.readonly a i (by omega)
  rw [guestByte_second hnot hhas, hoff]
  rfl

end

/-! ## Loads -/

/-- The value of the first `n` bytes reads those bytes only. -/
theorem littleEndian_congr {f g : Nat → Byte} {n : Nat} (h : ∀ i, i < n → f i = g i) :
    littleEndian f n = littleEndian g n := by
  induction n generalizing f g with
  | zero => rfl
  | succ n ih =>
    unfold littleEndian
    rw [h 0 (Nat.succ_pos n), ih fun i hi => h (i + 1) (Nat.succ_lt_succ hi)]

theorem Isa.LoadKind.size_pos (k : LoadKind) : 0 < k.size := by cases k <;> decide

theorem Isa.StoreKind.size_pos (k : StoreKind) : 0 < k.size := by cases k <;> decide

theorem execute_load (h : Hooks H) (r : Run H) (pc width inst : Word) (k : LoadKind) (rd : Reg)
    (a imm : Word) :
    execute h r pc width inst (.load rd a imm k.funct3) = (load h r k rd (a + imm), .done) := by
  have hf3 : ¬ (k.funct3 = 3#3 ∨ k.funct3 > 5#3) := by cases k <;> decide
  simp only [execute]
  rw [if_neg hf3, execLoad_eq]

theorem execute_store (h : Hooks H) (r : Run H) (pc width inst : Word) (k : StoreKind)
    (a b imm : Word) :
    execute h r pc width inst (.store a b imm k.funct3) = (store h r k (a + imm) b, .done) := by
  have hf3 : ¬ k.funct3 > 2#3 := by cases k <;> decide
  simp only [execute]
  rw [if_neg hf3, execStore_eq]

/-- A load whose bytes lie in one region reads the array. -/
theorem load_flat (h : Hooks H) {r : Run H} (hf : Flat r.s) (k : LoadKind) {rd : Reg}
    (hrd : rd ≠ 0#5) {a : Word} (hone : OneRegion r.s a k.size) :
    load h r k rd a = r.wr rd (k.extend
      (littleEndian (fun i => purvhostGuestByte r.s (a + BitVec.ofNat 32 i)) k.size)) := by
  unfold load
  rw [if_neg hrd]
  by_cases hw : Maps r.s.writable a k.size
  · rw [if_pos hw, littleEndian_congr fun i hi => guestByte_writable hw hi]
  · have hr : Maps r.s.readonly a k.size := by
      rcases hone with hone | hone
      · exact absurd ((holds_iff k.size_pos).mp hone) hw
      · exact (holds_iff k.size_pos).mp hone
    rw [if_neg hw, if_pos hr, littleEndian_congr fun i hi => guestByte_readonly hf hr hi]

theorem load_callback (h : Hooks H) {r : Run H} (k : LoadKind) {rd : Reg} (hrd : rd ≠ 0#5)
    {a : Word} (hone : ¬ OneRegion r.s a k.size) :
    load h r k rd a = (r.callback h .load a 0#32).1.wr rd
      (k.extend ((r.callback h .load a 0#32).2.toNat % 2 ^ (8 * k.size))) := by
  have hw : ¬ Maps r.s.writable a k.size := fun hw => hone (.inl ((holds_iff k.size_pos).mpr hw))
  have hr : ¬ Maps r.s.readonly a k.size := fun hr => hone (.inr ((holds_iff k.size_pos).mpr hr))
  unfold load
  rw [if_neg hrd, if_neg hw, if_neg hr]

/-! ## Stores -/

/-- A store of the low bytes of `v` at `addr`. -/
structure StoreOp where
  kind : StoreKind
  addr : Word
  v : Word

/-- `a` is one of the addresses of the store. -/
def StoreOp.Covers (t : StoreOp) (a : Word) : Prop := (a - t.addr).toNat < t.kind.size

instance (t : StoreOp) (a : Word) : Decidable (t.Covers a) := inferInstanceAs (Decidable (_ < _))

/-- What the store puts at `a`. -/
def StoreOp.byteAt (t : StoreOp) (a : Word) : Byte :=
  BitVec.ofNat 8 (t.v.toNat / 256 ^ (a - t.addr).toNat)

/-- The offsets of the bytes of a store, seen from the region. -/
theorem covers_offset {g : Region} {a : Word} {t : StoreOp} (hm : Maps g t.addr t.kind.size)
    (ha : g.Has a) : ((a - t.addr).toNat < t.kind.size ↔
      (t.addr - g.base).toNat ≤ (a - g.base).toNat ∧
        (a - g.base).toNat < (t.addr - g.base).toNat + t.kind.size) ∧
      ((t.addr - g.base).toNat ≤ (a - g.base).toNat →
        (a - t.addr).toNat = (a - g.base).toNat - (t.addr - g.base).toNat) := by
  have hsub : a - t.addr = (a - g.base) - (t.addr - g.base) := by
    bv_omega
  unfold Maps at hm
  rw [Region.Has, BitVec.lt_def] at ha
  have hlen := g.len.isLt
  have hs := t.kind.size_pos
  rw [hsub, BitVec.toNat_sub]
  omega

/-- A store covers addresses of the region it lies in only. -/
theorem covers_has {g : Region} {a : Word} {t : StoreOp} (hm : Maps g t.addr t.kind.size)
    (hc : t.Covers a) : g.Has a := by
  have hlast := (holds_iff t.kind.size_pos).mpr hm _ hc
  rwa [BitVec.ofNat_toNat, BitVec.setWidth_eq, BitVec.add_comm, BitVec.sub_add_cancel] at hlast

/-- The memory that a store into the writable region leaves. -/
def StoreOp.into (t : StoreOp) (s : State H) : State H :=
  { s with mem := storeBytes s t.addr t.v t.kind.size }

/-- A store into the writable region leaves the read-only one as it is. -/
theorem into_readonly {s : State H} (hf : Flat s) {t : StoreOp}
    (hm : Maps s.writable t.addr t.kind.size) {o : Nat} (ho : o < s.readonly.len.toNat) :
    (t.into s).mem s.readonly.ptr o = s.mem s.readonly.ptr o := by
  have hne : s.readonly.ptr ≠ s.writable.ptr := by
    rcases hf.apart with hne | hzero | hzero
    · exact hne.symm
    · have hs := t.kind.size_pos
      unfold Maps at hm
      rw [hzero] at hm
      exact absurd hm (by simp; omega)
    · rw [hzero] at ho
      exact absurd ho (Nat.not_lt_zero o)
  exact if_neg fun hin => hne hin.1

/-- The array after a store into the writable region: the bytes it covers, and no other. -/
theorem guestByte_into {s : State H} (hf : Flat s) {t : StoreOp}
    (hm : Maps s.writable t.addr t.kind.size) (a : Word) :
    purvhostGuestByte (t.into s) a = if t.Covers a then t.byteAt a else purvhostGuestByte s a := by
  by_cases hw : s.writable.Has a
  · obtain ⟨hcov, hoff⟩ := covers_offset hm hw
    have hafter : purvhostGuestByte (t.into s) a =
        storeBytes s t.addr t.v t.kind.size s.writable.ptr (a - s.writable.base).toNat :=
      guestByte_has (s := t.into s) hw
    rw [hafter, guestByte_has hw, storeBytes]
    by_cases hc : t.Covers a
    · have hin := hcov.mp hc
      rw [if_pos hc, if_pos ⟨rfl, hin⟩, StoreOp.byteAt, hoff hin.1]
    · rw [if_neg hc, if_neg fun hin => hc (hcov.mpr hin.2)]
  · have hc : ¬ t.Covers a := fun hc => hw (covers_has hm hc)
    rw [if_neg hc]
    by_cases hr : s.readonly.Has a
    · have hafter : purvhostGuestByte (t.into s) a =
          storeBytes s t.addr t.v t.kind.size s.readonly.ptr (a - s.readonly.base).toNat :=
        guestByte_second (s := t.into s) hw hr
      rw [hafter, guestByte_second hw hr]
      exact into_readonly hf hm (BitVec.lt_def.mp hr)
    · rw [guestByte_unmapped hw hr]
      exact guestByte_unmapped (s := t.into s) hw hr

/-! ## Sequences of stores -/

/-- The stores, one after the other. -/
def runStores (h : Hooks H) (ts : List StoreOp) (r : Run H) : Run H :=
  ts.foldl (fun r t => execStore h r t.addr t.v t.kind.funct3) r

/-- The byte at `a` after the stores: that of the last one into the region `g` that covers it. -/
def lastByte (g : Region) (ts : List StoreOp) (a : Word) (b : Byte) : Byte :=
  ts.foldl (fun b t => if g.Holds t.addr t.kind.size ∧ t.Covers a then t.byteAt a else b) b

/-- The same regions, with the same bytes for the guest. -/
structure SameGuest (s s' : State H) : Prop where
  writable : s'.writable = s.writable
  readonly : s'.readonly = s.readonly
  bytes : ∀ a, purvhostGuestByte s' a = purvhostGuestByte s a

/-- The calls that the stores make of the callback leave the bytes of the guest alone. -/
def Quiet (h : Hooks H) : List StoreOp → Run H → Prop
  | [], _ => True
  | t :: ts, r =>
    (¬ r.s.writable.Holds t.addr t.kind.size →
      SameGuest r.s (r.callback h .store t.addr t.v).1.s) ∧
    Quiet h ts (execStore h r t.addr t.v t.kind.funct3)

/-- One store of a sequence. -/
theorem execStore_bytes (h : Hooks H) {r : Run H} (hf : Flat r.s) {t : StoreOp} (hq : Quiet h [t] r) :
    let r' := execStore h r t.addr t.v t.kind.funct3
    (r'.s.writable = r.s.writable ∧ r'.s.readonly = r.s.readonly) ∧ ∀ a, purvhostGuestByte r'.s a =
      if r.s.writable.Holds t.addr t.kind.size ∧ t.Covers a then t.byteAt a
      else purvhostGuestByte r.s a := by
  simp only
  rw [execStore_eq]
  unfold store
  by_cases hm : Maps r.s.writable t.addr t.kind.size
  · rw [if_pos hm]
    refine ⟨⟨rfl, rfl⟩, fun a => ?_⟩
    have hbyte := guestByte_into hf hm a
    have hholds := (holds_iff t.kind.size_pos).mpr hm
    simp only [hholds, true_and]
    exact hbyte
  · have hholds : ¬ r.s.writable.Holds t.addr t.kind.size := fun hh =>
      hm ((holds_iff t.kind.size_pos).mp hh)
    have hsame := hq.1 hholds
    rw [if_neg hm]
    refine ⟨⟨hsame.writable, hsame.readonly⟩, fun a => ?_⟩
    simp only [hholds, false_and, if_false]
    exact hsame.bytes a

/-- The array after a sequence of stores, by induction on it. -/
theorem guestByte_stores (h : Hooks H) (ts : List StoreOp) {r : Run H} (hf : Flat r.s)
    (hq : Quiet h ts r) :
    let r' := runStores h ts r
    (r'.s.writable = r.s.writable ∧ r'.s.readonly = r.s.readonly) ∧ ∀ a, purvhostGuestByte r'.s a =
      lastByte r.s.writable ts a (purvhostGuestByte r.s a) := by
  induction ts generalizing r with
  | nil => exact ⟨⟨rfl, rfl⟩, fun _ => rfl⟩
  | cons t ts ih =>
    obtain ⟨⟨hw, hr⟩, hbyte⟩ := execStore_bytes h hf ⟨hq.1, trivial⟩
    have hf' : Flat (execStore h r t.addr t.v t.kind.funct3).s := by
      refine ⟨?_, ?_⟩
      · rw [hw, hr]
        exact hf.apart
      · rw [hw, hr]
        exact hf.disjoint
    obtain ⟨⟨hw', hr'⟩, hrest⟩ := ih hf' hq.2
    refine ⟨⟨hw'.trans hw, hr'.trans hr⟩, fun a => ?_⟩
    refine (hrest a).trans ?_
    rw [hw, hbyte]
    rfl

/-! ## The two instructions -/

/-- What a load of kind `k` at `a` leaves in rd, given the bytes of the guest. -/
def loadedFrom (k : LoadKind) (byte : Word → Byte) (a : Word) : Word :=
  k.extend (littleEndian (fun i => byte (a + BitVec.ofNat 32 i)) k.size)

/-- Guest memory is a flat array of bytes.  A load reads the bytes of the array, a store writes
them, and what lies in no one region goes to the callback; so a load after a sequence of stores
reads, byte by byte, the last store that covered it. -/
theorem execute_flat (h : Hooks H) {r : Run H} (hf : Flat r.s) :
    (∀ (pc width inst : Word) (k : LoadKind) (rd : Reg) (a imm : Word), rd ≠ 0#5 →
      execute h r pc width inst (.load rd a imm k.funct3) =
        if OneRegion r.s (a + imm) k.size then
          (r.wr rd (loadedFrom k (purvhostGuestByte r.s) (a + imm)), .done)
        else
          ((r.callback h .load (a + imm) 0#32).1.wr rd
            (k.extend ((r.callback h .load (a + imm) 0#32).2.toNat % 2 ^ (8 * k.size))), .done)) ∧
    (∀ (pc width inst : Word) (k : StoreKind) (a b imm : Word),
      if r.s.writable.Holds (a + imm) k.size then
        ∃ mem, execute h r pc width inst (.store a b imm k.funct3) =
            ({ r with s := { r.s with mem := mem } }, .done) ∧
          (∀ c, purvhostGuestByte { r.s with mem := mem } c =
            if (c - (a + imm)).toNat < k.size then
              BitVec.ofNat 8 (b.toNat / 256 ^ (c - (a + imm)).toNat)
            else purvhostGuestByte r.s c) ∧
          (∀ o, o < r.s.readonly.len.toNat →
            mem r.s.readonly.ptr o = r.s.mem r.s.readonly.ptr o) ∧
          ∀ buf o, mem buf o ≠ r.s.mem buf o → buf = r.s.writable.ptr ∧
            (a + imm - r.s.writable.base).toNat ≤ o ∧
            o < (a + imm - r.s.writable.base).toNat + k.size
      else execute h r pc width inst (.store a b imm k.funct3) =
        ((r.callback h .store (a + imm) b).1, .done)) ∧
    ∀ ts, Quiet h ts r →
      (∀ c, purvhostGuestByte (runStores h ts r).s c =
        lastByte r.s.writable ts c (purvhostGuestByte r.s c)) ∧
      ∀ (pc width inst : Word) (k : LoadKind) (rd : Reg) (a imm : Word), rd ≠ 0#5 →
        OneRegion r.s (a + imm) k.size →
        execute h (runStores h ts r) pc width inst (.load rd a imm k.funct3) =
          ((runStores h ts r).wr rd (loadedFrom k
            (fun c => lastByte r.s.writable ts c (purvhostGuestByte r.s c)) (a + imm)), .done) := by
  refine ⟨?_, ?_, ?_⟩
  · intro pc width inst k rd a imm hrd
    rw [execute_load]
    split
    · rename_i hone
      rw [load_flat h hf k hrd hone]
      rfl
    · rename_i hone
      rw [load_callback h k hrd hone]
  · intro pc width inst k a b imm
    rw [execute_store]
    unfold store
    split
    · rename_i hholds
      have hm := (holds_iff k.size_pos).mp hholds
      rw [if_pos hm]
      refine ⟨storeBytes r.s (a + imm) b k.size, rfl, ?_, ?_, ?_⟩
      · exact fun c => guestByte_into (t := ⟨k, a + imm, b⟩) hf hm c
      · exact fun o ho => into_readonly (t := ⟨k, a + imm, b⟩) hf hm ho
      · intro buf o hne
        by_contra hout
        exact hne (if_neg hout)
    · rename_i hholds
      rw [if_neg fun hm => hholds ((holds_iff k.size_pos).mpr hm)]
  · intro ts hq
    obtain ⟨⟨hw, hr⟩, hbyte⟩ := guestByte_stores h ts hf hq
    refine ⟨hbyte, ?_⟩
    intro pc width inst k rd a imm hrd hone
    have hf' : Flat (runStores h ts r).s := by
      refine ⟨?_, ?_⟩
      · rw [hw, hr]
        exact hf.apart
      · rw [hw, hr]
        exact hf.disjoint
    have hone' : OneRegion (runStores h ts r).s (a + imm) k.size := by
      rwa [OneRegion, hw, hr]
    rw [execute_load, load_flat h hf' k hrd hone', loadedFrom]
    simp only [hbyte]

/-- Two constants and a word of RAM. -/
def twoRegions : State Unit := State.boot [0xef#8, 0xbe#8] 4

theorem twoRegions_flat : Flat twoRegions where
  apart := .inl (by decide)
  disjoint := by
    intro a hw hr
    have hw' : a - 0x80000000#32 < 4#32 := hw
    have hr' : a - 0#32 < 2#32 := hr
    bv_omega

/-- A word, a byte over its second byte, and the word again. -/
theorem execute_flat_overlap :
    (execute Hooks.null (runStores Hooks.null
        [⟨.w, 0x80000000#32, 0x11223344#32⟩, ⟨.b, 0x80000001#32, 0xaa#32⟩] ⟨twoRegions, []⟩)
      0#32 4#32 0#32 (.load 5#5 0x80000000#32 0#32 2#3)).1.s.x 5#5 = 0x1122aa44#32 := by
  have hload := ((execute_flat Hooks.null (r := ⟨twoRegions, []⟩) twoRegions_flat).2.2
    [⟨.w, 0x80000000#32, 0x11223344#32⟩, ⟨.b, 0x80000001#32, 0xaa#32⟩]
    ⟨fun _ => ⟨rfl, rfl, fun _ => rfl⟩, fun _ => ⟨rfl, rfl, fun _ => rfl⟩, trivial⟩).2
    0#32 4#32 0#32 .w 5#5 0x80000000#32 0#32 (by decide) (by decide)
  have hfunct3 : LoadKind.w.funct3 = 2#3 := rfl
  rw [hfunct3] at hload
  rw [hload]
  decide

end Purv

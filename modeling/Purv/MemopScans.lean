import Purv.GuestBytes
import Purv.Lib.Scan
import Purv.PurvaBudget

/-!
# The scan and compare instructions (`purvmemop.h`)

Subtypes 2 to 7 of the bulk instruction are C's `memcmp`, `memchr`, `strlen`, `strcmp`, `strchr` and
`strncmp`, evaluated at once.  Here each is a loop over the bytes of the guest.

* `memcmp`, `memchr`, `strlen`, `strcmp`, `strchr`, `strncmp` — the C functions, byte at a time;
* `Operand`, `Terminated` — bytes that lie in one region, and strings that end in theirs;
* `span_operand` — the span of an operand reads the guest's bytes;
* `purvMemop_scans` — the instruction is the C function.
-/

namespace Purv.Purva

open Bits Scan

variable {H : Type}

/-! ## The C functions -/

section
variable (x y : Nat → Byte) (c : Byte) (a : Word) (n : Nat)

/-- `*x - *y`, of unsigned bytes. -/
def difference (i : Nat) : Word := (x i).setWidth 32 - (y i).setWidth 32

/-- `memcmp`: its result, and the bytes it examines. -/
def memcmp : Word × Nat :=
  scan (fun i => if x i ≠ y i then some (difference x y i) else none) 0#32 n 0

/-- `memchr` of the bytes at `a`. -/
def memchr : Word × Nat :=
  scan (fun i => if x i = c then some (a + BitVec.ofNat 32 i) else none) 0#32 n 0

/-- `strlen`, which nothing bounds but the address space. -/
def strlen : Word × Nat :=
  scan (fun i => if x i = 0#8 then some (BitVec.ofNat 32 i) else none) 0#32 (2 ^ 32) 0

/-- `strncmp`: up to a difference or the common terminator. -/
def strncmp : Word × Nat :=
  scan (fun i => if x i ≠ y i ∨ x i = 0#8 then some (difference x y i) else none) 0#32 n 0

/-- `strcmp`. -/
def strcmp : Word × Nat := strncmp x y (2 ^ 32)

/-- `strchr` of the string at `a`. -/
def strchr : Word × Nat :=
  scan (fun i => if x i = c then some (a + BitVec.ofNat 32 i)
    else if x i = 0#8 then some 0#32 else none) 0#32 (2 ^ 32) 0

end

/-- The bytes of the guest from `a` on. -/
def guestBytes (s : State H) (a : Word) (i : Nat) : Byte :=
  purvhostGuestByte s (a + BitVec.ofNat 32 i)

/-- The function of subtype `f3`, of the operands `a`, `b` and `n`. -/
def scanned (s : State H) (f3 : Nat) (a b : Word) (n : Nat) : Word × Nat :=
  match f3 with
  | 2 => memcmp (guestBytes s a) (guestBytes s b) n
  | 3 => memchr (guestBytes s a) (b.extractLsb' 0 8) a n
  | 4 => strlen (guestBytes s a)
  | 5 => strcmp (guestBytes s a) (guestBytes s b)
  | 6 => strchr (guestBytes s a) (b.extractLsb' 0 8) a
  | _ => strncmp (guestBytes s a) (guestBytes s b) n

/-! ## Operands -/

/-- The `n` bytes from `a` on are bytes of the writable region, or they all are bytes of the
read-only one. -/
def Operand (s : State H) (a : Word) (n : Nat) : Prop :=
  s.writable.Holds a n ∨
    ∀ i, i < n → ¬ s.writable.Has (a + BitVec.ofNat 32 i) ∧ s.readonly.Has (a + BitVec.ofNat 32 i)

/-- The string at `a` ends in its region. -/
def Terminated (s : State H) (a : Word) : Prop :=
  ∃ k, guestBytes s a k = 0#8 ∧ Operand s a (k + 1)

/-- The operands of subtype `f3` lie each in one region. -/
def Operands (s : State H) (f3 : Nat) (a b : Word) (n : Nat) : Prop :=
  match f3 with
  | 2 => Operand s a n ∧ Operand s b n
  | 3 => Operand s a n
  | 4 | 6 => Terminated s a
  | 5 => Terminated s a ∧ Terminated s b
  | _ => (Terminated s a ∨ Operand s a n) ∧ (Terminated s b ∨ Operand s b n)

/-- The span of an operand has its bytes, which are the guest's. -/
theorem span_operand {s : State H} {a : Word} {n : Nat} (h : Operand s a n) :
    n ≤ avail (pmoSpan s a) ∧ ∀ i, i < n → spanByte s (pmoSpan s a) i = guestBytes s a i := by
  by_cases hn : n = 0
  · rw [hn]
    exact ⟨Nat.zero_le _, fun i hi => absurd hi (Nat.not_lt_zero i)⟩
  have hpos : 0 < n := Nat.pos_of_ne_zero hn
  have ha : a + BitVec.ofNat 32 0 = a := BitVec.add_zero a
  rcases h with hw | hr
  · have hm := (holds_iff hpos).mp hw
    have h0 : a - s.writable.base < s.writable.len := by
      have := hw 0 hpos
      rwa [ha] at this
    have hspan : pmoSpan s a = some ((s.writable.ptr, (a - s.writable.base).toNat),
        (s.writable.len - (a - s.writable.base)).toNat) := by
      simp only [pmoSpan, pmoWspan, if_pos h0]
    rw [hspan]
    refine ⟨?_, fun i hi => (guestByte_writable hm hi).symm⟩
    unfold Isa.Maps at hm
    simp only [avail, BitVec.toNat_sub_of_le (BitVec.le_of_lt h0)]
    omega
  · have hm := (holds_iff hpos).mp fun i hi => (hr i hi).2
    have h0 : ¬ a - s.writable.base < s.writable.len := by
      have := (hr 0 hpos).1
      rwa [ha] at this
    have h1 : a - s.readonly.base < s.readonly.len := by
      have := (hr 0 hpos).2
      rwa [ha] at this
    have hspan : pmoSpan s a = some ((s.readonly.ptr, (a - s.readonly.base).toNat),
        (s.readonly.len - (a - s.readonly.base)).toNat) := by
      simp only [pmoSpan, pmoWspan, if_neg h0, if_pos h1]
    rw [hspan]
    unfold Isa.Maps at hm
    refine ⟨?_, fun i hi => ?_⟩
    · simp only [avail, BitVec.toNat_sub_of_le (BitVec.le_of_lt h1)]
      omega
    · have hlen := s.readonly.len.isLt
      rw [guestBytes, guestByte_second (hr i hi).1 (hr i hi).2, offset_add _ _ _ (by omega)]
      rfl

/-- `l` bytes of an operand in its span: all `n`, or up to a terminator. -/
structure Reaches (s : State H) (a : Word) (n l : Nat) : Prop where
  within : l ≤ avail (pmoSpan s a)
  bound : l ≤ n
  bytes : ∀ i, i < l → spanByte s (pmoSpan s a) i = guestBytes s a i
  stop : l = n ∨ ∃ k, k < l ∧ guestBytes s a k = 0#8

theorem reaches_operand {s : State H} {a : Word} {n : Nat} (h : Operand s a n) :
    Reaches s a n n where
  within := (span_operand h).1
  bound := Nat.le_refl n
  bytes := (span_operand h).2
  stop := .inl rfl

theorem reaches_terminated {s : State H} {a : Word} (n : Nat) (h : Terminated s a) :
    ∃ l, Reaches s a n l := by
  obtain ⟨k, hk, ho⟩ := h
  obtain ⟨hle, hx⟩ := span_operand ho
  by_cases hkn : k + 1 ≤ n
  · exact ⟨k + 1, hle, hkn, hx, .inr ⟨k, Nat.lt_succ_self k, hk⟩⟩
  · exact ⟨n, by omega, Nat.le_refl n, fun i hi => hx i (by omega), .inl rfl⟩

/-! ## The search and the scan -/

/-- The loop that stops at the first index with `p` is a scan. -/
theorem firstIndex_scan (p : Nat → Bool) (f : Nat → Word) (m : Nat) :
    (match firstIndex p m with
      | some i => (f i, i + 1)
      | none => (0#32, m)) = scan (fun i => if p i then some (f i) else none) 0#32 m 0 := by
  cases hfirst : firstIndex p m with
  | none =>
    unfold firstIndex at hfirst
    rw [List.find?_range_eq_none] at hfirst
    refine (scan_miss fun j hj => ?_).symm
    have hnot := hfirst j hj
    rw [if_neg]
    simpa using hnot
  | some i =>
    unfold firstIndex at hfirst
    rw [List.find?_range_eq_some] at hfirst
    obtain ⟨hp, hmem, hbefore⟩ := hfirst
    refine (scan_hit (List.mem_range.mp hmem) (fun j hj => ?_) (if_pos hp)).symm
    have hnot := hbefore j hj
    rw [if_neg]
    simpa using hnot

/-- A result in rd, and the fuel. -/
def writes (r : Run H) (rd : Reg) (o : Word × Nat) : Run H × Nat := (put r rd o.1, o.2)

/-- The two arms of a subtype are a scan of the guest's bytes: `l` of them agree with the test, and
they are all there are, or the loop ends among them. -/
theorem search_scan (r : Run H) (rd : Reg) {p : Nat → Bool} (f : Nat → Word)
    {test : Nat → Option Word} {l m n : Nat}
    (htest : ∀ i, i < l → test i = if p i then some (f i) else none)
    (hbound : l = m ∧ l = n ∨ l ≤ m ∧ l ≤ n ∧ ∃ k, k < l ∧ p k = true) :
    (match firstIndex p m with
      | some i => (put r rd (f i), i + 1)
      | none => (put r rd 0#32, m)) = writes r rd (scan test 0#32 n 0) := by
  have hscan : scan (fun i => if p i then some (f i) else none) 0#32 m 0 =
      scan test 0#32 n 0 := by
    have hl : scan (fun i => if p i then some (f i) else none) 0#32 l 0 = scan test 0#32 l 0 :=
      scan_congr fun j _ hj => (htest j (by omega)).symm
    rcases hbound with ⟨rfl, rfl⟩ | ⟨hm, hn, k, hk, hp⟩
    · exact hl
    · have hsome : (if p k then some (f k) else none).isSome := by
        rw [if_pos hp]
        rfl
      have htestk : (test k).isSome := by
        rw [htest k hk]
        exact hsome
      rw [scan_bound hsome (by omega : k < m) hk, hl, scan_bound htestk hk (by omega : k < n)]
  rw [← hscan, ← firstIndex_scan p f m]
  cases firstIndex p m <;> rfl

/-! ## The subtypes -/

section
variable (h : Hooks H) (r : Run H) (rd rs1 rs2 : Reg)

theorem purvMemop_memcmp (ha : Operand r.s (r.s.x rd) (r.s.x rs2).toNat)
    (hb : Operand r.s (r.s.x rs1) (r.s.x rs2).toNat) :
    purvMemop h r 2 rd rs1 rs2 = writes r rd
      (memcmp (guestBytes r.s (r.s.x rd)) (guestBytes r.s (r.s.x rs1)) (r.s.x rs2).toNat) := by
  obtain ⟨hna, hx⟩ := span_operand ha
  obtain ⟨hnb, hy⟩ := span_operand hb
  unfold purvMemop
  simp only
  rw [Nat.min_eq_left hna, Nat.min_eq_left hnb]
  refine search_scan r rd (fun i => difference (spanByte r.s (pmoSpan r.s (r.s.x rd)))
    (spanByte r.s (pmoSpan r.s (r.s.x rs1))) i) (fun i hi => ?_) (.inl ⟨rfl, rfl⟩)
  rw [difference, difference, hx i hi, hy i hi]
  simp only [bne_iff_ne]

theorem purvMemop_memchr (ha : Operand r.s (r.s.x rd) (r.s.x rs2).toNat) :
    purvMemop h r 3 rd rs1 rs2 = writes r rd
      (memchr (guestBytes r.s (r.s.x rd)) ((r.s.x rs1).extractLsb' 0 8) (r.s.x rd)
        (r.s.x rs2).toNat) := by
  obtain ⟨hna, hx⟩ := span_operand ha
  unfold purvMemop
  simp only
  rw [Nat.min_eq_left hna]
  refine search_scan r rd (fun i => r.s.x rd + BitVec.ofNat 32 i) (fun i hi => ?_)
    (.inl ⟨rfl, rfl⟩)
  rw [hx i hi]
  simp only [beq_iff_eq]

/-- What a string reaches of the address space ends with its terminator. -/
theorem reaches_string {s : State H} {a : Word} (ht : Terminated s a) :
    ∃ l k, Reaches s a (2 ^ 32) l ∧ k < l ∧ guestBytes s a k = 0#8 := by
  obtain ⟨l, hl⟩ := reaches_terminated (2 ^ 32) ht
  rcases hl.stop with hfull | ⟨k, hk, hzero⟩
  · have := hl.within
    have := @avail_lt _ s a
    omega
  · exact ⟨l, k, hl, hk, hzero⟩

theorem purvMemop_strlen (ha : Terminated r.s (r.s.x rd)) :
    purvMemop h r 4 rd rs1 rs2 = writes r rd (strlen (guestBytes r.s (r.s.x rd))) := by
  obtain ⟨l, k, hl, hk, hzero⟩ := reaches_string ha
  have hp : (spanByte r.s (pmoSpan r.s (r.s.x rd)) k == 0#8) = true := by
    rw [hl.bytes k hk, hzero]
    rfl
  unfold purvMemop
  simp only
  refine Eq.trans ?_ (search_scan r rd
    (p := fun i => spanByte r.s (pmoSpan r.s (r.s.x rd)) i == 0#8) (BitVec.ofNat 32)
    (fun i hi => ?_) (.inr ⟨hl.within, hl.bound, k, hk, hp⟩))
  · -- the fuel is a sum of 32-bit values, which the region's length keeps from wrapping
    cases hfirst : firstIndex (fun i => spanByte r.s (pmoSpan r.s (r.s.x rd)) i == 0#8)
        (avail (pmoSpan r.s (r.s.x rd))) with
    | none =>
      unfold firstIndex at hfirst
      rw [List.find?_range_eq_none] at hfirst
      have hnot := hfirst k (Nat.lt_of_lt_of_le hk hl.within)
      rw [hp] at hnot
      cases hnot
    | some i =>
      unfold firstIndex at hfirst
      rw [List.find?_range_eq_some] at hfirst
      have hi : i < avail (pmoSpan r.s (r.s.x rd)) := List.mem_range.mp hfirst.2.1
      have hlt := @avail_lt _ r.s (r.s.x rd)
      have hfuel : (BitVec.ofNat 32 i + 1#32).toNat = i + 1 := by
        rw [BitVec.toNat_add, BitVec.toNat_ofNat, BitVec.toNat_ofNat]
        omega
      rw [Option.getD_some, hfuel]
  · rw [hl.bytes i hi]
    simp only [beq_iff_eq]

theorem purvMemop_strchr (ha : Terminated r.s (r.s.x rd)) :
    purvMemop h r 6 rd rs1 rs2 = writes r rd
      (strchr (guestBytes r.s (r.s.x rd)) ((r.s.x rs1).extractLsb' 0 8) (r.s.x rd)) := by
  obtain ⟨l, k, hl, hk, hzero⟩ := reaches_string ha
  unfold purvMemop
  simp only
  refine search_scan r rd (fun i =>
    if spanByte r.s (pmoSpan r.s (r.s.x rd)) i = (r.s.x rs1).extractLsb' 0 8 then
      r.s.x rd + BitVec.ofNat 32 i else 0#32) (fun i hi => ?_)
    (.inr ⟨hl.within, hl.bound, k, hk, ?_⟩)
  · rw [hl.bytes i hi]
    simp only [Bool.or_eq_true, beq_iff_eq]
    split <;> simp [*]
  · rw [hl.bytes k hk, hzero]
    simp

/-- `strcmp` and `strncmp`: the loop of the source is bounded by `c`, C's by `n`, and a bound that
is not C's is one that the regions do not reach. -/
theorem compare_scan {a b : Word} {c n la lb : Nat} (ha : Reaches r.s a n la)
    (hb : Reaches r.s b n lb) (hc : c = n ∨ 2 ^ 32 ≤ c + 1 ∧ 2 ^ 32 ≤ n) :
    (match firstIndex (fun i => spanByte r.s (pmoSpan r.s a) i != spanByte r.s (pmoSpan r.s b) i ||
        spanByte r.s (pmoSpan r.s a) i == 0#8)
        (min (min c (avail (pmoSpan r.s a))) (avail (pmoSpan r.s b))) with
      | some i => (put r rd ((spanByte r.s (pmoSpan r.s a) i).setWidth 32 -
          (spanByte r.s (pmoSpan r.s b) i).setWidth 32), i + 1)
      | none => (put r rd 0#32, min (min c (avail (pmoSpan r.s a))) (avail (pmoSpan r.s b)))) =
    writes r rd (strncmp (guestBytes r.s a) (guestBytes r.s b) n) := by
  have hwa := ha.within
  have hwb := hb.within
  have hna := ha.bound
  have hnb := hb.bound
  have hlt := @avail_lt _ r.s a
  refine search_scan r rd (fun i => difference (spanByte r.s (pmoSpan r.s a))
    (spanByte r.s (pmoSpan r.s b)) i) (l := min la lb) (fun i hi => ?_) ?_
  · rw [difference, difference, ha.bytes i (by omega), hb.bytes i (by omega)]
    simp only [Bool.or_eq_true, beq_iff_eq, bne_iff_ne]
  · by_cases hfull : min la lb = n
    · refine .inl ⟨?_, hfull⟩
      rcases hc with rfl | ⟨hc, hn⟩ <;> omega
    · refine .inr ⟨by omega, by omega, ?_⟩
      by_cases hle : la ≤ lb
      · -- the first string ends first
        obtain ⟨k, hk, hzero⟩ := ha.stop.resolve_left (by omega)
        refine ⟨k, by omega, ?_⟩
        rw [ha.bytes k hk, hzero]
        simp
      · -- the second one does: there they differ, or both end
        obtain ⟨k, hk, hzero⟩ := hb.stop.resolve_left (by omega)
        refine ⟨k, by omega, ?_⟩
        rw [hb.bytes k hk, hzero]
        by_cases hzero' : spanByte r.s (pmoSpan r.s a) k = 0#8 <;> simp [hzero']

end

/-- **The scan and compare instructions are C's functions**: the result goes to rd, nothing else
changes, and the fuel is the number of bytes examined. -/
theorem purvMemop_scans (h : Hooks H) (r : Run H) (f3 : Nat) (hlo : 2 ≤ f3) (hhi : f3 ≤ 7)
    (rd : Reg) (hrd : rd ≠ 0#5) (rs1 rs2 : Reg)
    (hop : Operands r.s f3 (r.s.x rd) (r.s.x rs1) (r.s.x rs2).toNat) :
    let o := scanned r.s f3 (r.s.x rd) (r.s.x rs1) (r.s.x rs2).toNat
    purvMemop h r f3 rd rs1 rs2 = (r.wr rd o.1, o.2) ∧
      (f3 = 2 ∨ f3 = 3 ∨ f3 = 7 → o.2 ≤ (r.s.x rs2).toNat) := by
  have hwr : ∀ o, writes r rd o = (r.wr rd o.1, o.2) := fun o => by
    rw [writes, Run.wr, State.wr, if_neg hrd]
    rfl
  have hcases : f3 = 2 ∨ f3 = 3 ∨ f3 = 4 ∨ f3 = 5 ∨ f3 = 6 ∨ f3 = 7 := by omega
  intro o
  rw [← hwr]
  rcases hcases with rfl | rfl | rfl | rfl | rfl | rfl
  · refine ⟨purvMemop_memcmp h r rd rs1 rs2 hop.1 hop.2, fun _ => ?_⟩
    exact (scan_le).trans (Nat.le_of_eq (Nat.zero_add _))
  · refine ⟨purvMemop_memchr h r rd rs1 rs2 hop, fun _ => ?_⟩
    exact (scan_le).trans (Nat.le_of_eq (Nat.zero_add _))
  · exact ⟨purvMemop_strlen h r rd rs1 rs2 hop, by omega⟩
  · obtain ⟨la, _, ha, _⟩ := reaches_string hop.1
    obtain ⟨lb, _, hb, _⟩ := reaches_string hop.2
    exact ⟨compare_scan r rd (c := 0xffffffff) ha hb (.inr ⟨by decide, Nat.le_refl _⟩), by omega⟩
  · exact ⟨purvMemop_strchr h r rd rs1 rs2 hop, by omega⟩
  · obtain ⟨la, ha⟩ : ∃ l, Reaches r.s (r.s.x rd) (r.s.x rs2).toNat l :=
      hop.1.elim (reaches_terminated _) fun ho => ⟨_, reaches_operand ho⟩
    obtain ⟨lb, hb⟩ : ∃ l, Reaches r.s (r.s.x rs1) (r.s.x rs2).toNat l :=
      hop.2.elim (reaches_terminated _) fun ho => ⟨_, reaches_operand ho⟩
    refine ⟨compare_scan r rd ha hb (.inl rfl), fun _ => ?_⟩
    exact (scan_le).trans (Nat.le_of_eq (Nat.zero_add _))

/-- Two constant strings, `ab` and `ac`, and the registers of a call that compares them. -/
def twoStrings : State Unit :=
  ((State.boot [0x61#8, 0x62#8, 0#8, 0x61#8, 0x63#8, 0#8] 4).setX 6#5 3#32).setX 7#5 5#32

theorem purvMemop_scans_strncmp :
    purvMemop Hooks.null ⟨twoStrings, []⟩ 7 5#5 6#5 7#5 =
      ((⟨twoStrings, []⟩ : Run Unit).wr 5#5 0xffffffff#32, 2) ∧ 2 ≤ 5 := by
  have hat : ∀ a : Word, a = 0#32 ∨ a = 3#32 → Terminated twoStrings a := by
    intro a ha
    refine ⟨2, ?_, .inr ?_⟩ <;> rcases ha with rfl | rfl <;> decide
  obtain ⟨hrun, -⟩ := purvMemop_scans Hooks.null ⟨twoStrings, []⟩ 7 (by decide)
    (by decide) 5#5 (by decide) 6#5 7#5 ⟨.inl (hat _ (.inl rfl)), .inl (hat _ (.inr rfl))⟩
  have ho : scanned twoStrings 7 (twoStrings.x 5#5) (twoStrings.x 6#5) (twoStrings.x 7#5).toNat =
      (0xffffffff#32, 2) := by decide
  simp only [ho] at hrun
  exact ⟨hrun, by decide⟩

end Purv.Purva

import Purv.MemopScans

/-!
# The copy and fill instructions (`purvmemop.h`)

Subtypes 0 and 1 of the bulk instruction: either the range is resolved at once and moved by the
host's `memmove` or `memset`, or byte by byte, with the bytes that miss routed to the callback.

* `Answers` — a callback whose loads depend on the address only;
* `sourceByte` — the byte at an address, wherever it comes from;
* `Bulk` — what it is to put bytes at a run of addresses, in some order;
* `bulk_cons` — one byte and then the others;
* `copyByte_run`, `fillByte_run` — the loops, by induction on the order;
* `purvMemop_moves` — the two instructions.
-/

namespace Purv.Purva

open Bits Isa

variable {H : Type}

/-- A callback that answers a load with a value of the address, and touches the host's own data
only. -/
def Answers (h : Hooks H) (value : Word → Word) : Prop :=
  ∃ f, h.callback = some f ∧ ∀ s op a v,
    (∃ host, (f s op a v).1 = { s with host := host }) ∧ (op = .load → (f s op a v).2 = value a)

/-- The byte at `a`: the guest's, or the callback's low byte where nothing is mapped. -/
def sourceByte (value : Word → Word) (s : State H) (a : Word) : Byte :=
  if s.writable.Has a ∨ s.readonly.Has a then purvhostGuestByte s a
  else (value a).extractLsb' 0 8

/-- The address and the low byte of a store that went to the callback. -/
def Call.stored : Call H → Option (Word × Byte)
  | .mem .store a v _ => some (a, v.extractLsb' 0 8)
  | _ => none

/-- The run `r'` is `r` with `byte i` put at `A + i`, for each `i` of `order`: into the writable
region, or by a store to the callback.  Nothing else of the guest changes. -/
structure Bulk (byte : Nat → Byte) (A : Word) (order : List Nat) (r r' : Run H) : Prop where
  rest : ∃ mem host, r'.s = { r.s with mem := mem, host := host }
  moved : ∀ i ∈ order, r.s.writable.Has (A + BitVec.ofNat 32 i) →
    r'.s.mem r.s.writable.ptr (A + BitVec.ofNat 32 i - r.s.writable.base).toNat = byte i
  frame : ∀ b o, (∀ i ∈ order, r.s.writable.Has (A + BitVec.ofNat 32 i) →
      ¬ (b = r.s.writable.ptr ∧ o = (A + BitVec.ofNat 32 i - r.s.writable.base).toNat)) →
    r'.s.mem b o = r.s.mem b o
  routed : ∃ calls, r'.log = r.log ++ calls ∧ calls.filterMap Call.stored =
    (order.filter fun i => ¬ r.s.writable.Has (A + BitVec.ofNat 32 i)).map
      fun i => (A + BitVec.ofNat 32 i, byte i)

/-! ## Spans -/

section
variable {s : State H} {a : Word}

theorem pmoWspan_has (hw : s.writable.Has a) :
    pmoWspan s a = some ((s.writable.ptr, (a - s.writable.base).toNat),
      (s.writable.len - (a - s.writable.base)).toNat) := if_pos hw

theorem pmoWspan_miss (hw : ¬ s.writable.Has a) : pmoWspan s a = none := if_neg hw

theorem pmoSpan_has (hw : s.writable.Has a) :
    pmoSpan s a = some ((s.writable.ptr, (a - s.writable.base).toNat),
      (s.writable.len - (a - s.writable.base)).toNat) := by
  rw [pmoSpan, pmoWspan_has hw]

theorem pmoSpan_second (hw : ¬ s.writable.Has a) (hr : s.readonly.Has a) :
    pmoSpan s a = some ((s.readonly.ptr, (a - s.readonly.base).toNat),
      (s.readonly.len - (a - s.readonly.base)).toNat) := by
  rw [pmoSpan, pmoWspan_miss hw]
  exact if_pos hr

theorem pmoSpan_miss (hw : ¬ s.writable.Has a) (hr : ¬ s.readonly.Has a) : pmoSpan s a = none := by
  rw [pmoSpan, pmoWspan_miss hw]
  exact if_neg hr

/-- A span that is long enough holds the range. -/
theorem holds_of_avail {g : Region} {n : Nat} (ha : g.Has a)
    (hn : n ≤ (g.len - (a - g.base)).toNat) : Maps g a n := by
  have hlt : (a - g.base).toNat < g.len.toNat := BitVec.lt_def.mp ha
  rw [BitVec.toNat_sub_of_le (BitVec.le_of_lt ha)] at hn
  unfold Maps
  omega

end

/-! ## One byte -/

section
variable {h : Hooks H} {value : Word → Word} {byte : Nat → Byte} {A : Word} {i : Nat}

theorem bulk_nil (r : Run H) : Bulk byte A [] r r where
  rest := ⟨_, _, rfl⟩
  moved := fun _ hi => absurd hi List.not_mem_nil
  frame := fun _ _ _ => rfl
  routed := ⟨[], (List.append_nil _).symm, rfl⟩

/-- The callback, called with a store or a load. -/
theorem callback_answers (hans : Answers h value) (r : Run H) (op : MemOp) (a v : Word) :
    ∃ host, (r.callback h op a v).1 = ⟨{ r.s with host := host }, r.log ++ [.mem op a v r.s]⟩ ∧
      (op = .load → (r.callback h op a v).2 = value a) := by
  obtain ⟨f, hf, hspec⟩ := hans
  obtain ⟨⟨host, hs⟩, hv⟩ := hspec r.s op a v
  unfold Run.callback
  rw [hf]
  exact ⟨host, congrArg (fun s => (⟨s, _⟩ : Run H)) hs, hv⟩

/-- One byte of a fill. -/
theorem fillByte_bulk (hans : Answers h value) (r : Run H) {v : Word}
    (hv : byte i = v.extractLsb' 0 8) :
    Bulk byte A [i] r (fillByte h r (A + BitVec.ofNat 32 i) v) := by
  unfold fillByte
  by_cases hw : r.s.writable.Has (A + BitVec.ofNat 32 i)
  · rw [pmoWspan_has hw]
    refine ⟨⟨_, _, rfl⟩, ?_, ?_, ⟨[], (List.append_nil _).symm, ?_⟩⟩
    · intro j hj _
      rw [List.mem_singleton.mp hj, hv]
      exact if_pos ⟨rfl, rfl⟩
    · intro b o hout
      exact if_neg (hout i (List.mem_singleton_self i) hw)
    · simp [hw]
  · rw [pmoWspan_miss hw]
    obtain ⟨host, hrun, -⟩ := callback_answers hans r .store (A + BitVec.ofNat 32 i) v
    simp only [hrun]
    refine ⟨⟨_, _, rfl⟩, ?_, fun _ _ _ => rfl, ⟨_, rfl, ?_⟩⟩
    · intro j hj hhas
      rw [List.mem_singleton.mp hj] at hhas
      exact absurd hhas hw
    · simp [hw, Call.stored, hv]

/-- One byte and then the others. -/
theorem bulk_cons {order : List Nat} {r r₁ r₂ : Run H} (h₁ : Bulk byte A [i] r r₁)
    (h₂ : Bulk byte A order r₁ r₂)
    (hne : ∀ j ∈ order, A + BitVec.ofNat 32 i ≠ A + BitVec.ofNat 32 j) :
    Bulk byte A (i :: order) r r₂ := by
  obtain ⟨mem₁, host₁, hs₁⟩ := h₁.rest
  obtain ⟨mem₂, host₂, hs₂⟩ := h₂.rest
  have hw : r₁.s.writable = r.s.writable := by rw [hs₁]
  have hmoved := h₂.moved
  have hframe := h₂.frame
  obtain ⟨calls₁, hlog₁, hcalls₁⟩ := h₁.routed
  obtain ⟨calls₂, hlog₂, hcalls₂⟩ := h₂.routed
  rw [hw] at hmoved hframe hcalls₂
  refine ⟨⟨mem₂, host₂, by rw [hs₂, hs₁]⟩, ?_, ?_, ⟨calls₁ ++ calls₂, ?_, ?_⟩⟩
  · intro j hj hhas
    rcases List.mem_cons.mp hj with rfl | hj
    · rw [hframe, h₁.moved j (List.mem_singleton_self j) hhas]
      rintro k hk - ⟨-, hoff⟩
      have hsame := BitVec.eq_of_toNat_eq hoff
      exact hne k hk ((BitVec.sub_left_inj _).mp hsame)
    · exact hmoved j hj hhas
  · intro b o hout
    rw [hframe b o fun j hj => hout j (List.mem_cons_of_mem _ hj)]
    refine h₁.frame b o fun j hj => ?_
    rw [List.mem_singleton.mp hj]
    exact hout i List.mem_cons_self
  · rw [hlog₂, hlog₁, List.append_assoc]
  · rw [List.filterMap_append, hcalls₁, hcalls₂, ← List.map_append, ← List.filter_append]
    rfl

end

/-! ## The loops -/

section
variable {h : Hooks H} {value : Word → Word} {A B : Word}

/-- The first half of `copyByte`: the byte at `from_`. -/
def loadByte (h : Hooks H) (r : Run H) (from_ : Word) : Run H × Word :=
  match pmoSpan r.s from_ with
  | some (p, _) => (r, (r.s.byte p 0).setWidth 32)
  | none => r.callback h .load from_ 0#32

theorem copyByte_eq (r : Run H) (to_ from_ : Word) :
    copyByte h r to_ from_ = fillByte h (loadByte h r from_).1 to_ (loadByte h r from_).2 := rfl

theorem low_byte (b : Byte) : (b.setWidth 32).extractLsb' 0 8 = b := by
  apply BitVec.eq_of_toNat_eq
  simp only [BitVec.extractLsb'_toNat, BitVec.toNat_setWidth, Nat.shiftRight_zero]
  omega

/-- The load half changes the host's data only, and calls no store. -/
theorem loadByte_spec (hans : Answers h value) (r : Run H) (a : Word) :
    (loadByte h r a).2.extractLsb' 0 8 = sourceByte value r.s a ∧
    (∃ host, (loadByte h r a).1.s = { r.s with host := host }) ∧
    ∃ calls, (loadByte h r a).1.log = r.log ++ calls ∧ calls.filterMap Call.stored = [] := by
  unfold loadByte sourceByte
  by_cases hw : r.s.writable.Has a
  · rw [pmoSpan_has hw, if_pos (.inl hw), guestByte_has hw]
    exact ⟨low_byte _, ⟨_, rfl⟩, [], (List.append_nil _).symm, rfl⟩
  by_cases hr : r.s.readonly.Has a
  · rw [pmoSpan_second hw hr, if_pos (.inr hr), guestByte_second hw hr]
    exact ⟨low_byte _, ⟨_, rfl⟩, [], (List.append_nil _).symm, rfl⟩
  · have hno : ¬ (r.s.writable.Has a ∨ r.s.readonly.Has a) := by
      rintro (hw' | hr')
      · exact hw hw'
      · exact hr hr'
    obtain ⟨host, hrun, hv⟩ := callback_answers hans r .load a 0#32
    rw [pmoSpan_miss hw hr, if_neg hno]
    simp only [hrun, hv rfl]
    exact ⟨trivial, ⟨host, rfl⟩, _, rfl, rfl⟩

/-- A byte put by a run that starts with other data of the host. -/
theorem bulk_of_host {byte : Nat → Byte} {order : List Nat} {r r₁ r' : Run H} {host : H}
    (hs : r₁.s = { r.s with host := host }) {calls : List (Call H)}
    (hlog : r₁.log = r.log ++ calls) (hcalls : calls.filterMap Call.stored = [])
    (hb : Bulk byte A order r₁ r') : Bulk byte A order r r' := by
  have hw : r₁.s.writable = r.s.writable := by rw [hs]
  have hm : r₁.s.mem = r.s.mem := by rw [hs]
  obtain ⟨mem, host', hrest⟩ := hb.rest
  have hmoved := hb.moved
  have hframe := hb.frame
  obtain ⟨calls', hlog', hcalls'⟩ := hb.routed
  rw [hw] at hmoved hframe hcalls'
  rw [hm] at hframe
  refine ⟨⟨mem, host', by rw [hrest, hs]⟩, hmoved, hframe, calls ++ calls', ?_, ?_⟩
  · rw [hlog', hlog, List.append_assoc]
  · rw [List.filterMap_append, hcalls, List.nil_append, hcalls']

/-- One byte of a copy. -/
theorem copyByte_bulk (hans : Answers h value) (r : Run H) {byte : Nat → Byte} {i : Nat}
    (hv : byte i = sourceByte value r.s (B + BitVec.ofNat 32 i)) :
    Bulk byte A [i] r (copyByte h r (A + BitVec.ofNat 32 i) (B + BitVec.ofNat 32 i)) := by
  obtain ⟨hbyte, ⟨host, hs⟩, calls, hlog, hcalls⟩ :=
    loadByte_spec hans r (B + BitVec.ofNat 32 i)
  rw [copyByte_eq]
  exact bulk_of_host hs hlog hcalls (fillByte_bulk hans _ (hv.trans hbyte.symm))

/-- A byte put somewhere else leaves the byte at `a`. -/
theorem sourceByte_bulk {byte : Nat → Byte} {r r' : Run H} {i : Nat} {a : Word}
    (happart : r.s.writable.ptr ≠ r.s.readonly.ptr ∨ r.s.writable.len = 0#32 ∨
      r.s.readonly.len = 0#32)
    (hb : Bulk byte A [i] r r') (hne : A + BitVec.ofNat 32 i ≠ a) :
    sourceByte value r'.s a = sourceByte value r.s a := by
  obtain ⟨mem, host, hs⟩ := hb.rest
  have hw : r'.s.writable = r.s.writable := by rw [hs]
  have hr : r'.s.readonly = r.s.readonly := by rw [hs]
  unfold sourceByte
  rw [hw, hr]
  refine if_congr Iff.rfl ?_ rfl
  by_cases hhas : r.s.writable.Has a
  · rw [guestByte_has hhas, guestByte_has (by rwa [hw]), hw]
    refine hb.frame _ _ fun j hj _ => ?_
    rw [List.mem_singleton.mp hj]
    rintro ⟨-, hoff⟩
    exact hne ((BitVec.sub_left_inj _).mp (BitVec.eq_of_toNat_eq hoff)).symm
  by_cases hsecond : r.s.readonly.Has a
  · rw [guestByte_second hhas hsecond, guestByte_second (by rwa [hw]) (by rwa [hr]), hr]
    refine hb.frame _ _ fun j _ hin => ?_
    rintro ⟨hptr, -⟩
    rcases happart with hne | hzero | hzero
    · exact hne hptr.symm
    · rw [Region.Has, hzero] at hin
      exact BitVec.not_lt_zero hin
    · rw [Region.Has, hzero] at hsecond
      exact BitVec.not_lt_zero hsecond
  · rw [guestByte_unmapped hhas hsecond]
    exact guestByte_unmapped (by rwa [hw]) (by rwa [hr])

/-- A fill in any order, each address once. -/
theorem fillByte_run (hans : Answers h value) {byte : Nat → Byte} {v : Word}
    (hv : ∀ i, byte i = v.extractLsb' 0 8) (order : List Nat) (r : Run H)
    (hne : order.Pairwise fun i j => A + BitVec.ofNat 32 i ≠ A + BitVec.ofNat 32 j) :
    Bulk byte A order r (order.foldl (fun r i => fillByte h r (A + BitVec.ofNat 32 i) v) r) := by
  induction order generalizing r with
  | nil => exact bulk_nil r
  | cons i order ih =>
    obtain ⟨hi, hrest⟩ := List.pairwise_cons.mp hne
    exact bulk_cons (fillByte_bulk hans r (hv i)) (ih _ hrest) hi

/-- A copy in an order that reads no address it has put a byte at. -/
theorem copyByte_run (hans : Answers h value) {byte : Nat → Byte} (order : List Nat) (r : Run H)
    (happart : r.s.writable.ptr ≠ r.s.readonly.ptr ∨ r.s.writable.len = 0#32 ∨
      r.s.readonly.len = 0#32)
    (hne : order.Pairwise fun i j => A + BitVec.ofNat 32 i ≠ A + BitVec.ofNat 32 j ∧
      A + BitVec.ofNat 32 i ≠ B + BitVec.ofNat 32 j)
    (hbyte : ∀ i ∈ order, byte i = sourceByte value r.s (B + BitVec.ofNat 32 i)) :
    Bulk byte A order r (order.foldl (fun r i =>
      copyByte h r (A + BitVec.ofNat 32 i) (B + BitVec.ofNat 32 i)) r) := by
  induction order generalizing r with
  | nil => exact bulk_nil r
  | cons i order ih =>
    obtain ⟨hi, hrest⟩ := List.pairwise_cons.mp hne
    have hfirst := @copyByte_bulk _ _ _ A B hans r byte i (hbyte i List.mem_cons_self)
    obtain ⟨mem, host, hs⟩ := hfirst.rest
    refine bulk_cons hfirst (ih _ ?_ hrest ?_) fun j hj => (hi j hj).1
    · rw [hs]
      exact happart
    · intro j hj
      rw [sourceByte_bulk happart hfirst (hi j hj).2]
      exact hbyte j (List.mem_cons_of_mem _ hj)

end

/-! ## The host's `memmove` and `memset` -/

/-- A change of `n` bytes of the writable region, from `A` on. -/
theorem bulk_range {byte : Nat → Byte} {A : Word} {n : Nat} {r : Run H} {mem : Buf → Nat → Byte}
    (hA : 0 < n → Maps r.s.writable A n)
    (hmem : ∀ b o, mem b o =
      if b = r.s.writable.ptr ∧ (A - r.s.writable.base).toNat ≤ o ∧
          o < (A - r.s.writable.base).toNat + n then byte (o - (A - r.s.writable.base).toNat)
      else r.s.mem b o) :
    Bulk byte A (List.range n) r { r with s := { r.s with mem := mem } } := by
  have hoff : ∀ i, i < n → (A + BitVec.ofNat 32 i - r.s.writable.base).toNat =
      (A - r.s.writable.base).toNat + i := fun i hi => by
    have hm := hA (by omega)
    have hlen := r.s.writable.len.isLt
    unfold Maps at hm
    exact offset_add _ _ _ (by omega)
  have hhas : ∀ i, i < n → r.s.writable.Has (A + BitVec.ofNat 32 i) := fun i hi =>
    (holds_iff (by omega)).mpr (hA (by omega)) i hi
  refine ⟨⟨_, _, rfl⟩, ?_, ?_, [], (List.append_nil _).symm, ?_⟩
  · intro i hi _
    have hi := List.mem_range.mp hi
    show mem _ _ = _
    rw [hmem, hoff i hi, if_pos ⟨rfl, by omega, by omega⟩, Nat.add_sub_cancel_left]
  · intro b o hout
    show mem b o = _
    rw [hmem, if_neg]
    rintro ⟨hb, hlo, hhi⟩
    have hi : o - (A - r.s.writable.base).toNat < n := by omega
    refine hout _ (List.mem_range.mpr hi) (hhas _ hi) ⟨hb, ?_⟩
    rw [hoff _ hi]
    omega
  · have hnone : (List.range n).filter
        (fun i => ¬ r.s.writable.Has (A + BitVec.ofNat 32 i)) = [] := by
      rw [List.filter_eq_nil_iff]
      intro i hi
      simpa using hhas i (List.mem_range.mp hi)
    rw [hnone]
    rfl

section
variable {r : Run H} {A B : Word} {n : Nat}

/-- The host's `memset` on a range of the writable region. -/
theorem memset_bulk (hA : r.s.writable.Has A)
    (hn : n ≤ (r.s.writable.len - (A - r.s.writable.base)).toNat) (v : Byte) :
    Bulk (fun _ => v) A (List.range n) r { r with
      s := memset r.s (r.s.writable.ptr, (A - r.s.writable.base).toNat) v n } :=
  bulk_range (fun _ => holds_of_avail hA hn) fun _ _ => rfl

/-- The host's `memmove` on two ranges that were each resolved at once. -/
theorem memmove_bulk {value : Word → Word} (hA : r.s.writable.Has A)
    (hn : n ≤ (r.s.writable.len - (A - r.s.writable.base)).toNat) {q : Ptr} {sa : Nat}
    (hq : pmoSpan r.s B = some (q, sa)) (hsa : n ≤ sa)
    (hsrc : Maps r.s.readonly B n → ¬ r.s.writable.Has B → ∀ i, i < n →
      ¬ r.s.writable.Has (B + BitVec.ofNat 32 i)) :
    Bulk (fun i => sourceByte value r.s (B + BitVec.ofNat 32 i)) A (List.range n) r { r with
      s := memmove r.s (r.s.writable.ptr, (A - r.s.writable.base).toNat) q n } := by
  have hread : ∀ i, i < n → r.s.byte q i = sourceByte value r.s (B + BitVec.ofNat 32 i) := by
    intro i hi
    unfold sourceByte
    by_cases hw : r.s.writable.Has B
    · rw [pmoSpan_has hw] at hq
      cases hq
      have hm := holds_of_avail hw hsa
      have hhas := (holds_iff (by omega)).mpr hm i hi
      rw [if_pos (.inl hhas), guestByte_writable hm hi]
      rfl
    by_cases hr : r.s.readonly.Has B
    · rw [pmoSpan_second hw hr] at hq
      cases hq
      have hm := holds_of_avail hr hsa
      have hhas := (holds_iff (by omega)).mpr hm i hi
      have hlen := r.s.readonly.len.isLt
      have hm' := hm
      unfold Maps at hm'
      rw [if_pos (.inr hhas), guestByte_second (hsrc hm hw i hi) hhas, offset_add _ _ _ (by omega)]
      rfl
    · rw [pmoSpan_miss hw hr] at hq
      cases hq
  refine bulk_range (fun _ => holds_of_avail hA hn) fun b o => ?_
  refine if_ctx_congr Iff.rfl (fun hin => ?_) fun _ => rfl
  exact hread _ (by have := hin.2; omega)

end

/-! ## The two instructions -/

/-- `pmoWspan` succeeds in the writable region only. -/
theorem pmoWspan_some {s : State H} {a : Word} {d : Ptr} {da : Nat}
    (hd : pmoWspan s a = some (d, da)) : s.writable.Has a ∧
      d = (s.writable.ptr, (a - s.writable.base).toNat) ∧
      da = (s.writable.len - (a - s.writable.base)).toNat := by
  by_cases hw : s.writable.Has a
  · rw [pmoWspan_has hw] at hd
    cases hd
    exact ⟨hw, rfl, rfl⟩
  · rw [pmoWspan_miss hw] at hd
    cases hd

/-- Addresses of a range that ends within the address space, in order. -/
theorem toNat_range {A : Word} {n i : Nat} (hA : A.toNat + n ≤ 2 ^ 32) (hi : i < n) :
    (A + BitVec.ofNat 32 i).toNat = A.toNat + i := by
  rw [BitVec.toNat_add, BitVec.toNat_ofNat, Nat.add_mod_mod, Nat.mod_eq_of_lt (by omega)]

theorem range_apart {A B : Word} {n i j : Nat} (hA : A.toNat + n ≤ 2 ^ 32)
    (hB : B.toNat + n ≤ 2 ^ 32) (hi : i < n) (hj : j < n) (hne : A.toNat + i ≠ B.toNat + j) :
    A + BitVec.ofNat 32 i ≠ B + BitVec.ofNat 32 j := by
  intro heq
  have heq' := congrArg BitVec.toNat heq
  rw [toNat_range hA hi, toNat_range hB hj] at heq'
  exact hne heq'

/-- The order of a copy: upwards, or downwards where the destination is above the source. -/
def copyOrder (A B : Word) (n : Nat) : List Nat :=
  if A > B then (List.range n).reverse else List.range n

theorem copyOrder_perm (A B : Word) (n : Nat) : (copyOrder A B n).Perm (List.range n) := by
  unfold copyOrder
  split
  · exact List.reverse_perm _
  · exact List.Perm.refl _

/-- In this order no address is read after a byte was put there. -/
theorem copyOrder_safe {A B : Word} {n : Nat} (hA : A.toNat + n ≤ 2 ^ 32)
    (hB : B.toNat + n ≤ 2 ^ 32) :
    (copyOrder A B n).Pairwise fun i j => A + BitVec.ofNat 32 i ≠ A + BitVec.ofNat 32 j ∧
      A + BitVec.ofNat 32 i ≠ B + BitVec.ofNat 32 j := by
  unfold copyOrder
  split
  · rename_i hAB
    rw [gt_iff_lt, BitVec.lt_def] at hAB
    rw [List.pairwise_reverse]
    refine List.pairwise_lt_range.imp_of_mem fun {i j} hi hj hlt => ?_
    have hi := List.mem_range.mp hi
    have hj := List.mem_range.mp hj
    exact ⟨range_apart hA hA hj hi (by omega), range_apart hA hB hj hi (by omega)⟩
  · rename_i hAB
    rw [gt_iff_lt, BitVec.lt_def] at hAB
    refine List.pairwise_lt_range.imp_of_mem fun {i j} hi hj hlt => ?_
    have hi := List.mem_range.mp hi
    have hj := List.mem_range.mp hj
    exact ⟨range_apart hA hA hi hj (by omega), range_apart hA hB hi hj (by omega)⟩

/-- The loop of the source, over this order. -/
theorem foldl_copyOrder (h : Hooks H) (r : Run H) (A B N : Word) :
    (List.range N.toNat).foldl (fun r i =>
      let j : Word := if A > B then N - 1#32 - BitVec.ofNat 32 i else BitVec.ofNat 32 i
      copyByte h r (A + j) (B + j)) r =
    (copyOrder A B N.toNat).foldl (fun r i =>
      copyByte h r (A + BitVec.ofNat 32 i) (B + BitVec.ofNat 32 i)) r := by
  unfold copyOrder
  by_cases hAB : A > B
  · simp only [if_pos hAB]
    rw [List.range_eq_range', List.reverse_range', List.foldl_map, ← List.range_eq_range']
    refine List.foldl_ext _ _ _ fun r' i hi => ?_
    have hi := List.mem_range.mp hi
    have hN := N.isLt
    have hj : N - 1#32 - BitVec.ofNat 32 i = BitVec.ofNat 32 (0 + N.toNat - 1 - i) := by
      apply BitVec.eq_of_toNat_eq
      simp only [BitVec.toNat_sub, BitVec.toNat_ofNat]
      omega
    simp only [hj]
  · simp only [if_neg hAB]

/-- The copy, on both of its paths. -/
theorem purvMemop_memmove {h : Hooks H} {value : Word → Word} (hans : Answers h value)
    (r : Run H) (rd rs1 rs2 : Reg)
    (happart : r.s.writable.ptr ≠ r.s.readonly.ptr ∨ r.s.writable.len = 0#32 ∨
      r.s.readonly.len = 0#32)
    (hA : (r.s.x rd).toNat + (r.s.x rs2).toNat ≤ 2 ^ 32)
    (hB : (r.s.x rs1).toNat + (r.s.x rs2).toNat ≤ 2 ^ 32)
    (hsrc : Maps r.s.readonly (r.s.x rs1) (r.s.x rs2).toNat → ¬ r.s.writable.Has (r.s.x rs1) →
      ∀ i, i < (r.s.x rs2).toNat → ¬ r.s.writable.Has (r.s.x rs1 + BitVec.ofNat 32 i)) :
    ∃ order, order.Perm (List.range (r.s.x rs2).toNat) ∧
      Bulk (fun i => sourceByte value r.s (r.s.x rs1 + BitVec.ofNat 32 i)) (r.s.x rd) order r
        (purvMemop h r 0 rd rs1 rs2).1 := by
  have hslow : ∃ order, order.Perm (List.range (r.s.x rs2).toNat) ∧
      Bulk (fun i => sourceByte value r.s (r.s.x rs1 + BitVec.ofNat 32 i)) (r.s.x rd) order r
        ((copyOrder (r.s.x rd) (r.s.x rs1) (r.s.x rs2).toNat).foldl (fun r' i =>
          copyByte h r' (r.s.x rd + BitVec.ofNat 32 i) (r.s.x rs1 + BitVec.ofNat 32 i)) r) :=
    ⟨_, copyOrder_perm _ _ _,
      copyByte_run hans _ r happart (copyOrder_safe hA hB) fun i _ => rfl⟩
  unfold purvMemop
  simp only
  rw [foldl_copyOrder]
  cases hd : pmoWspan r.s (r.s.x rd) with
  | none => exact hslow
  | some d =>
    cases hq : pmoSpan r.s (r.s.x rs1) with
    | none => exact hslow
    | some q =>
      obtain ⟨d, da⟩ := d
      obtain ⟨q, sa⟩ := q
      simp only
      by_cases hfits : (r.s.x rs2).toNat ≤ da ∧ (r.s.x rs2).toNat ≤ sa
      · -- both ranges were resolved at once
        rw [if_pos hfits]
        obtain ⟨hw, rfl, rfl⟩ := pmoWspan_some hd
        exact ⟨_, List.Perm.refl _, memmove_bulk hw hfits.1 hq hfits.2 hsrc⟩
      · rw [if_neg hfits]
        exact hslow

/-- The fill, on both of its paths. -/
theorem purvMemop_memset {h : Hooks H} {value : Word → Word} (hans : Answers h value)
    (r : Run H) (rd rs1 rs2 : Reg) (hA : (r.s.x rd).toNat + (r.s.x rs2).toNat ≤ 2 ^ 32) :
    ∃ order, order.Perm (List.range (r.s.x rs2).toNat) ∧
      Bulk (fun _ => (r.s.x rs1).extractLsb' 0 8) (r.s.x rd) order r
        (purvMemop h r 1 rd rs1 rs2).1 := by
  have hne : (List.range (r.s.x rs2).toNat).Pairwise fun i j =>
      r.s.x rd + BitVec.ofNat 32 i ≠ r.s.x rd + BitVec.ofNat 32 j := by
    refine List.pairwise_lt_range.imp_of_mem fun {i j} hi hj hlt => ?_
    exact range_apart hA hA (List.mem_range.mp hi) (List.mem_range.mp hj) (by omega)
  refine ⟨_, List.Perm.refl _, ?_⟩
  have hslow := fillByte_run hans (fun _ => rfl : ∀ i, (fun _ : Nat =>
    (r.s.x rs1).extractLsb' 0 8) i = (r.s.x rs1).extractLsb' 0 8) _ r hne
  unfold purvMemop
  simp only
  cases hd : pmoWspan r.s (r.s.x rd) with
  | none => exact hslow
  | some d =>
    obtain ⟨d, da⟩ := d
    simp only
    by_cases hfits : (r.s.x rs2).toNat ≤ da
    · rw [if_pos hfits]
      obtain ⟨hw, rfl, rfl⟩ := pmoWspan_some hd
      exact memset_bulk hw hfits _
    · rw [if_neg hfits]
      exact hslow

/-- **The bulk copy and fill are `memmove` and `memset`**: each byte goes to its address, or to the
callback, once, and nothing else of the guest changes.  A copy reads what was there before. -/
theorem purvMemop_moves {h : Hooks H} {value : Word → Word} (hans : Answers h value)
    (r : Run H) (rd rs1 rs2 : Reg)
    (happart : r.s.writable.ptr ≠ r.s.readonly.ptr ∨ r.s.writable.len = 0#32 ∨
      r.s.readonly.len = 0#32)
    (hA : (r.s.x rd).toNat + (r.s.x rs2).toNat ≤ 2 ^ 32) :
    ((r.s.x rs1).toNat + (r.s.x rs2).toNat ≤ 2 ^ 32 →
      (Maps r.s.readonly (r.s.x rs1) (r.s.x rs2).toNat → ¬ r.s.writable.Has (r.s.x rs1) →
        ∀ i, i < (r.s.x rs2).toNat → ¬ r.s.writable.Has (r.s.x rs1 + BitVec.ofNat 32 i)) →
      ∃ order, order.Perm (List.range (r.s.x rs2).toNat) ∧
        Bulk (fun i => sourceByte value r.s (r.s.x rs1 + BitVec.ofNat 32 i)) (r.s.x rd) order r
          (purvMemop h r 0 rd rs1 rs2).1) ∧
    ∃ order, order.Perm (List.range (r.s.x rs2).toNat) ∧
      Bulk (fun _ => (r.s.x rs1).extractLsb' 0 8) (r.s.x rd) order r
        (purvMemop h r 1 rd rs1 rs2).1 :=
  ⟨purvMemop_memmove hans r rd rs1 rs2 happart hA, purvMemop_memset hans r rd rs1 rs2 hA⟩

/-- A callback that answers every load with 0x55. -/
def answers55 : Hooks Unit := ⟨none, none, none, some fun s _ _ _ => (s, 0x55#32)⟩

theorem answers55_answers : Answers answers55 fun _ => 0x55#32 :=
  ⟨_, rfl, fun s _ _ _ => ⟨⟨s.host, rfl⟩, fun _ => rfl⟩⟩

/-- Eight bytes at 8 and sixteen from `base` on, with a call to copy or fill eight bytes. -/
def moveState (base A B : Word) : State Unit where
  pc := 0#32
  inst := 0#32
  x := fun i => if i = 5#5 then A else if i = 6#5 then B else if i = 7#5 then 8#32 else 0#32
  readonly := ⟨1, 16#32, base⟩
  writable := ⟨2, 8#32, 8#32⟩
  mem := fun b _ => if b = 1 then 0x11#8 else 0x22#8
  host := ()

/-- A destination that runs past the end of RAM. -/
theorem purvMemop_moves_past :
    (∃ order, order.Perm (List.range 8) ∧
      Bulk (fun i => sourceByte (fun _ => 0x55#32) (moveState 0x100#32 12#32 0x104#32)
          (0x104#32 + BitVec.ofNat 32 i))
        12#32 order ⟨moveState 0x100#32 12#32 0x104#32, []⟩
        (purvMemop answers55 ⟨moveState 0x100#32 12#32 0x104#32, []⟩ 0 5#5 6#5 7#5).1) ∧
    ∃ order, order.Perm (List.range 8) ∧
      Bulk (fun _ => 4#8) 12#32 order ⟨moveState 0x100#32 12#32 0x104#32, []⟩
        (purvMemop answers55 ⟨moveState 0x100#32 12#32 0x104#32, []⟩ 1 5#5 6#5 7#5).1 := by
  obtain ⟨hcopy, hfill⟩ := purvMemop_moves answers55_answers
    ⟨moveState 0x100#32 12#32 0x104#32, []⟩ 5#5 6#5 7#5 (.inl (by decide)) (by decide)
  exact ⟨hcopy (by decide) (fun _ _ => by decide), hfill⟩

/-- A callback that answers every load with 0 and clears the registers. -/
def clearsRegisters : Hooks Unit :=
  ⟨none, none, none, some fun s _ _ _ => ({ s with x := fun _ => 0#32 }, 0#32)⟩

/-- Where the read-only region runs into the writable one, a range that starts before is copied from
behind it: the byte at 12 is not the one that stood at 8.  And a callback may do what it likes with
the registers. -/
theorem purvMemop_overlapping :
    ((moveState 0#32 8#32 4#32).writable.ptr ≠ (moveState 0#32 8#32 4#32).readonly.ptr ∧
      sourceByte (fun _ => 0x55#32) (moveState 0#32 8#32 4#32) (4#32 + BitVec.ofNat 32 4) =
        0x22#8 ∧
      (moveState 0#32 8#32 4#32).writable.Has (8#32 + BitVec.ofNat 32 4) ∧
      purvhostGuestByte (purvMemop answers55 ⟨moveState 0#32 8#32 4#32, []⟩ 0 5#5 6#5 7#5).1.s
        (8#32 + BitVec.ofNat 32 4) = 0x11#8) ∧
    (purvMemop clearsRegisters ⟨moveState 0x100#32 12#32 0x104#32, []⟩ 0 5#5 6#5 7#5).1.s.x 5#5 ≠
      (moveState 0x100#32 12#32 0x104#32).x 5#5 := by
  decide

end Purv.Purva

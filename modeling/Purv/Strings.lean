import Purv.State
import Purv.Lib.Texts

/-!
# The string functions of the guest runtime (`sqlite/rt.c`)

They are loops over the guest's memory, and a string that does not end keeps them going: a loop is
given rounds, and is `none` while it still runs.

* `strcpy`, `strncpy`, `strcat` — the functions that write;
* `strspn`, `strcspn`, `strstr` — the functions that look for something;
* `strcat_joins` — `strcat` joins two strings and touches nothing else;
* `strncpy_pads` — `strncpy` writes what fits, and fills up with `NUL`;
* `strstr_first` — `strstr` finds the first place, or none;
* `spans_split` — `strspn` and `strcspn` measure the longest prefix of bytes in, or not in, a set.
-/

namespace Purv.Rt

open Function Texts

/-! ## The functions -/

/-- `while ((*d++ = *s++)) {}`. -/
def copyLoop : Nat → (Word → Byte) → Word → Word → Option (Word → Byte)
  | 0, _, _, _ => none
  | fuel + 1, m, d, s =>
    let m' := update m d (m s)
    if m s = 0#8 then some m' else copyLoop fuel m' (d + 1#32) (s + 1#32)

/-- `while (*d) d++`. -/
def endLoop : Nat → (Word → Byte) → Word → Option Word
  | 0, _, _ => none
  | fuel + 1, m, d => if m d = 0#8 then some d else endLoop fuel m (d + 1#32)

/-- `strcpy`. -/
def strcpy (fuel : Nat) (m : Word → Byte) (d s : Word) : Option ((Word → Byte) × Word) :=
  (copyLoop fuel m d s).map fun m' => (m', d)

/-- `strcat`. -/
def strcat (fuel : Nat) (m : Word → Byte) (d s : Word) : Option ((Word → Byte) × Word) :=
  (endLoop fuel m d).bind fun t => (copyLoop fuel m t s).map fun m' => (m', d)

/-- `while (n--) *d++ = 0`. -/
def zeroLoop : Nat → (Word → Byte) → Word → Word → Byte
  | 0, m, _ => m
  | n + 1, m, d => zeroLoop n (update m d 0#8) (d + 1#32)

/-- `while (n && (*d = *s)) { d++; s++; n--; }`, and what comes after. -/
def copyAtMost : Nat → (Word → Byte) → Word → Word → Word → Byte
  | 0, m, _, _ => m
  | n + 1, m, d, s =>
    let m' := update m d (m s)
    if m s = 0#8 then zeroLoop (n + 1) m' d else copyAtMost n m' (d + 1#32) (s + 1#32)

/-- `strncpy`. -/
def strncpy (m : Word → Byte) (d s n : Word) : (Word → Byte) × Word :=
  (copyAtMost n.toNat m d s, d)

/-- `while (*q && *q != *p) q++`, and then `*q`. -/
def setLoop (m : Word → Byte) (c : Byte) : Nat → Word → Option Byte
  | 0, _ => none
  | fuel + 1, q => if m q ≠ 0#8 ∧ m q ≠ c then setLoop m c fuel (q + 1#32) else some (m q)

/-- The loop of `strspn` and `strcspn`, which break on some of what `setLoop` ends at. -/
def spanLoop (breaks : Byte → Bool) (m : Word → Byte) (set : Word) (rounds : Nat) :
    Nat → Word → Option Word
  | 0, _ => none
  | fuel + 1, p =>
    if m p = 0#8 then some p
    else
      (setLoop m (m p) rounds set).bind fun q =>
        if breaks q then some p else spanLoop breaks m set rounds fuel (p + 1#32)

/-- `strspn`. -/
def strspn (fuel : Nat) (m : Word → Byte) (s set : Word) : Option Word :=
  (spanLoop (fun q => q == 0#8) m set fuel fuel s).map fun p => p - s

/-- `strcspn`. -/
def strcspn (fuel : Nat) (m : Word → Byte) (s set : Word) : Option Word :=
  (spanLoop (fun q => q != 0#8) m set fuel fuel s).map fun p => p - s

/-- `while (*a && *b && *a == *b) { a++; b++; }`, and then `*b`. -/
def matchLoop (m : Word → Byte) : Nat → Word → Word → Option Byte
  | 0, _, _ => none
  | fuel + 1, a, b =>
    if m a ≠ 0#8 ∧ m b ≠ 0#8 ∧ m a = m b then matchLoop m fuel (a + 1#32) (b + 1#32)
    else some (m b)

/-- The loop of `strstr`. -/
def findLoop (m : Word → Byte) (n : Word) (rounds : Nat) : Nat → Word → Option Word
  | 0, _ => none
  | fuel + 1, h =>
    if m h = 0#8 then some 0#32
    else
      (matchLoop m rounds h n).bind fun b =>
        if b = 0#8 then some h else findLoop m n rounds fuel (h + 1#32)

/-- `strstr`. -/
def strstr (fuel : Nat) (m : Word → Byte) (h n : Word) : Option Word :=
  if m n = 0#8 then some h else findLoop m n fuel fuel h

/-! ## Writing -/

section
variable {m : Word → Byte} {d s h n set : Word} {cs ds hs ns : List Byte} {fuel : Nat}

/-- The copy loop writes the string with its `NUL`. -/
theorem copyLoop_eq (hs : Text 0#8 m s cs) (ha : Clear d (cs.length + 1) s (cs.length + 1))
    (hfuel : cs.length < fuel) : copyLoop fuel m d s = some (write m d (cs ++ [0#8])) := by
  induction cs generalizing m d s fuel with
  | nil =>
    cases fuel with
    | zero => exact absurd hfuel (Nat.not_lt_zero _)
    | succ fuel =>
      have hnul : m s = 0#8 := hs
      unfold copyLoop
      simp only
      rw [if_pos hnul, hnul]
      rfl
  | cons c cs ih =>
    cases fuel with
    | zero => exact absurd hfuel (Nat.not_lt_zero _)
    | succ fuel =>
      obtain ⟨hc, hne, hrest⟩ := hs
      have hd : ¬ OneOf (s + 1#32) (cs.length + 1) d := fun hw => ha.head hw.tail
      unfold copyLoop
      simp only
      rw [hc, if_neg hne, ih (hrest.update hd c) ha.tail (Nat.lt_of_succ_lt_succ hfuel)]
      rfl

theorem endLoop_eq (hd : Text 0#8 m d ds) (hfuel : ds.length < fuel) :
    endLoop fuel m d = some (d + BitVec.ofNat 32 ds.length) := by
  induction ds generalizing d fuel with
  | nil =>
    cases fuel with
    | zero => exact absurd hfuel (Nat.not_lt_zero _)
    | succ fuel =>
      unfold endLoop
      rw [if_pos (show m d = 0#8 from hd), List.length_nil, BitVec.add_zero]
  | cons c ds ih =>
    cases fuel with
    | zero => exact absurd hfuel (Nat.not_lt_zero _)
    | succ fuel =>
      obtain ⟨hc, hne, hrest⟩ := hd
      unfold endLoop
      rw [hc, if_neg hne, ih hrest (Nat.lt_of_succ_lt_succ hfuel), ← offset_succ]
      rfl

/-- `strcpy` copies the string and touches nothing else. -/
theorem strcpy_copies (hs : Text 0#8 m s cs) (ha : Clear d (cs.length + 1) s (cs.length + 1))
    (hlen : cs.length < 2 ^ 32) (hfuel : cs.length < fuel) :
    ∃ m', strcpy fuel m d s = some (m', d) ∧ Text 0#8 m' d cs ∧ Text 0#8 m' s cs ∧
      ∀ a, ¬ OneOf d (cs.length + 1) a → m' a = m a := by
  have hframe : ∀ a, ¬ OneOf d (cs.length + 1) a → write m d (cs ++ [0#8]) a = m a := by
    intro a hout
    apply write_frame
    rw [List.length_append, List.length_singleton]
    exact hout
  refine ⟨write m d (cs ++ [0#8]), ?_, write_text hs.not_mem (by simpa using hlen), ?_, hframe⟩
  · unfold strcpy
    rw [copyLoop_eq hs ha hfuel]
    rfl
  · exact hs.agree fun x hx => hframe x fun hd => ha x hd hx

/-- **`strcat` joins the strings**, leaves the one it appends as it was, and touches nothing but
the room after the other. -/
theorem strcat_joins (hd : Text 0#8 m d ds) (hs : Text 0#8 m s cs)
    (ha : Clear d (ds.length + cs.length + 1) s (cs.length + 1))
    (hlen : ds.length + cs.length < 2 ^ 32) (hfuel : ds.length + cs.length < fuel) :
    ∃ m', strcat fuel m d s = some (m', d) ∧ Text 0#8 m' d (ds ++ cs) ∧ Text 0#8 m' s cs ∧
      ∀ a, ¬ OneOf (d + BitVec.ofNat 32 ds.length) (cs.length + 1) a → m' a = m a := by
  have hinside : ∀ {x}, OneOf (d + BitVec.ofNat 32 ds.length) (cs.length + 1) x →
      OneOf d (ds.length + cs.length + 1) x := fun hx => hx.offset
  have ha' : Clear (d + BitVec.ofNat 32 ds.length) (cs.length + 1) s (cs.length + 1) :=
    fun x hx => ha x (hinside hx)
  obtain ⟨m', hcopy, htext, hsame, hframe⟩ :=
    @strcpy_copies m _ s cs fuel hs ha' (by omega) (by omega)
  have hfirst : ∀ x, OneOf d ds.length x → m' x = m x :=
    fun x hx => hframe x (oneOf_not (by omega) hx)
  refine ⟨m', ?_, hd.join hfirst htext, hsame, hframe⟩
  unfold strcat
  rw [endLoop_eq hd (by omega), Option.bind_some]
  unfold strcpy at hcopy
  cases hloop : copyLoop fuel m (d + BitVec.ofNat 32 ds.length) s with
  | none =>
    rw [hloop] at hcopy
    cases hcopy
  | some m'' =>
    rw [hloop] at hcopy
    cases hcopy
    rfl

/-- `a` at 8 and `bc` at 16. -/
def abc : Word → Byte := fun a =>
  if a = 8#32 then 0x61#8 else if a = 16#32 then 0x62#8 else if a = 17#32 then 0x63#8 else 0#8

theorem strcat_joins_abc : ∃ m', strcat 9 abc 8#32 16#32 = some (m', 8#32) ∧
    Text 0#8 m' 8#32 [0x61#8, 0x62#8, 0x63#8] ∧ Text 0#8 m' 16#32 [0x62#8, 0x63#8] ∧
      ∀ a, ¬ OneOf 9#32 3 a → m' a = abc a :=
  @strcat_joins abc 8#32 16#32 [0x62#8, 0x63#8] [0x61#8] 9 ⟨rfl, by decide, rfl⟩
    ⟨rfl, by decide, rfl, by decide, rfl⟩ (clear_of_le (by decide) (by decide)) (by decide)
    (by decide)

/-! ## Writing up to a count -/

theorem zeroLoop_eq (k : Nat) (m : Word → Byte) (d : Word) :
    zeroLoop k m d = write m d (List.replicate k 0#8) := by
  induction k generalizing m d with
  | zero => rfl
  | succ k ih =>
    unfold zeroLoop
    rw [ih]
    rfl

/-- What fits, and `NUL` up to the count. -/
theorem copyAtMost_eq {k : Nat} (hs : Text 0#8 m s cs) (ha : Clear d k s (cs.length + 1)) :
    copyAtMost k m d s = write m d (cs.take k ++ List.replicate (k - cs.length) 0#8) := by
  induction k generalizing m d s cs with
  | zero => simp [copyAtMost, write]
  | succ k ih =>
    cases cs with
    | nil =>
      have hnul : m s = 0#8 := hs
      have htwice : update (update m d 0#8) d 0#8 = update m d 0#8 := update_idem ..
      unfold copyAtMost
      simp only
      rw [hnul, if_pos rfl, zeroLoop_eq]
      show write (update (update m d 0#8) d 0#8) (d + 1#32) _ = write (update m d 0#8) _ _
      rw [htwice]
    | cons c cs =>
      obtain ⟨hc, hne, hrest⟩ := hs
      have hd : ¬ OneOf (s + 1#32) (cs.length + 1) d := fun hw => ha.head hw.tail
      unfold copyAtMost
      simp only
      rw [hc, if_neg hne, ih (hrest.update hd c) ha.tail, List.take_succ_cons, List.length_cons,
        Nat.add_sub_add_right]
      rfl

/-- **`strncpy` writes `n` bytes, whatever the length of the string**: as much of it as fits, then
`NUL` up to the count; so it leaves the string when that and its `NUL` fit. -/
theorem strncpy_pads (hs : Text 0#8 m s cs) (ha : Clear d n.toNat s (cs.length + 1)) :
    strncpy m d s n = (write m d (cs.take n.toNat ++ List.replicate (n.toNat - cs.length) 0#8), d) ∧
      (∀ a, ¬ OneOf d n.toNat a → (strncpy m d s n).1 a = m a) ∧
      (cs.length < n.toNat → Text 0#8 (strncpy m d s n).1 d cs) := by
  have heq : (strncpy m d s n).1 =
      write m d (cs.take n.toNat ++ List.replicate (n.toNat - cs.length) 0#8) :=
    copyAtMost_eq hs ha
  refine ⟨Prod.ext heq rfl, fun a hout => ?_, fun hlt => ?_⟩
  · rw [heq]
    apply write_frame
    rw [List.length_append, List.length_take, List.length_replicate]
    have hsum : min n.toNat cs.length + (n.toNat - cs.length) = n.toNat := by omega
    rw [hsum]
    exact hout
  · have hrest : n.toNat - cs.length = n.toNat - cs.length - 1 + 1 := by omega
    rw [heq, List.take_of_length_le (by omega), hrest, List.replicate_succ]
    apply write_text hs.not_mem
    rw [List.length_replicate]
    have hn := n.isLt
    omega

theorem strncpy_pads_abc : strncpy abc 32#32 16#32 5#32 =
      (write abc 32#32 ([0x62#8, 0x63#8].take 5 ++ List.replicate (5 - 2) 0#8), 32#32) ∧
    (∀ a, ¬ OneOf 32#32 5 a → (strncpy abc 32#32 16#32 5#32).1 a = abc a) ∧
      (2 < 5 → Text 0#8 (strncpy abc 32#32 16#32 5#32).1 32#32 [0x62#8, 0x63#8]) :=
  @strncpy_pads abc 32#32 16#32 5#32 [0x62#8, 0x63#8] ⟨rfl, by decide, rfl, by decide, rfl⟩
    fun _ hd hs => absurd hd (clear_of_le (by decide) (by decide) _ hs)

/-! ## Looking for something -/

theorem setLoop_eq {c : Byte} (hset : Text 0#8 m set cs) (hfuel : cs.length < fuel) :
    setLoop m c fuel set = some (if c ∈ cs then c else 0#8) := by
  induction cs generalizing set fuel with
  | nil =>
    cases fuel with
    | zero => exact absurd hfuel (Nat.not_lt_zero _)
    | succ fuel =>
      have hnul : m set = 0#8 := hset
      unfold setLoop
      rw [hnul, if_neg fun h => h.1 rfl, if_neg List.not_mem_nil]
  | cons x cs ih =>
    cases fuel with
    | zero => exact absurd hfuel (Nat.not_lt_zero _)
    | succ fuel =>
      obtain ⟨hx, hne, hrest⟩ := hset
      unfold setLoop
      rw [hx]
      by_cases hxc : x = c
      · rw [if_neg fun h => h.2 hxc, hxc, if_pos List.mem_cons_self]
      · rw [if_pos ⟨hne, hxc⟩, ih hrest (Nat.lt_of_succ_lt_succ hfuel)]
        simp [Ne.symm hxc]

/-- The longest prefix of bytes that the loop goes on at. -/
theorem spanLoop_eq {breaks : Byte → Bool} {rounds : Nat} (hs : Text 0#8 m s cs)
    (hset : Text 0#8 m set ds) (hrounds : ds.length < rounds) (hfuel : cs.length < fuel) :
    spanLoop breaks m set rounds fuel s = some (s + BitVec.ofNat 32
      (cs.takeWhile fun c => !breaks (if c ∈ ds then c else 0#8)).length) := by
  induction cs generalizing s fuel with
  | nil =>
    cases fuel with
    | zero => exact absurd hfuel (Nat.not_lt_zero _)
    | succ fuel =>
      unfold spanLoop
      rw [if_pos (show m s = 0#8 from hs), List.takeWhile_nil, List.length_nil, BitVec.add_zero]
  | cons c cs ih =>
    cases fuel with
    | zero => exact absurd hfuel (Nat.not_lt_zero _)
    | succ fuel =>
      obtain ⟨hc, hne, hrest⟩ := hs
      unfold spanLoop
      rw [hc, if_neg hne, setLoop_eq hset hrounds, Option.bind_some]
      by_cases hb : breaks (if c ∈ ds then c else 0#8) = true
      · rw [if_pos hb, List.takeWhile_cons_of_neg (by simp [hb]), List.length_nil, BitVec.add_zero]
      · rw [if_neg hb, ih hrest (Nat.lt_of_succ_lt_succ hfuel),
          List.takeWhile_cons_of_pos (by simp [hb]), List.length_cons, ← offset_succ]

/-- **`strspn` and `strcspn`** measure the longest prefix of bytes that are in the set, or are
not. -/
theorem spans_split (hs : Text 0#8 m s cs) (hset : Text 0#8 m set ds)
    (hfuel : cs.length < fuel ∧ ds.length < fuel) :
    strspn fuel m s set = some (BitVec.ofNat 32 (cs.takeWhile fun c => decide (c ∈ ds)).length) ∧
      strcspn fuel m s set =
        some (BitVec.ofNat 32 (cs.takeWhile fun c => decide (c ∉ ds)).length) := by
  have hback : ∀ k : Word, s + k - s = k := fun k => by rw [BitVec.add_comm, BitVec.add_sub_cancel]
  have hmem : ∀ c, (if c ∈ ds then c else 0#8) = 0#8 ↔ c ∉ ds := by
    intro c
    by_cases hc : c ∈ ds
    · rw [if_pos hc]
      exact ⟨fun h => absurd (h ▸ hc) hset.not_mem, fun h => absurd hc h⟩
    · rw [if_neg hc]
      exact ⟨fun _ => hc, fun _ => rfl⟩
  have hin : (fun c => !(fun q : Byte => q == 0#8) (if c ∈ ds then c else 0#8)) =
      fun c => decide (c ∈ ds) := by
    funext c
    by_cases hc : c ∈ ds
    · have hne : (if c ∈ ds then c else 0#8) ≠ 0#8 := fun h => (hmem c).mp h hc
      rw [if_pos hc] at hne
      simp [hc, hne]
    · simp only [hc, if_false, beq_self_eq_true, Bool.not_true, decide_false]
  have hout : (fun c => !(fun q : Byte => q != 0#8) (if c ∈ ds then c else 0#8)) =
      fun c => decide (c ∉ ds) := by
    funext c
    have hc := congrFun hin c
    simp only at hc ⊢
    rw [decide_not, ← hc]
    rfl
  unfold strspn strcspn
  rw [spanLoop_eq hs hset hfuel.2 hfuel.1, spanLoop_eq hs hset hfuel.2 hfuel.1, Option.map_some,
    Option.map_some, hback, hback, hin, hout]
  exact ⟨rfl, rfl⟩

theorem spans_split_abc :
    strspn 9 abc 16#32 16#32 = some (BitVec.ofNat 32
        ([0x62#8, 0x63#8].takeWhile fun c => decide (c ∈ [0x62#8, 0x63#8])).length) ∧
      strcspn 9 abc 16#32 16#32 = some (BitVec.ofNat 32
        ([0x62#8, 0x63#8].takeWhile fun c => decide (c ∉ [0x62#8, 0x63#8])).length) :=
  @spans_split abc 16#32 16#32 [0x62#8, 0x63#8] [0x62#8, 0x63#8] 9
    ⟨rfl, by decide, rfl, by decide, rfl⟩ ⟨rfl, by decide, rfl, by decide, rfl⟩ (by decide)

/-- The inner loop of `strstr` ends at the `NUL` of `n` if and only if `n` stands at `h`. -/
theorem matchLoop_eq (hh : Text 0#8 m h hs) (hn : Text 0#8 m n ns) (hfuel : ns.length < fuel) :
    ∃ b, matchLoop m fuel h n = some b ∧ (b = 0#8 ↔ ns <+: hs) := by
  induction ns generalizing h n hs fuel with
  | nil =>
    cases fuel with
    | zero => exact absurd hfuel (Nat.not_lt_zero _)
    | succ fuel =>
      have hnul : m n = 0#8 := hn
      unfold matchLoop
      rw [hnul, if_neg fun hc => hc.2.1 rfl]
      exact ⟨0#8, rfl, fun _ => List.nil_prefix, fun _ => rfl⟩
  | cons c ns ih =>
    cases fuel with
    | zero => exact absurd hfuel (Nat.not_lt_zero _)
    | succ fuel =>
      obtain ⟨hc, hne, hrest⟩ := hn
      unfold matchLoop
      cases hs with
      | nil =>
        have hnul : m h = 0#8 := hh
        rw [hnul, if_neg fun hall => hall.1 rfl, hc]
        refine ⟨c, rfl, fun hzero => absurd hzero hne, fun hp => ?_⟩
        exact absurd (List.prefix_nil.mp hp) (List.cons_ne_nil c ns)
      | cons x hs =>
        obtain ⟨hx, hxne, hhrest⟩ := hh
        by_cases hxc : x = c
        · rw [hx, hc, if_pos ⟨hxne, hne, hxc⟩, hxc]
          obtain ⟨b, hb, hiff⟩ := ih hhrest hrest (Nat.lt_of_succ_lt_succ hfuel)
          exact ⟨b, hb, hiff.trans (List.prefix_cons_inj c).symm⟩
        · rw [hx, hc, if_neg fun hall => hxc hall.2.2]
          refine ⟨c, rfl, fun hzero => absurd hzero hne, fun hp => ?_⟩
          exact absurd (List.cons_prefix_cons.mp hp).1 (Ne.symm hxc)

theorem findLoop_eq {rounds : Nat} (hh : Text 0#8 m h hs) (hn : Text 0#8 m n ns) (hne : ns ≠ [])
    (hrounds : ns.length < rounds) (hfuel : hs.length < fuel) :
    (∀ i, ns <+: hs.drop i → (∀ j < i, ¬ ns <+: hs.drop j) →
        findLoop m n rounds fuel h = some (h + BitVec.ofNat 32 i)) ∧
      ((∀ j, ¬ ns <+: hs.drop j) → findLoop m n rounds fuel h = some 0#32) := by
  induction hs generalizing h fuel with
  | nil =>
    cases fuel with
    | zero => exact absurd hfuel (Nat.not_lt_zero _)
    | succ fuel =>
      unfold findLoop
      rw [if_pos (show m h = 0#8 from hh)]
      refine ⟨fun i hi _ => ?_, fun _ => rfl⟩
      rw [List.drop_nil] at hi
      exact absurd (List.prefix_nil.mp hi) hne
  | cons x hs ih =>
    cases fuel with
    | zero => exact absurd hfuel (Nat.not_lt_zero _)
    | succ fuel =>
      have hx : m h ≠ 0#8 := by
        rw [hh.1]
        exact hh.2.1
      obtain ⟨b, hb, hiff⟩ := matchLoop_eq hh hn hrounds
      obtain ⟨hfirst, hnone⟩ := ih hh.2.2 (Nat.lt_of_succ_lt_succ hfuel)
      unfold findLoop
      rw [if_neg hx, hb, Option.bind_some]
      by_cases hhere : ns <+: x :: hs
      · rw [if_pos (hiff.mpr hhere)]
        constructor
        · intro i _ hleast
          cases i with
          | zero => rw [BitVec.add_zero]
          | succ i => exact absurd hhere (hleast 0 (Nat.succ_pos i))
        · intro hno
          exact absurd hhere (hno 0)
      · rw [if_neg fun hzero => hhere (hiff.mp hzero)]
        constructor
        · intro i hi hleast
          cases i with
          | zero => exact absurd hi hhere
          | succ i =>
            rw [hfirst i hi fun j hj => hleast (j + 1) (Nat.succ_lt_succ hj), ← offset_succ]
        · intro hno
          exact hnone fun j => hno (j + 1)

/-- **`strstr` finds the first place where the string stands**, or returns `NULL` where there is
none. -/
theorem strstr_first (hh : Text 0#8 m h hs) (hn : Text 0#8 m n ns)
    (hfuel : hs.length < fuel ∧ ns.length < fuel) :
    (∀ i, ns <+: hs.drop i → (∀ j < i, ¬ ns <+: hs.drop j) →
        strstr fuel m h n = some (h + BitVec.ofNat 32 i)) ∧
      ((∀ j, ¬ ns <+: hs.drop j) → strstr fuel m h n = some 0#32) := by
  unfold strstr
  cases ns with
  | nil =>
    rw [if_pos (show m n = 0#8 from hn)]
    constructor
    · intro i _ hleast
      cases i with
      | zero => rw [BitVec.add_zero]
      | succ i => exact absurd List.nil_prefix (hleast 0 (Nat.succ_pos i))
    · intro hno
      exact absurd List.nil_prefix (hno 0)
  | cons c ns =>
    have hne : m n ≠ 0#8 := by
      rw [hn.1]
      exact hn.2.1
    rw [if_neg hne]
    exact findLoop_eq hh hn (List.cons_ne_nil c ns) hfuel.2 hfuel.1

/-- `c` in `bc`. -/
theorem strstr_first_abc : strstr 9 abc 16#32 17#32 = some (16#32 + BitVec.ofNat 32 1) :=
  (@strstr_first abc 16#32 17#32 [0x62#8, 0x63#8] [0x63#8] 9
    ⟨rfl, by decide, rfl, by decide, rfl⟩ ⟨rfl, by decide, rfl⟩ (by decide)).1 1 (by decide)
    (by decide)

end

end Purv.Rt

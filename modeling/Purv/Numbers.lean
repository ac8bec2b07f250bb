import Purv.State

/-!
# The number parsers of the guest runtime (`sqlite/rt.c`)

A string is the list of its bytes before the `NUL`, and a pointer into it is what is left.

* `strtol`, `strtoul`, `strtoll` — the parsers;
* `Spells`, `Longest` — what a text spells under a reading of the base, and the longest prefix that
  spells a number;
* `cReading`, `rtReading` — the bases and their prefixes, in the C standard and here;
* `parsers_longest` — the parsers return the value of the longest prefix.
-/

namespace Purv.Rt

/-! ## The parsers -/

/-- `isdigit`. -/
def isdigit (c : Byte) : Bool := 0x30#8 ≤ c ∧ c ≤ 0x39#8

/-- `isspace`. -/
def isspace (c : Byte) : Bool := c = 0x20#8 ∨ 0x09#8 ≤ c ∧ c ≤ 0x0d#8

/-- `d` of `strtol`, for the characters that are a digit of some base. -/
def digitOf (c : Byte) : Option Nat :=
  if isdigit c then some (c.toNat - 0x30)
  else if 0x61#8 ≤ c ∧ c ≤ 0x7a#8 then some (c.toNat - 0x61 + 10)
  else if 0x41#8 ≤ c ∧ c ≤ 0x5a#8 then some (c.toNat - 0x41 + 10)
  else none

/-- The sign, and what follows it. -/
def signOf : List Byte → Word × List Byte
  | [] => (1#32, [])
  | c :: s => if c = 0x2d#8 then (-1#32, s) else if c = 0x2b#8 then (1#32, s) else (1#32, c :: s)

/-- The digit loop of `strtol`. -/
def digitsFrom (base : Nat) : List Byte → Word → Word × List Byte
  | [], v => (v, [])
  | c :: s, v =>
    match digitOf c with
    | none => (v, c :: s)
    | some d =>
      if d ≥ base then (v, c :: s)
      else digitsFrom base s (v * BitVec.ofNat 32 base + BitVec.ofNat 32 d)

/-- `strtol`, with `*end` beside the value. -/
def strtol (s : List Byte) (base : Nat) : Word × List Byte :=
  let (sign, s) := signOf (s.dropWhile isspace)
  let base := if base = 0 then 10 else base
  let (v, s) := digitsFrom base s 0#32
  (sign * v, s)

/-- `strtoul`. -/
def strtoul (s : List Byte) (base : Nat) : Word × List Byte := strtol s base

/-- `strtoll`: the `long` is sign extended. -/
def strtoll (s : List Byte) (base : Nat) : BitVec 64 × List Byte :=
  let (v, s) := strtol s base
  (v.signExtend 64, s)

/-! ## What a text spells -/

/-- A digit of the base. -/
def IsDigit (base : Nat) (c : Byte) : Prop := ∃ d, digitOf c = some d ∧ d < base

/-- The value of digits. -/
def valueFrom (base : Nat) (ds : List Byte) (v : Nat) : Nat :=
  ds.foldl (fun v c => v * base + (digitOf c).getD 0) v

/-- The signs. -/
inductive Sign : List Byte → Int → Prop
  | plain : Sign [] 1
  | plus : Sign [0x2b#8] 1
  | minus : Sign [0x2d#8] (-1)

/-- Which prefixes a base allows before which digits, and the base of these. -/
abbrev Reading := Nat → List Byte → List Byte → Nat → Prop

/-- The readings of a base in the C standard. -/
inductive cReading : Reading
  | base {base : Nat} (ds : List Byte) (h : base ≠ 0) : cReading base [] ds base
  | hex {base : Nat} (x : Byte) (ds : List Byte) (h : base = 0 ∨ base = 16)
      (hx : x = 0x78#8 ∨ x = 0x58#8) : cReading base [0x30#8, x] ds 16
  | octal (ds : List Byte) : cReading 0 [] (0x30#8 :: ds) 8
  | decimal (c : Byte) (ds : List Byte) (hc : c ≠ 0x30#8) : cReading 0 [] (c :: ds) 10

/-- The readings of `rt.c`: no prefix, and base 0 is ten. -/
inductive rtReading : Reading
  | base {base : Nat} (ds : List Byte) : rtReading base [] ds (if base = 0 then 10 else base)

/-- The text is white space, a sign, a prefix and digits, and its value is `z`. -/
def Spells (reading : Reading) (base : Nat) (text : List Byte) (z : Int) : Prop :=
  ∃ ws sgn σ pre ds b, text = ws ++ sgn ++ pre ++ ds ∧ (∀ c ∈ ws, isspace c) ∧ Sign sgn σ ∧
    reading base pre ds b ∧ ds ≠ [] ∧ (∀ c ∈ ds, IsDigit b c) ∧ z = σ * valueFrom b ds 0

/-- `s` is a text that spells `z`, and `rest`; no longer prefix of it spells a number. -/
def Longest (reading : Reading) (base : Nat) (s rest : List Byte) (z : Int) : Prop :=
  ∃ text, s = text ++ rest ∧ Spells reading base text z ∧
    ∀ text' rest' z', s = text' ++ rest' → Spells reading base text' z' →
      text'.length ≤ text.length

/-- The bases that the C standard allows. -/
def IsBase (base : Nat) : Prop := base = 0 ∨ 2 ≤ base ∧ base ≤ 36

/-! ## The digit loop -/

theorem digitsFrom_digits {base : Nat} (ds rest : List Byte) (hds : ∀ c ∈ ds, IsDigit base c)
    (n : Nat) :
    digitsFrom base (ds ++ rest) (BitVec.ofNat 32 n) =
      digitsFrom base rest (BitVec.ofNat 32 (valueFrom base ds n)) := by
  induction ds generalizing n with
  | nil => rfl
  | cons c ds ih =>
    obtain ⟨d, hd, hlt⟩ := hds c List.mem_cons_self
    have hmod : BitVec.ofNat 32 n * BitVec.ofNat 32 base + BitVec.ofNat 32 d =
        BitVec.ofNat 32 (n * base + d) := by
      rw [BitVec.ofNat_add, BitVec.ofNat_mul]
    rw [List.cons_append, digitsFrom, hd]
    simp only [if_neg (Nat.not_le.mpr hlt), hmod]
    rw [ih fun c' hc' => hds c' (List.mem_cons_of_mem _ hc')]
    simp [valueFrom, hd]

theorem digitsFrom_stop {base : Nat} {rest : List Byte} (v : Word)
    (hrest : ∀ c s, rest = c :: s → ¬ IsDigit base c) : digitsFrom base rest v = (v, rest) := by
  cases rest with
  | nil => rfl
  | cons c s =>
    have hc := hrest c s rfl
    unfold digitsFrom
    cases hd : digitOf c with
    | none => rfl
    | some d =>
      have hge : d ≥ base := Nat.le_of_not_lt fun hlt => hc ⟨d, hd, hlt⟩
      simp only [if_pos hge]

/-! ## White space and sign -/

theorem digitOf_space : ∀ c : Byte, isspace c → digitOf c = none := by decide

theorem IsDigit.not_space {base : Nat} {c : Byte} (hc : IsDigit base c) : isspace c = false := by
  obtain ⟨d, hd, _⟩ := hc
  rw [Bool.eq_false_iff]
  intro hspace
  rw [digitOf_space c hspace] at hd
  cases hd

theorem IsDigit.not_sign {base : Nat} {c : Byte} (hc : IsDigit base c) :
    c ≠ 0x2d#8 ∧ c ≠ 0x2b#8 := by
  obtain ⟨d, hd, _⟩ := hc
  constructor
  · rintro rfl
    cases hd
  · rintro rfl
    cases hd

theorem dropWhile_space {ws s : List Byte} (hws : ∀ c ∈ ws, isspace c)
    (hs : ∀ c t, s = c :: t → isspace c = false) : (ws ++ s).dropWhile isspace = s := by
  rw [List.dropWhile_append_of_pos hws]
  cases s with
  | nil => rfl
  | cons c t => rw [List.dropWhile_cons_of_neg (by simp [hs c t rfl])]

/-- A sign before a digit. -/
theorem signOf_sign {base : Nat} {sgn : List Byte} {σ : Int} (hσ : Sign sgn σ) {c : Byte}
    (hc : IsDigit base c) (s : List Byte) :
    signOf (sgn ++ c :: s) = (BitVec.ofInt 32 σ, c :: s) := by
  obtain ⟨hminus, hplus⟩ := hc.not_sign
  cases hσ with
  | plain => simp [signOf, hminus, hplus]
  | plus => rfl
  | minus => rfl

theorem Sign.not_space {base : Nat} {sgn : List Byte} {σ : Int} (hσ : Sign sgn σ) {c : Byte}
    (hc : IsDigit base c) (s : List Byte) (c' : Byte) (t : List Byte)
    (h : sgn ++ c :: s = c' :: t) : isspace c' = false := by
  cases hσ with
  | plain =>
    obtain ⟨rfl, _⟩ := List.cons.inj h
    exact hc.not_space
  | plus =>
    obtain ⟨rfl, _⟩ := List.cons.inj h
    rfl
  | minus =>
    obtain ⟨rfl, _⟩ := List.cons.inj h
    rfl

/-! ## The longest prefix -/

/-- One more digit spells a number too. -/
theorem Longest.maximal {base : Nat} {ws sgn ds : List Byte} (rest : List Byte) {σ : Int}
    (hws : ∀ c ∈ ws, isspace c) (hσ : Sign sgn σ)
    (hds : ∀ c ∈ ds, IsDigit (if base = 0 then 10 else base) c)
    (hmax : ∀ text' rest' z', ws ++ sgn ++ [] ++ ds ++ rest = text' ++ rest' →
      Spells rtReading base text' z' → text'.length ≤ (ws ++ sgn ++ [] ++ ds).length)
    (c : Byte) (s : List Byte) (hrest : rest = c :: s) :
    ¬ IsDigit (if base = 0 then 10 else base) c := by
  intro hc
  have hle := hmax (ws ++ sgn ++ [] ++ (ds ++ [c])) s _ (by simp [hrest])
    ⟨ws, sgn, σ, [], ds ++ [c], _, rfl, hws, hσ, .base _, by simp, ?_, rfl⟩
  · simp at hle
  · intro c' hc'
    rcases List.mem_append.mp hc' with h | h
    · exact hds c' h
    · rw [List.mem_singleton.mp h]
      exact hc

/-- **`strtol`** finds the longest prefix, and its value up to overflow. -/
theorem strtol_longest {base : Nat} {s rest : List Byte} {z : Int}
    (h : Longest rtReading base s rest z) : strtol s base = (BitVec.ofInt 32 z, rest) := by
  obtain ⟨text, hs, ⟨ws, sgn, σ, pre, ds, b, htext, hws, hσ, hread, hne, hds, hz⟩, hmax⟩ := h
  cases hread with
  | base =>
    have hstop := Longest.maximal rest hws hσ hds (by rw [← htext, ← hs]; exact hmax)
    obtain ⟨c, ds', rfl⟩ := List.exists_cons_of_ne_nil hne
    have hc := hds c List.mem_cons_self
    have hsplit : s = ws ++ (sgn ++ c :: (ds' ++ rest)) := by
      rw [hs, htext]
      simp
    unfold strtol
    rw [hsplit, dropWhile_space hws (hσ.not_space hc _), signOf_sign hσ hc]
    simp only
    have hrun := digitsFrom_digits (c :: ds') rest hds 0
    rw [digitsFrom_stop _ hstop] at hrun
    rw [← List.cons_append, hrun, hz, BitVec.ofInt_mul, BitVec.ofInt_natCast]

/-- A string of which no prefix spells a number gives zero. -/
theorem strtol_none {base : Nat} {s : List Byte}
    (h : ∀ text rest z, s = text ++ rest → ¬ Spells rtReading base text z) :
    (strtol s base).1 = 0#32 := by
  have hsplit := List.takeWhile_append_dropWhile (p := isspace) (l := s)
  have hws : ∀ c ∈ s.takeWhile isspace, isspace c := by
    apply List.all_eq_true.mp
    exact List.all_takeWhile
  obtain ⟨sgn, σ, hσ, hsgn⟩ : ∃ sgn σ, Sign sgn σ ∧
      s.dropWhile isspace = sgn ++ (signOf (s.dropWhile isspace)).2 := by
    cases hd : s.dropWhile isspace with
    | nil => exact ⟨[], 1, .plain, rfl⟩
    | cons c t =>
      unfold signOf
      by_cases hminus : c = 0x2d#8
      · exact ⟨[0x2d#8], -1, .minus, by simp [hminus]⟩
      · by_cases hplus : c = 0x2b#8
        · exact ⟨[0x2b#8], 1, .plus, by simp [hplus]⟩
        · exact ⟨[], 1, .plain, by simp [hminus, hplus]⟩
  have hstop : ∀ c t, (signOf (s.dropWhile isspace)).2 = c :: t →
      ¬ IsDigit (if base = 0 then 10 else base) c := by
    intro c t hct hc
    rw [hct] at hsgn
    have hs : s = s.takeWhile isspace ++ sgn ++ [] ++ [c] ++ t := by
      rw [hsgn] at hsplit
      simpa using hsplit.symm
    apply h _ t _ hs
    refine ⟨_, sgn, σ, [], [c], _, rfl, hws, hσ, .base _, by simp, ?_, rfl⟩
    intro c' hc'
    rw [List.mem_singleton.mp hc']
    exact hc
  unfold strtol
  simp only [digitsFrom_stop _ hstop]
  exact BitVec.mul_zero

/-- What the C standard asks of the parsers under a reading, of the values that fit a `long`; a
value of `strtoul` may fit an `unsigned long` instead. -/
def Parses (reading : Reading) (base : Nat) (s : List Byte) : Prop :=
  (∀ rest z, Longest reading base s rest z →
    ((strtol s base).2 = rest ∧ (-2 ^ 31 ≤ z → z < 2 ^ 31 → (strtol s base).1.toInt = z)) ∧
      ((strtoul s base).2 = rest ∧
        (0 ≤ z → z < 2 ^ 32 → ((strtoul s base).1.toNat : Int) = z)) ∧
      (strtoll s base).2 = rest ∧
        (-2 ^ 31 ≤ z → z < 2 ^ 31 → (strtoll s base).1.toInt = z)) ∧
  ((∀ text rest z, s = text ++ rest → ¬ Spells reading base text z) →
    (strtol s base).1 = 0#32 ∧ (strtoul s base).1 = 0#32 ∧ (strtoll s base).1 = 0#64)

theorem toInt_ofInt_long {z : Int} (hlo : -2 ^ 31 ≤ z) (hhi : z < 2 ^ 31) :
    (BitVec.ofInt 32 z).toInt = z := by
  rw [BitVec.toInt_ofInt]
  exact Int.bmod_eq_of_le (by simpa using hlo) (by simpa using hhi)

/-- **The parsers return the value of the longest prefix** of white space, sign and digits. -/
theorem parsers_longest (base : Nat) (s : List Byte) : Parses rtReading base s := by
  constructor
  · intro rest z hlong
    have hrun := strtol_longest hlong
    refine ⟨⟨by rw [hrun], ?_⟩, ⟨by rw [strtoul, hrun], ?_⟩, by rw [strtoll, hrun], ?_⟩
    · intro hlo hhi
      rw [hrun]
      exact toInt_ofInt_long hlo hhi
    · intro hlo hhi
      rw [strtoul, hrun, BitVec.toNat_ofInt]
      omega
    · intro hlo hhi
      rw [strtoll, hrun, BitVec.toInt_signExtend_of_le (by omega)]
      exact toInt_ofInt_long hlo hhi
  · intro hnone
    have hzero := strtol_none hnone
    refine ⟨hzero, hzero, ?_⟩
    rw [strtoll]
    simp only [hzero]
    rfl

/-- `0x1f` in base 16 is read as the zero before the `x`. -/
theorem hex_prefix_unread :
    ¬ ∀ base, IsBase base → ∀ s, Parses cReading base s := by
  intro h
  have hlong : Longest cReading 16 [0x30#8, 0x78#8, 0x31#8, 0x66#8] [] 31 := by
    refine ⟨[0x30#8, 0x78#8, 0x31#8, 0x66#8], rfl, ?_, ?_⟩
    · refine ⟨[], [], 1, [0x30#8, 0x78#8], [0x31#8, 0x66#8], 16, rfl, by simp, .plain,
        .hex _ _ (.inr rfl) (.inl rfl), by simp, ?_, rfl⟩
      intro c hc
      rcases List.mem_cons.mp hc with rfl | hc
      · exact ⟨1, rfl, by omega⟩
      · rw [List.mem_singleton.mp hc]
        exact ⟨15, rfl, by omega⟩
    · intro text' rest' z' hs _
      have := congrArg List.length hs
      rw [List.length_append] at this
      omega
  have hval := ((h 16 (.inr (by omega)) _).1 [] 31 hlong).1.2 (by omega) (by omega)
  revert hval
  decide

end Purv.Rt

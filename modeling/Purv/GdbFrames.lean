import Purv.State

/-!
# The packet framing of the gdb stub (`gdbstub.c`)

A packet is `$body#cc` with a checksum of two hexadecimal digits, among bytes that are skipped.

* `gdbRecv`, `gdbFrame`, `gdbSend` — one packet in, and one out with its resends;
* `Packet`, `Noise`, `Item.bytes` — what a stream is made of;
* `received` — successive calls of `gdbRecv`;
* `received_items` — they return the bodies with the right checksum, in order;
* `packets_received` — and accept what `gdbSend` writes.
-/

namespace Purv.Gdb

/-- `GDB_BUF`. -/
def GDB_BUF : Nat := 4200

def DOLLAR : Byte := 0x24#8
def HASH : Byte := 0x23#8
def PLUS : Byte := 0x2b#8
def MINUS : Byte := 0x2d#8

/-- `hexval`: -1 for what is no digit. -/
def hexval (c : Byte) : Word :=
  if 0x30#8 ≤ c ∧ c ≤ 0x39#8 then c.setWidth 32 - 0x30#32
  else if 0x61#8 ≤ c ∧ c ≤ 0x66#8 then c.setWidth 32 - 0x61#32 + 10#32
  else if 0x41#8 ≤ c ∧ c ≤ 0x46#8 then c.setWidth 32 - 0x41#32 + 10#32
  else -1#32

/-- `hexval(c) >= 0`. -/
def isHex (c : Byte) : Bool := hexval c ≠ -1#32

/-- `hexd[d]`. -/
def hexd (d : Byte) : Byte := if d < 10#8 then 0x30#8 + d else 0x61#8 + (d - 10#8)

/-- `(uint8_t)((hexval(h1) << 4) | hexval(h2))`. -/
def hexByte (h1 h2 : Byte) : Byte := (hexval h1 <<< 4 ||| hexval h2).setWidth 8

/-! ## Receiving -/

/-- `do { c = gdb_read_byte(fd); ... } while (c != '$')`: what follows the next `$`. -/
def skipNoise : List Byte → Option (List Byte)
  | [] => none
  | c :: s => if c = DOLLAR then some s else skipNoise s

/-- The loop up to `#`: the buffer, the checksum, and what follows. -/
def readBody (max : Nat) : List Byte → List Byte → Byte → Option (List Byte × Byte × List Byte)
  | [], _, _ => none
  | c :: s, buf, sum =>
    if c = HASH then some (buf, sum, s)
    else readBody max s (if buf.length + 1 < max then buf ++ [c] else buf) (sum + c)

theorem skipNoise_length {s t : List Byte} (h : skipNoise s = some t) : t.length < s.length := by
  induction s with
  | nil => cases h
  | cons c s ih =>
    unfold skipNoise at h
    split at h
    · cases h
      simp
    · exact Nat.lt_succ_of_lt (ih h)

theorem readBody_length {max : Nat} {s buf : List Byte} {sum : Byte}
    {o : List Byte × Byte × List Byte} (h : readBody max s buf sum = some o) :
    o.2.2.length < s.length := by
  induction s generalizing buf sum with
  | nil => cases h
  | cons c s ih =>
    unfold readBody at h
    split at h
    · cases h
      simp
    · exact Nat.lt_succ_of_lt (ih h)

/-- What a call of `gdb_recv` returns, with the acks it wrote and the input that it left. -/
structure Received where
  /-- The body; `none` for -1. -/
  body : Option (List Byte)
  acks : List Byte
  rest : List Byte

/-- `gdb_recv`, with `max` bytes of buffer and `g_noack`. -/
def gdbRecv (max : Nat) (noack : Bool) (s : List Byte) : Received :=
  match _h₁ : skipNoise s with
  | none => ⟨none, [], []⟩
  | some t =>
    match _h₂ : readBody max t [] 0#8 with
    | some (buf, sum, h1 :: h2 :: u) =>
      if noack = false ∧ hexByte h1 h2 ≠ sum then
        let again := gdbRecv max noack u
        { again with acks := MINUS :: again.acks }
      else ⟨some buf, if noack then [] else [PLUS], u⟩
    | _ => ⟨none, [], []⟩
termination_by s.length
decreasing_by
  have := skipNoise_length _h₁
  have := readBody_length _h₂
  simp only [List.length_cons] at this
  omega

/-- A call that returns a packet has read it. -/
theorem gdbRecv_rest {max : Nat} {noack : Bool} {s : List Byte} {b : List Byte}
    (h : (gdbRecv max noack s).body = some b) : (gdbRecv max noack s).rest.length < s.length := by
  fun_induction gdbRecv max noack s with
  | case1 => cases h
  | case2 s t h₁ buf sum h1 h2 u h₂ hc again ih =>
    have hlt := ih h
    have := skipNoise_length h₁
    have := readBody_length h₂
    simp only [List.length_cons] at this
    show (gdbRecv max noack u).rest.length < s.length
    omega
  | case3 s t h₁ buf sum h1 h2 u h₂ hc =>
    have := skipNoise_length h₁
    have := readBody_length h₂
    simp only [List.length_cons] at this
    simp only
    omega
  | case4 => cases h

/-- Calls of `gdb_recv` up to the one that returns -1: the bodies, and all the acks. -/
def received (max : Nat) (noack : Bool) (s : List Byte) : List (List Byte) × List Byte :=
  match _h : (gdbRecv max noack s).body with
  | none => ([], (gdbRecv max noack s).acks)
  | some b =>
    let later := received max noack (gdbRecv max noack s).rest
    (b :: later.1, (gdbRecv max noack s).acks ++ later.2)
termination_by s.length
decreasing_by exact gdbRecv_rest _h

/-! ## Sending -/

/-- The loop that fills `frame`. -/
def frameLoop : List Byte → List Byte → Byte → List Byte × Byte
  | [], frame, sum => (frame, sum)
  | c :: data, frame, sum =>
    if frame.length + 3 < GDB_BUF then frameLoop data (frame ++ [c]) (sum + c) else (frame, sum)

/-- The frame of `gdb_send`. -/
def gdbFrame (data : List Byte) : List Byte :=
  let (frame, sum) := frameLoop data [DOLLAR] 0#8
  frame ++ [HASH, hexd (sum >>> 4), hexd (sum &&& 0xf#8)]

/-- `gdb_send`, given what gdb answers: the bytes written, and the answers left. -/
def gdbSend (noack : Bool) (data : List Byte) : List Byte → List Byte × List Byte
  | [] => (gdbFrame data, [])
  | a :: s =>
    if noack then (gdbFrame data, a :: s)
    else if a = MINUS then (gdbFrame data ++ (gdbSend noack data s).1, (gdbSend noack data s).2)
    else (gdbFrame data, s)

/-! ## What a stream is made of -/

/-- The checksum of a body. -/
def checksum (body : List Byte) : Byte := body.foldl (· + ·) 0#8

/-- A frame that fits a buffer of `max` bytes. -/
structure Packet (max : Nat) where
  body : List Byte
  h1 : Byte
  h2 : Byte
  no_hash : HASH ∉ body
  short : body.length < max
  digits : isHex h1 ∧ isHex h2

/-- The bytes of a frame. -/
def Packet.bytes {max : Nat} (f : Packet max) : List Byte :=
  DOLLAR :: f.body ++ [HASH, f.h1, f.h2]

/-- The two digits spell the checksum. -/
def Packet.Good {max : Nat} (f : Packet max) : Prop := hexByte f.h1 f.h2 = checksum f.body

instance {max : Nat} (f : Packet max) : Decidable f.Good := inferInstanceAs (Decidable (_ = _))

/-- Bytes between frames. -/
abbrev Noise := {s : List Byte // DOLLAR ∉ s}

/-- The bytes of noise and of a frame after it. -/
abbrev Item (max : Nat) := Noise × Packet max

def Item.bytes {max : Nat} (i : Item max) : List Byte := i.1.1 ++ i.2.bytes

/-- The stream of frames with noise before each and at the end. -/
def stream {max : Nat} (items : List (Item max)) (last : Noise) : List Byte :=
  items.flatMap Item.bytes ++ last.1

/-- The ack that a frame deserves. -/
def Packet.ack {max : Nat} (f : Packet max) : Byte := if f.Good then PLUS else MINUS

/-! ## Received -/

theorem skipNoise_noise (n : Noise) (s : List Byte) : skipNoise (n.1 ++ DOLLAR :: s) = some s := by
  obtain ⟨n, hn⟩ := n
  induction n with
  | nil => simp [skipNoise]
  | cons c n ih =>
    rw [List.mem_cons, not_or] at hn
    simp only [List.cons_append, skipNoise]
    rw [if_neg (Ne.symm hn.1)]
    exact ih hn.2

theorem skipNoise_none (n : Noise) : skipNoise n.1 = none := by
  obtain ⟨n, hn⟩ := n
  induction n with
  | nil => rfl
  | cons c n ih =>
    rw [List.mem_cons, not_or] at hn
    simp only [skipNoise]
    rw [if_neg (Ne.symm hn.1)]
    exact ih hn.2

/-- A body that fits is read whole. -/
theorem readBody_body {max : Nat} (body s buf : List Byte) (sum : Byte) (hb : HASH ∉ body)
    (hl : buf.length + body.length < max) :
    readBody max (body ++ HASH :: s) buf sum =
      some (buf ++ body, body.foldl (· + ·) sum, s) := by
  induction body generalizing buf sum with
  | nil => simp [readBody]
  | cons c body ih =>
    rw [List.mem_cons, not_or] at hb
    rw [List.length_cons] at hl
    simp only [List.cons_append, readBody, List.foldl_cons]
    rw [if_neg (Ne.symm hb.1), if_pos (by omega), ih _ _ hb.2 (by simp; omega)]
    simp

/-- One frame with noise before it. -/
theorem gdbRecv_item {max : Nat} (n : Noise) (f : Packet max) (s : List Byte) :
    gdbRecv max false (n.1 ++ (f.bytes ++ s)) =
      if f.Good then ⟨some f.body, [PLUS], s⟩
      else { gdbRecv max false s with acks := MINUS :: (gdbRecv max false s).acks } := by
  have hskip : skipNoise (n.1 ++ (f.bytes ++ s)) = some (f.body ++ HASH :: f.h1 :: f.h2 :: s) := by
    have := skipNoise_noise n (f.body ++ HASH :: f.h1 :: f.h2 :: s)
    simpa [Packet.bytes] using this
  have hbody := readBody_body f.body (f.h1 :: f.h2 :: s) [] 0#8 f.no_hash (by simpa using f.short)
  rw [List.nil_append] at hbody
  rw [gdbRecv]
  split
  · rename_i h
    rw [hskip] at h
    cases h
  · rename_i t h
    rw [hskip] at h
    cases h
    split
    · rename_i buf sum h1 h2 u h₂
      rw [hbody] at h₂
      cases h₂
      by_cases hg : f.Good
      · rw [if_neg (fun h => h.2 hg), if_pos hg]
        rfl
      · rw [if_pos ⟨rfl, hg⟩, if_neg hg]
    · rename_i h
      exact absurd hbody (by simpa using h _ _ _ _ _)

theorem gdbRecv_noise {max : Nat} (n : Noise) : gdbRecv max false n.1 = ⟨none, [], []⟩ := by
  rw [gdbRecv]
  split
  · rfl
  · rename_i t h
    rw [skipNoise_none n] at h
    cases h

/-- The bodies with the right checksum. -/
def goodBodies {max : Nat} (items : List (Item max)) : List (List Byte) :=
  (items.filter fun i => i.2.Good).map fun i => i.2.body

/-- **One more frame** is one more body and a `+`, or a `-`. -/
theorem received_item {max : Nat} (n : Noise) (f : Packet max) (s : List Byte) :
    received max false (n.1 ++ (f.bytes ++ s)) =
      if f.Good then (f.body :: (received max false s).1, PLUS :: (received max false s).2)
      else ((received max false s).1, MINUS :: (received max false s).2) := by
  have hitem := gdbRecv_item n f s
  by_cases hg : f.Good
  · rw [if_pos hg] at hitem ⊢
    rw [received]
    split
    · rename_i h
      rw [hitem] at h
      cases h
    · rename_i b h
      rw [hitem] at h
      cases h
      simp [hitem]
  · rw [if_neg hg] at hitem ⊢
    conv_lhs => rw [received]
    conv_rhs => rw [received]
    rw [hitem]
    simp only
    cases (gdbRecv max false s).body with
    | none => rfl
    | some b => simp

/-- **Reception recovers exactly the well-formed frames.** -/
theorem received_items {max : Nat} (items : List (Item max)) (last : Noise) :
    received max false (stream items last) =
      (goodBodies items, items.map fun i => i.2.ack) := by
  induction items with
  | nil =>
    rw [stream, List.flatMap_nil, List.nil_append, received]
    split
    · simp [gdbRecv_noise, goodBodies]
    · rename_i b h
      rw [gdbRecv_noise] at h
      cases h
  | cons i items ih =>
    have hsplit : stream (i :: items) last = i.1.1 ++ (i.2.bytes ++ stream items last) := by
      simp [stream, Item.bytes]
    rw [hsplit, received_item, ih]
    by_cases hg : i.2.Good
    · simp [hg, goodBodies, Packet.ack]
    · simp [hg, goodBodies, Packet.ack]

/-! ## Sent -/

theorem hexByte_hexd (b : Byte) : hexByte (hexd (b >>> 4)) (hexd (b &&& 0xf#8)) = b := by
  revert b
  decide

theorem isHex_hexd (b : Byte) : isHex (hexd (b >>> 4)) ∧ isHex (hexd (b &&& 0xf#8)) := by
  revert b
  decide

theorem frameLoop_eq (data frame : List Byte) (sum : Byte)
    (h : frame.length + data.length + 3 ≤ GDB_BUF) :
    frameLoop data frame sum = (frame ++ data, data.foldl (· + ·) sum) := by
  induction data generalizing frame sum with
  | nil => simp [frameLoop]
  | cons c data ih =>
    rw [List.length_cons] at h
    unfold frameLoop
    rw [if_pos (by omega), ih _ _ (by simp; omega)]
    simp

/-- What `gdb_send` writes once: data that fits, framed. -/
theorem gdbFrame_eq (data : List Byte) (h : data.length ≤ 4196) :
    gdbFrame data = DOLLAR :: data ++
      [HASH, hexd (checksum data >>> 4), hexd (checksum data &&& 0xf#8)] := by
  unfold gdbFrame
  rw [frameLoop_eq data [DOLLAR] 0#8 (by simp [GDB_BUF]; omega)]
  simp [checksum]

/-- Every resend is the same frame. -/
theorem gdbSend_frames (noack : Bool) (data : List Byte) (answers : List Byte) :
    ∃ n, (gdbSend noack data answers).1 = (List.replicate (n + 1) (gdbFrame data)).flatten := by
  induction answers with
  | nil => exact ⟨0, by simp [gdbSend]⟩
  | cons a s ih =>
    obtain ⟨n, hn⟩ := ih
    unfold gdbSend
    split
    · exact ⟨0, by simp⟩
    · split
      · refine ⟨n + 1, ?_⟩
        rw [hn, List.replicate_succ (n := n + 1), List.flatten_cons]
      · exact ⟨0, by simp⟩

/-- The frame of data without `#` as one that fits the buffer. -/
def sentPacket (data : List Byte) (hhash : HASH ∉ data) (hlen : data.length ≤ 4196) :
    Packet GDB_BUF where
  body := data
  h1 := hexd (checksum data >>> 4)
  h2 := hexd (checksum data &&& 0xf#8)
  no_hash := hhash
  short := by
    unfold GDB_BUF
    omega
  digits := isHex_hexd _

/-- **Packet framing**: of any stream of frames and noise, with the stub's buffer or any other,
`gdb_recv` returns the bodies with the right checksum, each with a `+`, and answers `-` to the
others; and of what `gdb_send` writes, it accepts every copy and returns the data. -/
theorem packets_received {max : Nat} (items : List (Item max)) (last : Noise) (noack : Bool)
    (data answers rest : List Byte) (hhash : HASH ∉ data) (hlen : data.length ≤ 4196) :
    received max false (stream items last) = (goodBodies items, items.map fun i => i.2.ack) ∧
      (∃ n, (gdbSend noack data answers).1 = (List.replicate (n + 1) (gdbFrame data)).flatten) ∧
      gdbRecv GDB_BUF false (gdbFrame data ++ rest) = ⟨some data, [PLUS], rest⟩ := by
  refine ⟨received_items items last, gdbSend_frames noack data answers, ?_⟩
  have hitem := gdbRecv_item ⟨[], List.not_mem_nil⟩ (sentPacket data hhash hlen) rest
  have hgood : (sentPacket data hhash hlen).Good := hexByte_hexd (checksum data)
  rw [if_pos hgood] at hitem
  rw [gdbFrame_eq data hlen]
  exact hitem

/-- A frame with a wrong checksum after some noise, and the same frame as it should be. -/
def resent : List (Item 4200) :=
  [(⟨[MINUS], by decide⟩, ⟨[0x67#8], 0x31#8, 0x31#8, by decide, by decide, by decide⟩),
    (⟨[PLUS, MINUS], by decide⟩, ⟨[0x67#8], 0x36#8, 0x37#8, by decide, by decide, by decide⟩)]

/-- They are received, and the reply `OK` is sent twice. -/
theorem packets_received_ok :
    received 4200 false (stream resent ⟨[PLUS], by decide⟩) = ([[0x67#8]], [MINUS, PLUS]) ∧
      (∃ n, (gdbSend false [0x4f#8, 0x4b#8] [MINUS, PLUS]).1 =
        (List.replicate (n + 1) (gdbFrame [0x4f#8, 0x4b#8])).flatten) ∧
      gdbRecv GDB_BUF false (gdbFrame [0x4f#8, 0x4b#8] ++ []) =
        ⟨some [0x4f#8, 0x4b#8], [PLUS], []⟩ := by
  obtain ⟨hrecv, hsend, hback⟩ :=
    packets_received resent ⟨[PLUS], by decide⟩ false [0x4f#8, 0x4b#8] [MINUS, PLUS] []
      (by decide) (by decide)
  refine ⟨hrecv.trans ?_, hsend, hback⟩
  decide

end Purv.Gdb

import Purv.GdbServe

/-!
# The replies of the gdb stub (`gdbstub.c`)

* `Sendable` — data that `gdb_send` frames whole;
* `replies_received` — every reply of every dialogue arrives as it was;
* `query` — the packet that asks for a part of the target description;
* `Fetches` — a debugger that reads the description part by part;
* `fetches_target` — it has read all of it, however it chose the parts.
-/

namespace Purv.Gdb

variable {H : Type}

/-! ## Framing -/

/-- A byte that neither ends a C string nor means something in a frame: `#` ends it, `$` starts one,
and a receiver takes what is after `}` or `*` for an escaped byte or a count. -/
def plain (c : Byte) : Bool :=
  c != 0#8 && c != HASH && c != DOLLAR && c != 0x7d#8 && c != 0x2a#8

/-- Data that `gdb_send` puts into a frame as it is. -/
structure Sendable (data : List Byte) : Prop where
  fits : data.length ≤ 4196
  bytes : data.all plain = true

theorem Sendable.append {a b : List Byte} (ha : a.all plain = true) (hb : b.all plain = true)
    (hlen : a.length + b.length ≤ 4196) : Sendable (a ++ b) :=
  ⟨by rw [List.length_append]; exact hlen, by rw [List.all_append, ha, hb]; rfl⟩

theorem Sendable.not_hash {data : List Byte} (h : Sendable data) : HASH ∉ data := by
  intro hmem
  have hc := List.all_eq_true.mp h.bytes HASH hmem
  exact absurd hc (by decide)

/-- What is framed is received. -/
theorem Sendable.received {data : List Byte} (h : Sendable data) (rest : List Byte) :
    gdbRecv GDB_BUF false (gdbFrame data ++ rest) = ⟨some data, [PLUS], rest⟩ := by
  have hitem := gdbRecv_item ⟨[], List.not_mem_nil⟩ (sentPacket data h.not_hash h.fits) rest
  have hgood : (sentPacket data h.not_hash h.fits).Good := hexByte_hexd (checksum data)
  rw [if_pos hgood] at hitem
  rw [gdbFrame_eq data h.fits]
  exact hitem

theorem length_hexPair (b : Byte) : (hexPair b).length = 2 := rfl

theorem plain_hexPair : ∀ b : Byte, (hexPair b).all plain = true := by decide

theorem plain_flatMap {α : Type} {f : α → List Byte} (hf : ∀ a, (f a).all plain = true)
    (l : List α) : (l.flatMap f).all plain = true := by
  rw [List.all_flatMap]
  exact List.all_eq_true.mpr fun a _ => hf a

theorem length_flatMap_const {α : Type} {f : α → List Byte} {c : Nat} (hf : ∀ a, (f a).length = c)
    (l : List α) : (l.flatMap f).length = l.length * c := by
  rw [List.length_flatMap]
  induction l with
  | nil => simp
  | cons a l ih =>
    rw [List.map_cons, List.sum_cons, ih, hf a, List.length_cons]
    ring

theorem plain_regToHex (v : Word) : (regToHex v).all plain = true :=
  plain_flatMap (fun _ => plain_hexPair _) _

theorem length_regToHex (v : Word) : (regToHex v).length = 8 := rfl

theorem sendable_regToHex (v : Word) : Sendable (regToHex v) :=
  ⟨by rw [length_regToHex]; decide, plain_regToHex v⟩

theorem sendable_readRegs (s : State H) : Sendable (readRegsPacket s) := by
  refine ⟨?_, plain_flatMap (fun _ => plain_regToHex _) _⟩
  unfold readRegsPacket
  rw [length_flatMap_const (fun _ => length_regToHex _)]
  decide

theorem sendable_readReg (s : State H) (buf : Nat → Byte) (n : Nat) :
    Sendable (readRegPacket s buf n) := by
  unfold readRegPacket
  simp only
  split
  · exact sendable_regToHex _
  · exact ⟨by decide, by decide⟩

theorem sendable_readMem (s : State H) (buf : Nat → Byte) (n : Nat) :
    Sendable (readMemPacket s buf n) := by
  refine ⟨?_, plain_flatMap (fun _ => plain_hexPair _) _⟩
  unfold readMemPacket
  rw [length_flatMap_const (fun _ => length_hexPair _), List.length_range]
  have hle : readLen buf n ≤ 2096 := Nat.min_le_right _ _
  omega

theorem sendable_stopReply (s : State H) (sig : Byte) : Sendable (stopReply s sig) := by
  have hpc := plain_regToHex (regGet s 32)
  have hsp := plain_regToHex (regGet s 2)
  have hsig := plain_hexPair sig
  have h1 : (ascii "T").all plain = true := by decide
  have h2 : (ascii "20:").all plain = true := by decide
  have h3 : (ascii ";02:").all plain = true := by decide
  have h4 : (ascii ";thread:1;").all plain = true := by decide
  unfold stopReply
  refine ⟨?_, by simp only [List.all_append, hpc, hsp, hsig, h1, h2, h3, h4, Bool.and_self]⟩
  simp only [List.length_append, length_regToHex, length_hexPair]
  decide

theorem sendable_exit (b : Byte) : Sendable (ascii "W" ++ hexPair b) :=
  .append (by decide) (plain_hexPair b) (by show (ascii "W").length + 2 ≤ 4196; decide)

theorem plain_targetXml : targetXml.all plain = true := by decide +kernel

theorem sendable_xfer {xml : List Byte} (hx : xml.all plain = true) (off want : Nat) :
    Sendable (xferReply xml off want) := by
  unfold xferReply
  split
  · exact ⟨by decide, by decide⟩
  · have hchunk : ∀ k, ((xml.drop off).take k).all plain = true := by
      intro k
      refine List.all_eq_true.mpr fun c hc => List.all_eq_true.mp hx c ?_
      exact List.mem_of_mem_drop (List.mem_of_mem_take hc)
    have hhead : (if off + min (min (xml.length - off) want) (GDB_BUF - 8) < xml.length
        then ascii "m" else ascii "l").all plain = true := by
      split <;> decide
    have hone : (if off + min (min (xml.length - off) want) (GDB_BUF - 8) < xml.length
        then ascii "m" else ascii "l").length = 1 := by
      split <;> rfl
    refine .append hhead (hchunk _) ?_
    rw [hone, List.length_take]
    have hle : min (min (xml.length - off) want) (GDB_BUF - 8) ≤ GDB_BUF - 8 := Nat.min_le_right _ _
    have hbuf : GDB_BUF - 8 = 4192 := rfl
    omega

theorem sendable_handleQ (buf : Nat → Byte) (n : Nat) : Sendable (handleQ buf n) := by
  unfold handleQ
  split
  · exact ⟨by decide, by decide⟩
  · split
    · exact ⟨by decide, by decide⟩
    · split
      · exact ⟨by decide, by decide⟩
      · split
        · exact ⟨by decide, by decide⟩
        · split
          · exact ⟨by decide, by decide⟩
          · split
            · split
              · exact ⟨by decide, by decide⟩
              · split
                · exact sendable_xfer plain_targetXml _ _
                · exact ⟨by decide, by decide⟩
            · exact ⟨by decide, by decide⟩

/-! ## Every reply -/

/-- What an answer sends. -/
def Answer.data : Answer → List Byte
  | .reply data => data
  | .detach data => data
  | .kill => []

section
variable {e : Host H} {interrupt : Nat → Bool} {fuel : Nat} {v v' : Server H} {a : Answer}
  {buf : Nat → Byte} {n : Nat}

theorem resume_sendable {cont : Bool} (hw : Sendable v.wmsg)
    (hr : v.resume e interrupt fuel cont = some (v', a)) :
    Sendable a.data ∧ Sendable v'.wmsg := by
  unfold Server.resume at hr
  split at hr
  · cases hr
  · split at hr
    · cases hr
      exact ⟨sendable_exit _, sendable_exit _⟩
    · cases hr
      exact ⟨sendable_stopReply _ _, hw⟩

theorem sendable_nothing : Sendable [] := ⟨by decide, rfl⟩

theorem sendable_ok : Sendable OK := ⟨by decide, by decide⟩

/-- What is told can be sent. -/
theorem told_sendable (hw : Sendable v.wmsg) (ht : Told v buf n a) : Sendable a.data := by
  cases ht with
  | nothing => exact sendable_nothing
  | ok => exact sendable_ok
  | exit => exact hw
  | stopped => exact sendable_stopReply _ _
  | registers => exact sendable_readRegs _
  | register => exact sendable_readReg _ _ _
  | memory => exact sendable_readMem _ _ _
  | actions => exact ⟨by decide, by decide⟩
  | query => exact sendable_handleQ _ _
  | detach => exact sendable_ok
  | kill => exact sendable_nothing

theorem sendable_breakpoint (g : Stub) (buf : Nat → Byte) (n : Nat) :
    Sendable (breakpointPacket g buf n).2 := by
  unfold breakpointPacket
  split
  · exact sendable_nothing
  · split <;> exact sendable_ok

/-- **One reply can be sent, and so can the one that is kept.** -/
theorem handle_sendable (hw : Sendable v.wmsg)
    (hh : v.handle e interrupt fuel buf n = some (v', a)) :
    Sendable a.data ∧ Sendable v'.wmsg := by
  cases handle_effect hh with
  | tells told => exact ⟨told_sendable hw told, hw⟩
  | writes => exact ⟨sendable_ok, hw⟩
  | quiet => exact ⟨sendable_ok, hw⟩
  | breaks => exact ⟨sendable_breakpoint _ _ _, hw⟩
  | back => exact ⟨sendable_stopReply _ _, hw⟩
  | ran _ w cont same resumes =>
    rw [← same.2.2.1] at hw
    exact resume_sendable hw resumes

end

theorem dialogue_sendable {e : Host H} {v v' : Server H} {l : List (Body × Answer)}
    (hd : Dialogue e v l v') (hw : Sendable v.wmsg) :
    (∀ p ∈ l, Sendable p.2.data) ∧ Sendable v'.wmsg := by
  induction hd with
  | nil => exact ⟨by simp, hw⟩
  | cons answers _ ih =>
    obtain ⟨interrupt, fuel, hh⟩ := answers
    obtain ⟨ha, hw₁⟩ := handle_sendable hw hh
    obtain ⟨hall, hw'⟩ := ih hw₁
    refine ⟨fun p hp => ?_, hw'⟩
    rcases List.mem_cons.mp hp with rfl | hmem
    · exact ha
    · exact hall p hmem

/-- **Every reply arrives as it was.**  Whatever packets the debugger sends and whatever the guest
does, no answer has a byte that ends it early or that the frame would be misread at, and none is
longer than the frame holds: a receiver that follows the protocol gets it whole. -/
theorem replies_received {e : Host H} {g : Stub} {r : Run H} {l : List (Body × Answer)}
    {v : Server H} (hd : Dialogue e (Server.start g r) l v) (p : Body × Answer) (hp : p ∈ l)
    (rest : List Byte) :
    Sendable p.2.data ∧
      gdbRecv GDB_BUF false (gdbFrame p.2.data ++ rest) = ⟨some p.2.data, [PLUS], rest⟩ := by
  have hstart : Sendable (ascii "S05") := ⟨by decide, by decide⟩
  have hs := (dialogue_sendable hd hstart).1 p hp
  exact ⟨hs, hs.received rest⟩

/-- After a step. -/
theorem replies_received_step : ∃ (v : Server Unit) (data : List Byte),
    nopServer.Answers quitter (typed "s") (.reply data) v ∧ Sendable data ∧
      gdbRecv GDB_BUF false (gdbFrame data ++ []) = ⟨some data, [PLUS], []⟩ := by
  have hv : ∃ (v : Server Unit) (data : List Byte),
      nopServer.Answers quitter (typed "s") (.reply data) v := ⟨_, _, fun _ => false, 1, rfl⟩
  obtain ⟨v, data, hv⟩ := hv
  obtain ⟨hsend, hrecv⟩ := replies_received (.cons hv (.nil v)) _ List.mem_cons_self []
  exact ⟨v, data, hv, hsend, hrecv⟩

/-! ## The target description -/

/-- What hex digits spell, after others that spell `v`. -/
def hexFrom (v : Word) (ds : List Byte) : Word :=
  ds.foldl (fun (v : Word) c => v <<< 4 ||| hexval c) v

/-- What hex digits spell. -/
def hexValue (ds : List Byte) : Word := hexFrom 0#32 ds

/-- `parse_hex` over digits that something else follows. -/
theorem parseHexFrom_digits {ds : List Byte} (hds : ∀ c ∈ ds, isHex c = true) {rest : List Byte}
    (hrest : isHex (rest.getD 0 0#8) = false) (before : List Byte) {fuel : Nat}
    (hfuel : ds.length ≤ fuel) (v : Word) :
    parseHexFrom (fun i => (before ++ (ds ++ rest)).getD i 0#8) fuel before.length v =
      (hexFrom v ds, before.length + ds.length) := by
  induction ds generalizing before fuel v with
  | nil =>
    cases fuel with
    | zero => rfl
    | succ fuel =>
      have hend : (before ++ ([] ++ rest)).getD before.length 0#8 = rest.getD 0 0#8 := by
        rw [List.getD_eq_getElem?_getD, List.getElem?_append_right (Nat.le_refl _), Nat.sub_self]
        exact (List.getD_eq_getElem?_getD ..).symm
      unfold parseHexFrom
      rw [hend, if_neg (by rw [hrest]; decide)]
      rfl
  | cons d ds ih =>
    cases fuel with
    | zero => exact absurd hfuel (Nat.not_succ_le_zero _)
    | succ fuel =>
      have hhead : (before ++ ((d :: ds) ++ rest)).getD before.length 0#8 = d := by
        simp [List.getD_eq_getElem?_getD]
      have hmove : before ++ ((d :: ds) ++ rest) = (before ++ [d]) ++ (ds ++ rest) := by simp
      unfold parseHexFrom
      rw [hhead, if_pos (hds d List.mem_cons_self), hmove]
      have hrec := ih (fun c hc => hds c (List.mem_cons_of_mem d hc)) (before ++ [d])
        (Nat.le_of_succ_le_succ hfuel) (v <<< 4 ||| hexval d)
      rw [List.length_append, List.length_singleton] at hrec
      rw [hrec, List.length_cons, Nat.add_assoc, Nat.add_comm 1]
      rfl

/-- The text before the digits. -/
def queryHead : List Byte := ascii "qXfer:features:read:target.xml:"

/-- The query for `want` bytes from `off` on, both spelled in hex. -/
def query (off want : List Byte) : Body := packet (queryHead ++ (off ++ (0x2c#8 :: want)))

theorem startsWith_congr {buf buf' : Nat → Byte} {lit : List Byte}
    (hb : ∀ i < lit.length, buf i = buf' i) : startsWith buf lit = startsWith buf' lit := by
  unfold startsWith
  apply Bool.eq_iff_iff.mpr
  simp only [List.all_eq_true, List.mem_range, beq_iff_eq]
  exact forall_congr' fun i => forall_congr' fun hi => by rw [hb i hi]

section
variable {off want : List Byte} (hoff : ∀ c ∈ off, isHex c = true)
  (hwant : ∀ c ∈ want, isHex c = true)

theorem query_head {i : Nat} (hi : i < 31) :
    (query off want).1 i = queryHead.getD i 0#8 := by
  have hlen : queryHead.length = 31 := rfl
  show (queryHead ++ _).getD i 0#8 = _
  rw [List.getD_eq_getElem?_getD, List.getD_eq_getElem?_getD,
    List.getElem?_append_left (by omega)]

theorem query_startsWith {lit : List Byte} (hlen : lit.length ≤ 31) :
    startsWith (query off want).1 lit = startsWith (fun i => queryHead.getD i 0#8) lit :=
  startsWith_congr fun _ hi => query_head (Nat.lt_of_lt_of_le hi hlen)

theorem query_isText {lit : List Byte} (hlen : lit.length ≤ 31)
    (hno : startsWith (fun i => queryHead.getD i 0#8) lit = false) :
    isText (query off want).1 lit = false := by
  unfold isText
  rw [query_startsWith hlen, hno]
  rfl

theorem query_colon : colonAfter (query off want).1 (query off want).2 = some 30 := by
  have hfind : (List.range ((query off want).2 + 1)).find?
      (fun i => 20 ≤ i && ((query off want).1 i == 0x3a#8 || (query off want).1 i == 0#8)) =
        some 30 := by
    rw [List.find?_range_eq_some]
    refine ⟨?_, ?_, ?_⟩
    · rw [query_head (by decide)]
      rfl
    · rw [List.mem_range]
      show 30 < (queryHead ++ _).length + 1
      rw [List.length_append]
      have hlen : queryHead.length = 31 := rfl
      omega
    · intro j hj
      rw [query_head (by omega)]
      have hall : ∀ j < 30, (!(decide (20 ≤ j) && (queryHead.getD j 0#8 == 0x3a#8 ||
          queryHead.getD j 0#8 == 0#8))) = true := by decide
      exact hall j hj
  unfold colonAfter
  rw [hfind]
  simp only
  rw [if_pos (by rw [query_head (by decide)]; rfl)]

include hoff hwant in
/-- **The query is understood**: the part of the description that it spells is the answer. -/
theorem handleQ_query : handleQ (query off want).1 (query off want).2 =
    xferReply targetXml (hexValue off).toNat (hexValue want).toNat := by
  have hname : startsWith (fun i => (query off want).1 (20 + i)) (ascii "target.xml") = true := by
    have hsame : startsWith (fun i => (query off want).1 (20 + i)) (ascii "target.xml") =
        startsWith (fun i => queryHead.getD (20 + i) 0#8) (ascii "target.xml") := by
      refine startsWith_congr fun i hi => ?_
      have hten : (ascii "target.xml").length = 10 := rfl
      exact query_head (by omega)
    rw [hsame]
    decide
  have hlen : queryHead.length = 31 := rfl
  have hn : (query off want).2 = 31 + (off.length + (1 + want.length)) := by
    show (queryHead ++ _).length = _
    simp only [List.length_append, List.length_cons, hlen]
    omega
  have hfirst : parseHex (query off want).1 (query off want).2 31 =
      (hexValue off, 31 + off.length) := by
    have hend : isHex ((0x2c#8 :: want).getD 0 0#8) = false := rfl
    have hfuel : off.length ≤ (query off want).2 + 1 - 31 := by
      rw [hn]
      omega
    exact parseHexFrom_digits hoff hend queryHead hfuel 0#32
  have hcomma : skip (query off want).1 0x2c#8 (31 + off.length) = 31 + off.length + 1 := by
    have hc : (query off want).1 (31 + off.length) = 0x2c#8 := by
      show (queryHead ++ (off ++ 0x2c#8 :: want)).getD (31 + off.length) 0#8 = _
      rw [List.getD_eq_getElem?_getD, List.getElem?_append_right (by omega), hlen,
        Nat.add_sub_cancel_left, List.getElem?_append_right (Nat.le_refl _), Nat.sub_self]
      rfl
    unfold skip
    rw [if_pos hc]
  have hsecond : parseHex (query off want).1 (query off want).2 (31 + off.length + 1) =
      (hexValue want, 31 + off.length + 1 + want.length) := by
    have hsplit : queryHead ++ (off ++ (0x2c#8 :: want)) =
        (queryHead ++ off ++ [0x2c#8]) ++ (want ++ []) := by simp
    have hat : (queryHead ++ off ++ [0x2c#8]).length = 31 + off.length + 1 := by
      simp only [List.length_append, List.length_singleton, hlen]
    have hend : isHex (([] : List Byte).getD 0 0#8) = false := rfl
    have hfuel : want.length ≤ (query off want).2 + 1 - (31 + off.length + 1) := by
      rw [hn]
      omega
    have hdigits := parseHexFrom_digits hwant hend (queryHead ++ off ++ [0x2c#8]) hfuel 0#32
    rw [← hsplit, hat] at hdigits
    exact hdigits
  unfold handleQ
  rw [query_startsWith (by decide), if_neg (by decide), query_isText (by decide) (by decide),
    if_neg (by decide), query_isText (by decide) (by decide), if_neg (by decide),
    query_isText (by decide) (by decide), if_neg (by decide),
    query_isText (by decide) (by decide), if_neg (by decide), query_startsWith (by decide),
    if_pos (by decide), query_colon]
  simp only
  rw [if_pos hname, hfirst]
  simp only
  rw [hcomma, hsecond]

include hoff hwant in
theorem handle_query (e : Host H) (interrupt : Nat → Bool) (fuel : Nat) (v : Server H) :
    v.handle e interrupt fuel (query off want).1 (query off want).2 =
      some (v, .reply (xferReply targetXml (hexValue off).toNat (hexValue want).toNat)) := by
  have hn : (query off want).2 ≠ 0 := by
    show (queryHead ++ _).length ≠ 0
    rw [List.length_append]
    have hlen : queryHead.length = 31 := rfl
    omega
  have hq : (query off want).1 0 = 0x71#8 := query_head (by decide)
  unfold Server.handle
  rw [if_neg hn, hq]
  change some (v, Answer.reply (handleQ (query off want).1 (query off want).2)) = _
  rw [handleQ_query hoff hwant]

include hoff hwant in
theorem query_answers {e : Host H} {v v' : Server H} {a : Answer}
    (ha : v.Answers e (query off want) a v') :
    v' = v ∧ a = .reply (xferReply targetXml (hexValue off).toNat (hexValue want).toNat) := by
  obtain ⟨interrupt, fuel, hh⟩ := ha
  rw [handle_query hoff hwant] at hh
  cases hh
  exact ⟨rfl, rfl⟩

end

/-- A part with nothing after it. -/
theorem xferReply_last {xml chunk : List Byte} {off want : Nat}
    (hr : xferReply xml off want = 0x6c#8 :: chunk) : chunk = xml.drop off := by
  unfold xferReply at hr
  by_cases hoff : off ≥ xml.length
  · rw [if_pos hoff] at hr
    rw [List.drop_eq_nil_of_le hoff]
    exact (List.cons.inj hr).2.symm
  · rw [if_neg hoff] at hr
    simp only at hr
    generalize min (min (xml.length - off) want) (GDB_BUF - 8) = k at hr
    by_cases hk : off + k < xml.length
    · rw [if_pos hk] at hr
      exact absurd (List.cons.inj hr).1 (by decide)
    · rw [if_neg hk] at hr
      have hchunk : (xml.drop off).take k = chunk := (List.cons.inj hr).2
      rw [← hchunk]
      apply List.take_of_length_le
      rw [List.length_drop]
      omega

/-- A part with more after it: it is not empty. -/
theorem xferReply_more {xml chunk : List Byte} {off want : Nat} (hwant : 0 < want)
    (hr : xferReply xml off want = 0x6d#8 :: chunk) :
    chunk ++ xml.drop (off + chunk.length) = xml.drop off ∧ 0 < chunk.length ∧
      off + chunk.length < xml.length := by
  unfold xferReply at hr
  by_cases hoff : off ≥ xml.length
  · rw [if_pos hoff] at hr
    exact absurd (List.cons.inj hr).1 (by decide)
  · rw [if_neg hoff] at hr
    have hpos : 0 < min (min (xml.length - off) want) (GDB_BUF - 8) := by
      have hbuf : GDB_BUF - 8 = 4192 := rfl
      omega
    simp only at hr
    generalize min (min (xml.length - off) want) (GDB_BUF - 8) = k at hr hpos
    by_cases hk : off + k < xml.length
    · rw [if_pos hk] at hr
      have hchunk : (xml.drop off).take k = chunk := (List.cons.inj hr).2
      have hlen : chunk.length = k := by
        rw [← hchunk, List.length_take, List.length_drop]
        omega
      rw [hlen]
      refine ⟨?_, hpos, hk⟩
      rw [← hchunk, ← List.drop_drop]
      exact List.take_append_drop k _
    · rw [if_neg hk] at hr
      exact absurd (List.cons.inj hr).1 (by decide)

/-- Every part is the last, or is not empty and has something after it. -/
theorem xferReply_advances (xml : List Byte) (off : Nat) {want : Nat} (hwant : 0 < want) :
    ∃ c chunk, xferReply xml off want = c :: chunk ∧
      (c = 0x6c#8 ∨ c = 0x6d#8 ∧ 0 < chunk.length ∧ off + chunk.length < xml.length) := by
  have hmore := fun chunk => @xferReply_more xml chunk off want hwant
  unfold xferReply at hmore ⊢
  by_cases hoff : off ≥ xml.length
  · rw [if_pos hoff]
    exact ⟨_, [], rfl, .inl rfl⟩
  · rw [if_neg hoff] at hmore ⊢
    simp only at hmore ⊢
    generalize min (min (xml.length - off) want) (GDB_BUF - 8) = k at hmore ⊢
    by_cases hk : off + k < xml.length
    · rw [if_pos hk] at hmore ⊢
      exact ⟨_, _, rfl, .inr ⟨rfl, (hmore _ rfl).2⟩⟩
    · rw [if_neg hk]
      exact ⟨_, _, rfl, .inl rfl⟩

/-- A query as a debugger makes it: hex digits that spell the offset that it has come to, and a
length that is not zero. -/
structure Wants (off : Nat) (hs hs' : List Byte) : Prop where
  offset : ∀ c ∈ hs, isHex c = true
  length : ∀ c ∈ hs', isHex c = true
  spells : (hexValue hs).toNat = off
  some : 0 < (hexValue hs').toNat

/-- The debugger reads from `off` on, part by part, until it is told that a part is the last:
the server at the end, the queries that it took, and what they brought. -/
inductive Fetches (e : Host H) : Server H → Nat → Server H → Nat → List Byte → Prop
  | last {v v' : Server H} {off : Nat} {hs hs' chunk : List Byte} (wants : Wants off hs hs')
      (answers : v.Answers e (query hs hs') (.reply (0x6c#8 :: chunk)) v') :
      Fetches e v off v' 1 chunk
  | more {v v₁ v' : Server H} {off k : Nat} {hs hs' chunk text : List Byte}
      (wants : Wants off hs hs')
      (answers : v.Answers e (query hs hs') (.reply (0x6d#8 :: chunk)) v₁)
      (rest : Fetches e v₁ (off + chunk.length) v' k text) :
      Fetches e v off v' (k + 1) (chunk ++ text)

theorem fetches_drop {e : Host H} {v v' : Server H} {off k : Nat} {text : List Byte}
    (hf : Fetches e v off v' k text) :
    text = targetXml.drop off ∧ k ≤ targetXml.length - off + 1 ∧ v' = v := by
  induction hf with
  | last wants answers =>
    obtain ⟨hv, ha⟩ := query_answers wants.offset wants.length answers
    rw [wants.spells] at ha
    exact ⟨xferReply_last (Answer.reply.inj ha).symm, Nat.le_add_left 1 _, hv⟩
  | more wants answers _ ih =>
    obtain ⟨hv, ha⟩ := query_answers wants.offset wants.length answers
    rw [wants.spells] at ha
    obtain ⟨htext, hpos, hlt⟩ := xferReply_more wants.some (Answer.reply.inj ha).symm
    obtain ⟨hrest, hk, hv'⟩ := ih
    refine ⟨by rw [hrest, htext], by omega, hv'.trans hv⟩

/-- **The target description is read whole**: whatever lengths the debugger asks for and however it
spells the numbers, the parts put together are the description, each byte once; it is told the end
after no more queries than that has bytes, and one; and the server is as it was.  On the way every
query is answered, and brings the reading on. -/
theorem fetches_target {e : Host H} {v v' : Server H} {k : Nat} {text : List Byte}
    (hf : Fetches e v 0 v' k text) :
    (text = targetXml ∧ k ≤ targetXml.length + 1 ∧ v' = v) ∧
      ∀ off hs hs', Wants off hs hs' → ∃ c chunk,
        v.Answers e (query hs hs') (.reply (c :: chunk)) v ∧
          (c = 0x6c#8 ∨
            c = 0x6d#8 ∧ 0 < chunk.length ∧ off + chunk.length < targetXml.length) := by
  have h := fetches_drop hf
  rw [List.drop_zero, Nat.sub_zero] at h
  refine ⟨h, fun off hs hs' wants => ?_⟩
  obtain ⟨c, chunk, hr, hc⟩ := xferReply_advances targetXml off wants.some
  refine ⟨c, chunk, ⟨fun _ => false, 0, ?_⟩, hc⟩
  rw [handle_query wants.offset wants.length, wants.spells, hr]

/-- In one part. -/
theorem fetches_target_once : ∃ text,
    Fetches quitter nopServer 0 nopServer 1 text ∧ text = targetXml := by
  have hv : nopServer.Answers quitter (query (ascii "0") (ascii "fff"))
      (.reply (0x6c#8 :: targetXml)) nopServer := by
    have hx : xferReply targetXml (hexValue (ascii "0")).toNat (hexValue (ascii "fff")).toNat =
        0x6c#8 :: targetXml := by decide +kernel
    refine ⟨fun _ => false, 0, ?_⟩
    rw [handle_query (by decide) (by decide), hx]
  have hf : Fetches quitter nopServer 0 nopServer 1 targetXml :=
    .last ⟨by decide, by decide, by decide, by decide⟩ hv
  exact ⟨targetXml, hf, (fetches_target hf).1.1⟩

end Purv.Gdb

import Purv.GdbPackets
import Purv.GdbBreakpoints

/-!
# The serve loop of the gdb stub (`gdbstub.c`)

* `gdbReverse` — reverse-step and reverse-continue;
* `Server`, `Server.handle` — `RiscvEmulatorGdbServe`: the state of a connection, and one packet;
* `Dialogue` — packets and answers until the debugger leaves;
* `Clean` — the history holds registers only, which every packet keeps;
* `gdbReverse_lands` — reverse-continue goes to the latest breakpoint of the history;
* `continue_reverse` — so it undoes a continue;
* `exited_dialogue` — after the program has exited nothing runs the guest.
-/

namespace Purv.Gdb

open Function RingStack

variable {H : Type}

/-! ## Texts -/

/-- The bytes of a text. -/
def ascii (s : String) : List Byte := s.toList.map fun c => BitVec.ofNat 8 c.toNat

/-- `!strncmp(buf, lit, strlen(lit))`. -/
def startsWith (buf : Nat → Byte) (lit : List Byte) : Bool :=
  (List.range lit.length).all fun i => buf i == lit.getD i 0#8

/-- `!strcmp(buf, lit)`. -/
def isText (buf : Nat → Byte) (lit : List Byte) : Bool :=
  startsWith buf lit && buf lit.length == 0#8

/-- `name` of `target_xml`. -/
def regName : List String :=
  ["zero", "ra", "sp", "gp", "tp", "t0", "t1", "t2", "fp", "s1", "a0", "a1", "a2", "a3",
    "a4", "a5", "a6", "a7", "s2", "s3", "s4", "s5", "s6", "s7", "s8", "s9", "s10", "s11",
    "t3", "t4", "t5", "t6"]

/-- `target_xml`. -/
def targetXml : List Byte :=
  ascii "<?xml version=\"1.0\"?>\n" ++
    ascii "<!DOCTYPE target SYSTEM \"gdb-target.dtd\">\n" ++
    ascii "<target version=\"1.0\">\n" ++
    ascii "<architecture>riscv:rv32</architecture>\n" ++
    ascii "<feature name=\"org.gnu.gdb.riscv.cpu\">\n" ++
    (List.range 32).flatMap (fun i =>
      ascii "<reg name=\"" ++ ascii (regName.getD i "") ++ ascii "\" bitsize=\"32\" regnum=\"" ++
        ascii (toString i) ++ ascii "\"/>\n") ++
    ascii "<reg name=\"pc\" bitsize=\"32\" type=\"code_ptr\" regnum=\"32\"/>\n" ++
    ascii "</feature>\n</target>\n"

/-- `static char xml[2048]` holds it. -/
theorem targetXml_fits : targetXml.length < 2048 := by decide +kernel

/-- The part of `xml` that `qXfer` is answered with. -/
def xferReply (xml : List Byte) (off want : Nat) : List Byte :=
  if off ≥ xml.length then ascii "l"
  else
    let chunk := min (min (xml.length - off) want) (GDB_BUF - 8)
    (if off + chunk < xml.length then ascii "m" else ascii "l") ++ (xml.drop off).take chunk

/-- `strchr(buf + 20, ':')`. -/
def colonAfter (buf : Nat → Byte) (n : Nat) : Option Nat :=
  match (List.range (n + 1)).find? fun i => 20 ≤ i && (buf i == 0x3a#8 || buf i == 0#8) with
  | some i => if buf i = 0x3a#8 then some i else none
  | none => none

/-- `handle_q`. -/
def handleQ (buf : Nat → Byte) (n : Nat) : List Byte :=
  if startsWith buf (ascii "qSupported") then
    ascii "PacketSize=1000;qXfer:features:read+;ReverseStep+;ReverseContinue+;" ++
      ascii "vContSupported+;QStartNoAckMode+"
  else if isText buf (ascii "qAttached") then ascii "1"
  else if isText buf (ascii "qC") then ascii "QC1"
  else if isText buf (ascii "qfThreadInfo") then ascii "m1"
  else if isText buf (ascii "qsThreadInfo") then ascii "l"
  else if startsWith buf (ascii "qXfer:features:read:") then
    match colonAfter buf n with
    | none => ascii "E00"
    | some colon =>
      if startsWith (fun i => buf (20 + i)) (ascii "target.xml") then
        let (off, q) := parseHex buf n (colon + 1)
        let (want, _) := parseHex buf n (skip buf 0x2c#8 q)
        xferReply targetXml off.toNat want.toNat
      else ascii "E00"
  else []

/-- `send_stop`. -/
def stopReply (s : State H) (sig : Byte) : List Byte :=
  ascii "T" ++ hexPair sig ++ ascii "20:" ++ regToHex (regGet s 32) ++ ascii ";02:" ++
    regToHex (regGet s 2) ++ ascii ";thread:1;"

/-! ## Backwards -/

/-- `gdb_reverse`, for `fuel` records at most. -/
def gdbReverseFrom (cont : Bool) : Nat → Stub → State H → Stub × State H
  | 0, g, s => (g, s)
  | fuel + 1, g, s =>
    let (g', s', res) := stepReverse g s
    if res = 0 then (g', s')
    else if cont = false then (g', s')
    else if bpHit g' s'.pc then (g', s')
    else gdbReverseFrom cont fuel g' s'

/-- `gdb_reverse`: each round but the last uses up a record. -/
def gdbReverse (cont : Bool) (g : Stub) (s : State H) : Stub × State H :=
  gdbReverseFrom cont (g.g_count + 1) g s

/-! ## The server -/

/-- What the launcher hands over: the hooks of the engine, `*halted` and `*exitcode`. -/
structure Host (H : Type) where
  h : Hooks H
  halted : H → Bool
  exitcode : H → Word

/-- The locals and globals of `RiscvEmulatorGdbServe`, and the guest. -/
structure Server (H : Type) where
  g : Stub
  r : Run H
  exited : Bool
  wmsg : List Byte
  noack : Bool

/-- As the loop begins. -/
def Server.start (g : Stub) (r : Run H) : Server H where
  g := { g with g_nbp := 0, g_head := 0, g_count := 0 }
  r := r
  exited := false
  wmsg := ascii "S05"
  noack := false

/-- How a packet is answered: the loop goes on, or it returns with a reply or without. -/
inductive Answer where
  | reply (data : List Byte)
  | detach (data : List Byte)
  | kill
  deriving DecidableEq

/-- `gdb_run` and the reply to it; `none` while it still runs. -/
def Server.resume (e : Host H) (interrupt : Nat → Bool) (fuel : Nat) (v : Server H) (cont : Bool) :
    Option (Server H × Answer) :=
  match gdbRun e.h e.halted interrupt cont fuel 0 v.g v.r with
  | none => none
  | some (g, r, reason) =>
    if reason = .exit then
      let wmsg := ascii "W" ++ hexPair ((e.exitcode r.s.host).setWidth 8)
      some ({ v with g := g, r := r, exited := true, wmsg := wmsg }, .reply wmsg)
    else
      some ({ v with g := g, r := r },
        .reply (stopReply r.s (if reason = .int then 2#8 else 5#8)))

/-- `st->pc = parse_hex(&p)`, where the packet has an address. -/
def Server.moved (v : Server H) (buf : Nat → Byte) (n : Nat) : Server H :=
  if buf 1 = 0#8 then v
  else { v with r := { v.r with s := { v.r.s with pc := (parseHex buf n 1).1 } } }

/-- `p`. -/
def readRegPacket (s : State H) (buf : Nat → Byte) (n : Nat) : List Byte :=
  let i := (parseHex buf n 1).1.toNat
  if i < GDB_NREG then regToHex (regGet s i) else ascii "00000000"

/-- `P`. -/
def writeRegPacket (s : State H) (buf : Nat → Byte) (n : Nat) : State H :=
  let (i, p) := parseHex buf n 1
  if i.toNat < GDB_NREG then regSet s i.toNat (regFromHex buf (skip buf 0x3d#8 p)) else s

/-- The guest as a packet leaves it. -/
def Server.withState (v : Server H) (s : State H) : Server H := { v with r := { v.r with s := s } }

/-- The packet in `buf`; `none` while `gdb_run` still runs. -/
def Server.handle (e : Host H) (interrupt : Nat → Bool) (fuel : Nat) (v : Server H)
    (buf : Nat → Byte) (n : Nat) : Option (Server H × Answer) :=
  if n = 0 then some (v, .reply [])
  else
    match (buf 0).toNat with
    -- ?
    | 0x3f => some (v, .reply (if v.exited then v.wmsg else stopReply v.r.s 5#8))
    -- g, G
    | 0x67 => some (v, .reply (readRegsPacket v.r.s))
    | 0x47 => some (v.withState (writeRegsPacket v.r.s buf n), .reply OK)
    -- p, P
    | 0x70 => some (v, .reply (readRegPacket v.r.s buf n))
    | 0x50 => some (v.withState (writeRegPacket v.r.s buf n), .reply OK)
    -- m, M
    | 0x6d => some (v, .reply (readMemPacket v.r.s buf n))
    | 0x4d => some (v.withState (writeMemPacket v.r.s buf n).1, .reply OK)
    -- c, s
    | 0x63 =>
      if v.exited then some (v, .reply v.wmsg) else (v.moved buf n).resume e interrupt fuel true
    | 0x73 =>
      if v.exited then some (v, .reply v.wmsg) else (v.moved buf n).resume e interrupt fuel false
    -- bs, bc
    | 0x62 =>
      if buf 1 = 0x73#8 ∨ buf 1 = 0x63#8 then
        let (g, s) := gdbReverse (buf 1 == 0x63#8) v.g v.r.s
        some ({ v with g := g }.withState s, .reply (stopReply s 5#8))
      else some (v, .reply [])
    -- vCont
    | 0x76 =>
      if isText buf (ascii "vCont?") then some (v, .reply (ascii "vCont;c;C;s;S"))
      else if startsWith buf (ascii "vCont;") then
        if v.exited then some (v, .reply v.wmsg)
        else v.resume e interrupt fuel (buf 6 == 0x63#8 || buf 6 == 0x43#8)
      else some (v, .reply [])
    -- Q
    | 0x51 =>
      if isText buf (ascii "QStartNoAckMode") then some ({ v with noack := true }, .reply OK)
      else some (v, .reply [])
    -- Z, z
    | 0x5a =>
      some ({ v with g := (breakpointPacket v.g buf n).1 }, .reply (breakpointPacket v.g buf n).2)
    | 0x7a =>
      some ({ v with g := (breakpointPacket v.g buf n).1 }, .reply (breakpointPacket v.g buf n).2)
    -- q
    | 0x71 => some (v, .reply (handleQ buf n))
    -- H, T, !
    | 0x48 => some (v, .reply OK)
    | 0x54 => some (v, .reply OK)
    | 0x21 => some (v, .reply OK)
    -- D, k
    | 0x44 => some (v, .detach OK)
    | 0x6b => some (v, .kill)
    | _ => some (v, .reply [])

/-- One packet and its answer, whatever the debugger sends meanwhile. -/
def Server.Answers (e : Host H) (v : Server H) (p : Body) (a : Answer) (v' : Server H) : Prop :=
  ∃ interrupt fuel, v.handle e interrupt fuel p.1 p.2 = some (v', a)

/-- Packets and their answers, in order. -/
inductive Dialogue (e : Host H) : Server H → List (Body × Answer) → Server H → Prop
  | nil (v : Server H) : Dialogue e v [] v
  | cons {v v₁ v₂ : Server H} {p : Body} {data : List Byte} {l : List (Body × Answer)}
      (answers : v.Answers e p (.reply data) v₁) (rest : Dialogue e v₁ l v₂) :
      Dialogue e v ((p, .reply data) :: l) v₂

/-- A packet with these bytes. -/
def packet (bs : List Byte) : Body := (fun i => bs.getD i 0#8, bs.length)

def typed (s : String) : Body := packet (ascii s)

/-- A program of one `nop`, and a host that has halted once it ran, with exit code 3. -/
def nopServer : Server Unit :=
  Server.start freshStub ⟨State.boot [0x13#8, 0#8, 0#8, 0#8] 0, []⟩

def quitter : Host Unit := ⟨Hooks.null, fun _ => true, fun _ => 3#32⟩

/-- A program that does not exit. -/
def walker : Host Unit := ⟨Hooks.null, fun _ => false, fun _ => 0#32⟩

/-- Three instructions that do nothing, and then no code. -/
def nops : Run Unit :=
  ⟨State.boot [0x13#8, 0#8, 0#8, 0#8, 0x13#8, 0#8, 0#8, 0#8, 0x13#8, 0#8, 0#8, 0#8] 0, []⟩

/-! ## The history -/

/-- The history holds registers only: no host reports its stores. -/
structure Clean (g : Stub) : Prop where
  count : g.g_count ≤ HIST_FRAMES
  plain : ∀ f ∈ contents HIST_FRAMES g.ring, f.w = [] ∧ f.overflow = false

section
variable {h : Hooks H} {g : Stub} (hc : Clean g)
include hc

theorem stepRecord_history (ha : g.alloc = true) (r : Run H) :
    contents HIST_FRAMES (stepRecord h g r).1.ring =
      (frameOf r.s :: contents HIST_FRAMES g.ring).take HIST_FRAMES := by
  have hring : (stepRecord h g r).1.ring = push HIST_FRAMES g.ring (frameOf r.s) :=
    stepRecord_ring r (by rw [ha]; decide)
  have hle : g.ring.count ≤ HIST_FRAMES := hc.count
  rw [hring, contents_push (show 0 < HIST_FRAMES by decide) hle]

/-- A step keeps the history clean. -/
theorem Clean.step (r : Run H) : Clean (stepRecord h g r).1 := by
  by_cases ha : g.alloc = true
  · refine ⟨?_, ?_⟩
    · have hring : (stepRecord h g r).1.ring = push HIST_FRAMES g.ring (frameOf r.s) :=
        stepRecord_ring r (by rw [ha]; decide)
      have hle : g.ring.count ≤ HIST_FRAMES := hc.count
      have hcount := push_count hle (frameOf r.s)
      rw [← hring] at hcount
      exact hcount
    · intro f hf
      rw [stepRecord_history hc ha] at hf
      rcases List.mem_cons.mp (List.mem_of_mem_take hf) with rfl | hold
      · exact ⟨rfl, rfl⟩
      · exact hc.plain f hold
  · have hsame : (stepRecord h g r).1 = g := by
      unfold stepRecord
      rw [if_pos (Bool.eq_false_of_not_eq_true ha)]
    rw [hsame]
    exact hc

theorem Clean.run (k : Nat) (r : Run H) : Clean (steps h k g r).1 := by
  induction k generalizing g r with
  | zero => exact hc
  | succ k ih => exact ih (hc.step r) _

/-- `step_reverse` goes back to the newest record. -/
theorem stepReverse_newest {f : Frame} {l : List Frame}
    (hl : contents HIST_FRAMES g.ring = f :: l) (s : State H) :
    stepReverse g s = ({ g with g_count := g.g_count - 1 }, restoreRegs s f, 1) := by
  have hne : g.g_count ≠ 0 := by
    intro h0
    have hnil : contents HIST_FRAMES g.ring = [] := contents_nil.mpr h0
    rw [hl] at hnil
    cases hnil
  have htop : g.g_hist ((g.g_head + g.g_count - 1) % HIST_FRAMES) = f := contents_top hl
  obtain ⟨hw, hover⟩ := hc.plain f (by rw [hl]; exact List.mem_cons_self)
  unfold stepReverse
  rw [if_neg hne, htop]
  simp only [hover, hw]
  rfl

omit hc in
theorem popped_history (g : Stub) :
    contents HIST_FRAMES ({ g with g_count := g.g_count - 1 } : Stub).ring =
      (contents HIST_FRAMES g.ring).tail := contents_pop HIST_FRAMES g.ring

theorem Clean.popped : Clean { g with g_count := g.g_count - 1 } := by
  refine ⟨Nat.le_trans (Nat.sub_le _ _) hc.count, fun f hf => ?_⟩
  rw [popped_history] at hf
  exact hc.plain f (List.mem_of_mem_tail hf)

omit hc in
theorem stepReverse_none (h0 : contents HIST_FRAMES g.ring = []) (s : State H) :
    stepReverse g s = (g, s, 0) := by
  unfold stepReverse
  rw [if_pos (show g.g_count = 0 from contents_nil.mp h0)]

omit hc in
/-- Registers restored twice are those restored last. -/
theorem restoreRegs_again (s : State H) (f f' : Frame) :
    restoreRegs (restoreRegs s f) f' = restoreRegs s f' := by
  unfold restoreRegs
  congr 1
  funext i
  by_cases hi : i = 0#5 <;> simp [hi]

/-- The record that a reverse-continue goes back to, and those behind it. -/
def landing (hit : Word → Bool) : List Frame → Option (Frame × List Frame)
  | [] => none
  | f :: l => if hit (f.reg 32) ∨ l = [] then some (f, l) else landing hit l

/-- **Reverse-continue goes back to where `landing` says.** -/
theorem gdbReverseFrom_landing {fuel : Nat} (hfuel : g.g_count < fuel) (s : State H) {f : Frame}
    {l : List Frame} (hl : landing (bpHit g) (contents HIST_FRAMES g.ring) = some (f, l)) :
    (gdbReverseFrom true fuel g s).2 = restoreRegs s f ∧
      contents HIST_FRAMES (gdbReverseFrom true fuel g s).1.ring = l := by
  induction fuel generalizing g s with
  | zero => exact absurd hfuel (Nat.not_lt_zero _)
  | succ fuel ih =>
    cases hold : contents HIST_FRAMES g.ring with
    | nil =>
      rw [hold] at hl
      cases hl
    | cons f' l' =>
      have hlen := contents_length HIST_FRAMES g.ring
      rw [hold] at hl hlen
      have hpos : 0 < g.g_count := by
        have : g.ring.count = g.g_count := rfl
        simp only [List.length_cons] at hlen
        omega
      have htail : contents HIST_FRAMES ({ g with g_count := g.g_count - 1 } : Stub).ring = l' := by
        rw [popped_history, hold]
        rfl
      have hbp : bpHit ({ g with g_count := g.g_count - 1 } : Stub) = bpHit g := rfl
      unfold gdbReverseFrom
      rw [stepReverse_newest hc hold]
      simp only
      rw [if_neg (by decide), if_neg (by decide), hbp]
      unfold landing at hl
      by_cases hhit : bpHit g (f'.reg 32) = true
      · rw [if_pos (show bpHit g (restoreRegs s f').pc = true from hhit)]
        rw [if_pos (.inl hhit)] at hl
        cases hl
        exact ⟨rfl, htail⟩
      · rw [if_neg (show ¬ bpHit g (restoreRegs s f').pc = true from hhit)]
        by_cases hnil : l' = []
        · rw [if_pos (.inr hnil)] at hl
          cases hl
          rw [hnil] at htail
          cases fuel with
          | zero => exact ⟨rfl, htail.trans hnil.symm⟩
          | succ fuel =>
            unfold gdbReverseFrom
            rw [stepReverse_none htail]
            exact ⟨rfl, htail.trans hnil.symm⟩
        · rw [if_neg (not_or.2 ⟨hhit, hnil⟩)] at hl
          obtain ⟨hs, hrest⟩ := ih hc.popped (by show g.g_count - 1 < fuel; omega)
            (restoreRegs s f') (by rw [htail]; exact hl)
          exact ⟨hs.trans (restoreRegs_again s _ f), hrest⟩

end

theorem landing_spec {hit : Word → Bool} {L : List Frame} {f : Frame} {l : List Frame}
    (hl : landing hit L = some (f, l)) :
    ∃ newer, L = newer ++ f :: l ∧ (∀ f' ∈ newer, hit (f'.reg 32) = false) ∧
      (hit (f.reg 32) = true ∨ l = []) := by
  induction L with
  | nil => cases hl
  | cons f' L ih =>
    unfold landing at hl
    by_cases hhit : hit (f'.reg 32) = true ∨ L = []
    · rw [if_pos hhit] at hl
      cases hl
      exact ⟨[], rfl, by simp, hhit⟩
    · rw [if_neg hhit] at hl
      obtain ⟨newer, hL, hnewer, hend⟩ := ih hl
      refine ⟨f' :: newer, by rw [hL]; rfl, ?_, hend⟩
      intro f'' hf''
      rcases List.mem_cons.mp hf'' with rfl | hmem
      · exact Bool.eq_false_of_not_eq_true fun hc => hhit (.inl hc)
      · exact hnewer f'' hmem

theorem landing_some {hit : Word → Bool} {L : List Frame} (hL : L ≠ []) :
    ∃ f l, landing hit L = some (f, l) := by
  induction L with
  | nil => exact absurd rfl hL
  | cons f L ih =>
    unfold landing
    by_cases hhit : hit (f.reg 32) = true ∨ L = []
    · rw [if_pos hhit]
      exact ⟨f, L, rfl⟩
    · rw [if_neg hhit]
      exact ih fun hc => hhit (.inr hc)

/-! ## What a packet does -/

/-- The host side of the guest, and what the engine called. -/
def Untouched (r r' : Run H) : Prop := r'.s.host = r.s.host ∧ r'.log = r.log

theorem Untouched.refl (r : Run H) : Untouched r r := ⟨rfl, rfl⟩

theorem Untouched.trans {r r' r'' : Run H} (h : Untouched r r') (h' : Untouched r' r'') :
    Untouched r r'' := ⟨h'.1.trans h.1, h'.2.trans h.2⟩

theorem regSet_host (s : State H) (i : Nat) (v : Word) : (regSet s i v).host = s.host := by
  unfold regSet
  split
  · rfl
  · split <;> rfl

theorem writeRegsFrom_host (buf : Nat → Byte) (n k i p : Nat) (s : State H) :
    (writeRegsFrom buf n k i p s).host = s.host := by
  induction k generalizing i p s with
  | zero => rfl
  | succ k ih =>
    unfold writeRegsFrom
    split
    · rw [ih, regSet_host]
    · rfl

theorem writeRegPacket_host (s : State H) (buf : Nat → Byte) (n : Nat) :
    (writeRegPacket s buf n).host = s.host := by
  unfold writeRegPacket
  simp only
  split
  · exact regSet_host s _ _
  · rfl

theorem pokeByte_host (s : State H) (a : Word) (v : Byte) : (pokeByte s a v).host = s.host := by
  unfold pokeByte
  split <;> rfl

theorem writeMemFrom_host (buf : Nat → Byte) (addr : Word) (k i p : Nat) (s : State H)
    (log : List (Word × Byte)) : (writeMemFrom buf addr k i p s log).1.host = s.host := by
  induction k generalizing i p s log with
  | zero => rfl
  | succ k ih =>
    unfold writeMemFrom
    split
    · simp only
      rw [ih, pokeByte_host]
    · rfl

theorem memWrite_host (s : State H) (a : Word) (bs : List Byte) :
    (memWrite s a bs).host = s.host := by
  induction bs generalizing s a with
  | nil => rfl
  | cons b bs ih =>
    unfold memWrite
    rw [ih, pokeByte_host]

theorem stepReverse_host (g : Stub) (s : State H) : (stepReverse g s).2.1.host = s.host := by
  have hfold : ∀ ws : List Write,
      (ws.foldr (fun w s => memWrite s w.addr w.old) s).host = s.host := by
    intro ws
    induction ws with
    | nil => rfl
    | cons w ws ih =>
      rw [List.foldr_cons, memWrite_host]
      exact ih
  unfold stepReverse
  split
  · rfl
  · simp only
    split
    · rfl
    · exact hfold _

theorem gdbReverseFrom_host (cont : Bool) (fuel : Nat) (g : Stub) (s : State H) :
    (gdbReverseFrom cont fuel g s).2.host = s.host := by
  induction fuel generalizing g s with
  | zero => rfl
  | succ fuel ih =>
    have hone := stepReverse_host g s
    unfold gdbReverseFrom
    simp only
    split
    · exact hone
    · split
      · exact hone
      · split
        · exact hone
        · exact (ih _ _).trans hone

theorem bpAdd_ring (g : Stub) (a : Word) : (bpAdd g a).ring = g.ring := by
  unfold bpAdd
  split <;> rfl

theorem bpDel_ring (g : Stub) (a : Word) : (bpDel g a).ring = g.ring := by
  unfold bpDel
  split <;> rfl

theorem breakpointPacket_ring (g : Stub) (buf : Nat → Byte) (n : Nat) :
    (breakpointPacket g buf n).1.ring = g.ring := by
  unfold breakpointPacket
  split
  · rfl
  · split
    · exact bpAdd_ring g _
    · exact bpDel_ring g _

/-- A `Z` or `z` packet. -/
def setsBreakpoint (p : Body) : Bool := p.2 != 0 && (p.1 0 == 0x5a#8 || p.1 0 == 0x7a#8)

/-- What a packet that changes nothing is answered. -/
inductive Told (v : Server H) (buf : Nat → Byte) (n : Nat) : Answer → Prop
  | nothing : Told v buf n (.reply [])
  | ok : Told v buf n (.reply OK)
  | exit : Told v buf n (.reply v.wmsg)
  | stopped : Told v buf n (.reply (stopReply v.r.s 5#8))
  | registers : Told v buf n (.reply (readRegsPacket v.r.s))
  | register : Told v buf n (.reply (readRegPacket v.r.s buf n))
  | memory : Told v buf n (.reply (readMemPacket v.r.s buf n))
  | actions : Told v buf n (.reply (ascii "vCont;c;C;s;S"))
  | query : Told v buf n (.reply (handleQ buf n))
  | detach : Told v buf n (.detach OK)
  | kill : Told v buf n .kill

/-- What a packet can do: nothing; write to the guest, but not to its host; end the acks; change a
breakpoint; go backwards; or, while the program has not exited, run the engine. -/
inductive Effect (e : Host H) (interrupt : Nat → Bool) (fuel : Nat) (v : Server H)
    (buf : Nat → Byte) (n : Nat) : Server H → Answer → Prop
  | tells {a : Answer} (told : Told v buf n a) : Effect e interrupt fuel v buf n v a
  | writes {s : State H} (host : s.host = v.r.s.host) :
      Effect e interrupt fuel v buf n (v.withState s) (.reply OK)
  | quiet : Effect e interrupt fuel v buf n { v with noack := true } (.reply OK)
  | breaks (sets : setsBreakpoint (buf, n) = true) :
      Effect e interrupt fuel v buf n { v with g := (breakpointPacket v.g buf n).1 }
        (.reply (breakpointPacket v.g buf n).2)
  | back (cont : Bool) :
      Effect e interrupt fuel v buf n
        ({ v with g := (gdbReverse cont v.g v.r.s).1 }.withState (gdbReverse cont v.g v.r.s).2)
        (.reply (stopReply (gdbReverse cont v.g v.r.s).2 5#8))
  | ran {v' : Server H} {a : Answer} (running : v.exited = false) (w : Server H) (cont : Bool)
      (same : w.g = v.g ∧ w.exited = v.exited ∧ w.wmsg = v.wmsg ∧ w.r.s.host = v.r.s.host)
      (resumes : w.resume e interrupt fuel cont = some (v', a)) :
      Effect e interrupt fuel v buf n v' a

section
variable {e : Host H} {interrupt : Nat → Bool} {fuel : Nat} {v v' : Server H} {a : Answer}
  {buf : Nat → Byte} {n : Nat}

theorem moved_same (v : Server H) (buf : Nat → Byte) (n : Nat) :
    (v.moved buf n).g = v.g ∧ (v.moved buf n).exited = v.exited ∧
      (v.moved buf n).wmsg = v.wmsg ∧ (v.moved buf n).r.s.host = v.r.s.host := by
  unfold Server.moved
  split <;> exact ⟨rfl, rfl, rfl, rfl⟩

/-- A packet that resumes the program. -/
theorem effect_resume {w : Server H} {cont : Bool}
    (hw : w.g = v.g ∧ w.exited = v.exited ∧ w.wmsg = v.wmsg ∧ w.r.s.host = v.r.s.host)
    (hh : (if v.exited = true then some (v, Answer.reply v.wmsg)
      else w.resume e interrupt fuel cont) = some (v', a)) :
    Effect e interrupt fuel v buf n v' a := by
  by_cases hx : v.exited = true
  · rw [if_pos hx] at hh
    cases hh
    exact .tells .exit
  · rw [if_neg hx] at hh
    exact .ran (Bool.eq_false_of_not_eq_true hx) w cont hw hh

theorem setsBreakpoint_of {c : Byte} (hn : n ≠ 0) (hc : (buf 0).toNat = c.toNat)
    (hor : c = 0x5a#8 ∨ c = 0x7a#8) : setsBreakpoint (buf, n) = true := by
  have hbyte : buf 0 = c := BitVec.eq_of_toNat_eq hc
  unfold setsBreakpoint
  rcases hor with rfl | rfl <;> simp [hn, hbyte]

/-- **One packet.** -/
theorem handle_effect (hh : v.handle e interrupt fuel buf n = some (v', a)) :
    Effect e interrupt fuel v buf n v' a := by
  unfold Server.handle at hh
  split at hh
  · cases hh
    exact .tells .nothing
  · rename_i hn
    split at hh
    -- ?
    · cases hh
      split
      · exact .tells .exit
      · exact .tells .stopped
    -- g, G, p, P, m, M
    · cases hh
      exact .tells .registers
    · cases hh
      exact .writes (writeRegsFrom_host buf n _ _ _ _)
    · cases hh
      exact .tells .register
    · cases hh
      exact .writes (writeRegPacket_host _ buf n)
    · cases hh
      exact .tells .memory
    · cases hh
      exact .writes (writeMemFrom_host buf _ _ _ _ _ _)
    -- c, s
    · exact effect_resume (moved_same v buf n) hh
    · exact effect_resume (moved_same v buf n) hh
    -- bs, bc
    · split at hh
      · cases hh
        exact .back (buf 1 == 0x63#8)
      · cases hh
        exact .tells .nothing
    -- vCont
    · split at hh
      · cases hh
        exact .tells .actions
      · split at hh
        · exact effect_resume ⟨rfl, rfl, rfl, rfl⟩ hh
        · cases hh
          exact .tells .nothing
    -- Q
    · split at hh
      · cases hh
        exact .quiet
      · cases hh
        exact .tells .nothing
    -- Z, z
    · rename_i hz
      cases hh
      exact .breaks (setsBreakpoint_of hn (c := 0x5a#8) hz (.inl rfl))
    · rename_i hz
      cases hh
      exact .breaks (setsBreakpoint_of hn (c := 0x7a#8) hz (.inr rfl))
    -- q, H, T, !
    · cases hh
      exact .tells .query
    · cases hh
      exact .tells .ok
    · cases hh
      exact .tells .ok
    · cases hh
      exact .tells .ok
    -- D, k
    · cases hh
      exact .tells .detach
    · cases hh
      exact .tells .kill
    · cases hh
      exact .tells .nothing

end

/-! ## Dialogues -/

theorem Clean.of_ring {g g' : Stub} (hc : Clean g) (hr : g'.ring = g.ring) : Clean g' :=
  ⟨by rw [show g'.g_count = g.g_count from congrArg Buffer.count hr]; exact hc.count,
    by rw [hr]; exact hc.plain⟩

theorem Clean.back {g : Stub} (hc : Clean g) (cont : Bool) (fuel : Nat) (s : State H) :
    Clean (gdbReverseFrom cont fuel g s).1 := by
  induction fuel generalizing g s with
  | zero => exact hc
  | succ fuel ih =>
    have hone : Clean (stepReverse g s).1 := by
      cases hold : contents HIST_FRAMES g.ring with
      | nil =>
        rw [stepReverse_none hold]
        exact hc
      | cons f l =>
        rw [stepReverse_newest hc hold]
        exact hc.popped
    unfold gdbReverseFrom
    simp only
    split
    · exact hone
    · split
      · exact hone
      · split
        · exact hone
        · exact ih hone _

section
variable {e : Host H} {interrupt : Nat → Bool} {fuel : Nat} {v v' : Server H} {a : Answer}

/-- A run of the engine takes steps, none of which but the last has a reason to stop. -/
theorem resume_steps {cont : Bool} (hr : v.resume e interrupt fuel cont = some (v', a)) :
    ∃ k < fuel, steps e.h (k + 1) v.g v.r = (v'.g, v'.r) ∧
      ∀ j < k, outcome e.halted interrupt cont (0 + j + 1) (steps e.h (j + 1) v.g v.r).1
        (steps e.h (j + 1) v.g v.r).2.s = none := by
  unfold Server.resume at hr
  cases hrun : gdbRun e.h e.halted interrupt cont fuel 0 v.g v.r with
  | none =>
    rw [hrun] at hr
    cases hr
  | some o =>
    obtain ⟨g, r, reason⟩ := o
    rw [hrun] at hr
    obtain ⟨k, hk, hsteps, -, hnone⟩ := gdbRun_iff.mp hrun
    refine ⟨k, hk, ?_, hnone⟩
    simp only at hr
    split at hr
    · cases hr
      exact hsteps
    · cases hr
      exact hsteps

/-- **Every packet keeps the history clean.** -/
theorem Clean.effect {buf : Nat → Byte} {n : Nat} (hc : Clean v.g)
    (he : Effect e interrupt fuel v buf n v' a) : Clean v'.g := by
  cases he with
  | tells => exact hc
  | writes => exact hc
  | quiet => exact hc
  | breaks => exact hc.of_ring (breakpointPacket_ring v.g buf n)
  | back cont => exact hc.back cont _ _
  | ran running w cont same resumes =>
    obtain ⟨k, -, hsteps, -⟩ := resume_steps resumes
    have hg : v'.g = (steps e.h (k + 1) w.g w.r).1 := (congrArg Prod.fst hsteps).symm
    rw [hg, same.1]
    exact hc.run (k + 1) w.r

end

section
variable {e : Host H} {v v' : Server H} {l : List (Body × Answer)}

theorem Dialogue.clean (hd : Dialogue e v l v') (hc : Clean v.g) : Clean v'.g := by
  induction hd with
  | nil => exact hc
  | cons answers _ ih =>
    obtain ⟨interrupt, fuel, hh⟩ := answers
    exact ih (hc.effect (handle_effect hh))

theorem start_clean (g : Stub) (r : Run H) : Clean (Server.start g r).g := by
  refine ⟨Nat.zero_le _, fun f hf => ?_⟩
  have hnil : contents HIST_FRAMES (Server.start g r).g.ring = [] := contents_nil.mpr rfl
  rw [hnil] at hf
  cases hf

/-- **Reverse-continue goes back to the latest recorded step that began at a breakpoint, or to the
oldest recorded one**, and the records behind it stay: after every dialogue. -/
theorem gdbReverse_lands {g : Stub} {r : Run H} (hd : Dialogue e (Server.start g r) l v) :
    contents HIST_FRAMES v.g.ring = [] ∧ gdbReverse true v.g v.r.s = (v.g, v.r.s) ∨
    ∃ newer f older, contents HIST_FRAMES v.g.ring = newer ++ f :: older ∧
      (∀ f' ∈ newer, bpHit v.g (f'.reg 32) = false) ∧
      (bpHit v.g (f.reg 32) = true ∨ older = []) ∧
      (gdbReverse true v.g v.r.s).2 = restoreRegs v.r.s f ∧
      contents HIST_FRAMES (gdbReverse true v.g v.r.s).1.ring = older := by
  have hc : Clean v.g := hd.clean (start_clean g r)
  by_cases hnil : contents HIST_FRAMES v.g.ring = []
  · refine .inl ⟨hnil, ?_⟩
    unfold gdbReverse gdbReverseFrom
    rw [stepReverse_none hnil]
    rfl
  · obtain ⟨f, older, hl⟩ := @landing_some (bpHit v.g) _ hnil
    obtain ⟨newer, hL, hnewer, hend⟩ := landing_spec hl
    obtain ⟨hs, hrest⟩ := gdbReverseFrom_landing hc (Nat.lt_succ_self _) v.r.s hl
    exact .inr ⟨newer, f, older, hL, hnewer, hend, hs, hrest⟩

/-- After three steps, with a breakpoint at the second instruction. -/
theorem gdbReverse_lands_step : ∃ (l : List (Body × Answer)) (v : Server Unit),
    Dialogue walker (Server.start freshStub nops) l v ∧
      l.map Prod.fst = [typed "Z0,4,4", typed "s", typed "s", typed "s"] ∧ v.g.g_count = 3 ∧
      (contents HIST_FRAMES v.g.ring = [] ∧ gdbReverse true v.g v.r.s = (v.g, v.r.s) ∨
      ∃ newer f older, contents HIST_FRAMES v.g.ring = newer ++ f :: older ∧
        (∀ f' ∈ newer, bpHit v.g (f'.reg 32) = false) ∧
        (bpHit v.g (f.reg 32) = true ∨ older = []) ∧
        (gdbReverse true v.g v.r.s).2 = restoreRegs v.r.s f ∧
        contents HIST_FRAMES (gdbReverse true v.g v.r.s).1.ring = older) := by
  have hd : ∃ (l : List (Body × Answer)) (v : Server Unit),
      Dialogue walker (Server.start freshStub nops) l v ∧
        l.map Prod.fst = [typed "Z0,4,4", typed "s", typed "s", typed "s"] ∧ v.g.g_count = 3 :=
    ⟨[(_, .reply _), (_, .reply _), (_, .reply _), (_, .reply _)], _,
      .cons ⟨fun _ => false, 0, rfl⟩ <| .cons ⟨fun _ => false, 1, rfl⟩ <|
        .cons ⟨fun _ => false, 1, rfl⟩ <| .cons ⟨fun _ => false, 1, rfl⟩ <| .nil _, rfl, rfl⟩
  obtain ⟨l, v, hd, hl, hcount⟩ := hd
  exact ⟨l, v, hd, hl, hcount, gdbReverse_lands hd⟩

end

/-! ## A continue undone -/

/-- `c` without an address. -/
theorem handle_continue {e : Host H} {interrupt : Nat → Bool} {fuel : Nat} {v : Server H}
    (hx : v.exited = false) {c : Body} (hc : c.2 ≠ 0 ∧ c.1 0 = 0x63#8 ∧ c.1 1 = 0#8) :
    v.handle e interrupt fuel c.1 c.2 = v.resume e interrupt fuel true := by
  unfold Server.handle
  rw [if_neg hc.1, hc.2.1]
  have hmoved : v.moved c.1 c.2 = v := by
    unfold Server.moved
    rw [if_pos hc.2.2]
  change (if v.exited = true then _ else (v.moved c.1 c.2).resume e interrupt fuel true) = _
  rw [if_neg (by rw [hx]; decide), hmoved]

theorem landing_append {hit : Word → Bool} {A B : List Frame}
    (hA : ∀ f ∈ A, hit (f.reg 32) = false) (hB : B ≠ []) :
    landing hit (A ++ B) = landing hit B := by
  induction A with
  | nil => rfl
  | cons f A ih =>
    have hf : ¬ (hit (f.reg 32) = true ∨ A ++ B = []) := by
      rintro (hc | hc)
      · rw [hA f List.mem_cons_self] at hc
        cases hc
      · exact hB (List.append_eq_nil_iff.mp hc).2
    rw [List.cons_append, landing, if_neg hf]
    exact ih fun f' hf' => hA f' (List.mem_cons_of_mem f hf')

/-- The records of `k` steps, the newest first. -/
def recorded (h : Hooks H) (g : Stub) (r : Run H) (k : Nat) : List Frame :=
  (List.range k).reverse.map fun j => frameOf (steps h j g r).2.s

theorem recorded_succ (h : Hooks H) (g : Stub) (r : Run H) (k : Nat) :
    recorded h g r (k + 1) =
      recorded h (stepRecord h g r).1 (stepRecord h g r).2 k ++ [frameOf r.s] := by
  unfold recorded
  rw [List.range_succ_eq_map, List.reverse_cons, List.map_append, ← List.map_reverse,
    List.map_map]
  rfl

/-- The history after `k` steps that fit. -/
theorem steps_history {h : Hooks H} {g : Stub} (hc : Clean g) (ha : g.alloc = true) (k : Nat)
    (hk : k + g.g_count ≤ HIST_FRAMES) (r : Run H) :
    contents HIST_FRAMES (steps h k g r).1.ring =
      recorded h g r k ++ contents HIST_FRAMES g.ring := by
  induction k generalizing g r with
  | zero => rfl
  | succ k ih =>
    have hlen := contents_length HIST_FRAMES g.ring
    have hcount : g.ring.count = g.g_count := rfl
    have hone : contents HIST_FRAMES (stepRecord h g r).1.ring =
        frameOf r.s :: contents HIST_FRAMES g.ring := by
      rw [stepRecord_history hc ha]
      apply List.take_of_length_le
      rw [List.length_cons]
      omega
    have halloc : (stepRecord h g r).1.alloc = true := by
      unfold stepRecord
      split <;> exact ha
    have hnew : (stepRecord h g r).1.g_count = g.g_count + 1 := by
      have hl := contents_length HIST_FRAMES (stepRecord h g r).1.ring
      rw [hone, List.length_cons] at hl
      have : (stepRecord h g r).1.ring.count = (stepRecord h g r).1.g_count := rfl
      omega
    unfold steps
    rw [ih (hc.step r) halloc (by omega), hone, recorded_succ, List.append_assoc]
    rfl

/-- **Reverse-continue undoes a continue**: when `c` was given at a breakpoint, or with an empty
history, and ran for no more steps than the history has room for, `bc` brings back the registers
and pc that it began with, and the history.  Memory stays as the program left it. -/
theorem continue_reverse {e : Host H} {g : Stub} {r : Run H} {l : List (Body × Answer)}
    {v v₁ v₂ : Server H} (hd : Dialogue e (Server.start g r) l v) (ha : v.g.alloc = true)
    (hx : v.exited = false) (hstart : bpHit v.g v.r.s.pc = true ∨ v.g.g_count = 0)
    {fuel fuel' : Nat} (hroom : fuel + v.g.g_count ≤ HIST_FRAMES)
    {interrupt interrupt' : Nat → Bool} {c bc : Body} (hc : c.2 ≠ 0 ∧ c.1 0 = 0x63#8 ∧ c.1 1 = 0#8)
    (hbc : bc.2 ≠ 0 ∧ bc.1 0 = 0x62#8 ∧ bc.1 1 = 0x63#8) {a a' : Answer}
    (hforth : v.handle e interrupt fuel c.1 c.2 = some (v₁, a))
    (hback : v₁.handle e interrupt' fuel' bc.1 bc.2 = some (v₂, a')) :
    (∀ i, i ≠ 0#5 → v₂.r.s.x i = v.r.s.x i) ∧ v₂.r.s.pc = v.r.s.pc ∧
      contents HIST_FRAMES v₂.g.ring = contents HIST_FRAMES v.g.ring ∧
      v₂.r.s.mem = v₁.r.s.mem := by
  have hclean : Clean v.g := hd.clean (start_clean g r)
  have hres : v.resume e interrupt fuel true = some (v₁, a) :=
    (handle_continue hx hc).symm.trans hforth
  have hv₂ : v₂.g = (gdbReverse true v₁.g v₁.r.s).1 ∧ v₂.r.s = (gdbReverse true v₁.g v₁.r.s).2 := by
    unfold Server.handle at hback
    rw [if_neg hbc.1, hbc.2.1] at hback
    change (if bc.1 1 = 0x73#8 ∨ bc.1 1 = 0x63#8 then _ else _) = _ at hback
    rw [if_pos (.inr hbc.2.2), hbc.2.2] at hback
    cases hback
    exact ⟨rfl, rfl⟩
  obtain ⟨k, hk, hsteps, hnone⟩ := resume_steps hres
  have hg₁ : v₁.g = (steps e.h (k + 1) v.g v.r).1 := (congrArg Prod.fst hsteps).symm
  have hbp : bpHit v₁.g = bpHit v.g := by
    funext w
    rw [hg₁, steps_bp]
  have hclean₁ : Clean v₁.g := by
    rw [hg₁]
    exact hclean.run (k + 1) v.r
  have hold := steps_history (h := e.h) hclean ha (k + 1) (by omega) v.r
  rw [← hg₁] at hold
  have hland : landing (bpHit v₁.g) (contents HIST_FRAMES v₁.g.ring) =
      some (frameOf v.r.s, contents HIST_FRAMES v.g.ring) := by
    rw [hold, recorded_succ, List.append_assoc, hbp, landing_append]
    · rw [List.singleton_append, landing, if_pos]
      rcases hstart with hhit | hzero
      · exact .inl hhit
      · exact .inr (contents_nil.mpr hzero)
    · intro f hf
      unfold recorded at hf
      rw [List.mem_map] at hf
      obtain ⟨j, hj, rfl⟩ := hf
      rw [List.mem_reverse, List.mem_range] at hj
      obtain ⟨-, hmiss, -⟩ := outcome_none.mp (hnone j hj)
      rw [steps_bp] at hmiss
      exact hmiss
    · simp
  obtain ⟨hs, hrest⟩ := gdbReverseFrom_landing hclean₁ (Nat.lt_succ_self _) v₁.r.s hland
  refine ⟨fun i hi => ?_, ?_, ?_, ?_⟩
  · rw [hv₂.2, show (gdbReverse true v₁.g v₁.r.s).2 = _ from hs]
    have hlt : i.toNat < 32 := i.isLt
    simp [restoreRegs, frameOf, hi, hlt]
  · rw [hv₂.2, show (gdbReverse true v₁.g v₁.r.s).2 = _ from hs]
    rfl
  · rw [hv₂.1]
    exact hrest
  · rw [hv₂.2, show (gdbReverse true v₁.g v₁.r.s).2 = _ from hs]
    rfl

/-- The step of the program, undone. -/
theorem continue_reverse_nop : ∃ v₁ v₂ a a',
    nopServer.handle quitter (fun _ => false) 1 (typed "c").1 (typed "c").2 = some (v₁, a) ∧
      v₁.handle quitter (fun _ => false) 1 (typed "bc").1 (typed "bc").2 = some (v₂, a') ∧
      (∀ i, i ≠ 0#5 → v₂.r.s.x i = nopServer.r.s.x i) ∧ v₂.r.s.pc = nopServer.r.s.pc ∧
      contents HIST_FRAMES v₂.g.ring = contents HIST_FRAMES nopServer.g.ring ∧
      v₂.r.s.mem = v₁.r.s.mem := by
  have hv₁ : ∃ v₁ a, nopServer.handle quitter (fun _ => false) 1 (typed "c").1 (typed "c").2 =
      some (v₁, a) := ⟨_, _, rfl⟩
  obtain ⟨v₁, a, hforth⟩ := hv₁
  have hv₂ : ∃ v₂ a', v₁.handle quitter (fun _ => false) 1 (typed "bc").1 (typed "bc").2 =
      some (v₂, a') := ⟨_, _, rfl⟩
  obtain ⟨v₂, a', hback⟩ := hv₂
  exact ⟨v₁, v₂, a, a', hforth, hback, continue_reverse (.nil _) rfl rfl (.inr rfl) (by decide)
    ⟨by decide, rfl, rfl⟩ ⟨by decide, rfl, rfl⟩ hforth hback⟩

/-! ## After the exit -/

/-- `?`, `c`, `s` and `vCont;…`: the packets that ask how the program is, or to go on with it. -/
def asks (buf : Nat → Byte) : Bool :=
  buf 0 == 0x3f#8 || buf 0 == 0x63#8 || buf 0 == 0x73#8 ||
    (buf 0 == 0x76#8 && !isText buf (ascii "vCont?") && startsWith buf (ascii "vCont;"))

/-- The `W` packet of a program. -/
def exitMessage (e : Host H) (s : State H) : List Byte :=
  ascii "W" ++ hexPair ((e.exitcode s.host).setWidth 8)

section
variable {e : Host H} {interrupt : Nat → Bool} {fuel : Nat} {v v' : Server H} {a : Answer}
  {buf : Nat → Byte} {n : Nat}

/-- After the exit, what asks is told the message of the exit. -/
theorem handle_asks (hx : v.exited = true) (hn : n ≠ 0) (hb : asks buf = true)
    (hh : v.handle e interrupt fuel buf n = some (v', a)) : a = .reply v.wmsg := by
  unfold Server.handle at hh
  rw [if_neg hn] at hh
  unfold asks at hb
  simp only [Bool.or_eq_true, Bool.and_eq_true, Bool.not_eq_true', beq_iff_eq] at hb
  rcases hb with ((hq | hc) | hs) | ⟨⟨hv, htext⟩, hstart⟩
  · rw [hq] at hh
    change some (v, Answer.reply (if v.exited = true then v.wmsg else _)) = _ at hh
    rw [if_pos hx] at hh
    cases hh
    rfl
  · rw [hc] at hh
    change (if v.exited = true then some (v, Answer.reply v.wmsg) else _) = _ at hh
    rw [if_pos hx] at hh
    cases hh
    rfl
  · rw [hs] at hh
    change (if v.exited = true then some (v, Answer.reply v.wmsg) else _) = _ at hh
    rw [if_pos hx] at hh
    cases hh
    rfl
  · rw [hv] at hh
    change (if isText buf (ascii "vCont?") = true then _ else
      if startsWith buf (ascii "vCont;") = true then
        if v.exited = true then some (v, Answer.reply v.wmsg) else _
      else _) = _ at hh
    rw [if_neg (by rw [htext]; decide), if_pos hstart, if_pos hx] at hh
    cases hh
    rfl

/-- After the exit every packet is handled in no steps of the engine. -/
theorem handle_idle (hx : v.exited = true) (interrupt : Nat → Bool) (fuel : Nat)
    (buf : Nat → Byte) (n : Nat) :
    v.handle e interrupt fuel buf n = v.handle e interrupt 0 buf n := by
  unfold Server.handle
  simp only [hx, if_true]

/-- After the exit no packet calls the host. -/
theorem handle_exited (hx : v.exited = true)
    (hh : v.handle e interrupt fuel buf n = some (v', a)) :
    Untouched v.r v'.r ∧ v'.exited = true ∧ v'.wmsg = v.wmsg := by
  cases handle_effect hh with
  | tells => exact ⟨.refl _, hx, rfl⟩
  | writes host => exact ⟨⟨host, rfl⟩, hx, rfl⟩
  | quiet => exact ⟨.refl _, hx, rfl⟩
  | breaks => exact ⟨.refl _, hx, rfl⟩
  | back cont => exact ⟨⟨gdbReverseFrom_host cont _ _ _, rfl⟩, hx, rfl⟩
  | ran running =>
    rw [hx] at running
    cases running

/-- The message that is kept is that of the exit. -/
theorem handle_message (hm : v.exited = true → v.wmsg = exitMessage e v.r.s)
    (hh : v.handle e interrupt fuel buf n = some (v', a)) :
    v'.exited = true → v'.wmsg = exitMessage e v'.r.s := by
  intro hx'
  by_cases hx : v.exited = true
  · obtain ⟨⟨hhost, -⟩, -, hw⟩ := handle_exited hx hh
    rw [hw, hm hx]
    unfold exitMessage
    rw [hhost]
  · cases handle_effect hh with
    | ran _ w cont same resumes =>
      unfold Server.resume at resumes
      split at resumes
      · cases resumes
      · split at resumes
        · cases resumes
          rfl
        · cases resumes
          exact absurd (same.2.1.symm.trans hx') hx
    | _ => exact absurd hx' hx

end

section
variable {e : Host H} {v v' : Server H} {l l' : List (Body × Answer)}

theorem dialogue_message (hd : Dialogue e v l v')
    (hm : v.exited = true → v.wmsg = exitMessage e v.r.s) :
    v'.exited = true → v'.wmsg = exitMessage e v'.r.s := by
  induction hd with
  | nil => exact hm
  | cons answers _ ih =>
    obtain ⟨interrupt, fuel, hh⟩ := answers
    exact ih (handle_message hm hh)

theorem dialogue_exited (hd : Dialogue e v l v') (hx : v.exited = true) :
    Untouched v.r v'.r ∧ v'.exited = true ∧ v'.wmsg = v.wmsg ∧
      ∀ p ∈ l, p.1.2 ≠ 0 → asks p.1.1 = true → p.2 = .reply v.wmsg := by
  induction hd with
  | nil => exact ⟨.refl _, hx, rfl, by simp⟩
  | cons answers _ ih =>
    obtain ⟨interrupt, fuel, hh⟩ := answers
    obtain ⟨hr, hx₁, hw⟩ := handle_exited hx hh
    obtain ⟨hr', hx', hw', htold⟩ := ih hx₁
    refine ⟨hr.trans hr', hx', hw'.trans hw, fun p hp hn hasks => ?_⟩
    rcases List.mem_cons.mp hp with rfl | hmem
    · exact handle_asks hx hn hasks hh
    · rw [← hw]
      exact htold p hmem hn hasks

/-- **Once the program has exited it is over**: whatever the debugger then sends, the engine is not
stepped and the host is left alone, and whatever asks is told the exit code. -/
theorem exited_dialogue {g : Stub} {r : Run H} (hd : Dialogue e (Server.start g r) l v)
    (hx : v.exited = true) (hd' : Dialogue e v l' v') :
    Untouched v.r v'.r ∧ v'.exited = true ∧
      (∀ interrupt fuel buf n,
        v'.handle e interrupt fuel buf n = v'.handle e interrupt 0 buf n) ∧
      ∀ p ∈ l', p.1.2 ≠ 0 → asks p.1.1 = true → p.2 = .reply (exitMessage e v.r.s) := by
  have hm : v.wmsg = exitMessage e v.r.s :=
    dialogue_message hd (fun hstart => by cases hstart) hx
  obtain ⟨hr, hx', -, htold⟩ := dialogue_exited hd' hx
  rw [← hm]
  exact ⟨hr, hx', handle_idle hx', htold⟩

/-- A program that has exited, asked to go on. -/
theorem exited_dialogue_continue : ∃ v v' a data,
    Dialogue quitter nopServer [(typed "c", a)] v ∧
      Dialogue quitter v [(typed "c", .reply data)] v' ∧ Untouched v.r v'.r ∧
      data = exitMessage quitter v.r.s := by
  have hv : ∃ v data, nopServer.Answers quitter (typed "c") (.reply data) v ∧ v.exited = true :=
    ⟨_, _, ⟨fun _ => false, 1, rfl⟩, rfl⟩
  obtain ⟨v, data, ha, hx⟩ := hv
  have hv' : ∃ v' data', v.Answers quitter (typed "c") (.reply data') v' := by
    refine ⟨v, v.wmsg, fun _ => false, 1, ?_⟩
    change (if v.exited = true then some (v, Answer.reply v.wmsg) else _) = _
    rw [if_pos hx]
  obtain ⟨v', data', ha'⟩ := hv'
  have hn : (typed "c").2 ≠ 0 := by decide
  have hasks : asks (typed "c").1 = true := by decide
  obtain ⟨hr, -, -, htold⟩ := exited_dialogue (.cons ha (.nil v)) hx (.cons ha' (.nil v'))
  exact ⟨v, v', .reply data, data', .cons ha (.nil v), .cons ha' (.nil v'), hr,
    Answer.reply.inj (htold _ List.mem_cons_self hn hasks)⟩

end

end Purv.Gdb

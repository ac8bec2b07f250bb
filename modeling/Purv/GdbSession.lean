import Purv.GdbServe

/-!
# Continuing in a session of the gdb stub (`gdbstub.c`)

* `breakpointPackets` — the packets of a dialogue that insert and remove breakpoints;
* `SameTable` — every other packet leaves the breakpoints alone;
* `dialogue_table` — the table holds what the debugger wants, after every dialogue;
* `continue_stops` — where a continue stops, and what it is answered.
-/

namespace Purv.Gdb

variable {H : Type}

/-- The packets of a dialogue that insert and remove breakpoints. -/
def breakpointPackets (l : List (Body × Answer)) : List Body :=
  (l.map fun p => p.1).filter setsBreakpoint

/-- The same breakpoints, in the same places of the table. -/
def SameTable (g g' : Stub) : Prop := g'.g_bp = g.g_bp ∧ g'.g_nbp = g.g_nbp

theorem SameTable.refl (g : Stub) : SameTable g g := ⟨rfl, rfl⟩

theorem SameTable.trans {g g' g'' : Stub} (h : SameTable g g') (h' : SameTable g' g'') :
    SameTable g g'' := ⟨h'.1.trans h.1, h'.2.trans h.2⟩

theorem SameTable.table {g g' : Stub} {S : Finset Word} (h : SameTable g g') (ht : Table g S) :
    Table g' S := by
  obtain ⟨hholds, honce⟩ := ht
  constructor
  · rw [h.1, h.2]
    exact hholds
  · rw [h.1, h.2]
    exact honce

theorem stepRecord_table (h : Hooks H) (g : Stub) (r : Run H) :
    SameTable g (stepRecord h g r).1 := by
  unfold stepRecord
  split <;> exact ⟨rfl, rfl⟩

theorem steps_table (h : Hooks H) (k : Nat) (g : Stub) (r : Run H) :
    SameTable g (steps h k g r).1 := by
  induction k generalizing g r with
  | zero => exact .refl g
  | succ k ih => exact (stepRecord_table h g r).trans (ih _ _)

theorem stepReverse_table (g : Stub) (s : State H) : SameTable g (stepReverse g s).1 := by
  unfold stepReverse
  split
  · exact .refl g
  · simp only
    split <;> exact ⟨rfl, rfl⟩

theorem gdbReverseFrom_table (cont : Bool) (fuel : Nat) (g : Stub) (s : State H) :
    SameTable g (gdbReverseFrom cont fuel g s).1 := by
  induction fuel generalizing g s with
  | zero => exact .refl g
  | succ fuel ih =>
    have hone := stepReverse_table g s
    unfold gdbReverseFrom
    simp only
    split
    · exact hone
    · split
      · exact hone
      · split
        · exact hone
        · exact hone.trans (ih _ _)

section
variable {e : Host H} {interrupt : Nat → Bool} {fuel : Nat} {v v' : Server H} {a : Answer}
  {buf : Nat → Byte} {n : Nat}

theorem resume_table {cont : Bool} (hr : v.resume e interrupt fuel cont = some (v', a)) :
    SameTable v.g v'.g := by
  obtain ⟨k, -, hsteps, -⟩ := resume_steps hr
  have hg : v'.g = (steps e.h (k + 1) v.g v.r).1 := (congrArg Prod.fst hsteps).symm
  rw [hg]
  exact steps_table e.h (k + 1) v.g v.r

/-- A packet that is about no breakpoint leaves them alone. -/
theorem handle_others (hno : setsBreakpoint (buf, n) = false)
    (hh : v.handle e interrupt fuel buf n = some (v', a)) : SameTable v.g v'.g := by
  cases handle_effect hh with
  | tells => exact .refl _
  | writes => exact .refl _
  | quiet => exact .refl _
  | breaks sets =>
    rw [hno] at sets
    cases sets
  | back cont => exact gdbReverseFrom_table cont _ _ _
  | ran _ w cont same resumes =>
    rw [← same.1]
    exact resume_table resumes

theorem handle_breakpoint (hyes : setsBreakpoint (buf, n) = true)
    (hh : v.handle e interrupt fuel buf n = some (v', a)) :
    v'.g = (breakpointPacket v.g buf n).1 := by
  unfold setsBreakpoint at hyes
  simp only [Bool.and_eq_true, Bool.or_eq_true, bne_iff_ne, beq_iff_eq] at hyes
  obtain ⟨hn, hz⟩ := hyes
  unfold Server.handle at hh
  rw [if_neg hn] at hh
  rcases hz with hz | hz
  · rw [hz] at hh
    change some ({ v with g := (breakpointPacket v.g buf n).1 }, Answer.reply _) = some (v', a)
      at hh
    cases hh
    rfl
  · rw [hz] at hh
    change some ({ v with g := (breakpointPacket v.g buf n).1 }, Answer.reply _) = some (v', a)
      at hh
    cases hh
    rfl

end

section
variable {e : Host H} {v v' : Server H} {l : List (Body × Answer)}

/-- **The table follows the dialogue**, as long as what is wanted fits. -/
theorem dialogue_table (hd : Dialogue e v l v') {S : Finset Word} (ht : Table v.g S)
    (hroom : ∀ qs, qs <+: breakpointPackets l → (qs.foldl wantedAfter S).card ≤ GDB_MAX_BP) :
    Table v'.g ((breakpointPackets l).foldl wantedAfter S) := by
  induction hd generalizing S with
  | nil => exact ht
  | @cons v v₁ v₂ p data l answers _ ih =>
    obtain ⟨interrupt, fuel, hh⟩ := answers
    by_cases hp : setsBreakpoint p = true
    · have hlist : breakpointPackets ((p, .reply data) :: l) = p :: breakpointPackets l :=
        List.filter_cons_of_pos hp
      rw [hlist] at hroom ⊢
      have hone : (wantedAfter S p).card ≤ GDB_MAX_BP :=
        hroom [p] ⟨breakpointPackets l, rfl⟩
      have ht₁ : Table v₁.g (wantedAfter S p) := by
        rw [handle_breakpoint hp hh]
        exact ht.packet p hone
      exact ih ht₁ fun qs hq => hroom (p :: qs) (List.cons_prefix_cons.mpr ⟨rfl, hq⟩)
    · have hlist : breakpointPackets ((p, .reply data) :: l) = breakpointPackets l :=
        List.filter_cons_of_neg hp
      rw [hlist] at hroom ⊢
      exact ih ((handle_others (Bool.eq_false_of_not_eq_true hp) hh).table ht) hroom

/-- The steps of the stub are the engine's. -/
theorem steps_run (h : Hooks H) (k : Nat) (g : Stub) (r : Run H) :
    (steps h k g r).2 = (stepOne h)^[k] r := by
  induction k generalizing g r with
  | zero => rfl
  | succ k ih =>
    unfold steps
    rw [ih, stepRecord_run]
    rfl

/-- How a continue ends after `k + 1` steps: the program exits, or it comes to a breakpoint, or the
debugger interrupts it; and it is answered so. -/
inductive Ends (e : Host H) (S : Finset Word) (interrupt : Nat → Bool) (k : Nat) (s : State H) :
    Answer → Prop
  | exit (halts : e.halted s.host = true) : Ends e S interrupt k s (.reply (exitMessage e s))
  | breakpoint (runs : e.halted s.host = false) (here : s.pc ∈ S) :
      Ends e S interrupt k s (.reply (stopReply s 5#8))
  | interrupted (runs : e.halted s.host = false) (elsewhere : s.pc ∉ S)
      (asked : (k + 1) % 1024 = 0 ∧ interrupt (k + 1) = true) :
      Ends e S interrupt k s (.reply (stopReply s 2#8))

/-- It goes on after `k + 1` steps: none of the three. -/
structure GoesOn (e : Host H) (S : Finset Word) (interrupt : Nat → Bool) (k : Nat) (s : State H) :
    Prop where
  runs : e.halted s.host = false
  elsewhere : s.pc ∉ S
  quiet : ¬ ((k + 1) % 1024 = 0 ∧ interrupt (k + 1) = true)

section
variable {S : Finset Word} {interrupt : Nat → Bool} {k : Nat} {g' : Stub} {s : State H}

theorem goesOn_iff (hS : ∀ w, bpHit g' w = true ↔ w ∈ S) :
    outcome e.halted interrupt true (k + 1) g' s = none ↔ GoesOn e S interrupt k s := by
  have hpc : bpHit g' s.pc = false ↔ s.pc ∉ S := by
    rw [← hS, Bool.not_eq_true]
  rw [outcome_none, hpc]
  exact ⟨fun ⟨h, h', h''⟩ => ⟨h, h', h''⟩, fun ⟨h, h', h''⟩ => ⟨h, h', h''⟩⟩

/-- What the reason of `gdb_run` is answered with. -/
theorem ends_of_outcome (hS : ∀ w, bpHit g' w = true ↔ w ∈ S) {reason : StopReason}
    (hout : outcome e.halted interrupt true (k + 1) g' s = some reason) :
    Ends e S interrupt k s (.reply (if reason = .exit then exitMessage e s
      else stopReply s (if reason = .int then 2#8 else 5#8))) := by
  unfold outcome at hout
  by_cases hhalt : e.halted s.host = true
  · rw [if_pos hhalt] at hout
    cases hout
    exact .exit hhalt
  have hruns : e.halted s.host = false := Bool.eq_false_of_not_eq_true hhalt
  rw [if_neg hhalt, if_neg (by decide)] at hout
  by_cases hbp : bpHit g' s.pc = true
  · rw [if_pos hbp] at hout
    cases hout
    exact .breakpoint hruns ((hS _).mp hbp)
  rw [if_neg hbp] at hout
  by_cases hasked : (k + 1) % 1024 = 0 ∧ interrupt (k + 1) = true
  · rw [if_pos hasked] at hout
    cases hout
    exact .interrupted hruns (fun hmem => hbp ((hS _).mpr hmem)) hasked
  · rw [if_neg hasked] at hout
    cases hout

end

/-- **A continue runs to the first breakpoint that the debugger wants**: after every dialogue in
which it never wanted more than 64 at a time and which the program outlived, the engine is stepped
until the program exits, or comes to an address that was inserted and not removed since, or is
interrupted, whichever is first, and the answer says which; and it is answered whenever one of
these comes. -/
theorem continue_stops {g : Stub} {r : Run H} (hd : Dialogue e (Server.start g r) l v)
    (hroom : ∀ qs, qs <+: breakpointPackets l → (wanted qs).card ≤ 64) (hx : v.exited = false)
    {c : Body} (hc : c.2 ≠ 0 ∧ c.1 0 = 0x63#8 ∧ c.1 1 = 0#8) (interrupt : Nat → Bool)
    (fuel : Nat) :
    (∀ v' a, v.handle e interrupt fuel c.1 c.2 = some (v', a) →
      ∃ k < fuel, v'.r = (stepOne e.h)^[k + 1] v.r ∧
        (∀ j < k, GoesOn e (wanted (breakpointPackets l)) interrupt j
          ((stepOne e.h)^[j + 1] v.r).s) ∧
        Ends e (wanted (breakpointPackets l)) interrupt k v'.r.s a) ∧
    ((∃ k < fuel, ¬ GoesOn e (wanted (breakpointPackets l)) interrupt k
        ((stepOne e.h)^[k + 1] v.r).s) →
      ∃ v' a, v.handle e interrupt fuel c.1 c.2 = some (v', a)) := by
  have hempty : Table (Server.start g r).g ∅ := by
    refine ⟨rfl, fun i hi => ?_⟩
    exact absurd hi (Nat.not_lt_zero i)
  have htable : Table v.g (wanted (breakpointPackets l)) := dialogue_table hd hempty hroom
  have hhit : ∀ k w, bpHit (steps e.h k v.g v.r).1 w = true ↔ w ∈ wanted (breakpointPackets l) := by
    intro k w
    rw [steps_bp]
    exact htable.hit w
  have hon : ∀ j, outcome e.halted interrupt true (0 + j + 1) (steps e.h (j + 1) v.g v.r).1
      (steps e.h (j + 1) v.g v.r).2.s = none ↔
        GoesOn e (wanted (breakpointPackets l)) interrupt j ((stepOne e.h)^[j + 1] v.r).s := by
    intro j
    rw [Nat.zero_add, ← steps_run e.h (j + 1) v.g v.r]
    exact goesOn_iff (hhit (j + 1))
  rw [handle_continue hx hc]
  unfold Server.resume
  constructor
  · intro v' a hres
    cases hrun : gdbRun e.h e.halted interrupt true fuel 0 v.g v.r with
    | none =>
      rw [hrun] at hres
      cases hres
    | some o =>
      obtain ⟨g', r', reason⟩ := o
      rw [hrun] at hres
      obtain ⟨k, hk, hsteps, hout, hnone⟩ := gdbRun_iff.mp hrun
      have hr' : r' = (stepOne e.h)^[k + 1] v.r := by
        rw [← steps_run e.h (k + 1) v.g v.r, hsteps]
      have hend := hhit (k + 1)
      rw [hsteps] at hend
      rw [Nat.zero_add] at hout
      have hends := ends_of_outcome hend hout
      refine ⟨k, hk, ?_, fun j hj => (hon j).mp (hnone j hj), ?_⟩
      · simp only at hres
        split at hres <;> cases hres <;> exact hr'
      · simp only at hres
        split at hres <;> rename_i hexit <;> cases hres
        · rw [if_pos hexit] at hends
          exact hends
        · rw [if_neg hexit] at hends
          exact hends
  · rintro ⟨k, hk, hstop⟩
    obtain ⟨o, hrun⟩ := gdbRun_some ⟨k, hk, mt (hon k).mp hstop⟩
    rw [hrun]
    simp only
    split
    · exact ⟨_, _, rfl⟩
    · exact ⟨_, _, rfl⟩

/-- It comes to a breakpoint at its third. -/
theorem continue_stops_nop : ∃ v v' a,
    Dialogue walker (Server.start freshStub nops) [(typed "Z0,8,4", .reply OK)] v ∧
      v.handle walker (fun _ => false) 5 (typed "c").1 (typed "c").2 = some (v', a) ∧
      ∃ k < 5, v'.r = (stepOne walker.h)^[k + 1] v.r ∧
        (∀ j < k, GoesOn walker (wanted [typed "Z0,8,4"]) (fun _ => false) j
          ((stepOne walker.h)^[j + 1] v.r).s) ∧
        Ends walker (wanted [typed "Z0,8,4"]) (fun _ => false) k v'.r.s a := by
  have hv : ∃ v, (Server.start freshStub nops).Answers walker (typed "Z0,8,4") (.reply OK) v ∧
      v.exited = false ∧ ∃ v' a,
        v.handle walker (fun _ => false) 5 (typed "c").1 (typed "c").2 = some (v', a) :=
    ⟨_, ⟨fun _ => false, 0, rfl⟩, rfl, _, _, rfl⟩
  obtain ⟨v, hz, hx, v', a, hh⟩ := hv
  refine ⟨v, v', a, .cons hz (.nil v), hh, ?_⟩
  refine (continue_stops (.cons hz (.nil v)) ?_ hx ⟨by decide, rfl, rfl⟩ _ 5).1 v' a hh
  intro qs hq
  rw [show breakpointPackets [(typed "Z0,8,4", Answer.reply OK)] = [typed "Z0,8,4"] from rfl] at hq
  rcases List.prefix_cons_iff.mp hq with rfl | ⟨qs', rfl, hqs'⟩
  · decide
  · rw [List.prefix_nil.mp hqs']
    decide

end

end Purv.Gdb

import Purv.TranscodeLayout

/-!
# What the transcoder reads

* `Access` — a byte of the code, an entry of the map or a byte of the target set;
* `stepReads`, `unitReads`, `transcodeMapExReads`, `transcodeExReads` — the accesses of the source,
  in its order;
* `transcodeEx_agree`, `has_agree`, `emit_agree` — what it makes depends on no other byte of the
  code, no other of the target set, no other entry of the map;
* `Covered` — the programs whose last bytes the loops stop short of;
* `step_ends` — `step` decodes every instruction of the unit that it returns;
* `transcodeReads_inside` — the accesses are inside exactly for these programs.
-/

namespace Purv.Transcode

open Bits

/-! ## Accesses -/

/-- An access of the transcoder, by its index. -/
inductive Access
  | code (i : Nat)
  | map (i : Nat)
  | bits (i : Nat)
  deriving DecidableEq

/-- The code has `len` bytes, the map `(len >> 1) + 2` entries, the target set
`(len / 4 + 7) / 8 + 1` bytes. -/
def Access.Inside (len : Word) : Access → Prop
  | .code i => i < len.toNat
  | .map i => i < len.toNat / 2 + 2
  | .bits i => i < (len.toNat / 4 + 7) / 8 + 1

instance (len : Word) : DecidablePred (Access.Inside len) := fun a =>
  match a with
  | .code i => inferInstanceAs (Decidable (i < len.toNat))
  | .map i => inferInstanceAs (Decidable (i < len.toNat / 2 + 2))
  | .bits i => inferInstanceAs (Decidable (i < (len.toNat / 4 + 7) / 8 + 1))

/-- Every access is inside. -/
def Clear (len : Word) (rs : List Access) : Prop := ∀ a ∈ rs, a.Inside len

instance (len : Word) (rs : List Access) : Decidable (Clear len rs) :=
  inferInstanceAs (Decidable (∀ a ∈ rs, a.Inside len))

/-- The four bytes that `decode` reads. -/
def decodeReads (off : Word) : List Access :=
  [.code off.toNat, .code (off + 1#32).toNat, .code (off + 2#32).toNat, .code (off + 3#32).toNat]

/-- The halfword that the unit loops read. -/
def halfReads (off : Word) : List Access := [.code off.toNat, .code (off + 1#32).toNat]

/-- The byte that `targets_has` and `targets_mark` read. -/
def Targets.access (t : Targets) (addr : Word) : List Access :=
  if addr / 4#32 < t.n then [.bits (addr / 4#32 / 8#32).toNat] else []

/-- The entry that `target_word` reads. -/
def targetWordReads (len target : Word) : List Access :=
  if target ≥ len then [] else [.map (target >>> 1).toNat]

/-! ## Fusions -/

section
variable (code : Nat → Byte) (len : Word) (targets : Targets) (off : Word)

/-- The loop of `try_fuse_prologue`. -/
def saveReads : Nat → Word → List Access
  | 0, _ => []
  | left + 1, o =>
    if o + 4#32 ≤ len then
      targets.access o ++
        if targets.has o then []
        else
          let s := decode code o
          decodeReads o ++
            if s.op ≠ RISCV_OP_SW ∨ s.rs1 ≠ 2#5 ∨ rankOf s.rs2 < 0 then []
            else saveReads left (o + 4#32)
    else []

/-- `try_fuse_prologue`. -/
def prologueReads : List Access :=
  let a := decode code off
  decodeReads off ++
    if a.op ≠ RISCV_OP_ADDI ∨ a.rd ≠ 2#5 ∨ a.rs1 ≠ 2#5 ∨ 0 ≤ a.imm.toInt then []
    else if -a.imm = 0#32 ∨ -a.imm > 0x1fff#32 then []
    else saveReads code len targets 13 (off + 4#32)

/-- The loop of `try_fuse_epilogue`. -/
def loadReads : Nat → Word → List Access
  | 0, _ => []
  | left + 1, o =>
    if o + 4#32 ≤ len then
      (if o ≠ off then targets.access o else []) ++
        if o ≠ off ∧ targets.has o then []
        else
          let l := decode code o
          decodeReads o ++
            if l.op ≠ RISCV_OP_LW ∨ l.rs1 ≠ 2#5 ∨ rankOf l.rd < 0 then []
            else loadReads left (o + 4#32)
    else []

/-- The end of `try_fuse_epilogue`, after loads up to `o`. -/
def returnReads (o : Word) : List Access :=
  targets.access o ++
    if targets.has o then []
    else
      targets.access (o + 4#32) ++
        if targets.has (o + 4#32) then []
        else
          let ad := decode code o
          decodeReads o ++
            if ad.op ≠ RISCV_OP_ADDI ∨ ad.rd ≠ 2#5 ∨ ad.rs1 ≠ 2#5 ∨ ad.imm.toInt ≤ 0 then []
            else if ad.imm > 0x1fff#32 then []
            else decodeReads (o + 4#32)

/-- `try_fuse_epilogue`. -/
def epilogueReads : List Access :=
  let loads := epilogueLoads code len off targets 13 off
  let o := off + 4#32 * BitVec.ofNat 32 loads.length
  loadReads code len targets off 13 off ++
    if loads = [] ∨ o + 8#32 > len then [] else returnReads code targets o

/-- `try_fuse_la`. -/
def laReads : List Access :=
  if off + 8#32 > len then []
  else
    targets.access (off + 4#32) ++
      if targets.has (off + 4#32) then []
      else
        decodeReads off ++
          if (decode code off).op ≠ RISCV_OP_AUIPC then [] else decodeReads (off + 4#32)

/-- The look at a third instruction in `try_fuse_pair`. -/
def vcallReads : List Access :=
  if off + 12#32 ≤ len then
    targets.access (off + 8#32) ++
      if targets.has (off + 8#32) then [] else decodeReads (off + 8#32)
  else []

/-- `try_fuse_pair` looks at a third instruction once it has found an `LWLW`. -/
def AtLwlw (a b d : Dec) : Prop :=
  fuseShadd a b d = none ∧ fuseLwx a b d = none ∧ (a.op = RISCV_OP_LW ∧ a.rd ≠ 0#5) ∧
    fuseLwlw a b d ≠ none

instance (a b d : Dec) : Decidable (AtLwlw a b d) :=
  inferInstanceAs (Decidable (_ ∧ _ ∧ _ ∧ _))

/-- `try_fuse_pair`. -/
def pairReads (d : Dec) : List Access :=
  if off + 8#32 > len then []
  else
    targets.access (off + 4#32) ++
      if targets.has (off + 4#32) then []
      else
        decodeReads off ++ decodeReads (off + 4#32) ++
          if AtLwlw (decode code off) (decode code (off + 4#32)) d then
            vcallReads len targets off
          else []

/-- `step`. -/
def stepReads (d : Dec) : List Access :=
  prologueReads code len targets off ++
    if (tryFusePrologue code len off targets d).isSome then []
    else
      epilogueReads code len targets off ++
        if (tryFuseEpilogue code len off targets d).isSome then []
        else
          laReads code len targets off ++
            if (tryFuseLa code len off targets d).isSome then []
            else
              pairReads code len targets off d ++
                if (tryFusePair code len off targets d).isSome then [] else decodeReads off

end

/-! ## Passes -/

section
variable (code : Nat → Byte) (len : Word)

/-- The first iterations of the loop of `collect_targets` over the code. -/
def collectReads : Nat → Word → Targets → List Access
  | 0, _, _ => []
  | fuel + 1, off, t =>
    if off + 4#32 ≤ len then
      let d := decode code off
      if Direct d.op then
        decodeReads off ++ t.access d.target ++
          collectReads fuel (off + 4#32) (t.mark d.target)
      else decodeReads off ++ collectReads fuel (off + 4#32) t
    else []

/-- The first iterations of a loop over the units that makes the accesses `out` for a unit. -/
def unitReads (targets : Targets) (out : Word → Dec → List Access) :
    Nat → Word → Dec → List Access
  | 0, _, _ => []
  | fuel + 1, off, d =>
    if off + 2#32 ≤ len then
      halfReads off ++
        if unitAt code len off then
          stepReads code len targets off d ++ out off (step code len off targets d).1 ++
            unitReads targets out fuel (off + (step code len off targets d).2)
              (step code len off targets d).1
        else []
    else []

/-- The entry of the map that `build_map` writes for a unit. -/
def placeReads (off : Word) (_ : Dec) : List Access := [.map (off >>> 1).toNat]

/-- The entry of the map that `emit` reads for a unit. -/
def emitReads (_ : Word) (d : Dec) : List Access :=
  if (d.op = RISCV_OP_LW_BZ ∨ d.op = RISCV_OP_LBU_BZ) ∨ Direct d.op then
    targetWordReads len d.target
  else []

/-- The accesses that `transcode_map_ex` makes in the first `fuel` iterations of each loop. -/
def transcodeMapExReads (ext : List Word) (fuel : Nat) : List Access :=
  collectReads code len fuel 0#32 (.new len) ++
    match collectTargets code len ext with
    | none => []
    | some targets =>
      ext.flatMap (Targets.new len).access ++
        ((List.range (len.toNat / 2 + 2)).map .map ++
          unitReads code len targets placeReads fuel 0#32 .zero)

/-- The accesses that `transcode_ex` makes in the first `fuel` iterations of each loop. -/
def transcodeExReads (ext : List Word) (fuel : Nat) : List Access :=
  transcodeMapExReads code len ext fuel ++
    match collectTargets code len ext with
    | none => []
    | some targets =>
      match buildMap code len targets with
      | none => []
      | some _ => unitReads code len targets (emitReads len) fuel 0#32 .zero

/-- The `lw` of a callee-saved register from its slot in a frame. -/
def SavedLoad (o : Word) : Prop :=
  (decode code o).op = RISCV_OP_LW ∧ (decode code o).rs1 = 2#5 ∧ 0 ≤ rankOf (decode code o).rd

instance (o : Word) : Decidable (SavedLoad code o) := inferInstanceAs (Decidable (_ ∧ _ ∧ _))

/-- The offset of the first byte after the last whole word. -/
def tail : Word := len / 4#32 * 4#32

/-- The programs whose last bytes the loops stop short of: `off + 4` and `o + 8` do not wrap, and a
last halfword does not pass for a compressed instruction. -/
def Covered : Prop :=
  len.toNat < 2 ^ 32 - 4 ∧
    (2 ≤ len.toNat % 4 → (fetchHalf code (tail len)).extractLsb' 0 2 = 3#2) ∧
    (2 ^ 32 - 8 ≤ len.toNat → ¬ SavedLoad code 0xfffffff4#32)

instance : Decidable (Covered code len) := inferInstanceAs (Decidable (_ ∧ _ ∧ _))

end

/-! ## The accesses are all that it reads -/

/-- Two programs that have the same bytes where the accesses are. -/
def AgreeOn (code code' : Nat → Byte) (rs : List Access) : Prop :=
  ∀ i, .code i ∈ rs → code i = code' i

section
variable {code code' : Nat → Byte} {len off : Word} {targets : Targets}

theorem AgreeOn.left {rs rs' : List Access} (h : AgreeOn code code' (rs ++ rs')) :
    AgreeOn code code' rs := fun i hi => h i (List.mem_append_left _ hi)

theorem AgreeOn.right {rs rs' : List Access} (h : AgreeOn code code' (rs ++ rs')) :
    AgreeOn code code' rs' := fun i hi => h i (List.mem_append_right _ hi)

theorem decode_agree (h : AgreeOn code code' (decodeReads off)) :
    decode code off = decode code' off := by
  unfold decode wordAt
  rw [h _ (.head _), h _ (.tail _ (.head _)), h _ (.tail _ (.tail _ (.head _))),
    h _ (.tail _ (.tail _ (.tail _ (.head _))))]

theorem prologueSaves_agree : ∀ (left : Nat) (o : Word),
    AgreeOn code code' (saveReads code len targets left o) →
      prologueSaves code len targets left o = prologueSaves code' len targets left o
  | 0, _, _ => rfl
  | left + 1, o, h => by
    unfold saveReads at h
    unfold prologueSaves
    split
    · rename_i h4
      rw [if_pos h4] at h
      split
      · rfl
      · rename_i hhas
        rw [if_neg hhas] at h
        simp only at h ⊢
        rw [← decode_agree h.right.left]
        split
        · rfl
        · rename_i hs
          rw [if_neg hs] at h
          rw [prologueSaves_agree left _ h.right.right]
    · rfl

theorem epilogueLoads_agree (off : Word) : ∀ (left : Nat) (o : Word),
    AgreeOn code code' (loadReads code len targets off left o) →
      epilogueLoads code len off targets left o = epilogueLoads code' len off targets left o
  | 0, _, _ => rfl
  | left + 1, o, h => by
    unfold loadReads at h
    unfold epilogueLoads
    split
    · rename_i h4
      rw [if_pos h4] at h
      split
      · rfl
      · rename_i hhas
        rw [if_neg hhas] at h
        simp only at h ⊢
        rw [← decode_agree h.right.left]
        split
        · rfl
        · rename_i hl
          rw [if_neg hl] at h
          rw [epilogueLoads_agree off left _ h.right.right]
    · rfl

theorem tryFusePrologue_agree (out : Dec)
    (h : AgreeOn code code' (prologueReads code len targets off)) :
    tryFusePrologue code len off targets out = tryFusePrologue code' len off targets out := by
  unfold prologueReads at h
  unfold tryFusePrologue
  simp only at h ⊢
  rw [← decode_agree h.left]
  split
  · rfl
  · rename_i hhead
    rw [if_neg hhead] at h
    split
    · rfl
    · rename_i hN
      rw [if_neg hN] at h
      rw [← prologueSaves_agree 13 _ h.right]

theorem tryFuseEpilogue_agree (out : Dec)
    (h : AgreeOn code code' (epilogueReads code len targets off)) :
    tryFuseEpilogue code len off targets out = tryFuseEpilogue code' len off targets out := by
  unfold epilogueReads at h
  unfold tryFuseEpilogue
  simp only at h ⊢
  rw [← epilogueLoads_agree off 13 _ h.left]
  split
  · rfl
  · rename_i hgo
    rw [if_neg hgo] at h
    unfold returnReads at h
    have hret := h.right
    split
    · rfl
    · rename_i htgt
      rw [not_or] at htgt
      rw [if_neg htgt.1, if_neg htgt.2] at hret
      have hread := hret.right.right
      simp only at hread
      rw [← decode_agree hread.left]
      split
      · rfl
      · rename_i had
        rw [if_neg had] at hread
        split
        · rfl
        · rename_i hN
          rw [if_neg hN] at hread
          rw [← decode_agree hread.right]

theorem tryFuseLa_agree (out : Dec) (h : AgreeOn code code' (laReads code len targets off)) :
    tryFuseLa code len off targets out = tryFuseLa code' len off targets out := by
  unfold laReads at h
  unfold tryFuseLa
  split
  · rfl
  · rename_i h8
    rw [if_neg h8] at h
    split
    · rfl
    · rename_i htgt
      rw [if_neg htgt] at h
      have hread := h.right
      simp only
      rw [← decode_agree hread.left]
      split
      · rfl
      · rename_i hau
        rw [if_neg hau] at hread
        rw [← decode_agree hread.right]

theorem isVcall_agree (a : Dec) (h : AgreeOn code code' (vcallReads len targets off)) :
    isVcall code len off targets a = isVcall code' len off targets a := by
  unfold vcallReads at h
  unfold isVcall
  by_cases h12 : off + 12#32 ≤ len
  · rw [if_pos h12] at h
    cases hhas : targets.has (off + 8#32) with
    | true => simp only [Bool.not_true, Bool.and_false, Bool.false_and]
    | false =>
      rw [hhas] at h
      rw [decode_agree h.right]
  · rw [decide_eq_false h12]
    simp only [Bool.false_and]

theorem tryFusePair_agree (out : Dec)
    (h : AgreeOn code code' (pairReads code len targets off out)) :
    tryFusePair code len off targets out = tryFusePair code' len off targets out := by
  unfold pairReads at h
  unfold tryFusePair
  split
  · rfl
  · rename_i h8
    rw [if_neg h8] at h
    split
    · rfl
    · rename_i htgt
      rw [if_neg htgt] at h
      have hread := h.right
      simp only
      rw [← decode_agree hread.left.left, ← decode_agree hread.left.right]
      -- the third instruction matters once the first two are an `LWLW`
      cases hshadd : fuseShadd (decode code off) (decode code (off + 4#32)) out with
      | some d => rfl
      | none =>
        cases hlwx : fuseLwx (decode code off) (decode code (off + 4#32)) out with
        | some d => rfl
        | none =>
          by_cases ha : (decode code off).op = RISCV_OP_LW ∧ (decode code off).rd ≠ 0#5
          · rw [if_pos ha]
            cases hlwlw : fuseLwlw (decode code off) (decode code (off + 4#32)) out with
            | some d =>
              have hat : AtLwlw (decode code off) (decode code (off + 4#32)) out :=
                ⟨hshadd, hlwx, ha, by rw [hlwlw]; exact Option.some_ne_none _⟩
              rw [if_pos hat] at hread
              simp only
              rw [isVcall_agree _ hread.right]
            | none => rfl
          · rw [if_neg ha]

/-- **A step reads what is listed**: it finds the same unit in every program that agrees there. -/
theorem step_agree (d : Dec) (h : AgreeOn code code' (stepReads code len targets off d)) :
    step code len off targets d = step code' len off targets d := by
  unfold stepReads at h
  unfold step
  rw [← tryFusePrologue_agree d h.left]
  cases h1 : tryFusePrologue code len off targets d with
  | some u => rfl
  | none =>
    rw [h1] at h
    have h := h.right
    rw [← tryFuseEpilogue_agree d h.left]
    cases h2 : tryFuseEpilogue code len off targets d with
    | some u => rfl
    | none =>
      rw [h2] at h
      have h := h.right
      rw [← tryFuseLa_agree d h.left]
      cases h3 : tryFuseLa code len off targets d with
      | some u => rfl
      | none =>
        rw [h3] at h
        have h := h.right
        rw [← tryFusePair_agree d h.left]
        cases h4 : tryFusePair code len off targets d with
        | some u => rfl
        | none =>
          rw [h4] at h
          rw [← decode_agree h.right]

theorem collectCode_agree : ∀ (fuel : Nat) (off : Word) (t : Targets),
    AgreeOn code code' (collectReads code len fuel off t) →
      collectCode code len fuel off t = collectCode code' len fuel off t
  | 0, _, _, _ => rfl
  | fuel + 1, off, t, h => by
    unfold collectReads at h
    unfold collectCode
    split
    · rename_i h4
      rw [if_pos h4] at h
      simp only at h ⊢
      by_cases hd : Direct (decode code off).op
      · rw [if_pos hd] at h
        rw [← decode_agree h.left.left, if_pos (show _ ∨ _ from hd)]
        exact collectCode_agree fuel _ _ h.right
      · rw [if_neg hd] at h
        rw [← decode_agree h.left, if_neg (show ¬ (_ ∨ _) from hd)]
        exact collectCode_agree fuel _ _ h.right
    · rfl

theorem unitAt_agree (h2 : off + 2#32 ≤ len → AgreeOn code code' (halfReads off)) :
    unitAt code len off = unitAt code' len off := by
  unfold unitAt
  by_cases hle : off + 2#32 ≤ len
  · have h := h2 hle
    unfold fetchHalf
    rw [h _ (.head _), h _ (.tail _ (.head _))]
  · rw [decide_eq_false hle]
    simp only [Bool.false_and]

/-- What a loop over the units reads for the unit at `off`, and then. -/
theorem unitReads_agree {out : Word → Dec → List Access} {fuel : Nat} {d : Dec}
    (h : AgreeOn code code' (unitReads code len targets out (fuel + 1) off d)) :
    unitAt code len off = unitAt code' len off ∧
      (unitAt code len off = true →
        step code len off targets d = step code' len off targets d ∧
        AgreeOn code code' (unitReads code len targets out fuel
          (off + (step code len off targets d).2) (step code len off targets d).1)) := by
  unfold unitReads at h
  refine ⟨unitAt_agree fun h2 => ?_, fun hunit => ?_⟩
  · rw [if_pos h2] at h
    exact h.left
  · have h2 : off + 2#32 ≤ len := by
      unfold unitAt at hunit
      rw [Bool.and_eq_true, decide_eq_true_eq] at hunit
      exact hunit.1
    rw [if_pos h2, if_pos hunit] at h
    exact ⟨step_agree d h.right.left.left, h.right.right⟩

theorem buildMapFrom_agree {out : Word → Dec → List Access} :
    ∀ (fuel : Nat) (off : Word) (d : Dec) (map : Nat → Word) (at_ : Word),
      AgreeOn code code' (unitReads code len targets out fuel off d) →
        buildMapFrom code len targets fuel off d map at_ =
          buildMapFrom code' len targets fuel off d map at_
  | 0, _, _, _, _, _ => rfl
  | fuel + 1, off, d, map, at_, h => by
    obtain ⟨hunit, hgo⟩ := unitReads_agree h
    unfold buildMapFrom
    rw [← hunit]
    split
    · rename_i hu
      obtain ⟨hstep, hrest⟩ := hgo hu
      rw [← hstep]
      exact buildMapFrom_agree fuel _ _ _ _ hrest
    · rfl

theorem emitFrom_agree {out : Word → Dec → List Access} (map : Nat → Word) :
    ∀ (fuel : Nat) (off : Word) (d : Dec) (at_ : Word),
      AgreeOn code code' (unitReads code len targets out fuel off d) →
        emitFrom code len targets map fuel off d at_ =
          emitFrom code' len targets map fuel off d at_
  | 0, _, _, _, _ => rfl
  | fuel + 1, off, d, at_, h => by
    obtain ⟨hunit, hgo⟩ := unitReads_agree h
    unfold emitFrom
    rw [← hunit]
    split
    · rename_i hu
      obtain ⟨hstep, hrest⟩ := hgo hu
      rw [← hstep]
      simp only
      rw [emitFrom_agree map fuel _ _ _ hrest]
    · rfl

end

/-- **The transcoder reads no other byte**: programs that have the same bytes where the accesses are
come to the same words. -/
theorem transcodeEx_agree {code code' : Nat → Byte} {len : Word} {ext : List Word}
    (h : AgreeOn code code' (transcodeExReads code len ext (loopFuel len))) :
    transcodeEx code len ext = transcodeEx code' len ext := by
  unfold transcodeExReads transcodeMapExReads at h
  have hcollect : collectTargets code len ext = collectTargets code' len ext := by
    unfold collectTargets
    rw [collectCode_agree _ _ _ h.left.left]
  unfold transcodeEx
  rw [← hcollect]
  cases ht : collectTargets code len ext with
  | none => rfl
  | some targets =>
    rw [ht] at h
    have hmap : buildMap code len targets = buildMap code' len targets :=
      buildMapFrom_agree _ _ _ _ _ h.left.right.right.right
    simp only
    rw [← hmap]
    cases hb : buildMap code len targets with
    | none => rfl
    | some m =>
      simp only [hb] at h
      simp only
      rw [emitFrom_agree _ _ _ _ _ h.right]

/-- `targets_has` reads one byte of the set. -/
theorem has_agree {t t' : Targets} {addr : Word} (hn : t.n = t'.n)
    (h : ∀ i, .bits i ∈ t.access addr → ∀ j, j / 8 = i → t.bits j = t'.bits j) :
    t.has addr = t'.has addr := by
  unfold Targets.access at h
  unfold Targets.has
  simp only
  rw [← hn]
  by_cases hlt : addr / 4#32 < t.n
  · rw [if_pos hlt] at h
    have hbyte := h _ (.head _) (addr / 4#32).toNat
    rw [hbyte (by rw [BitVec.toNat_udiv (x := addr / 4#32)]; rfl)]
  · simp only [hlt, decide_false, Bool.false_and]

/-- `emit` reads one entry of the map, or none. -/
theorem emit_agree {map map' : Nat → Word} {len off : Word} {d : Dec} (at_ : Word)
    (h : ∀ i, .map i ∈ emitReads len off d → map i = map' i) :
    emit at_ d map len = emit at_ d map' len := by
  unfold emitReads targetWordReads at h
  unfold emit
  simp only
  by_cases hd : (d.op = RISCV_OP_LW_BZ ∨ d.op = RISCV_OP_LBU_BZ) ∨ Direct d.op
  · have htarget : targetWord map len d.target at_ = targetWord map' len d.target at_ := by
      unfold targetWord
      split
      · rfl
      · rename_i hlt
        rw [if_pos hd, if_neg hlt] at h
        simp only
        rw [h _ (.head _)]
    rw [htarget]
  · obtain ⟨hbz, hjal, hbranch⟩ : ¬ (d.op = RISCV_OP_LW_BZ ∨ d.op = RISCV_OP_LBU_BZ) ∧
        ¬ d.op = RISCV_OP_JAL ∧ ¬ (RISCV_OP_BEQ ≤ d.op ∧ d.op ≤ RISCV_OP_BGEU) :=
      ⟨fun hb => hd (.inl hb), fun hj => hd (.inr (.inl hj)), fun hb => hd (.inr (.inr hb))⟩
    simp only [if_neg hbz, if_neg hjal, if_neg hbranch]

/-! ## Clear accesses -/

section
variable {len : Word}

@[simp] theorem clear_nil : Clear len [] := fun a ha => by cases ha

@[simp] theorem clear_append (as bs : List Access) :
    Clear len (as ++ bs) ↔ Clear len as ∧ Clear len bs := List.forall_mem_append

theorem clear_mono {as bs : List Access} (hsub : as ⊆ bs) (h : Clear len bs) : Clear len as :=
  fun a ha => h a (hsub ha)

theorem clear_ite {P : Prop} [Decidable P] {as bs : List Access} (has : P → Clear len as)
    (hbs : ¬ P → Clear len bs) : Clear len (if P then as else bs) := by
  split
  · exact has ‹_›
  · exact hbs ‹_›

theorem toNat_add_small {a : Word} {k : Nat} (hk : k < 2 ^ 32) (h : a.toNat + k < 2 ^ 32) :
    (a + BitVec.ofNat 32 k).toNat = a.toNat + k := by
  rw [BitVec.toNat_add, BitVec.toNat_ofNat, Nat.mod_eq_of_lt hk, Nat.mod_eq_of_lt h]

/-- `decode` reads inside when four bytes are left. -/
theorem clear_decode (off : Word) : Clear len (decodeReads off) ↔ off.toNat + 4 ≤ len.toNat := by
  have hlen := len.isLt
  constructor
  · intro h
    have h0 : off.toNat < len.toNat := h (.code _) (.head _)
    have h1 : (off + 1#32).toNat < len.toNat := h (.code _) (.tail _ (.head _))
    have h2 : (off + 2#32).toNat < len.toNat := h (.code _) (.tail _ (.tail _ (.head _)))
    have h3 : (off + 3#32).toNat < len.toNat := h (.code _) (.tail _ (.tail _ (.tail _ (.head _))))
    rw [toNat_add_small (by decide) (by omega)] at h1
    rw [toNat_add_small (by decide) (by omega)] at h2
    rw [toNat_add_small (by decide) (by omega)] at h3
    omega
  · intro h a ha
    have h1 : (off + 1#32).toNat = off.toNat + 1 := toNat_add_small (by decide) (by omega)
    have h2 : (off + 2#32).toNat = off.toNat + 2 := toNat_add_small (by decide) (by omega)
    have h3 : (off + 3#32).toNat = off.toNat + 3 := toNat_add_small (by decide) (by omega)
    unfold decodeReads at ha
    rw [h1, h2, h3] at ha
    simp only [List.mem_cons, List.not_mem_nil, or_false] at ha
    rcases ha with rfl | rfl | rfl | rfl
    · show off.toNat < len.toNat
      omega
    · show off.toNat + 1 < len.toNat
      omega
    · show off.toNat + 2 < len.toNat
      omega
    · show off.toNat + 3 < len.toNat
      omega

theorem clear_half {off : Word} (h : off.toNat + 2 ≤ len.toNat) : Clear len (halfReads off) := by
  have hlen := len.isLt
  have h1 : (off + 1#32).toNat = off.toNat + 1 := toNat_add_small (by decide) (by omega)
  intro a ha
  unfold halfReads at ha
  rw [h1] at ha
  simp only [List.mem_cons, List.not_mem_nil, or_false] at ha
  rcases ha with rfl | rfl
  · show off.toNat < len.toNat
    omega
  · show off.toNat + 1 < len.toNat
    omega

/-- The target set is read inside, whatever the address. -/
theorem clear_access {t : Targets} (ht : t.n = len / 4#32) (addr : Word) :
    Clear len (t.access addr) := by
  unfold Targets.access
  refine clear_ite (fun h => ?_) fun _ => clear_nil
  intro a ha
  rw [List.mem_singleton] at ha
  subst ha
  rw [ht, BitVec.lt_def, BitVec.toNat_udiv (x := len)] at h
  show (addr / 4#32 / 8#32).toNat < (len.toNat / 4 + 7) / 8 + 1
  rw [BitVec.toNat_udiv]
  rw [show (4#32).toNat = 4 from rfl] at h
  rw [show (8#32).toNat = 8 from rfl]
  omega

/-- The map is read inside, whatever the target. -/
theorem clear_targetWord (target : Word) : Clear len (targetWordReads len target) := by
  unfold targetWordReads
  refine clear_ite (fun _ => clear_nil) fun h => ?_
  intro a ha
  rw [List.mem_singleton] at ha
  subst ha
  rw [ge_iff_le, BitVec.le_def] at h
  show (target >>> 1).toNat < len.toNat / 2 + 2
  rw [BitVec.toNat_ushiftRight, Nat.shiftRight_eq_div_pow]
  omega

theorem clear_place {off : Word} (d : Dec) (h : off.toNat ≤ len.toNat) :
    Clear len (placeReads off d) := by
  intro a ha
  unfold placeReads at ha
  rw [List.mem_singleton] at ha
  subst ha
  show (off >>> 1).toNat < len.toNat / 2 + 2
  rw [BitVec.toNat_ushiftRight, Nat.shiftRight_eq_div_pow]
  omega

theorem clear_emit (off : Word) (d : Dec) : Clear len (emitReads len off d) := by
  unfold emitReads
  exact clear_ite (fun _ => clear_targetWord _) fun _ => clear_nil

end

/-! ## A step reads inside -/

section
variable {code : Nat → Byte} {len : Word} {targets : Targets}

/-- A guard `o + k <= len` that does not wrap. -/
theorem guard_le {o : Word} {k : Nat} (hk : k < 2 ^ 32) (ho : o.toNat + k < 2 ^ 32)
    (h : o + BitVec.ofNat 32 k ≤ len) : o.toNat + k ≤ len.toNat := by
  rwa [BitVec.le_def, toNat_add_small hk ho] at h

theorem saveReads_clear (htop : len.toNat < 2 ^ 32 - 4) (ht : targets.n = len / 4#32) :
    ∀ (left : Nat) (o : Word), o.toNat ≤ len.toNat →
      Clear len (saveReads code len targets left o)
  | 0, _, _ => clear_nil
  | left + 1, o, ho => by
    unfold saveReads
    refine clear_ite (fun h4 => ?_) fun _ => clear_nil
    have h := guard_le (by decide) (by omega) h4
    refine (clear_append _ _).2 ⟨clear_access ht o, clear_ite (fun _ => clear_nil) fun _ => ?_⟩
    refine (clear_append _ _).2 ⟨(clear_decode o).2 h, clear_ite (fun _ => clear_nil) fun _ => ?_⟩
    refine saveReads_clear htop ht left (o + 4#32) ?_
    rw [toNat_add_small (by decide) (by omega)]
    exact h

theorem loadReads_clear (htop : len.toNat < 2 ^ 32 - 4) (ht : targets.n = len / 4#32)
    (off : Word) : ∀ (left : Nat) (o : Word), o.toNat ≤ len.toNat →
      Clear len (loadReads code len targets off left o)
  | 0, _, _ => clear_nil
  | left + 1, o, ho => by
    unfold loadReads
    refine clear_ite (fun h4 => ?_) fun _ => clear_nil
    have h := guard_le (by decide) (by omega) h4
    refine (clear_append _ _).2 ⟨clear_ite (fun _ => clear_access ht o) fun _ => clear_nil,
      clear_ite (fun _ => clear_nil) fun _ => ?_⟩
    refine (clear_append _ _).2 ⟨(clear_decode o).2 h, clear_ite (fun _ => clear_nil) fun _ => ?_⟩
    refine loadReads_clear htop ht off left (o + 4#32) ?_
    rw [toNat_add_small (by decide) (by omega)]
    exact h

/-- The run of loads that an epilogue starts with. -/
theorem epilogueLoads_run (htop : len.toNat < 2 ^ 32 - 4) (off : Word) :
    ∀ (left : Nat) (o : Word), o.toNat ≤ len.toNat →
      (epilogueLoads code len off targets left o).length ≤ left ∧
      o.toNat + 4 * (epilogueLoads code len off targets left o).length ≤ len.toNat ∧
      ∀ j < (epilogueLoads code len off targets left o).length,
        SavedLoad code (slot o j) ∧
          decodeReads (slot o j) ⊆ loadReads code len targets off left o
  | 0, o, ho => ⟨Nat.le_refl 0, ho, fun j hj => absurd hj (Nat.not_lt_zero j)⟩
  | left + 1, o, ho => by
    have hnone : ([] : List (Reg × Word)).length ≤ left + 1 ∧
        o.toNat + 4 * ([] : List (Reg × Word)).length ≤ len.toNat := ⟨Nat.zero_le _, ho⟩
    unfold epilogueLoads loadReads
    by_cases h4 : o + 4#32 ≤ len
    · rw [if_pos h4, if_pos h4]
      have h := guard_le (by decide) (by omega) h4
      have hadd : (o + 4#32).toNat = o.toNat + 4 := toNat_add_small (by decide) (by omega)
      by_cases hhas : o ≠ off ∧ targets.has o
      · rw [if_pos hhas]
        exact ⟨hnone.1, hnone.2, fun j hj => absurd hj (Nat.not_lt_zero j)⟩
      · rw [if_neg hhas, if_neg hhas]
        simp only
        split
        · exact ⟨hnone.1, hnone.2, fun j hj => absurd hj (Nat.not_lt_zero j)⟩
        · rename_i hsaved
          obtain ⟨h1, h2, h3⟩ := epilogueLoads_run htop off left (o + 4#32) (by omega)
          rw [hadd] at h2
          refine ⟨by rw [List.length_cons]; omega, by rw [List.length_cons]; omega, fun j hj => ?_⟩
          cases j with
          | zero =>
            rw [slot_zero]
            refine ⟨?_, fun a ha => ?_⟩
            · simp only [not_or, not_not, Int.not_lt] at hsaved
              exact hsaved
            · exact List.mem_append_right _ (List.mem_append_left _ ha)
          | succ j =>
            rw [← slot_succ]
            obtain ⟨hs, hr⟩ := h3 j (by rw [List.length_cons] at hj; omega)
            exact ⟨hs, fun a ha => List.mem_append_right _ (List.mem_append_right _ (hr ha))⟩
    · rw [if_neg h4]
      exact ⟨hnone.1, hnone.2, fun j hj => absurd hj (Nat.not_lt_zero j)⟩

variable (hcov : Covered code len) (ht : targets.n = len / 4#32) {off : Word}
  (halign : off.toNat % 4 = 0) (hfit : off.toNat + 4 ≤ len.toNat)
include hcov ht hfit

theorem prologueReads_clear : Clear len (prologueReads code len targets off) := by
  have htop := hcov.1
  refine (clear_append _ _).2 ⟨(clear_decode off).2 hfit,
    clear_ite (fun _ => clear_nil) fun _ => clear_ite (fun _ => clear_nil) fun _ => ?_⟩
  refine saveReads_clear htop ht 13 (off + 4#32) ?_
  rw [toNat_add_small (by decide) (by omega)]
  exact hfit

theorem laReads_clear : Clear len (laReads code len targets off) := by
  have htop := hcov.1
  refine clear_ite (fun _ => clear_nil) fun h8 => ?_
  have h := guard_le (by decide) (by omega) (BitVec.not_lt.1 h8)
  refine (clear_append _ _).2 ⟨clear_access ht _, clear_ite (fun _ => clear_nil) fun _ => ?_⟩
  refine (clear_append _ _).2 ⟨(clear_decode off).2 hfit,
    clear_ite (fun _ => clear_nil) fun _ => ?_⟩
  refine (clear_decode _).2 ?_
  rw [toNat_add_small (by decide) (by omega)]
  omega

theorem pairReads_clear (d : Dec) : Clear len (pairReads code len targets off d) := by
  have htop := hcov.1
  refine clear_ite (fun _ => clear_nil) fun h8 => ?_
  have h := guard_le (by decide) (by omega) (BitVec.not_lt.1 h8)
  refine (clear_append _ _).2 ⟨clear_access ht _, clear_ite (fun _ => clear_nil) fun _ => ?_⟩
  refine (clear_append _ _).2 ⟨(clear_append _ _).2 ⟨(clear_decode off).2 hfit, ?_⟩,
    clear_ite (fun _ => clear_ite (fun h12 => ?_) fun _ => clear_nil) fun _ => clear_nil⟩
  · refine (clear_decode _).2 ?_
    rw [toNat_add_small (by decide) (by omega)]
    omega
  · have h' := guard_le (by decide) (by omega) h12
    refine (clear_append _ _).2 ⟨clear_access ht _, clear_ite (fun _ => clear_nil) fun _ => ?_⟩
    refine (clear_decode _).2 ?_
    rw [toNat_add_small (by decide) (by omega)]
    omega

include halign in
theorem epilogueReads_clear : Clear len (epilogueReads code len targets off) := by
  have htop := hcov.1
  obtain ⟨h13, hend, hrun⟩ := @epilogueLoads_run code len targets htop off 13 off
    (by omega)
  refine (clear_append _ _).2 ⟨loadReads_clear htop ht off 13 off (by omega),
    clear_ite (fun _ => clear_nil) fun hgo => ?_⟩
  rw [not_or] at hgo
  obtain ⟨hne, h8⟩ := hgo
  generalize hloads : epilogueLoads code len off targets 13 off = loads at *
  have hpos : 0 < loads.length := List.length_pos_iff.2 hne
  have ho : off + 4#32 * BitVec.ofNat 32 loads.length = slot off loads.length := by
    unfold slot
    rw [BitVec.ofNat_mul]
  have hto : (slot off loads.length).toNat = off.toNat + 4 * loads.length :=
    toNat_slot (by omega)
  rw [ho] at h8 ⊢
  -- `o + 8` wraps only past the last word that a load can be at
  have h := guard_le (k := 8) (by decide) (by
    by_contra hwrap
    have hlast : slot off (loads.length - 1) = 0xfffffff4#32 := by
      refine BitVec.eq_of_toNat_eq ?_
      rw [toNat_slot (by omega)]
      show _ = 4294967284
      omega
    exact hcov.2.2 (by omega) (hlast ▸ (hrun _ (by omega)).1)) (BitVec.not_lt.1 h8)
  refine (clear_append _ _).2 ⟨clear_access ht _, clear_ite (fun _ => clear_nil) fun _ => ?_⟩
  refine (clear_append _ _).2 ⟨clear_access ht _, clear_ite (fun _ => clear_nil) fun _ => ?_⟩
  refine (clear_append _ _).2 ⟨(clear_decode _).2 (by omega),
    clear_ite (fun _ => clear_nil) fun _ => clear_ite (fun _ => clear_nil) fun _ => ?_⟩
  refine (clear_decode _).2 ?_
  rw [toNat_add_small (by decide) (by omega)]
  omega

include halign in
/-- What a step reads lies in the code. -/
theorem stepReads_clear (d : Dec) : Clear len (stepReads code len targets off d) := by
  refine (clear_append _ _).2 ⟨prologueReads_clear hcov ht hfit,
    clear_ite (fun _ => clear_nil) fun _ => ?_⟩
  refine (clear_append _ _).2 ⟨epilogueReads_clear hcov ht halign hfit,
    clear_ite (fun _ => clear_nil) fun _ => ?_⟩
  refine (clear_append _ _).2 ⟨laReads_clear hcov ht hfit,
    clear_ite (fun _ => clear_nil) fun _ => ?_⟩
  refine (clear_append _ _).2 ⟨pairReads_clear hcov ht hfit d,
    clear_ite (fun _ => clear_nil) fun _ => (clear_decode off).2 hfit⟩

end

/-! ## A step reads the unit -/

/-- A unit of `j + 1` instructions, all of them decoded; only a unit of one instruction can end in
the load of a saved register, and an `auipc` can only be the first. -/
structure Spans (code : Nat → Byte) (off wd : Word) (rs : List Access) (j : Nat) : Prop where
  le : j ≤ 14
  width : wd = 4#32 * BitVec.ofNat 32 (j + 1)
  reads : ∀ i ≤ j, decodeReads (slot off i) ⊆ rs
  last : 0 < j → ¬ SavedLoad code (slot off j)
  inner : ∀ i, 0 < i → i ≤ j → (decode code (slot off i)).op ≠ RISCV_OP_AUIPC

theorem Spans.mono {code : Nat → Byte} {off wd : Word} {rs rs' : List Access} {j : Nat}
    (h : Spans code off wd rs j) (hsub : rs ⊆ rs') : Spans code off wd rs' j :=
  ⟨h.le, h.width, fun i hi _ ha => hsub (h.reads i hi ha), h.last, h.inner⟩

theorem not_savedLoad {code : Nat → Byte} {o : Word} {op : Nat} (h : (decode code o).op = op)
    (hop : op ≠ RISCV_OP_LW) : ¬ SavedLoad code o := fun hs => hop (h.symm.trans hs.1)

/-- A load over its own base is not from a frame. -/
theorem not_savedLoad_self {code : Nat → Byte} {o : Word}
    (h : (decode code o).rd = (decode code o).rs1) : ¬ SavedLoad code o := by
  rintro ⟨-, hrs1, hrank⟩
  rw [h, hrs1] at hrank
  exact absurd hrank (by decide)

section
variable {code : Nat → Byte} {len off wd : Word} {targets : Targets} {out d : Dec}

/-- The saves of a prologue are stores, and all of them are decoded. -/
theorem prologueSaves_run : ∀ (left : Nat) (o : Word),
    (prologueSaves code len targets left o).length ≤ left ∧
      ∀ j < (prologueSaves code len targets left o).length,
        (decode code (slot o j)).op = RISCV_OP_SW ∧
          decodeReads (slot o j) ⊆ saveReads code len targets left o
  | 0, o => ⟨Nat.le_refl 0, fun j hj => absurd hj (Nat.not_lt_zero j)⟩
  | left + 1, o => by
    unfold prologueSaves saveReads
    by_cases h4 : o + 4#32 ≤ len
    · rw [if_pos h4, if_pos h4]
      cases hhas : targets.has o with
      | true => exact ⟨Nat.zero_le _, fun j hj => absurd hj (Nat.not_lt_zero j)⟩
      | false =>
        simp only [Bool.false_eq_true, if_false]
        split
        · exact ⟨Nat.zero_le _, fun j hj => absurd hj (Nat.not_lt_zero j)⟩
        · rename_i hsave
          obtain ⟨h1, h2⟩ := prologueSaves_run left (o + 4#32)
          refine ⟨by rw [List.length_cons]; omega, fun j hj => ?_⟩
          cases j with
          | zero =>
            rw [slot_zero]
            refine ⟨?_, fun a ha => ?_⟩
            · by_contra hne
              exact hsave (.inl hne)
            · exact List.mem_append_right _ (List.mem_append_left _ ha)
          | succ j =>
            rw [← slot_succ]
            obtain ⟨hs, hr⟩ := h2 j (by rw [List.length_cons] at hj; omega)
            exact ⟨hs, fun a ha => List.mem_append_right _ (List.mem_append_right _ (hr ha))⟩
    · rw [if_neg h4]
      exact ⟨Nat.zero_le _, fun j hj => absurd hj (Nat.not_lt_zero j)⟩

theorem prologue_spans (hf : tryFusePrologue code len off targets out = some (d, wd)) :
    ∃ j, 0 < j ∧ Spans code off wd (prologueReads code len targets off) j := by
  unfold tryFusePrologue at hf
  unfold prologueReads
  simp only at hf ⊢
  split at hf
  · cases hf
  · rename_i hhead
    rw [if_neg hhead]
    split at hf
    · cases hf
    · rename_i hN
      rw [if_neg hN]
      obtain ⟨h13, hrun⟩ := @prologueSaves_run code len targets 13 (off + 4#32)
      generalize hsaves : prologueSaves code len targets 13 (off + 4#32) = saves at *
      split at hf
      · cases hf
      · rename_i hne
        have hpos : 0 < saves.length := List.length_pos_iff.2 hne
        split at hf
        · cases hf
        · cases hf
          refine ⟨saves.length, hpos, by omega, ?_, fun i hi => ?_, fun _ => ?_, fun i h0 hi => ?_⟩
          · rw [Nat.add_comm saves.length 1, BitVec.ofNat_add]
          · cases i with
            | zero =>
              rw [slot_zero]
              exact fun a ha => List.mem_append_left _ ha
            | succ i =>
              rw [← slot_succ]
              exact fun a ha => List.mem_append_right _ ((hrun i (by omega)).2 ha)
          · have hsw := (hrun (saves.length - 1) (by omega)).1
            rw [slot_succ, Nat.sub_add_cancel hpos] at hsw
            exact not_savedLoad hsw (by decide)
          · have hsw := (hrun (i - 1) (by omega)).1
            rw [slot_succ, Nat.sub_add_cancel h0] at hsw
            rw [hsw]
            decide

theorem epilogue_spans (htop : len.toNat < 2 ^ 32 - 4) (hoff : off.toNat ≤ len.toNat)
    (hf : tryFuseEpilogue code len off targets out = some (d, wd)) :
    ∃ j, 0 < j ∧ Spans code off wd (epilogueReads code len targets off) j := by
  obtain ⟨h13, hend, hrun⟩ := @epilogueLoads_run code len targets htop off 13 off
    hoff
  unfold tryFuseEpilogue at hf
  unfold epilogueReads returnReads
  simp only at hf ⊢
  generalize hloads : epilogueLoads code len off targets 13 off = loads at *
  have ho : off + 4#32 * BitVec.ofNat 32 loads.length = slot off loads.length := by
    unfold slot
    rw [BitVec.ofNat_mul]
  have ho4 : slot off loads.length + 4#32 = slot off (loads.length + 1) := by
    unfold slot
    rw [BitVec.add_assoc, Nat.mul_succ, BitVec.ofNat_add]
  rw [ho] at hf ⊢
  split at hf
  · cases hf
  · rename_i hgo
    rw [if_neg hgo]
    split at hf
    · cases hf
    · rename_i htgt
      rw [not_or] at htgt
      rw [if_neg htgt.1, if_neg htgt.2]
      split at hf
      · cases hf
      · rename_i had
        rw [if_neg had]
        split at hf
        · cases hf
        · rename_i hN
          rw [if_neg hN, ho4]
          rw [ho4] at hf
          split at hf
          · cases hf
          · rename_i hrt
            have hjalr : (decode code (slot off (loads.length + 1))).op = RISCV_OP_JALR := by
              by_contra hne
              exact hrt (.inl hne)
            have haddi : (decode code (slot off loads.length)).op = RISCV_OP_ADDI := by
              by_contra hne
              exact had (.inl hne)
            split at hf
            · cases hf
            · cases hf
              refine ⟨loads.length + 1, by omega, by omega, ?_, fun i hi => ?_, fun _ => ?_,
                fun i _ hi => ?_⟩
              · unfold slot
                rw [show 4 * loads.length = loads.length * 4 by omega, BitVec.ofNat_mul]
                rw [show loads.length + 1 + 1 = loads.length + 2 by omega, BitVec.ofNat_add]
                have h8 : (4#32 * 2#32 : Word) = 8#32 := rfl
                rw [BitVec.add_assoc, BitVec.add_comm off, BitVec.add_sub_cancel, BitVec.mul_add,
                  h8, BitVec.mul_comm 4#32]
              · intro a ha
                rcases Nat.lt_or_ge i loads.length with hlt | hge
                · exact List.mem_append_left _ ((hrun i hlt).2 ha)
                · refine List.mem_append_right _ (List.mem_append_right _
                    (List.mem_append_right _ ?_))
                  rcases Nat.eq_or_lt_of_le hge with heq | hgt
                  · rw [← heq] at ha
                    exact List.mem_append_left _ ha
                  · rw [show i = loads.length + 1 by omega] at ha
                    exact List.mem_append_right _ ha
              · exact not_savedLoad hjalr (by decide)
              · rcases Nat.lt_or_ge i loads.length with hlt | hge
                · rw [(hrun i hlt).1.1]
                  decide
                · rcases Nat.eq_or_lt_of_le hge with heq | hgt
                  · rw [← heq, haddi]
                    decide
                  · rw [show i = loads.length + 1 by omega, hjalr]
                    decide

/-- A unit of two instructions. -/
theorem spans_two {rs : List Access} (h0 : decodeReads off ⊆ rs)
    (h1 : decodeReads (off + 4#32) ⊆ rs) (hlast : ¬ SavedLoad code (off + 4#32))
    (hinner : (decode code (off + 4#32)).op ≠ RISCV_OP_AUIPC) : Spans code off 8#32 rs 1 := by
  refine ⟨by omega, by decide, fun i hi => ?_, fun _ => hlast, fun i h0 hi => ?_⟩
  · cases i with
    | zero => rwa [slot_zero]
    | succ i =>
      rw [show i = 0 by omega]
      exact h1
  · rw [show i = 1 by omega]
    exact hinner

theorem la_spans (hf : tryFuseLa code len off targets out = some (d, wd)) :
    ∃ j, 0 < j ∧ Spans code off wd (laReads code len targets off) j := by
  unfold tryFuseLa at hf
  unfold laReads
  simp only at hf ⊢
  split at hf
  · cases hf
  · rename_i h8
    rw [if_neg h8]
    split at hf
    · cases hf
    · rename_i htgt
      rw [if_neg htgt]
      split at hf
      · cases hf
      · rename_i hau
        rw [if_neg hau]
        split at hf
        · cases hf
        · rename_i hb
          have haddi : (decode code (off + 4#32)).op = RISCV_OP_ADDI := by
            by_contra hne
            exact hb (.inl hne)
          have hspan := @spans_two code off
            (targets.access (off + 4#32) ++ (decodeReads off ++ decodeReads (off + 4#32)))
            (fun a ha => List.mem_append_right _ (List.mem_append_left _ ha))
            (fun a ha => List.mem_append_right _ (List.mem_append_right _ ha))
            (not_savedLoad haddi (by decide)) (by rw [haddi]; decide)
          split at hf
          · cases hf
          · split at hf
            · cases hf
              exact ⟨1, by omega, hspan⟩
            · split at hf
              · cases hf
                exact ⟨1, by omega, hspan⟩
              · cases hf

/-- The second instruction of a pair does not load a saved register, and is no `auipc`. -/
theorem fuse_last {a : Dec} {o : Word} (h : fuseShadd a (decode code o) out = some d ∨
    fuseLwx a (decode code o) out = some d ∨ fuseLwlw a (decode code o) out = some d ∨
    fuseLwsw a (decode code o) out = some d ∨ fuseBz a (decode code o) out = some d) :
    ¬ SavedLoad code o ∧ (decode code o).op ≠ RISCV_OP_AUIPC := by
  have hop : ∀ {op}, (decode code o).op = op → op ≠ RISCV_OP_AUIPC →
      (decode code o).op ≠ RISCV_OP_AUIPC := fun h hne => by rwa [h]
  rcases h with h | h | h | h | h
  · unfold fuseShadd at h
    split at h
    · rename_i hc
      exact ⟨not_savedLoad hc.2.1 (by decide), hop hc.2.1 (by decide)⟩
    · cases h
  · unfold fuseLwx at h
    split at h
    · rename_i hc
      exact ⟨not_savedLoad_self (hc.2.2.2.1.trans hc.2.2.2.2.1.symm), hop hc.2.1 (by decide)⟩
    · cases h
  · unfold fuseLwlw at h
    split at h
    · rename_i hc
      exact ⟨not_savedLoad_self (hc.2.1.trans hc.2.2.1.symm), hop hc.1 (by decide)⟩
    · cases h
  · unfold fuseLwsw at h
    split at h
    · rename_i hc
      exact ⟨not_savedLoad hc.1 (by decide), hop hc.1 (by decide)⟩
    · cases h
  · unfold fuseBz at h
    split at h
    · rename_i hc
      rcases hc.2.2.1 with hb | hb
      · exact ⟨not_savedLoad hb (by decide), hop hb (by decide)⟩
      · exact ⟨not_savedLoad hb (by decide), hop hb (by decide)⟩
    · cases h

theorem isVcall_reads {a : Dec} (h : isVcall code len off targets a = true) :
    decodeReads (off + 8#32) ⊆ vcallReads len targets off ∧
      (decode code (off + 8#32)).op = RISCV_OP_JALR := by
  unfold isVcall at h
  unfold vcallReads
  simp only [Bool.and_eq_true, decide_eq_true_eq, Bool.not_eq_true'] at h
  obtain ⟨⟨h12, hhas⟩, hop, -⟩ := h
  rw [if_pos h12, hhas]
  exact ⟨fun a ha => List.mem_append_right _ ha, hop⟩

theorem pair_spans (hf : tryFusePair code len off targets out = some (d, wd)) :
    ∃ j, 0 < j ∧ Spans code off wd (pairReads code len targets off out) j := by
  unfold tryFusePair at hf
  unfold pairReads
  simp only at hf ⊢
  split at hf
  · cases hf
  rename_i h8
  rw [if_neg h8]
  split at hf
  · cases hf
  rename_i htgt
  rw [if_neg htgt]
  -- what is read whatever the pattern
  have hspan : ∀ rs, (¬ SavedLoad code (off + 4#32) ∧
      (decode code (off + 4#32)).op ≠ RISCV_OP_AUIPC) → Spans code off 8#32
      (targets.access (off + 4#32) ++ (decodeReads off ++ decodeReads (off + 4#32) ++ rs)) 1 := by
    intro rs hlast
    refine spans_two (fun a ha => ?_) (fun a ha => ?_) hlast.1 hlast.2
    · exact List.mem_append_right _ (List.mem_append_left _ (List.mem_append_left _ ha))
    · exact List.mem_append_right _ (List.mem_append_left _ (List.mem_append_right _ ha))
  split at hf
  · rename_i hd
    cases hf
    exact ⟨1, by omega, hspan _ (fuse_last (.inl hd))⟩
  rename_i hshadd
  split at hf
  · rename_i hd
    cases hf
    exact ⟨1, by omega, hspan _ (fuse_last (.inr (.inl hd)))⟩
  rename_i hlwx
  split at hf
  · rename_i hd
    split at hd
    case isFalse => cases hd
    rename_i ha
    have hlast := fuse_last (.inr (.inr (.inl hd)))
    split at hf
    · rename_i hv
      obtain ⟨hreads, hjalr⟩ := isVcall_reads hv
      cases hf
      have hat : AtLwlw (decode code off) (decode code (off + 4#32)) out :=
        ⟨hshadd, hlwx, ha, by rw [hd]; exact Option.some_ne_none _⟩
      rw [if_pos hat]
      refine ⟨2, by omega, by omega, by decide, fun i hi => ?_,
        fun _ => not_savedLoad hjalr (by decide), fun i h0 hi => ?_⟩
      · rcases Nat.lt_or_ge i 2 with hlt | hge
        · exact (hspan _ hlast).reads i (by omega)
        · rw [show i = 2 by omega]
          exact fun a ha => List.mem_append_right _ (List.mem_append_right _ (hreads ha))
      · rcases Nat.lt_or_ge i 2 with hlt | hge
        · exact (hspan [] hlast).inner i h0 (by omega)
        · rw [show i = 2 by omega]
          show (decode code (off + 8#32)).op ≠ RISCV_OP_AUIPC
          rw [hjalr]
          decide
    · cases hf
      exact ⟨1, by omega, hspan _ hlast⟩
  split at hf
  · rename_i hd
    cases hf
    split at hd
    case isFalse => cases hd
    exact ⟨1, by omega, hspan _ (fuse_last (.inr (.inr (.inr (.inl hd)))))⟩
  split at hf
  · rename_i hd
    cases hf
    exact ⟨1, by omega, hspan _ (fuse_last (.inr (.inr (.inr (.inr hd)))))⟩
  · cases hf

/-- **A step decodes every instruction of the unit that it returns**, which ends in the load of a
saved register only if it is nothing else. -/
theorem step_ends (htop : len.toNat < 2 ^ 32 - 4) (hoff : off.toNat ≤ len.toNat) :
    ∃ j, Spans code off (step code len off targets out).2
      (stepReads code len targets off out) j := by
  unfold step stepReads
  cases h1 : tryFusePrologue code len off targets out with
  | some u =>
    obtain ⟨j, -, hs⟩ := prologue_spans h1
    exact ⟨j, hs.mono fun a ha => List.mem_append_left _ ha⟩
  | none =>
    simp only [Option.isSome_none, Bool.false_eq_true, if_false]
    cases h2 : tryFuseEpilogue code len off targets out with
    | some u =>
      obtain ⟨j, -, hs⟩ := epilogue_spans htop hoff h2
      exact ⟨j, hs.mono fun a ha => List.mem_append_right _ (List.mem_append_left _ ha)⟩
    | none =>
      simp only [Option.isSome_none, Bool.false_eq_true, if_false]
      cases h3 : tryFuseLa code len off targets out with
      | some u =>
        obtain ⟨j, -, hs⟩ := la_spans h3
        exact ⟨j, hs.mono fun a ha => List.mem_append_right _ (List.mem_append_right _
          (List.mem_append_left _ ha))⟩
      | none =>
        simp only [Option.isSome_none, Bool.false_eq_true, if_false]
        cases h4 : tryFusePair code len off targets out with
        | some u =>
          obtain ⟨j, -, hs⟩ := pair_spans h4
          exact ⟨j, hs.mono fun a ha => List.mem_append_right _ (List.mem_append_right _
            (List.mem_append_right _ (List.mem_append_left _ ha)))⟩
        | none =>
          refine ⟨0, by omega, ?_, fun i hi => ?_, fun h => absurd h (Nat.lt_irrefl 0),
            fun i h0 hi => absurd h0 (Nat.not_lt.2 hi)⟩
          · show (decode code off).width = _
            rw [decode_width]
            decide
          · rw [show i = 0 by omega, slot_zero]
            simp only [Option.isSome_none, Bool.false_eq_true, if_false]
            exact fun a ha => List.mem_append_right _ (List.mem_append_right _
              (List.mem_append_right _ (List.mem_append_right _ ha)))

/-- The next unit: it starts inside, at a whole word. -/
theorem step_next (htop : len.toNat < 2 ^ 32 - 4) (halign : off.toNat % 4 = 0)
    (hfit : off.toNat + 4 ≤ len.toNat)
    (hclear : Clear len (stepReads code len targets off out)) :
    ∃ j, Spans code off (step code len off targets out).2 (stepReads code len targets off out) j ∧
      (off + (step code len off targets out).2).toNat = off.toNat + 4 * (j + 1) ∧
      off.toNat + 4 * (j + 1) ≤ len.toNat := by
  obtain ⟨j, hs⟩ := @step_ends code len off targets out htop
    (Nat.le_of_add_right_le hfit)
  have hslots : ∀ i ≤ j, off.toNat + 4 * i + 4 ≤ len.toNat := by
    intro i hi
    induction i with
    | zero => exact hfit
    | succ i ih =>
      have hprev := ih (by omega)
      have hd := (clear_decode _).1 (clear_mono (hs.reads (i + 1) hi) hclear)
      rwa [toNat_slot (by omega)] at hd
  have hj := hslots j (Nat.le_refl j)
  refine ⟨j, hs, ?_, by omega⟩
  have hsum : off + (step code len off targets out).2 = slot off (j + 1) := by
    unfold slot
    rw [hs.width, BitVec.ofNat_mul]
  rw [hsum, toNat_slot (by omega)]

end

/-! ## The loops -/

section
variable {code : Nat → Byte} {len : Word} {targets : Targets} {out : Word → Dec → List Access}

theorem collectReads_clear (htop : len.toNat < 2 ^ 32 - 4) :
    ∀ (fuel : Nat) (off : Word) (t : Targets), off.toNat ≤ len.toNat → t.n = len / 4#32 →
      Clear len (collectReads code len fuel off t)
  | 0, _, _, _, _ => clear_nil
  | fuel + 1, off, t, ho, ht => by
    unfold collectReads
    refine clear_ite (fun h4 => ?_) fun _ => clear_nil
    have h := guard_le (by decide) (by omega) h4
    have hadd : (off + 4#32).toNat = off.toNat + 4 := toNat_add_small (by decide) (by omega)
    simp only
    refine clear_ite (fun _ => ?_) fun _ => ?_
    · refine (clear_append _ _).2 ⟨(clear_append _ _).2 ⟨(clear_decode off).2 h,
        clear_access ht _⟩, ?_⟩
      exact collectReads_clear htop fuel _ _ (by omega) ((mark_n _ _).trans ht)
    · refine (clear_append _ _).2 ⟨(clear_decode off).2 h, ?_⟩
      exact collectReads_clear htop fuel _ _ (by omega) ht

/-- The scan for targets ends, over the same slots. -/
theorem collectCode_returns (htop : len.toNat < 2 ^ 32 - 4) :
    ∀ (fuel : Nat) (off : Word) (t : Targets), off.toNat ≤ len.toNat →
      len.toNat - off.toNat + 4 ≤ 4 * fuel →
      ∃ t', collectCode code len fuel off t = some t' ∧ t'.n = t.n
  | 0, off, t, ho, hfuel => by omega
  | fuel + 1, off, t, ho, hfuel => by
    have hadd : (off + 4#32).toNat = off.toNat + 4 := toNat_add_small (by decide) (by omega)
    unfold collectCode
    by_cases h4 : off + 4#32 ≤ len
    · rw [if_pos h4]
      have h := guard_le (by decide) (by omega) h4
      simp only
      split
      · obtain ⟨t', hrun, hn⟩ := collectCode_returns htop fuel (off + 4#32)
          (t.mark (decode code off).target) (by omega) (by omega)
        exact ⟨t', hrun, hn.trans (mark_n _ _)⟩
      · exact collectCode_returns htop fuel (off + 4#32) t (by omega) (by omega)
    · rw [if_neg h4]
      exact ⟨t, rfl, rfl⟩

theorem collectTargets_returns (htop : len.toNat < 2 ^ 32 - 4) (ext : List Word) :
    ∃ targets, collectTargets code len ext = some targets ∧ targets.n = len / 4#32 := by
  obtain ⟨t, hrun, hn⟩ := @collectCode_returns code len htop (loopFuel len) 0#32 (.new len)
    (Nat.zero_le _) (by unfold loopFuel; simp only [BitVec.toNat_ofNat]; omega)
  obtain ⟨hn', -⟩ := foldl_mark ext t
  refine ⟨ext.foldl .mark t, ?_, hn'.trans hn⟩
  unfold collectTargets
  rw [hrun]
  rfl

/-- In a window that ends at the last word of the address space, the scan for targets reads on. -/
theorem collectReads_wraps (htop : 2 ^ 32 - 4 ≤ len.toNat) :
    ∀ (n : Nat) (off : Word) (t : Targets), off.toNat % 4 = 0 →
      decodeReads (slot off n) ⊆ collectReads code len (n + 1) off t
  | n, off, t, halign => by
    have hle : off + 4#32 ≤ len := by
      have hlt := (off + 4#32).isLt
      have hmod : (off + 4#32).toNat % 4 = 0 := by
        rw [BitVec.toNat_add]
        have : (4#32).toNat = 4 := rfl
        omega
      rw [BitVec.le_def]
      omega
    unfold collectReads
    rw [if_pos hle]
    simp only
    cases n with
    | zero =>
      rw [slot_zero]
      split
      · exact fun a ha => List.mem_append_left _ (List.mem_append_left _ ha)
      · exact fun a ha => List.mem_append_left _ ha
    | succ n =>
      have hmod : (off + 4#32).toNat % 4 = 0 := by
        rw [BitVec.toNat_add]
        have : (4#32).toNat = 4 := rfl
        omega
      rw [← slot_succ]
      split
      · exact fun a ha => List.mem_append_right _ (collectReads_wraps htop n _ _ hmod ha)
      · exact fun a ha => List.mem_append_right _ (collectReads_wraps htop n _ _ hmod ha)

theorem toNat_tail (len : Word) : (tail len).toNat = len.toNat / 4 * 4 := by
  have := len.isLt
  unfold tail
  rw [BitVec.toNat_mul, BitVec.toNat_udiv, show (4#32).toNat = 4 from rfl]
  omega

/-- A unit of a covered program has a whole word. -/
theorem unitAt_fits (hcov : Covered code len) {off : Word} (halign : off.toNat % 4 = 0)
    (hoff : off.toNat ≤ len.toNat) (hat : unitAt code len off = true) :
    off.toNat + 4 ≤ len.toNat := by
  obtain ⟨htop, hhalf, -⟩ := hcov
  unfold unitAt at hat
  simp only [Bool.and_eq_true, decide_eq_true_eq] at hat
  obtain ⟨h2, hwd⟩ := hat
  have hroom : off.toNat + 2 < 2 ^ 32 := Nat.lt_of_le_of_lt (Nat.add_le_add_right hoff 2) (by omega)
  have h2 := guard_le (by decide) hroom h2
  by_contra hover
  have htail : off = tail len := by
    refine BitVec.eq_of_toNat_eq ?_
    rw [toNat_tail]
    omega
  rw [htail, if_pos (hhalf (by omega)), ← htail] at hwd
  exact hover (guard_le (by decide) (by omega) hwd)

theorem unitAt_of_fits (htop : len.toNat < 2 ^ 32 - 4) {off : Word}
    (hfit : off.toNat + 4 ≤ len.toNat) : off + 2#32 ≤ len ∧ unitAt code len off = true := by
  have h2 : off + 2#32 ≤ len := by
    rw [BitVec.le_def, toNat_add_small (by decide) (by omega)]
    omega
  have h4 : off + 4#32 ≤ len := by
    rw [BitVec.le_def, toNat_add_small (by decide) (by omega)]
    exact hfit
  refine ⟨h2, ?_⟩
  unfold unitAt
  rw [Bool.and_eq_true]
  refine ⟨decide_eq_true h2, decide_eq_true ?_⟩
  split
  · exact h4
  · exact h2

/-- The loops over the units of a covered program read inside. -/
theorem unitReads_clear (hcov : Covered code len) (ht : targets.n = len / 4#32)
    (hout : ∀ (off : Word) d, off.toNat ≤ len.toNat → Clear len (out off d)) :
    ∀ (fuel : Nat) (off : Word) (d : Dec), off.toNat % 4 = 0 → off.toNat ≤ len.toNat →
      Clear len (unitReads code len targets out fuel off d)
  | 0, _, _, _, _ => clear_nil
  | fuel + 1, off, d, halign, hoff => by
    have htop := hcov.1
    unfold unitReads
    refine clear_ite (fun h2 => ?_) fun _ => clear_nil
    refine (clear_append _ _).2 ⟨clear_half (guard_le (by decide) (by omega) h2),
      clear_ite (fun hat => ?_) fun _ => clear_nil⟩
    have hfit := unitAt_fits hcov halign hoff hat
    have hstep := stepReads_clear hcov ht halign hfit d
    obtain ⟨j, -, hnext, hle⟩ := step_next htop halign hfit hstep
    refine (clear_append _ _).2 ⟨(clear_append _ _).2 ⟨hstep, hout off _ hoff⟩, ?_⟩
    exact unitReads_clear hcov ht hout fuel _ _ (by omega) (by omega)

/-- A loop over the units that starts at `off` reads inside. -/
def Runs (code : Nat → Byte) (len : Word) (targets : Targets) (out : Word → Dec → List Access)
    (off : Word) (d : Dec) : Prop :=
  ∀ fuel, Clear len (unitReads code len targets out fuel off d)

theorem runs_step {off : Word} {d : Dec} (h2 : off + 2#32 ≤ len)
    (hat : unitAt code len off = true) (hr : Runs code len targets out off d) :
    Clear len (stepReads code len targets off d) ∧
      Runs code len targets out (off + (step code len off targets d).2)
        (step code len off targets d).1 := by
  have hgo : ∀ fuel, Clear len (stepReads code len targets off d) ∧ Clear len
      (unitReads code len targets out fuel (off + (step code len off targets d).2)
        (step code len off targets d).1) := by
    intro fuel
    have h := hr (fuel + 1)
    unfold unitReads at h
    rw [if_pos h2, if_pos hat] at h
    simp only [clear_append] at h
    exact ⟨h.2.1.1, h.2.2⟩
  exact ⟨(hgo 0).1, fun fuel => (hgo fuel).2⟩

/-- A loop that reads inside comes to the unit that ends with the last whole word. -/
theorem runs_last (htop : len.toNat < 2 ^ 32 - 4) :
    ∀ (n : Nat) (off : Word) (d : Dec), len.toNat - off.toNat ≤ n → off.toNat % 4 = 0 →
      off.toNat + 4 ≤ len.toNat → Runs code len targets out off d →
      ∃ (o : Word) (e : Dec), o.toNat % 4 = 0 ∧ o.toNat + 4 ≤ len.toNat ∧
        Runs code len targets out o e ∧ o + (step code len o targets e).2 = tail len
  | 0, off, d, hn, _, hfit, _ => by omega
  | n + 1, off, d, hn, halign, hfit, hr => by
    obtain ⟨h2, hat⟩ := @unitAt_of_fits code len htop _ hfit
    obtain ⟨hstep, hr'⟩ := runs_step h2 hat hr
    obtain ⟨j, -, hnext, hle⟩ := step_next htop halign hfit hstep
    by_cases hend : off.toNat + 4 * (j + 1) + 4 ≤ len.toNat
    · exact runs_last htop n _ _ (by omega) (by omega) (by omega) hr'
    · refine ⟨off, d, halign, hfit, hr, BitVec.eq_of_toNat_eq ?_⟩
      rw [hnext, toNat_tail]
      omega

/-- An epilogue that `o + 8 <= len` cannot stop reads past the end of the code. -/
theorem epilogue_wraps (htop : len.toNat < 2 ^ 32 - 4) (hlen : 2 ^ 32 - 8 ≤ len.toNat)
    (ht : targets.n = len / 4#32) (hsaved : SavedLoad code 0xfffffff4#32) (d : Dec) :
    ¬ Clear len (stepReads code len targets 0xfffffff4#32 d) := by
  have h4 : (0xfffffff4#32 : Word) + 4#32 ≤ len := by
    rw [BitVec.le_def]
    exact hlen
  have h8 : ¬ (0xfffffff4#32 : Word) + 4#32 + 4#32 ≤ len := by
    rw [BitVec.le_def]
    exact Nat.not_le.2 htop
  have hsave : ¬ ((decode code 0xfffffff4#32).op ≠ RISCV_OP_LW ∨
      (decode code 0xfffffff4#32).rs1 ≠ 2#5 ∨ rankOf (decode code 0xfffffff4#32).rd < 0) := by
    simp only [not_or, not_not, Int.not_lt]
    exact hsaved
  have hloads : epilogueLoads code len 0xfffffff4#32 targets 13 0xfffffff4#32 =
      [((decode code 0xfffffff4#32).rd, (decode code 0xfffffff4#32).imm)] := by
    unfold epilogueLoads
    rw [if_pos h4, if_neg (by simp)]
    simp only
    rw [if_neg hsave]
    unfold epilogueLoads
    rw [if_neg h8]
  have hhas : ∀ a : Word, 2 ^ 32 - 8 ≤ a.toNat → targets.has a = false := by
    intro a ha
    unfold Targets.has
    simp only
    rw [decide_eq_false, Bool.false_and]
    rw [ht, BitVec.lt_def, BitVec.toNat_udiv, BitVec.toNat_udiv, show (4#32).toNat = 4 from rfl]
    omega
  have hnone : tryFusePrologue code len 0xfffffff4#32 targets d = none := by
    unfold tryFusePrologue
    simp only
    rw [if_pos]
    rw [hsaved.1]
    exact .inl (by decide)
  intro hclear
  unfold stepReads epilogueReads returnReads at hclear
  rw [hnone, hloads] at hclear
  simp only [Option.isSome_none, Bool.false_eq_true, if_false, clear_append] at hclear
  have hret := hclear.2.1.2
  rw [if_neg (by simp)] at hret
  change Clear len (targets.access 0xfffffff8#32 ++ if targets.has 0xfffffff8#32 then [] else
    targets.access 0xfffffffc#32 ++ if targets.has 0xfffffffc#32 then [] else
      decodeReads 0xfffffff8#32 ++ _) at hret
  rw [hhas _ (by decide), hhas _ (by decide)] at hret
  simp only [Bool.false_eq_true, if_false, clear_append] at hret
  have hover := (clear_decode _).1 hret.2.2.1
  rw [show (0xfffffff8#32 : Word).toNat = 4294967288 from rfl] at hover
  omega

/-! ## What the transcoder reads -/

/-- The passes of a covered program read inside. -/
theorem covered_clear (hcov : Covered code len) (ext : List Word) (fuel : Nat) :
    Clear len (transcodeMapExReads code len ext fuel) ∧
      Clear len (transcodeExReads code len ext fuel) := by
  have htop := hcov.1
  obtain ⟨targets, htargets, ht⟩ := @collectTargets_returns code len htop ext
  have hrange : Clear len ((List.range (len.toNat / 2 + 2)).map .map) := by
    intro a ha
    obtain ⟨i, hi, rfl⟩ := List.mem_map.1 ha
    exact List.mem_range.1 hi
  have hext : Clear len (ext.flatMap (Targets.new len).access) := by
    intro a ha
    obtain ⟨addr, -, haddr⟩ := List.mem_flatMap.1 ha
    exact clear_access rfl addr a haddr
  have hmap : Clear len (transcodeMapExReads code len ext fuel) := by
    unfold transcodeMapExReads
    rw [htargets]
    simp only [clear_append]
    exact ⟨collectReads_clear htop fuel _ _ (Nat.zero_le _) rfl, hext, hrange,
      unitReads_clear hcov ht (fun _ d h => clear_place d h) fuel _ _ rfl (Nat.zero_le _)⟩
  refine ⟨hmap, ?_⟩
  unfold transcodeExReads
  rw [htargets]
  refine (clear_append _ _).2 ⟨hmap, ?_⟩
  simp only
  split
  · exact clear_nil
  · exact unitReads_clear hcov ht (fun off d _ => clear_emit off d) fuel _ _ rfl (Nat.zero_le _)

/-- A transcoder that reads inside runs over a covered program. -/
theorem clear_covered {ext : List Word}
    (h : ∀ fuel, Clear len (transcodeMapExReads code len ext fuel)) : Covered code len := by
  have hlt := len.isLt
  have htop : len.toNat < 2 ^ 32 - 4 := by
    by_contra hge
    obtain ⟨n, hn⟩ : ∃ n, n = 2 ^ 30 - 1 := ⟨_, rfl⟩
    have hsub := @collectReads_wraps code len (Nat.not_lt.1 hge) n 0#32 (.new len) rfl
    have hall := h (n + 1)
    unfold transcodeMapExReads at hall
    have hd := (clear_decode _).1 (clear_mono hsub ((clear_append _ _).1 hall).1)
    rw [toNat_slot (by rw [BitVec.toNat_ofNat]; omega), BitVec.toNat_ofNat] at hd
    omega
  obtain ⟨targets, htargets, ht⟩ := @collectTargets_returns code len htop ext
  have hruns : Runs code len targets placeReads 0#32 .zero := by
    intro fuel
    have hall := h fuel
    unfold transcodeMapExReads at hall
    rw [htargets] at hall
    simp only [clear_append] at hall
    exact hall.2.2.2
  refine ⟨htop, fun htwo => ?_, fun hbig hsaved => ?_⟩
  · -- the loop comes to the last halfword
    have htail : ∃ d, Runs code len targets placeReads (tail len) d := by
      by_cases hfour : 4 ≤ len.toNat
      · obtain ⟨o, e, halign, hfit, hr, hnext⟩ := runs_last htop len.toNat 0#32 .zero
          (Nat.sub_le _ _) rfl (by rw [BitVec.toNat_ofNat]; omega) hruns
        obtain ⟨h2, hat⟩ := @unitAt_of_fits code len htop _ hfit
        exact ⟨_, hnext ▸ (runs_step h2 hat hr).2⟩
      · refine ⟨.zero, ?_⟩
        rw [show tail len = 0#32 from BitVec.eq_of_toNat_eq (by
          rw [toNat_tail, BitVec.toNat_ofNat]; omega)]
        exact hruns
    obtain ⟨d, hr⟩ := htail
    have hto := toNat_tail len
    have h2 : tail len + 2#32 ≤ len := by
      rw [BitVec.le_def, toNat_add_small (by decide) (by omega)]
      omega
    by_contra hhalf
    have hat : unitAt code len (tail len) = true := by
      unfold unitAt
      rw [if_neg hhalf, Bool.and_self]
      exact decide_eq_true h2
    have hstep := (runs_step h2 hat hr).1
    obtain ⟨j, hs⟩ := @step_ends code len (tail len) targets d htop (by omega)
    have hd := clear_mono (hs.reads 0 (Nat.zero_le j)) hstep
    rw [slot_zero] at hd
    have := (clear_decode _).1 hd
    omega
  · -- the loop comes to the load in the last word, which is a unit of its own
    obtain ⟨o, e, halign, hfit, hr, hnext⟩ := runs_last htop len.toNat 0#32 .zero
      (Nat.sub_le _ _) rfl (by rw [BitVec.toNat_ofNat]; omega) hruns
    obtain ⟨h2, hat⟩ := @unitAt_of_fits code len htop _ hfit
    have hstep := (runs_step h2 hat hr).1
    obtain ⟨j, hs, hnext', hle⟩ := step_next htop halign hfit hstep
    rw [hnext, toNat_tail] at hnext'
    have hlast : slot o j = 0xfffffff4#32 := by
      refine BitVec.eq_of_toNat_eq ?_
      rw [toNat_slot (by omega)]
      show _ = 4294967284
      omega
    have hj : j = 0 := by
      by_contra hpos
      exact hs.last (Nat.pos_of_ne_zero hpos) (hlast ▸ hsaved)
    rw [hj, slot_zero] at hlast
    rw [hlast] at hstep
    exact epilogue_wraps htop hbig ht hsaved e hstep

end

/-- **The transcoder reads no byte past the code, and its map and its target set only inside their
allocations**, exactly for the covered programs. -/
theorem transcodeReads_inside (code : Nat → Byte) (len : Word) (ext : List Word) :
    ((∀ fuel, Clear len (transcodeMapExReads code len ext fuel)) ↔ Covered code len) ∧
      ((∀ fuel, Clear len (transcodeExReads code len ext fuel)) ↔ Covered code len) := by
  refine ⟨⟨clear_covered, fun hcov fuel => (covered_clear hcov ext fuel).1⟩,
    fun h => @clear_covered code len ext fun fuel => ?_,
    fun hcov fuel => (covered_clear hcov ext fuel).2⟩
  exact ((clear_append _ _).1 (h fuel)).1

/-- A program of two zero bytes passes for a compressed instruction, and `decode` reads four. -/
theorem transcode_overreads :
    ¬ ∀ fuel, Clear 2#32 (transcodeExReads (fun _ => 0#8) 2#32 [] fuel) ∧
      Clear 2#32 (transcodeMapExReads (fun _ => 0#8) 2#32 [] fuel) :=
  fun h => absurd (h 1).2 (by decide +kernel)

end Purv.Transcode

import Purv.TctoolData

/-!
# Merging loses nothing (`merge_progbits`)

The span array holds 64 sections; the ones after them are not looked at.

* `Faithful` — the buffer is the matching sections at their addresses and zeros, and ends with them;
* `kept`, `skipped` — the sections that `merge_progbits` takes, and those that it does not;
* `Mergeable` — nothing of the skipped ones shows, and the length fits in 32 bits;
* `mergeProgbits_faithful` — these are the files that are merged faithfully.
-/

namespace Purv.Tctool

open Bits Transcode Purva

/-- The buffer of a merge is what the matching sections are: they are in it at their addresses, the
other bytes are zero, and it ends where one of them ends. -/
structure Faithful (eh : Elf) (x w : Bool) (m : Merged) : Prop where
  held : ∀ sh ∈ eh.shdrs, wanted x w sh → ∀ i < sh.sh_size.toNat,
    m.base.toNat ≤ sh.sh_addr.toNat ∧
      sh.sh_addr.toNat + i - m.base.toNat < m.len.toNat ∧
      m.buf (sh.sh_addr.toNat + i - m.base.toNat) = sh.bytes i
  gap : ∀ o < m.len.toNat, (∀ sh ∈ eh.shdrs, wanted x w sh →
    ¬ (sh.sh_addr.toNat ≤ m.base.toNat + o ∧ m.base.toNat + o < sh.endAt)) → m.buf o = 0#8
  extent : m.len ≠ 0#32 → ∃ sh ∈ eh.shdrs, wanted x w sh ∧ sh.endAt = m.base.toNat + m.len.toNat

/-- The matching sections, in the order of the table. -/
def matching (eh : Elf) (x w : Bool) : List Shdr := eh.shdrs.filter (wanted x w)

/-- The sections that find a place in `spans`. -/
def kept (eh : Elf) (x w : Bool) : List Shdr := (matching eh x w).take 64

/-- The sections that do not. -/
def skipped (eh : Elf) (x w : Bool) : List Shdr := (matching eh x w).drop 64

/-- The sections that are skipped are zeros between the ones that are not, and the buffer is not all
of the address space. -/
structure Mergeable (eh : Elf) (x w : Bool) (base : Word) : Prop where
  zero : ∀ sh ∈ skipped eh x w, ∀ i < sh.sh_size.toNat, sh.bytes i = 0#8
  above : ∀ sh ∈ skipped eh x w, if base = MERGE_AUTO_BASE then
    ∃ t ∈ kept eh x w, t.sh_addr ≤ sh.sh_addr else base ≤ sh.sh_addr
  below : ∀ sh ∈ skipped eh x w, ∃ t ∈ kept eh x w, sh.endAt ≤ t.endAt
  room : ¬ ((∃ t ∈ kept eh x w, t.endAt = 2 ^ 32) ∧
    (base = 0#32 ∨ (base = MERGE_AUTO_BASE ∧ ∃ t ∈ kept eh x w, t.sh_addr = 0#32)))

/-! ## The sections that are kept -/

section
variable (eh : Elf) (x w : Bool)

/-- The file with no other sections than the kept ones. -/
def keptElf : Elf := { eh with shdrs := kept eh x w }

theorem mem_matching {sh : Shdr} : sh ∈ matching eh x w ↔ sh ∈ eh.shdrs ∧ wanted x w sh :=
  List.mem_filter

theorem mem_matching_iff {sh : Shdr} :
    sh ∈ matching eh x w ↔ sh ∈ kept eh x w ∨ sh ∈ skipped eh x w := by
  unfold kept skipped
  rw [← List.mem_append, List.take_append_drop]

theorem kept_wanted {sh : Shdr} (hsh : sh ∈ kept eh x w) : wanted x w sh :=
  ((mem_matching eh x w).mp ((mem_matching_iff eh x w).mpr (Or.inl hsh))).2

theorem kept_filter (x' w' : Bool) :
    (keptElf eh x w).shdrs.filter (wanted x' w') = if x' = x ∧ w' = w then kept eh x w else [] := by
  show (kept eh x w).filter (wanted x' w') = _
  split
  · rename_i h
    obtain ⟨rfl, rfl⟩ := h
    exact List.filter_eq_self.mpr fun sh hsh => kept_wanted eh _ _ hsh
  · rename_i h
    refine List.filter_eq_nil_iff.mpr fun sh hsh hw' => h ?_
    have hw := kept_wanted eh x w hsh
    unfold wanted at hw hw'
    simp only [Bool.and_eq_true, beq_iff_eq] at hw hw'
    exact ⟨hw'.1.2.symm.trans hw.1.2, hw'.2.symm.trans hw.2⟩

theorem kept_spans : spans (keptElf eh x w) x w = spans eh x w := by
  unfold spans
  rw [kept_filter, if_pos ⟨rfl, rfl⟩]
  unfold kept matching
  rw [← List.map_take, ← List.map_take, List.take_take, Nat.min_self]

theorem kept_merge (base : Word) :
    mergeProgbits (keptElf eh x w) x w base = mergeProgbits eh x w base := by
  unfold mergeProgbits
  rw [kept_spans]

/-- A section has bytes. -/
theorem wanted_size {sh : Shdr} (hw : wanted x w sh) : 0 < sh.sh_size.toNat := by
  unfold wanted at hw
  simp only [Bool.and_eq_true, bne_iff_ne] at hw
  exact Nat.pos_of_ne_zero fun h0 => hw.1.1.2 (BitVec.eq_of_toNat_eq h0)

variable (hdis : (matching eh x w).Pairwise fun s t =>
    s.endAt ≤ t.sh_addr.toNat ∨ t.endAt ≤ s.sh_addr.toNat)
  (hin : ∀ sh ∈ matching eh x w, sh.endAt ≤ 2 ^ 32)
include hdis hin

/-- The kept sections can be merged. -/
theorem kept_linked : Linked (keptElf eh x w) := by
  have hmem : ∀ sh ∈ kept eh x w, sh ∈ matching eh x w := fun sh hsh =>
    (mem_matching_iff eh x w).mpr (Or.inl hsh)
  constructor
  · intro x' w'
    rw [kept_filter]
    split
    · exact List.length_take_le 64 _
    · exact Nat.zero_le 64
  · intro x' w'
    rw [kept_filter]
    split
    · exact hdis.take
    · exact List.Pairwise.nil
  · intro x' w' sh hsh _
    exact hin sh (hmem sh hsh)
  · intro sh hsh hbss
    have hw := kept_wanted eh x w hsh
    unfold wanted at hw
    unfold isBss at hbss
    simp only [Bool.and_eq_true, beq_iff_eq] at hw hbss
    have h := hw.1.1.1.1.symm.trans hbss.1.1
    cases h

/-- The extent of a merge: its base, and the end of the last kept section. -/
structure Extent (base : Word) (m : Merged) : Prop where
  fixed : base ≠ MERGE_AUTO_BASE → m.base = base
  first : base = MERGE_AUTO_BASE → ∃ t ∈ kept eh x w, m.base = t.sh_addr
  low : ∀ t ∈ kept eh x w, m.base.toNat ≤ t.sh_addr.toNat
  last : ∃ t ∈ kept eh x w, m.len = t.sh_addr + t.sh_size - m.base ∧
    ∀ u ∈ kept eh x w, u.endAt ≤ t.endAt

/-- What `merge_progbits` leaves, by the kept sections. -/
theorem merge_cases (base : Word) :
    (kept eh x w = [] ∧ ∃ m, mergeProgbits eh x w base = some m ∧ m.len = 0#32) ∨
    ((base ≠ MERGE_AUTO_BASE ∧ ∃ t ∈ kept eh x w, t.sh_addr < base) ∧
      mergeProgbits eh x w base = none) ∨
    (¬ (base ≠ MERGE_AUTO_BASE ∧ ∃ t ∈ kept eh x w, t.sh_addr < base) ∧
      ∃ m, mergeProgbits eh x w base = some m ∧ Extent eh x w base m) := by
  have hl := kept_linked eh x w hdis hin
  have hmem : ∀ t, t ∈ sortSpans (spans (keptElf eh x w) x w) ↔
      ∃ sh ∈ kept eh x w, t = sh.span := by
    intro t
    rw [mem_spans hl]
    constructor
    · rintro ⟨sh, hsh, -, ht⟩
      exact ⟨sh, hsh, ht⟩
    · rintro ⟨sh, hsh, ht⟩
      exact ⟨sh, hsh, kept_wanted eh x w hsh, ht⟩
  rw [← kept_merge]
  unfold mergeProgbits
  cases hL : sortSpans (spans (keptElf eh x w) x w) with
  | nil =>
    refine Or.inl ⟨List.eq_nil_iff_forall_not_mem.mpr fun sh hsh => ?_, _, rfl, rfl⟩
    have hspan := (hmem sh.span).mpr ⟨sh, hsh, rfl⟩
    rw [hL] at hspan
    cases hspan
  | cons s ss =>
    right
    have hext := fun t ht => spans_extent hl x w hL (t := t) ht
    rw [hL] at hmem
    obtain ⟨sh, hsh, rfl⟩ := (hmem s).mp List.mem_cons_self
    have hleast : ∀ t ∈ kept eh x w, sh.sh_addr ≤ t.sh_addr := fun t ht =>
      (hext t.span ((hmem t.span).mpr ⟨t, ht, rfl⟩)).1
    simp only
    split
    · rename_i hlt
      exact Or.inl ⟨⟨hlt.1, sh, hsh, hlt.2⟩, rfl⟩
    · rename_i hnlt
      right
      have hge : base ≠ MERGE_AUTO_BASE → base ≤ sh.sh_addr := fun hb =>
        BitVec.not_lt.mp fun hlt => hnlt ⟨hb, hlt⟩
      refine ⟨?_, _, rfl, ?_⟩
      · rintro ⟨hb, t, ht, hlt⟩
        exact absurd (BitVec.le_trans (hge hb) (hleast t ht)) (BitVec.not_le.mpr hlt)
      · obtain ⟨last, hlast, hspan⟩ :=
          (hmem _).mp (List.getLast_mem (List.cons_ne_nil sh.span ss))
        constructor
        · intro hb
          exact if_neg hb
        · intro hb
          exact ⟨sh, hsh, if_pos hb⟩
        · intro t ht
          refine BitVec.le_def.mp (BitVec.le_trans ?_ (hleast t ht))
          split
          · exact BitVec.le_refl _
          · rename_i hb
            exact hge hb
        · refine ⟨last, hlast, ?_, fun u hu => ?_⟩
          · rw [hspan]
            rfl
          · have hle := (hext u.span ((hmem u.span).mpr ⟨u, hu, rfl⟩)).2
            rw [hspan] at hle
            exact hle

omit hdis hin in
/-- The base is 0 and the end the top of the address space, in terms of the arguments. -/
theorem room_iff {base : Word} {m : Merged} (hext : Extent eh x w base m) :
    (∃ t ∈ kept eh x w, t.endAt = 2 ^ 32) ∧
        (base = 0#32 ∨ (base = MERGE_AUTO_BASE ∧ ∃ t ∈ kept eh x w, t.sh_addr = 0#32)) ↔
      (∃ t ∈ kept eh x w, t.endAt = 2 ^ 32) ∧ m.base.toNat = 0 := by
  refine and_congr_right fun _ => ⟨?_, fun h0 => ?_⟩
  · rintro (rfl | ⟨-, t, ht, h0⟩)
    · rw [hext.fixed (by decide)]
      rfl
    · have hlow := hext.low t ht
      rw [h0] at hlow
      exact Nat.le_zero.mp hlow
  · by_cases hb : base = MERGE_AUTO_BASE
    · obtain ⟨t, ht, hbase⟩ := hext.first hb
      exact Or.inr ⟨hb, t, ht, BitVec.eq_of_toNat_eq (by rw [← hbase, h0]; rfl)⟩
    · exact Or.inl (BitVec.eq_of_toNat_eq (by rw [← hext.fixed hb, h0]; rfl))

omit hdis in
theorem kept_mem {sh : Shdr} (hsh : sh ∈ kept eh x w) :
    sh ∈ eh.shdrs ∧ wanted x w sh ∧ sh.endAt ≤ 2 ^ 32 := by
  have hmat := (mem_matching_iff eh x w).mpr (Or.inl hsh)
  obtain ⟨hmem, hw⟩ := (mem_matching eh x w).mp hmat
  exact ⟨hmem, hw, hin sh hmat⟩

omit hdis hin in
theorem skipped_mem {sh : Shdr} (hsh : sh ∈ skipped eh x w) : sh ∈ eh.shdrs ∧ wanted x w sh :=
  (mem_matching eh x w).mp ((mem_matching_iff eh x w).mpr (Or.inr hsh))

omit hin in
/-- A kept section and a skipped one are apart. -/
theorem kept_apart {s t : Shdr} (hs : s ∈ kept eh x w) (ht : t ∈ skipped eh x w) :
    s.endAt ≤ t.sh_addr.toNat ∨ t.endAt ≤ s.sh_addr.toNat := by
  rw [← List.take_append_drop 64 (matching eh x w)] at hdis
  exact (List.pairwise_append.mp hdis).2.2 s hs t ht

/-- A merge whose length does not wrap: it holds the kept sections and ends with the last of
them. -/
structure Roomy (m : Merged) : Prop where
  merges : Merges (keptElf eh x w) x w m
  ends : ∀ t ∈ kept eh x w, t.endAt ≤ m.base.toNat + m.len.toNat
  last : ∃ t ∈ kept eh x w, t.endAt = m.base.toNat + m.len.toNat
  fits : m.base.toNat + m.len.toNat ≤ 2 ^ 32

section
variable {base : Word} {m : Merged}

omit hdis hin in
/-- The address of a byte of the buffer. -/
theorem Roomy.addr (hr : Roomy eh x w m) {o : Nat} (ho : o < m.len.toNat) :
    ∃ a : Word, a.toNat = m.base.toNat + o := by
  have := hr.fits
  exact ⟨BitVec.ofNat 32 (m.base.toNat + o), by rw [BitVec.toNat_ofNat]; omega⟩

theorem Extent.roomy (hext : Extent eh x w base m) (hm : mergeProgbits eh x w base = some m)
    (hroom : ¬ ((∃ t ∈ kept eh x w, t.endAt = 2 ^ 32) ∧ m.base.toNat = 0)) : Roomy eh x w m := by
  obtain ⟨last, hlast, hlen, hends⟩ := hext.last
  have hend : last.sh_addr.toNat + last.sh_size.toNat = last.endAt := rfl
  have hlow := hext.low last hlast
  obtain ⟨-, hlastw, hlasttop⟩ := kept_mem eh x w hin hlast
  have hr : 0 < m.base.toNat ∨ last.endAt < 2 ^ 32 := by
    by_cases h0 : m.base.toNat = 0
    · exact Or.inr (lt_of_le_of_ne hlasttop fun heq => hroom ⟨⟨last, hlast, heq⟩, h0⟩)
    · exact Or.inl (Nat.pos_of_ne_zero h0)
  have hlenNat : m.base.toNat + m.len.toNat = last.endAt := by
    rw [hlen, BitVec.toNat_sub, BitVec.toNat_add]
    omega
  constructor
  · refine mergeProgbits_buf (kept_linked eh x w hdis hin) ((kept_merge eh x w base).trans hm) ?_
    intro sh hsh hw
    exact hr.imp_right fun hlt => lt_of_le_of_lt (hends sh hsh) hlt
  · intro t ht
    rw [hlenNat]
    exact hends t ht
  · exact ⟨last, hlast, hlenNat.symm⟩
  · rw [hlenNat]
    exact hlasttop

omit hdis in
/-- A faithful merge has room: else its length would be 0. -/
theorem Faithful.room (hf : Faithful eh x w m) (hext : Extent eh x w base m) :
    ¬ ((∃ t ∈ kept eh x w, t.endAt = 2 ^ 32) ∧ m.base.toNat = 0) := by
  rintro ⟨⟨t, ht, htop⟩, h0⟩
  obtain ⟨last, hlast, hlen, hends⟩ := hext.last
  have hend : last.sh_addr.toNat + last.sh_size.toNat = last.endAt := rfl
  obtain ⟨hmem, hlastw, hlasttop⟩ := kept_mem eh x w hin hlast
  have hle := hends t ht
  have hheld := (hf.held last hmem hlastw 0 (wanted_size x w hlastw)).2.1
  rw [hlen, BitVec.toNat_sub, BitVec.toNat_add] at hheld
  omega

theorem faithful_mergeable (hm : mergeProgbits eh x w base = some m)
    (hext : Extent eh x w base m) (hf : Faithful eh x w m) : Mergeable eh x w base := by
  have hroom := hf.room eh x w hin hext
  have hr := hext.roomy eh x w hdis hin hm hroom
  constructor
  · intro sh hsh i hi
    obtain ⟨hshm, hw⟩ := skipped_mem eh x w hsh
    obtain ⟨h1, h2, h3⟩ := hf.held sh hshm hw i hi
    obtain ⟨a, ha⟩ := hr.addr eh x w h2
    rw [← h3, show sh.sh_addr.toNat + i - m.base.toNat = a.toNat - m.base.toNat by omega]
    refine hr.merges.gap a (by omega) (by omega) fun t ht _ hta => ?_
    obtain ⟨h4, h5⟩ := hta
    have hd := kept_apart eh x w hdis ht hsh
    have hshend : sh.endAt = sh.sh_addr.toNat + sh.sh_size.toNat := rfl
    omega
  · intro sh hsh
    obtain ⟨hshm, hw⟩ := skipped_mem eh x w hsh
    have hb := (hf.held sh hshm hw 0 (wanted_size x w hw)).1
    split
    · rename_i hauto
      obtain ⟨t, ht, hbase⟩ := hext.first hauto
      exact ⟨t, ht, BitVec.le_def.mpr (by rw [← hbase]; exact hb)⟩
    · rename_i hauto
      rw [hext.fixed hauto] at hb
      exact BitVec.le_def.mpr hb
  · intro sh hsh
    obtain ⟨hshm, hw⟩ := skipped_mem eh x w hsh
    have hpos := wanted_size x w hw
    obtain ⟨h1, h2, -⟩ := hf.held sh hshm hw (sh.sh_size.toNat - 1) (by omega)
    obtain ⟨last, hlast, hend⟩ := hr.last
    refine ⟨last, hlast, ?_⟩
    show sh.sh_addr.toNat + sh.sh_size.toNat ≤ last.endAt
    omega
  · rw [room_iff eh x w hext]
    exact hroom

theorem mergeable_faithful (hm : mergeProgbits eh x w base = some m)
    (hext : Extent eh x w base m) (hg : Mergeable eh x w base) : Faithful eh x w m := by
  have hr := hext.roomy eh x w hdis hin hm ((room_iff eh x w hext).not.mp hg.room)
  have hskipBase : ∀ sh ∈ skipped eh x w, m.base.toNat ≤ sh.sh_addr.toNat := by
    intro sh hsh
    have hab := hg.above sh hsh
    split at hab
    · obtain ⟨t, ht, hle⟩ := hab
      exact le_trans (hext.low t ht) (BitVec.le_def.mp hle)
    · rename_i hauto
      rw [hext.fixed hauto]
      exact BitVec.le_def.mp hab
  constructor
  · intro sh hsh hw i hi
    have hshend : sh.endAt = sh.sh_addr.toNat + sh.sh_size.toNat := rfl
    rcases (mem_matching_iff eh x w).mp ((mem_matching eh x w).mpr ⟨hsh, hw⟩) with hk | hs
    · have hb := hext.low sh hk
      have hle := hr.ends sh hk
      obtain ⟨a, ha⟩ := hr.addr eh x w (o := sh.sh_addr.toNat + i - m.base.toNat) (by omega)
      have hheld := (hr.merges.held sh hk hw a ⟨by omega, by omega⟩).2.2
      refine ⟨hb, by omega, ?_⟩
      rw [show sh.sh_addr.toNat + i - m.base.toNat = a.toNat - m.base.toNat by omega, hheld]
      unfold Shdr.byteAt
      rw [BitVec.toNat_sub_of_le (BitVec.le_def.mpr (by omega))]
      congr 1
      omega
    · have hb := hskipBase sh hs
      obtain ⟨t, ht, hle⟩ := hg.below sh hs
      have hle' := hr.ends t ht
      obtain ⟨a, ha⟩ := hr.addr eh x w (o := sh.sh_addr.toNat + i - m.base.toNat) (by omega)
      refine ⟨hb, by omega, ?_⟩
      rw [hg.zero sh hs i hi,
        show sh.sh_addr.toNat + i - m.base.toNat = a.toNat - m.base.toNat by omega]
      refine hr.merges.gap a (by omega) (by omega) fun u hu _ hua => ?_
      obtain ⟨h4, h5⟩ := hua
      have hd := kept_apart eh x w hdis hu hs
      omega
  · intro o ho hnone
    obtain ⟨a, ha⟩ := hr.addr eh x w ho
    rw [show o = a.toNat - m.base.toNat by omega]
    refine hr.merges.gap a (by omega) (by omega) fun u hu hw hua => ?_
    obtain ⟨h4, h5⟩ := hua
    exact hnone u (kept_mem eh x w hin hu).1 hw ⟨by omega, by omega⟩
  · intro _
    obtain ⟨last, hlast, hend⟩ := hr.last
    obtain ⟨hmem, hlastw, -⟩ := kept_mem eh x w hin hlast
    exact ⟨last, hmem, hlastw, hend⟩

/-- **A merge is faithful when the kept sections fit, and nothing of the others shows.** -/
theorem faithful_iff (hm : mergeProgbits eh x w base = some m)
    (hext : Extent eh x w base m) : Faithful eh x w m ↔ Mergeable eh x w base :=
  ⟨faithful_mergeable eh x w hdis hin hm hext, mergeable_faithful eh x w hdis hin hm hext⟩

end

end

/-- **`merge_progbits` loses nothing**, of disjoint sections inside the address space, exactly when it
exits or the sections after the 64th show nothing and the buffer is not the whole address space. -/
theorem mergeProgbits_faithful (eh : Elf) (x w : Bool) (base : Word)
    (hdis : (matching eh x w).Pairwise fun s t =>
      s.endAt ≤ t.sh_addr.toNat ∨ t.endAt ≤ s.sh_addr.toNat)
    (hin : ∀ sh ∈ matching eh x w, sh.endAt ≤ 2 ^ 32) :
    (∀ m, mergeProgbits eh x w base = some m → Faithful eh x w m) ↔
      (base ≠ MERGE_AUTO_BASE ∧ ∃ t ∈ kept eh x w, t.sh_addr < base) ∨ Mergeable eh x w base := by
  rcases merge_cases eh x w hdis hin base with ⟨hnil, m, hm, hlen⟩ | ⟨hlow, hm⟩ | ⟨hlow, m, hm, hext⟩
  · have hnone : matching eh x w = [] := by
      unfold kept at hnil
      rcases List.take_eq_nil_iff.mp hnil with h | h
      · cases h
      · exact h
    have hskip : skipped eh x w = [] := by
      unfold skipped
      rw [hnone]
      rfl
    refine iff_of_true ?_ (Or.inr ⟨?_, ?_, ?_, ?_⟩)
    · intro m' hm'
      rw [hm] at hm'
      cases hm'
      have hno : ∀ sh ∈ eh.shdrs, ¬ wanted x w sh := fun sh hsh hw => by
        have hmat := (mem_matching eh x w).mpr ⟨hsh, hw⟩
        rw [hnone] at hmat
        cases hmat
      refine ⟨fun sh hsh hw => absurd hw (hno sh hsh), fun o ho _ => ?_, fun h => absurd hlen h⟩
      rw [hlen] at ho
      exact absurd ho (Nat.not_lt_zero o)
    · rw [hskip]
      exact fun sh hsh => nomatch hsh
    · rw [hskip]
      exact fun sh hsh => nomatch hsh
    · rw [hskip]
      exact fun sh hsh => nomatch hsh
    · rintro ⟨⟨t, ht, -⟩, -⟩
      rw [hnil] at ht
      cases ht
  · refine iff_of_true (fun m hm' => ?_) (Or.inl hlow)
    rw [hm] at hm'
    cases hm'
  · rw [or_iff_right hlow, ← faithful_iff eh x w hdis hin hm hext]
    constructor
    · intro h
      exact h m hm
    · intro h m' hm'
      rw [hm] at hm'
      cases hm'
      exact h

/-- Code sections of one `0x13` byte each, at 0, 1, 2, .. -/
def codeSections (n : Nat) : Elf where
  magic := true
  e_entry := 0#32
  shdrs := (List.range n).map fun i =>
    ⟨SHT_PROGBITS, SHF_ALLOC ||| SHF_EXECINSTR, BitVec.ofNat 32 i, 1#32, 0#32, 0#32, fun _ => 0x13#8⟩

/-- A use of `mergeProgbits_faithful`: two sections. -/
theorem mergeProgbits_faithful_two :
    ∃ m, mergeProgbits (codeSections 2) true false 0#32 = some m ∧
      Faithful (codeSections 2) true false m := by
  have hsome : (mergeProgbits (codeSections 2) true false 0#32).isSome := by decide
  obtain ⟨m, hm⟩ := Option.isSome_iff_exists.mp hsome
  refine ⟨m, hm, (mergeProgbits_faithful (codeSections 2) true false 0#32 (by decide)
    (by decide)).2 (Or.inr ⟨?_, ?_, ?_, by decide⟩) m hm⟩
  · exact fun sh hsh => nomatch hsh
  · exact fun sh hsh => nomatch hsh
  · exact fun sh hsh => nomatch hsh

/-- Of 65 sections the last one is lost: the buffer ends before it. -/
theorem mergeProgbits_loses :
    ((matching (codeSections 65) true false).Pairwise fun s t =>
      s.endAt ≤ t.sh_addr.toNat ∨ t.endAt ≤ s.sh_addr.toNat) ∧
    (∀ sh ∈ matching (codeSections 65) true false, sh.endAt ≤ 2 ^ 32) ∧
    ∃ m, mergeProgbits (codeSections 65) true false 0#32 = some m ∧
      ¬ Faithful (codeSections 65) true false m := by
  refine ⟨by decide +kernel, by decide +kernel, ?_⟩
  have hlen : (mergeProgbits (codeSections 65) true false 0#32).map Merged.len = some 64#32 := by
    decide +kernel
  obtain ⟨m, hm, hlen⟩ := Option.map_eq_some_iff.mp hlen
  have hbase : m.base = 0#32 := mergeProgbits_base hm (by decide)
  refine ⟨m, hm, fun hf => ?_⟩
  have hheld := hf.held ⟨SHT_PROGBITS, SHF_ALLOC ||| SHF_EXECINSTR, 64#32, 1#32, 0#32, 0#32,
    fun _ => 0x13#8⟩ (List.mem_map.mpr ⟨64, by decide, rfl⟩) (by decide) 0 (by decide)
  rw [hbase, hlen] at hheld
  exact absurd hheld.2.1 (by decide)

end Purv.Tctool

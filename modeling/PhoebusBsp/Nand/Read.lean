import PhoebusBsp.Nand.Sectors

/-! What `nand_read_oob` returns on a working chip: the requested bytes of the pages as decoded one
    by one, and a result that tells an uncorrectable sector from the worst corrected one. -/

namespace PhoebusBsp.Nand
open Schemes

/-! ### Reading -/

/-- A page as a read in this mode delivers it. -/
def Chip.content (c : Chip) (mode : Mode) (page : ℕ) : Bytes :=
  if mode = .raw then c.page page else c.decodePage (c.page page)

/-- The sectors a read in this mode judges. -/
def Chip.judged (c : Chip) (mode : Mode) (page : ℕ) : List (Option ℕ) :=
  if mode = .raw then [] else c.outcomes (c.page page)

/-- Byte `x` of the data area, counted from the start of a page. -/
def Chip.dataByte (c : Chip) (mode : Mode) (page x : ℕ) : UInt8 :=
  c.content mode (page + x / pageBytes) (x % pageBytes)

/-- Byte `x` of the OOB area that the mode offers, counted from the start of a page's. -/
def Chip.oobByte (c : Chip) (mode : Mode) (page x : ℕ) : UInt8 :=
  c.content mode (page + x / avail mode) (pageBytes + oobBase mode + x % avail mode)

/-- How many pages of `size` bytes a request for `left` bytes from `off` touches. -/
def pagesOf (size off left : ℕ) : ℕ := if left = 0 then 0 else (off + left + size - 1) / size

/-- The record of a device that works. -/
def Ready (c : Chip) (n : PhoebusNand) : Prop := n.poisoned = false ∧ n.dma = c.dma

section Read

variable {c : Chip} {off : ℕ}

theorem mem_sectors {k : ℕ} : k ∈ [0, 1, 2, 3] ↔ k < 4 := by
  simp only [List.mem_cons, List.not_mem_nil, or_false]
  omega

theorem owner_lt {i : ℕ} (hi : i < pageBytes + oobBytes) : owner i < 4 := by
  unfold owner
  split_ifs <;> simp only [pageBytes, oobBytes] at * <;> omega

theorem readPage_gives (hc : c.Prompt) {s : St Dev} (hs : Ready c s.n) (mode : Mode) {page : ℕ}
    (hpage : page < chipBytes / pageBytes) :
    (readPage c.hw mode page s).1 = verdict (c.judged mode page) ∧ Ready c (readPage c.hw mode page s).2.n ∧
      ∀ i < pageBytes + oobBytes, (readPage c.hw mode page s).2.n.buf i = c.content mode page i := by
  obtain ⟨hret, hend⟩ := snPage_runs hc hs.1 hpage s.hw.core.cache s rfl
  unfold readPage
  rw [Prog.bind_run, hret, if_neg (by decide)]
  generalize (snPage c.hw (UInt32.ofNat page) s).2 = s₁ at hend
  have hn : s₁.n = loaded c page s.n := (Prod.mk.inj hend).1
  have hready : Ready c s₁.n := hn ▸ hs
  have hbuf : ∀ i < pageBytes + oobBytes, s₁.n.buf i = c.page page i := by
    intro i hi
    rw [hn]
    exact Bytes.write_of_mem _ _ (by omega)
  by_cases hmode : mode = .raw
  · rw [if_neg (not_not.mpr hmode), Chip.judged, if_pos hmode, Chip.content, if_pos hmode]
    exact ⟨rfl, hready, hbuf⟩
  · have hhw : c.withEngines (fun _ => c.bch) = c.hw := rfl
    have hsector : ∀ raw k, c.sectorOf (fun _ => c.bch) raw k = c.decodeSector raw k := fun _ _ => rfl
    have hloop : bchDecode c.hw = bchLoop c.hw [0, 1, 2, 3] 0 false := rfl
    have hraw : ∀ k ∈ [0, 1, 2, 3], Untouched (c.page page) k s₁.n.buf := fun k _ i hi _ => hbuf i hi
    obtain ⟨hdecode, hdone⟩ := bchLoop_done (fun _ => c.bch) hc.ecc 0 false (by decide) (by decide) hready.2 hraw
    simp only [hhw, hsector] at hdecode hdone
    rw [if_pos hmode, Chip.judged, if_neg hmode, Chip.content, if_neg hmode, verdict_eq, hloop]
    refine ⟨hdecode, ⟨hdone.kept.1.trans hready.1, hdone.kept.2.trans hready.2⟩, fun i hi => ?_⟩
    rw [hdone.page i hi, if_pos (mem_sectors.mpr (owner_lt hi)), hsector, Chip.decodePage]

/-! ### The two cursors -/

theorem pagesOf_step {size left : ℕ} (hoff : off < size) (hleft : left ≠ 0) :
    pagesOf size off left = 1 + pagesOf size 0 (left - min left (size - off)) := by
  simp only [pagesOf, if_neg hleft]
  by_cases h : left ≤ size - off
  · rw [min_eq_left h, Nat.sub_self, if_pos rfl]
    exact Nat.div_eq_of_lt_le (by omega) (by omega)
  · have hfirst : off + left + size - 1 = size + (0 + (left - (size - off)) + size - 1) := by omega
    rw [min_eq_right (by omega), if_neg (by omega), hfirst, Nat.add_div_left _ (by omega)]
    omega

theorem pagesOf_rest {size left : ℕ} (hoff : left ≠ 0 → off < size) :
    pagesOf size 0 (left - min left (size - off)) = pagesOf size off left - 1 := by
  by_cases h : left = 0
  · subst h; simp [pagesOf]
  · rw [pagesOf_step (hoff h) h, Nat.add_sub_cancel_left]

/-- Copying the chunk of one page and then the rest from the next page on is copying all. -/
theorem copy_step (dst buf : Bytes) (size pos base : ℕ) (stream next : ℕ → UInt8) {left : ℕ}
    (hoff : left ≠ 0 → off < size) (hbuf : ∀ i, off + i < size → buf (base + off + i) = stream (off + i))
    (hnext : ∀ i, next i = stream (size + i)) : let chunk := min left (size - off)
    Bytes.write (Bytes.memcpy dst pos buf (base + off) chunk) (pos + chunk) (left - chunk)
        (fun i => next (0 + i)) =
      Bytes.write dst pos left fun i => stream (off + i) := by
  intro chunk
  have hchunk : Bytes.memcpy dst pos buf (base + off) chunk =
      Bytes.write dst pos chunk fun i => stream (off + i) :=
    Bytes.write_congr fun i hi => hbuf i (by omega)
  have hrest : Bytes.write (Bytes.write dst pos chunk fun i => stream (off + i)) (pos + chunk)
      (left - chunk) (fun i => next (0 + i)) =
      Bytes.write (Bytes.write dst pos chunk fun i => stream (off + i)) (pos + chunk)
        (left - chunk) fun i => stream (off + (chunk + i)) :=
    Bytes.write_congr fun i hi => by
      have := hoff (by omega)
      rw [hnext]; congr 1; omega
  rw [hchunk, hrest, Bytes.write_write_adjacent dst pos chunk (left - chunk) fun i => stream (off + i)]
  congr 1
  omega

/-- The request after everything that is left has been delivered. -/
def Chip.deliver (c : Chip) (page dataLeft oobLeft off oobOff : ℕ) (ops : OobOps) : OobOps :=
  { ops with
    retlen := ops.retlen + dataLeft
    oobretlen := ops.oobretlen + oobLeft
    datbuf := Bytes.write ops.datbuf ops.retlen dataLeft fun i =>
      c.dataByte ops.mode page (off + i)
    oobbuf := Bytes.write ops.oobbuf ops.oobretlen oobLeft fun i =>
      c.oobByte ops.mode page (oobOff + i) }

theorem deliver_zero (page off oobOff : ℕ) (ops : OobOps) :
    c.deliver page 0 0 off oobOff ops = ops := by
  simp [Chip.deliver, Bytes.write_zero]

theorem avail_pos (mode : Mode) : 0 < avail mode := by
  unfold avail
  split <;> decide

/-- The two regions of the OOB area end inside it. -/
theorem oobBase_avail (mode : Mode) : oobBase mode + avail mode ≤ oobBytes := by
  unfold avail oobBase
  split <;> decide

/-- One round of the loop delivers its page's share. -/
theorem deliver_step {page dataLeft oobLeft oobOff : ℕ} {ops : OobOps} {buf : Bytes}
    (hbuf : ∀ i < pageBytes + oobBytes, buf i = c.content ops.mode page i)
    (hoff : dataLeft ≠ 0 → off < pageBytes) (hoob : oobLeft ≠ 0 → oobOff < avail ops.mode) :
    let dataChunk := min dataLeft (pageBytes - off)
    let oobChunk := min oobLeft (avail ops.mode - oobOff)
    c.deliver (page + 1) (dataLeft - dataChunk) (oobLeft - oobChunk) 0 0
        (copyOut buf off dataChunk oobOff oobChunk ops) =
      c.deliver page dataLeft oobLeft off oobOff ops := by
  intro dataChunk oobChunk
  have hpos := avail_pos ops.mode
  have hend := oobBase_avail ops.mode
  have hnext : ∀ k : ℕ, page + k.succ = page + 1 + k := by
    intro k
    omega
  have hdat := copy_step ops.datbuf buf pageBytes ops.retlen 0 (c.dataByte ops.mode page)
    (c.dataByte ops.mode (page + 1)) hoff
    (fun i hi => by
      rw [Nat.zero_add, hbuf _ (by omega), Chip.dataByte, Nat.div_eq_of_lt hi, Nat.mod_eq_of_lt hi,
        Nat.add_zero])
    (fun i => by
      rw [Chip.dataByte, Chip.dataByte, Nat.add_div_left _ (by decide), Nat.add_mod_left,
        hnext (i / pageBytes)])
  have hoobb := copy_step ops.oobbuf buf (avail ops.mode) ops.oobretlen
    (pageBytes + oobBase ops.mode) (c.oobByte ops.mode page) (c.oobByte ops.mode (page + 1)) hoob
    (fun i hi => by
      rw [Nat.add_assoc, hbuf _ (by omega), Chip.oobByte, Nat.div_eq_of_lt hi, Nat.mod_eq_of_lt hi,
        Nat.add_zero])
    (fun i => by
      rw [Chip.oobByte, Chip.oobByte, Nat.add_div_left _ hpos, Nat.add_mod_left,
        hnext (i / avail ops.mode)])
  have hsum : ∀ left chunk pos : ℕ, pos + min left chunk + (left - min left chunk) = pos + left := by
    intro left chunk pos; omega
  simp only [Chip.deliver, copyOut]
  rw [Nat.zero_add off] at hdat
  rw [Nat.add_right_comm pageBytes oobOff]
  congr 1
  · exact hsum _ _ _
  · exact hsum _ _ _

theorem readLoop_gives (hc : c.Prompt) : ∀ (k page dataLeft oobLeft off oobOff m : ℕ)
    (eccError : Bool) (ops : OobOps) (s : St Dev), Ready c s.n →
    (dataLeft ≠ 0 → off < pageBytes) → (oobLeft ≠ 0 → oobOff < avail ops.mode) →
    max (pagesOf pageBytes off dataLeft) (pagesOf (avail ops.mode) oobOff oobLeft) = k →
    page + k ≤ chipBytes / pageBytes →
    (readLoop c.hw page dataLeft oobLeft off oobOff m eccError ops s).1 =
        (verdictFrom eccError m ((List.range k).flatMap fun j => c.judged ops.mode (page + j)),
          c.deliver page dataLeft oobLeft off oobOff ops) ∧
      Ready c (readLoop c.hw page dataLeft oobLeft off oobOff m eccError ops s).2.n
  | 0, page, dataLeft, oobLeft, off, oobOff, m, eccError, ops, s, hs, hoff, hoob, hk, _ => by
    have hdata : dataLeft = 0 := by
      by_contra h
      rw [pagesOf_step (hoff h) h] at hk
      omega
    have hooble : oobLeft = 0 := by
      by_contra h
      rw [pagesOf_step (hoob h) h] at hk
      omega
    subst hdata hooble
    rw [readLoop, if_pos ⟨rfl, rfl⟩, deliver_zero]
    refine ⟨?_, hs⟩
    simp [verdictFrom, worst]
  | k + 1, page, dataLeft, oobLeft, off, oobOff, m, eccError, ops, s, hs, hoff, hoob, hk, hfit => by
    have hleft : ¬(dataLeft = 0 ∧ oobLeft = 0) := by
      rintro ⟨rfl, rfl⟩
      simp [pagesOf] at hk
    have hpage : page < chipBytes / pageBytes := by omega
    obtain ⟨hret, hready, hbuf⟩ := readPage_gives hc hs ops.mode hpage
    have hnn := verdict_nonneg (c.judged ops.mode page)
    have hjudged : ((List.range (k + 1)).flatMap fun j => c.judged ops.mode (page + j)) =
        c.judged ops.mode page ++ (List.range k).flatMap fun j => c.judged ops.mode (page + 1 + j) := by
      rw [List.range_succ_eq_map, List.flatMap_cons, List.flatMap_map]
      simp only [Nat.add_zero, Nat.succ_eq_add_one, Nat.add_assoc, Nat.add_comm 1]
    rw [readLoop, if_neg hleft, dif_neg (not_le.mpr hpage), Prog.bind_run, hret, if_neg (not_lt.mpr hnn), hjudged,
      verdictFrom_append, ← deliver_step hbuf hoff hoob, Prog.bind_run, Prog.read_run, ← Int.toNat_of_nonneg hnn,
      ← Nat.cast_max]
    refine readLoop_gives hc k (page + 1) _ _ 0 0 _ _ (copyOut _ _ _ _ _ ops) _ hready (fun _ => by decide)
      (fun _ => avail_pos _) ?_ (by omega)
    rw [show (copyOut _ _ _ _ _ ops).mode = ops.mode from rfl, pagesOf_rest hoff, pagesOf_rest hoob]
    omega

theorem pagesOf_le {size left room : ℕ} (hsize : 0 < size)
    (h : left = 0 ∨ off + left ≤ room * size) : pagesOf size off left ≤ room := by
  unfold pagesOf
  split
  · exact Nat.zero_le _
  · next hne =>
    have hle := h.resolve_left hne
    exact Nat.lt_succ_iff.mp ((Nat.div_lt_iff_lt_mul hsize).mpr (by rw [Nat.succ_mul]; omega))

theorem dataByte_from (mode : Mode) («from» i : ℕ) :
    c.dataByte mode («from» / pageBytes) («from» % pageBytes + i) =
      c.content mode ((«from» + i) / pageBytes) ((«from» + i) % pageBytes) := by
  have hdiv : «from» / pageBytes + («from» % pageBytes + i) / pageBytes = («from» + i) / pageBytes := by
    simp only [pageBytes]; omega
  have hmod : («from» % pageBytes + i) % pageBytes = («from» + i) % pageBytes := Nat.mod_add_mod _ _ _
  rw [Chip.dataByte, hdiv, hmod]

/-- On a working chip a read delivers what was asked for: the data bytes and the OOB bytes of the
    pages as decoded one by one, and the verdict on all sectors of the pages it touched. -/
theorem nandReadOob_delivers (hc : c.Prompt) {s : St Dev} (hs : Ready c s.n) («from» : ℕ)
    (ops : OobOps) (hmode : ops.mode = .raw ∨ ops.mode = .placeOob ∨ ops.mode = .autoOob)
    (hdata : «from» + ops.len ≤ chipBytes)
    (hoob : ops.ooblen = 0 ∨ ops.ooboffs < avail ops.mode ∧
      ops.ooboffs + ops.ooblen ≤ (chipBytes / pageBytes - «from» / pageBytes) * avail ops.mode) :
    let x := nandReadOob c.hw «from» ops s
    let touched := max (pagesOf pageBytes («from» % pageBytes) ops.len)
      (pagesOf (avail ops.mode) ops.ooboffs ops.ooblen)
    x.1.2.retlen = ops.len ∧ x.1.2.oobretlen = ops.ooblen ∧
    (∀ i, x.1.2.datbuf i = if i < ops.len then
      c.content ops.mode ((«from» + i) / pageBytes) ((«from» + i) % pageBytes) else ops.datbuf i) ∧
    (∀ i, x.1.2.oobbuf i = if i < ops.ooblen then
      c.content ops.mode («from» / pageBytes + (ops.ooboffs + i) / avail ops.mode)
        (pageBytes + oobBase ops.mode + (ops.ooboffs + i) % avail ops.mode) else ops.oobbuf i) ∧
    oobFree 0 = .ok ⟨oobBase .autoOob, avail .autoOob⟩ ∧
    x.1.1 = verdict ((List.range touched).flatMap fun j =>
      c.judged ops.mode («from» / pageBytes + j)) ∧
    Ready c x.2.n := by
  intro x touched
  have hpage : «from» / pageBytes ≤ chipBytes / pageBytes := Nat.div_le_div_right (by omega)
  have hmod : «from» / pageBytes % 2 ^ 32 = «from» / pageBytes :=
    Nat.mod_eq_of_lt (lt_of_le_of_lt hpage (by decide))
  have hsplit := Nat.div_add_mod «from» pageBytes
  have hfit : «from» / pageBytes + touched ≤ chipBytes / pageBytes := by
    have h1 : pagesOf pageBytes («from» % pageBytes) ops.len ≤
        chipBytes / pageBytes - «from» / pageBytes := by
      refine pagesOf_le (by decide) (Or.inr ?_)
      simp only [pageBytes, chipBytes] at hdata hsplit hpage ⊢
      omega
    have h2 : pagesOf (avail ops.mode) ops.ooboffs ops.ooblen ≤
        chipBytes / pageBytes - «from» / pageBytes :=
      pagesOf_le (avail_pos _) (hoob.imp id And.right)
    omega
  obtain ⟨hres, hready⟩ := readLoop_gives hc touched («from» / pageBytes) ops.len ops.ooblen
    («from» % pageBytes) ops.ooboffs 0 false { ops with retlen := 0, oobretlen := 0 } s hs
    (fun _ => Nat.mod_lt _ (by decide)) (fun h => (hoob.resolve_left h).1) rfl hfit
  have hx : x = readLoop c.hw («from» / pageBytes) ops.len ops.ooblen («from» % pageBytes)
      ops.ooboffs 0 false { ops with retlen := 0, oobretlen := 0 } s := by
    show nandReadOob c.hw «from» ops s = _
    unfold nandReadOob
    rw [if_neg (by rcases hmode with h | h | h <;> simp [h]),
      if_neg (fun h => absurd (hoob.resolve_left h.1).1 (not_lt.mpr h.2)), hmod]
  rw [Nat.cast_zero, ← hx] at hres hready
  rw [hres]
  refine ⟨Nat.zero_add _, Nat.zero_add _, fun i => ?_, fun i => ?_, rfl, (verdict_eq _).symm, hready⟩
  · simp only [Chip.deliver, Bytes.write, Nat.zero_le, true_and, Nat.zero_add, Nat.sub_zero]
    rw [dataByte_from]
  · simp [Chip.deliver, Bytes.write, Chip.oobByte]

end Read

/-- A blank chip that is never busy. -/
def blankChip : Chip :=
  ⟨fun _ _ => 0xff, fun _ _ => ⟨fun _ => 0, fun _ => 0, 0⟩, fun _ => 0, fun _ => 0, fun _ _ => 0,
    fun _ => 0, 0, 0⟩

theorem nandReadOob_delivers_blank :
    let ops : OobOps := ⟨.placeOob, 100, 0, 70, 0, 3, fun _ => 0, fun _ => 0⟩
    let s : St Dev := boot (fun _ => 0) ⟨0, ⟨.idle, 0, 0, 0, 0, 0, 0⟩⟩
    (nandReadOob blankChip.hw 2000 ops s).1.2.retlen = 100 ∧
      (nandReadOob blankChip.hw 2000 ops s).1.2.oobretlen = 70 := by
  intro ops s
  have hc : blankChip.Prompt :=
    ⟨fun _ => ⟨0, by decide, show snIdle 0 = true by decide⟩,
      fun _ => ⟨0, by decide, show eccIdle 0 = true by decide⟩,
      fun _ => ⟨0, by decide, show (0 : UInt8) &&& 1 = 0 by decide⟩⟩
  have h := nandReadOob_delivers hc (s := s) ⟨rfl, rfl⟩ 2000 ops (Or.inr (Or.inl rfl)) (by decide)
    (Or.inr ⟨by decide, by decide⟩)
  exact ⟨h.1, h.2.1⟩

end PhoebusBsp.Nand

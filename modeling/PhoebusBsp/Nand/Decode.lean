import PhoebusBsp.Nand.Read
import Mathlib.Data.Finset.Lattice.Fold
import Mathlib.Order.Lattice.Nat
import Mathlib.Algebra.BigOperators.Group.Finset.Basic
import Mathlib.Algebra.Order.BigOperators.Group.List

/-! What `bch_decode` does to the buffer and to the counters, sector by sector.

        zero bits     engine        data      tag       parity
        at most 4     not started   0xff      0xff      0xff
        more          correctable   decoded   decoded   as read
        more          gave up       decoded   as read   as read -/

namespace PhoebusBsp.Nand
open Schemes

theorem hweight8_le_zeroBits (raw : Bytes) (sector : ℕ) {i : ℕ} (hi : i < 512) :
    hweight8 (~~~ sectorData raw sector i) ≤ zeroBits raw sector := by
  have hmem : hweight8 (~~~ sectorData raw sector i) ∈
      (List.range 512).map fun i => hweight8 (~~~ sectorData raw sector i) :=
    List.mem_map_of_mem (List.mem_range.mpr hi)
  exact (List.le_sum_of_mem hmem).trans (Nat.le_add_right _ _)

/-! ### A page -/

/-- The size of the DMA buffer. -/
def bufBytes : ℕ := 4096

section Page

variable (bch : Engines) (raw : Bytes)

/-- What the engine makes of a sector of the page. -/
def decodedBy (sector : ℕ) : Decoded :=
  bch sector (fun i => sectorData raw sector i) (fun i => sectorTag raw sector i)

/-- A sector that is not erased and that the engine could not correct. -/
def BadSector (sector : ℕ) : Prop :=
  4 < zeroBits raw sector ∧ Uncorrectable (decodedBy bch raw sector).status

instance (sector : ℕ) : Decidable (BadSector bch raw sector) := inferInstanceAs (Decidable (_ ∧ _))

/-- The flips of an erased sector, or the bits that the engine says it has corrected. -/
def sectorBits (sector : ℕ) : ℕ :=
  if zeroBits raw sector ≤ 4 then zeroBits raw sector
  else statusBits (decodedBy bch raw sector).status

/-- The bytes of a sector after the decode. -/
structure SectorLeft (buf : Bytes) (sector : ℕ) : Prop where
  erased : zeroBits raw sector ≤ 4 → (∀ i < 512, buf (sector * 512 + i) = 0xff) ∧
    (∀ i < 6, buf (tagOff sector + i) = 0xff) ∧ ∀ i < 10, buf (parityOff sector + i) = 0xff
  data : 4 < zeroBits raw sector → ∀ i < 512,
    buf (sector * 512 + i) = (decodedBy bch raw sector).data i
  tag : 4 < zeroBits raw sector → ∀ i < 6, buf (tagOff sector + i) =
    if Uncorrectable (decodedBy bch raw sector).status then raw (tagOff sector + i)
    else (decodedBy bch raw sector).tag i
  parity : 4 < zeroBits raw sector → ∀ i < 10, buf (parityOff sector + i) = raw (parityOff sector + i)

variable {bch raw} {c : Chip}

theorem decodedAt_aimedAt (sector : ℕ) : (c.aimedAt bch sector).decodedAt raw sector = decodedBy bch raw sector := rfl

theorem sectorOf_outcome (sector : ℕ) :
    (c.sectorOf bch raw sector).outcome =
      if BadSector bch raw sector then none else some (sectorBits bch raw sector) := by
  unfold Chip.sectorOf sectorBits BadSector
  by_cases h : zeroBits raw sector ≤ 4
  · simp [decodeSector_erased h, h, Nat.not_lt.mpr h]
  · by_cases hu : Uncorrectable (decodedBy bch raw sector).status <;>
      simp [decodeSector_engine h, decodedAt_aimedAt, h, Nat.not_le.mp h, hu]

theorem sectorLeft_of_page {sector : ℕ} (hs : sector < 4) {buf : Bytes}
    (hpage : Untouched (c.sectorOf bch raw sector).bytes sector buf) : SectorLeft bch raw buf sector := by
  have hdata : ∀ i < 512, buf (sector * 512 + i) = (c.sectorOf bch raw sector).bytes (sector * 512 + i) :=
    fun _ => hpage.data hs
  have htag := fun i => hpage.tag hs (i := i)
  have hparity := fun i => hpage.parity hs (i := i)
  -- the three kinds of bytes lie in different ranges of the page
  have hdataIn : ∀ i < 512, sector * 512 + i < pageBytes ∧ (sector * 512 + i) % 512 = i := by
    simp only [pageBytes]
    omega
  have htagIn : ∀ i < 6, ¬tagOff sector + i < pageBytes ∧ tagOff sector + i < pageBytes + 24 ∧
      (tagOff sector + i - pageBytes) % 6 = i := by
    simp only [tagOff, pageBytes]
    omega
  have hparityIn : ∀ i < 10, ¬parityOff sector + i < pageBytes ∧
      ¬parityOff sector + i < pageBytes + 24 := by
    simp only [parityOff, pageBytes]
    omega
  unfold Chip.sectorOf at hdata htag hparity
  refine ⟨fun h => ⟨fun i hi => ?_, fun i hi => ?_, fun i hi => ?_⟩, fun h i hi => ?_, fun h i hi => ?_,
    fun h i hi => ?_⟩
  · rw [hdata i hi, decodeSector_erased h]
  · rw [htag i hi, decodeSector_erased h]
  · rw [hparity i hi, decodeSector_erased h]
  · rw [hdata i hi, decodeSector_engine (Nat.not_le.mpr h), decodedAt_aimedAt]
    simp [hdataIn i hi]
  · rw [htag i hi, decodeSector_engine (Nat.not_le.mpr h), decodedAt_aimedAt]
    by_cases hu : Uncorrectable (decodedBy bch raw sector).status <;> simp [htagIn i hi, hu]
  · rw [hparity i hi, decodeSector_engine (Nat.not_le.mpr h), decodedAt_aimedAt]
    simp [hparityIn i hi]

theorem worst_sectors :
    (∀ k < 4, ¬BadSector bch raw k) →
      worst ([0, 1, 2, 3].map fun k => (c.sectorOf bch raw k).outcome) =
        (Finset.range 4).sup (sectorBits bch raw) := by
  intro hgood
  have hbits : ∀ k < 4, (c.sectorOf bch raw k).outcome = some (sectorBits bch raw k) := by
    intro k hk
    rw [sectorOf_outcome, if_neg (hgood k hk)]
  simp [worst, hbits, Finset.range_add_one, Finset.sup_insert, max_comm]

theorem sectorOf_bad (k : ℕ) : (c.sectorOf bch raw k).outcome = none ↔ BadSector bch raw k := by
  rw [sectorOf_outcome]
  by_cases h : BadSector bch raw k <;> simp [h]

theorem sectorOf_bits (k : ℕ) : (c.sectorOf bch raw k).outcome.getD 0 =
    if BadSector bch raw k then 0 else sectorBits bch raw k := by
  rw [sectorOf_outcome]
  by_cases h : BadSector bch raw k <;> simp [h]

theorem none_mem_sectors :
    none ∈ [0, 1, 2, 3].map (fun k => (c.sectorOf bch raw k).outcome) ↔
      ∃ k < 4, BadSector bch raw k := by
  simp only [List.mem_map, sectorOf_bad, mem_sectors]

theorem sum_sectors (f : ℕ → ℕ) : ([0, 1, 2, 3].map f).sum = ∑ k ∈ Finset.range 4, f k := by
  simp [Finset.sum_range_succ, Nat.add_assoc]

/-- `bch_decode` with an engine that ends: what becomes of each sector, for which sectors the engine is
    started, that a sector leaves the others alone and the scratch area lies behind the page, that both
    pairs of counters grow alike, and the result. -/
theorem bchDecode_sectors (c : Chip) (bch : Engines) (hecc : c.EccPrompt) (s : St Dev)
    (hdma : s.n.dma = c.dma) :
    let hw := c.withEngines bch
    let raw := s.n.buf
    let x := bchDecode hw s
    let bits := ∑ k ∈ Finset.range 4, if BadSector bch raw k then 0 else sectorBits bch raw k
    let bad := ∑ k ∈ Finset.range 4, if BadSector bch raw k then 1 else 0
    (∀ k < 4, SectorLeft bch raw x.2.n.buf k) ∧
    engineStarts x.2.log = engineStarts s.log ++ ([0, 1, 2, 3].filter fun k => 4 < zeroBits raw k).map
      (fun k => s.n.dma + UInt32.ofNat (k * 512)) ∧
    (∀ k < 4, ∀ s' : St Dev, s'.n.dma = c.dma → ∀ i < pageBytes + oobBytes, owner i ≠ k →
      (bchSector hw k s').2.n.buf i = s'.n.buf i) ∧
    (pageBytes + oobBytes ≤ scratchOff ∧ scratchOff + 16 ≤ bufBytes) ∧
    (x.2.n.corrected = s.n.corrected + bits ∧
      x.2.n.eccStatsCorrected = s.n.eccStatsCorrected + bits ∧
      x.2.n.failed = s.n.failed + bad ∧ x.2.n.eccStatsFailed = s.n.eccStatsFailed + bad) ∧
    (x.1 = -ebadmsg ↔ ∃ k < 4, BadSector bch raw k) ∧
    ((∀ k < 4, ¬BadSector bch raw k) →
      x.1 = ((Finset.range 4).sup (sectorBits bch raw) : ℕ)) := by
  intro hw raw x bits bad
  have hx : x = bchLoop hw [0, 1, 2, 3] 0 false s := rfl
  obtain ⟨hret, hdone⟩ := bchLoop_done bch (l := [0, 1, 2, 3]) (s := s) hecc 0 false
    (by decide) (by decide) hdma fun k _ i _ _ => rfl
  rw [← hx] at hret hdone
  clear_value x
  rw [← verdict_eq] at hret
  refine ⟨fun k hk => ?_, hdone.starts, fun k hk s' hs' i hi ho => ?_, by decide, ?_, ?_, ?_⟩
  · refine sectorLeft_of_page (c := c) hk fun i hi ho => ?_
    rw [hdone.page i hi, if_pos (mem_sectors.mpr (owner_lt hi)), ho]
  · obtain ⟨-, hstep, -⟩ := bchSector_step bch hecc hk hs' fun i _ _ => rfl
    rw [hstep.page i hi, if_neg ho]
  · have hcorrected := hdone.corrected
    have heccStatsCorrected := hdone.eccStatsCorrected
    have hfailed := hdone.failed
    have heccStatsFailed := hdone.eccStatsFailed
    simp only [sum_sectors, sectorOf_bits, sectorOf_bad] at hcorrected heccStatsCorrected hfailed heccStatsFailed
    exact ⟨hcorrected, heccStatsCorrected, hfailed, heccStatsFailed⟩
  · rw [← none_mem_sectors (c := c), hret, verdict]
    split_ifs with hnone
    · exact iff_of_true rfl hnone
    · refine iff_of_false ?_ hnone
      simp only [ebadmsg]
      omega
  · intro hgood
    rw [hret, verdict, if_neg, worst_sectors hgood]
    rw [none_mem_sectors]
    rintro ⟨k, hk, hbad⟩
    exact hgood k hk hbad

end Page

/-- An erased sector before three programmed ones. -/
def mixedPage : Bytes := fun i => if i < 512 then 0xff else if i < 2048 then 0 else 0xff

/-- The engine corrects three bits of sector 1, gives up on sector 2 and corrects seven of sector 3. -/
def mixedEngines : Engines := fun k _ _ =>
  ⟨fun _ => 7, fun _ => 9, if k = 1 then 0x3000 else if k = 2 then 0x100 else 0x7000⟩

def mixedSt : St Dev :=
  { boot (fun _ => 0) ⟨0, ⟨.idle, 0, 0, 0, 0, 0, 0⟩⟩ with n := { PhoebusNand.zero with buf := mixedPage } }

/-- A page with an erased sector, two that are corrected and one that cannot be, on a chip that is never
    busy. -/
theorem bchDecode_sectors_mixed :
    let x := bchDecode (blankChip.withEngines mixedEngines) mixedSt
    x.2.n.buf (1 * 512 + 88) = 7 ∧ x.2.n.buf (tagOff 1 + 0) = 9 ∧
      x.2.n.buf (tagOff 2 + 0) = 0xff ∧ x.1 = -ebadmsg := by
  have hecc : blankChip.EccPrompt := fun _ => ⟨0, Nat.zero_le _, (by decide : eccIdle 0 = true)⟩
  obtain ⟨hleft, -, -, -, -, hret, -⟩ := bchDecode_sectors blankChip mixedEngines hecc mixedSt rfl
  have hbuf : mixedSt.n.buf = mixedPage := rfl
  rw [hbuf] at hleft hret
  have hzeros : 4 < zeroBits mixedPage 1 ∧ 4 < zeroBits mixedPage 2 := by
    have hbyte : ∀ k < 3, 4 < hweight8 (~~~ sectorData mixedPage k.succ 0) := by decide
    exact ⟨(hbyte 0 (by decide)).trans_le (hweight8_le_zeroBits _ _ (by decide)),
      (hbyte 1 (by decide)).trans_le (hweight8_le_zeroBits _ _ (by decide))⟩
  have hgood : ¬Uncorrectable (decodedBy mixedEngines mixedPage 1).status := by decide +kernel
  have hbad : Uncorrectable (decodedBy mixedEngines mixedPage 2).status := by decide +kernel
  have htag1 := (hleft 1 (by decide)).tag hzeros.1 0 (by decide)
  have htag2 := (hleft 2 (by decide)).tag hzeros.2 0 (by decide)
  rw [if_neg hgood] at htag1
  rw [if_pos hbad] at htag2
  refine ⟨?_, ?_, ?_, ?_⟩
  · exact (hleft 1 (by decide)).data hzeros.1 88 (by decide)
  · exact htag1
  · exact htag2
  · exact hret.mpr ⟨2, by decide, hzeros.2, hbad⟩

end PhoebusBsp.Nand

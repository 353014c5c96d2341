import PhoebusBsp.Nand.Chip
import Mathlib.Algebra.BigOperators.Group.List.Basic

/-! How `bch_decode` decodes the four sectors of a page in place.

        page:   0 ........ 2048 | 2048 .. 2072 | 2072 .... 2112
                4 × 512 data      4 × 6 tag      4 × 10 parity

    `Chip.decodeSector` says what a sector decodes to, without the buffer, the scratch area or the
    registers. What a run of the engine leaves may depend on the sector it is aimed at as well as on its
    bytes, so that any four outcomes are possible for any page. -/

namespace PhoebusBsp.Nand
open Schemes List

/-! ### What a page decodes to -/

/-- The sector a byte of a page belongs to. -/
def owner (i : ℕ) : ℕ :=
  if i < pageBytes then i / 512
  else if i < pageBytes + 24 then (i - pageBytes) / 6
  else (i - pageBytes - 24) / 10

def sectorData (raw : Bytes) (sector : ℕ) : Bytes := fun i => raw (sector * 512 + i)

def sectorTag (raw : Bytes) (sector : ℕ) : Bytes := fun i =>
  if i < 6 then raw (tagOff sector + i) else raw (parityOff sector + (i - 6))

/-- A decoded sector: its bytes by their offset in the page, and the corrected bits, or `none` when
    it could not be corrected. -/
structure Sector where
  bytes : Bytes
  outcome : Option ℕ

/-- The engine gave up, or claims more corrections than its code can make. -/
def Uncorrectable (status : UInt32) : Prop := status &&& 0x100 ≠ 0 ∨ statusBits status > 6

instance (status : UInt32) : Decidable (Uncorrectable status) := inferInstanceAs (Decidable (_ ∨ _))

/-- At most four zero bits make an erased sector. Otherwise the engine decides: its data always
    reach the page, its tag bytes only when the sector could be corrected, its parity bytes
    never. -/
def Chip.decodeSector (c : Chip) (raw : Bytes) (sector : ℕ) : Sector :=
  let zeros := flips (sectorData raw sector) 512 + flips (sectorTag raw sector) 16
  if zeros ≤ 4 then ⟨fun _ => 0xff, some zeros⟩
  else
    let out := c.bch (fun i => sectorData raw sector i) (fun i => sectorTag raw sector i)
    if Uncorrectable out.status then
      ⟨fun i => if i < pageBytes then out.data (i % 512) else raw i, none⟩
    else
      ⟨fun i =>
        if i < pageBytes then out.data (i % 512)
        else if i < pageBytes + 24 then out.tag ((i - pageBytes) % 6)
        else raw i, some (statusBits out.status)⟩

def Chip.decodePage (c : Chip) (raw : Bytes) : Bytes := fun i =>
  (c.decodeSector raw (owner i)).bytes i

def Chip.outcomes (c : Chip) (raw : Bytes) : List (Option ℕ) :=
  [0, 1, 2, 3].map fun sector => (c.decodeSector raw sector).outcome

/-- The largest number of corrected bits. -/
def worst (l : List (Option ℕ)) : ℕ := (l.map fun o => o.getD 0).foldr max 0

local instance lawfulBEq_outcome : LawfulBEq (Option ℕ) := inferInstance

/-- The result of a read over sectors with these outcomes. -/
def verdict (l : List (Option ℕ)) : Int := if none ∈ l then -ebadmsg else worst l

/-! ### Layout of a page -/

theorem owner_iff {i sector : ℕ} (hi : i < pageBytes + oobBytes) (hs : sector < 4) :
    owner i = sector ↔ (sector * 512 ≤ i ∧ i < sector * 512 + 512) ∨
      (tagOff sector ≤ i ∧ i < tagOff sector + 6) ∨
      (parityOff sector ≤ i ∧ i < parityOff sector + 10) := by
  unfold owner
  split_ifs <;> simp only [tagOff, parityOff, pageBytes, oobBytes] at * <;> omega

theorem flips_congr {b b' : Bytes} {k : ℕ} (h : ∀ i < k, b i = b' i) : flips b k = flips b' k := by
  refine congrArg List.sum (map_congr_left fun i hi => ?_)
  rw [h i (mem_range.mp hi)]

/-- The bytes of one sector are still as the chip delivered them. -/
def Untouched (raw : Bytes) (sector : ℕ) (b : Bytes) : Prop :=
  ∀ i < pageBytes + oobBytes, owner i = sector → b i = raw i

theorem gather_page (sector : ℕ) (b : Bytes) {i : ℕ} (hi : i < pageBytes + oobBytes) :
    gather sector b i = b i := by
  simp only [gather, Bytes.memcpy, pageBytes, oobBytes, scratchOff] at *
  rw [Bytes.write_of_notMem _ _ (by omega), Bytes.write_of_notMem _ _ (by omega)]

section Sector

variable {raw b : Bytes} {sector : ℕ}

theorem Untouched.data (h : Untouched raw sector b) (hs : sector < 4) {i : ℕ} (hi : i < 512) :
    b (sector * 512 + i) = sectorData raw sector i := by
  have hlt : sector * 512 + i < pageBytes + oobBytes := by
    simp only [pageBytes, oobBytes]; omega
  exact h _ hlt ((owner_iff hlt hs).mpr (Or.inl (by omega)))

theorem Untouched.tag (h : Untouched raw sector b) (hs : sector < 4) {i : ℕ} (hi : i < 6) :
    b (tagOff sector + i) = raw (tagOff sector + i) := by
  have hlt : tagOff sector + i < pageBytes + oobBytes := by
    simp only [tagOff, pageBytes, oobBytes]; omega
  exact h _ hlt ((owner_iff hlt hs).mpr (Or.inr (Or.inl (by omega))))

theorem Untouched.parity (h : Untouched raw sector b) (hs : sector < 4) {i : ℕ} (hi : i < 10) :
    b (parityOff sector + i) = raw (parityOff sector + i) := by
  have hlt : parityOff sector + i < pageBytes + oobBytes := by
    simp only [parityOff, pageBytes, oobBytes]; omega
  exact h _ hlt ((owner_iff hlt hs).mpr (Or.inr (Or.inr (by omega))))

/-- The scratch area holds the sector's tag and parity bytes. -/
theorem gather_scratch (h : Untouched raw sector b) (hs : sector < 4) {i : ℕ} (hi : i < 16) :
    gather sector b (scratchOff + i) = sectorTag raw sector i := by
  simp only [gather, Bytes.memcpy, sectorTag]
  split
  · next h6 =>
    rw [Bytes.write_of_notMem _ _ (by omega), Bytes.write_of_mem _ _ (by omega),
      Nat.add_sub_cancel_left]
    exact h.tag hs h6
  · next h6 =>
    rw [Bytes.write_of_mem _ _ (by omega), Bytes.write_of_notMem]
    · rw [Nat.add_sub_add_left]
      exact h.parity hs (by omega)
    · left
      simp only [parityOff, pageBytes, scratchOff]
      omega

theorem gather_untouched (h : Untouched raw sector b) : Untouched raw sector (gather sector b) :=
  fun i hi ho => (gather_page sector b hi).trans (h i hi ho)

/-- The test for an erased sector sees the sector's own bytes. -/
theorem erasedSector_gather (h : Untouched raw sector b) (hs : sector < 4) :
    erasedSector (fun i => gather sector b (sector * 512 + i))
        (fun i => gather sector b (scratchOff + i)) =
      erasedSector (sectorData raw sector) (sectorTag raw sector) := by
  simp only [erasedSector]
  rw [flips_congr fun i hi => (gather_untouched h).data hs hi,
    flips_congr fun i hi => gather_scratch h hs hi]

theorem blank_page (hs : sector < 4) (b : Bytes) {i : ℕ} (hi : i < pageBytes + oobBytes) :
    blank sector b i = if owner i = sector then 0xff else b i := by
  simp only [blank, Bytes.memset, Bytes.write, owner_iff hi hs]
  split_ifs <;> first | rfl | omega

end Sector

/-! ### What a sector decodes to -/

/-- The zero bits of a sector. -/
def zeroBits (raw : Bytes) (sector : ℕ) : ℕ :=
  flips (sectorData raw sector) 512 + flips (sectorTag raw sector) 16

/-- What the engine makes of a sector as it was read. -/
def Chip.decodedAt (c : Chip) (raw : Bytes) (sector : ℕ) : Decoded :=
  c.bch (fun i => sectorData raw sector i) (fun i => sectorTag raw sector i)

section Decoded

variable {c : Chip} {raw : Bytes} {sector : ℕ}

theorem decodeSector_erased (h : zeroBits raw sector ≤ 4) :
    c.decodeSector raw sector = ⟨fun _ => 0xff, some (zeroBits raw sector)⟩ := by
  unfold Chip.decodeSector
  rw [← zeroBits, if_pos h]

theorem decodeSector_engine (h : ¬zeroBits raw sector ≤ 4) :
    c.decodeSector raw sector = ⟨fun i =>
      if i < pageBytes then (c.decodedAt raw sector).data (i % 512)
      else if i < pageBytes + 24 ∧ ¬Uncorrectable (c.decodedAt raw sector).status then
        (c.decodedAt raw sector).tag ((i - pageBytes) % 6)
      else raw i,
      if Uncorrectable (c.decodedAt raw sector).status then none
      else some (statusBits (c.decodedAt raw sector).status)⟩ := by
  unfold Chip.decodeSector
  rw [← zeroBits, if_neg h, ← Chip.decodedAt]
  by_cases hu : Uncorrectable (c.decodedAt raw sector).status <;> simp [hu]

end Decoded

/-! ### The engine -/

section Engine

variable {c : Chip} {off sector : ℕ}

/-- A configuration register may hold anything. -/
theorem rd_cfg_runs {α : Type} {r : Reg} (hr : ∀ core t, (c.rdCore core t r).2 = core)
    {k : UInt32 → Prog (St Dev) α} {v v' : View} {a : α} (hk : ∀ x, Prog.Runs view (k x) v a v') :
    Prog.Runs view (rd c.hw r >>= k) v a v' := by
  rintro s rfl
  refine hk _ _ ?_
  simp only [rd, view, Chip.hw, hr]

theorem trig_runs (x : UInt32) (v : View) :
    Prog.Runs view (wr c.hw .eccTrig x) v ()
      { v with
        n := { v.n with buf := (c.decode v.core v.n.buf).2 }
        core := (c.decode v.core v.n.buf).1 } := by
  rintro s rfl
  exact ⟨rfl, rfl⟩

/-- What the engine makes of a sector in the buffer. -/
def Chip.engine (c : Chip) (b : Bytes) (sector : ℕ) : Decoded :=
  c.bch (fun i => b (sector * 512 + i)) (fun i => b (scratchOff + i))

/-- The record after the engine has run on a sector. -/
def engineRan (c : Chip) (sector : ℕ) (n : PhoebusNand) : PhoebusNand :=
  let out := c.engine n.buf sector
  { n with
    bchSectors := n.bchSectors + 1
    lastEccPage := n.lastPage
    lastEcc := out.status &&& ~~~ 3
    buf := Bytes.write (Bytes.write n.buf (sector * 512) 512 out.data) scratchOff 16 out.tag }

theorem eccIdle_mask (x : UInt32) : eccIdle (x &&& ~~~ 3) = true := by
  have hbits : (~~~ 3 &&& 3 : UInt32) = 0 := by decide
  have hmask : x &&& ~~~ 3 &&& 3 = 0 := by rw [UInt32.and_assoc, hbits, UInt32.and_zero]
  simp [eccIdle, hmask]

theorem dma_offset (dma : UInt32) (h : off < 4096) : (dma + UInt32.ofNat off - dma).toNat = off := by
  have : dma + UInt32.ofNat off - dma = UInt32.ofNat off := by
    rw [UInt32.add_comm, UInt32.add_sub_cancel]
  rw [this, UInt32.toNat_ofNat']
  omega

/-- The core with the engine set to a sector of the driver's buffer. -/
def Chip.aimed (c : Chip) (core : Core) (sector : ℕ) : Core :=
  { core with
    eccTag := c.dma + UInt32.ofNat scratchOff
    eccData := c.dma + UInt32.ofNat (sector * 512) }

theorem decode_aimed (core : Core) (b : Bytes) (hs : sector < 4) : c.decode (c.aimed core sector) b =
      ({ c.aimed core sector with eccStatus := (c.engine b sector).status &&& ~~~ 3 },
        Bytes.write (Bytes.write b (sector * 512) 512 (c.engine b sector).data) scratchOff 16
          (c.engine b sector).tag) := by
  have htag : scratchOff < 4096 := by decide
  have hdata : sector * 512 < 4096 := by omega
  simp only [Chip.decode, Chip.aimed, Chip.engine, dma_offset c.dma htag, dma_offset c.dma hdata]

theorem runEngine_runs (hc : c.EccPrompt) {n : PhoebusNand} (hdma : n.dma = c.dma)
    (hs : sector < 4) (cached : ℕ) : Prog.Runs between (runEngine c.hw sector) (n, cached)
      (0, (c.engine n.buf sector).status &&& ~~~ 3) (engineRan c sector n, cached) := by
  refine runs_between fun v hv => ?_
  obtain ⟨rfl, rfl⟩ := Prod.mk.inj hv
  refine ⟨⟨engineRan c sector v.n, v.stk,
    { c.aimed v.core sector with eccStatus := (c.engine v.n.buf sector).status &&& ~~~ 3 }⟩, rfl, ?_⟩
  refine rd_cfg_runs (fun _ _ => rfl) fun cfg => (wr_runs v.core rfl).bind ?_
  refine (wr_runs v.core rfl).bind ?_
  refine Prog.Runs.bind (Prog.Runs.read (a := c.dma) fun s hs => ?_) ?_
  · rw [← hdma, ← congrArg View.n hs]; rfl
  refine (wr_runs { v.core with eccTag := c.dma + UInt32.ofNat scratchOff } rfl).bind ?_
  refine (wr_runs (c.aimed v.core sector) rfl).bind ((upd_runs _ _).bind ((trig_runs 0 _).bind ?_))
  rw [decode_aimed v.core _ hs]
  refine (eccWait_runs hc _ (eccIdle_mask _)).bind ((upd_runs _ _).bind ?_)
  exact Prog.Runs.pure _

/-! ### Sectors and pages -/

theorem status_mask_uncor (x : UInt32) : x &&& ~~~ 3 &&& 0x100 = x &&& 0x100 := by
  have hbits : (~~~ 3 &&& 0x100 : UInt32) = 0x100 := by decide
  rw [UInt32.and_assoc, hbits]

theorem statusBits_mask (x : UInt32) : statusBits (x &&& ~~~ 3) = statusBits x := by
  simp only [statusBits, UInt32.toNat_and, UInt32.toNat_shiftRight]
  rw [Nat.shiftRight_and_distrib, Nat.and_assoc]
  congr 1

def sectorRet : Option ℕ → SectorRet
  | none => .bad
  | some bits => .good bits

/-- The fields the read path relies on are as they were. -/
def Kept (n n' : PhoebusNand) : Prop := n'.poisoned = n.poisoned ∧ n'.dma = n.dma

theorem engine_gather {raw : Bytes} {b : Bytes} (h : Untouched raw sector b) (hs : sector < 4) :
    c.engine (gather sector b) sector =
      c.bch (fun i => sectorData raw sector i) (fun i => sectorTag raw sector i) := by
  unfold Chip.engine
  congr 1
  · funext i; exact (gather_untouched h).data hs i.isLt
  · funext i; exact gather_scratch h hs i.isLt

/-- The page after the engine has decoded a sector in place. -/
theorem engineRan_page (hs : sector < 4) (n : PhoebusNand) {i : ℕ} (hi : i < pageBytes + oobBytes) :
    (engineRan c sector n).buf i =
      if owner i = sector ∧ i < pageBytes then (c.engine n.buf sector).data (i % 512)
      else n.buf i := by
  simp only [engineRan]
  rw [Bytes.write_of_notMem _ _ (by simp only [scratchOff, pageBytes, oobBytes] at *; omega)]
  by_cases hin : sector * 512 ≤ i ∧ i < sector * 512 + 512
  · have hlt : i < pageBytes := by simp only [pageBytes]; omega
    rw [Bytes.write_of_mem _ _ hin, if_pos ⟨(owner_iff hi hs).mpr (Or.inl hin), hlt⟩]
    congr 1; omega
  · rw [Bytes.write_of_notMem _ _ (by omega), if_neg]
    rintro ⟨ho, hlt⟩
    have hown := (owner_iff hi hs).mp ho
    simp only [tagOff, parityOff, pageBytes] at hown hlt
    omega

theorem engineRan_scratch (sector : ℕ) (n : PhoebusNand) {i : ℕ} (hi : i < 16) :
    (engineRan c sector n).buf (scratchOff + i) = (c.engine n.buf sector).tag i := by
  simp only [engineRan]
  rw [Bytes.write_of_mem _ _ (by omega), Nat.add_sub_cancel_left]

/-- The record after `bch_decode` has judged the status of a sector. -/
def finished (sector : ℕ) (status : UInt32) (n : PhoebusNand) : PhoebusNand :=
  if Uncorrectable status then addFailed n
  else { addCorrected (statusBits status) n with
    buf := Bytes.memcpy n.buf (tagOff sector) n.buf scratchOff 6 }

/-- The page after the tag bytes have been copied back from the scratch area, if they are. -/
theorem finished_page (hs : sector < 4) (status : UInt32) (n : PhoebusNand) {i : ℕ}
    (hi : i < pageBytes + oobBytes) :
    (finished sector status (engineRan c sector n)).buf i =
      if owner i = sector ∧ pageBytes ≤ i ∧ i < pageBytes + 24 ∧ ¬Uncorrectable status then
        (c.engine n.buf sector).tag ((i - pageBytes) % 6)
      else (engineRan c sector n).buf i := by
  by_cases hu : Uncorrectable status
  · simp [finished, hu, addFailed]
  have hbuf : (finished sector status (engineRan c sector n)).buf = Bytes.write (engineRan c sector n).buf
      (tagOff sector) 6 fun i => (engineRan c sector n).buf (scratchOff + i) := by
    rw [finished, if_neg hu]
    rfl
  rw [hbuf]
  by_cases hin : tagOff sector ≤ i ∧ i < tagOff sector + 6
  · have hown := (owner_iff hi hs).mpr (Or.inr (Or.inl hin))
    have hrange : pageBytes ≤ i ∧ i < pageBytes + 24 := by
      simp only [tagOff, pageBytes] at hin ⊢; omega
    have hidx : i - tagOff sector = (i - pageBytes) % 6 := by
      simp only [tagOff, pageBytes] at hin ⊢; omega
    rw [Bytes.write_of_mem _ _ hin, engineRan_scratch _ _ (by omega),
      if_pos ⟨hown, hrange.1, hrange.2, hu⟩, hidx]
  · rw [Bytes.write_of_notMem _ _ (by omega), if_neg]
    rintro ⟨ho, hlo, hhi, -⟩
    have hown := (owner_iff hi hs).mp ho
    simp only [tagOff, parityOff, pageBytes] at hown hin hlo hhi
    omega

theorem finishSector_eq {σ : Type} (sector : ℕ) (status : UInt32) (s : St σ) :
    finishSector sector (status &&& ~~~ 3) s =
      (if Uncorrectable status then .bad else .good (statusBits status),
        { s with n := finished sector status s.n }) := by
  unfold finishSector finished
  rw [status_mask_uncor, statusBits_mask]
  by_cases h1 : status &&& 0x100 ≠ 0
  · have h : Uncorrectable status := Or.inl h1
    rw [if_pos h1, if_pos h, if_pos h]
    rfl
  · rw [if_neg h1]
    by_cases h2 : statusBits status > 6
    · have h : Uncorrectable status := Or.inr h2
      rw [if_pos h2, if_pos h, if_pos h]
      rfl
    · have h : ¬Uncorrectable status := not_or.mpr ⟨h1, h2⟩
      rw [if_neg h2, if_neg h, if_neg h]
      rfl

/-- The record after the tag bytes of a sector have been gathered. -/
def gathered (sector : ℕ) (n : PhoebusNand) : PhoebusNand :=
  { n with buf := gather sector n.buf }

end Engine

/-! ### An engine for each sector -/

/-- What the engine makes of a sector: anything. -/
abbrev Engines := ℕ → (Fin 512 → UInt8) → (Fin 16 → UInt8) → Decoded

/-- The chip with the engine of one sector. -/
def Chip.aimedAt (c : Chip) (bch : Engines) (sector : ℕ) : Chip := { c with bch := bch sector }

/-- The hardware whose engine does for a sector what `bch` says. -/
def Chip.withEngines (c : Chip) (bch : Engines) : Hw Dev where
  rd := c.hw.rd
  wr d b r v := (c.aimedAt bch ((d.core.eccData - c.dma).toNat / 512)).hw.wr d b r v
  budget := c.hw.budget

section Engines

variable {c : Chip} {bch : Engines} {sector : ℕ}

theorem rdCore_aimedAt (core : Core) (t : ℕ) (r : Reg) :
    (c.aimedAt bch sector).rdCore core t r = c.rdCore core t r := by
  cases r <;> rfl

/-- Only the write that starts an engine depends on which one it is. -/
theorem wrCore_aimedAt (core : Core) (b : Bytes) {r : Reg} (hr : r ≠ .eccTrig) (v : UInt32) :
    (c.aimedAt bch sector).wrCore core b r v = c.wrCore core b r v := by
  cases r
  case eccTrig => exact absurd rfl hr
  all_goals rfl

theorem rd_withEngines (sector : ℕ) (r : Reg) :
    rd (c.withEngines bch) r = rd (c.aimedAt bch sector).hw r := by
  funext s
  simp only [rd, Chip.withEngines, Chip.hw, rdCore_aimedAt]

theorem wr_withEngines (sector : ℕ) {r : Reg} (hr : r ≠ .eccTrig) (v : UInt32) :
    wr (c.withEngines bch) r v = wr (c.aimedAt bch sector).hw r v := by
  funext s
  simp only [wr, Chip.withEngines, Chip.hw, wrCore_aimedAt _ _ hr]

theorem pollLoop_withEngines (sector : ℕ) (r : Reg) (done : UInt32 → Bool) (k : ℕ) :
    pollLoop (c.withEngines bch) r done k = pollLoop (c.aimedAt bch sector).hw r done k := by
  induction k with
  | zero => rw [pollLoop, pollLoop, rd_withEngines sector]
  | succ k ih => rw [pollLoop, pollLoop, rd_withEngines sector, ih]

/-- The engine is started when the data register points to the sector. -/
theorem trig_withEngines (hs : sector < 4) {s : St Dev}
    (hdata : s.hw.core.eccData = c.dma + UInt32.ofNat (sector * 512)) :
    wr (c.withEngines bch) .eccTrig 0 s = wr (c.aimedAt bch sector).hw .eccTrig 0 s := by
  have hoff : (s.hw.core.eccData - c.dma).toNat / 512 = sector := by
    rw [hdata, dma_offset c.dma (by omega)]
    exact Nat.mul_div_cancel sector (by decide)
  have hwr : (c.withEngines bch).wr s.hw s.n.buf .eccTrig 0 =
      (c.aimedAt bch sector).hw.wr s.hw s.n.buf .eccTrig 0 := by
    rw [← hoff]
    rfl
  unfold wr
  rw [hwr]

/-- What `bch_decode` does before it starts the engine. -/
def aimEngine {σ : Type} (hw : Hw σ) (sector : ℕ) : Prog (St σ) Unit := do
  let cfg ← rd hw .eccCfg
  wr hw .eccCfg (cfg &&& ~~~ 0x30000000 ||| 0x00100000)
  wr hw .eccIrq 1
  let dma ← Prog.read fun s => s.n.dma
  wr hw .eccTag (dma + UInt32.ofNat scratchOff)
  wr hw .eccData (dma + UInt32.ofNat (sector * 512))
  upd fun n => { n with bchSectors := n.bchSectors + 1, lastEccPage := n.lastPage }

/-- What `bch_decode` does once the engine has been started. -/
def awaitEngine {σ : Type} (hw : Hw σ) : Prog (St σ) (Int × UInt32) := do
  let x ← readPollTimeout hw .eccStatus eccIdle
  upd fun n => { n with lastEcc := x.2 }
  pure x

theorem runEngine_eq {σ : Type} (hw : Hw σ) (sector : ℕ) (s : St σ) :
    runEngine hw sector s = awaitEngine hw (wr hw .eccTrig 0 (aimEngine hw sector s).2).2 := rfl

theorem runEngine_withEngines (hs : sector < 4) {s : St Dev} (hdma : s.n.dma = c.dma) :
    runEngine (c.withEngines bch) sector s = runEngine (c.aimedAt bch sector).hw sector s := by
  have haim : aimEngine (c.withEngines bch) sector = aimEngine (c.aimedAt bch sector).hw sector := by
    simp only [aimEngine, rd_withEngines sector, wr_withEngines sector (r := .eccCfg) nofun,
      wr_withEngines sector (r := .eccIrq) nofun, wr_withEngines sector (r := .eccTag) nofun,
      wr_withEngines sector (r := .eccData) nofun]
  have hdata : (aimEngine (c.aimedAt bch sector).hw sector s).2.hw.core.eccData =
      c.dma + UInt32.ofNat (sector * 512) := by
    rw [← hdma]
    rfl
  have hawait : awaitEngine (c.withEngines bch) = awaitEngine (c.aimedAt bch sector).hw := by
    unfold awaitEngine readPollTimeout
    simp only [pollLoop_withEngines sector]
    rfl
  rw [runEngine_eq, runEngine_eq, haim, hawait, trig_withEngines hs hdata]

/-- What `bch_decode` does with an erased sector. -/
def blankSector {σ : Type} (sector : ℕ) (ret : Int) : Prog (St σ) SectorRet := do
  upd fun n => { n with buf := blank sector n.buf }
  upd (addCorrected ret.toNat)
  pure (.good ret.toNat)

/-- What `bch_decode` does when the poll of the engine has ended. -/
def judgeSector {σ : Type} (sector : ℕ) (x : Int × UInt32) : Prog (St σ) SectorRet :=
  if x.1 ≠ 0 then do
    upd setPoisoned
    pure (.stop x.1)
  else finishSector sector x.2

/-- The test for an erased sector, on the buffer. -/
def erasedIn (sector : ℕ) (b : Bytes) : Int :=
  erasedSector (fun i => b (sector * 512 + i)) (fun i => b (scratchOff + i))

theorem bchSector_eq {σ : Type} (hw : Hw σ) (sector : ℕ) :
    bchSector hw sector = (do
      upd (gathered sector)
      let ret ← Prog.read fun s => erasedIn sector s.n.buf
      if ret ≥ 0 then blankSector sector ret
      else do
        let x ← runEngine hw sector
        judgeSector sector x) := rfl

/-- The state once the tag bytes of a sector have been gathered. -/
def gatheredSt {σ : Type} (sector : ℕ) (s : St σ) : St σ := { s with n := gathered sector s.n }

theorem bchSector_run {σ : Type} (hw : Hw σ) (sector : ℕ) (s : St σ) :
    bchSector hw sector s =
      if erasedIn sector (gatheredSt sector s).n.buf ≥ 0 then
        blankSector sector (erasedIn sector (gatheredSt sector s).n.buf) (gatheredSt sector s)
      else
        judgeSector sector (runEngine hw sector (gatheredSt sector s)).1
          (runEngine hw sector (gatheredSt sector s)).2 := by
  have hupd : (upd (gathered sector) s).2 = gatheredSt sector s := rfl
  rw [bchSector_eq, Prog.bind_run, Prog.bind_run, Prog.read_run, Prog.ite_run, Prog.bind_run, hupd]

theorem bchSector_withEngines (hs : sector < 4) {s : St Dev} (hdma : s.n.dma = c.dma) :
    bchSector (c.withEngines bch) sector s = bchSector (c.aimedAt bch sector).hw sector s := by
  have hrun : runEngine (c.withEngines bch) sector (gatheredSt sector s) =
      runEngine (c.aimedAt bch sector).hw sector (gatheredSt sector s) :=
    runEngine_withEngines hs hdma
  rw [bchSector_run, bchSector_run, hrun]

end Engines

/-! ### Starts of the engine -/

/-- What an access does to the data register and to the list of the addresses the engine was started
    on. -/
def engineStart (x : UInt32 × List UInt32) (e : Event) : UInt32 × List UInt32 :=
  match e.access with
  | .wr .eccData v => (v, x.2)
  | .wr .eccTrig _ => (x.1, x.2 ++ [x.1])
  | _ => x

/-- The addresses the engine was started on, in order. -/
def engineStarts (l : List Event) : List UInt32 := (l.foldl engineStart (0, [])).2

section Starts

variable {σ : Type} {hw : Hw σ} {sector : ℕ}

/-- Only reads. -/
def Reads (l : List Event) : Prop := ∀ e ∈ l, ∃ r v, e.access = .rd r v

theorem foldl_engineStart_reads {l : List Event} (h : Reads l) (x : UInt32 × List UInt32) :
    l.foldl engineStart x = x := by
  induction l with
  | nil => rfl
  | cons e l ih =>
    obtain ⟨r, v, he⟩ := h e mem_cons_self
    rw [foldl_cons, engineStart, he]
    exact ih fun e he => h e (mem_cons_of_mem _ he)

theorem pollLoop_reads (r : Reg) (done : UInt32 → Bool) (k : ℕ) (s : St σ) :
    ∃ polls, Reads polls ∧ (pollLoop hw r done k s).2.log = s.log ++ polls := by
  have hone : ∀ s : St σ, ∃ e, Reads [e] ∧ (rd hw r s).2.log = s.log ++ [e] := by
    intro s
    refine ⟨⟨s.n.poisoned, .rd r (hw.rd s.hw s.n.buf r).1⟩, ?_, rfl⟩
    intro e he
    obtain rfl := mem_singleton.mp he
    exact ⟨_, _, rfl⟩
  induction k generalizing s with
  | zero =>
    obtain ⟨e, he, hlog⟩ := hone s
    exact ⟨[e], he, hlog⟩
  | succ k ih =>
    obtain ⟨e, he, hlog⟩ := hone s
    rw [pollLoop, Prog.bind_run, Prog.ite_run]
    by_cases hdone : done (rd hw r s).1 = true
    · rw [if_pos hdone]
      exact ⟨[e], he, hlog⟩
    · rw [if_neg hdone]
      obtain ⟨polls, hpolls, hrest⟩ := ih (rd hw r s).2
      refine ⟨e :: polls, ?_, ?_⟩
      · intro e' he'
        rcases mem_cons.mp he' with rfl | he'
        · exact he e' (mem_singleton.mpr rfl)
        · exact hpolls e' he'
      · rw [hrest, hlog, append_assoc]
        rfl

theorem awaitEngine_reads (hw : Hw σ) (s : St σ) :
    ∃ polls, Reads polls ∧ (awaitEngine hw s).2.log = s.log ++ polls :=
  pollLoop_reads .eccStatus eccIdle (hw.budget s.hw + 1) s

theorem runEngine_starts (s : St σ) :
    engineStarts (runEngine hw sector s).2.log =
      engineStarts s.log ++ [s.n.dma + UInt32.ofNat (sector * 512)] := by
  obtain ⟨polls, hpolls, hlog⟩ := awaitEngine_reads hw
    (wr hw .eccTrig 0 (aimEngine hw sector s).2).2
  rw [runEngine_eq, hlog, engineStarts, foldl_append, foldl_engineStart_reads hpolls]
  simp only [aimEngine, wr, rd, upd, Prog.bind_run, Prog.read_run, Prog.modify_run,
    foldl_append, foldl_cons, foldl_nil, engineStart]
  rfl

theorem judgeSector_log (x : Int × UInt32) (s : St σ) : (judgeSector sector x s).2.log = s.log := by
  unfold judgeSector finishSector
  rw [Prog.ite_run, Prog.ite_run, Prog.ite_run]
  split_ifs <;> rfl

/-- The engine is started once for a sector that is not erased. -/
theorem bchSector_starts (hw : Hw σ) (sector : ℕ) (s : St σ) :
    engineStarts (bchSector hw sector s).2.log =
      engineStarts s.log ++ if erasedIn sector (gatheredSt sector s).n.buf ≥ 0 then []
        else [s.n.dma + UInt32.ofNat (sector * 512)] := by
  rw [bchSector_run]
  by_cases herased : erasedIn sector (gatheredSt sector s).n.buf ≥ 0
  · rw [if_pos herased, if_pos herased, append_nil]
    rfl
  · rw [if_neg herased, if_neg herased, judgeSector_log]
    exact runEngine_starts _

end Starts

/-! ### One sector -/

/-- The record after `bch_decode` has dealt with a sector. -/
def decodedRecord (c : Chip) (raw : Bytes) (sector : ℕ) (n : PhoebusNand) : PhoebusNand :=
  if zeroBits raw sector ≤ 4 then
    addCorrected (zeroBits raw sector) { n with buf := blank sector (gather sector n.buf) }
  else finished sector (c.decodedAt raw sector).status (engineRan c sector (gathered sector n))

/-- What decoding one sector in the buffer does to the record. -/
structure SectorDone (c : Chip) (raw : Bytes) (sector : ℕ) (n n' : PhoebusNand) : Prop where
  kept : Kept n n'
  page : ∀ i < pageBytes + oobBytes, n'.buf i =
    if owner i = sector then (c.decodeSector raw sector).bytes i else n.buf i
  corrected : n'.corrected = n.corrected + (c.decodeSector raw sector).outcome.getD 0
  eccStatsCorrected : n'.eccStatsCorrected =
    n.eccStatsCorrected + (c.decodeSector raw sector).outcome.getD 0
  failed : n'.failed = n.failed + if (c.decodeSector raw sector).outcome = none then 1 else 0
  eccStatsFailed : n'.eccStatsFailed =
    n.eccStatsFailed + if (c.decodeSector raw sector).outcome = none then 1 else 0

section Step

variable {c : Chip} {sector : ℕ} {raw : Bytes} {s : St Dev}

/-- No byte of another sector changes. -/
theorem decodedRecord_page {n : PhoebusNand} (hs : sector < 4) (hraw : Untouched raw sector n.buf) {i : ℕ}
    (hi : i < pageBytes + oobBytes) : (decodedRecord c raw sector n).buf i =
      if owner i = sector then (c.decodeSector raw sector).bytes i else n.buf i := by
  by_cases h4 : zeroBits raw sector ≤ 4
  · rw [decodedRecord, if_pos h4, decodeSector_erased h4, ← gather_page sector n.buf hi]
    exact blank_page hs _ hi
  · have heng : c.engine (gathered sector n).buf sector = c.decodedAt raw sector := engine_gather hraw hs
    have hgather : (gathered sector n).buf i = n.buf i := gather_page _ _ hi
    rw [decodedRecord, if_neg h4, decodeSector_engine h4, finished_page hs _ _ hi, engineRan_page hs _ hi,
      heng, hgather]
    by_cases ho : owner i = sector
    · by_cases hu : Uncorrectable (c.decodedAt raw sector).status
      · simp [ho, hu, hraw i hi ho]
      · simp only [ho, hu, true_and, not_false_eq_true, and_true, if_true, hraw i hi ho]
        split_ifs <;> first | rfl | omega
    · simp [ho]

theorem decodedRecord_done {n : PhoebusNand} (hs : sector < 4) (hraw : Untouched raw sector n.buf) :
    SectorDone c raw sector n (decodedRecord c raw sector n) := by
  have hpage := fun i => @decodedRecord_page c sector raw n hs hraw i
  by_cases h4 : zeroBits raw sector ≤ 4
  · rw [decodedRecord, if_pos h4] at hpage ⊢
    refine ⟨⟨rfl, rfl⟩, hpage, ?_, ?_, ?_, ?_⟩ <;> rw [decodeSector_erased h4] <;> rfl
  · rw [decodedRecord, if_neg h4, finished] at hpage ⊢
    have hout := congrArg Sector.outcome (decodeSector_engine (c := c) h4)
    by_cases hu : Uncorrectable (c.decodedAt raw sector).status
    · rw [if_pos hu] at hpage hout ⊢
      refine ⟨⟨rfl, rfl⟩, hpage, ?_, ?_, ?_, ?_⟩ <;> rw [hout] <;> rfl
    · rw [if_neg hu] at hpage hout ⊢
      refine ⟨⟨rfl, rfl⟩, hpage, ?_, ?_, ?_, ?_⟩ <;> rw [hout] <;> rfl

theorem erasedIn_gathered (hraw : Untouched raw sector s.n.buf) (hs : sector < 4) :
    erasedIn sector (gatheredSt sector s).n.buf =
      if zeroBits raw sector ≤ 4 then (zeroBits raw sector : Int) else -1 := by
  have heq : erasedIn sector (gatheredSt sector s).n.buf =
      erasedSector (sectorData raw sector) (sectorTag raw sector) := erasedSector_gather hraw hs
  rw [heq, erasedSector, ← zeroBits]

theorem erasedIn_iff (hraw : Untouched raw sector s.n.buf) (hs : sector < 4) :
    erasedIn sector (gatheredSt sector s).n.buf ≥ 0 ↔ zeroBits raw sector ≤ 4 := by
  rw [erasedIn_gathered hraw hs]
  split_ifs <;> omega

/-- The body of the sector loop decodes its sector. -/
theorem bchSector_gives (hecc : c.EccPrompt) (hs : sector < 4) (hdma : s.n.dma = c.dma)
    (hraw : Untouched raw sector s.n.buf) :
    (bchSector c.hw sector s).1 = sectorRet (c.decodeSector raw sector).outcome ∧
      (bchSector c.hw sector s).2.n = decodedRecord c raw sector s.n := by
  rw [bchSector_run]
  by_cases h4 : zeroBits raw sector ≤ 4
  · rw [if_pos ((erasedIn_iff hraw hs).mpr h4), erasedIn_gathered hraw hs, if_pos h4, decodeSector_erased h4,
      decodedRecord, if_pos h4]
    exact ⟨rfl, rfl⟩
  · rw [if_neg fun h => h4 ((erasedIn_iff hraw hs).mp h), decodeSector_engine h4, decodedRecord, if_neg h4]
    obtain ⟨hret, hend⟩ := runEngine_runs hecc (n := (gatheredSt sector s).n) hdma hs _ (gatheredSt sector s) rfl
    have heng : c.engine (gatheredSt sector s).n.buf sector = c.decodedAt raw sector := engine_gather hraw hs
    have hn : (runEngine c.hw sector (gatheredSt sector s)).2.n = _ := (Prod.mk.inj hend).1
    rw [hret, heng, judgeSector, if_neg (not_not.mpr rfl), finishSector_eq]
    refine ⟨?_, congrArg (finished sector (c.decodedAt raw sector).status) hn⟩
    by_cases hu : Uncorrectable (c.decodedAt raw sector).status <;> simp [hu, sectorRet]

theorem bchSector_step (bch : Engines) (hecc : c.EccPrompt) (hs : sector < 4) (hdma : s.n.dma = c.dma)
    (hraw : Untouched raw sector s.n.buf) :
    (bchSector (c.withEngines bch) sector s).1 =
        sectorRet ((c.aimedAt bch sector).decodeSector raw sector).outcome ∧
      SectorDone (c.aimedAt bch sector) raw sector s.n (bchSector (c.withEngines bch) sector s).2.n ∧
      engineStarts (bchSector (c.withEngines bch) sector s).2.log =
        engineStarts s.log ++ if zeroBits raw sector ≤ 4 then []
          else [s.n.dma + UInt32.ofNat (sector * 512)] := by
  have hstarts := bchSector_starts (c.withEngines bch) sector s
  simp only [erasedIn_iff hraw hs] at hstarts
  obtain ⟨hret, hn⟩ := bchSector_gives (c := c.aimedAt bch sector) hecc hs hdma hraw
  rw [← bchSector_withEngines hs hdma] at hret hn
  refine ⟨hret, ?_, hstarts⟩
  rw [hn]
  exact decodedRecord_done hs hraw

end Step

/-! ### Verdicts -/

/-- The result of a loop that has seen `l` after the accumulators stood at `e` and `m`. -/
def verdictFrom (e : Bool) (m : ℕ) (l : List (Option ℕ)) : Int :=
  if e = true ∨ none ∈ l then -ebadmsg else (max m (worst l) : ℕ)

theorem verdict_eq (l : List (Option ℕ)) : verdict l = verdictFrom false 0 l := by
  simp [verdict, verdictFrom]

theorem verdictFrom_none (e : Bool) (m : ℕ) (l : List (Option ℕ)) :
    verdictFrom e m (none :: l) = verdictFrom true m l := by
  simp [verdictFrom]

theorem verdictFrom_some (e : Bool) (m bits : ℕ) (l : List (Option ℕ)) :
    verdictFrom e m (some bits :: l) = verdictFrom e (max m bits) l := by
  simp [verdictFrom, worst, max_assoc]

theorem worst_append (l l' : List (Option ℕ)) : worst (l ++ l') = max (worst l) (worst l') := by
  induction l with
  | nil => simp [worst]
  | cons o l ih =>
    simp only [worst, cons_append, map_cons, foldr_cons] at ih ⊢
    rw [ih, max_assoc]

/-- A page's verdict enters the accumulators of the read. -/
theorem verdictFrom_append (e : Bool) (m : ℕ) (l l' : List (Option ℕ)) :
    verdictFrom e m (l ++ l') =
      verdictFrom (e || verdict l == -ebadmsg)
        (max m (if verdict l = -ebadmsg then 0 else verdict l).toNat) l' := by
  by_cases h : none ∈ l
  · have hv : verdict l = -ebadmsg := if_pos h
    simp [verdictFrom, h, hv]
  · have hv : verdict l = worst l := if_neg h
    have hne : verdict l ≠ -ebadmsg := by
      rw [hv]; simp only [ebadmsg]; omega
    simp [verdictFrom, h, hv, worst_append, max_assoc, hv ▸ hne]

/-- An uncorrectable page counts as no corrected bits. -/
theorem verdict_nonneg (l : List (Option ℕ)) :
    0 ≤ (if verdict l = -ebadmsg then 0 else verdict l) := by
  unfold verdict
  by_cases h : none ∈ l
  · rw [if_pos h, if_pos rfl]
  · rw [if_neg h]
    split <;> omega

/-! ### The sector loop -/

/-- What the engines make of a sector of a page. -/
def Chip.sectorOf (c : Chip) (bch : Engines) (raw : Bytes) (sector : ℕ) : Sector :=
  (c.aimedAt bch sector).decodeSector raw sector

/-- What the loop over the sectors `l` does to the state. -/
structure SectorsDone (c : Chip) (bch : Engines) (raw : Bytes) (l : List ℕ) (s s' : St Dev) :
    Prop where
  kept : Kept s.n s'.n
  page : ∀ i < pageBytes + oobBytes, s'.n.buf i =
    if owner i ∈ l then (c.sectorOf bch raw (owner i)).bytes i else s.n.buf i
  corrected : s'.n.corrected =
    s.n.corrected + (l.map fun k => (c.sectorOf bch raw k).outcome.getD 0).sum
  eccStatsCorrected : s'.n.eccStatsCorrected =
    s.n.eccStatsCorrected + (l.map fun k => (c.sectorOf bch raw k).outcome.getD 0).sum
  failed : s'.n.failed =
    s.n.failed + (l.map fun k => if (c.sectorOf bch raw k).outcome = none then 1 else 0).sum
  eccStatsFailed : s'.n.eccStatsFailed =
    s.n.eccStatsFailed + (l.map fun k => if (c.sectorOf bch raw k).outcome = none then 1 else 0).sum
  starts : engineStarts s'.log = engineStarts s.log ++
    (l.filter fun k => 4 < zeroBits raw k).map fun k => s.n.dma + UInt32.ofNat (k * 512)

section Loop

variable {c : Chip} {bch : Engines} {raw : Bytes} {sector : ℕ} {l : List ℕ}

theorem SectorsDone.nil {s : St Dev} : SectorsDone c bch raw [] s s :=
  ⟨⟨rfl, rfl⟩, fun i _ => by simp, rfl, rfl, rfl, rfl, (append_nil _).symm⟩

theorem SectorsDone.cons {s s₁ s' : St Dev} (hnot : sector ∉ l)
    (h : SectorDone (c.aimedAt bch sector) raw sector s.n s₁.n)
    (hstarts : engineStarts s₁.log = engineStarts s.log ++ if zeroBits raw sector ≤ 4 then []
      else [s.n.dma + UInt32.ofNat (sector * 512)])
    (h' : SectorsDone c bch raw l s₁ s') : SectorsDone c bch raw (sector :: l) s s' where
  kept := ⟨h'.kept.1.trans h.kept.1, h'.kept.2.trans h.kept.2⟩
  page i hi := by
    rw [h'.page i hi, h.page i hi]
    by_cases ho : owner i = sector
    · simp [ho, hnot, Chip.sectorOf]
    · simp [ho]
  corrected := by rw [h'.corrected, h.corrected, map_cons, sum_cons, ← Nat.add_assoc]; rfl
  eccStatsCorrected := by
    rw [h'.eccStatsCorrected, h.eccStatsCorrected, map_cons, sum_cons, ← Nat.add_assoc]; rfl
  failed := by rw [h'.failed, h.failed, map_cons, sum_cons, ← Nat.add_assoc]; rfl
  eccStatsFailed := by
    rw [h'.eccStatsFailed, h.eccStatsFailed, map_cons, sum_cons, ← Nat.add_assoc]; rfl
  starts := by
    rw [h'.starts, hstarts, h.kept.2]
    by_cases h4 : zeroBits raw sector ≤ 4
    · rw [if_pos h4, filter_cons_of_neg (by simpa using h4), append_nil]
    · rw [if_neg h4, filter_cons_of_pos (by simpa using h4), map_cons, append_assoc,
        singleton_append]

theorem bchLoop_done (bch : Engines) (hecc : c.EccPrompt) {s : St Dev} (maxBits : ℕ) (eccError : Bool)
    (hnodup : l.Nodup) (hlt : ∀ k ∈ l, k < 4) (hdma : s.n.dma = c.dma)
    (hraw : ∀ k ∈ l, Untouched raw k s.n.buf) :
    (bchLoop (c.withEngines bch) l maxBits eccError s).1 =
        verdictFrom eccError maxBits (l.map fun k => (c.sectorOf bch raw k).outcome) ∧
      SectorsDone c bch raw l s (bchLoop (c.withEngines bch) l maxBits eccError s).2 := by
  induction l generalizing s maxBits eccError with
  | nil =>
    refine ⟨?_, .nil⟩
    simp [verdictFrom, worst, bchLoop]
  | cons k l ih =>
    obtain ⟨hk, hnodup⟩ := nodup_cons.mp hnodup
    obtain ⟨hret, hstep, hstarts⟩ := bchSector_step bch hecc (hlt k mem_cons_self) hdma
      (hraw k mem_cons_self)
    -- the other sectors are still as they were read
    have hraw' : ∀ j ∈ l, Untouched raw j (bchSector (c.withEngines bch) k s).2.n.buf := by
      intro j hj i hi ho
      rw [hstep.page i hi, if_neg (by rintro rfl; exact hk (ho ▸ hj))]
      exact hraw j (mem_cons_of_mem _ hj) i hi ho
    have hrest := fun m e => ih m e hnodup (fun j hj => hlt j (mem_cons_of_mem _ hj))
      (hstep.kept.2.trans hdma) hraw'
    rw [bchLoop, Prog.bind_run, hret, map_cons]
    cases hout : (c.sectorOf bch raw k).outcome with
    | none =>
      obtain ⟨hret', hdone⟩ := hrest maxBits true
      rw [Chip.sectorOf] at hout
      rw [hout, verdictFrom_none]
      exact ⟨hret', hdone.cons hk hstep hstarts⟩
    | some bits =>
      obtain ⟨hret', hdone⟩ := hrest (max maxBits bits) eccError
      rw [Chip.sectorOf] at hout
      rw [hout, verdictFrom_some]
      exact ⟨hret', hdone.cons hk hstep hstarts⟩

end Loop

end PhoebusBsp.Nand

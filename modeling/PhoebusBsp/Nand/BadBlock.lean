import PhoebusBsp.Nand.Read

/-! What `nand_isbad` answers on a working chip. The marker byte is read raw first, and only a marker
    that is not `0xff` has the page decoded.

        raw marker      answer
        0xff            0
        anything else   the verdict of the decoded page -/

namespace PhoebusBsp.Nand
open Schemes

/-- The verdict on a block from its first page, decoded as a whole: bad when a sector is uncorrectable
    or the corrected first tag byte is not `0xff`. -/
def Chip.pageVerdict (c : Chip) (raw : Bytes) : Int :=
  if none ∈ c.outcomes raw ∨ c.decodePage raw pageBytes ≠ 0xff then 1 else 0

/-- The first page of the block at a position. -/
def firstPage (pos : ℕ) : ℕ := pos / blockBytes * 64

theorem firstPage_lt {pos : ℕ} (h : pos < chipBytes) : firstPage pos < chipBytes / pageBytes := by
  simp only [firstPage, chipBytes, blockBytes, pageBytes] at h ⊢
  omega

section Isbad

variable {c : Chip}

/-- `nand_read_oob` decodes a page in the same two steps. -/
theorem readPage_placeOob (page : ℕ) : readPage c.hw .placeOob page = (do
    let ret ← snPage c.hw (UInt32.ofNat page)
    ifOk ret (bchDecode c.hw)) := by
  unfold readPage ifOk
  congr 1
  funext ret
  by_cases h : ret = 0
  · rw [if_neg (not_not.mpr h), if_pos h]
    rfl
  · rw [if_pos h, if_neg h]

/-- What `nand_isbad` makes of the result of a decode and of the marker it leaves. -/
theorem isbad_verdict (raw : Bytes) {s : St Dev} (hbuf : s.n.buf pageBytes = c.decodePage raw pageBytes) :
    ((if verdict (c.outcomes raw) = -ebadmsg then pure 1
        else if verdict (c.outcomes raw) ≥ 0 then Prog.read fun s : St Dev => markerBad s.n.buf
        else pure (verdict (c.outcomes raw)) : Prog (St Dev) Int) s).1 = c.pageVerdict raw := by
  unfold Chip.pageVerdict
  by_cases hbad : none ∈ c.outcomes raw
  · have hv : verdict (c.outcomes raw) = -ebadmsg := if_pos hbad
    rw [if_pos hv, if_pos (Or.inl hbad)]
    rfl
  · have hv : verdict (c.outcomes raw) = worst (c.outcomes raw) := if_neg hbad
    have hne : ¬verdict (c.outcomes raw) = -ebadmsg := by
      rw [hv]
      simp only [ebadmsg]
      omega
    have hge : verdict (c.outcomes raw) ≥ 0 := by
      rw [hv]
      exact Int.natCast_nonneg _
    rw [if_neg hne, if_pos hge, Prog.read_run, markerBad, hbuf]
    simp [hbad]

/-- The record once the marker has been read. -/
def markerRead (c : Chip) (page : ℕ) (n : PhoebusNand) : PhoebusNand :=
  { n with
    badQueries := n.badQueries + 1
    lastPage := UInt32.ofNat page
    buf := Bytes.write n.buf pageBytes 1 fun i => c.page page (pageBytes + i)
    markerReads := n.markerReads + 1 }

theorem markerRead_marker (page : ℕ) (n : PhoebusNand) :
    (markerRead c page n).buf pageBytes = c.page page pageBytes := by
  simp only [markerRead]
  rw [Bytes.write_of_mem _ _ ⟨le_refl pageBytes, Nat.lt_succ_self pageBytes⟩, Nat.sub_self,
    Nat.add_zero]

theorem nandIsbad_gives (hc : c.Prompt) {s : St Dev} (hs : Ready c s.n) {pos : ℕ} (hpos : pos < chipBytes) :
    (nandIsbad c.hw pos s).1 = if c.page (firstPage pos) pageBytes = 0xff then 0
      else c.pageVerdict (c.page (firstPage pos)) := by
  have hpage := firstPage_lt hpos
  -- the marker is read first
  refine (upd_runs_between _ _ _).leads ?_ s rfl
  refine (snLoadPage_runs (n := { s.n with badQueries := s.n.badQueries + 1 }) hc hs.1 hpage _).leads ?_
  rw [ifOk, if_pos rfl]
  refine (snCacheRead_runs hc _ (firstPage pos) pageBytes 1 (k := pageBytes) (by decide) (by decide)).leads ?_
  rw [if_neg (by decide)]
  refine (upd_runs_between _ _ _).leads fun s₁ hs₁ => ?_
  have hn : s₁.n = markerRead c (firstPage pos) s.n := (Prod.mk.inj hs₁).1
  have hmarker : s₁.n.buf pageBytes = c.page (firstPage pos) pageBytes := by
    rw [hn, markerRead_marker]
  rw [Prog.bind_run, Prog.read_run, ← hmarker]
  by_cases hff : s₁.n.buf pageBytes = 0xff
  · rw [if_pos hff, if_pos hff, Prog.pure_run]
    exact if_neg (not_not.mpr hff)
  · obtain ⟨hret, -, hbuf⟩ := readPage_gives (s := s₁) hc (hn ▸ hs) .placeOob hpage
    rw [if_neg hff, if_neg hff, ← Prog.bind_assoc, ← firstPage, ← readPage_placeOob, Prog.bind_run, hret]
    exact isbad_verdict _ (hbuf pageBytes (by decide))

/-- The answer: 0 for a raw marker of `0xff`, and else the verdict of the decoded page. So it is the
    verdict of the decoded page exactly when the raw marker is not `0xff` or that verdict is 0. -/
theorem nandIsbad_answers (hc : c.Prompt) {s : St Dev} (hs : Ready c s.n) {pos : ℕ}
    (hpos : pos < chipBytes) :
    let raw := c.page (firstPage pos)
    let ret := (nandIsbad c.hw pos s).1
    ret = (if raw pageBytes = 0xff then 0 else c.pageVerdict raw) ∧
      (ret = c.pageVerdict raw ↔ raw pageBytes ≠ 0xff ∨ c.pageVerdict raw = 0) := by
  intro raw ret
  have hret : ret = if raw pageBytes = 0xff then 0 else c.pageVerdict raw := nandIsbad_gives hc hs hpos
  refine ⟨hret, ?_⟩
  rw [hret]
  by_cases hff : raw pageBytes = 0xff
  · simp only [hff, if_true, ne_eq, not_true_eq_false, false_or]
    exact eq_comm
  · simp [hff]

end Isbad

/-- A chip that is never busy, whose markers are `p` and whose other bytes are 0, and whose engine
    gives up. -/
def unreadableChip (marker : UInt8) : Chip :=
  ⟨fun _ i => if i = pageBytes then marker else 0, fun _ _ => ⟨fun _ => 0, fun _ => 0, 0x100⟩,
    fun _ => 0, fun _ => 0, fun _ _ => 0, fun _ => 0, 0, 0⟩

theorem unreadableChip_prompt (marker : UInt8) : (unreadableChip marker).Prompt where
  sn _ := ⟨0, Nat.zero_le _, (by decide : snIdle 0 = true)⟩
  ecc _ := ⟨0, Nat.zero_le _, (by decide : eccIdle 0 = true)⟩
  load _ := ⟨0, by decide, (by decide : (0 : UInt8) &&& 1 = 0)⟩

theorem unreadableChip_bad (marker : UInt8) (page : ℕ) :
    (unreadableChip marker).pageVerdict ((unreadableChip marker).page page) = 1 := by
  have hzeros : flips (sectorData ((unreadableChip marker).page page) 1) 512 = 4096 := by
    have hzero : ∀ i < 512, sectorData ((unreadableChip marker).page page) 1 i = 0 := by
      intro i hi
      refine if_neg ?_
      simp only [pageBytes]
      omega
    have hflips : flips (fun _ => 0) 512 = 4096 := by decide +kernel
    exact (flips_congr hzero).trans hflips
  have hsector : ((unreadableChip marker).decodeSector ((unreadableChip marker).page page) 1).outcome =
      none := by
    have hstatus : Uncorrectable 0x100 := by decide
    unfold Chip.decodeSector
    rw [hzeros, if_neg (by omega)]
    simp [unreadableChip, hstatus]
  refine if_pos (Or.inl ?_)
  rw [← hsector]
  exact List.mem_map_of_mem (by decide)

def sampleSt : St Dev := boot (fun _ => 0) ⟨0, ⟨.idle, 0, 0, 0, 0, 0, 0⟩⟩

/-- A block whose marker reads `0x00` and whose first page cannot be decoded. -/
theorem nandIsbad_answers_unreadable :
    (nandIsbad (unreadableChip 0).hw 200000 sampleSt).1 = 1 := by
  have hpos : 200000 < chipBytes := by decide
  have h := nandIsbad_answers (unreadableChip_prompt 0) (s := sampleSt) ⟨rfl, rfl⟩ hpos
  rw [h.1, if_neg (by decide)]
  exact unreadableChip_bad 0 _

/-- The same block with a raw marker of `0xff` passes for good. -/
theorem nandIsbad_trusts_marker :
    (unreadableChip 0xff).Prompt ∧ Ready (unreadableChip 0xff) sampleSt.n ∧
    (unreadableChip 0xff).pageVerdict ((unreadableChip 0xff).page (firstPage 200000)) = 1 ∧
    (nandIsbad (unreadableChip 0xff).hw 200000 sampleSt).1 = 0 := by
  have hpos : 200000 < chipBytes := by decide
  have hret := nandIsbad_gives (unreadableChip_prompt 0xff) (s := sampleSt) ⟨rfl, rfl⟩ hpos
  rw [if_pos (by decide)] at hret
  exact ⟨unreadableChip_prompt 0xff, ⟨rfl, rfl⟩, unreadableChip_bad 0xff _, hret⟩

end PhoebusBsp.Nand

import PhoebusBsp.Nat25.Expired

/-! Received frames, with and without a VLAN tag.

        │ DA │ SA │8100│ t │ type ...            the addresses move four bytes on, the frame starts there
                │ DA │ SA │ type ...             looked up, perhaps shorter then
        │ DA │ SA │8100│ t │ type ...            the addresses move back, the tag is written again

    What is looked up is the frame without its tag, so that the two differ in nothing but the tag; unless
    the frame in the tag has a tag of its own, which is not looked into. -/

namespace PhoebusBsp.Nat25
open Schemes Bytes List

/-! ### Tags -/

def ethP8021Q : ℕ := 0x8100

/-- `skb_pull(skb, n)`. -/
def Skb.pull (skb : Skb) (n : ℕ) : Skb := ⟨behind skb.data n, skb.len - n, skb.size - n⟩

/-- `skb_push(skb, n)`, with what is in front of the frame. -/
def Skb.push (skb : Skb) (front : Bytes) (n : ℕ) : Skb := ⟨putBehind front n skb.data, skb.len + n, skb.size + n⟩

/-- The addresses move over the tag, the last two bytes first. -/
def shiftAddresses (b : Bytes) : Bytes := (List.range 6).foldl (fun b i => b.memcpy (14 - i * 2) b (10 - i * 2) 2) b

/-- The addresses move back, the first two bytes first. -/
def unshiftAddresses (b : Bytes) : Bytes := (List.range 6).foldl (fun b i => b.memcpy (i * 2) b (4 + i * 2) 2) b

/-- The frame without its tag. -/
def stripVlan (skb : Skb) : Skb := ({ skb with data := shiftAddresses skb.data } : Skb).pull 4

/-- The tag again. -/
def restoreVlan (skb : Skb) (front : Bytes) (vlanHdr : ℕ) : Skb :=
  let skb := skb.push front 4
  { skb with data := ((unshiftAddresses skb.data).putBe16 12 ethP8021Q).putBe16 14 vlanHdr }

/-- A frame with a tag behind its addresses. -/
def Skb.tagWith (skb : Skb) (t : UInt16) : Skb where
  data i :=
    if i < 12 then skb.data i
    else if i < 16 then (be16Bytes ethP8021Q ++ be16Bytes t.toNat).getD (i - 12) 0
    else skb.data (i - 4)
  len := skb.len + 4
  size := skb.size + 4

section Tags

variable (skb : Skb) (t : UInt16)

/-- Each round of the loop moves two bytes more, from the back. -/
theorem shift_rounds (b : Bytes) {n : ℕ} (hn : n ≤ 6) :
    (List.range n).foldl (fun b i => b.memcpy (14 - i * 2) b (10 - i * 2) 2) b =
      fun i => if 16 - 2 * n ≤ i ∧ i < 16 then b (i - 4) else b i := by
  induction n with
  | zero =>
    funext i
    exact (if_neg (by omega)).symm
  | succ n ih =>
    rw [range_succ, foldl_append, ih (by omega), foldl_cons, foldl_nil]
    funext i
    simp only [memcpy, write]
    by_cases hnew : 14 - n * 2 ≤ i ∧ i < 14 - n * 2 + 2
    · rw [if_pos hnew, if_neg (by omega), if_pos (by omega)]
      congr 1
      omega
    · rw [if_neg hnew]
      by_cases hold : 16 - 2 * n ≤ i ∧ i < 16
      · rw [if_pos hold, if_pos (by omega)]
      · rw [if_neg hold, if_neg (by omega)]

theorem unshift_rounds (b : Bytes) (n : ℕ) :
    (List.range n).foldl (fun b i => b.memcpy (i * 2) b (4 + i * 2) 2) b =
      fun i => if i < 2 * n then b (4 + i) else b i := by
  induction n with
  | zero => rfl
  | succ n ih =>
    rw [range_succ, foldl_append, ih, foldl_cons, foldl_nil]
    funext i
    simp only [memcpy, write]
    by_cases hnew : n * 2 ≤ i ∧ i < n * 2 + 2
    · rw [if_pos hnew, if_neg (by omega), if_pos (by omega)]
      congr 1
      omega
    · rw [if_neg hnew]
      by_cases hold : i < 2 * n
      · rw [if_pos hold, if_pos (by omega)]
      · rw [if_neg hold, if_neg (by omega)]

theorem stripVlan_tagWith : stripVlan (skb.tagWith t) = skb := by
  have hdata : (stripVlan (skb.tagWith t)).data = skb.data := by
    funext i
    simp only [stripVlan, Skb.pull, behind, shiftAddresses, shift_rounds _ le_rfl, Skb.tagWith]
    by_cases hi : i < 12
    · rw [if_pos (by omega), if_pos (by omega)]
      congr 1
      omega
    · rw [if_neg (by omega), if_neg (by omega), if_neg (by omega)]
      congr 1
      omega
  have hlen : (stripVlan (skb.tagWith t)).len = skb.len := Nat.add_sub_cancel ..
  have hsize : (stripVlan (skb.tagWith t)).size = skb.size := Nat.add_sub_cancel ..
  calc stripVlan (skb.tagWith t)
      = ⟨(stripVlan (skb.tagWith t)).data, (stripVlan (skb.tagWith t)).len, (stripVlan (skb.tagWith t)).size⟩ := rfl
    _ = skb := by rw [hdata, hlen, hsize]

theorem restoreVlan_eq (front : Bytes) : restoreVlan skb front t.toNat = skb.tagWith t := by
  have hdata : (restoreVlan skb front t.toNat).data = (skb.tagWith t).data := by
    funext i
    simp only [restoreVlan, Skb.push, unshiftAddresses, unshift_rounds, Skb.tagWith]
    by_cases htag : 12 ≤ i ∧ i < 16
    · obtain rfl | rfl | rfl | rfl : i = 12 ∨ i = 13 ∨ i = 14 ∨ i = 15 := by omega
      all_goals rfl
    · rw [putBe16_of_notMem _ _ (by omega), putBe16_of_notMem _ _ (by omega)]
      simp only [putBehind]
      by_cases hi : i < 12
      · rw [if_pos hi, if_pos hi, if_neg (by omega), Nat.add_sub_cancel_left]
      · rw [if_neg hi, if_neg hi, if_neg (by omega), if_neg (by omega)]
  exact congrArg (fun data => (⟨data, skb.len + 4, skb.size + 4⟩ : Skb)) hdata

theorem protocol_tagWith : (skb.tagWith t).protocol = ethP8021Q := by
  have hholds : (skb.tagWith t).data.Holds 12 (be16Bytes ethP8021Q) :=
    holds_cons.mpr ⟨rfl, holds_cons.mpr ⟨rfl, holds_nil⟩⟩
  exact hholds.be16

theorem vlanHdr_tagWith : (skb.tagWith t).data.be16 14 = t.toNat := by
  have hholds : (skb.tagWith t).data.Holds 14 (be16Bytes t.toNat) :=
    holds_cons.mpr ⟨rfl, holds_cons.mpr ⟨rfl, holds_nil⟩⟩
  rw [hholds.be16]
  exact Nat.mod_eq_of_lt t.toNat_lt

end Tags

/-! ### Received frames -/

/-- What `nat25_handle_frame` reads besides. -/
structure FrameConfig extends Config where
  /-- `NOT_RTK_BSP`. -/
  notRtkBsp : Bool
  nat25scDisable : Bool
  brIp : UInt32

/-- What is done with the frame without its tag. -/
def translateFrame (cfg : FrameConfig) (e : Env) (s : Wlan) (skb : Skb) : Option (Int × Skb × Wlan) :=
  let priv := s.pppoe.priv
  if !priv.nat25Disable then
    if !cfg.nat25scDisable ∧ skb.protocol = ethPIp ∧ priv.scdbIp = skb.data.be32 30 then
      some (0, skb.putMac 0 priv.scdbMac, s)
    else nat25DbHandle cfg.toConfig e s skb .lookup
  else if (skb.protocol = ethPIp ∧ cfg.brIp = skb.data.be32 30) ∨
      (skb.protocol = ethPArp ∧ cfg.brIp = skb.data.be32 38) then
    nat25DbHandle cfg.toConfig e s skb .lookup
  else some (0, skb, s)

/-- `nat25_handle_frame`. -/
def nat25HandleFrame (cfg : FrameConfig) (e : Env) (s : Wlan) (skb : Skb) : Option (Int × Skb × Wlan) :=
  if cfg.notRtkBsp ∧ skb.protocol = 0x888e then some (0, skb, s)
  else if skb.data 0 &&& 1 = 0 then
    if skb.protocol = ethP8021Q then do
      let vlanHdr := skb.data.be16 14
      let (retval, skb', s) ← translateFrame cfg e s (stripVlan skb)
      some (if retval = -1 then -1 else 0, restoreVlan skb' (shiftAddresses skb.data) vlanHdr, s)
    else do
      let (retval, skb, s) ← translateFrame cfg e s skb
      some (if retval = -1 then -1 else 0, skb, s)
  else some (0, skb, s)

/-- EAPOL frames are let through, with or without the early exit. -/
theorem translateFrame_eapol (cfg : FrameConfig) (e : Env) (s : Wlan) {skb : Skb} (htype : skb.protocol = 0x888e) :
    translateFrame cfg e s skb = some (0, skb, s) := by
  have hpassed : nat25DbHandle cfg.toConfig e s skb .lookup = some (0, skb, s) := by
    simp [nat25DbHandle, knownProtocol, htype, ethPIp, ethPArp, ethPIpx, ethPPppDisc, ethPPppSes, handlePassed]
  have hip : ¬skb.protocol = ethPIp := by rw [htype]; decide
  have harp : ¬skb.protocol = ethPArp := by rw [htype]; decide
  simp [translateFrame, hip, harp, hpassed, ite_self]

/-- On a unicast frame that has no tag of its own, `nat25_handle_frame` commutes with a tag: the same return value and
    state, and the same tag on the frame that comes out. -/
theorem handle_frame_tagged (cfg : FrameConfig) (e : Env) (s : Wlan) (skb : Skb) (t : UInt16)
    (hunicast : skb.data 0 &&& 1 = 0) (huntagged : skb.protocol ≠ ethP8021Q) :
    nat25HandleFrame cfg e s (skb.tagWith t) =
      (nat25HandleFrame cfg e s skb).map fun x => (x.1, x.2.1.tagWith t, x.2.2) := by
  have hfirst : (skb.tagWith t).data 0 = skb.data 0 := rfl
  have hearly : ¬(cfg.notRtkBsp = true ∧ (skb.tagWith t).protocol = 0x888e) := by
    rw [protocol_tagWith]
    exact fun h => absurd h.2 (by decide)
  rw [nat25HandleFrame, if_neg hearly, hfirst, if_pos hunicast, if_pos (protocol_tagWith skb t), stripVlan_tagWith,
    vlanHdr_tagWith]
  simp only [restoreVlan_eq]
  rw [nat25HandleFrame, if_pos hunicast, if_neg huntagged]
  split_ifs with heapol
  · rw [translateFrame_eapol cfg e s heapol.2]
    rfl
  · cases translateFrame cfg e s skb with
    | none => rfl
    | some x => rfl

def sampleFrameConfig : FrameConfig := { sampleConfig with notRtkBsp := false, nat25scDisable := true, brIp := 0 }

theorem handle_frame_tagged_segment :
    tcpSegment.protocol ≠ ethP8021Q ∧
      nat25HandleFrame sampleFrameConfig sampleEnv (sampleWlan samplePriv) (tcpSegment.tagWith 7) =
        some (0, (tcpSegment.putMac 0 sampleConfig.brMac).tagWith 7, sampleWlan samplePriv) := by
  refine ⟨by decide, ?_⟩
  rw [handle_frame_tagged _ _ _ tcpSegment 7 (by decide) (by decide)]
  rfl

/-- In a frame with two tags the address is not found: the segment goes to the bridge in one tag, in two tags it
    keeps its destination. -/
theorem two_tags_not_translated :
    (nat25HandleFrame sampleFrameConfig sampleEnv (sampleWlan samplePriv) (tcpSegment.tagWith 7)).map
        (fun x => (x.1, x.2.1.mac 0)) = some (0, sampleConfig.brMac) ∧
      (nat25HandleFrame sampleFrameConfig sampleEnv (sampleWlan samplePriv) ((tcpSegment.tagWith 7).tagWith 8)).map
        (fun x => (x.1, x.2.1.mac 0)) = some (0, Vector.replicate 6 2) := by
  constructor <;> decide

end PhoebusBsp.Nat25

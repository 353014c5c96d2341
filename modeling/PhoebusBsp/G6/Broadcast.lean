import PhoebusBsp.G6.Adapter

/-! `dhcp_flag_bcast`: the checksum of a DHCP request whose broadcast flag is set.

        right      check' = check + flags - flags'
        computed   check' = check         - flags'        flags' = flags + 0x8000

    in one's complement. The old flags are not taken out of the sum, and a field of zero, which stands for no
    checksum, is treated like one. -/

namespace PhoebusBsp.G6
open Schemes Bytes Nat25

def udph (b : Bytes) : ℕ := 14 + ipHlen b

def udpCheck (b : Bytes) : ℕ := b.be16 (udph b + 6)

def dhcpFlags (b : Bytes) : ℕ := b.be16 (udph b + 18)

/-- The pseudo header and the datagram, with the checksum. -/
def udpSum (b : Bytes) : ℕ :=
  wordSum b 26 4 + wordSum b 30 4 + 17 + b.be16 (udph b + 4) + wordSum b (udph b) (b.be16 (udph b + 4))

def UdpCorrect (b : Bytes) : Prop := udpCheck b ≠ 0 ∧ fold (udpSum b) = 65535

instance : DecidablePred UdpCorrect := fun _ => inferInstanceAs (Decidable (_ ∧ _))

/-- From a DHCP client to a server; the datagram has all fields of a DHCP message. -/
structure DhcpFrame (skb : Skb) : Prop where
  ip : skb.protocol = ethPIp
  ihl : 20 ≤ ipHlen skb.data
  udp : skb.data 23 = 17
  source : skb.data.be16 (udph skb.data) = 68
  dest : skb.data.be16 (udph skb.data + 2) = 67
  cookie : bytesAt skb.data (udph skb.data + 244) [0x63, 0x82, 0x53, 0x63] = true
  length : 248 ≤ skb.data.be16 (udph skb.data + 4)

/-- A checksum is still right, and no checksum still none. -/
def ChecksumKept (b b' : Bytes) : Prop := if udpCheck b = 0 then udpCheck b' = 0 else UdpCorrect b'

/-- The flag is not set, or the old flags are zero in one's complement and the checksum does not come out as zero. -/
def Patchable (cfg : Config) (b : Bytes) : Prop :=
  cfg.dhcpBcstDisable = true ∨ 0x8000 ≤ dhcpFlags b ∨ (udpCheck b = 0 ∧ dhcpFlags b = 0x7fff) ∨
    (udpCheck b ≠ 0 ∧ udpCheck b ≠ 0x8000 ∧ dhcpFlags b = 0)

instance (cfg : Config) : DecidablePred (Patchable cfg) := fun _ => inferInstanceAs (Decidable (_ ∨ _ ∨ _ ∨ _))

/-! ### The patch -/

/-- The checksum that the code computes. -/
def patchedCheck (check flags : ℕ) : ℕ := inetCheck (0xffff - check + (flags + 0x8000))

section Arithmetic

variable {c f sum sum' : ℕ}

theorem patchedCheck_eq_zero (hc : c < 65536) (hf : f < 0x8000) :
    patchedCheck c f = 0 ↔ c = f + 0x8000 ∨ c = 0 ∧ f = 0x7fff := by
  rw [patchedCheck, inetCheck_eq_zero (by omega)]
  omega

/-- The sum is off by the old flags. -/
theorem fold_patched (hc : c < 65536) (hf : f < 0x8000) (hpos : 0 < sum) (hpos' : 0 < sum') (hsum : fold sum = 65535)
    (hsum' : sum' + f + c = sum + (f + 0x8000) + patchedCheck c f) : fold sum' = 65535 ↔ f = 0 := by
  have hpatch : 65535 ∣ 0xffff - c + (f + 0x8000) + patchedCheck c f :=
    (fold_eq_iff (by omega)).mp (fold_add_inetCheck _)
  rw [fold_eq_iff hpos] at hsum
  rw [fold_eq_iff hpos']
  omega

end Arithmetic

section Frames

variable {cfg : Config} {skb : Skb}

theorem dhcpFlagBcast_eq (h : DhcpFrame skb) (hon : cfg.dhcpBcstDisable = false)
    (hflags : dhcpFlags skb.data < 0x8000) :
    (dhcpFlagBcast cfg skb).data = (skb.data.putBe16 (udph skb.data + 18) (dhcpFlags skb.data + 0x8000)).putBe16
      (udph skb.data + 6) (patchedCheck (udpCheck skb.data) (dhcpFlags skb.data)) := by
  have hrequest : isDhcpRequest skb.data = true := decide_eq_true ⟨h.udp, h.source, h.dest, h.cookie, hflags⟩
  simp only [dhcpFlagBcast, hon, h.ip, hrequest, Bool.false_eq_true, if_false, and_self, if_true]
  rfl

theorem dhcpFlagBcast_same (h : cfg.dhcpBcstDisable = true ∨ 0x8000 ≤ dhcpFlags skb.data) :
    dhcpFlagBcast cfg skb = skb := by
  unfold dhcpFlagBcast
  rcases h with hoff | hflags
  · rw [if_pos hoff]
  · have hnot : isDhcpRequest skb.data = false :=
      decide_eq_false fun hrequest => absurd hrequest.2.2.2.2 (Nat.not_lt.mpr hflags)
    simp [hnot]

/-- Two words of the datagram are replaced, and nothing else. -/
theorem patched_spec {b : Bytes} {flags check : ℕ} (hihl : 20 ≤ ipHlen b) (hlen : 248 ≤ b.be16 (udph b + 4))
    (hflags : flags < 65536) (hcheck : check < 65536) :
    let b' := (b.putBe16 (udph b + 18) flags).putBe16 (udph b + 6) check
    udpCheck b' = check ∧ udpSum b' + dhcpFlags b + udpCheck b = udpSum b + flags + check := by
  intro b'
  have hu : 34 ≤ udph b := by
    unfold udph
    omega
  have hkept : ∀ i < udph b + 6, b' i = b i := fun i hi =>
    (putBe16_of_notMem _ _ (by omega)).trans (putBe16_of_notMem _ _ (by omega))
  have hudph : udph b' = udph b := by rw [udph, ipHlen, hkept 14 (by omega), udph, ipHlen]
  have hword : b'.be16 (udph b + 4) = b.be16 (udph b + 4) := by
    rw [be16_putBe16_of_ne _ _ (by omega), be16_putBe16_of_ne _ _ (by omega)]
  have haddr : ∀ off ≤ 30, wordSum b' off 4 = wordSum b off 4 := fun off hoff =>
    wordSum_congr fun i hi => hkept _ (by omega)
  have hfirst : wordSum (b.putBe16 (udph b + 18) flags) (udph b) (b.be16 (udph b + 4)) + b.be16 (udph b + 18) =
      wordSum b (udph b) (b.be16 (udph b + 4)) + flags := wordSum_putBe16 rfl (by omega) hflags
  have hsecond : wordSum b' (udph b) (b.be16 (udph b + 4)) + _ =
      wordSum (b.putBe16 (udph b + 18) flags) (udph b) (b.be16 (udph b + 4)) + check :=
    wordSum_putBe16 rfl (by omega) hcheck
  rw [be16_putBe16_of_ne _ _ (by omega)] at hsecond
  refine ⟨?_, ?_⟩
  · rw [udpCheck, hudph, be16_putBe16, Nat.mod_eq_of_lt hcheck]
  · rw [udpSum, hudph, hword, haddr 26 (by omega), haddr 30 (by omega), udpSum, udpCheck, dhcpFlags]
    omega

end Frames

/-- For every DHCP request that is sent with a right checksum or with none, whatever its flags and payload. -/
theorem dhcpFlagBcast_checksum_iff (cfg : Config) (skb : Skb) (h : DhcpFrame skb)
    (hsent : udpCheck skb.data = 0 ∨ UdpCorrect skb.data) :
    ChecksumKept skb.data (dhcpFlagBcast cfg skb).data ↔ Patchable cfg skb.data := by
  by_cases hsame : cfg.dhcpBcstDisable = true ∨ 0x8000 ≤ dhcpFlags skb.data
  · rw [dhcpFlagBcast_same hsame, ChecksumKept, Patchable, ← or_assoc]
    refine iff_of_true ?_ (Or.inl hsame)
    split
    · assumption
    · exact hsent.resolve_left ‹_›
  · obtain ⟨hon, hflags⟩ := not_or.mp hsame
    have hc : udpCheck skb.data < 65536 := be16_lt _ _
    have hf : dhcpFlags skb.data < 0x8000 := Nat.lt_of_not_le hflags
    have hpatched : patchedCheck (udpCheck skb.data) (dhcpFlags skb.data) < 65536 := inetCheck_lt _
    obtain ⟨hcheck', hsum'⟩ := patched_spec h.ihl h.length (show dhcpFlags skb.data + 0x8000 < 65536 by omega) hpatched
    have hpos : ∀ b, 0 < udpSum b := fun b => by
      unfold udpSum
      omega
    rw [ChecksumKept, UdpCorrect, dhcpFlagBcast_eq h (Bool.eq_false_iff.mpr hon) hf, hcheck', ne_eq,
      patchedCheck_eq_zero hc hf, Patchable, or_iff_right hon, or_iff_right hflags]
    split
    · omega
    · next hzero =>
      rw [fold_patched hc hf (hpos _) (hpos _) (hsent.resolve_left hzero).2 hsum']
      omega

/-! ### A request without options -/

def bcastOn : Config := ⟨false, false, true, true, false, [], false, false, false, true, none⟩

/-- From 0.0.0.0, with these flags and this checksum. -/
def emptyRequest (flags check : ℕ) : Skb :=
  let zeros : Bytes := fun _ => 0
  let b := (((zeros.putBe16 12 ethPIp).putBe16 14 0x4500).putBe16 22 17).putBe16 34 68
  let b := (((b.putBe16 36 67).putBe16 38 248).putBe16 40 check).putBe16 52 flags
  ⟨(b.putBe16 278 0x6382).putBe16 280 0x5363, 282, 282⟩

/-- Flags of zero: the checksum stays right. -/
theorem dhcpFlagBcast_checksum_plain : UdpCorrect (dhcpFlagBcast bcastOn (emptyRequest 0 18066)).data := by
  have hsent : UdpCorrect (emptyRequest 0 18066).data := by decide +kernel
  have hkept := (dhcpFlagBcast_checksum_iff bcastOn (emptyRequest 0 18066)
    ⟨by decide, by decide, by decide, by decide, by decide, by decide, by decide⟩
    (Or.inr hsent)).mpr (by decide +kernel)
  rwa [ChecksumKept, if_neg hsent.1] at hkept

/-- A reserved flag is set: the checksum becomes wrong. No checksum: there is one afterwards. -/
theorem dhcpFlagBcast_breaks_checksum :
    (DhcpFrame (emptyRequest 1 18065) ∧ UdpCorrect (emptyRequest 1 18065).data ∧
      ¬UdpCorrect (dhcpFlagBcast bcastOn (emptyRequest 1 18065)).data) ∧
    DhcpFrame (emptyRequest 0 0) ∧ udpCheck (emptyRequest 0 0).data = 0 ∧
      udpCheck (dhcpFlagBcast bcastOn (emptyRequest 0 0)).data ≠ 0 :=
  ⟨⟨⟨by decide, by decide, by decide, by decide, by decide, by decide, by decide⟩,
      by decide +kernel, by decide +kernel⟩,
    ⟨by decide, by decide, by decide, by decide, by decide, by decide, by decide⟩, by decide +kernel, by decide +kernel⟩

end PhoebusBsp.G6

import PhoebusBsp.Nat25.Protocols

/-! `nat25_db_handle` of `8192cd_br_ext.c`.

        IPv4   NAT25_LOOKUP      multicast that a station has asked for ──▶ its MAC, and that is all
                                 in the database, live or expired ───────▶ the station, or as it was
                                 not in the database ────────────────────▶ broadcast, or the bridge
                                 then: a DHCP answer becomes a broadcast

    The macros of `8192cd_cfg.h` are not in the repository; they are fields of `Config`. -/

namespace PhoebusBsp.Nat25
open Schemes Bytes

/-- What `nat25_db_handle` reads of the configuration, and what the driver was compiled with. -/
structure Config where
  /-- `SUPPORT_TX_MCAST2UNI`. -/
  txMcast2uni : Bool
  mc2uDisable : Bool
  /-- `OPMODE & WIFI_STATION_STATE`, and so on. -/
  stationState : Bool
  asocState : Bool
  adhocState : Bool
  /-- For each associated station, the `mcmac` of its `ipmc`. -/
  asocList : List (List Mac)
  maccloneEnable : Bool
  maccloneCompleted : Bool
  dhcpBcstDisable : Bool
  brMac : Mac

/-- What `nat25_db_handle` changes: the database and PPPoE, and the last sender of an unknown protocol. -/
structure Wlan where
  pppoe : Pppoe
  ukproMac : Mac
  ukproMacValid : Bool

/-! ### IPv4 -/

/-- `checkIPMcAndReplace`: a multicast MAC of the list that the low bits of the address belong to. -/
def checkIpMcAndReplace (cfg : Config) (skb : Skb) : Bool × Skb :=
  if skb.data 30 &&& 0xf0 ≠ 0xe0 then (false, skb)
  else
    match cfg.asocList.flatten.find? fun m =>
        m.get 0 = 0x01 ∧ m.get 3 = skb.data 31 &&& 0x7f ∧ m.get 4 = skb.data 32 ∧ m.get 5 = skb.data 33 with
    | some mcmac => (true, skb.putMac 0 mcmac)
    | none => (false, skb)

/-- Whether the database is asked, with the frame as it is then. -/
def lookupGate (cfg : Config) (skb : Skb) : Bool × Skb :=
  if !cfg.txMcast2uni || cfg.mc2uDisable then (true, skb)
  else if cfg.stationState && cfg.asocState then
    let (replaced, skb) := checkIpMcAndReplace cfg skb
    (!replaced || cfg.adhocState, skb)
  else (cfg.adhocState, skb)

/-- `iph->ihl << 2`. -/
def ipHlen (b : Bytes) : ℕ := (b 14).toNat % 16 * 4

def broadcast : Mac := Vector.replicate 6 0xff

/-- From a DHCP server to a client that is not the broadcast address. -/
def isDhcpAnswer (b : Bytes) : Bool :=
  let udph := 14 + ipHlen b
  b 23 = 17 ∧ b.be16 udph = 67 ∧ b.be16 (udph + 2) = 68 ∧ bytesAt b (udph + 244) [0x63, 0x82, 0x53, 0x63] ∧ b 30 ≠ 0xff

/-- The checksum of UDP anew, if there is one. -/
def updateUdpCheck (b : Bytes) (udph : ℕ) : Bytes :=
  if b.be16 (udph + 6) = 0 then b
  else
    let b := b.putBe16 (udph + 6) 0
    b.putBe16 (udph + 6) (inetCheck (wordSum b 26 4 + wordSum b 30 4 + 17 + b.be16 (udph + 4) +
      wordSum b udph (b.be16 (udph + 4))))

/-- `ip_send_check`. -/
def ipSendCheck (b : Bytes) : Bytes :=
  let b := b.putBe16 24 0
  b.putBe16 24 (inetCheck (wordSum b 14 (ipHlen b)))

/-- `dhcp_dst_bcast`. -/
def dhcpDstBcast (cfg : Config) (skb : Skb) : Skb :=
  if cfg.dhcpBcstDisable then skb
  else if isDhcpAnswer skb.data then
    let udph := 14 + ipHlen skb.data
    let data := skb.data.write 30 4 fun _ => 0xff
    let data := if data 0 = 0xff then data else setDestination data broadcast
    { skb with data := ipSendCheck (updateUdpCheck data udph) }
  else skb

/-- What becomes of a frame to an address that is not in the database. -/
def forwardUnknown (cfg : Config) (skb : Skb) : Skb :=
  if skb.data 33 = 0xff then skb.putMac 0 broadcast
  else if cfg.maccloneEnable && cfg.maccloneCompleted then skb
  else skb.putMac 0 cfg.brMac

def lookupIp (cfg : Config) (e : Env) (s : Pppoe) (skb : Skb) : Option (Int × Skb × Pppoe) := do
  match lookupGate cfg skb with
  | (true, skb) =>
    let (ret, skb, s) ← lookupDestination e s skb (generateIpv4NetworkAddr skb.data 30)
    let skb := if ret = 0 then forwardUnknown cfg skb else skb
    some (0, dhcpDstBcast cfg skb, s)
  | (false, skb) => some (0, dhcpDstBcast cfg skb, s)

/-- The end of the header is compared with the end of the frame, both from the start of the header. -/
def malformedIp (skb : Skb) : Bool := skb.len ≤ ipHlen skb.data

def handleIp (cfg : Config) (e : Env) (s : Pppoe) (skb : Skb) (method : Method) : Option (Int × Skb × Pppoe) :=
  if malformedIp skb then some (-1, skb, s)
  else
    match method with
    | .check => some (if skb.data 0 &&& 1 = 1 then 0 else -1, skb, s)
    | .insert => do
      let s ← insertSource e s skb (generateIpv4NetworkAddr skb.data 26)
      some (0, skb, s)
    | .lookup => lookupIp cfg e s skb
    | .other => some (-1, skb, s)

/-! ### All frames -/

/-- A protocol that the code does not know: one station at a time. -/
def handleUnknown (cfg : Config) (e : Env) (s : Wlan) (skb : Skb) : Method → Option (Int × Skb × Wlan)
  | .check => some (if skb.data 0 &&& 1 = 1 then 0 else -1, skb, s)
  | .insert =>
    if skb.mac 6 ≠ e.myHwaddr ∧ skb.mac 6 ≠ cfg.brMac ∧ skb.mac 6 ≠ s.ukproMac then
      some (0, skb, { s with ukproMac := skb.mac 6, ukproMacValid := true })
    else some (0, skb, s)
  | .lookup => some (0, if s.ukproMacValid then skb.putMac 0 s.ukproMac else skb, s)
  | .other => some (-1, skb, s)

/-- The branch of a protocol that the code knows. -/
def knownProtocol (cfg : Config) (e : Env) (s : Pppoe) (skb : Skb) (method : Method) :
    Option (Option (Int × Skb × Pppoe)) :=
  let protocol := skb.protocol
  if protocol = ethPIp then some (handleIp cfg e s skb method)
  else if protocol = ethPArp then some (handleArp e s skb method)
  else if protocol = ethPIpx then some (handleNovell e s skb (some (.ipx 14)) method)
  -- `ETH_FRAME_LEN`
  else if protocol ≤ 1514 then some (handleNovell e s skb (classify8023 skb.data) method)
  else if protocol = ethPPppDisc ∨ protocol = ethPPppSes then
    some (handlePppoe e.ageing e.fuel e.kmalloc e.tagBuf s skb method)
  else if protocol = 0x888e ∨ protocol = 0x88d9 ∨ protocol = 0xe2ae ∨ protocol = 0xe2af then
    some (handlePassed s skb method)
  else if protocol = ethPIpv6 then some (handleIpv6 e s skb method)
  else none

/-- `nat25_db_handle`. -/
def nat25DbHandle (cfg : Config) (e : Env) (s : Wlan) (skb : Skb) (method : Method) : Option (Int × Skb × Wlan) :=
  match knownProtocol cfg e s.pppoe skb method with
  | some handled => handled.map fun x => (x.1, x.2.1, { s with pppoe := x.2.2 })
  | none => handleUnknown cfg e s skb method

/-! ### What the DHCP rewrite does -/

/-- The buffers differ in the destination of the frame at most. -/
def SameBehind (b b' : Bytes) : Prop := ∀ i, 6 ≤ i → b' i = b i

section Dhcp

variable {b b' : Bytes} {udph : ℕ}

theorem SameBehind.be16 (h : SameBehind b b') {off : ℕ} (hoff : 6 ≤ off) : b'.be16 off = b.be16 off :=
  be16_congr fun i _ => h _ (by omega)

theorem SameBehind.wordSum (h : SameBehind b b') {off : ℕ} (hoff : 6 ≤ off) (n : ℕ) :
    wordSum b' off n = wordSum b off n := wordSum_congr fun i _ => h _ (by omega)

theorem SameBehind.putBe16 (h : SameBehind b b') (off n : ℕ) : SameBehind (b.putBe16 off n) (b'.putBe16 off n) :=
  fun i hi => putBe16_congr_at fun _ => h i hi

theorem SameBehind.ipHlen (h : SameBehind b b') : ipHlen b' = ipHlen b := by
  rw [Nat25.ipHlen, Nat25.ipHlen, h 14 (by decide)]

theorem SameBehind.bytesAt (h : SameBehind b b') {off : ℕ} (hoff : 6 ≤ off) (l : List UInt8) :
    bytesAt b' off l = bytesAt b off l := by
  have hmap : (List.range l.length).map (fun i => b' (off + i)) = (List.range l.length).map fun i => b (off + i) :=
    List.map_congr_left fun i _ => h _ (by omega)
  rw [Nat25.bytesAt, Nat25.bytesAt, hmap]

theorem SameBehind.generateIpv4NetworkAddr (h : SameBehind b b') {off : ℕ} (hoff : 6 ≤ off) :
    generateIpv4NetworkAddr b' off = generateIpv4NetworkAddr b off := by
  unfold Nat25.generateIpv4NetworkAddr generateNetworkAddr
  congr 1
  funext i
  split_ifs
  · rfl
  · simp only [List.find?]
    split
    · next f hf =>
      split at hf
      · obtain rfl := Option.some.inj hf
        exact h _ (by simp only; omega)
      · cases hf
    · rfl

theorem SameBehind.isDhcpAnswer (h : SameBehind b b') : isDhcpAnswer b' = isDhcpAnswer b := by
  have hge : 6 ≤ 14 + Nat25.ipHlen b := by omega
  simp only [Nat25.isDhcpAnswer, h.ipHlen, h 23 (by decide), h 30 (by decide), h.be16 hge,
    h.be16 (show 6 ≤ 14 + Nat25.ipHlen b + 2 by omega), h.bytesAt (show 6 ≤ 14 + Nat25.ipHlen b + 244 by omega)]

theorem SameBehind.updateUdpCheck (h : SameBehind b b') (hudph : 14 ≤ udph) :
    SameBehind (updateUdpCheck b udph) (updateUdpCheck b' udph) := by
  have hzero := h.putBe16 (udph + 6) 0
  simp only [Nat25.updateUdpCheck, h.be16 (show 6 ≤ udph + 6 by omega), hzero.be16 (show 6 ≤ udph + 4 by omega),
    hzero.wordSum (show 6 ≤ 26 by decide), hzero.wordSum (show 6 ≤ 30 by decide),
      hzero.wordSum (show 6 ≤ udph by omega)]
  split_ifs
  · exact h
  · exact hzero.putBe16 _ _

theorem SameBehind.ipSendCheck (h : SameBehind b b') : SameBehind (ipSendCheck b) (ipSendCheck b') := by
  have hzero := h.putBe16 24 0
  simp only [Nat25.ipSendCheck, hzero.ipHlen, hzero.wordSum (show 6 ≤ 14 by decide)]
  exact hzero.putBe16 _ _

theorem updateUdpCheck_destination (b : Bytes) (hudph : 14 ≤ udph) {i : ℕ} (hi : i < 6) :
    updateUdpCheck b udph i = b i := by
  rw [updateUdpCheck]
  split_ifs
  · rfl
  · rw [putBe16_of_notMem _ _ (Or.inl (by omega)), putBe16_of_notMem _ _ (Or.inl (by omega))]

theorem ipSendCheck_destination (b : Bytes) {i : ℕ} (hi : i < 6) : ipSendCheck b i = b i := by
  rw [ipSendCheck, putBe16_of_notMem _ _ (Or.inl (by omega)), putBe16_of_notMem _ _ (Or.inl (by omega))]

variable {cfg : Config} {skb skb' : Skb}

theorem dhcpDstBcast_eq (cfg : Config) (skb : Skb) :
    dhcpDstBcast cfg skb = { skb with data := (dhcpDstBcast cfg skb).data } := by
  rw [dhcpDstBcast]
  split_ifs <;> rfl

/-- All but the destination comes out the same, whatever the destination. -/
theorem dhcpDstBcast_behind (h : SameBehind skb.data skb'.data) :
    SameBehind (dhcpDstBcast cfg skb).data (dhcpDstBcast cfg skb').data := by
  rw [dhcpDstBcast, dhcpDstBcast, h.isDhcpAnswer, h.ipHlen]
  split_ifs
  · exact h
  · refine SameBehind.ipSendCheck (SameBehind.updateUdpCheck (fun i hi => ?_) (by omega))
    have hbase : (skb'.data.write 30 4 fun _ => 0xff) i = (skb.data.write 30 4 fun _ => 0xff) i :=
      write_congr_at (fun _ _ => rfl) fun _ => h i hi
    split_ifs
    · exact hbase
    · exact hbase.trans (write_of_notMem _ _ (Or.inr hi)).symm
    · exact (write_of_notMem _ _ (Or.inr hi)).trans hbase
    · exact (write_of_notMem _ _ (Or.inr hi)).trans (hbase.trans (write_of_notMem _ _ (Or.inr hi)).symm)
  · exact h

/-- The destination of an answer becomes a broadcast, unless it looks like one. -/
theorem dhcpDstBcast_destination (hon : cfg.dhcpBcstDisable = false) (hanswer : isDhcpAnswer skb.data = true) {i : ℕ}
    (hi : i < 6) : (dhcpDstBcast cfg skb).data i = if skb.data 0 = 0xff then skb.data i else 0xff := by
  have hkeep : ∀ j, j < 6 → (skb.data.write 30 4 fun _ => 0xff) j = skb.data j := fun j hj =>
    write_of_notMem _ _ (Or.inl (by omega))
  rw [dhcpDstBcast, if_neg (by rw [hon]; decide), if_pos hanswer]
  simp only
  rw [ipSendCheck_destination _ hi, updateUdpCheck_destination _ (by omega) hi, hkeep 0 (by decide)]
  split_ifs
  · exact hkeep i hi
  · rw [setDestination, write_of_mem _ _ ⟨Nat.zero_le _, by omega⟩]
    simp [broadcast, Vector.getD, hi]

end Dhcp

end PhoebusBsp.Nat25

import PhoebusBsp.Nat25.Vlan

/-! NAT2.5 of the `g6_wifi_driver`: `rtw_br_ext.c`, and `rtw_br_client_tx` of `rtw_xmit.c`.

                    ┌── scdb_mac, scdb_ip, scdb_entry ──┐       the last sender, its address, its entry
        to be sent  │  SA known?  yes: refresh the entry │ no: look for the entry of the source address
                    └────────────────┬───────────────────┘     none: NAT25_INSERT
                        nethash[NAT25_HASH_SIZE]
        received    DA := scdb_mac, if scdb_ip is the destination; otherwise NAT25_LOOKUP

    The database is that of the other driver, and so are the branches of most protocols. What differs: the
    shortcut has a pointer to an entry, IPv4 is dealt with in its own way, and a protocol that the code does not know
    is refused. -/

namespace PhoebusBsp.G6
open Schemes Bytes Nat25

/-- What the functions read of the configuration, and what the driver was compiled with. -/
structure Config where
  /-- `SUPPORT_TX_MCAST2UNI`. -/
  txMcast2uni : Bool
  mc2uDisable : Bool
  /-- `OPMODE & WIFI_STATION_STATE`, and so on. -/
  stationState : Bool
  asocState : Bool
  adhocState : Bool
  /-- For each associated station, the `mcmac` of its used `ipmc`. -/
  asocList : List (List Mac)
  dhcpBcstDisable : Bool
  nat25scDisable : Bool
  /-- `CONFIG_RTW_A4_STA`, and `a4_enable == 1`. -/
  a4Enable : Bool
  /-- `state & WIFI_FW_ASSOC_SUCCESS`. -/
  fwAssocSuccess : Bool
  /-- The address of the bridge that the interface is in. -/
  brNetdev : Option Mac

/-- What the functions use of `struct _ADAPTER`. -/
structure Adapter where
  pppoe : Pppoe
  scdbEntry : Option ℕ
  brMac : Mac
  brIp : UInt32

namespace Adapter

variable (s : Adapter)

def priv : Priv := s.pppoe.priv

def withPriv (priv : Priv) : Adapter := { s with pppoe := { s.pppoe with priv := priv } }

/-- `scdb_mac`, `scdb_ip` and `scdb_entry`. -/
def cache : Mac × UInt32 × Option ℕ := (s.priv.scdbMac, s.priv.scdbIp, s.scdbEntry)

def setCache (mac : Mac) (ip : UInt32) (entry : Option ℕ) : Adapter :=
  { s.withPriv { s.priv with scdbMac := mac, scdbIp := ip } with scdbEntry := entry }

def clearCache (entry : Option ℕ) : Adapter := s.setCache (Vector.replicate 6 0) 0 entry

/-- `scdb_entry->ageing_timer = jiffies`. -/
def refresh (a : ℕ) : Option Adapter := do
  let priv ← s.priv.modify a fun e => { e with ageingTimer := s.priv.clock }
  some (s.withPriv priv)

end Adapter

/-! ### Sweeps -/

/-- The entry is freed, and the shortcut to it goes. -/
def removeEntry (f : ℕ) (s : Adapter) : Option Adapter := do
  let s := if s.scdbEntry = some f then s.clearCache none else s
  let priv ← remove f s.priv
  some (s.withPriv priv)

def nat25DbCleanup (fuel : ℕ) (s : Adapter) : Option Adapter := sweepChains Adapter.priv removeEntry fuel s

def expireEntry (p : Ageing) : ℕ → Adapter → Option Adapter :=
  expireWith Adapter.priv Adapter.withPriv (fun _ => removeEntry) p

def nat25DbExpire (p : Ageing) (fuel : ℕ) (s : Adapter) : Option Adapter :=
  sweepChains Adapter.priv (expireEntry p) fuel s

/-! ### `nat25_db_handle` -/

def ethPAtalk : ℕ := 0x809b
def ethPAarp : ℕ := 0x80f3

/-- `checkIPMcAndReplace`: whether the address is a multicast address is not looked at. -/
def checkIpMcAndReplace (cfg : Config) (skb : Skb) : Bool × Skb :=
  match cfg.asocList.flatten.find? fun m => m.get 3 = skb.data 31 ∧ m.get 4 = skb.data 32 ∧ m.get 5 = skb.data 33 with
  | some mcmac => (true, skb.putMac 0 mcmac)
  | none => (false, skb)

/-- Whether the database is asked, with the frame as it is then. -/
def lookupGate (cfg : Config) (skb : Skb) : Bool × Skb :=
  if !cfg.txMcast2uni || cfg.mc2uDisable then (true, skb)
  else if cfg.stationState && cfg.asocState then
    let (replaced, skb) := checkIpMcAndReplace cfg skb
    (!replaced || cfg.adhocState, skb)
  else (cfg.adhocState, skb)

/-- `netdev_br_init`. -/
def netdevBrInit (cfg : Config) (s : Adapter) : Adapter :=
  let s := { s with brMac := cfg.brNetdev.getD s.brMac }
  { s with pppoe := { s.pppoe with addPPPoETag := true } }

/-- What becomes of a frame to an address that is not in the database. -/
def forwardUnknown (cfg : Config) (s : Adapter) (skb : Skb) : Skb × Adapter :=
  if skb.data 33 = 0xff then (skb.putMac 0 broadcast, s)
  else
    let s := if s.brMac = Vector.replicate 6 0 then netdevBrInit cfg s else s
    (skb.putMac 0 s.brMac, s)

def lookupIp (cfg : Config) (e : Env) (s : Adapter) (skb : Skb) : Option (Int × Skb × Adapter) := do
  match lookupGate cfg skb with
  | (true, skb) =>
    let (ret, skb, pppoe) ← lookupDestination e s.pppoe skb (generateIpv4NetworkAddr skb.data 30)
    let s := { s with pppoe := pppoe }
    if ret = 0 then
      let (skb, s) := forwardUnknown cfg s skb
      some (0, skb, s)
    else some (0, skb, s)
  | (false, skb) => some (0, skb, s)

def handleIp (cfg : Config) (e : Env) (s : Adapter) (skb : Skb) (method : Method) : Option (Int × Skb × Adapter) :=
  if malformedIp skb then some (-1, skb, s)
  else
    match method with
    | .check => some (-1, skb, s)
    | .insert =>
      if skb.data.be32 26 = 0 then some (0, skb, s)
      else do
        let pppoe ← insertSource e s.pppoe skb (generateIpv4NetworkAddr skb.data 26)
        some (0, skb, { s with pppoe := pppoe })
    | .lookup => lookupIp cfg e s skb
    | .other => some (-1, skb, s)

/-- The branches that the other driver has as well. -/
def sharedProtocol (e : Env) (s : Pppoe) (skb : Skb) (method : Method) : Option (Int × Skb × Pppoe) :=
  let protocol := skb.protocol
  if protocol = ethPArp then handleArp e s skb method
  else if protocol = ethPIpx then handleNovell e s skb (some (.ipx 14)) method
  else if protocol = ethPAtalk ∨ protocol = ethPAarp then handleNovell e s skb (classify8023 skb.data) method
  else if protocol = ethPPppDisc ∨ protocol = ethPPppSes then
    handlePppoe e.ageing e.fuel e.kmalloc e.tagBuf s skb method
  else if protocol = 0x888e ∨ protocol = 0xe2ae ∨ protocol = 0xe2af then handlePassed s skb method
  else if protocol = ethPIpv6 then handleIpv6 e s skb method
  else some (-1, skb, s)

/-- `nat25_db_handle`. -/
def nat25DbHandle (cfg : Config) (e : Env) (s : Adapter) (skb : Skb) (method : Method) : Option (Int × Skb × Adapter) :=
  if skb.protocol = ethPIp then handleIp cfg e s skb method
  else (sharedProtocol e s.pppoe skb method).map fun x => (x.1, x.2.1, { s with pppoe := x.2.2 })

/-! ### Received frames -/

/-- What is done with the frame without its tag. -/
def translateFrame (cfg : Config) (e : Env) (s : Adapter) (skb : Skb) : Option (Int × Skb × Adapter) :=
  if !s.priv.nat25Disable then
    if !cfg.nat25scDisable ∧ skb.protocol = ethPIp ∧ s.priv.scdbIp = skb.data.be32 30 then
      some (0, skb.putMac 0 s.priv.scdbMac, s)
    else nat25DbHandle cfg e s skb .lookup
  else if (skb.protocol = ethPIp ∧ s.brIp = skb.data.be32 30) ∨
      (skb.protocol = ethPArp ∧ s.brIp = skb.data.be32 38) then
    nat25DbHandle cfg e s skb .lookup
  else some (0, skb, s)

/-- The tag that was taken off a frame: `vlan_hdr`, and what is in front of the frame now. -/
structure VlanTag where
  vlanHdr : ℕ
  front : Bytes

/-- The frame without its tag. -/
def untag (skb : Skb) : Option VlanTag × Skb :=
  if skb.protocol = ethP8021Q then (some ⟨skb.data.be16 14, shiftAddresses skb.data⟩, stripVlan skb) else (none, skb)

/-- The tag again, if there was one. -/
def retag (tag : Option VlanTag) (skb : Skb) : Skb :=
  match tag with
  | some tag => restoreVlan skb tag.front tag.vlanHdr
  | none => skb

/-- `nat25_handle_frame`. -/
def nat25HandleFrame (cfg : Config) (e : Env) (s : Adapter) (skb : Skb) : Option (Int × Skb × Adapter) :=
  if skb.protocol = 0x888e then some (0, skb, s)
  else if skb.data 0 &&& 1 = 0 then do
    let (tag, skb) := untag skb
    let (retval, skb, s) ← translateFrame cfg e s skb
    some (if retval = -1 then -1 else 0, retag tag skb, s)
  else some (0, skb, s)

/-! ### Frames to be sent -/

def scdbFindEntry (fuel : ℕ) (s : Priv) (b : Bytes) (ipAddr : ℕ) : Option (Option ℕ) :=
  let networkAddr := generateIpv4NetworkAddr b ipAddr
  findEntry s networkAddr fuel (s.nethash (networkHash s.hashSize networkAddr))

/-- From a DHCP client to a server, without the flag for broadcasts. -/
def isDhcpRequest (b : Bytes) : Bool :=
  let udph := 14 + ipHlen b
  b 23 = 17 ∧ b.be16 udph = 68 ∧ b.be16 (udph + 2) = 67 ∧ bytesAt b (udph + 244) [0x63, 0x82, 0x53, 0x63] ∧
    b.be16 (udph + 18) < 0x8000

/-- `dhcp_flag_bcast`. The new flags are added to the sum, not the difference to the old ones. -/
def dhcpFlagBcast (cfg : Config) (skb : Skb) : Skb :=
  if cfg.dhcpBcstDisable then skb
  else if skb.protocol = ethPIp ∧ isDhcpRequest skb.data then
    let udph := 14 + ipHlen skb.data
    let flags := skb.data.be16 (udph + 18) + 0x8000
    let sum := 0xffff - skb.data.be16 (udph + 6) + flags
    { skb with data := (skb.data.putBe16 (udph + 18) flags).putBe16 (udph + 6) (inetCheck sum) }
  else skb

/-- What `rtw_br_client_tx` has besides the frame and the state. -/
structure Tx where
  brPort : Bool
  /-- `skb->cb[_SKB_CB_FLAGS] & _PKT_TYPE_URGENT`. -/
  urgent : Bool
  /-- The memory that a copy gets behind its frame, if there is memory for a copy. -/
  skbCopy : Option Bytes
  /-- Whether `skb_linearize` succeeds. -/
  linearize : Bool

/-- The condition of the first branch. -/
def fastPath (tx : Tx) (s : Adapter) (skb : Skb) : Bool :=
  skb.data 0 &&& 1 = 0 ∧ tx.brPort ∧ skb.mac 6 ≠ s.brMac ∧ skb.protocol ≠ ethP8021Q ∧ skb.protocol = ethPIp ∧
    s.priv.scdbMac = skb.mac 6 ∧ s.scdbEntry.isSome ∧ !tx.urgent

/-- The bridge's own address is recorded. -/
def recordBridge (s : Adapter) (skb : Skb) : Adapter :=
  if skb.mac 6 = s.brMac ∧ skb.protocol = ethPIp then { s with brIp := skb.data.be32 26 } else s

/-- The shortcut, for the frame without its tag: `do_nat25` and the state. -/
def shortcut (fuel : ℕ) (s : Adapter) (skb : Skb) : Option (Bool × Adapter) :=
  if skb.protocol = ethPIp then
    if s.priv.scdbMac ≠ skb.mac 6 then do
      match ← scdbFindEntry fuel s.priv skb.data 26 with
      | some db =>
        let s ← (s.setCache (skb.mac 6) (skb.data.be32 26) (some db)).refresh db
        some (false, s)
      | none => some (true, { s with scdbEntry := none })
    else
      match s.scdbEntry with
      | some db => do
        let s ← s.refresh db
        some (false, s)
      | none => some (true, s.clearCache none)
  else some (true, s)

/-- `rtw_skb_copy`. -/
def copyOf (skb : Skb) (behind : Bytes) : Skb :=
  { skb with data := fun i => if i < skb.len then skb.data i else behind i }

/-- The copy of a frame with its tag, without the tag again. -/
def copied (tag : Option VlanTag) (skb : Skb) (behind : Bytes) : Option VlanTag × Skb :=
  let copy := copyOf (retag tag skb) behind
  match tag with
  | some _ => (some ⟨copy.data.be16 14, shiftAddresses copy.data⟩, stripVlan copy)
  | none => (none, copy)

/-- `NAT25_INSERT`, and what is returned at once, if anything is. -/
def insertFrame (cfg : Config) (tx : Tx) (e : Env) (s : Adapter) (skb : Skb) :
    Option (Option Int × Skb × Adapter) :=
  if !tx.linearize then some (some (-1), skb, s)
  else do
    let (res, skb, s) ← nat25DbHandle cfg e s skb .insert
    if res < 0 then some (some (if res = -2 then -1 else 0), skb, s) else some (none, skb, s)

/-- The branch `do_nat25`: the frame is copied if it will be written to. -/
def translate (cfg : Config) (tx : Tx) (e : Env) (s : Adapter) (tag : Option VlanTag) (skb : Skb) :
    Option (Option Int × Option VlanTag × Skb × Adapter) := do
  let (res, skb, s) ← nat25DbHandle cfg e s skb .check
  if res = 0 then
    match tx.skbCopy with
    | none => some (some (-1), tag, retag tag skb, s)
    | some behind =>
      let (tag, skb) := copied tag skb behind
      let (early, skb, s) ← insertFrame cfg tx e s skb
      some (early, tag, skb, s)
  else
    let (early, skb, s) ← insertFrame cfg tx e s skb
    some (early, tag, skb, s)

/-- The last check: the source has to be ours. -/
def checked (e : Env) (skb : Skb) : Int := if skb.mac 6 = e.myHwaddr then 0 else -1

/-- The end: our address, the flag for DHCP, and the tag. -/
def sendOff (cfg : Config) (e : Env) (tag : Option VlanTag) (skb : Skb) : Int × Skb :=
  let skb := retag tag (dhcpFlagBcast cfg (skb.putMac 6 e.myHwaddr))
  (checked e skb, skb)

/-- `rtw_br_client_tx`: the result, the frame handed on and the state. -/
def brClientTx (cfg : Config) (tx : Tx) (e : Env) (s : Adapter) (skb : Skb) : Option (Int × Skb × Adapter) :=
  if fastPath tx s skb then do
    let skb := skb.putMac 6 e.myHwaddr
    let s ← s.scdbEntry.bind s.refresh
    some (checked e skb, skb, s)
  else do
    let (tag, skb) := untag skb
    let (doNat25, s) ← shortcut e.fuel (recordBridge s skb) skb
    if doNat25 && !(cfg.a4Enable && cfg.fwAssocSuccess) then
      let (early, tag, skb, s) ← translate cfg tx e s tag skb
      match early with
      | some ret => some (ret, skb, s)
      | none =>
        let (ret, skb) := sendOff cfg e tag skb
        some (ret, skb, s)
    else
      let (ret, skb) := sendOff cfg e tag skb
      some (ret, skb, s)

end PhoebusBsp.G6

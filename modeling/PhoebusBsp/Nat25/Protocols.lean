import PhoebusBsp.Nat25.Neighbour
import PhoebusBsp.Nat25.Operations
import PhoebusBsp.Schemes.Checksum

/-! The branches of `nat25_db_handle` that both drivers have, protocol by protocol.

        12    14               DA 0..5, SA 6..11
        │0806 │ hrd │0800│hln│pln│op │ sender hw  ip │ target hw  ip │        ARP
        │8137 │ .. dest: net node sock, source: net node sock │              IPX
        │86dd │ .. payload length, next header, saddr, daddr │               IPv6
        │8863 │ ...                                                          PPPoE, in `Pppoe`

    An outgoing frame is put into the database under its source address, and our own address goes where the
    protocol repeats the sender's; an incoming one is looked up under its destination address, and the
    station found goes where the protocol repeats the receiver's. -/

namespace PhoebusBsp.Nat25
open Schemes Bytes

/-- What a call has besides the frame and the state: the memory that an allocation gets, what is on the stack,
    our own address, and whether `SUPPORT_RX_UNI2MCAST` is compiled in. -/
structure Env where
  ageing : Ageing
  fuel : ℕ
  kmalloc : Option ℕ
  tagBuf : Bytes
  myHwaddr : Mac
  rxUni2mcast : Bool

/-- Write a MAC address into a frame. -/
def Skb.putMac (skb : Skb) (off : ℕ) (m : Mac) : Skb := { skb with data := skb.data.write off 6 fun i => m.getD i 0 }

section PutMac

variable (skb : Skb) (off : ℕ) (m : Mac)

theorem Skb.putMac_data {i : ℕ} (hi : i < 6) : (skb.putMac off m).data (off + i) = m[i] := by
  simp only [Skb.putMac]
  rw [write_of_mem _ _ (by omega), Nat.add_sub_cancel_left]
  simp [Vector.getD, hi]

theorem Skb.putMac_of_notMem {i : ℕ} (hi : i < off ∨ off + 6 ≤ i) : (skb.putMac off m).data i = skb.data i := by
  simp only [Skb.putMac]
  exact write_of_notMem _ _ hi

theorem Skb.mac_putMac : (skb.putMac off m).mac off = m := by
  refine Vector.ext fun i hi => ?_
  rw [Skb.mac, Vector.getElem_ofFn]
  exact skb.putMac_data off m hi

theorem Skb.putMac_mac : skb.putMac off (skb.mac off) = skb := by
  have hdata : (skb.putMac off (skb.mac off)).data = skb.data := by
    funext i
    by_cases hi : off ≤ i ∧ i < off + 6
    · obtain ⟨k, rfl⟩ := Nat.exists_eq_add_of_le hi.1
      rw [skb.putMac_data off _ (show k < 6 by omega), Skb.mac, Vector.getElem_ofFn]
    · exact skb.putMac_of_notMem off _ (by omega)
  exact congrArg (fun data => ({ skb with data := data } : Skb)) hdata

end PutMac

def ethPIp : ℕ := 0x0800
def ethPArp : ℕ := 0x0806
def ethPIpx : ℕ := 0x8137
def ethPIpv6 : ℕ := 0x86dd

/-! ### Addresses -/

/-- A type and fields of the frame: each one's place in the address, its place in the frame and its size. -/
def generateNetworkAddr (b : Bytes) (type : UInt8) (fields : List (ℕ × ℕ × ℕ)) : NetworkAddr :=
  Vector.ofFn fun i =>
    if i.val = 0 then type
    else
      match fields.find? fun f => f.1 ≤ i.val ∧ i.val < f.1 + f.2.2 with
      | some f => b (f.2.1 + (i.val - f.1))
      | none => 0

def generateIpv4NetworkAddr (b : Bytes) (ipAddr : ℕ) : NetworkAddr :=
  generateNetworkAddr b nat25Ipv4 [(7, ipAddr, 4)]

def generateIpxNetworkAddrWithNode (b : Bytes) (ipxNetAddr ipxNodeAddr : ℕ) : NetworkAddr :=
  generateNetworkAddr b nat25Ipx [(1, ipxNetAddr, 4), (5, ipxNodeAddr, 6)]

def generateIpxNetworkAddrWithSocket (b : Bytes) (ipxNetAddr ipxSocketAddr : ℕ) : NetworkAddr :=
  generateNetworkAddr b nat25Ipx [(1, ipxNetAddr, 4), (5, ipxSocketAddr, 2)]

def generateAppleNetworkAddr (b : Bytes) (network node : ℕ) : NetworkAddr :=
  generateNetworkAddr b nat25Apple [(1, network, 2), (3, node, 1)]

def generateIpv6NetworkAddr (b : Bytes) (ipAddr : ℕ) : NetworkAddr :=
  generateNetworkAddr b nat25Ipv6 [(1, ipAddr, 16)]

/-! ### The database -/

/-- `__nat25_db_network_insert` of the frame's source under this address. -/
def insertSource (e : Env) (s : Pppoe) (skb : Skb) (networkAddr : NetworkAddr) : Option Pppoe := do
  let priv ← dbNetworkInsert e.fuel s.priv e.kmalloc (skb.mac 6) networkAddr
  some { s with priv := priv }

/-- `__nat25_db_network_lookup_and_replace` of a frame. -/
def lookupDestination (e : Env) (s : Pppoe) (skb : Skb) (networkAddr : NetworkAddr) : Option (Int × Skb × Pppoe) := do
  let (ret, data, priv) ← dbNetworkLookupAndReplace e.ageing e.fuel s.priv skb.data networkAddr
  some (ret, { skb with data := data }, { s with priv := priv })

/-- The frame to the station that was found, if one was. -/
def Skb.toStation (skb : Skb) (m : Option Mac) : Skb := m.elim skb (skb.putMac 0)

theorem lookupDestination_eq (e : Env) (s : Pppoe) (skb : Skb) (networkAddr : NetworkAddr) :
    lookupDestination e s skb networkAddr =
      (dbLookup e.ageing e.fuel s.priv networkAddr).map fun x =>
        (x.1, skb.toStation x.2.1, { s with priv := x.2.2 }) := by
  rw [lookupDestination, dbNetworkLookupAndReplace_eq]
  cases dbLookup e.ageing e.fuel s.priv networkAddr with
  | none => rfl
  | some found =>
    obtain ⟨ret, m, priv⟩ := found
    cases m <;> rfl

/-! ### ARP -/

def handleArp (e : Env) (s : Pppoe) (skb : Skb) (method : Method) : Option (Int × Skb × Pppoe) :=
  let arpPtr := 22
  let hln := (skb.data 18).toNat
  let pln := (skb.data 19).toNat
  if skb.data.be16 16 ≠ ethPIp then some (-1, skb, s)
  else
    match method with
    | .check => some (0, skb, s)
    | .insert => do
      let skb := skb.putMac arpPtr e.myHwaddr
      let s ← insertSource e s skb (generateIpv4NetworkAddr skb.data (arpPtr + hln))
      some (0, skb, s)
    | .lookup => do
      let (_, skb, s) ← lookupDestination e s skb (generateIpv4NetworkAddr skb.data (arpPtr + hln + (hln + pln)))
      some (0, skb.putMac (arpPtr + (hln + pln)) (skb.mac 0), s)
    | .other => some (-1, skb, s)

/-! ### IPX and AppleTalk -/

/-- What the code takes the rest of the frame for, and where it starts. -/
inductive Novell where
  | ipx (off : ℕ)
  | aarp (off : ℕ)
  | ddp (off : ℕ)

/-- The bytes at `off` are these. -/
def bytesAt (b : Bytes) (off : ℕ) (l : List UInt8) : Bool := (List.range l.length).map (fun i => b (off + i)) == l

/-- Behind a length: IPX in 802.3, in 802.2 or behind SNAP, or AppleTalk behind SNAP. -/
def classify8023 (b : Bytes) : Option Novell :=
  let framePtr := 14
  if bytesAt b framePtr [0xff, 0xff] then some (.ipx framePtr)
  else if b framePtr = 0xaa then
    if bytesAt b (framePtr + 3) [0x00, 0x00, 0x00, 0x81, 0x37] then some (.ipx (framePtr + 8))
    else if bytesAt b (framePtr + 3) [0x00, 0x00, 0x00, 0x80, 0xf3] then some (.aarp (framePtr + 8))
    else if bytesAt b (framePtr + 3) [0x08, 0x00, 0x07, 0x80, 0x9b] then some (.ddp (framePtr + 8))
    else none
  else if b framePtr = 0xe0 then
    if bytesAt b (framePtr + 3) [0xff, 0xff] then some (.ipx (framePtr + 3)) else none
  else none

/-- The source of an IPX frame is at 18 (net), 22 (node) and 28 (socket), its destination at 6, 10 and 16. -/
def handleIpx (e : Env) (s : Pppoe) (skb : Skb) (off : ℕ) : Method → Option (Int × Skb × Pppoe)
  | .check => some (if skb.mac 6 = skb.mac (off + 22) then 0 else -1, skb, s)
  | .insert =>
    if skb.mac 6 = skb.mac (off + 22) then do
      let networkAddr := generateIpxNetworkAddrWithSocket skb.data (off + 18) (off + 28)
      let skb := skb.putMac (off + 22) e.myHwaddr
      let s ← insertSource e s skb networkAddr
      some (0, skb, s)
    else do
      let s ← insertSource e s skb (generateIpxNetworkAddrWithNode skb.data (off + 18) (off + 22))
      some (0, skb, s)
  | .lookup =>
    if e.myHwaddr = skb.mac (off + 10) then do
      let (_, skb, s) ← lookupDestination e s skb (generateIpxNetworkAddrWithSocket skb.data (off + 6) (off + 16))
      some (0, skb.putMac (off + 10) (skb.mac 0), s)
    else do
      let (_, skb, s) ← lookupDestination e s skb (generateIpxNetworkAddrWithNode skb.data (off + 6) (off + 10))
      some (0, skb, s)
  | .other => some (-1, skb, s)

/-- `hw_len` is at 4, `pa_len` at 5; the source is at 8 (hardware), 15 (net) and 17 (node), the destination at 18,
    25 and 27. -/
def handleAarp (e : Env) (s : Pppoe) (skb : Skb) (off : ℕ) (method : Method) : Option (Int × Skb × Pppoe) :=
  if skb.data (off + 4) ≠ 6 ∨ skb.data (off + 5) ≠ 4 then some (-1, skb, s)
  else
    match method with
    | .check => some (0, skb, s)
    | .insert => do
      let skb := skb.putMac (off + 8) e.myHwaddr
      let s ← insertSource e s skb (generateAppleNetworkAddr skb.data (off + 15) (off + 17))
      some (0, skb, s)
    | .lookup => do
      let (_, skb, s) ← lookupDestination e s skb (generateAppleNetworkAddr skb.data (off + 25) (off + 27))
      some (0, skb.putMac (off + 18) (skb.mac 0), s)
    | .other => some (-1, skb, s)

/-- The source is at 6 (net) and 9 (node), the destination at 4 and 8. -/
def handleDdp (e : Env) (s : Pppoe) (skb : Skb) (off : ℕ) : Method → Option (Int × Skb × Pppoe)
  | .check => some (-1, skb, s)
  | .insert => do
    let s ← insertSource e s skb (generateAppleNetworkAddr skb.data (off + 6) (off + 9))
    some (0, skb, s)
  | .lookup => do
    let (_, skb, s) ← lookupDestination e s skb (generateAppleNetworkAddr skb.data (off + 4) (off + 8))
    some (0, skb, s)
  | .other => some (-1, skb, s)

def handleNovell (e : Env) (s : Pppoe) (skb : Skb) (novell : Option Novell) (method : Method) :
    Option (Int × Skb × Pppoe) :=
  match novell with
  | some (.ipx off) => handleIpx e s skb off method
  | some (.aarp off) => handleAarp e s skb off method
  | some (.ddp off) => handleDdp e s skb off method
  | none => some (-1, skb, s)

/-! ### Frames that are only let through -/

/-- EAPOL and some others: nothing is done, and `NAT25_CHECK` says that no copy is needed. -/
def handlePassed (s : Pppoe) (skb : Skb) : Method → Option (Int × Skb × Pppoe)
  | .check => some (-1, skb, s)
  | .insert => some (0, skb, s)
  | .lookup => some (0, skb, s)
  | .other => some (-1, skb, s)

/-! ### IPv6 -/

/-- `convert_ipv6_mac_to_mc`. -/
def convertIpv6MacToMc (skb : Skb) : Skb :=
  let data := (skb.data.write 0 2 fun _ => 0x33).memcpy 2 skb.data 50 4
  { skb with data := data }

/-- The payload of IPv6, as a buffer of its own, and back. -/
def behind (b : Bytes) (off : ℕ) : Bytes := fun i => b (off + i)

def putBehind (b : Bytes) (off : ℕ) (c : Bytes) : Bytes := fun i => if i < off then b i else c (i - off)

/-- The checksum of ICMPv6, over the payload and the pseudo header. -/
def icmp6Check (b : Bytes) : ℕ :=
  let payloadLen := b.be16 18
  inetCheck (wordSum b 22 16 + wordSum b 38 16 + payloadLen + 58 + wordSum b 54 payloadLen)

/-- The link-layer address of a message of neighbour discovery becomes ours. -/
def replaceNd (e : Env) (skb : Skb) : Option Skb := do
  if skb.data 20 = 58 ∧ 58 < skb.len then
    let (ret, payload, _) ← updateNdLinkLayerAddr e.fuel (behind skb.data 54) (skb.len - 54) e.myHwaddr
    let data := putBehind skb.data 54 payload
    if ret = 0 then some { skb with data := data }
    else
      let data := data.putBe16 56 0
      some { skb with data := data.putBe16 56 (icmp6Check data) }
  else some skb

/-- The lengths are unsigned. -/
def malformedIpv6 (skb : Skb) : Bool := (UInt32.ofNat skb.len - 14).toNat ≤ 40

def handleIpv6 (e : Env) (s : Pppoe) (skb : Skb) (method : Method) : Option (Int × Skb × Pppoe) :=
  if malformedIpv6 skb then some (-1, skb, s)
  else
    match method with
    | .check => some (if skb.data 0 &&& 1 = 1 then 0 else -1, skb, s)
    | .insert =>
      if bytesAt skb.data 22 (List.replicate 16 0) then some (0, skb, s)
      else do
        let s ← insertSource e s skb (generateIpv6NetworkAddr skb.data 22)
        let skb ← replaceNd e skb
        some (0, skb, s)
    | .lookup => do
      let (ret, skb, s) ← lookupDestination e s skb (generateIpv6NetworkAddr skb.data 38)
      if ret = 0 ∧ e.rxUni2mcast ∧ skb.data 38 = 0xff then some (0, convertIpv6MacToMc skb, s)
      else some (0, skb, s)
    | .other => some (-1, skb, s)

end PhoebusBsp.Nat25

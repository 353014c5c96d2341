import PhoebusBsp.Schemes.Checksum

/-! `rtk_dns_trap.c` on the big-endian target: a query for the name of the router is turned into the answer
    to it and sent back.

        MAC      VLAN   IP             UDP        DNS
        │DA│SA│t│····│ ... addresses │ports,len│id│u│qd│an│ns│ar│ question, ...  │ answer │
        0        14   ip               u          u + 8            u + 20          u + udph->len

    `data` is all the memory from the MAC header on. What the kernel provides is in `Config`. -/

namespace PhoebusBsp.Dns
open Schemes Bytes

abbrev Ipv4 := Vector UInt8 4
abbrev Ipv6 := Vector UInt8 16

/-- `len` is `skb->len`; the buffer ends at offset `size`. -/
structure Skb where
  data : Bytes
  /-- `skb->protocol` is `ETH_P_8021Q`. -/
  vlan : Bool
  len : ℕ
  size : ℕ

/-- `br0`, with the addresses in `ifa_list` and their labels, and those in `addr_list`. -/
structure Br0 where
  devAddr : Vector UInt8 6
  ifaList : List (String × Ipv4)
  addrList : List Ipv6
  /-- What `ifa->addr` leads to when `addr_list` is empty: `list_for_each_entry` leaves `ifa` at the head of the
      list, not at `NULL`. -/
  strayAddr : Ipv6

/-- The settings of the module, and what the kernel knows of `br0`. -/
structure Config where
  br0 : Option Br0
  domainName : List UInt8
  /-- With `CONFIG_CMCC`. -/
  extraDomainName : Option (List UInt8)
  /-- `dns_trap_all`, with `SUPPORT_TRAP_ALL`. -/
  trapAll : Bool
  /-- The address read from `controller_ip`, with `use_controller_info`. -/
  controller : Option Ipv4
  /-- `ipv6_find_hdr` for UDP, from the network header at the offset on; the IPv6 header comes before. -/
  ipv6FindUdp : Skb → ℕ → Option ℕ
  behind : ∀ skb ip u, ipv6FindUdp skb ip = some u → ip + 40 ≤ u

/-- The version in the first four bits of the IP header. -/
inductive IpVer where
  | v4 | v6
  deriving DecidableEq

namespace IpVer

/-- Where the source address is in the header. -/
def saddr : IpVer → ℕ
  | v4 => 12
  | v6 => 8

/-- Where the destination address is. -/
def daddr : IpVer → ℕ
  | v4 => 16
  | v6 => 24

/-- The length of an address. -/
def addrLen : IpVer → ℕ
  | v4 => 4
  | v6 => 16

/-- `tot_len` or `payload_len`. -/
def lenField : IpVer → ℕ
  | v4 => 2
  | v6 => 4

end IpVer

def ethHlen : ℕ := 14

namespace Skb

variable (skb : Skb)

/-- `skb->data + offset`. -/
def ip : ℕ := ethHlen + if skb.vlan then 4 else 0

/-- The upper half of the first byte of the IP header. -/
def version : ℕ := (skb.data skb.ip).toNat / 16

/-- The length of an IPv4 header, in words. -/
def ihl : ℕ := (skb.data skb.ip).toNat % 16

/-- `udph->len`. -/
def udpLen (u : ℕ) : ℕ := skb.data.be16 (u + 4)

end Skb

/-! ### Names -/

/-- `isupper` of the kernel, for Latin-1. -/
def isUpper (c : UInt8) : Bool := (0x41 ≤ c ∧ c ≤ 0x5a) ∨ (0xc0 ≤ c ∧ c ≤ 0xde ∧ c ≠ 0xd7)

/-- `tolower` of the kernel. -/
def tolower (c : UInt8) : UInt8 := if isUpper c then c + 32 else c

/-- `strncat(s, t, n)`. -/
def strncat (s t : List UInt8) (n : ℕ) : List UInt8 := s ++ t.take n

/-- The loop of `get_domain_name`: the offset where it stops and the name so far. Strings are without the
    zero at their end. -/
def domainLoop (dnsBody : Bytes) : ℕ → ℕ → ℕ → List UInt8 → ℕ × List UInt8
  | 0, offset, _, domain => (offset, domain)
  | fuel + 1, offset, bodyLen, domain =>
    if 0 < bodyLen then
      let tokenLen := (dnsBody offset).toNat
      if 0 < tokenLen ∧ tokenLen ≤ bodyLen then
        let token := ((List.range tokenLen).map fun i => dnsBody (offset + 1 + i)).takeWhile (· ≠ 0)
        let domain :=
          if domain = [] then token
          else
            let domain := strncat domain [0x2e] (128 - domain.length - 1)
            strncat domain token (128 - domain.length - 1)
        domainLoop dnsBody fuel (offset + (tokenLen + 1)) (bodyLen - (tokenLen + 1)) domain
      else (offset, domain)
    else (offset, domain)

/-- `get_domain_name`: type and name. -/
def getDomainName (dnsBody : Bytes) (bodyLen : ℕ) : ℕ × List UInt8 :=
  let x := domainLoop dnsBody bodyLen 0 bodyLen []
  (dnsBody.be16 (x.1 + 1), x.2)

/-- The string behind a leading `www.`. -/
def stripWww (s : List UInt8) : List UInt8 :=
  if s.take 4 = [0x77, 0x77, 0x77, 0x2e] then s.drop 4 else s

/-- `is_domain_name_equal`: case and `www.` do not count. -/
def isDomainNameEqual (a b : List UInt8) : Bool :=
  stripWww (a.map tolower) = stripWww (b.map tolower)

/-! ### The query -/

/-- `is_valid_dns_query_header` of the header at `d`. -/
def isValidDnsQueryHeader (b : Bytes) (d : ℕ) : Bool :=
  let u := b.be16 (d + 2)
  1 ≤ b.be16 (d + 4) ∧ (u &&& 0x8000) >>> 15 = 0 ∧ (u &&& 0x7100) >>> 11 = 0 ∧ (u &&& 0x70) >>> 4 = 0

/-- The first half of `rtk_dns_trap_enter`: the version and where the UDP header of a DNS packet is. -/
def findDns (cfg : Config) (skb : Skb) : Option (IpVer × ℕ) :=
  let b := skb.data
  let ip := skb.ip
  if skb.version = 4 then
    let u := ip + skb.ihl * 4
    if b (ip + 9) = 17 ∧ b.be16 (u + 2) = 53 ∧ b.be16 (ip + 6) &&& 0x3fff = 0 ∧
        20 ≤ (b.be16 (ip + 2) + 65536 - skb.udpLen u) % 65536 then
      some (.v4, u)
    else none
  else if skb.version = 6 then
    match cfg.ipv6FindUdp skb ip with
    | none => none
    | some u => if b.be16 (u + 2) = 53 then some (.v6, u) else none
  else none

/-! ### The answer -/

/-- What becomes of a packet. -/
inductive Outcome where
  /-- -1: the packet goes its way. -/
  | pass (skb : Skb)
  | sent (skb : Skb)
  /-- No room behind the packet. -/
  | undefined

/-- The loop over `ifa_list`. -/
def lanAddress : List (String × Ipv4) → Option Ipv4 → Option Ipv4
  | [], found => found
  | (label, address) :: rest, found =>
    if label = "br0:0" then some address
    else if label = "br0" then lanAddress rest (some address)
    else lanAddress rest found

/-- `dns_answer`: a pointer to the question, type A, class IN, TTL 0, four bytes of data. -/
def dnsAnswer : List UInt8 := [0xC0, 0x0C, 0x00, 0x01, 0x00, 0x01, 0x00, 0x00, 0x00, 0x00, 0x00, 0x04]
def dnsAnswerV6 : List UInt8 := [0xC0, 0x0C, 0x00, 0x1C, 0x00, 0x01, 0x00, 0x00, 0x00, 0x00, 0x00, 0x10]

/-- By how much an answer is longer than its query: the record with its data. -/
def extendLenV4 : ℕ := 16
def extendLenV6 : ℕ := 28

/-- The bytes are written from `off` on. -/
def putList (b : Bytes) (off : ℕ) (l : List UInt8) : Bytes := b.write off l.length fun i => l.getD i 0

/-- Two runs of bytes change places. -/
def swap (b : Bytes) (i j n : ℕ) : Bytes := (b.memcpy i b j n).memcpy j b i n

/-- The headers of the answer. -/
def turnAround (b : Bytes) (v : IpVer) (ip u extendLen : ℕ) (devAddr : Vector UInt8 6) : Bytes :=
  let b := b.memcpy 0 b 6 6
  let b := putList b 6 devAddr.toList
  let b := swap b (ip + v.saddr) (ip + v.daddr) v.addrLen
  let b := b.putBe16 (ip + v.lenField) (b.be16 (ip + v.lenField) + extendLen)
  let b := swap b u (u + 2) 2
  let b := b.putBe16 (u + 4) (b.be16 (u + 4) + extendLen)
  let b := b.putBe16 (u + 10) 0x8180
  let b := b.putBe16 (u + 12) 1
  let b := b.putBe16 (u + 14) 1
  let b := b.putBe16 (u + 16) 0
  b.putBe16 (u + 18) 0

/-- Addresses, protocol and length, as both checksums of UDP take them in. -/
def pseudoSum (b : Bytes) (v : IpVer) (ip u : ℕ) : ℕ :=
  wordSum b (ip + v.saddr) v.addrLen + wordSum b (ip + v.daddr) v.addrLen + 17 + b.be16 (u + 4)

/-- The checksums of the answer. -/
def putChecksums (b : Bytes) (v : IpVer) (ip u : ℕ) : Bytes :=
  let b :=
    match v with
    | .v4 =>
      let b := b.putBe16 (ip + 10) 0
      b.putBe16 (ip + 10) (inetCheck (wordSum b ip ((b ip).toNat % 16 * 4)))
    | .v6 => b
  let b := b.putBe16 (u + 6) 0
  b.putBe16 (u + 6) (inetCheck (pseudoSum b v ip u + wordSum b u (b.be16 (u + 4))))

/-- `rtk_dns_packet_recap` from the UDP header on, for an answer with this data. -/
def sendAnswer (skb : Skb) (v : IpVer) (u extendLen : ℕ) (br0 : Br0) (template : List UInt8)
    (address : Option (List UInt8)) : Outcome :=
  let ptr := u + skb.udpLen u
  if skb.size < ethHlen + skb.len + extendLen then .undefined
  else
    let skb := { skb with len := skb.len + extendLen, data := turnAround skb.data v skb.ip u extendLen br0.devAddr }
    let skb := { skb with data := putList skb.data ptr template }
    match address with
    | none => .pass skb
    | some address =>
      let skb := { skb with data := putList skb.data (ptr + 12) address }
      let skb := { skb with data := putChecksums skb.data v skb.ip u }
      .sent { skb with len := skb.len + ethHlen }

/-- `rtk_dns_packet_recap`. -/
def rtkDnsPacketRecap (cfg : Config) (skb : Skb) (type : ℕ) (v : IpVer) (u : ℕ) : Outcome :=
  match cfg.br0 with
  | none => .pass skb
  | some br0 =>
    if type = 0x01 then
      let address := cfg.controller.or (lanAddress br0.ifaList none)
      sendAnswer skb v u extendLenV4 br0 dnsAnswer (address.map Vector.toList)
    else if type = 0x1c then
      sendAnswer skb v u extendLenV6 br0 dnsAnswerV6 (some (br0.addrList.headD br0.strayAddr).toList)
    else .pass skb

/-- `rtk_dns_trap_enter`. -/
def rtkDnsTrapEnter (cfg : Config) (skb : Skb) : Outcome :=
  match findDns cfg skb with
  | none => .pass skb
  | some (v, u) =>
    let len : Int := skb.udpLen u - 8 - 12 - 4
    if len ≤ 1 ∨ 63 < len then .pass skb
    else if !isValidDnsQueryHeader skb.data (u + 8) then .pass skb
    else
      let (type, domain) := getDomainName (fun i => skb.data (u + 20 + i)) len.toNat
      if type ≠ 0x01 ∧ type ≠ 0x1c then .pass skb
      else if cfg.trapAll then rtkDnsPacketRecap cfg skb type v u
      else if isDomainNameEqual domain cfg.domainName ||
          cfg.extraDomainName.any (isDomainNameEqual domain) then
        rtkDnsPacketRecap cfg skb type v u
      else .pass skb

end PhoebusBsp.Dns

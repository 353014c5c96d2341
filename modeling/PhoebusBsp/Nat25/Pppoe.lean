import PhoebusBsp.Nat25.Db
import PhoebusBsp.Schemes.Spans

/-! PPPoE frames in `nat25_db_handle`.

        0     6     12   14      15    16   18      20
        │ DA  │ SA  │prot│ver,typ│code │sid │length │ tag │ tag │ ... │ padding │
                                                    └──── length ────┘         └ skb->len

    A request of the discovery phase gets a `Relay-Session-Id` tag that names the client, so that the answer
    to it can be delivered; a session is found in the database by the access concentrator and the id. -/

namespace PhoebusBsp.Nat25
open Schemes

/-- `data` is all the memory from `skb->data` on, of which the first `len` bytes are the frame and the first
    `size` belong to the buffer. -/
structure Skb where
  data : Bytes
  len : ℕ
  size : ℕ

namespace Skb

variable (skb : Skb)

def tailroom : ℕ := skb.size - skb.len

def protocol : ℕ := skb.data.be16 12
def code : UInt8 := skb.data 15
def sid : ℕ := skb.data.be16 16

/-- `ph->length`. -/
def length : ℕ := skb.data.be16 18

def setLength (n : ℕ) : Skb := { skb with data := skb.data.putBe16 18 n }

/-- The six bytes from `off` on. -/
def mac (off : ℕ) : Mac := Vector.ofFn fun i => skb.data (off + i)

end Skb

def ethPPppDisc : ℕ := 0x8863
def ethPPppSes : ℕ := 0x8864

def padiCode : UInt8 := 0x09
def padoCode : UInt8 := 0x07
def padrCode : UInt8 := 0x19
def padsCode : UInt8 := 0x65

/-- `ntohs(PTT_RELAY_SID)`. -/
def pttRelaySid : ℕ := 0x0110

def magicCode : ℕ := 0x8186
def magicCodeLen : ℕ := 2
def rtlRelayTagLen : ℕ := 6
def tagHdrLen : ℕ := 4
def waitTimePppoe : ℕ := 5

/-! ### Tags -/

/-- The loop of `__nat25_find_pppoe_tag` from offset `cur` on; a turn goes on by four bytes or more. -/
def findTagFrom (b : Bytes) (length type : ℕ) : ℕ → ℕ → Option ℕ
  | 0, _ => none
  | fuel + 1, cur =>
    if cur - 20 < length then
      if b.be16 cur = type then some cur
      else findTagFrom b length type fuel (cur + tagHdrLen + b.be16 (cur + 2))
    else none

/-- `__nat25_find_pppoe_tag`. -/
def findPppoeTag (skb : Skb) (type : ℕ) : Option ℕ :=
  findTagFrom skb.data skb.length type (skb.length + 1) 20

/-- `__nat25_add_pppoe_tag`, `none` for -1. -/
def addPppoeTag (skb : Skb) (tag : Bytes) : Option Skb :=
  let dataLen := tag.be16 2 + tagHdrLen
  if skb.tailroom < dataLen then none
  else
    let length := skb.length
    let skb := { skb with len := skb.len + dataLen }
    let skb := { skb with data := skb.data.memcpy (20 + dataLen) skb.data 20 length }
    let skb := skb.setLength (length + dataLen)
    some { skb with data := skb.data.memcpy 20 tag 0 dataLen }

/-- `skb_pull_and_merge`, `none` for -1. -/
def skbPullAndMerge (skb : Skb) (src len : ℕ) : Option Skb :=
  if skb.len < src + len ∨ skb.len < len then none
  else
    some { skb with
      data := skb.data.memcpy src skb.data (src + len) (skb.len - (src + len))
      len := skb.len - len }

/-! ### Discovery -/

/-- The end of `NAT25_INSERT`: `tag` has the old value in its place already. -/
def addRelayTag (skb : Skb) (tag : Bytes) (oldTagLen : ℕ) : Int × Skb :=
  let tag := tag.putBe16 0 pttRelaySid
  let tag := tag.putBe16 2 (magicCodeLen + rtlRelayTagLen + oldTagLen)
  let tag := tag.putBe16 4 magicCode
  let tag := tag.memcpy (4 + magicCodeLen) skb.data 6 6
  match addPppoeTag skb tag with
  | none => (-1, skb)
  | some skb => (0, skb)

/-- `NAT25_INSERT` of a request, with `addPPPoETag`. `tagBuf` is what is on the stack. -/
def insertRelayTag (tagBuf : Bytes) (skb : Skb) : Int × Skb :=
  match findPppoeTag skb pttRelaySid with
  | none => addRelayTag skb tagBuf 0
  | some oldTag =>
    let oldTagLen := skb.data.be16 (oldTag + 2)
    -- `sizeof(tag_buf)`
    if 40 < oldTagLen + tagHdrLen + magicCodeLen + rtlRelayTagLen then (-1, skb)
    else
      let tag := tagBuf.memcpy (4 + magicCodeLen + rtlRelayTagLen) skb.data (oldTag + 4) oldTagLen
      match skbPullAndMerge skb oldTag (tagHdrLen + oldTagLen) with
      | none => (-1, skb)
      | some skb =>
        -- the difference is taken modulo 2¹⁶
        addRelayTag (skb.setLength (skb.length + 65536 - tagHdrLen - oldTagLen)) tag oldTagLen

/-- `NAT25_LOOKUP` of an answer, with `addPPPoETag`. -/
def lookupRelayTag (skb : Skb) : Int × Skb :=
  match findPppoeTag skb pttRelaySid with
  | none => (-1, skb)
  | some ptr =>
    let tagType := skb.data.be16 ptr
    let tagLen := skb.data.be16 (ptr + 2)
    if tagType ≠ pttRelaySid ∨ tagLen < magicCodeLen + rtlRelayTagLen then (-1, skb)
    else if skb.data.be16 (ptr + 4) ≠ magicCode then (-1, skb)
    else
      let skb := { skb with data := skb.data.memcpy 0 skb.data (ptr + 4 + magicCodeLen) 6 }
      let offset := if magicCodeLen + rtlRelayTagLen < tagLen then tagHdrLen else 0
      let cut := tagHdrLen + magicCodeLen + rtlRelayTagLen - offset
      match skbPullAndMerge skb (ptr + offset) cut with
      | none => (-1, skb)
      | some skb =>
        let skb := skb.setLength (skb.length + 65536 - cut)
        if 0 < offset then
          (0, { skb with data := skb.data.putBe16 (ptr + 2) (tagLen - magicCodeLen - rtlRelayTagLen) })
        else (0, skb)

/-! ### All PPPoE frames -/

inductive Method where
  | check | insert | lookup
  /-- Any other value between `NAT25_MIN` and `NAT25_MAX`. -/
  | other

/-- What the functions use of `struct rtl8192cd_priv` for PPPoE. -/
structure Pppoe where
  priv : Priv
  addPPPoETag : Bool
  connectionInProgress : ℕ
  pppoeAddr : Mac

/-- `__nat25_generate_pppoe_network_addr`: the id of the session and the access concentrator. -/
def generatePppoeNetworkAddr (skb : Skb) (acMac : ℕ) : NetworkAddr :=
  Vector.ofFn fun i =>
    if i.val = 0 then nat25Pppoe
    else if i.val < 3 then skb.data (16 + (i.val - 1))
    else if i.val < 9 then skb.data (acMac + (i.val - 3))
    else 0

/-- The branch of `nat25_db_handle` for `ETH_P_PPP_DISC` and `ETH_P_PPP_SES`. -/
def handlePppoe (p : Ageing) (fuel : ℕ) (kmalloc : Option ℕ) (tagBuf : Bytes) (s : Pppoe) (skb : Skb) :
    Method → Option (Int × Skb × Pppoe)
  | .check => some (if skb.sid = 0 then 0 else 1, skb, s)
  | .insert =>
    if skb.sid = 0 then
      if skb.code = padiCode ∨ skb.code = padrCode then
        if s.addPPPoETag then
          let x := insertRelayTag tagBuf skb
          some (x.1, x.2, s)
        else if s.connectionInProgress ≠ 0 ∧ skb.mac 6 ≠ s.pppoeAddr then some (-2, skb, s)
        else
          let s := if s.connectionInProgress = 0 then { s with pppoeAddr := skb.mac 6 } else s
          some (0, skb, { s with connectionInProgress := waitTimePppoe })
      else some (-1, skb, s)
    else do
      let priv ← dbNetworkInsert fuel s.priv kmalloc (skb.mac 6) (generatePppoeNetworkAddr skb 0)
      let s := { s with priv := priv }
      if !s.addPPPoETag ∧ s.connectionInProgress ≠ 0 ∧ skb.mac 6 = s.pppoeAddr then
        some (0, skb, { s with connectionInProgress := 0 })
      else some (0, skb, s)
  | .lookup =>
    if skb.code = padoCode ∨ skb.code = padsCode then
      if s.addPPPoETag then
        let x := lookupRelayTag skb
        some (x.1, x.2, s)
      else if s.connectionInProgress = 0 then some (-1, skb, s)
      else
        let data := skb.data.write 0 6 fun i => s.pppoeAddr.getD i 0
        some (0, { skb with data := data }, { s with connectionInProgress := waitTimePppoe })
    else if skb.sid ≠ 0 then do
      let (_, data, priv) ← dbNetworkLookupAndReplace p fuel s.priv skb.data (generatePppoeNetworkAddr skb 6)
      some (0, { skb with data := data }, { s with priv := priv })
    else some (-1, skb, s)
  | .other => some (-1, skb, s)

end PhoebusBsp.Nat25

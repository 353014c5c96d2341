import PhoebusBsp.Schemes.Bytes
import PhoebusBsp.Schemes.Linked

/-! The database of `8192cd_br_ext.c` that maps network addresses to the stations behind which they are.

        nethash[h] ──▶ entry ──next_hash──▶ entry ──next_hash──▶ NULL
                   ◀──pprev_hash──      ◀──pprev_hash──

    Entries are allocated one by one. A step through a pointer to memory that is not allocated ends the
    call with `none`; so does a loop that takes more turns than `fuel`. `jiffies` counts on, the code
    sees its low 32 bits. -/

namespace PhoebusBsp.Nat25
open Schemes Linked

/-! ### Addresses -/

/-- `MAX_NETWORK_ADDR_LEN` bytes: the type of the network and the address in it. -/
abbrev NetworkAddr := Vector UInt8 17

/-- `ETH_ALEN` bytes. -/
abbrev Mac := Vector UInt8 6

instance neZero_six : NeZero 6 := ⟨by decide⟩

def nat25Ipv4 : UInt8 := 1
def nat25Ipv6 : UInt8 := 2
def nat25Ipx : UInt8 := 3
def nat25Apple : UInt8 := 4
def nat25Pppoe : UInt8 := 5

/-- The exclusive or of the bytes with the given numbers. -/
def xorBytes (a : NetworkAddr) (l : List ℕ) : UInt8 := l.foldl (fun x i => x ^^^ a.getD i 0) 0

/-- `x & (NAT25_HASH_SIZE - 1)`. -/
def hashMask (hashSize : ℕ) (x : UInt8) : ℕ := x.toNat &&& (hashSize - 1)

def networkHash (hashSize : ℕ) (a : NetworkAddr) : ℕ :=
  hashMask hashSize <|
    if a[0] = nat25Ipv4 then xorBytes a [7, 8, 9, 10]
    else if a[0] = nat25Ipx then xorBytes a [1, 2, 3, 4, 5, 6, 7, 8, 9, 10]
    else if a[0] = nat25Apple then xorBytes a [1, 2, 3]
    else if a[0] = nat25Pppoe then xorBytes a [0, 1, 2, 3, 4, 5, 6, 7, 8]
    else if a[0] = nat25Ipv6 then xorBytes a [1, 2, 3, 4, 5, 6, 7, 8, 9, 10, 11, 12, 13, 14, 15, 16]
    else xorBytes a (List.range 17)

theorem networkHash_lt {hashSize : ℕ} (h : 0 < hashSize) (a : NetworkAddr) : networkHash hashSize a < hashSize :=
  Nat.and_le_right.trans_lt (Nat.sub_one_lt_of_lt h)

/-! ### Time -/

/-- `NAT25_AGEING_TIME` seconds of `HZ` jiffies; half the range of the counter is enough for them. -/
structure Ageing where
  ageingTime : ℕ
  hz : ℕ
  fits : ageingTime * hz ≤ 2 ^ 31

def Ageing.jiffies (p : Ageing) : ℕ := p.ageingTime * p.hz

/-- `time_before_eq`: the difference, as a signed number, is not negative. -/
def timeBeforeEq (a b : UInt32) : Bool := (b - a).toNat < 2 ^ 31

def timeout (p : Ageing) (jiffies : UInt32) : UInt32 := jiffies - UInt32.ofNat p.jiffies

/-! ### Memory -/

/-- Where a pointer to an entry is kept: a chain's head or the `next_hash` of an entry. -/
abbrev Place := Loc ℕ ℕ

/-- `struct nat25_network_db_entry`. -/
structure Entry where
  networkAddr : NetworkAddr
  macAddr : Mac
  useCount : UInt32
  ageingTimer : UInt32
  nextHash : Option ℕ
  pprevHash : Option Place

/-- What the functions use of `struct rtl8192cd_priv`, the allocated entries and the clock. -/
structure Priv where
  /-- `NAT25_HASH_SIZE`. -/
  hashSize : ℕ
  hashPos : 0 < hashSize
  nethash : ℕ → Option ℕ
  heap : ℕ → Option Entry
  scdbMac : Mac
  scdbIp : UInt32
  nat25Disable : Bool
  jiffies : ℕ

namespace Priv

variable (s : Priv)

/-- The counter as the code reads it. -/
def clock : UInt32 := UInt32.ofNat s.jiffies

/-- Write to an entry. -/
def modify (a : ℕ) (f : Entry → Entry) : Option Priv := do
  let e ← s.heap a
  some { s with heap := Function.update s.heap a (some (f e)) }

/-- Write through a pointer to a pointer. -/
def writePlace (x : Place) (v : Option ℕ) : Option Priv :=
  match x with
  | .head h => some { s with nethash := Function.update s.nethash h v }
  | .next a => s.modify a fun e => { e with nextHash := v }

/-- Set `pprev_hash` of the entry, if there is one. -/
def setPprev (a : Option ℕ) (x : Option Place) : Option Priv :=
  match a with
  | none => some s
  | some a => s.modify a fun e => { e with pprevHash := x }

def kfree (a : ℕ) : Priv := { s with heap := Function.update s.heap a none }

end Priv

def hasExpired (p : Ageing) (s : Priv) (e : Entry) : Bool :=
  timeBeforeEq e.ageingTimer (timeout p s.clock)

/-! ### Chains -/

/-- `__network_hash_link`. -/
def networkHashLink (s : Priv) (ent : ℕ) (hash : ℕ) : Option Priv := do
  let s ← s.modify ent fun e => { e with nextHash := s.nethash hash }
  let s ← s.setPprev (s.nethash hash) (some (.next ent))
  let s := { s with nethash := Function.update s.nethash hash (some ent) }
  s.modify ent fun e => { e with pprevHash := some (.head hash) }

/-- `__network_hash_unlink`. -/
def networkHashUnlink (s : Priv) (ent : ℕ) : Option Priv := do
  let e ← s.heap ent
  let s ← s.writePlace (← e.pprevHash) e.nextHash
  let e ← s.heap ent
  let s ← s.setPprev e.nextHash e.pprevHash
  s.modify ent fun e => { e with nextHash := none, pprevHash := none }

/-- The entry of an address, from `db` on. -/
def findEntry (s : Priv) (networkAddr : NetworkAddr) : ℕ → Option ℕ → Option (Option ℕ)
  | _, none => some none
  | 0, some _ => none
  | fuel + 1, some db => do
    let e ← s.heap db
    if e.networkAddr = networkAddr then some (some db)
    else findEntry s networkAddr fuel e.nextHash

/-! ### The operations -/

/-- `__nat25_db_network_lookup_and_replace`: the result, the frame and the database. -/
def dbNetworkLookupAndReplace (p : Ageing) (fuel : ℕ) (s : Priv) (skb : Bytes) (networkAddr : NetworkAddr) :
    Option (Int × Bytes × Priv) := do
  match ← findEntry s networkAddr fuel (s.nethash (networkHash s.hashSize networkAddr)) with
  | none => some (0, skb, s)
  | some db =>
    let e ← s.heap db
    if hasExpired p s e then some (1, skb, s)
    else
      let s ← s.modify db fun e => { e with useCount := e.useCount + 1 }
      some (1, Bytes.write skb 0 6 fun i => e.macAddr.getD i 0, s)

/-- `__nat25_db_network_insert`. `kmalloc` is the memory that an allocation gets. -/
def dbNetworkInsert (fuel : ℕ) (s : Priv) (kmalloc : Option ℕ) (macAddr : Mac) (networkAddr : NetworkAddr) :
    Option Priv := do
  match ← findEntry s networkAddr fuel (s.nethash (networkHash s.hashSize networkAddr)) with
  | some db => s.modify db fun e => { e with macAddr := macAddr, ageingTimer := s.clock }
  | none =>
    match kmalloc with
    | none => some s
    | some db =>
      let e : Entry := ⟨networkAddr, macAddr, 1, s.clock, none, none⟩
      networkHashLink { s with heap := Function.update s.heap db (some e) } db (networkHash s.hashSize networkAddr)

section Sweeps

variable {σ : Type} (priv : σ → Priv)

/-- A loop over a chain that reads the next pointer before it deals with an entry. What is dealt with may be more than
    the database, so it is a state `σ` that has the database in it. -/
def sweepChain (body : ℕ → σ → Option σ) : ℕ → Option ℕ → σ → Option σ
  | _, none, x => some x
  | 0, some _, _ => none
  | fuel + 1, some f, x => do
    let e ← (priv x).heap f
    let x ← body f x
    sweepChain body fuel e.nextHash x

def sweepChains (body : ℕ → σ → Option σ) (fuel : ℕ) (x : σ) : Option σ :=
  (List.range (priv x).hashSize).foldlM (fun x i => sweepChain priv body fuel ((priv x).nethash i) x) x

/-- An entry that has run out loses a reference, and is dropped with the last one. -/
def expireWith (withPriv : σ → Priv → σ) (drop : Entry → ℕ → σ → Option σ) (p : Ageing) (f : ℕ) (x : σ) :
    Option σ := do
  let e ← (priv x).heap f
  if hasExpired p (priv x) e then
    let s ← (priv x).modify f fun e => { e with useCount := e.useCount - 1 }
    if e.useCount - 1 = 0 then drop e f (withPriv x s) else some (withPriv x s)
  else some x

end Sweeps

/-- The entry is unlinked and its memory given back. -/
def remove (f : ℕ) (s : Priv) : Option Priv := do
  let s ← networkHashUnlink s f
  some (s.kfree f)

/-- `nat25_db_cleanup`. -/
def dbCleanup (fuel : ℕ) (s : Priv) : Option Priv := sweepChains id remove fuel s

/-- The entry goes, and the shortcut with it when that has its MAC address. -/
def forget (e : Entry) (f : ℕ) (s : Priv) : Option Priv :=
  remove f (if s.scdbMac = e.macAddr then { s with scdbMac := Vector.replicate 6 0, scdbIp := 0 } else s)

def expireEntry (p : Ageing) : ℕ → Priv → Option Priv := expireWith id (fun _ s => s) forget p

/-- `nat25_db_expire`. -/
def dbExpire (p : Ageing) (fuel : ℕ) (s : Priv) : Option Priv :=
  if s.nat25Disable then some s else sweepChains id (expireEntry p) fuel s

/-- A database of 16 chains without entries. -/
def emptyPriv (jiffies : ℕ) : Priv :=
  ⟨16, by decide, fun _ => none, fun _ => none, Vector.replicate 6 0, 0, false, jiffies⟩

end PhoebusBsp.Nat25

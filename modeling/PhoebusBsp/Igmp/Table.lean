import Mathlib.Data.UInt
import PhoebusBsp.Schemes.Chain

/-! The group database of `rtk_igmp_snooping.c`: for every bridge module two hash tables of groups, in
    each group a chain of clients, in each client a chain of sources.

        module i ── version ── bucket ──▶ group ──▶ group ──▶ ...
                                            │
                                            └─▶ client ──▶ client ──▶ ...
                                                  └─▶ source ──▶ source ──▶ ...

    The chains are lists with the newest entry in front. Entries come from fixed pools; an entry keeps
    the index of its place in the pool, and a pool is the list of the free places. Beside them the tables
    keep, for the proofs only, the calls of the routines that take entries out of the pools and put them back. -/

namespace PhoebusBsp.Igmp
open Schemes

/-! ### Addresses -/

inductive IpVersion
  | v4
  | v6
  deriving DecidableEq

/-- The four words of an address; an IPv4 address is in the first. -/
structure Ip where
  w0 : UInt32
  w1 : UInt32
  w2 : UInt32
  w3 : UInt32
  deriving DecidableEq

/-- The words that comparisons look at. -/
def addr : IpVersion → Ip → Ip
  | .v4, a => ⟨a.w0, 0, 0, 0⟩
  | .v6, a => a

/-- `iprange_ipv6_lt`, on a big-endian machine. -/
def iprangeIpv6Lt (a b : Ip) : Bool :=
  if a.w0 ≠ b.w0 then a.w0 < b.w0
  else if a.w1 ≠ b.w1 then a.w1 < b.w1
  else if a.w2 ≠ b.w2 then a.w2 < b.w2
  else if a.w3 ≠ b.w3 then a.w3 < b.w3
  else false

/-- `IGMP_HASH_TBL_SIZE`. -/
def hashTblSize : ℕ := 32

def hashAlgorithm : IpVersion → Ip → ℕ
  | .v4, g => (31 &&& g.w0).toNat
  | .v6, g => (31 &&& (g.w3 ^^^ g.w2 ^^^ g.w1 ^^^ g.w0)).toNat

abbrev Mac := BitVec 48

/-! ### Entries -/

structure SourceEntry where
  id : ℕ
  sourceAddr : Ip
  portTimer : UInt32
  setOpFlag : Bool
  /-- The timer was running at the last sweep. -/
  fwdState : Bool
  deriving DecidableEq

/-- The protocol a client speaks; a new entry has none. -/
inductive IgmpVersion
  | none
  | igmpV1
  | igmpV2
  | igmpV3
  | mldV1
  | mldV2
  deriving DecidableEq

structure ExtraPort where
  valid : Bool
  devExtraPortId : UInt8
  deriving DecidableEq

structure ClientEntry where
  id : ℕ
  clientAddr : Ip
  clientMacAddr : Mac
  igmpVersion : IgmpVersion
  groupFilterTimer : UInt32
  joinSystemSecTime : UInt32
  inIfidx : UInt32
  extraPortInfo : ExtraPort
  /-- `reportVlanId`, when `reportCtagif` is set. -/
  reportVlan : Option UInt16
  /-- `reportSVlanId`, when `reportStagif` is set. -/
  reportSVlan : Option UInt16
  sourceList : List SourceEntry
  deriving DecidableEq

structure GroupEntry where
  id : ℕ
  groupAddr : Ip
  ipVersion : IpVersion
  groupIdx : ℕ
  clientList : List ClientEntry
  deriving DecidableEq

def sourceKey (v : IpVersion) (e : SourceEntry) : Ip := addr v e.sourceAddr

def clientKey (v : IpVersion) (e : ClientEntry) : Ip × Mac := (addr v e.clientAddr, e.clientMacAddr)

def groupKey (v : IpVersion) (e : GroupEntry) : Ip := addr v e.groupAddr

/-! ### The tables -/

/-- A bucket of a module: the module, the version and the index. -/
abbrev Bucket := ℕ × IpVersion × ℕ

/-- What the handlers do with memory: a new entry is allocated and linked in front, an old one is
    unlinked, cleared and freed. -/
inductive Call where
  | newGroup (b : Bucket)
  | deleteGroup (b : Bucket) (a : ℕ)
  | newClient (g : ℕ)
  | deleteClient (g a : ℕ)
  | newSource (c : ℕ)
  | deleteSource (c a : ℕ)
  deriving DecidableEq

/-- The tables of all modules and the pools. A group is in the bucket of its address, and no bucket
    has two groups with one address. -/
structure Tables where
  /-- `rtk_igmp_ipv4HashTable` and `rtk_igmp_ipv6HashTable` of a module. -/
  hashTable : ℕ → IpVersion → ℕ → List GroupEntry
  groupPool : List ℕ
  clientPool : List ℕ
  sourcePool : List ℕ
  /-- The index that was given to a group last; `ATOMIC_INIT(1)` at the start. The `atomic_t` is
      this number below `2 ^ 31`. -/
  groupIncIdx : ℕ
  /-- The calls so far. No handler looks at them. -/
  calls : List Call
  placed : ∀ i v h, ∀ g ∈ hashTable i v h, g.ipVersion = v ∧ hashAlgorithm v g.groupAddr = h
  distinct : ∀ i v h, ((hashTable i v h).map (groupKey v)).Nodup

def searchSourceEntry (v : IpVersion) (a : Ip) (l : List SourceEntry) : Option SourceEntry :=
  Chain.search (sourceKey v) (addr v a) l

def searchGroupEntry (t : Tables) (i : ℕ) (v : IpVersion) (g : Ip) : Option GroupEntry :=
  Chain.search (groupKey v) (addr v g) (t.hashTable i v (hashAlgorithm v g))

/-- The place of a group in the pool. -/
def groupId (t : Tables) (i : ℕ) (v : IpVersion) (g : Ip) : ℕ := (searchGroupEntry t i v g).elim 0 GroupEntry.id

/-- Take a client entry for a group and leave `pool`. -/
def Tables.takeClient (t : Tables) (i : ℕ) (v : IpVersion) (g : Ip) (pool : List ℕ) : Tables :=
  { t with clientPool := pool, calls := t.calls ++ [.newClient (groupId t i v g)] }

/-- Take and give back source entries, by these calls, and leave `pool`. -/
def Tables.withSources (t : Tables) (pool : List ℕ) (calls : List Call) : Tables :=
  { t with sourcePool := pool, calls := t.calls ++ calls }

/-- The entry of a client in a group. -/
def clientOf (t : Tables) (i : ℕ) (v : IpVersion) (g c : Ip) (mac : Mac) : Option ClientEntry :=
  (searchGroupEntry t i v g).bind fun e => Chain.search (clientKey v) (addr v c, mac) e.clientList

theorem hashAlgorithm_addr (v : IpVersion) (g : Ip) :
    hashAlgorithm v (addr v g) = hashAlgorithm v g := by
  cases v <;> rfl

theorem addr_addr (v : IpVersion) (a : Ip) : addr v (addr v a) = addr v a := by
  cases v <;> rfl

theorem hash_congr {v : IpVersion} {g g' : Ip} (h : addr v g = addr v g') :
    hashAlgorithm v g = hashAlgorithm v g' := by
  rw [← hashAlgorithm_addr v g, h, hashAlgorithm_addr]

/-- The tables after `rtk_igmp_init`, with the sizes of the pools. -/
def Tables.init (groupCount clientCount sourceCount : ℕ) : Tables where
  hashTable _ _ _ := []
  groupPool := List.range groupCount
  clientPool := List.range clientCount
  sourcePool := List.range sourceCount
  groupIncIdx := 1
  calls := []
  placed _ _ _ _ h := absurd h List.not_mem_nil
  distinct _ _ _ := List.nodup_nil

/-! ### Changing a chain of groups -/

/-- Put a chain in place of the one in the bucket of `g`. -/
def setChain (tbl : ℕ → IpVersion → ℕ → List GroupEntry) (i : ℕ) (v : IpVersion) (g : Ip)
    (l : List GroupEntry) : ℕ → IpVersion → ℕ → List GroupEntry :=
  fun j w h => if j = i ∧ w = v ∧ h = hashAlgorithm v g then l else tbl j w h

theorem setChain_self {tbl : ℕ → IpVersion → ℕ → List GroupEntry} {i : ℕ} {v : IpVersion} {g : Ip}
    {l : List GroupEntry} : setChain tbl i v g l i v (hashAlgorithm v g) = l :=
  if_pos ⟨rfl, rfl, rfl⟩

/-- What holds of every chain before and of the new chain holds of every chain after. -/
theorem setChain_all {P : IpVersion → ℕ → List GroupEntry → Prop}
    {tbl : ℕ → IpVersion → ℕ → List GroupEntry} {i : ℕ} {v : IpVersion} {g : Ip}
    {l : List GroupEntry} (htbl : ∀ j w h, P w h (tbl j w h)) (hl : P v (hashAlgorithm v g) l)
    (j : ℕ) (w : IpVersion) (h : ℕ) : P w h (setChain tbl i v g l j w h) := by
  unfold setChain
  split
  · next hc =>
    obtain ⟨-, rfl, rfl⟩ := hc
    exact hl
  · exact htbl j w h

def GroupEntry.withClients (f : List ClientEntry → List ClientEntry) (e : GroupEntry) : GroupEntry :=
  { e with clientList := f e.clientList }

/-- Change the clients of a group. -/
def Tables.modifyClients (t : Tables) (i : ℕ) (v : IpVersion) (g : Ip)
    (f : List ClientEntry → List ClientEntry) : Tables :=
  { t with
    hashTable := setChain t.hashTable i v g
      (Chain.update (groupKey v) (addr v g) (GroupEntry.withClients f)
        (t.hashTable i v (hashAlgorithm v g)))
    placed := setChain_all (P := fun w h l => ∀ e ∈ l, e.ipVersion = w ∧
        hashAlgorithm w e.groupAddr = h) t.placed (by
      intro e he
      rcases Chain.mem_update he with he | ⟨e', he', -, rfl⟩
      · exact t.placed _ _ _ e he
      · exact t.placed _ _ _ e' he')
    distinct := setChain_all (P := fun w _ l => (l.map (groupKey w)).Nodup) t.distinct (by
      have hkey : ∀ e, groupKey v e = addr v g →
          groupKey v (GroupEntry.withClients f e) = addr v g := fun _ h => h
      rw [Chain.keys_update hkey]
      exact t.distinct _ _ _) }

/-- Allocate a group entry and link it, unless the group is there. `none`: the pool is empty. -/
def openGroup (t : Tables) (i : ℕ) (v : IpVersion) (g : Ip) : Option Tables :=
  if hnew : searchGroupEntry t i v g = none then
    match t.groupPool with
    | [] => none
    | id :: pool => some
      { t with
        groupPool := pool
        groupIncIdx := t.groupIncIdx + 1
        calls := t.calls ++ [.newGroup (i, v, hashAlgorithm v g)]
        hashTable := setChain t.hashTable i v g
          (⟨id, addr v g, v, t.groupIncIdx + 1, []⟩ :: t.hashTable i v (hashAlgorithm v g))
        placed := setChain_all (P := fun w h l => ∀ e ∈ l, e.ipVersion = w ∧
            hashAlgorithm w e.groupAddr = h) t.placed (by
          intro e he
          rcases List.mem_cons.mp he with rfl | he
          · exact ⟨rfl, hashAlgorithm_addr v g⟩
          · exact t.placed _ _ _ e he)
        distinct := setChain_all (P := fun w _ l => (l.map (groupKey w)).Nodup) t.distinct (by
          rw [List.map_cons, List.nodup_cons]
          refine ⟨?_, t.distinct _ _ _⟩
          rw [groupKey, addr_addr]
          exact Chain.search_eq_none.mp hnew) }
  else some t

end PhoebusBsp.Igmp

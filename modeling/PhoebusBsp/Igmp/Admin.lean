import PhoebusBsp.Igmp.Ageing

/-! What the administrator and the network stack do to the tables: a MAC address is put on the black
    list of a device, a device goes, the database of a bridge is flushed. -/

namespace PhoebusBsp.Igmp
open Schemes

/-- Some flows of some modules are computed again. -/
def Db.reflushIn (db : Db) (sel : FlowKey → Prop) [DecidablePred sel] (is : List ℕ) : Db :=
  let (net, flows) := reflushModules db.clock db.tables sel is (db.net, db.flows)
  { db with net := net, flows := flows }

/-! ### Black list -/

/-- The part of `rt_igmpHook_blackList_t` that is looked at. -/
structure BlackPattern where
  ipVersion : IpVersion
  smacChk : Bool
  smac : Mac
  smacMask : Mac
  deriving DecidableEq

/-- A masked comparison of addresses. -/
def macMatch (smac smacMask : Mac) (m : Mac) : Bool := smac &&& smacMask == m &&& smacMask

def BlackPattern.hit (p : BlackPattern) (ifidx : UInt32) (e : ClientEntry) : Bool :=
  e.inIfidx == ifidx && p.smacChk && macMatch p.smac p.smacMask e.clientMacAddr

/-- One group: the first client that is hit is deleted, and the search in the group ends. -/
def blackListGroup (p : BlackPattern) (ifidx : UInt32) (i : ℕ) (db : Db) (e : GroupEntry) : Db :=
  match e.clientList.find? (p.hit ifidx) with
  | none => db
  | some c =>
    { db with tables := deleteClientEntry db.tables i p.ipVersion e.groupAddr c }.reflushIn
      (fun k => k.groupAddr = e.groupAddr) [i]

/-- `_rtk_igmp_blackList_updateFlow`, which a new entry of the black list ends with. -/
def blackListUpdateFlow (p : BlackPattern) (ifidx : UInt32) (db : Db) : Db :=
  (validModules db.net).foldl (fun db i => (List.range hashTblSize).foldl (fun db h =>
    (db.tables.hashTable i p.ipVersion h).foldl (blackListGroup p ifidx i) db) db) db

/-! ### Devices -/

/-- One group: the clients behind the device are deleted. -/
def clearGroupByDev (devIdx : UInt32) (i : ℕ) (v : IpVersion) (t : Tables) (e : GroupEntry) : Tables :=
  (e.clientList.filter fun c => c.inIfidx = devIdx).foldl
    (fun t c => deleteClientEntry t i v e.groupAddr c) t

def clearModuleByDev (devIdx : UInt32) (i : ℕ) (v : IpVersion) (t : Tables) : Tables :=
  (List.range hashTblSize).foldl (fun t h =>
    (t.hashTable i v h).foldl (clearGroupByDev devIdx i v) t) t

/-- `rtk_igmp_clearDataBaseByDev`. -/
def clearDataBaseByDev (net : Net) (devIdx : UInt32) (t : Tables) : Tables :=
  (validModules net).foldl (fun t i =>
    clearModuleByDev devIdx i .v6 (clearModuleByDev devIdx i .v4 t)) t

/-- `_rtk_igmp_unregisterLanDev`; with `del` the slot of the device is given up. -/
def unregisterLanDev (db : Db) (ifidx : UInt32) (del : Bool) : Db :=
  match Chain.search DevInfo.ifindex ifidx db.net.lanDevInfo with
  | none => db
  | some _ =>
    let db := { db with tables := clearDataBaseByDev db.net ifidx db.tables }.reflushIn
      (fun _ => True) (validModules db.net)
    if del then
      { db with net := { db.net with
        lanDevInfo := db.net.lanDevInfo.eraseP fun dev => dev.ifindex = ifidx } }
    else db

/-- `_rtk_igmp_unregisterWanDev` leaves the tables as they are. -/
def unregisterWanDev (db : Db) (ifidx : UInt32) (del : Bool) : Db :=
  if del then
    { db with net := { db.net with
      wanDevInfo := db.net.wanDevInfo.eraseP fun dev => dev.ifindex = ifidx } }
  else db

/-! ### Bridges -/

/-- Delete the groups of one version in a module. -/
def deleteGroups (i : ℕ) (v : IpVersion) (db : Db) : Db :=
  (List.range hashTblSize).foldl (fun db h =>
    (db.tables.hashTable i v h).foldl (fun db e => deleteGroupEntry db i v e) db) db

/-- The groups and the flows of one version in a module. -/
def flushModule (v : IpVersion) (db : Db) (i : ℕ) : Db :=
  let db := deleteGroups i v db
  { db with flows := invalidateMCastGroupFlow db.flows i v ⟨0, 0, 0, 0⟩ }

/-- `rtk_igmp_flush_Br_mdb`; without a bridge for all of them. -/
def flushBrMdb (db : Db) (brIfidx : Option UInt32) (v : IpVersion) : Db :=
  ((validModules db.net).filter fun i => brIfidx.all fun b => (db.net.brInfo i).ifindex = b).foldl
    (flushModule v) db

/-- Delete everything in a module. -/
def clearModule (i : ℕ) (db : Db) : Db :=
  let db := deleteGroups i .v6 (deleteGroups i .v4 db)
  { db with flows := (flowsOf db.flows i).foldl (deleteMcastFlowEntry · i) db.flows }

/-- `_rtk_igmp_unregisterBrDev`; with `del` the module is no longer in use. -/
def unregisterBrDev (db : Db) (ifidx : UInt32) (del : Bool) : Db :=
  match brModuleOf db.net ifidx with
  | none => db
  | some i =>
    let db := clearModule i db
    if del then { db with net := db.net.modifyBr i fun b => { b with validBit := false } } else db

end PhoebusBsp.Igmp

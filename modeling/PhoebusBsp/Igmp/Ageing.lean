import PhoebusBsp.Igmp.Member

/-! The sweep over all tables when the system timer expires.

        clock := time
        for every module in use
          for every group, IPv4 before IPv6
            for every client
              sources: note which timers run; in INCLUDE mode delete those that have run out
              client:  delete it when it wants nothing any more
              reflush the flows of the group if one of these changed
            delete the group if no client is left
          look at the flows that were not used lately

    Only the sweep moves the clock. The lists are walked with the next entry kept in hand, so an entry
    may be deleted in its own turn. -/

namespace PhoebusBsp.Igmp
open Schemes

/-- `FAIL` where an interface index is expected. -/
def failIdx : UInt32 := 0xffffffff

/-! ### Sources -/

/-- A source is deleted when its timer and that of the client have run out. -/
def SourceEntry.kept (now filter : UInt32) (e : SourceEntry) : Bool :=
  now < e.portTimer || now < filter

def SourceEntry.aged (now : UInt32) (e : SourceEntry) : SourceEntry :=
  { e with fwdState := now < e.portTimer }

/-- The result of `rtk_igmp_checkSourceTimer`. -/
def SourceEntry.changes (now filter : UInt32) (e : SourceEntry) : Bool :=
  !e.kept now filter || (e.aged now).fwdState != e.fwdState

/-- The loop of `rtk_igmp_checkClientEntryTimer` over the sources. -/
def Sources.age (now filter : UInt32) (s : Sources) : Sources :=
  let s := s.delete (SourceEntry.kept now filter)
  { s with sourceList := s.sourceList.map (SourceEntry.aged now) }

/-! ### Clients -/

/-- `rtk_igmp_getClientFwdIfIdx`. -/
def getClientFwdIfIdx (now : UInt32) (e : ClientEntry) : UInt32 :=
  if now < e.groupFilterTimer then e.inIfidx
  else if e.sourceList.any fun s => now < s.portTimer then e.inIfidx
  else failIdx

/-- The client with the sources it keeps. -/
def ClientEntry.aged (now : UInt32) (e : ClientEntry) : ClientEntry :=
  { e with
    sourceList := (e.sourceList.filter (SourceEntry.kept now e.groupFilterTimer)).map
      (SourceEntry.aged now) }

/-- The filter timer has run out since the last sweep. `sysTimerSec` is `igmp_sys_timer_sec`. -/
def clientStatusChange (sysTimerSec now filter : UInt32) : Bool :=
  filter ≤ now && now - filter ≤ sysTimerSec

/-- The flows of the group are to be computed again. A client that was deleted is all zero. -/
def ClientEntry.reflushes (sysTimerSec now : UInt32) (e : ClientEntry) : Bool :=
  let oldFwdIfidx := getClientFwdIfIdx now e
  let newFwdIfidx := getClientFwdIfIdx now (e.aged now)
  oldFwdIfidx ≠ newFwdIfidx || newFwdIfidx = failIdx ||
    clientStatusChange sysTimerSec now (if newFwdIfidx = failIdx then 0 else e.groupFilterTimer) ||
    e.sourceList.any (SourceEntry.changes now e.groupFilterTimer)

/-- The tables after a client has been looked at. -/
def ageClient (now : UInt32) (t : Tables) (i : ℕ) (v : IpVersion) (g : Ip) (e : ClientEntry) : Tables :=
  let s := Sources.age now e.groupFilterTimer ⟨e.sourceList, t.sourcePool⟩
  let calls := deleteSourceCalls e.id (e.sourceList.filter fun s => !s.kept now e.groupFilterTimer)
  let t := (t.withSources s.sourcePool calls).storeClient i v g (e.aged now)
  if getClientFwdIfIdx now (e.aged now) = failIdx then deleteClientEntry t i v g (e.aged now) else t

/-- `rtk_igmp_checkClientEntryTimer`. -/
def checkClientEntryTimer (sysTimerSec : UInt32) (i : ℕ) (v : IpVersion) (g : Ip) (db : Db)
    (e : ClientEntry) : Db :=
  let db' := { db with tables := ageClient db.clock.now db.tables i v g e }
  if e.reflushes sysTimerSec db.clock.now then db'.reflush g else db'

/-! ### Groups -/

/-- `rtk_igmp_checkGroupEntryTimer`. -/
def checkGroupEntryTimer (sysTimerSec : UInt32) (i : ℕ) (v : IpVersion) (db : Db) (e : GroupEntry) :
    Db :=
  dropEmptyGroup (e.clientList.foldl (checkClientEntryTimer sysTimerSec i v e.groupAddr) db) i v
    e.groupAddr

/-- The groups of one version in a module. -/
def ageGroups (sysTimerSec : UInt32) (i : ℕ) (v : IpVersion) (db : Db) : Db :=
  (List.range hashTblSize).foldl (fun db h =>
    (db.tables.hashTable i v h).foldl (checkGroupEntryTimer sysTimerSec i v) db) db

/-! ### Flows -/

/-- What becomes of a flow that nobody seems to use: the hardware knows whether it is idle
    (`floodflowdelete`). -/
def ageFlow (now : UInt32) (idle : FlowKey → Bool) (i : ℕ) (fl : Flows) (e : FlowEntry) : Flows :=
  if idle e.key then deleteMcastFlowEntry fl i e
  else fl.modify i e.key fun e => { e with refreshTime := now }

/-- All devices of the flow have snooping disabled. -/
def FlowEntry.flooded (net : Net) (e : FlowEntry) : Bool :=
  e.fwd.egressDevInfo.all fun port =>
    (devInfoOf net port).all fun dev => (dev.devConf e.key.ipVersion).snoopingDisable

/-- `rtk_igmp_agingMcastFlow`. -/
def agingMcastFlow (net : Net) (now : UInt32) (idle : FlowKey → Bool) (fl : Flows) (i : ℕ) : Flows :=
  ((flowsOf fl i).filter fun e => e.refreshTime + flowExpireTime < now ∧ e.flooded net).foldl
    (ageFlow now idle i) fl

/-- `rtk_igmp_deleteUnknownFloodMacstFlow`. -/
def deleteUnknownFloodMacstFlow (now : UInt32) (idle : FlowKey → Bool) (fl : Flows) (i : ℕ) : Flows :=
  (flowsOf fl i).foldl (ageFlow now idle i) fl

def ageFlows (idle : FlowKey → Bool) (i : ℕ) (db : Db) : Db :=
  let fl := agingMcastFlow db.net db.clock.now idle db.flows i
  { db with
    flows := if db.net.unknownFlood then deleteUnknownFloodMacstFlow db.clock.now idle fl i else fl }

/-! ### The sweep -/

/-- `rtk_igmp_startTime`. -/
def startTime : UInt32 := 0

/-- `rtk_igmp_sysUpSeconds` at a system time. -/
def sysUpSeconds (currentSystemTime : UInt32) : UInt32 :=
  if startTime < currentSystemTime then currentSystemTime - startTime
  else (0xffffffff - startTime) + currentSystemTime + 1

def ageModule (sysTimerSec : UInt32) (idle : FlowKey → Bool) (db : Db) (i : ℕ) : Db :=
  ageFlows idle i (ageGroups sysTimerSec i .v6 (ageGroups sysTimerSec i .v4 db))

/-- `rtk_igmp_maintainMulticastSnoopingTimerList`. -/
def maintainTimerList (sysTimerSec : UInt32) (idle : FlowKey → Bool) (db : Db)
    (currentSystemTime : UInt32) : Db :=
  (validModules db.net).foldl (ageModule sysTimerSec idle)
    { db with clock := { db.clock with now := sysUpSeconds currentSystemTime } }

/-- The clock shows the system time. -/
theorem sysUpSeconds_eq (time : UInt32) : sysUpSeconds time = time := by
  unfold sysUpSeconds startTime
  split
  · exact UInt32.sub_zero ..
  · next h =>
    obtain rfl : time = 0 := UInt32.le_antisymm (UInt32.not_lt.mp h) (UInt32.zero_le ..)
    rfl

end PhoebusBsp.Igmp

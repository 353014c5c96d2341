import PhoebusBsp.Igmp.Report

/-! Deleting clients and groups, and the reports of IGMPv1, IGMPv2 and MLDv1: a host joins a group or
    leaves it.

        join    reserved? ─▶ limits ─▶ white list ─▶ group ─▶ client ─▶ EXCLUDE {} ─▶ reflush
        leave   group ─▶ client ─▶ fast leave:  delete ─▶ empty group: delete ─▶ reflush
                                   otherwise:   cap the timers

    The search for the client moves the entry to the port the packet came in at, also for a leave. -/

namespace PhoebusBsp.Igmp
open Schemes

/-! ### Deleting -/

/-- `rtk_igmp_deleteClientEntry`: the sources go back to their pool first. The clients of a group are
    told apart by address and MAC, the groups of a chain by address. -/
def deleteClientEntry (t : Tables) (i : ℕ) (v : IpVersion) (g : Ip) (e : ClientEntry) : Tables :=
  { t with
    clientPool := e.id :: t.clientPool
    sourcePool := (Sources.deleteSourceList ⟨e.sourceList, t.sourcePool⟩).sourcePool
    calls := t.calls ++ (deleteSourceCalls e.id e.sourceList ++
      [Call.deleteClient (groupId t i v g) e.id]) }.modifyClients
      i v g (List.filter fun c => clientKey v c ≠ clientKey v e)

/-- `rtk_igmp_deleteClientList`. -/
def deleteClientList (t : Tables) (i : ℕ) (v : IpVersion) (e : GroupEntry) : Tables :=
  e.clientList.foldl (fun t c => deleteClientEntry t i v e.groupAddr c) t

/-- `rtk_igmp_unlinkGroupEntry` and `rtk_igmp_freeGroupEntry`. -/
def Tables.freeGroup (t : Tables) (i : ℕ) (v : IpVersion) (e : GroupEntry) : Tables :=
  { t with
    groupPool := e.id :: t.groupPool
    calls := t.calls ++ [.deleteGroup (i, v, hashAlgorithm v e.groupAddr) e.id]
    hashTable := setChain t.hashTable i v e.groupAddr
      ((t.hashTable i v (hashAlgorithm v e.groupAddr)).filter fun e' => groupKey v e' ≠ groupKey v e)
    placed := setChain_all (P := fun w h l => ∀ e ∈ l, e.ipVersion = w ∧
        hashAlgorithm w e.groupAddr = h) t.placed fun _ he =>
      t.placed _ _ _ _ (List.mem_of_mem_filter he)
    distinct := setChain_all (P := fun w _ l => (l.map (groupKey w)).Nodup) t.distinct
      (Chain.keys_filter_nodup (t.distinct _ _ _)) }

/-- The flows that `rtk_igmp_invalidateMCastGroupFlow` deletes. A group of zeros stands for all. -/
def staleFlows (fl : Flows) (i : ℕ) (v : IpVersion) (g : Ip) : List FlowEntry :=
  if g = ⟨0, 0, 0, 0⟩ then (flowsOf fl i).filter fun e => e.key.ipVersion = v
  else (fl.flowHashTable i (hashAlgorithm v g)).filter fun e =>
    e.key.ipVersion = v ∧ addr v e.key.groupAddr = addr v g

def invalidateMCastGroupFlow (fl : Flows) (i : ℕ) (v : IpVersion) (g : Ip) : Flows :=
  (staleFlows fl i v g).foldl (deleteMcastFlowEntry · i) fl

/-- `rtk_igmp_deleteGroupEntry`. -/
def deleteGroupEntry (db : Db) (i : ℕ) (v : IpVersion) (e : GroupEntry) : Db :=
  { db with
    tables := (deleteClientList db.tables i v e).freeGroup i v e
    flows := invalidateMCastGroupFlow db.flows i v e.groupAddr }

/-- A group without clients is deleted. -/
def dropEmptyGroup (db : Db) (i : ℕ) (v : IpVersion) (g : Ip) : Db :=
  match searchGroupEntry db.tables i v g with
  | some e => if e.clientList = [] then deleteGroupEntry db i v e else db
  | none => db

/-- `rtk_igmp_flow_reflush_update` for the flows of one group. -/
def Db.reflush (db : Db) (g : Ip) : Db :=
  let (net, flows) := flowReflushUpdate db.clock db.tables db.net db.flows g
  { db with net := net, flows := flows }

/-! ### Joining -/

/-- What every handler does after its checks: find or make the entries, work on the client, keep the
    outcome. -/
def enter (db : Db) (pkt : PktHdr) (v : IpVersion) (c g : Ip) (timer : UInt32)
    (core : ClientEntry → List ℕ → Outcome) : Nf × Db :=
  match openGroup db.tables pkt.moduleIndex v g with
  | none => (.drop, db)
  | some t =>
    match openClient db.clock.now pkt v g c timer t with
    | none => (.drop, { db with tables := t })
    | some (e, t) => finish { db with tables := t } pkt v g (core e t.sourcePool)

theorem learn_eq_enter (db : Db) (dev : DevInfo) (pkt : PktHdr) (v : IpVersion) (c g : Ip)
    (mcSource : Option Ip) (timer : UInt32) (core : DevConf → ClientEntry → List ℕ → Outcome) :
    learn db dev pkt v c g mcSource timer core =
      match checkReport db dev pkt v c g mcSource with
      | (.cont, db) => enter db pkt v c g timer fun e => core (dev.devConf v) (e.reported pkt v)
      | (ret, db) => (ret, db) := rfl

/-- The checks of `rtk_igmp_processJoin`. -/
def checkJoin (db : Db) (dev : DevInfo) (pkt : PktHdr) (v : IpVersion) (c g : Ip) : Nf × Db :=
  if reserved db.net v g then (.accept, db)
  else
    match groupLimitCheck db.net db.tables dev pkt.moduleIndex v g c pkt.devIfindex .drop with
    | (.cont, net) =>
      if filterWhiteListCheck net dev v false g c none pkt.smac then (.cont, { db with net := net })
      else (.drop, { db with net := net })
    | (ret, net) => (ret, { db with net := net })

/-- An IPv4 join is an IGMPv1 or an IGMPv2 report. -/
def joinVersion (igmpv1 : Bool) : IpVersion → IgmpVersion
  | .v4 => if igmpv1 then .igmpV1 else .igmpV2
  | .v6 => .mldV1

/-- The client wants every source for another interval. -/
def joinCore (now : UInt32) (pkt : PktHdr) (version : IgmpVersion) (conf : DevConf) (c : ClientEntry)
    (pool : List ℕ) : Outcome where
  complete := true
  client := { c with
    reportVlan := pkt.ingressCvid <|> c.reportVlan
    reportSVlan := pkt.ingressSvid <|> c.reportSVlan
    igmpVersion := version
    groupFilterTimer := now + conf.memberAgingInterval
    sourceList := [] }
  sourcePool := (Sources.deleteSourceList ⟨c.sourceList, pool⟩).sourcePool
  calls := deleteSourceCalls c.id c.sourceList

section Handlers

variable (db : Db) (dev : DevInfo) (pkt : PktHdr) (v : IpVersion)

/-- `rtk_igmp_processJoin`. A join that finds a pool empty is accepted all the same. -/
def processJoin (igmpv1 : Bool) (c g : Ip) : Nf × Db :=
  match checkJoin db dev pkt v c g with
  | (.cont, db) =>
    (.accept, (enter db pkt v c g 0
      (joinCore db.clock.now pkt (joinVersion igmpv1 v) (dev.devConf v))).2)
  | (ret, db) => (ret, db)

/-! ### Leaving -/

/-- No timer of the client runs beyond `last`. -/
def ClientEntry.cap (last : UInt32) (e : ClientEntry) : ClientEntry :=
  { e with
    sourceList := e.sourceList.map fun s =>
      { s with portTimer := if last < s.portTimer then last else s.portTimer }
    groupFilterTimer := if last < e.groupFilterTimer then last else e.groupFilterTimer }

/-- What a leave does to the client: with fast leave it is deleted. -/
def leaveClient (now : UInt32) (t : Tables) (conf : DevConf) (c g : Ip) : Tables :=
  match clientOf t pkt.moduleIndex v g c pkt.smac with
  | none => t
  | some e =>
    if conf.fastLeave then deleteClientEntry t pkt.moduleIndex v g e
    else t.storeClient pkt.moduleIndex v g
      ((e.seen pkt).cap (now + conf.lastMemberAgingInterval))

/-- `rtk_igmp_processLeave`. The flows are computed again only with fast leave. -/
def processLeave (c g : Ip) : Nf × Db :=
  let conf := dev.devConf v
  let db := dropEmptyGroup
    { db with tables := leaveClient pkt v db.clock.now db.tables conf c g } pkt.moduleIndex v g
  (.accept, if conf.fastLeave then db.reflush (addr v g) else db)

end Handlers

end PhoebusBsp.Igmp

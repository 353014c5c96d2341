import PhoebusBsp.Igmp.Flow
import PhoebusBsp.Schemes.Cursor

/-! The six handlers of IGMPv3 and MLDv2 group records.

    A handler checks the report, finds or makes the entries of the group and of the client, walks over
    the listed sources, and has the flows of the group computed again:

        reserved? ─▶ limits ─▶ white list ─▶ group ─▶ client ─▶ sources ─▶ reflush

    The walk counts the listed sources with `j` and reads them through the pointer `p_NsourceAddr`, which
    some paths of `rtk_igmp_processToExclude` and `rtk_igmp_processBlock` do not move. When a pool runs
    out the handler returns at once and leaves what it has done so far. -/

namespace PhoebusBsp.Igmp
open Schemes

/-- A report packet: `rtk_igmp_pktHdr_t`. -/
structure PktHdr where
  devIfindex : UInt32
  moduleIndex : ℕ
  smac : Mac
  extPort : ExtraPort
  /-- `ingressCvid`, when `ingressCtagif` is set. -/
  ingressCvid : Option UInt16
  /-- `ingressSvid`, when `ingressStagif` is set. -/
  ingressSvid : Option UInt16
  deriving DecidableEq

/-- A group record; `numOfSrc` is the length of the list. -/
structure GroupRecord where
  groupAddr : Ip
  srcList : List Ip
  deriving DecidableEq

/-! ### Sources of a client -/

/-- The sources of a client and the free source entries. -/
structure Sources where
  sourceList : List SourceEntry
  sourcePool : List ℕ
  deriving DecidableEq

/-- Allocate a source entry and link it. `none`: the pool is empty. -/
def Sources.add (s : Sources) (v : IpVersion) (a : Ip) (timer : UInt32) : Option Sources :=
  match s.sourcePool with
  | [] => none
  | id :: pool => some ⟨⟨id, addr v a, timer, false, false⟩ :: s.sourceList, pool⟩

/-- Change the entry of a source. -/
def Sources.modify (s : Sources) (v : IpVersion) (a : Ip) (f : SourceEntry → SourceEntry) : Sources :=
  { s with sourceList := Chain.update (sourceKey v) (addr v a) f s.sourceList }

def SourceEntry.setTimer (timer : UInt32) (e : SourceEntry) : SourceEntry :=
  { e with portTimer := timer }

def SourceEntry.setFlag (flag : Bool) (e : SourceEntry) : SourceEntry := { e with setOpFlag := flag }

/-- Delete the entries that are not kept; they go back to the pool one after the other. -/
def Sources.delete (s : Sources) (keep : SourceEntry → Bool) : Sources where
  sourceList := s.sourceList.filter keep
  sourcePool := (s.sourceList.filter fun e => !keep e).foldl (fun pool e => e.id :: pool) s.sourcePool

/-- The calls that delete sources of a client. -/
def deleteSourceCalls (c : ℕ) (l : List SourceEntry) : List Call := l.map fun e => .deleteSource c e.id

/-- The calls of a loop that links sources to a client: one for each entry it has taken from the pool. -/
def newSourceCalls (c : ℕ) (s s' : Sources) : List Call :=
  List.replicate (s.sourcePool.length - s'.sourcePool.length) (.newSource c)

/-- `rtk_igmp_deleteSourceList`. -/
def Sources.deleteSourceList (s : Sources) : Sources := s.delete fun _ => false

/-- The sources with `setOpFlag` still set are not in the report. -/
def Sources.deleteMarked (s : Sources) : Sources := s.delete fun e => !e.setOpFlag

def Sources.markAll (s : Sources) : Sources :=
  { s with sourceList := s.sourceList.map (SourceEntry.setFlag true) }

/-- What a turn does that needs a new entry. -/
def Sources.addThen (s : Sources) (v : IpVersion) (a : Ip) (timer : UInt32) (turn : Turn) :
    Turn × Sources :=
  match s.add v a timer with
  | some s => (turn, s)
  | none => (.stop, s)

/-! ### The loops over the listed sources -/

/-- Fast leave: the old sources are gone, and every listed one is linked. -/
def relinkSource (v : IpVersion) (timer : UInt32) (a : Ip) (s : Sources) : Turn × Sources :=
  s.addThen v a timer .advance

/-- `rtk_igmp_processIsInclude` (in both modes) and `rtk_igmp_processAllow`. -/
def includeSource (v : IpVersion) (timer : UInt32) (a : Ip) (s : Sources) : Turn × Sources :=
  match searchSourceEntry v a s.sourceList with
  | some _ => (.advance, s.modify v a (.setTimer timer))
  | none => s.addThen v a timer .advance

/-- `rtk_igmp_processToInclude`. -/
def toIncludeSource (v : IpVersion) (timer : UInt32) (a : Ip) (s : Sources) : Turn × Sources :=
  match searchSourceEntry v a s.sourceList with
  | some _ => (.advance, s.modify v a fun e => (e.setTimer timer).setFlag false)
  | none => s.addThen v a timer .advance

/-- `rtk_igmp_processIsExclude`, with the filter timer of the client. -/
def isExcludeSource (now filter : UInt32) (v : IpVersion) (timer : UInt32) (a : Ip) (s : Sources) :
    Turn × Sources :=
  match searchSourceEntry v a s.sourceList with
  | some _ =>
    if now < filter then
      (.advance, s.modify v a fun e =>
        (if e.portTimer ≤ now then e.setTimer now else e).setFlag false)
    else (.advance, s.modify v a (.setFlag false))
  | none => s.addThen v a (if now < filter then timer else now) .advance

/-- `rtk_igmp_processToExclude`. The pointer moves on only for a source that has run out, in EXCLUDE
    mode, and for a new source, in INCLUDE mode. -/
def toExcludeSource (now filter : UInt32) (v : IpVersion) (a : Ip) (s : Sources) : Turn × Sources :=
  match searchSourceEntry v a s.sourceList with
  | some e =>
    let s := s.modify v a (.setFlag false)
    if now < filter then if now < e.portTimer then (.stay, s) else (.advance, s)
    else (.stay, s)
  | none =>
    if now < filter then s.addThen v a filter .stay else s.addThen v a now .advance

/-- `rtk_igmp_processBlock`. In EXCLUDE mode the pointer moves on only for a source that has run out,
    which with fast leave every recorded one has; in INCLUDE mode only for one that is not recorded. -/
def blockSource (now filter : UInt32) (fastLeave : Bool) (v : IpVersion) (a : Ip) (s : Sources) :
    Turn × Sources :=
  match searchSourceEntry v a s.sourceList with
  | some e =>
    let s := if fastLeave then s.modify v a (.setTimer now) else s
    if now < filter then
      if !fastLeave && now < e.portTimer then (.stay, s) else (.advance, s)
    else (.stay, s)
  | none => if now < filter then s.addThen v a filter .stay else (.advance, s)

/-! ### What a record does to the client -/

/-- The client after its sources, whether the source pool was large enough, and the calls for the sources. -/
structure Outcome where
  complete : Bool
  client : ClientEntry
  sourcePool : List ℕ
  calls : List Call
  deriving DecidableEq

/-- A loop over the listed sources, and what follows when it comes to its end. -/
def walk (body : Ip → Sources → Turn × Sources) (srcList : List Ip) (c : ClientEntry) (s : Sources)
    (after : ClientEntry → Sources → ClientEntry × Sources) : Outcome :=
  match sweep body srcList.length srcList s with
  | (false, s') => ⟨false, { c with sourceList := s'.sourceList }, s'.sourcePool, newSourceCalls c.id s s'⟩
  | (true, s') =>
    let (c', s'') := after c s'
    ⟨true, { c' with sourceList := s''.sourceList }, s''.sourcePool, newSourceCalls c.id s s' ++
      deleteSourceCalls c.id (s'.sourceList.filter (· ∉ s''.sourceList))⟩

section Cores

variable (now : UInt32) (v : IpVersion) (conf : DevConf) (srcList : List Ip) (c : ClientEntry)
  (pool : List ℕ)

/-- Fast leave in `rtk_igmp_processIsInclude` and `rtk_igmp_processToInclude`. -/
def fastInclude : Outcome :=
  let out := walk (relinkSource v (now + conf.memberAgingInterval)) srcList { c with groupFilterTimer := now }
    (Sources.deleteSourceList ⟨c.sourceList, pool⟩) Prod.mk
  { out with calls := deleteSourceCalls c.id c.sourceList ++ out.calls }

def isInclude : Outcome :=
  if conf.fastLeave then fastInclude now v conf srcList c pool
  else
    walk (includeSource v (now + conf.memberAgingInterval)) srcList c ⟨c.sourceList, pool⟩ Prod.mk

def allow : Outcome :=
  walk (includeSource v (now + conf.memberAgingInterval)) srcList c ⟨c.sourceList, pool⟩ Prod.mk

/-- No source runs longer than the last member interval; those that run are marked. -/
def SourceEntry.capTimer (last : UInt32) (e : SourceEntry) : SourceEntry :=
  { e with
    setOpFlag := now < e.portTimer
    portTimer := if last < e.portTimer then last else e.portTimer }

def toInclude : Outcome :=
  if conf.fastLeave then fastInclude now v conf srcList c pool
  else
    let last := now + conf.lastMemberAgingInterval
    walk (toIncludeSource v (now + conf.memberAgingInterval)) srcList c
      ⟨c.sourceList.map (SourceEntry.capTimer now last), pool⟩ fun c s =>
        ({ c with
          groupFilterTimer := if last < c.groupFilterTimer then last else c.groupFilterTimer }, s)

/-- Delete what was not listed and start the filter timer. -/
def exclude (c : ClientEntry) (s : Sources) : ClientEntry × Sources :=
  ({ c with groupFilterTimer := now + conf.memberAgingInterval }, s.deleteMarked)

def isExclude : Outcome :=
  walk (isExcludeSource now c.groupFilterTimer v (now + conf.memberAgingInterval)) srcList c
    (Sources.markAll ⟨c.sourceList, pool⟩) (exclude now conf)

def toExclude : Outcome :=
  walk (toExcludeSource now c.groupFilterTimer v) srcList c (Sources.markAll ⟨c.sourceList, pool⟩)
    (exclude now conf)

def block : Outcome :=
  walk (blockSource now c.groupFilterTimer conf.fastLeave v) srcList c ⟨c.sourceList, pool⟩ Prod.mk

end Cores

/-! ### Clients -/

/-- A report may come in at another port than the last one. -/
def ClientEntry.seen (pkt : PktHdr) (e : ClientEntry) : ClientEntry :=
  { e with inIfidx := pkt.devIfindex, extraPortInfo := pkt.extPort }

/-- An entry from `rtk_igmp_allocateClientEntry`, with its filter timer. -/
def ClientEntry.fresh (now : UInt32) (pkt : PktHdr) (v : IpVersion) (c : Ip) (timer : UInt32)
    (id : ℕ) : ClientEntry where
  id := id
  clientAddr := addr v c
  clientMacAddr := pkt.smac
  igmpVersion := .none
  groupFilterTimer := timer
  joinSystemSecTime := now
  inIfidx := pkt.devIfindex
  extraPortInfo := pkt.extPort
  reportVlan := none
  reportSVlan := none
  sourceList := []

def reportVersion : IpVersion → IgmpVersion
  | .v4 => .igmpV3
  | .v6 => .mldV2

/-- What every report leaves in the entry. -/
def ClientEntry.reported (pkt : PktHdr) (v : IpVersion) (e : ClientEntry) : ClientEntry :=
  { e with
    reportVlan := pkt.ingressCvid <|> e.reportVlan
    reportSVlan := pkt.ingressSvid <|> e.reportSVlan
    igmpVersion := reportVersion v }

/-- Write an entry back. -/
def Tables.storeClient (t : Tables) (i : ℕ) (v : IpVersion) (g : Ip) (e : ClientEntry) : Tables :=
  t.modifyClients i v g (Chain.update (clientKey v) (clientKey v e) fun _ => e)

/-- Find the client in its group or link a new entry. `none`: the pool is empty. -/
def openClient (now : UInt32) (pkt : PktHdr) (v : IpVersion) (g c : Ip) (timer : UInt32) (t : Tables) :
    Option (ClientEntry × Tables) :=
  match clientOf t pkt.moduleIndex v g c pkt.smac with
  | some e => some (e.seen pkt, t)
  | none =>
    match t.clientPool with
    | [] => none
    | id :: pool =>
      let e := ClientEntry.fresh now pkt v c timer id
      some (e, (t.takeClient pkt.moduleIndex v g pool).modifyClients pkt.moduleIndex v g (e :: ·))

/-! ### Records -/

/-- The state of the module. -/
structure Db where
  clock : Clock
  tables : Tables
  net : Net
  flows : Flows

/-- The checks before a record is learnt. -/
def checkReport (db : Db) (dev : DevInfo) (pkt : PktHdr) (v : IpVersion) (c g : Ip)
    (mcSource : Option Ip) : Nf × Db :=
  if reserved db.net v g then (.accept, db)
  else
    match groupLimitCheck db.net db.tables dev pkt.moduleIndex v g c pkt.devIfindex .drop with
    | (.cont, net) =>
      if filterWhiteListCheck net dev v true g c mcSource pkt.smac then (.cont, { db with net := net })
      else (.drop, { db with net := net })
    | (ret, net) => (ret, { db with net := net })

/-- Keep what the record has made of the client, and compute the flows of the group again. -/
def finish (db : Db) (pkt : PktHdr) (v : IpVersion) (g : Ip) (out : Outcome) : Nf × Db :=
  let t := (db.tables.withSources out.sourcePool out.calls).storeClient pkt.moduleIndex v g out.client
  if out.complete then
    let (net, flows) := flowReflushUpdate db.clock t db.net db.flows (addr v g)
    (.cont, { db with tables := t, net := net, flows := flows })
  else (.drop, { db with tables := t })

/-- The five handlers that make entries: they differ in the source shown to the white list, in the
    filter timer of a new client and in what they do with the sources. -/
def learn (db : Db) (dev : DevInfo) (pkt : PktHdr) (v : IpVersion) (c g : Ip) (mcSource : Option Ip)
    (timer : UInt32) (core : DevConf → ClientEntry → List ℕ → Outcome) : Nf × Db :=
  match checkReport db dev pkt v c g mcSource with
  | (.cont, db) =>
    match openGroup db.tables pkt.moduleIndex v g with
    | none => (.drop, db)
    | some t =>
      match openClient db.clock.now pkt v g c timer t with
      | none => (.drop, { db with tables := t })
      | some (e, t) =>
        finish { db with tables := t } pkt v g (core (dev.devConf v) (e.reported pkt v) t.sourcePool)
  | (ret, db) => (ret, db)

/-- A record with one source shows it to the white list. -/
def singleSource : List Ip → Option Ip
  | [a] => some a
  | _ => none

section Handlers

variable (db : Db) (dev : DevInfo) (pkt : PktHdr) (v : IpVersion) (c : Ip) (rec : GroupRecord)

def processIsInclude : Nf × Db :=
  learn db dev pkt v c rec.groupAddr (singleSource rec.srcList) db.clock.now fun conf =>
    isInclude db.clock.now v conf rec.srcList

def processIsExclude : Nf × Db :=
  learn db dev pkt v c rec.groupAddr none 0 fun conf => isExclude db.clock.now v conf rec.srcList

def processToInclude : Nf × Db :=
  learn db dev pkt v c rec.groupAddr (singleSource rec.srcList) 0 fun conf =>
    toInclude db.clock.now v conf rec.srcList

def processToExclude : Nf × Db :=
  learn db dev pkt v c rec.groupAddr none 0 fun conf => toExclude db.clock.now v conf rec.srcList

def processAllow : Nf × Db :=
  learn db dev pkt v c rec.groupAddr (singleSource rec.srcList) db.clock.now fun conf =>
    allow db.clock.now v conf rec.srcList

/-- `rtk_igmp_processBlock` makes no entries and leaves the VLAN of the client. -/
def processBlock : Nf × Db :=
  match checkReport db dev pkt v c rec.groupAddr none with
  | (.cont, db) =>
    match clientOf db.tables pkt.moduleIndex v rec.groupAddr c pkt.smac with
    | none =>
      let (net, flows) :=
        flowReflushUpdate db.clock db.tables db.net db.flows (addr v rec.groupAddr)
      (.cont, { db with net := net, flows := flows })
    | some e =>
      finish db pkt v rec.groupAddr (block db.clock.now v (dev.devConf v) rec.srcList
        { e.seen pkt with igmpVersion := reportVersion v } db.tables.sourcePool)
  | (ret, db) => (ret, db)

end Handlers

end PhoebusBsp.Igmp

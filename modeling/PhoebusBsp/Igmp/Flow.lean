import PhoebusBsp.Igmp.Policy
import PhoebusBsp.Schemes.Slots

/-! Where a multicast data packet goes, and the flow cache that remembers it.

    `getFwdInfo` answers from a cached flow or computes the egress devices from the group database and
    records them as a flow; `getMulticastDataFwdInfo` joins the answers of combined bridges;
    `flowReflushUpdate` computes the recorded flows of a group again.

    What is told to the hardware through callbacks is left out. -/

namespace PhoebusBsp.Igmp
open Schemes

/-! ### Flows -/

/-- `rtk_igmp_multicastFwdInfo`. The used slots of `egressDevInfo` come first, so the array is the
    list of their devices. -/
structure FwdInfo where
  egressDevInfo : List UInt32
  cpuFlag : Bool
  reservedMCast : Bool
  unknownMCast : Bool
  copy2cpu : Bool
  dropPkt : Bool
  hwCbAcc : Bool
  deriving DecidableEq

/-- All zero. -/
def FwdInfo.clear : FwdInfo := ⟨[], false, false, false, false, false, false⟩

/-- `rtk_igmp_multicastDataInfo`. -/
structure DataInfo where
  ipVersion : IpVersion
  sourceIp : Ip
  groupAddr : Ip
  sport : UInt32
  dport : UInt32
  l4proto : UInt16
  /-- `vlanId`, when `vlanTagif` is set. -/
  vlanId : Option UInt16
  /-- `svlanId`, when `svlanTagif` is set. -/
  svlanId : Option UInt16
  /-- `SKIP_LEARNING` and `DUMMY_PKT` of `privateField`. -/
  skipLearning : Bool
  dummyPkt : Bool
  deriving DecidableEq

/-- What a flow is found by. -/
structure FlowKey where
  ipVersion : IpVersion
  serverAddr : Ip
  groupAddr : Ip
  sport : UInt32
  dport : UInt32
  ingressCvlan : Option UInt16
  ingressSvlan : Option UInt16
  l4proto : UInt16
  deriving DecidableEq

structure FlowEntry where
  id : ℕ
  key : FlowKey
  fwd : FwdInfo
  refreshTime : UInt32
  fwdPktCnt : UInt32
  defineFwdPktCnt : UInt32
  deriving DecidableEq

/-- A new entry is allocated and linked, an old one is unlinked, cleared and freed. -/
inductive FlowCall where
  | new (b : ℕ × ℕ)
  | delete (b : ℕ × ℕ) (a : ℕ)

/-- The flow tables of all modules and their pool, and the calls so far, which nothing looks at. -/
structure Flows where
  flowHashTable : ℕ → ℕ → List FlowEntry
  flowPool : List ℕ
  calls : List FlowCall

def DataInfo.key (d : DataInfo) : FlowKey where
  ipVersion := d.ipVersion
  serverAddr := addr d.ipVersion d.sourceIp
  groupAddr := addr d.ipVersion d.groupAddr
  sport := d.sport
  dport := d.dport
  ingressCvlan := d.vlanId
  ingressSvlan := d.svlanId
  l4proto := d.l4proto

def FlowKey.hash (k : FlowKey) : ℕ := hashAlgorithm k.ipVersion k.groupAddr

def Flows.modifyChain (fl : Flows) (i h : ℕ) (f : List FlowEntry → List FlowEntry) : Flows :=
  { fl with
    flowHashTable := fun j b =>
      if j = i ∧ b = h then f (fl.flowHashTable j b) else fl.flowHashTable j b }

/-- Change the flow with the key. -/
def Flows.modify (fl : Flows) (i : ℕ) (k : FlowKey) (f : FlowEntry → FlowEntry) : Flows :=
  fl.modifyChain i k.hash (Chain.update FlowEntry.key k f)

/-- `rtk_igmp_searchMcastFlowEntry`: a flow that is found counts as used now. -/
def searchMcastFlowEntry (now : UInt32) (fl : Flows) (i : ℕ) (k : FlowKey) :
    Option FlowEntry × Flows :=
  (Chain.search FlowEntry.key k (fl.flowHashTable i k.hash),
    fl.modify i k fun e => { e with refreshTime := now })

/-- `rtk_igmp_deleteMcastFlowEntry`. -/
def deleteMcastFlowEntry (fl : Flows) (i : ℕ) (e : FlowEntry) : Flows :=
  { fl.modifyChain i e.key.hash (List.filter fun e' => e'.id != e.id) with
    flowPool := e.id :: fl.flowPool
    calls := fl.calls ++ [.delete (i, e.key.hash) e.id] }

/-- The new entry is put in front of its chain. -/
def Flows.link (fl : Flows) (i : ℕ) (e : FlowEntry) : Flows :=
  { fl.modifyChain i e.key.hash (e :: ·) with calls := fl.calls ++ [.new (i, e.key.hash)] }

/-- The flows of a module, in the order the loops meet them. -/
def flowsOf (fl : Flows) (i : ℕ) : List FlowEntry :=
  (List.range hashTblSize).flatMap (fl.flowHashTable i)

/-- `IGMP_MCAST_FLOW_EXPIRE_TIME`. -/
def flowExpireTime : UInt32 := 140

/-- The flow that was used least recently; of several the first. -/
def oldestFlow : List FlowEntry → Option FlowEntry
  | [] => none
  | e :: es => some (es.foldl (fun old e => if e.refreshTime < old.refreshTime then e else old) e)

/-- `rtk_igmp_doMcastFlowRecycle`: delete the flows that have expired, or else the oldest. -/
def doMcastFlowRecycle (now : UInt32) (fl : Flows) (i : ℕ) : Flows :=
  match (flowsOf fl i).filter fun e => e.refreshTime + flowExpireTime < now with
  | [] =>
    match oldestFlow (flowsOf fl i) with
    | some e => deleteMcastFlowEntry fl i e
    | none => fl
  | expired => expired.foldl (deleteMcastFlowEntry · i) fl

/-- `rtk_igmp_allocateMcastFlowEntry`, after a recycling where the pool is empty. -/
def allocateMcastFlowEntry (now : UInt32) (fl : Flows) (i : ℕ) : Option ℕ × Flows :=
  let fl := if fl.flowPool = [] then doMcastFlowRecycle now fl i else fl
  match fl.flowPool with
  | [] => (none, fl)
  | id :: pool => (some id, { fl with flowPool := pool })

/-- `rtk_igmp_flowCbAppendOtherBrToCb` looks the flow up in the other modules. -/
def refreshOthers (net : Net) (now : UInt32) (fl : Flows) (i : ℕ) (k : FlowKey) : Flows :=
  ((validModules net).filter (· ≠ i)).foldl (fun fl j => (searchMcastFlowEntry now fl j k).2) fl

/-- What follows when a flow is new or has changed and a callback is registered. -/
def announceFlow (net : Net) (now : UInt32) (fl : Flows) (i : ℕ) (d : DataInfo) : Flows :=
  if d.skipLearning || !net.flowSetCb then fl
  else (refreshOthers net now fl i d.key).modify i d.key fun e =>
    { e with fwd := { e.fwd with hwCbAcc := true } }

/-- An address of zeros. -/
def noAddr (v : IpVersion) (a : Ip) : Bool := addr v a = ⟨0, 0, 0, 0⟩

/-- `rtk_igmp_recordMcastFlow`. A flow to no device is not kept. -/
def recordMcastFlow (net : Net) (now : UInt32) (fl : Flows) (i : ℕ) (d : DataInfo) (fwd : FwdInfo) :
    Flows :=
  if noAddr d.ipVersion d.sourceIp || noAddr d.ipVersion d.groupAddr then fl
  else
    match searchMcastFlowEntry now fl i d.key with
    | (none, fl) =>
      if fwd.egressDevInfo = [] then fl
      else
        match allocateMcastFlowEntry now fl i with
        | (none, fl) => fl
        | (some id, fl) =>
          announceFlow net now (fl.link i ⟨id, d.key, fwd, now, 1, 0⟩) i d
    | (some e, fl) =>
      if fwd.egressDevInfo = [] then deleteMcastFlowEntry fl i e
      else
        let fl := fl.modify i d.key fun e =>
          { e with refreshTime := now, fwdPktCnt := e.fwdPktCnt + 1 }
        if e.fwd.egressDevInfo = fwd.egressDevInfo ∧ e.fwd.copy2cpu = fwd.copy2cpu then fl
        else announceFlow net now (fl.modify i d.key fun e => { e with fwd := fwd }) i d

/-! ### The egress devices -/

/-- `_rtk_igmp_setEgressDevToFwdInfo`: a device takes one slot; when all are taken it is left out. -/
def setEgressDev (maxDevNum : ℕ) (l : List UInt32) (ifidx : UInt32) : List UInt32 :=
  Slots.put maxDevNum l ifidx

/-- A port of the bridge with snooping disabled gets everything. -/
def floodPort (net : Net) (v : IpVersion) (l : List UInt32) (port : UInt32) : List UInt32 :=
  match devInfoOf net port with
  | none => l
  | some dev =>
    if (dev.devConf v).snoopingDisable then
      if (dev.devConf v).forwardDisable then l else setEgressDev net.maxDevNum l port
    else l

/-- `_rtk_igmp_getWlanDevIfidx`: the index comes back in 16 bits. -/
def getWlanDevIfidx (net : Net) : Option UInt16 :=
  (net.lanDevInfo.find? DevInfo.wlan).map fun dev => dev.ifindex.toUInt16

/-- With `trapWlanToPS`, the first WLAN device gets the groups of the user. -/
def trapWlan (net : Net) (v : IpVersion) (g : Ip) (l : List UInt32) : List UInt32 :=
  if net.trapWlanToPS && net.userGroup v (addr v g) then
    match getWlanDevIfidx net with
    | some ifidx => setEgressDev net.maxDevNum l ifidx.toUInt32
    | none => l
  else l

/-- The client wants packets of the source, by its own filter or, when its device does not care for
    sources, at all. -/
def clientWants (now : UInt32) (careSource : Bool) (v : IpVersion) (s : Ip) (c : ClientEntry) :
    Bool :=
  if careSource then
    if c.groupFilterTimer ≤ now then
      match searchSourceEntry v s c.sourceList with
      | some e => now < e.portTimer
      | none => false
    else
      match searchSourceEntry v s c.sourceList with
      | none => true
      | some e => now < e.portTimer
  else
    if c.groupFilterTimer ≤ now then c.sourceList.any fun e => now < e.portTimer else true

/-- One turn of the loop over the clients of the group. -/
def addClient (net : Net) (now : UInt32) (v gv : IpVersion) (s : Ip) (l : List UInt32)
    (c : ClientEntry) : List UInt32 :=
  match devInfoOf net c.inIfidx with
  | none => l
  | some dev =>
    let conf := dev.devConf v
    if conf.forwardDisable then l
    else if conf.snoopingDisable then l
    else if clientWants now conf.careSource gv s c then setEgressDev net.maxDevNum l c.inIfidx
    else l

/-! ### Unknown groups -/

/-- `check_rate_limit_umc`; `false` drops the packet. -/
def checkRateLimitUmc (jiffies cycleDuration : UInt32) (r : RateLimit) : Bool × RateLimit :=
  let diff := if jiffies < r.cycleStartTime then (0xffffffff - r.cycleStartTime) + jiffies
    else jiffies - r.cycleStartTime
  if cycleDuration < diff then
    (true, { r with cycleStartTime := jiffies - diff % cycleDuration, counter := 1 })
  else if r.counter < r.rate then (true, { r with counter := r.counter + 1 })
  else (false, r)

/-- `rtk_igmp_anyDevRateLimitUMC`. -/
def anyDevRateLimitUmc (net : Net) (v : IpVersion) : Bool :=
  net.unknownFlood ||
    (net.lanDevInfo ++ net.wanDevInfo).any fun d => (d.devConf v).ratelimitUnkMc.rate != 0

/-- The loop that floods an unknown group to the ports of the bridge. `false`: a rate limit drops the
    packet. -/
def unknownFloodLoop (jiffies : UInt32) (v : IpVersion) :
    List UInt32 → Net → DataInfo → List UInt32 → Bool × Net × DataInfo × List UInt32
  | [], net, d, l => (true, net, d, l)
  | port :: ports, net, d, l =>
    match devInfoOf net port with
    | none => unknownFloodLoop jiffies v ports net d l
    | some dev =>
      let conf := dev.devConf v
      if conf.forwardDisable then unknownFloodLoop jiffies v ports net d l
      else if conf.ratelimitUnkMc.rate ≠ 0 then
        let d := if anyDevRateLimitUmc net .v4 || anyDevRateLimitUmc net .v6 then
            { d with skipLearning := true } else d
        let (ok, r) := checkRateLimitUmc jiffies net.rateLimitCycle conf.ratelimitUnkMc
        let net := net.modifyDev port fun dev =>
          { dev with
            devConf := fun w =>
              if w = v then { dev.devConf w with ratelimitUnkMc := r } else dev.devConf w }
        if ok then unknownFloodLoop jiffies v ports net d (setEgressDev net.maxDevNum l port)
        else (false, net, d, l)
      else unknownFloodLoop jiffies v ports net d (setEgressDev net.maxDevNum l port)

/-! ### The answer for one bridge -/

/-- The clock: `rtk_igmp_sysUpSeconds` and `jiffies`. -/
structure Clock where
  now : UInt32
  jiffies : UInt32
  deriving DecidableEq

/-- The result of a question: whether it succeeded, what was found, and what has changed. -/
structure Answer where
  success : Bool
  fwd : FwdInfo
  data : DataInfo
  net : Net
  flows : Flows

/-- The part of `__rtk_igmp_getMulticastDataFwdInfo` after `SKIP_CACHE`. -/
def computeFwdInfo (clock : Clock) (t : Tables) (net : Net) (fl : Flows) (i : ℕ) (d : DataInfo)
    (fwd : FwdInfo) : Answer :=
  let v := d.ipVersion
  let l := (net.brInfo i).ports.foldl (floodPort net v) fwd.egressDevInfo
  let l := trapWlan net v d.groupAddr l
  match searchGroupEntry t i v d.groupAddr with
  | some e =>
    let l := e.clientList.foldl (addClient net clock.now v e.ipVersion d.sourceIp) l
    let fwd := { fwd with egressDevInfo := l }
    ⟨true, fwd, d, net, recordMcastFlow net clock.now fl i d fwd⟩
  | none =>
    if net.unknownFlood then
      match unknownFloodLoop clock.jiffies v (net.brInfo i).ports net d l with
      | (true, net, d, l) =>
        let fwd := { fwd with egressDevInfo := l, unknownMCast := true }
        ⟨true, fwd, d, net, recordMcastFlow net clock.now fl i d fwd⟩
      | (false, net, d, l) => ⟨false, { fwd with egressDevInfo := l, dropPkt := true }, d, net, fl⟩
    else
      let fwd := { fwd with egressDevInfo := l }
      ⟨true, fwd, d, net, recordMcastFlow net clock.now fl i d fwd⟩

/-- A cached flow answers. -/
def useFlow (net : Net) (now : UInt32) (fl : Flows) (i : ℕ) (d : DataInfo) (e : FlowEntry)
    (copy2cpu : Bool) : Answer :=
  let fl := fl.modify i d.key fun e =>
    { e with
      fwdPktCnt := e.fwdPktCnt + 1
      defineFwdPktCnt := if d.dummyPkt then e.defineFwdPktCnt + 1 else e.defineFwdPktCnt }
  ⟨true, { e.fwd with copy2cpu := e.fwd.copy2cpu || copy2cpu }, d, net,
    if e.fwd.hwCbAcc then fl else announceFlow net now fl i d⟩

/-- `__rtk_igmp_getMulticastDataFwdInfo`. -/
def getFwdInfo (clock : Clock) (t : Tables) (net : Net) (fl : Flows) (i : ℕ)
    (searchCacheFlowFirst : Bool) (d : DataInfo) : Answer :=
  if reserved net d.ipVersion d.groupAddr then
    ⟨false, { FwdInfo.clear with cpuFlag := true, reservedMCast := true }, d, net, fl⟩
  else
    let copy2cpu := (checkGroupToPsTbl net d.ipVersion d.groupAddr).isSome
    let fwd := { FwdInfo.clear with copy2cpu := copy2cpu }
    if searchCacheFlowFirst then
      match searchMcastFlowEntry clock.now fl i d.key with
      | (some e, fl) =>
        if net.unknownFlood && e.fwd.unknownMCast &&
            (anyDevRateLimitUmc net .v4 || anyDevRateLimitUmc net .v6) then
          computeFwdInfo clock t net fl i d fwd
        else useFlow net clock.now fl i d e copy2cpu
      | (none, fl) => computeFwdInfo clock t net fl i d fwd
    else computeFwdInfo clock t net fl i d fwd

/-! ### Combined bridges -/

/-- What the answer of one bridge adds to the joint answer. -/
def FwdInfo.join (maxDevNum : ℕ) (fwd tmp : FwdInfo) (success : Bool) : FwdInfo :=
  { fwd with
    cpuFlag := fwd.cpuFlag || tmp.cpuFlag
    unknownMCast := fwd.unknownMCast || tmp.unknownMCast
    reservedMCast := fwd.reservedMCast || tmp.reservedMCast
    copy2cpu := fwd.copy2cpu || tmp.copy2cpu
    egressDevInfo :=
      if success then tmp.egressDevInfo.foldl (setEgressDev maxDevNum) fwd.egressDevInfo
      else fwd.egressDevInfo }

/-- The loop over the modules of one `combineId`, which ends when a module does not succeed. -/
def combineLoop (clock : Clock) (t : Tables) (searchCacheFlowFirst : Bool) :
    List ℕ → Answer → Answer
  | [], ans => ans
  | i :: is, ans =>
    let tmp := getFwdInfo clock t ans.net ans.flows i searchCacheFlowFirst ans.data
    let ans := { tmp with fwd := ans.fwd.join ans.net.maxDevNum tmp.fwd tmp.success }
    if tmp.success then combineLoop clock t searchCacheFlowFirst is ans else ans

/-- The modules that are asked: the module itself, or all that share its `combineId`. -/
def combined (net : Net) (i : ℕ) : List ℕ :=
  (validModules net).filter fun j => (net.brInfo j).combineId = (net.brInfo i).combineId

/-- `_rtk_igmp_getMulticastDataFwdInfo`. -/
def getMulticastDataFwdInfo (clock : Clock) (t : Tables) (net : Net) (fl : Flows) (i : ℕ)
    (searchCacheFlowFirst : Bool) (d : DataInfo) : Answer :=
  let ans :=
    if (net.brInfo i).combineId = 0 then getFwdInfo clock t net fl i searchCacheFlowFirst d
    else combineLoop clock t searchCacheFlowFirst (combined net i) ⟨false, .clear, d, net, fl⟩
  if ans.fwd.egressDevInfo = [] then { ans with fwd := { ans.fwd with dropPkt := true } } else ans

/-! ### Reflushing -/

/-- The packet that stands for a recorded flow. -/
def FlowEntry.data (e : FlowEntry) : DataInfo where
  ipVersion := e.key.ipVersion
  sourceIp := e.key.serverAddr
  groupAddr := e.key.groupAddr
  sport := e.key.sport
  dport := e.key.dport
  l4proto := e.key.l4proto
  vlanId := e.key.ingressCvlan
  svlanId := e.key.ingressSvlan
  skipLearning := false
  dummyPkt := false

/-- The walk along one chain, for the flows that are selected, which keeps the next entry before it deals
    with one: the entry may be deleted meanwhile. -/
def reflushWalk (clock : Clock) (t : Tables) (sel : FlowKey → Prop) [DecidablePred sel] (i h : ℕ)
    (s : Net × Flows) : Net × Flows :=
  (s.2.flowHashTable i h).foldl (fun s e =>
    match (s.2.flowHashTable i h).find? fun e' => e'.id = e.id with
    | none => s
    | some e =>
      if sel e.key then
        let ans := getMulticastDataFwdInfo clock t s.1 s.2 i false e.data
        (ans.net, ans.flows)
      else s) s

/-- `rtk_igmp_flow_reflush_update` for some modules. -/
def reflushModules (clock : Clock) (t : Tables) (sel : FlowKey → Prop) [DecidablePred sel]
    (is : List ℕ) (s : Net × Flows) : Net × Flows :=
  is.foldl (fun s i => (List.range hashTblSize).foldl (fun s h => reflushWalk clock t sel i h s) s) s

/-- `rtk_igmp_flow_reflush_update` for all modules and one group. -/
def flowReflushUpdate (clock : Clock) (t : Tables) (net : Net) (fl : Flows) (g : Ip) : Net × Flows :=
  reflushModules clock t (fun k => k.groupAddr = g) (validModules net) (net, fl)

end PhoebusBsp.Igmp

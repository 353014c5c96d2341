import PhoebusBsp.Igmp.Table

/-! Devices, bridges and the checks a report has to pass before it is learnt: reserved groups, the
    group, client and weight limits, and the white list. -/

namespace PhoebusBsp.Igmp
open Schemes

/-! ### Devices and bridges -/

/-- `ratelimit_unkMc`. -/
structure RateLimit where
  rate : UInt32
  cycleStartTime : UInt32
  counter : UInt32
  deriving DecidableEq

/-- The settings of a device for one IP version (`devConf.igmp` or `devConf.igmp6`). -/
structure DevConf where
  snoopingDisable : Bool
  forwardDisable : Bool
  fastLeave : Bool
  /-- `igmpv3CareSource`, `mldv2CareSource`. -/
  careSource : Bool
  memberAgingInterval : UInt32
  lastMemberAgingInterval : UInt32
  maxGroupSize : UInt32
  maxWeight : UInt32
  overWeightDrop : Bool
  /-- The indices of the white-list rules of the device. -/
  white : List ℕ
  ratelimitUnkMc : RateLimit
  deriving DecidableEq

structure Statistic where
  joinCnt : UInt32
  weightExceedCnt : UInt32
  deriving DecidableEq

/-- A slot of `rtk_igmp_lanDevInfo` or `rtk_igmp_wanDevInfo` that is in use. -/
structure DevInfo where
  ifindex : UInt32
  /-- The device has the flag `RTK_IFF_DOMAIN_WLAN`. -/
  wlan : Bool
  devConf : IpVersion → DevConf
  devStatistic : IpVersion → Statistic

/-- The limits of a bridge for one IP version. -/
structure BrLimits where
  sysMaxGroupSize : UInt32
  sysMaxClientSize : UInt32
  perClientMaxJoinGroupSize : UInt32
  sysMaxWeight : UInt32
  sysOverWeightDrop : Bool
  deriving DecidableEq

/-- A bridge: `brDevInfo` of a module. -/
structure BrInfo where
  validBit : Bool
  ifindex : UInt32
  /-- The devices in `port_list` of the bridge. -/
  ports : List UInt32
  combineId : UInt8
  /-- `sysIp4MaxGroupSize` and so on, and their IPv6 counterparts. -/
  limits : IpVersion → BrLimits
  sysMaxGroupSize : UInt32
  sysMaxClientSize : UInt32
  brStatistic : IpVersion → Statistic

/-- A range of groups, as the reserved groups and the weights have it. -/
structure GroupRange where
  ipVersion : IpVersion
  start : Ip
  stop : Ip
  deriving DecidableEq

/-- An entry of `gorup2PsListHead`. -/
structure ResvGroup where
  range : GroupRange
  isCopy2cpu : Bool
  deriving DecidableEq

/-- An entry of `groupWeightListHead`. -/
structure GroupWeight where
  devIdx : UInt32
  range : GroupRange
  weight : UInt32
  deriving DecidableEq

/-- A rule of the white list. -/
structure WhiteEntry where
  whiteListIdx : ℕ
  smacChk : Bool
  smac : Mac
  smacMask : Mac
  gipChk : Bool
  wlGroupIpStart : Ip
  wlGroupIpEnd : Ip
  sipChk : Bool
  wlSipStart : Ip
  wlSipEnd : Ip
  mcSipChk : Bool
  mcSipChkIgnoreNonIgmpv3Mldv2 : Bool
  wlMcSip : Ip
  wlMcSipEnd : Ip
  deriving DecidableEq

/-- Everything that is configured. The three sizes are from headers that are not in the source. -/
structure Net where
  /-- `IGMP_MAX_BR_MODULE_NUM`. -/
  maxBrModuleNum : ℕ
  /-- `IGMP_MAX_DEV_NUM`. -/
  maxDevNum : ℕ
  /-- `RATE_LIMIT_CYCLE_DEFINE_SECONDS * CONFIG_HZ`. -/
  rateLimitCycle : UInt32
  lanDevInfo : List DevInfo
  wanDevInfo : List DevInfo
  brInfo : ℕ → BrInfo
  resvGroups : List ResvGroup
  groupWeights : List GroupWeight
  whiteList : List WhiteEntry
  unknownFlood : Bool
  trapWlanToPS : Bool
  /-- `rt_igmp_userGroup_check`, which another module answers. -/
  userGroup : IpVersion → Ip → Bool
  /-- A callback for new and changed flows is registered (`hwCb.flowSetCbEvt`). -/
  flowSetCb : Bool

/-- `_rtk_igmp_devIfidx_to_devInfo`. -/
def devInfoOf (net : Net) (ifidx : UInt32) : Option DevInfo :=
  Chain.search DevInfo.ifindex ifidx (net.lanDevInfo ++ net.wanDevInfo)

/-- The modules in use. -/
def validModules (net : Net) : List ℕ :=
  (List.range net.maxBrModuleNum).filter fun i => (net.brInfo i).validBit

/-- `_rtk_igmp_devIfidx_to_BrDevInfo`. -/
def brModuleOf (net : Net) (ifidx : UInt32) : Option ℕ :=
  (validModules net).find? fun i => (net.brInfo i).ifindex = ifidx

/-- Change a device in its slot. -/
def Net.modifyDev (net : Net) (ifidx : UInt32) (f : DevInfo → DevInfo) : Net :=
  if (Chain.search DevInfo.ifindex ifidx net.lanDevInfo).isSome then
    { net with lanDevInfo := Chain.update DevInfo.ifindex ifidx f net.lanDevInfo }
  else { net with wanDevInfo := Chain.update DevInfo.ifindex ifidx f net.wanDevInfo }

def Net.modifyBr (net : Net) (i : ℕ) (f : BrInfo → BrInfo) : Net :=
  { net with brInfo := fun j => if j = i then f (net.brInfo j) else net.brInfo j }

/-! ### Ranges of groups -/

/-- A range of addresses with both ends. -/
def inRange (v : IpVersion) (start stop a : Ip) : Bool :=
  match v with
  | .v4 => start.w0 ≤ a.w0 && a.w0 ≤ stop.w0
  | .v6 => !(iprangeIpv6Lt a start || iprangeIpv6Lt stop a)

/-- An IPv4 range without an end is a single group. -/
def GroupRange.hit (r : GroupRange) (v : IpVersion) (g : Ip) : Bool :=
  match v, r.ipVersion with
  | .v6, .v6 => inRange .v6 r.start r.stop g
  | .v4, .v4 => if r.stop.w0 = 0 then r.start.w0 == g.w0 else inRange .v4 r.start r.stop g
  | _, _ => false

/-- `_rtk_igmp_checkGroupToPsTbl`. -/
def checkGroupToPsTbl (net : Net) (v : IpVersion) (g : Ip) : Option ResvGroup :=
  net.resvGroups.find? fun r => r.range.hit v g

/-- Reports for the group are ignored. -/
def reserved (net : Net) (v : IpVersion) (g : Ip) : Bool :=
  (checkGroupToPsTbl net v g).any fun r => !r.isCopy2cpu

/-- `_rtk_igmp_checkGroupWeightTbl`. -/
def checkGroupWeightTbl (net : Net) (ifidx : UInt32) (v : IpVersion) (g : Ip) : UInt32 :=
  match net.groupWeights.find? fun w => w.devIdx == ifidx && w.range.hit v g with
  | some w => w.weight
  | none => 0

/-! ### White list -/

/-- All checks of the rule that are on find their datum and match it. -/
def WhiteEntry.hit (e : WhiteEntry) (v : IpVersion) (isV3 : Bool) (g c : Ip) (mcSource : Option Ip)
    (smac : Option Mac) : Bool :=
  (!e.smacChk || smac.any fun m => e.smac &&& e.smacMask == m &&& e.smacMask) &&
  (!e.gipChk || inRange v e.wlGroupIpStart e.wlGroupIpEnd g) &&
  (!e.sipChk || inRange v e.wlSipStart e.wlSipEnd c) &&
  (!e.mcSipChk || (e.mcSipChkIgnoreNonIgmpv3Mldv2 && !isV3) ||
    mcSource.any fun s => inRange v e.wlMcSip e.wlMcSipEnd s)

/-- The two loops: for each rule of the device the search goes on behind the rule found last, and
    from the front again after it has reached the end. `enable`: a rule was looked at. -/
def whiteLoop (hit : WhiteEntry → Bool) (all : List WhiteEntry) :
    List ℕ → List WhiteEntry → Bool → Bool
  | [], _, enable => !enable
  | idx :: idxs, rest, enable =>
    match rest.dropWhile fun e => e.whiteListIdx != idx with
    | [] => whiteLoop hit all idxs all enable
    | e :: rest => if hit e then true else whiteLoop hit all idxs rest true

/-- An address of zeros stands for an unknown MAC. -/
def filterWhiteListCheck (net : Net) (dev : DevInfo) (v : IpVersion) (isV3 : Bool) (g c : Ip)
    (mcSource : Option Ip) (saMac : Mac) : Bool :=
  whiteLoop (fun e => e.hit v isV3 g c mcSource (if saMac = 0 then none else some saMac))
    net.whiteList (dev.devConf v).white net.whiteList false

/-! ### Weights -/

/-- The groups of one version in a module, in the order the loops meet them. -/
def groupsOf (t : Tables) (i : ℕ) (v : IpVersion) : List GroupEntry :=
  (List.range hashTblSize).flatMap (t.hashTable i v)

/-- What `rtk_igmp_nextValidGroupStatistic_get` has found so far: the group with the least index. -/
structure NextGroup where
  searchIdx : ℕ
  hit : Option (ℕ × Ip)

/-- One group: every client that counts makes it the group found. -/
def nextGroupStep (counts : ClientEntry → Bool) (searchMin : ℕ) (s : NextGroup) (e : GroupEntry) :
    NextGroup :=
  if searchMin ≤ e.groupIdx ∧ e.groupIdx ≤ s.searchIdx then
    e.clientList.foldl
      (fun s c => if counts c then ⟨e.groupIdx, some (e.groupIdx, e.groupAddr)⟩ else s) s
  else s

/-- The index and the address of the next group of a device or bridge from `getIdx` on
    (`rtk_igmp_nextValidGroupStatistic_get`, without the data about clients and flows that it
    collects on the way). -/
def nextValidGroup (net : Net) (t : Tables) (ifidx : UInt32) (v : IpVersion) (getIdx : ℕ) :
    Option (ℕ × Ip) :=
  let dev := (devInfoOf net ifidx).isSome
  let br := (brModuleOf net ifidx).isSome
  if !dev && !br then none
  else
    let modules := (validModules net).filter fun i => !br || (net.brInfo i).ifindex == ifidx
    (((modules.flatMap fun i => groupsOf t i v).foldl
      (nextGroupStep (fun c => (dev && c.inIfidx == ifidx) || br) getIdx)
      ⟨t.groupIncIdx, none⟩)).hit

/-- The loops of `rtk_igmp_weightOverCheck`. No group has an index above `groupIncIdx`, so
    `groupIncIdx + 1` rounds are enough. -/
def totalWeight (net : Net) (t : Tables) (ifidx : UInt32) (v : IpVersion) : ℕ → ℕ → UInt32 → UInt32
  | 0, _, total => total
  | fuel + 1, getIdx, total =>
    match nextValidGroup net t ifidx v getIdx with
    | none => total
    | some (idx, g) =>
      totalWeight net t ifidx v fuel (idx + 1) (total + checkGroupWeightTbl net ifidx v g)

/-- The weight of the groups of a device or bridge together with a new one is above its maximum. -/
def overWeight (net : Net) (t : Tables) (ifidx : UInt32) (v : IpVersion) (maxWeight : UInt32)
    (g : Ip) : Bool :=
  maxWeight ≠ 0 &&
    maxWeight < totalWeight net t ifidx v (t.groupIncIdx + 1) 0 0 + checkGroupWeightTbl net ifidx v g

def Statistic.exceeded (s : Statistic) : Statistic :=
  { s with weightExceedCnt := s.weightExceedCnt + 1 }

def Statistic.joined (s : Statistic) : Statistic := { s with joinCnt := s.joinCnt + 1 }

/-- The counters of one version. -/
def bump (v : IpVersion) (f : Statistic → Statistic) (s : IpVersion → Statistic) :
    IpVersion → Statistic :=
  fun w => if w = v then f (s w) else s w

/-- `rtk_igmp_weightOverCheck`: `false` when the group is too heavy. -/
def weightOverCheck (net : Net) (t : Tables) (dev : DevInfo) (i : ℕ) (v : IpVersion) (g : Ip) :
    Bool × Net :=
  let conf := dev.devConf v
  let br := net.brInfo i
  let devOver := overWeight net t dev.ifindex v conf.maxWeight g
  let brOver := overWeight net t br.ifindex v (br.limits v).sysMaxWeight g
  let net₁ := if devOver then
      net.modifyDev dev.ifindex fun d => { d with devStatistic := bump v .exceeded d.devStatistic }
    else net
  let net₂ := if brOver then
      net₁.modifyBr i fun b => { b with brStatistic := bump v .exceeded b.brStatistic }
    else net₁
  (!(devOver && conf.overWeightDrop) && !(brOver && (br.limits v).sysOverWeightDrop), net₂)

/-! ### Limits -/

/-- `rtk_igmp_nf_ret_e_t`. -/
inductive Nf
  | drop
  | accept
  | cont
  deriving DecidableEq

/-- The clients of a module with their groups, in the order the loops meet them. -/
def members (t : Tables) (i : ℕ) (v : IpVersion) : List (GroupEntry × ClientEntry) :=
  (groupsOf t i v).flatMap fun e => e.clientList.map fun c => (e, c)

/-- `rtk_igmp_client_cnt`: the first entry of the client is the one in this group. The IPv6 part
    compares the other way round: it stops at the first entry of another client and asks whether
    that is in another group. -/
def clientCnt (t : Tables) (i : ℕ) (v : IpVersion) (g c : Ip) : Bool :=
  match v with
  | .v4 =>
    match (members t i .v4).find? fun m => c.w0 == m.2.clientAddr.w0 with
    | some m => g.w0 == m.1.groupAddr.w0
    | none => false
  | .v6 =>
    match (members t i .v6).find? fun m => c != m.2.clientAddr with
    | some m => g != m.1.groupAddr
    | none => false

/-- `igmpTotalClientCnt`, `mldTotalClientCnt`. -/
def totalClientCnt (t : Tables) (i : ℕ) (v : IpVersion) : ℕ :=
  (members t i v).countP fun m => clientCnt t i v m.1.groupAddr m.2.clientAddr

/-- `specificClientJoinIGMPCnt`, `specificClientJoinMLDCnt`: the entries of the client, when it is
    one of this version. -/
def specificClientJoinCnt (t : Tables) (i : ℕ) (v w : IpVersion) (c : Ip) : ℕ :=
  if v = w then (members t i w).countP fun m => addr w c == addr w m.2.clientAddr else 0

/-- `igmpDevGroupCnt`, `mldDevGroupCnt`. -/
def devGroupCnt (t : Tables) (i : ℕ) (v : IpVersion) (ifidx : UInt32) : ℕ :=
  (members t i v).countP fun m => m.2.inIfidx == ifidx

/-- `igmpGroupAndDevHit || mldGroupAndDevHit`. -/
def groupAndDevHit (t : Tables) (i : ℕ) (v : IpVersion) (g : Ip) (ifidx : UInt32) : Bool :=
  (members t i v).any fun m => addr v g == addr v m.1.groupAddr && m.2.inIfidx == ifidx

/-- `clientInGroup`. The IPv6 part again finds the other clients. -/
def clientInGroup (e : GroupEntry) (c : Ip) : Bool :=
  match e.ipVersion with
  | .v4 => e.clientList.any fun m => c.w0 == m.clientAddr.w0
  | .v6 => e.clientList.any fun m => c != m.clientAddr

/-- A limit that is set has been reached. -/
def reached (limit : UInt32) (count : ℕ) : Bool := limit ≠ 0 && limit.toNat ≤ count

/-- The limit on the groups of a device. -/
def devFull (t : Tables) (dev : DevInfo) (i : ℕ) (v : IpVersion) (ifidx : UInt32) : Bool :=
  reached (dev.devConf v).maxGroupSize (devGroupCnt t i v ifidx)

/-- The checks on a group: a new one, or one that is new to the device. -/
def groupLimit (net : Net) (t : Tables) (dev : DevInfo) (i : ℕ) (v : IpVersion) (g : Ip)
    (ifidx : UInt32) : Bool × Net :=
  let br := net.brInfo i
  match searchGroupEntry t i v g with
  | none =>
    if reached (br.limits .v4).sysMaxGroupSize (groupsOf t i .v4).length then (false, net)
    else if reached (br.limits .v6).sysMaxGroupSize (groupsOf t i .v6).length then (false, net)
    else if reached br.sysMaxGroupSize ((groupsOf t i .v4).length + (groupsOf t i .v6).length) then
      (false, net)
    else
      let (light, net) := weightOverCheck net t dev i v g
      (light && !devFull t dev i v ifidx, net)
  | some _ => (groupAndDevHit t i v g ifidx || !devFull t dev i v ifidx, net)

/-- The checks on a client, made for the counts of either version: an old client joins a group, or a
    new one comes. -/
def clientLimit (br : BrInfo) (t : Tables) (i : ℕ) (v w : IpVersion) (g c : Ip) : Bool :=
  if specificClientJoinCnt t i v w c ≠ 0 then
    (searchGroupEntry t i v g).any (clientInGroup · c) ||
      !reached (br.limits w).perClientMaxJoinGroupSize (specificClientJoinCnt t i v w c)
  else
    !reached (br.limits w).sysMaxClientSize (totalClientCnt t i w) &&
      !reached br.sysMaxClientSize (totalClientCnt t i .v4 + totalClientCnt t i .v6)

/-- `rtk_igmp_group_limitCheck`. -/
def groupLimitCheck (net : Net) (t : Tables) (dev : DevInfo) (i : ℕ) (v : IpVersion) (g c : Ip)
    (ifidx : UInt32) (overLimitAction : Nf) : Nf × Net :=
  let net := (net.modifyDev dev.ifindex fun d =>
    { d with devStatistic := bump v .joined d.devStatistic }).modifyBr i fun b =>
      { b with brStatistic := bump v .joined b.brStatistic }
  let (ok, net) := groupLimit net t dev i v g ifidx
  let br := net.brInfo i
  if ok && clientLimit br t i v .v4 g c && clientLimit br t i v .v6 g c then (.cont, net)
  else (overLimitAction, net)

end PhoebusBsp.Igmp

import Mathlib.Data.Set.Card
import PhoebusBsp.Igmp.Blocked

/-! Where a data packet goes when no flow is cached for it: to the bridge ports without snooping and to
    the ports of the clients of the group that want the source, over all bridges that are combined. -/

namespace PhoebusBsp.Igmp
open Schemes Chain List

/-! ### What should get the packet -/

section Spec

variable (net : Net) (now : UInt32) (t : Tables) (v : IpVersion) (g s : Ip)

/-- A port with snooping disabled and forwarding enabled gets everything. -/
def Floods (port : UInt32) : Prop :=
  ∃ dev, devInfoOf net port = some dev ∧ (dev.devConf v).snoopingDisable = true ∧
    (dev.devConf v).forwardDisable = false

/-- The client has the source with a running timer. -/
def HasRunning (c : ClientEntry) : Prop :=
  ∃ e ∈ c.sourceList, sourceKey v e = addr v s ∧ now < e.portTimer

/-- The client has the source. -/
def HasSource (c : ClientEntry) : Prop := ∃ e ∈ c.sourceList, sourceKey v e = addr v s

/-- The client wants packets of the source, by its filter when its device cares for sources. -/
def Wants (careSource : Bool) (c : ClientEntry) : Prop :=
  if careSource then
    if now < c.groupFilterTimer then ¬HasSource v s c ∨ HasRunning now v s c
    else HasRunning now v s c
  else now < c.groupFilterTimer ∨ ∃ e ∈ c.sourceList, now < e.portTimer

instance (c : ClientEntry) : Decidable (HasRunning now v s c) :=
  inferInstanceAs (Decidable (∃ e ∈ c.sourceList, _))

instance (c : ClientEntry) : Decidable (HasSource v s c) :=
  inferInstanceAs (Decidable (∃ e ∈ c.sourceList, _))

instance (careSource : Bool) (c : ClientEntry) : Decidable (Wants now v s careSource c) :=
  inferInstanceAs (Decidable (ite _ _ _))

/-- A client of the group in a module. -/
def Member (i : ℕ) (c : ClientEntry) : Prop :=
  ∃ h, ∃ e ∈ t.hashTable i v h, groupKey v e = addr v g ∧ c ∈ e.clientList

/-- The devices that should get the packet through one bridge. -/
def egressOf (i : ℕ) : Set UInt32 :=
  {port | port ∈ (net.brInfo i).ports ∧ Floods net v port} ∪
  {port | ∃ c, Member t v g i c ∧ c.inIfidx = port ∧ ∃ dev, devInfoOf net port = some dev ∧
    (dev.devConf v).forwardDisable = false ∧ (dev.devConf v).snoopingDisable = false ∧
    Wants now v s (dev.devConf v).careSource c}

/-- The bridges that are asked: the bridge itself, or all in use that share its `combineId`. -/
def Asked (i j : ℕ) : Prop :=
  if (net.brInfo i).combineId = 0 then j = i
  else j < net.maxBrModuleNum ∧ (net.brInfo j).validBit = true ∧
    (net.brInfo j).combineId = (net.brInfo i).combineId

/-- The devices that should get the packet. -/
def egress (i : ℕ) : Set UInt32 := {port | ∃ j, Asked net i j ∧ port ∈ egressOf net now t v g s j}

end Spec

/-! ### One bridge -/

section Bridge

variable {net : Net} {now : UInt32} {t : Tables} {v : IpVersion} {g s : Ip} {i : ℕ} {c : ClientEntry}

/-- The group that the search finds has all the clients. -/
theorem member_iff : Member t v g i c ↔ ∃ e, searchGroupEntry t i v g = some e ∧ c ∈ e.clientList := by
  constructor
  · rintro ⟨h, e, he, hkey, hc⟩
    have hbucket : hashAlgorithm v g = h := by
      rw [← (t.placed i v h e he).2]
      exact hash_congr hkey.symm
    subst hbucket
    refine ⟨e, ?_, hc⟩
    rw [searchGroupEntry, ← hkey]
    exact search_eq_some (t.distinct i v _) he
  · rintro ⟨e, he, hc⟩
    exact ⟨_, e, mem_of_search he, key_of_search he, hc⟩

/-- The source is recorded at most once. -/
def RecordsOnce (v : IpVersion) (s : Ip) (c : ClientEntry) : Prop :=
  ∀ e ∈ c.sourceList, ∀ e' ∈ c.sourceList, sourceKey v e = addr v s → sourceKey v e' = addr v s → e = e'

instance (v : IpVersion) (s : Ip) (c : ClientEntry) : Decidable (RecordsOnce v s c) :=
  inferInstanceAs (Decidable (∀ e ∈ c.sourceList, ∀ e' ∈ c.sourceList, _))

theorem hasSource_iff : HasSource v s c ↔ searchSourceEntry v s c.sourceList ≠ none := by
  rw [searchSourceEntry, ← Option.isSome_iff_ne_none, search_isSome, mem_map]
  rfl

theorem hasRunning_iff (honce : RecordsOnce v s c) :
    HasRunning now v s c ↔ ∃ e, searchSourceEntry v s c.sourceList = some e ∧ now < e.portTimer := by
  constructor
  · rintro ⟨e, he, hkey, hrun⟩
    obtain ⟨e', hsearch⟩ := Option.ne_none_iff_exists'.mp (hasSource_iff.mp ⟨e, he, hkey⟩)
    obtain rfl := honce e he e' (mem_of_search hsearch) hkey (key_of_search hsearch)
    exact ⟨e, hsearch, hrun⟩
  · rintro ⟨e, hsearch, hrun⟩
    exact ⟨e, mem_of_search hsearch, key_of_search hsearch, hrun⟩

/-- The decision on a client is right when it records the source once. -/
theorem clientWants_iff {careSource : Bool} (honce : RecordsOnce v s c) :
    clientWants now careSource v s c = true ↔ Wants now v s careSource c := by
  unfold clientWants Wants
  rw [hasRunning_iff honce, hasSource_iff]
  cases careSource with
  | false =>
    by_cases hmode : now < c.groupFilterTimer
    · simp [hmode]
    · simp [hmode, UInt32.not_lt.mp hmode]
  | true =>
    by_cases hmode : now < c.groupFilterTimer
    · cases searchSourceEntry v s c.sourceList <;> simp [hmode]
    · cases searchSourceEntry v s c.sourceList <;> simp [hmode, UInt32.not_lt.mp hmode]

/-- What a bridge port is given by flooding. -/
def floodWant (net : Net) (v : IpVersion) (port : UInt32) : Option UInt32 :=
  (devInfoOf net port).bind fun dev =>
    if (dev.devConf v).snoopingDisable ∧ ¬(dev.devConf v).forwardDisable then some port else none

/-- What the port of a client is given. -/
def clientWant (net : Net) (now : UInt32) (v : IpVersion) (s : Ip) (c : ClientEntry) :
    Option UInt32 :=
  (devInfoOf net c.inIfidx).bind fun dev =>
    if ¬(dev.devConf v).forwardDisable ∧ ¬(dev.devConf v).snoopingDisable ∧
        clientWants now (dev.devConf v).careSource v s c then some c.inIfidx else none

theorem floodPort_eq (l : List UInt32) (port : UInt32) :
    floodPort net v l port = (floodWant net v port).elim l (Slots.put net.maxDevNum l) := by
  unfold floodPort floodWant setEgressDev
  cases devInfoOf net port with
  | none => rfl
  | some dev =>
    cases hs : (dev.devConf v).snoopingDisable <;> cases hf : (dev.devConf v).forwardDisable <;>
      simp [hs, hf]

theorem addClient_eq (l : List UInt32) (c : ClientEntry) :
    addClient net now v v s l c =
      (clientWant net now v s c).elim l (Slots.put net.maxDevNum l) := by
  unfold addClient clientWant setEgressDev
  cases devInfoOf net c.inIfidx with
  | none => rfl
  | some dev =>
    cases hs : (dev.devConf v).snoopingDisable <;> cases hf : (dev.devConf v).forwardDisable <;>
      cases hw : clientWants now (dev.devConf v).careSource v s c <;> simp [hs, hf, hw]

theorem floodWant_iff {port a : UInt32} :
    floodWant net v port = some a ↔ port = a ∧ Floods net v port := by
  unfold floodWant Floods
  cases devInfoOf net port with
  | none => simp
  | some dev => simp [and_comm]

theorem clientWant_iff {a : UInt32} (honce : RecordsOnce v s c) :
    clientWant net now v s c = some a ↔ c.inIfidx = a ∧ ∃ dev, devInfoOf net c.inIfidx = some dev ∧
      (dev.devConf v).forwardDisable = false ∧ (dev.devConf v).snoopingDisable = false ∧
      Wants now v s (dev.devConf v).careSource c := by
  unfold clientWant
  cases devInfoOf net c.inIfidx with
  | none => simp
  | some dev => simp [clientWants_iff honce, and_comm]

/-- What a port of the bridge is given when the group is not known. -/
def unknownWant (net : Net) (v : IpVersion) (port : UInt32) : Option UInt32 :=
  (devInfoOf net port).bind fun dev => if (dev.devConf v).forwardDisable then none else some port

/-- The device that the groups of the user are trapped to. -/
def trapWant (net : Net) (v : IpVersion) (g : Ip) : Option UInt32 :=
  if net.trapWlanToPS && net.userGroup v (addr v g) then (getWlanDevIfidx net).map UInt16.toUInt32 else none

/-- The devices that want slots for a bridge, in their order. -/
def offers (net : Net) (now : UInt32) (t : Tables) (d : DataInfo) (i : ℕ) : List UInt32 :=
  (net.brInfo i).ports.filterMap (floodWant net d.ipVersion) ++
    (trapWant net d.ipVersion d.groupAddr).toList ++
    match searchGroupEntry t i d.ipVersion d.groupAddr with
    | some e => e.clientList.filterMap (clientWant net now d.ipVersion d.sourceIp)
    | none => if net.unknownFlood then (net.brInfo i).ports.filterMap (unknownWant net d.ipVersion) else []

/-- Where unknown groups are flooded there is no limit on it. -/
def Unlimited (net : Net) : Prop :=
  net.unknownFlood = true → ∀ dev ∈ net.lanDevInfo ++ net.wanDevInfo, ∀ v,
    (dev.devConf v).ratelimitUnkMc.rate = 0

theorem trapWlan_eq (l : List UInt32) :
    trapWlan net v g l = Slots.fill net.maxDevNum l (trapWant net v g).toList := by
  unfold trapWlan trapWant
  split
  · cases getWlanDevIfidx net <;> rfl
  · rfl

/-- Without limits the loop gives slots to all ports. -/
theorem unknownFloodLoop_eq (jiffies : UInt32) (hflood : net.unknownFlood = true) (hlimit : Unlimited net)
    (d : DataInfo) (ports l : List UInt32) : unknownFloodLoop jiffies v ports net d l =
      (true, net, d, Slots.fill net.maxDevNum l (ports.filterMap (unknownWant net v))) := by
  induction ports generalizing l with
  | nil => rfl
  | cons port ports ih =>
    unfold unknownFloodLoop
    cases hdev : devInfoOf net port with
    | none =>
      rw [filterMap_cons_none (by rw [unknownWant, hdev, Option.bind_none])]
      exact ih l
    | some dev =>
      have hrate : (dev.devConf v).ratelimitUnkMc.rate = 0 := hlimit hflood dev (mem_of_search hdev) v
      simp only [hrate, ne_eq, not_true_eq_false, if_false, ih]
      split
      · next hoff => rw [filterMap_cons_none (by rw [unknownWant, hdev, Option.bind_some, if_pos hoff])]
      · next hon =>
        rw [filterMap_cons_some (by rw [unknownWant, hdev, Option.bind_some, if_neg hon])]
        rfl

/-- A question that succeeds, drops nothing and finds these devices. -/
structure Answer.Gives (ans : Answer) (net : Net) (d : DataInfo) (l : List UInt32) : Prop where
  success : ans.success = true
  data : ans.data = d
  net : ans.net = net
  dropPkt : ans.fwd.dropPkt = false
  egress : ans.fwd.egressDevInfo = l

variable {clock : Clock} {d : DataInfo} (hrule : reserved net d.ipVersion d.groupAddr = false)
include hrule

/-- The answer of one bridge. A group that is copied to the CPU is forwarded all the same. -/
theorem getFwdInfo_gives (clock : Clock) (fl : Flows)
    (hlimit : (searchGroupEntry t i d.ipVersion d.groupAddr).isSome ∨ Unlimited net) :
    (getFwdInfo clock t net fl i false d).Gives net d
      (Slots.fill net.maxDevNum [] (offers net clock.now t d i)) := by
  have hcompute : getFwdInfo clock t net fl i false d = computeFwdInfo clock t net fl i d
      { FwdInfo.clear with copy2cpu := (checkGroupToPsTbl net d.ipVersion d.groupAddr).isSome } := by
    rw [getFwdInfo, hrule, if_neg Bool.false_ne_true, if_neg Bool.false_ne_true]
  rw [hcompute, offers, Slots.fill_append, Slots.fill_append, ← Slots.foldl_eq_fill floodPort_eq, ← trapWlan_eq]
  cases hsearch : searchGroupEntry t i d.ipVersion d.groupAddr with
  | some e =>
    have hversion : e.ipVersion = d.ipVersion := (t.placed _ _ _ e (mem_of_search hsearch)).1
    simp only [computeFwdInfo, hsearch, hversion, ← Slots.foldl_eq_fill addClient_eq]
    exact ⟨rfl, rfl, rfl, rfl, rfl⟩
  | none =>
    rw [hsearch] at hlimit
    simp only [computeFwdInfo, hsearch]
    split
    · next hflood =>
      rw [unknownFloodLoop_eq clock.jiffies hflood (hlimit.resolve_left nofun)]
      exact ⟨rfl, rfl, rfl, rfl, rfl⟩
    · exact ⟨rfl, rfl, rfl, rfl, rfl⟩

/-- The loop over the bridges adds the devices of each to those it starts from. -/
theorem combineLoop_egress (clock : Clock) (hlimit : Unlimited net) (is : List ℕ) (ans : Answer) (hnet : ans.net = net)
    (hdata : ans.data = d) :
    (combineLoop clock t false is ans).fwd.dropPkt = ans.fwd.dropPkt ∧
      (combineLoop clock t false is ans).fwd.egressDevInfo = Slots.fill net.maxDevNum ans.fwd.egressDevInfo
        (is.flatMap fun j => Slots.fill net.maxDevNum [] (offers net clock.now t d j)) := by
  induction is generalizing ans with
  | nil => exact ⟨rfl, rfl⟩
  | cons i is ih =>
    have h := getFwdInfo_gives hrule clock ans.flows (t := t) (i := i) (Or.inr hlimit)
    unfold combineLoop
    rw [hnet, hdata]
    simp only [h.success, if_true]
    obtain ⟨hdrop, hegress⟩ := ih ⟨true, ans.fwd.join net.maxDevNum
      (getFwdInfo clock t net ans.flows i false d).fwd true, _, _, _⟩ h.net h.data
    refine ⟨hdrop, hegress.trans ?_⟩
    rw [flatMap_cons, Slots.fill_append, ← h.egress]
    rfl

end Bridge

/-! ### Combined bridges -/

/-- The devices that want slots for one of the bridges that are asked. -/
def offered (net : Net) (now : UInt32) (t : Tables) (d : DataInfo) (i : ℕ) : List UInt32 :=
  if (net.brInfo i).combineId = 0 then offers net now t d i else (combined net i).flatMap (offers net now t d)

section Combined

variable {net : Net} {t : Tables} {clock : Clock} {d : DataInfo} {i : ℕ}

/-- The modules of the loop are the bridges that are asked. -/
theorem mem_combined_iff {i j : ℕ} (hid : (net.brInfo i).combineId ≠ 0) :
    j ∈ combined net i ↔ Asked net i j := by
  unfold combined validModules Asked
  rw [if_neg hid]
  simp only [mem_filter, mem_range, decide_eq_true_eq, and_assoc]

theorem mem_offered {now port : UInt32} :
    port ∈ offered net now t d i ↔ ∃ j, Asked net i j ∧ port ∈ offers net now t d j := by
  unfold offered
  by_cases hid : (net.brInfo i).combineId = 0
  · simp [Asked, hid]
  · rw [if_neg hid, mem_flatMap]
    simp only [mem_combined_iff hid]

/-- Only devices that want one get a slot, and if they fit they all do. A rate limit on unknown groups matters
    only where other bridges are asked as well. -/
theorem decision_slots (clock : Clock) (hrule : reserved net d.ipVersion d.groupAddr = false) (fl : Flows)
    (hlimit : (net.brInfo i).combineId = 0 ∧ (searchGroupEntry t i d.ipVersion d.groupAddr).isSome ∨ Unlimited net) :
    let fwd := (getMulticastDataFwdInfo clock t net fl i false d).fwd
    fwd.egressDevInfo.Nodup ∧ (∀ port ∈ fwd.egressDevInfo, port ∈ offered net clock.now t d i) ∧
      (∀ U : List UInt32, U.length ≤ net.maxDevNum → offered net clock.now t d i ⊆ U →
        ∀ port ∈ offered net clock.now t d i, port ∈ fwd.egressDevInfo) ∧
      (fwd.dropPkt = true ↔ fwd.egressDevInfo = []) := by
  intro fwd
  have hdecide : ∀ {ans : Answer}, ans.fwd.dropPkt = false → getMulticastDataFwdInfo clock t net fl i false d =
      (if ans.fwd.egressDevInfo = [] then { ans with fwd := { ans.fwd with dropPkt := true } } else ans) →
      fwd.egressDevInfo = ans.fwd.egressDevInfo ∧ (fwd.dropPkt = true ↔ fwd.egressDevInfo = []) := by
    intro ans hdrop heq
    simp only [fwd, heq]
    split
    · next hnone => exact ⟨rfl, iff_of_true rfl hnone⟩
    · next hsome => exact ⟨rfl, iff_of_false (by rw [hdrop]; nofun) hsome⟩
  -- what is filled in, for the bridge alone and for all that are combined
  obtain ⟨xs, hegress, hdrop, hsub, hsup⟩ : ∃ xs, fwd.egressDevInfo = Slots.fill net.maxDevNum [] xs ∧
      (fwd.dropPkt = true ↔ fwd.egressDevInfo = []) ∧ xs ⊆ offered net clock.now t d i ∧
      ∀ U : List UInt32, U.length ≤ net.maxDevNum → offered net clock.now t d i ⊆ U →
        offered net clock.now t d i ⊆ xs := by
    by_cases hid : (net.brInfo i).combineId = 0
    · have h := getFwdInfo_gives hrule clock fl (hlimit.imp_left And.right)
      obtain ⟨hegress, hdrop⟩ := hdecide h.dropPkt (by rw [getMulticastDataFwdInfo, if_pos hid])
      rw [offered, if_pos hid]
      exact ⟨_, hegress.trans h.egress, hdrop, List.Subset.refl _, fun _ _ _ => List.Subset.refl _⟩
    · obtain ⟨hdrop', hslots⟩ := combineLoop_egress hrule clock (t := t)
        (hlimit.resolve_left fun h => hid h.1) (combined net i) ⟨false, .clear, d, net, fl⟩ rfl rfl
      obtain ⟨hegress, hdrop⟩ := hdecide hdrop' (by rw [getMulticastDataFwdInfo, if_neg hid])
      rw [offered, if_neg hid]
      refine ⟨_, hegress.trans hslots, hdrop, fun port hport => ?_, fun U hlen hU port hport => ?_⟩
      · obtain ⟨j, hj, hport⟩ := mem_flatMap.mp hport
        exact mem_flatMap.mpr ⟨j, hj, Slots.mem_of_mem_fill hport⟩
      · obtain ⟨j, hj, hport⟩ := mem_flatMap.mp hport
        have hj' : offers net clock.now t d j ⊆ U := fun port hport => hU (mem_flatMap.mpr ⟨j, hj, hport⟩)
        refine mem_flatMap.mpr ⟨j, hj, ?_⟩
        exact (Slots.mem_fill hlen hj').mpr hport
  rw [hegress] at hdrop ⊢
  refine ⟨Slots.nodup_fill, fun port hport => ?_, fun U hlen hU port hport => ?_, hdrop⟩
  · exact hsub (Slots.mem_of_mem_fill hport)
  · have hxs : xs ⊆ U := fun port hport => hU (hsub hport)
    exact (Slots.mem_fill hlen hxs).mpr (hsup U hlen hU hport)

/-- What is offered when unknown groups are not flooded and nothing is trapped. -/
theorem mem_offers (hflood : net.unknownFlood = false) (htrap : net.trapWlanToPS = false) {now port : UInt32} :
    port ∈ offers net now t d i ↔ (port ∈ (net.brInfo i).ports ∧ Floods net d.ipVersion port) ∨
      ∃ c, Member t d.ipVersion d.groupAddr i c ∧ clientWant net now d.ipVersion d.sourceIp c = some port := by
  have hports : port ∈ (net.brInfo i).ports.filterMap (floodWant net d.ipVersion) ↔
      port ∈ (net.brInfo i).ports ∧ Floods net d.ipVersion port := by
    simp only [mem_filterMap, floodWant_iff]
    exact ⟨fun ⟨_, hport, heq, h⟩ => heq ▸ ⟨hport, h⟩, fun h => ⟨port, h.1, rfl, h.2⟩⟩
  have hnone : trapWant net d.ipVersion d.groupAddr = none := by
    rw [trapWant, htrap, Bool.false_and, if_neg Bool.false_ne_true]
  unfold offers
  rw [mem_append, mem_append, hports, hnone]
  simp only [member_iff, hflood, Bool.false_eq_true, if_false]
  cases searchGroupEntry t i d.ipVersion d.groupAddr <;> simp

/-- The forwarding decision without a cached flow, when unknown groups are not flooded, nothing is
    trapped and the group is not reserved: as long as the devices that should get the packet fit in the
    slots, each of them gets it once and no other does, and the packet is dropped exactly when there is
    none. Clients record the source at most once, for only their first record counts. -/
theorem forwarding_decision (net : Net) (clock : Clock) (t : Tables) (fl : Flows) (i : ℕ)
    (d : DataInfo) (hflood : net.unknownFlood = false) (htrap : net.trapWlanToPS = false)
    (hrule : reserved net d.ipVersion d.groupAddr = false)
    (honce : ∀ j, Asked net i j → ∀ c, Member t d.ipVersion d.groupAddr j c →
      RecordsOnce d.ipVersion d.sourceIp c)
    (hfit : (egress net clock.now t d.ipVersion d.groupAddr d.sourceIp i).encard ≤ net.maxDevNum) :
    let fwd := (getMulticastDataFwdInfo clock t net fl i false d).fwd
    fwd.egressDevInfo.Nodup ∧
      (∀ port, port ∈ fwd.egressDevInfo ↔
        port ∈ egress net clock.now t d.ipVersion d.groupAddr d.sourceIp i) ∧
      (fwd.dropPkt = true ↔ egress net clock.now t d.ipVersion d.groupAddr d.sourceIp i = ∅) := by
  have hlimit : Unlimited net := fun h => absurd (hflood.symm.trans h) Bool.false_ne_true
  obtain ⟨hnodup, honly, hall, hdrop⟩ := decision_slots clock (t := t) (i := i) hrule fl (Or.inr hlimit)
  have hegress : ∀ port, port ∈ egress net clock.now t d.ipVersion d.groupAddr d.sourceIp i ↔
      port ∈ offered net clock.now t d i := by
    intro port
    rw [mem_offered]
    refine exists_congr fun j => and_congr_right fun hj => ?_
    rw [mem_offers hflood htrap]
    refine or_congr Iff.rfl (exists_congr fun c => and_congr_right fun hc => ?_)
    rw [clientWant_iff (honce j hj c hc)]
    exact ⟨fun h => ⟨h.1, h.1 ▸ h.2⟩, fun h => ⟨h.1, h.1 ▸ h.2⟩⟩
  have hlen : (offered net clock.now t d i).dedup.length ≤ net.maxDevNum := by
    have hset : egress net clock.now t d.ipVersion d.groupAddr d.sourceIp i =
        (offered net clock.now t d i).toFinset := by
      ext port
      rw [Finset.mem_coe, mem_toFinset, hegress]
    rw [hset, Set.encard_coe_eq_coe_finsetCard, card_toFinset] at hfit
    exact_mod_cast hfit
  have hmem : ∀ port, port ∈ (getMulticastDataFwdInfo clock t net fl i false d).fwd.egressDevInfo ↔
      port ∈ egress net clock.now t d.ipVersion d.groupAddr d.sourceIp i := fun port =>
    ⟨fun h => (hegress port).mpr (honly port h), fun h =>
      hall _ hlen (fun _ => mem_dedup.mpr) port ((hegress port).mp h)⟩
  refine ⟨hnodup, hmem, hdrop.trans ?_⟩
  rw [eq_nil_iff_forall_not_mem, Set.eq_empty_iff_forall_notMem]
  exact forall_congr' fun port => not_congr (hmem port)

/-- Only registered devices get packets, so they fit when there are slots for all devices. -/
theorem egress_encard_le {now : UInt32} {v : IpVersion} {g s : Ip} {i : ℕ} :
    (egress net now t v g s i).encard ≤ (net.lanDevInfo ++ net.wanDevInfo).length := by
  have hsub : egress net now t v g s i ⊆
      (((net.lanDevInfo ++ net.wanDevInfo).map DevInfo.ifindex).toFinset : Set UInt32) := by
    rintro port ⟨j, hj, ⟨hport, dev, hdev, hflood⟩ | ⟨c, hc, hidx, dev, hdev, hwant⟩⟩
    all_goals
      rw [Finset.mem_coe, mem_toFinset, ← key_of_search hdev]
      exact mem_map_of_mem (mem_of_search hdev)
  calc (egress net now t v g s i).encard
    _ ≤ _ := Set.encard_le_encard hsub
    _ = _ := Set.encard_coe_eq_coe_finsetCard _
    _ ≤ ((net.lanDevInfo ++ net.wanDevInfo).map DevInfo.ifindex).length :=
      Nat.cast_le.mpr (toFinset_card_le _)
    _ = _ := by rw [length_map]

end Combined

/-- A packet of the source to 239.1.1.1. -/
def sampleData (s : Ip) : DataInfo :=
  ⟨.v4, s, ⟨0xef010101, 0, 0, 0⟩, 4000, 5000, 17, none, none, false, false⟩

/-- The client of EXCLUDE({2}, {1}) gets the source it wants. -/
theorem forwarding_decision_wanted :
    let db := sampleExclude false
    let fwd := (getMulticastDataFwdInfo db.clock db.tables db.net db.flows 0 false
      (sampleData (host 2))).fwd
    fwd.egressDevInfo = [5] ∧
    (∀ port, port ∈ fwd.egressDevInfo ↔
      port ∈ egress db.net db.clock.now db.tables .v4 (sampleData (host 2)).groupAddr (host 2) 0) ∧
    fwd.dropPkt = false := by
  intro db fwd
  have honce : ∀ j, Asked db.net 0 j → ∀ c, Member db.tables .v4 (sampleData (host 2)).groupAddr j c →
      RecordsOnce .v4 (host 2) c := by
    intro j hj c hc
    obtain rfl : j = 0 := hj
    obtain ⟨e, he, hmem⟩ := member_iff.mp hc
    have hall : ∀ e ∈ searchGroupEntry db.tables 0 .v4 (sampleData (host 2)).groupAddr,
        ∀ c ∈ e.clientList, RecordsOnce .v4 (host 2) c := by decide +kernel
    exact hall e he c hmem
  have hdec := forwarding_decision db.net db.clock db.tables db.flows 0 (sampleData (host 2))
    (by decide +kernel) (by decide +kernel) (by decide +kernel) honce
    (egress_encard_le.trans (Nat.cast_le.mpr (by decide +kernel)))
  exact ⟨by decide +kernel, hdec.2.1, by decide +kernel⟩

/-- With fast leave a source may be recorded twice; a block then stops the timer of the first record
    only. -/
def sampleTwice : Db :=
  let db := (processIsInclude (sampleDb true) (samplePort true) samplePkt .v4 (host 9)
    (sampleRec [host 1, host 1])).2
  (processBlock db (samplePort true) samplePkt .v4 (host 9) (sampleRec [host 1])).2

/-- The client has the source with a running timer, but the packet is dropped: only the first record
    is looked at. -/
theorem forwarding_decision_first_record :
    let db := sampleTwice
    let fwd := (getMulticastDataFwdInfo db.clock db.tables db.net db.flows 0 false
      (sampleData (host 1))).fwd
    db.net.unknownFlood = false ∧ db.net.trapWlanToPS = false ∧
    reserved db.net .v4 (sampleData (host 1)).groupAddr = false ∧
    (egress db.net db.clock.now db.tables .v4 (sampleData (host 1)).groupAddr (host 1) 0).encard ≤
      db.net.maxDevNum ∧
    5 ∈ egress db.net db.clock.now db.tables .v4 (sampleData (host 1)).groupAddr (host 1) 0 ∧
    fwd.egressDevInfo = [] ∧ fwd.dropPkt = true := by
  intro db fwd
  refine ⟨by decide +kernel, by decide +kernel, by decide +kernel,
    egress_encard_le.trans (Nat.cast_le.mpr (by decide +kernel)), ?_, by decide +kernel,
    by decide +kernel⟩
  refine ⟨0, rfl, Or.inr ?_⟩
  have hexists : ∃ e ∈ searchGroupEntry db.tables 0 .v4 (sampleData (host 1)).groupAddr,
      ∃ c ∈ e.clientList, c.inIfidx = 5 ∧ Wants db.clock.now .v4 (host 1) true c := by
    decide +kernel
  have hport : ∃ dev ∈ devInfoOf db.net 5, (dev.devConf .v4).forwardDisable = false ∧
      (dev.devConf .v4).snoopingDisable = false ∧ (dev.devConf .v4).careSource = true := by
    decide +kernel
  obtain ⟨e, he, c, hc, hidx, hwants⟩ := hexists
  obtain ⟨dev, hdev, hforward, hsnoop, hcare⟩ := hport
  rw [← hcare] at hwants
  exact ⟨c, member_iff.mpr ⟨e, he, hc⟩, hidx, dev, hdev, hforward, hsnoop, hwants⟩

end PhoebusBsp.Igmp

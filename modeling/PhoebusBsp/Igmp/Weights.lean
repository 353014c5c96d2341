import Mathlib.Algebra.Order.BigOperators.Group.List
import PhoebusBsp.Igmp.ClientLimits
import PhoebusBsp.Igmp.Indices

/-! The limits on weights. A group that is new to its bridge is weighed, for the device of the report and
    for the bridge.

        group        device         weighed
        new          any            the listed groups of both and the new one
        known        has a member   no, and nothing is added
        known        has none       no, and the device gets the group

    So the maximum of a bridge is kept as long as every group is listed, and that of a device as long as
    groups do not come to it from other devices. -/

namespace PhoebusBsp.Igmp
open Schemes List

/-! ### Sums of weights -/

/-- The groups of the version that have a member on the device, with their modules. -/
def memberGroups (net : Net) (t : Tables) (ifidx : UInt32) (v : IpVersion) : List (ℕ × Ip) :=
  (validModules net).flatMap fun i =>
    ((groupsOf t i v).filter fun e => e.clientList.any fun c => c.inIfidx == ifidx).map fun e => (i, groupKey v e)

/-- The weight of the groups with a member on the device. -/
def deviceWeight (net : Net) (t : Tables) (ifidx : UInt32) (v : IpVersion) : ℕ :=
  ((memberGroups net t ifidx v).map fun x => (checkGroupWeightTbl net ifidx v x.2).toNat).sum

/-- The weight of the groups of a bridge. -/
def bridgeWeight (net : Net) (t : Tables) (i : ℕ) (v : IpVersion) : ℕ :=
  (((groupsOf t i v).map (groupKey v)).map fun g =>
    (checkGroupWeightTbl net (net.brInfo i).ifindex v g).toNat).sum

/-- Every device and every bridge keeps to its maximum. -/
structure WeightsWithin (net : Net) (t : Tables) : Prop where
  device : ∀ ifidx dev, devInfoOf net ifidx = some dev → ∀ v, (dev.devConf v).maxWeight ≠ 0 →
    deviceWeight net t ifidx v ≤ (dev.devConf v).maxWeight.toNat
  bridge : ∀ i ∈ validModules net, ∀ v, ((net.brInfo i).limits v).sysMaxWeight ≠ 0 →
    bridgeWeight net t i v ≤ ((net.brInfo i).limits v).sysMaxWeight.toNat

/-- The weight of what the search for a device or bridge lists. -/
def listedWeight (net : Net) (t : Tables) (ifidx : UInt32) (v : IpVersion) : ℕ :=
  (((visitedGroups net t ifidx v).filter fun e => e.clientList.any (counted net ifidx)).map fun e =>
    (checkGroupWeightTbl net ifidx v e.groupAddr).toNat).sum

section Sums

variable {net : Net} {t t' : Tables} {ifidx : UInt32} {i j : ℕ} {v : IpVersion} {g g' : Ip}

theorem checkGroupWeightTbl_congr (h : addr v g = addr v g') :
    checkGroupWeightTbl net ifidx v g = checkGroupWeightTbl net ifidx v g' := by
  unfold checkGroupWeightTbl
  simp only [GroupRange.hit_congr h]

/-- A list without repetitions weighs at most what it is taken from. -/
theorem sum_map_le {α : Type} {l l' : List α} (w : α → ℕ) (hnodup : l'.Nodup) (hsub : l' ⊆ l) :
    (l'.map w).sum ≤ (l.map w).sum := by
  obtain ⟨l'', hperm, hsublist⟩ := hnodup.subperm hsub
  rw [← (hperm.map w).sum_eq]
  exact (hsublist.map w).sum_le_sum fun _ _ => Nat.zero_le _

theorem toNat_sum {α : Type} (w : α → UInt32) (l : List α) :
    (l.map w).sum = UInt32.ofNat (l.map fun a => (w a).toNat).sum := by
  induction l with
  | nil => rfl
  | cons a l ih => rw [map_cons, sum_cons, ih, map_cons, sum_cons, UInt32.ofNat_add,
      UInt32.ofNat_toNat]

theorem mem_memberGroups {a : Ip} : (i, a) ∈ memberGroups net t ifidx v ↔
    i ∈ validModules net ∧ ∃ g, HasMember t i v g ifidx ∧ addr v g = a := by
  unfold memberGroups
  rw [mem_flatMap]
  constructor
  · rintro ⟨j, hj, hmem⟩
    obtain ⟨e, he, heq⟩ := mem_map.mp hmem
    obtain ⟨rfl, rfl⟩ := Prod.mk.inj heq
    obtain ⟨g, ⟨c, hc, hif⟩, hg⟩ := mem_groupsWith.mp (mem_map_of_mem he)
    exact ⟨hj, g, ⟨c, hc, beq_iff_eq.mp hif⟩, hg⟩
  · rintro ⟨hi, g, ⟨c, hc, hif⟩, rfl⟩
    obtain ⟨e, he, hkey⟩ := mem_map.mp
      (mem_groupsWith (p := fun c => c.inIfidx == ifidx).mpr ⟨g, ⟨c, hc, beq_iff_eq.mpr hif⟩, rfl⟩)
    exact ⟨i, hi, mem_map.mpr ⟨e, he, by rw [hkey]⟩⟩

theorem nodup_memberGroups : (memberGroups net t ifidx v).Nodup := by
  unfold memberGroups
  rw [nodup_flatMap]
  refine ⟨fun i _ => ?_, ?_⟩
  · have hkeys := (nodup_groupsWith (t := t) (i := i) (v := v)
      (p := fun e => e.clientList.any fun c => c.inIfidx == ifidx)).map (Prod.mk_right_injective i)
    rwa [map_map] at hkeys
  · have hmodules : (validModules net).Nodup := nodup_range.filter _
    refine hmodules.imp fun {i j} hne x hx hx' => ?_
    obtain ⟨e, -, rfl⟩ := mem_map.mp hx
    obtain ⟨e', -, heq⟩ := mem_map.mp hx'
    exact hne (Prod.mk.inj heq).1.symm

/-- The device has the groups of `l` at most. -/
theorem deviceWeight_le {l : List (ℕ × Ip)}
    (h : ∀ i ∈ validModules net, ∀ g, HasMember t i v g ifidx → (i, addr v g) ∈ l) :
    deviceWeight net t ifidx v ≤ (l.map fun x => (checkGroupWeightTbl net ifidx v x.2).toNat).sum := by
  refine sum_map_le _ nodup_memberGroups ?_
  rintro ⟨i, a⟩ hx
  obtain ⟨hi, g, hmember, rfl⟩ := mem_memberGroups.mp hx
  exact h i hi g hmember

theorem deviceWeight_mono (h : ∀ i g, HasMember t' i v g ifidx → HasMember t i v g ifidx) :
    deviceWeight net t' ifidx v ≤ deviceWeight net t ifidx v :=
  deviceWeight_le fun i hi g hmember => mem_memberGroups.mpr ⟨hi, g, h i g hmember, rfl⟩

/-- The bridge has the groups of `l` at most. -/
theorem bridgeWeight_le {l : List Ip} (h : ∀ g, (searchGroupEntry t i v g).isSome → addr v g ∈ l) :
    bridgeWeight net t i v ≤ (l.map fun g => (checkGroupWeightTbl net (net.brInfo i).ifindex v g).toNat).sum := by
  refine sum_map_le _ (groupKeys_nodup t i v) fun k hk => ?_
  obtain ⟨e, -, rfl⟩ := mem_map.mp hk
  exact h e.groupAddr (mem_groupKeys.mp hk)

theorem bridgeWeight_mono (h : ∀ g, (searchGroupEntry t' i v g).isSome → (searchGroupEntry t i v g).isSome) :
    bridgeWeight net t' i v ≤ bridgeWeight net t i v :=
  bridgeWeight_le fun g hg => mem_groupKeys.mpr (h g hg)

/-- The total of the loops, up to the width of the counter. -/
theorem totalWeight_listed (h : Indexed t) :
    totalWeight net t ifidx v (t.groupIncIdx + 1) 0 0 = UInt32.ofNat (listedWeight net t ifidx v) := by
  obtain ⟨groups, hwalk, hsorted, hmem, hlength⟩ := exists_listed net ifidx v h
  have hnodup : groups.Nodup := hsorted.imp fun hlt heq => by
    rw [heq] at hlt
    exact lt_irrefl _ hlt
  have hperm : groups.Perm ((visitedGroups net t ifidx v).filter fun e => e.clientList.any (counted net ifidx)) := by
    rw [perm_ext_iff_of_nodup hnodup (h.nodup_visited.filter _)]
    intro e
    rw [hmem, listed_iff, mem_filter]
  rw [totalWeight_walk hwalk hlength, UInt32.zero_add, toNat_sum]
  exact congrArg UInt32.ofNat (hperm.map _).sum_eq

theorem weight_groupKey {e : GroupEntry} :
    checkGroupWeightTbl net ifidx v (groupKey v e) = checkGroupWeightTbl net ifidx v e.groupAddr :=
  checkGroupWeightTbl_congr (addr_addr v e.groupAddr)

/-- A device that is no bridge has the groups with a member on it listed. -/
theorem listedWeight_device (hdev : (devInfoOf net ifidx).isSome) (hbr : brModuleOf net ifidx = none) :
    listedWeight net t ifidx v = deviceWeight net t ifidx v := by
  have hmodules : ((validModules net).filter fun i =>
      !(brModuleOf net ifidx).isSome || (net.brInfo i).ifindex == ifidx) = validModules net := by
    simp [hbr]
  have hcounted : counted net ifidx = fun c => c.inIfidx == ifidx := by
    funext c
    simp [counted, hdev, hbr]
  unfold listedWeight deviceWeight visitedGroups memberGroups
  rw [hmodules, hcounted, filter_flatMap, map_flatMap, map_flatMap]
  simp only [map_map, Function.comp_def, weight_groupKey]

/-- A bridge without empty groups has all its groups listed. -/
theorem bridgeWeight_listed (hi : i ∈ validModules net)
    (hfull : ∀ e ∈ groupsOf t i v, e.clientList ≠ []) :
    bridgeWeight net t i v ≤ listedWeight net t (net.brInfo i).ifindex v := by
  have hbr : (brModuleOf net (net.brInfo i).ifindex).isSome := by
    rw [brModuleOf, List.find?_isSome]
    exact ⟨i, hi, by simp⟩
  unfold bridgeWeight
  rw [map_map]
  simp only [Function.comp_def, weight_groupKey]
  refine sum_map_le _ ((groupKeys_nodup t i v).of_map _) fun e he => mem_filter.mpr ⟨?_, ?_⟩
  · exact mem_visitedGroups.mpr ⟨i, hi, he, fun _ => rfl⟩
  · obtain ⟨c, hc⟩ := exists_mem_of_ne_nil _ (hfull e he)
    exact any_eq_true.mpr ⟨c, hc, by simp [counted, hbr]⟩

end Sums

/-! ### What reports have to find -/

/-- Groups that are too heavy are dropped, for every device and bridge. -/
structure DropsHeavy (net : Net) : Prop where
  device : ∀ ifidx dev, devInfoOf net ifidx = some dev → ∀ v, (dev.devConf v).overWeightDrop = true
  bridge : ∀ i ∈ validModules net, ∀ v, ((net.brInfo i).limits v).sysOverWeightDrop = true

/-- A new group is weighed right: the device is not a bridge itself, the bridge has no empty group, the totals
    fit the counters, and the indices of the groups, which the scales go by, an `int32`. -/
structure Weighable (net : Net) (t : Tables) (dev : DevInfo) (pkt : PktHdr) (v : IpVersion) (g : Ip) : Prop where
  index : t.groupIncIdx + 1 < 2 ^ 31
  device : (dev.devConf v).maxWeight = 0 ∨ brModuleOf net pkt.devIfindex = none ∧
    listedWeight net t pkt.devIfindex v + (checkGroupWeightTbl net pkt.devIfindex v g).toNat < 2 ^ 32
  bridge : let br := net.brInfo pkt.moduleIndex
    (br.limits v).sysMaxWeight = 0 ∨ (∀ e ∈ groupsOf t pkt.moduleIndex v, e.clientList ≠ []) ∧
      listedWeight net t br.ifindex v + (checkGroupWeightTbl net br.ifindex v g).toNat < 2 ^ 32

/-- The device has a member of the group, or no maximum. -/
def AtHome (t : Tables) (dev : DevInfo) (pkt : PktHdr) (v : IpVersion) (g : Ip) : Prop :=
  HasMember t pkt.moduleIndex v g pkt.devIfindex ∨ (dev.devConf v).maxWeight = 0

/-- A group that no device has brought in is weighed right; one that is there, and a leave or a block that
    moves its client to the device, finds the group at home. -/
def WeighedAsk (r : Reporter) (v : IpVersion) (db : Db) : Ask → Prop
  | .member g => if searchGroupEntry db.tables r.pkt.moduleIndex v g = none then
      Weighable db.net db.tables r.dev r.pkt v g else AtHome db.tables r.dev r.pkt v g
  | .leave g => (r.dev.devConf v).fastLeave = true ∨
      clientOf db.tables r.pkt.moduleIndex v g r.clientAddr r.pkt.smac = none ∨ AtHome db.tables r.dev r.pkt v g
  | .block g => clientOf db.tables r.pkt.moduleIndex v g r.clientAddr r.pkt.smac = none ∨
      AtHome db.tables r.dev r.pkt v g

theorem weighedAsk_new {dev : DevInfo} {pkt : PktHdr} {v : IpVersion} {db : Db} {g c : Ip}
    (hnew : searchGroupEntry db.tables pkt.moduleIndex v g = none) (h : Weighable db.net db.tables dev pkt v g) :
    WeighedAsk ⟨dev, pkt, c⟩ v db (.member g) := by
  rwa [WeighedAsk, if_pos hnew]

/-- So do all parts of every report. The sweep, data and the passing of time are always allowed. -/
def Weighed (db : Db) : Event → Prop
  | .report pkt v c msg => ∀ dev, devInfoOf db.net pkt.devIfindex = some dev →
      Meets (WeighedAsk ⟨dev, pkt, c⟩ v) ⟨dev, pkt, c⟩ v db msg
  | .tick .. | .data .. | .elapse .. => True
  | _ => False

/-! ### One part of a report -/

section Part

variable {net net' : Net} {t t' : Tables} {dev : DevInfo} {pkt : PktHdr} {v : IpVersion} {g c : Ip} {db : Db}
  {ifidx : UInt32}

theorem Steady.deviceWeight (h : Steady net net') : deviceWeight net' t ifidx v = deviceWeight net t ifidx v :=
  h.reads (fun net => Igmp.deviceWeight net t ifidx v) fun _ => rfl

theorem Steady.bridgeWeight (h : Steady net net') {i : ℕ} : bridgeWeight net' t i v = bridgeWeight net t i v :=
  h.reads (fun net => Igmp.bridgeWeight net t i v) fun _ => rfl

theorem Steady.checkGroupWeightTbl (h : Steady net net') :
    checkGroupWeightTbl net' ifidx v g = checkGroupWeightTbl net ifidx v g :=
  h.reads (fun net => Igmp.checkGroupWeightTbl net ifidx v g) fun _ => rfl

theorem Steady.listedWeight (h : Steady net net') :
    listedWeight net' t ifidx v = listedWeight net t ifidx v := by
  refine h.reads (fun net => Igmp.listedWeight net t ifidx v) fun net => ?_
  have hcounted : counted net.setup ifidx = counted net ifidx := by
    funext e
    unfold counted
    rw [devInfoOf_setup, Option.isSome_map]
    rfl
  unfold Igmp.listedWeight
  rw [hcounted]
  rfl

/-- A group that is not too heavy leaves the total at most at the maximum. -/
theorem le_of_not_overWeight {maxWeight : UInt32} (h : Indexed t) (hsteady : Steady net net')
    (hfits : listedWeight net t ifidx v + (checkGroupWeightTbl net ifidx v g).toNat < 2 ^ 32)
    (hset : maxWeight ≠ 0) (hlight : overWeight net' t ifidx v maxWeight g = false) :
    listedWeight net t ifidx v + (checkGroupWeightTbl net ifidx v g).toNat ≤ maxWeight.toNat := by
  unfold overWeight at hlight
  rw [totalWeight_listed h, hsteady.listedWeight, hsteady.checkGroupWeightTbl] at hlight
  have hle : UInt32.ofNat (listedWeight net t ifidx v) + checkGroupWeightTbl net ifidx v g ≤ maxWeight := by
    simpa [hset] using hlight
  have hsum : (UInt32.ofNat (listedWeight net t ifidx v) + checkGroupWeightTbl net ifidx v g).toNat =
      listedWeight net t ifidx v + (checkGroupWeightTbl net ifidx v g).toNat := by
    rw [UInt32.toNat_add, UInt32.toNat_ofNat', Nat.mod_add_mod, Nat.mod_eq_of_lt hfits]
  rw [← hsum]
  exact UInt32.le_iff_toNat_le.mp hle

/-- Settings of a device that are the same without its counters. -/
theorem DevInfo.reads {β : Type} {dev' : DevInfo} (f : DevInfo → β) (h : dev'.setup = dev.setup)
    (hf : ∀ d : DevInfo, f d.setup = f d) : f dev' = f dev := by
  rw [← hf, h, hf]

theorem maxWeight_of_setup {dev' : DevInfo} (h : dev'.setup = dev.setup) :
    (dev'.devConf v).maxWeight = (dev.devConf v).maxWeight :=
  DevInfo.reads (fun d => (d.devConf v).maxWeight) h fun _ => rfl

theorem overWeightDrop_of_setup {dev' : DevInfo} (h : dev'.setup = dev.setup) :
    (dev'.devConf v).overWeightDrop = (dev.devConf v).overWeightDrop :=
  DevInfo.reads (fun d => (d.devConf v).overWeightDrop) h fun _ => rfl

theorem Steady.weightsWithin (hsteady : Steady net net') (h : WeightsWithin net t) : WeightsWithin net' t := by
  refine ⟨fun ifidx dev' hdev' v hset => ?_, fun i hi v hset => ?_⟩
  · obtain ⟨dev, hdev, hsetup⟩ := hsteady.symm.devInfoOf hdev'
    rw [← maxWeight_of_setup hsetup] at hset ⊢
    rw [hsteady.deviceWeight]
    exact h.device ifidx dev hdev v hset
  · rw [hsteady.validModules] at hi
    rw [hsteady.sameLimits.limits] at hset ⊢
    rw [hsteady.bridgeWeight]
    exact h.bridge i hi v hset

theorem Steady.dropsHeavy (hsteady : Steady net net') (h : DropsHeavy net) : DropsHeavy net' := by
  refine ⟨fun ifidx dev' hdev' v => ?_, fun i hi v => ?_⟩
  · obtain ⟨dev, hdev, hsetup⟩ := hsteady.symm.devInfoOf hdev'
    rw [← overWeightDrop_of_setup hsetup]
    exact h.device ifidx dev hdev v
  · rw [hsteady.validModules] at hi
    rw [hsteady.sameLimits.limits]
    exact h.bridge i hi v

/-- A member of a group is one from before, or the client of the packet on its device. -/
theorem Arrives.hasMember (h : Arrives pkt v g c t t') {j : ℕ} {w : IpVersion} {g' : Ip}
    (hmember : HasMember t' j w g' ifidx) : HasMember t j w g' ifidx ∨
      spot j w g' = spot pkt.moduleIndex v g ∧ ifidx = pkt.devIfindex := by
  obtain ⟨e, he, hif⟩ := hmember
  rcases h j w g' e he with hold | ⟨hspot, -, hport⟩
  · exact Or.inl ⟨e, hold, hif⟩
  · exact Or.inr ⟨hspot, hif.symm.trans hport⟩

/-- Where no group comes to be, and none comes to a device with a maximum, the maxima are kept. -/
theorem WeightsWithin.mono (h : WeightsWithin net t) (hshrinks : Shrinks t t')
    (hmember : ∀ ifidx dev, devInfoOf net ifidx = some dev → ∀ w, (dev.devConf w).maxWeight ≠ 0 →
      ∀ j g', HasMember t' j w g' ifidx → HasMember t j w g' ifidx) : WeightsWithin net t' := by
  refine ⟨fun ifidx dev hdev w hset => ?_, fun i hi w hset => ?_⟩
  · exact (deviceWeight_mono (hmember ifidx dev hdev w hset)).trans (h.device ifidx dev hdev w hset)
  · exact (bridgeWeight_mono (hshrinks i w)).trans (h.bridge i hi w hset)

/-- A new group that has passed the limits was weighed, for the device and for the bridge. -/
theorem weighed_of_cont (hnew : searchGroupEntry t pkt.moduleIndex v g = none)
    (hcont : (groupLimitCheck net t dev pkt.moduleIndex v g c pkt.devIfindex .drop).1 = .cont)
    (hdevDrop : (dev.devConf v).overWeightDrop = true)
    (hbrDrop : ((net.brInfo pkt.moduleIndex).limits v).sysOverWeightDrop = true) :
    let net' := joinCounted net dev pkt.moduleIndex v
    overWeight net' t dev.ifindex v (dev.devConf v).maxWeight g = false ∧
      overWeight net' t (net.brInfo pkt.moduleIndex).ifindex v
        ((net.brInfo pkt.moduleIndex).limits v).sysMaxWeight g = false := by
  intro net'
  have hsteady : Steady net net' := joinCounted_steady
  have hgroup := ((groupLimitCheck_cont.mp hcont).resolve_left nofun).1
  have hlight : (weightOverCheck net' t dev pkt.moduleIndex v g).1 = true := ((groupLimit_new hnew).mp hgroup).2.1
  have hifindex : (net'.brInfo pkt.moduleIndex).ifindex = (net.brInfo pkt.moduleIndex).ifindex :=
    hsteady.reads (fun net => (net.brInfo pkt.moduleIndex).ifindex) fun _ => rfl
  unfold weightOverCheck at hlight
  dsimp only at hlight
  rw [hsteady.sameLimits.limits, hifindex] at hlight
  simpa [hdevDrop, hbrDrop] using hlight

/-- A leave that finds no client, or deletes it, brings no member to a device. -/
theorem hasMember_processLeave (hgone : (dev.devConf v).fastLeave = true ∨
      clientOf db.tables pkt.moduleIndex v g c pkt.smac = none) {j : ℕ} {w : IpVersion} {g' : Ip}
    (hmember : HasMember (processLeave db dev pkt v c g).2.tables j w g' ifidx) : HasMember db.tables j w g' ifidx := by
  obtain ⟨e, he, hif⟩ := hmember
  refine ⟨e, ?_, hif⟩
  by_cases hspot : spot j w g' = spot pkt.moduleIndex v g
  · obtain ⟨rfl, rfl, hg⟩ := spot_inj.mp hspot
    rw [clientsAt_congr hg] at he ⊢
    rw [processLeave_tables, clientsAt_dropEmptyGroup] at he
    dsimp only at he
    unfold leaveClient at he
    split at he
    · exact he
    · next hclient =>
      rw [if_pos (hgone.resolve_right (by simp [hclient])), clientsAt_deleteClientEntry] at he
      exact mem_of_mem_filter he
  · rwa [processLeave_acts.frame.clientsAt hspot] at he

variable (hdev : ∃ dev', devInfoOf net pkt.devIfindex = some dev' ∧ dev'.setup = dev.setup)
include hdev

/-- A part that finds its group at home adds to no device that has a maximum. -/
theorem home_within (harrives : Arrives pkt v g c t t') (hshrinks : Shrinks t t') (hhome : AtHome t dev pkt v g)
    (h : WeightsWithin net t) : WeightsWithin net t' := by
  refine h.mono hshrinks fun ifidx dev₁ hdev₁ w hset j g' hmember => ?_
  refine (harrives.hasMember hmember).elim id ?_
  rintro ⟨hspot, rfl⟩
  obtain ⟨rfl, rfl, hg⟩ := spot_inj.mp hspot
  rcases hhome with hold | hzero
  · unfold HasMember at hold ⊢
    rwa [clientsAt_congr hg]
  · obtain ⟨dev', hdev', hsetup⟩ := hdev
    obtain rfl := Option.some.inj (hdev'.symm.trans hdev₁)
    exact absurd ((maxWeight_of_setup hsetup).trans hzero) hset

theorem leave_within
    (hask : (dev.devConf v).fastLeave = true ∨ clientOf db.tables pkt.moduleIndex v g c pkt.smac = none ∨
      AtHome db.tables dev pkt v g) (h : WeightsWithin net db.tables) :
    WeightsWithin net (processLeave db dev pkt v c g).2.tables := by
  rcases or_assoc.mpr hask with hgone | hhome
  · exact h.mono processLeave_shrinks fun _ _ _ _ _ _ _ hmember => hasMember_processLeave hgone hmember
  · exact home_within hdev arrives_processLeave processLeave_shrinks hhome h

theorem block_within {db' : Db} (hpart : Part dev pkt v c g db false db')
    (hask : clientOf db.tables pkt.moduleIndex v g c pkt.smac = none ∨ AtHome db.tables dev pkt v g)
    (h : WeightsWithin net db.tables) : WeightsWithin net db'.tables := by
  rcases hask with hnone | hhome
  · cases hpart with
    | refused _ => exact h
    | unknown _ => exact h
    | worked _ he _ =>
      rw [hnone] at he
      cases he
  · exact home_within hdev hpart.arrives hpart.shrinks hhome h

variable (hidx : Indexed t) (hdrops : DropsHeavy net) (hvalid : pkt.moduleIndex ∈ validModules net)
  (hframe : Frame (spot pkt.moduleIndex v g) t t') (harrives : Arrives pkt v g c t t')
include hidx hdrops hvalid hframe harrives

/-- A new group that was weighed right keeps the maxima. -/
theorem new_within (hnew : searchGroupEntry t pkt.moduleIndex v g = none)
    (hcont : (groupLimitCheck net t dev pkt.moduleIndex v g c pkt.devIfindex .drop).1 = .cont)
    (hweigh : Weighable net t dev pkt v g) (h : WeightsWithin net t) : WeightsWithin net t' := by
  obtain ⟨dev', hdev', hsetup⟩ := hdev
  have hdevDrop : (dev.devConf v).overWeightDrop = true :=
    (overWeightDrop_of_setup hsetup).symm.trans (hdrops.device _ dev' hdev' v)
  have hifindex : dev.ifindex = pkt.devIfindex :=
    (DevInfo.reads DevInfo.ifindex hsetup fun _ => rfl).symm.trans (Chain.key_of_search hdev')
  obtain ⟨hdevLight, hbrLight⟩ := weighed_of_cont hnew hcont hdevDrop (hdrops.bridge _ hvalid v)
  have hsteady : Steady net (joinCounted net dev pkt.moduleIndex v) := joinCounted_steady
  rw [hifindex] at hdevLight
  refine ⟨fun ifidx dev₁ hdev₁ w hset => ?_, fun i hi w hset => ?_⟩
  · by_cases hself : ifidx = pkt.devIfindex ∧ w = v
    · -- the device of the packet gets at most the new group, which was weighed with the others
      obtain ⟨rfl, rfl⟩ := hself
      obtain rfl := Option.some.inj (hdev'.symm.trans hdev₁)
      rw [maxWeight_of_setup hsetup] at hset ⊢
      obtain ⟨hbr, hfits⟩ := hweigh.device.resolve_left hset
      have hle := le_of_not_overWeight hidx hsteady hfits hset hdevLight
      rw [listedWeight_device (by rw [hdev', Option.isSome_some]) hbr] at hle
      have hgrow : deviceWeight net t' pkt.devIfindex w ≤ _ := deviceWeight_le
        (l := (pkt.moduleIndex, addr w g) :: memberGroups net t pkt.devIfindex w) fun j hj g' hmember => by
          rcases harrives.hasMember hmember with hold | ⟨hspot, -⟩
          · exact mem_cons_of_mem _ (mem_memberGroups.mpr ⟨hj, g', hold, rfl⟩)
          · obtain ⟨rfl, -, hg⟩ := spot_inj.mp hspot
            rw [hg]
            exact mem_cons_self
      rw [map_cons, sum_cons, ← deviceWeight, checkGroupWeightTbl_congr (addr_addr w g)] at hgrow
      omega
    · refine (deviceWeight_mono fun j g' hmember => ?_).trans (h.device ifidx dev₁ hdev₁ w hset)
      exact (harrives.hasMember hmember).elim id fun hspot => absurd ⟨hspot.2, (spot_inj.mp hspot.1).2.1⟩ hself
  · by_cases hself : i = pkt.moduleIndex ∧ w = v
    · obtain ⟨rfl, rfl⟩ := hself
      obtain ⟨hfull, hfits⟩ := hweigh.bridge.resolve_left hset
      have hle := le_of_not_overWeight hidx hsteady hfits hset hbrLight
      have hlisted := bridgeWeight_listed hi hfull
      have hgrow : bridgeWeight net t' pkt.moduleIndex w ≤ _ := bridgeWeight_le
        (l := addr w g :: (groupsOf t pkt.moduleIndex w).map (groupKey w)) fun g' hg' => by
          by_cases hg : addr w g' = addr w g
          · exact hg ▸ mem_cons_self
          · rw [hframe _ _ g' fun hspot => hg (spot_inj.mp hspot).2.2] at hg'
            exact mem_cons_of_mem _ (mem_groupKeys.mpr hg')
      rw [map_cons, sum_cons, ← bridgeWeight, checkGroupWeightTbl_congr (addr_addr w g)] at hgrow
      omega
    · refine (bridgeWeight_mono fun g' hg' => ?_).trans (h.bridge i hi w hset)
      rwa [hframe i w g' fun hspot => hself ⟨(spot_inj.mp hspot).1, (spot_inj.mp hspot).2.1⟩] at hg'

/-- A part that asks for a membership. -/
theorem member_within
    (hlimit : t' = t ∨ (groupLimitCheck net t dev pkt.moduleIndex v g c pkt.devIfindex .drop).1 = .cont)
    (hask : if searchGroupEntry t pkt.moduleIndex v g = none then Weighable net t dev pkt v g
      else AtHome t dev pkt v g) (h : WeightsWithin net t) : WeightsWithin net t' := by
  rcases hlimit with rfl | hcont
  · exact h
  split at hask
  · next hnew => exact new_within hdev hidx hdrops hvalid hframe harrives hnew hcont hask h
  · next hknown => exact home_within hdev harrives (hframe.shrinks fun _ => Option.isSome_iff_ne_none.mpr hknown) hask h

end Part

/-! ### Runs -/

section Runs

variable {net : Net} {db : Db} {r : Reporter} {v : IpVersion}

/-- What a run keeps. -/
structure Balanced (net : Net) (db : Db) : Prop where
  steady : Steady net db.net
  unique : Unique db.tables
  indexed : Indexed db.tables
  weights : WeightsWithin db.net db.tables

/-- A part of a report keeps it when it keeps the maxima of the configuration it meets. -/
theorem Balanced.next {db' : Db} (h : Balanced net db) (hsteady : Steady db.net db'.net)
    (hev : Evolves db.tables db'.tables) (hweights : WeightsWithin db.net db'.tables) : Balanced net db' where
  steady := h.steady.trans hsteady
  unique := hev.keeps (fun _ _ hchange hu _ => hchange.unique hu) h.unique h.unique
  indexed := hev.keeps (fun _ _ hchange _ hidx => hchange.indexed hidx) h.unique h.indexed
  weights := hsteady.weightsWithin hweights

theorem process_balanced (msg : Message) (hdrops : DropsHeavy net) (hvalid : r.pkt.moduleIndex ∈ validModules net)
    (hdev : ∃ dev, devInfoOf net r.pkt.devIfindex = some dev ∧ dev.setup = r.dev.setup)
    (hmeets : Meets (WeighedAsk r v) r v db msg) (h : Balanced net db) : Balanced net (process r v db msg) := by
  have hdev' : ∀ db, Balanced net db →
      ∃ dev, devInfoOf db.net r.pkt.devIfindex = some dev ∧ dev.setup = r.dev.setup := by
    intro db h
    obtain ⟨dev, hdev, hsetup⟩ := hdev
    obtain ⟨dev', hdev', hsetup'⟩ := h.steady.devInfoOf hdev
    exact ⟨dev', hdev', hsetup'.trans hsetup⟩
  have hvalid' : ∀ db, Balanced net db → r.pkt.moduleIndex ∈ validModules db.net := by
    intro db h
    rwa [h.steady.validModules]
  refine process_keeps ?_ ?_ msg hmeets h
  · intro db g makes db' h hask hpart
    refine h.next hpart.calm.2 hpart.evolves ?_
    cases makes with
    | true =>
      exact member_within (hdev' db h) h.indexed (h.steady.dropsHeavy hdrops) (hvalid' db h) hpart.acts.frame
        hpart.arrives hpart.limit hask h.weights
    | false => exact block_within (hdev' db h) hpart hask h.weights
  · intro db g h hask
    refine h.next processLeave_calm.2 evolves_processLeave ?_
    exact leave_within (hdev' db h) hask h.weights

theorem step_balanced (sysTimerSec : UInt32) (hdrops : DropsHeavy net) (e : Event) (hok : Weighed db e)
    (h : Balanced net db) : Balanced net (step sysTimerSec db e) := by
  rcases step_walked e h.unique with ⟨pkt, v, c, msg, rfl⟩ | ⟨G, is, hG, -, hwalked⟩
  · rw [step]
    rcases mldProcess_cases db pkt v c msg with heq | ⟨dev, hdev, hvalid, -, heq⟩
    · rwa [heq]
    · rw [heq]
      rw [h.steady.validModules] at hvalid
      exact process_balanced (r := ⟨dev, pkt, c⟩) msg hdrops hvalid (h.steady.symm.devInfoOf hdev) (hok dev hdev) h
  · have htraffic : e.Traffic := by
      cases e <;> trivial
    refine h.next (step_steady htraffic) (evolves_step sysTimerSec db e) ?_
    refine h.weights.mono hwalked.shrinks fun ifidx _ _ w _ j g' hmember => ?_
    obtain ⟨e', he', hif⟩ := hmember
    obtain ⟨e₀, he₀, -, hport⟩ := hwalked.stays hG j w g' e' he'
    exact ⟨e₀, he₀, hport.symm.trans hif⟩

end Runs

/-- From an empty database on, with heavy groups dropped, in every run of sweeps and of reports that bring
    no group past the scales, every device and every bridge keeps to its maximum. -/
theorem weights_within_limits (sysTimerSec : UInt32) (net : Net) (G C S F : ℕ) (hdrops : DropsHeavy net)
    (es : List Event) (hlegal : Legal (step sysTimerSec) Weighed (Db.init net G C S F) es) :
    WeightsWithin net (run (step sysTimerSec) (Db.init net G C S F) es).tables := by
  have hinit : Balanced net (Db.init net G C S F) := by
    have hmembers : ∀ ifidx v, memberGroups (Db.init net G C S F).net (Db.init net G C S F).tables ifidx v = [] :=
      fun ifidx v => flatMap_eq_nil_iff.mpr fun i _ => rfl
    refine ⟨.same, unique_init net G C S F, indexed_init net G C S F, fun ifidx dev _ v _ => ?_,
      fun i _ v _ => Nat.zero_le _⟩
    rw [deviceWeight, hmembers]
    exact Nat.zero_le _
  have hrun := run_invariant (fun db e h hok => step_balanced sysTimerSec hdrops e hok h) es _ hinit hlegal
  exact hrun.steady.symm.weightsWithin hrun.weights

/-- Two ports that may carry a weight of 5 each. A group of 239.0.0.0 to 239.255.255.255 weighs 3 for the
    first and 7 for the second. -/
def weightNet : Net :=
  let port (ifindex : UInt32) : DevInfo := { samplePort false with
    ifindex := ifindex
    devConf := fun v => { (samplePort false).devConf v with maxWeight := 5, overWeightDrop := true } }
  let range : GroupRange := ⟨.v4, ⟨0xef000000, 0, 0, 0⟩, ⟨0xefffffff, 0, 0, 0⟩⟩
  { limitNet fun _ => ⟨0, 0, 0, 9, true⟩ with
    lanDevInfo := [port 5, port 6]
    groupWeights := [⟨5, range, 3⟩, ⟨6, range, 7⟩, ⟨1, range, 4⟩] }

theorem dropsHeavy_weightNet : DropsHeavy weightNet := by
  refine ⟨fun ifidx dev hdev v => ?_, fun i _ v => rfl⟩
  have hmem : dev ∈ weightNet.lanDevInfo ++ weightNet.wanDevInfo := Chain.mem_of_search hdev
  have hdev : dev ∈ weightNet.lanDevInfo := by simpa [weightNet, limitNet, sampleNet] using hmem
  simp only [weightNet, mem_cons, not_mem_nil, or_false] at hdev
  rcases hdev with rfl | rfl <;> rfl

/-- A host joins two groups on the first port; the second one is too heavy. -/
theorem weights_within_limits_sample :
    let g : Ip := (sampleRec []).groupAddr
    let es := [.report samplePkt .v4 (host 9) (.join false g), .tick 10 fun _ => false,
      .report samplePkt .v4 (host 9) (.join false { g with w0 := g.w0 + 1 })]
    DropsHeavy weightNet ∧ WeightsWithin weightNet (run (step 10) (Db.init weightNet 4 4 8 4) es).tables := by
  intro g es
  refine ⟨dropsHeavy_weightNet, weights_within_limits 10 weightNet 4 4 8 4 dropsHeavy_weightNet es
    ⟨fun dev _ => ?_, trivial, fun dev _ => ?_, trivial⟩⟩
  · rw [Meets]
    refine weighedAsk_new ?_ ⟨?_, Or.inr ⟨?_, ?_⟩, Or.inr ⟨?_, ?_⟩⟩ <;> decide +kernel
  · rw [Meets]
    refine weighedAsk_new ?_ ⟨?_, Or.inr ⟨?_, ?_⟩, Or.inr ⟨?_, ?_⟩⟩ <;> decide +kernel

/-- A group that one port has brought in comes to another one for which it is too heavy. -/
theorem known_group_not_weighed :
    let g := (sampleRec []).groupAddr
    let es := [.report samplePkt .v4 (host 9) (.join false g),
      .report { samplePkt with devIfindex := 6, smac := 0x2 } .v4 (host 8) (.join false g)]
    DropsHeavy weightNet ∧ ¬ WeightsWithin weightNet (run (step 10) (Db.init weightNet 4 4 8 4) es).tables := by
  intro g es
  refine ⟨dropsHeavy_weightNet, fun h => ?_⟩
  have hweight : deviceWeight weightNet (run (step 10) (Db.init weightNet 4 4 8 4) es).tables 6 .v4 = 7 := by
    decide +kernel
  have hlimit := h.device 6 _ rfl .v4 (by decide +kernel)
  rw [hweight] at hlimit
  exact absurd hlimit (by decide +kernel)

end PhoebusBsp.Igmp

import PhoebusBsp.Igmp.Forward
import PhoebusBsp.Igmp.Setup
import PhoebusBsp.Igmp.View

/-! Which devices the decision without a cached flow reaches, in every configuration.

        reaches        the device of a client that wants the packet gets it, if there are slots for all
                       devices and no rate limit ends the search over the combined bridges early
        reached_only   a device that gets it is flooded or belongs to a client that wants the packet,
                       if unknown groups are not flooded and nothing is trapped -/

namespace PhoebusBsp.Igmp
open Schemes List

/-- The registered devices. -/
def devices (net : Net) : List UInt32 := (net.lanDevInfo ++ net.wanDevInfo).map DevInfo.ifindex

/-- There are slots for all devices, and what is trapped to a WLAN device goes to it, as 16 bits hold its index. -/
structure Roomy (net : Net) : Prop where
  slots : (devices net).length ≤ net.maxDevNum
  wlan : net.trapWlanToPS = true → ∀ dev ∈ net.lanDevInfo ++ net.wanDevInfo, dev.wlan = true →
    dev.ifindex < 2 ^ 16

section Reach

variable {net : Net} {t : Tables} {clock : Clock} {d : DataInfo} {v : IpVersion} {g s : Ip} {now : UInt32}

theorem member_iff_clientsAt {i : ℕ} {c : ClientEntry} : Member t v g i c ↔ c ∈ clientsAt t i v g := by
  rw [member_iff]
  constructor
  · rintro ⟨e, he, hc⟩
    rwa [clientsAt_of_search he]
  · intro hc
    cases hsearch : searchGroupEntry t i v g with
    | none =>
      rw [clientsAt, hsearch] at hc
      exact absurd hc not_mem_nil
    | some e => exact ⟨e, rfl, clientsAt_of_search hsearch ▸ hc⟩

theorem mem_devices {port : UInt32} {dev : DevInfo} (h : devInfoOf net port = some dev) :
    port ∈ devices net := by
  have hkey : dev.ifindex = port := Chain.key_of_search h
  rw [← hkey]
  exact mem_map_of_mem (Chain.mem_of_search h)

/-- Only registered devices want slots. -/
theorem offers_subset (hroomy : Roomy net) (i : ℕ) : offers net now t d i ⊆ devices net := by
  have hflood : ∀ port a, floodWant net d.ipVersion port = some a → a ∈ devices net := by
    intro port a h
    obtain ⟨rfl, dev, hdev, -⟩ := floodWant_iff.mp h
    exact mem_devices hdev
  have htrap : ∀ a, trapWant net d.ipVersion d.groupAddr = some a → a ∈ devices net := by
    intro a h
    unfold trapWant getWlanDevIfidx at h
    split at h
    · next htraps =>
      rw [Option.map_map] at h
      obtain ⟨dev, hdev, rfl⟩ := Option.map_eq_some_iff.mp h
      have hmem := mem_append_left net.wanDevInfo (mem_of_find?_eq_some hdev)
      have hlt := hroomy.wlan (Bool.and_eq_true_iff.mp htraps).1 dev hmem (List.find?_some hdev)
      have hcut : dev.ifindex.toUInt16.toUInt32 = dev.ifindex := by
        rw [← UInt32.toNat_inj]
        exact Nat.mod_eq_of_lt hlt
      rw [Function.comp_apply, hcut]
      exact mem_map_of_mem hmem
    · cases h
  have hclient : ∀ c a, clientWant net now d.ipVersion d.sourceIp c = some a → a ∈ devices net := by
    intro c a h
    obtain ⟨dev, hdev, h⟩ := Option.bind_eq_some_iff.mp h
    split at h
    · exact Option.some.inj h ▸ mem_devices hdev
    · cases h
  have hunknown : ∀ port a, unknownWant net d.ipVersion port = some a → a ∈ devices net := by
    intro port a h
    obtain ⟨dev, hdev, h⟩ := Option.bind_eq_some_iff.mp h
    split at h
    · cases h
    · exact Option.some.inj h ▸ mem_devices hdev
  intro a ha
  unfold offers at ha
  rcases mem_append.mp ha with ha | ha
  · rcases mem_append.mp ha with ha | ha
    · obtain ⟨port, -, h⟩ := mem_filterMap.mp ha
      exact hflood port a h
    · exact htrap a (Option.mem_toList.mp ha)
  · split at ha
    · obtain ⟨c, -, h⟩ := mem_filterMap.mp ha
      exact hclient c a h
    · split at ha
      · obtain ⟨port, -, h⟩ := mem_filterMap.mp ha
        exact hunknown port a h
      · exact absurd ha not_mem_nil

/-- The device of a client that wants the packet gets it. A rate limit on unknown groups matters only
    where other bridges are asked as well. -/
theorem reaches (hroomy : Roomy net)
    (hrule : reserved net d.ipVersion d.groupAddr = false) (fl : Flows) {i j : ℕ}
    (hlimit : (net.brInfo j).combineId = 0 ∨ Unlimited net) (hasked : Asked net i j) {c : ClientEntry}
    (hc : c ∈ clientsAt t j d.ipVersion d.groupAddr) {port : UInt32}
    (hwant : clientWant net clock.now d.ipVersion d.sourceIp c = some port) :
    port ∈ (getMulticastDataFwdInfo clock t net fl i false d).fwd.egressDevInfo := by
  obtain ⟨e, hsearch, hc⟩ := member_iff.mp (member_iff_clientsAt.mpr hc)
  have hoffer : port ∈ offered net clock.now t d i := by
    refine mem_offered.mpr ⟨j, hasked, mem_append_right _ ?_⟩
    rw [hsearch]
    exact mem_filterMap.mpr ⟨c, hc, hwant⟩
  have hsub : offered net clock.now t d i ⊆ devices net := by
    intro a ha
    obtain ⟨j, -, ha⟩ := mem_offered.mp ha
    exact offers_subset hroomy j ha
  refine (decision_slots _ hrule fl ?_).2.2.1 (devices net) hroomy.slots hsub port hoffer
  refine hlimit.imp_left fun hid => ?_
  by_cases hid' : (net.brInfo i).combineId = 0
  · obtain rfl : j = i := by
      rwa [Asked, if_pos hid'] at hasked
    exact ⟨hid, by rw [hsearch]; rfl⟩
  · rw [Asked, if_neg hid'] at hasked
    exact absurd (hasked.2.2.symm.trans hid) hid'

/-- Why a device gets a packet through a bridge. -/
def Reason (net : Net) (now : UInt32) (t : Tables) (v : IpVersion) (g s : Ip) (j : ℕ) (port : UInt32) :
    Prop :=
  (port ∈ (net.brInfo j).ports ∧ Floods net v port) ∨
    ∃ c ∈ clientsAt t j v g, clientWant net now v s c = some port

/-- A device that gets the packet is flooded or belongs to a client that wants it. -/
theorem reached_only (hflood : net.unknownFlood = false) (htrap : net.trapWlanToPS = false)
    (hrule : reserved net d.ipVersion d.groupAddr = false) (fl : Flows) {i : ℕ} {port : UInt32}
    (hport : port ∈ (getMulticastDataFwdInfo clock t net fl i false d).fwd.egressDevInfo) :
    ∃ j, Asked net i j ∧ Reason net clock.now t d.ipVersion d.groupAddr d.sourceIp j port := by
  have hlimit : Unlimited net := fun h => absurd (hflood.symm.trans h) Bool.false_ne_true
  obtain ⟨j, hasked, hoffer⟩ := mem_offered.mp ((decision_slots _ hrule fl (Or.inr hlimit)).2.1 port hport)
  rw [mem_offers hflood htrap] at hoffer
  simp only [member_iff_clientsAt] at hoffer
  exact ⟨j, hasked, hoffer⟩

end Reach

end PhoebusBsp.Igmp

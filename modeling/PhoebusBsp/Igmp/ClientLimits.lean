import Mathlib.Data.List.Dedup
import PhoebusBsp.Igmp.Arrivals
import PhoebusBsp.Igmp.Limits

/-! The limits on the groups of a device and on clients.

        device     counts the memberships behind it, not the groups
        IPv4       counts an address at least once, and a member is found: the limits hold
        IPv6       both comparisons are the wrong way round: the count may be too small, and another
                   member of the group stands for the client itself

    A report that is taken makes one address a member of one group. So a limit is kept when the count
    that was below it was not too small. -/

namespace PhoebusBsp.Igmp
open Schemes List

/-! ### Groups of a device -/

/-- How many groups of the version have a member on the device. -/
def groupsOn (t : Tables) (i : ℕ) (v : IpVersion) (ifidx : UInt32) : ℕ :=
  (groupsOf t i v).countP fun e => e.clientList.any fun c => c.inIfidx == ifidx

/-- How many clients groups of the version have on the device, one by one. -/
def membershipsOn (t : Tables) (i : ℕ) (v : IpVersion) (ifidx : UInt32) : ℕ :=
  ((groupsOf t i v).map fun e => e.clientList.countP fun c => c.inIfidx == ifidx).sum

/-- Nothing but the limit of the device on groups is set. -/
structure OnlyDeviceLimit (net : Net) (dev : DevInfo) (i : ℕ) (v : IpVersion) : Prop where
  groups : ∀ w, ((net.brInfo i).limits w).sysMaxGroupSize = 0
  clients : ∀ w, ((net.brInfo i).limits w).sysMaxClientSize = 0
  joins : ∀ w, ((net.brInfo i).limits w).perClientMaxJoinGroupSize = 0
  weight : ((net.brInfo i).limits v).sysMaxWeight = 0
  allGroups : (net.brInfo i).sysMaxGroupSize = 0
  allClients : (net.brInfo i).sysMaxClientSize = 0
  devWeight : (dev.devConf v).maxWeight = 0

section Device

variable {net : Net} {t : Tables} {dev : DevInfo} {i : ℕ} {v : IpVersion} {g c : Ip} {ifidx : UInt32} {act : Nf}

/-- Entries are counted group by group. -/
theorem countP_members (p : ClientEntry → Bool) :
    (members t i v).countP (fun m => p m.2) = ((groupsOf t i v).map fun e => e.clientList.countP p).sum := by
  unfold members
  rw [countP_flatMap]
  congr 2
  funext e
  rw [Function.comp_apply, countP_map]
  rfl

/-- The groups that have such an entry are at most the entries. -/
theorem countP_any_le (p : ClientEntry → Bool) (l : List GroupEntry) :
    (l.countP fun e => e.clientList.any p) ≤ (l.map fun e => e.clientList.countP p).sum := by
  induction l with
  | nil => exact Nat.zero_le _
  | cons e l ih =>
    rw [countP_cons, map_cons, sum_cons]
    split
    · next hany =>
      have hpos := countP_pos_iff.mpr (any_eq_true.mp hany)
      omega
    · omega

/-- The check without other limits. -/
theorem groupLimitCheck_device (hset : OnlyDeviceLimit net dev i v) (hact : act ≠ .cont) :
    (groupLimitCheck net t dev i v g c ifidx act).1 ≠ .cont ↔ ¬ HasMember t i v g ifidx ∧
      reached (dev.devConf v).maxGroupSize (membershipsOn t i v ifidx) = true := by
  have hclients : ∀ w, clientLimit (net.brInfo i) t i v w g c = true := by
    intro w
    unfold clientLimit
    rw [hset.joins, hset.clients, hset.allClients]
    simp [reached_zero]
  have hsame : SameLimits net (joinCounted net dev i v) := joinCounted_steady.sameLimits
  have hgroup : (groupLimit (joinCounted net dev i v) t dev i v g ifidx).1 = true ↔
      HasMember t i v g ifidx ∨ devFull t dev i v ifidx = false := by
    cases hsearch : searchGroupEntry t i v g with
    | none =>
      have hroom : GroupRoom ((joinCounted net dev i v).brInfo i) t i := by
        refine ⟨fun w => ?_, ?_⟩
        · rw [hsame.limits, hset.groups, reached_zero]
        · rw [hsame.groups, hset.allGroups, reached_zero]
      have hlight : (weightOverCheck (joinCounted net dev i v) t dev i v g).1 = true :=
        weightOverCheck_light hset.devWeight (by rw [hsame.limits, hset.weight])
      have hnone : ¬ HasMember t i v g ifidx := by
        rintro ⟨e, he, -⟩
        rw [clientsAt, hsearch] at he
        cases he
      rw [groupLimit_new hsearch]
      simp [hroom, hlight, hnone]
    | some ge => rw [groupLimit_known hsearch, groupAndDevHit_iff]
  rw [Ne, groupLimitCheck_cont, not_or, and_iff_right hact, hgroup]
  have hcount : devGroupCnt t i v ifidx = membershipsOn t i v ifidx := countP_members fun e => e.inIfidx == ifidx
  unfold devFull
  rw [hcount]
  simp [hclients]

end Device

/-- The limit of a device counts groups exactly when the group has a member on the device, or the groups
    and the memberships behind the device are on the same side of the limit. -/
theorem device_limit_counts_groups_iff (net : Net) (t : Tables) (dev : DevInfo) (i : ℕ) (v : IpVersion)
    (g c : Ip) (ifidx : UInt32) (act : Nf) (hset : OnlyDeviceLimit net dev i v) (hact : act ≠ .cont) :
    ((groupLimitCheck net t dev i v g c ifidx act).1 ≠ .cont ↔
        ¬ HasMember t i v g ifidx ∧ (dev.devConf v).maxGroupSize ≠ 0 ∧
          (dev.devConf v).maxGroupSize.toNat ≤ groupsOn t i v ifidx) ↔
      HasMember t i v g ifidx ∨ (dev.devConf v).maxGroupSize = 0 ∨
        membershipsOn t i v ifidx < (dev.devConf v).maxGroupSize.toNat ∨
        (dev.devConf v).maxGroupSize.toNat ≤ groupsOn t i v ifidx := by
  have hreached : reached (dev.devConf v).maxGroupSize (membershipsOn t i v ifidx) = true ↔
      (dev.devConf v).maxGroupSize ≠ 0 ∧ (dev.devConf v).maxGroupSize.toNat ≤ membershipsOn t i v ifidx := by
    unfold reached
    simp
  have hle : groupsOn t i v ifidx ≤ membershipsOn t i v ifidx := countP_any_le _ _
  rw [groupLimitCheck_device hset hact, hreached]
  by_cases hmember : HasMember t i v g ifidx
  · simp [hmember]
  · by_cases hzero : (dev.devConf v).maxGroupSize = 0
    · simp [hzero]
    · simp only [hmember, hzero, not_false_eq_true, true_and, ne_eq, false_or]
      omega

/-- A device that may have so many groups, and none of the other limits. -/
def limitPort (maxGroupSize : UInt32) : DevInfo :=
  { samplePort false with devConf := fun v => { (samplePort false).devConf v with maxGroupSize := maxGroupSize } }

/-- Two hosts have joined a group on port 5. -/
def sharedGroup (v : IpVersion) : Db :=
  let g := (sampleRec []).groupAddr
  run (step 10) (Db.init (sampleNet false) 4 4 8 4)
    [.report samplePkt v (host 9) (.join false g), .report { samplePkt with smac := 0x2 } v (host 8) (.join false g)]

/-- Where three groups are allowed two memberships do not keep a second group out. -/
theorem device_limit_counts_groups_three :
    let t := (sharedGroup .v4).tables
    OnlyDeviceLimit (sampleNet false) (limitPort 3) 0 .v4 ∧
    ((groupLimitCheck (sampleNet false) t (limitPort 3) 0 .v4 (host 2) (host 7) 5 .drop).1 ≠ .cont ↔
      ¬ HasMember t 0 .v4 (host 2) 5 ∧ ((limitPort 3).devConf .v4).maxGroupSize ≠ 0 ∧
        ((limitPort 3).devConf .v4).maxGroupSize.toNat ≤ groupsOn t 0 .v4 5) := by
  intro t
  have hset : OnlyDeviceLimit (sampleNet false) (limitPort 3) 0 .v4 :=
    ⟨fun _ => rfl, fun _ => rfl, fun _ => rfl, rfl, rfl, rfl, rfl⟩
  refine ⟨hset, (device_limit_counts_groups_iff (sampleNet false) t (limitPort 3) 0 .v4 (host 2) (host 7) 5 .drop
    hset nofun).mpr (Or.inr (Or.inr (Or.inl ?_)))⟩
  decide +kernel

/-- Two clients of one group fill a device that may have two groups. -/
theorem device_limit_counts_members :
    let t := (sharedGroup .v4).tables
    OnlyDeviceLimit (sampleNet false) (limitPort 2) 0 .v4 ∧ Unique t ∧ groupsOn t 0 .v4 5 = 1 ∧
      (groupLimitCheck (sampleNet false) t (limitPort 2) 0 .v4 (host 2) (host 7) 5 .drop).1 = .drop := by
  intro t
  refine ⟨⟨fun _ => rfl, fun _ => rfl, fun _ => rfl, rfl, rfl, rfl, rfl⟩, ?_, by decide +kernel, by decide +kernel⟩
  exact run_unique 10 (sampleNet false) 4 4 8 4 _

/-! ### Clients -/

/-- The addresses of the clients of a module, each once. -/
def clientAddrs (t : Tables) (i : ℕ) (v : IpVersion) : List Ip :=
  ((members t i v).map fun m => addr v m.2.clientAddr).dedup

/-- The groups of a module that an address is a member of. -/
def joinedGroups (t : Tables) (i : ℕ) (v : IpVersion) (c : Ip) : List Ip :=
  ((groupsOf t i v).filter fun e => e.clientList.any fun m => addr v c == addr v m.clientAddr).map (groupKey v)

/-- Every module keeps to its limits on clients. -/
structure ClientsWithin (net : Net) (t : Tables) : Prop where
  version : ∀ i v, ((net.brInfo i).limits v).sysMaxClientSize ≠ 0 →
    (clientAddrs t i v).length ≤ ((net.brInfo i).limits v).sysMaxClientSize.toNat
  total : ∀ i, (net.brInfo i).sysMaxClientSize ≠ 0 →
    (clientAddrs t i .v4).length + (clientAddrs t i .v6).length ≤ (net.brInfo i).sysMaxClientSize.toNat
  joins : ∀ i v, ((net.brInfo i).limits v).perClientMaxJoinGroupSize ≠ 0 → ∀ c,
    (joinedGroups t i v c).length ≤ ((net.brInfo i).limits v).perClientMaxJoinGroupSize.toNat

/-- The address is a member of the group. -/
def Joined (t : Tables) (i : ℕ) (v : IpVersion) (g c : Ip) : Prop :=
  ∃ e ∈ clientsAt t i v g, addr v e.clientAddr = addr v c

/-- Members of `t'` were members of `t`, but for one address in one group. -/
def Gains (i : ℕ) (v : IpVersion) (g c : Ip) (t t' : Tables) : Prop :=
  ∀ j w g' c', Joined t' j w g' c' → Joined t j w g' c' ∨
    (spot j w g' = spot i v g ∧ addr w c' = addr w c)

/-- Members of `t'` were members of `t`. -/
def Loses (t t' : Tables) : Prop := ∀ j w g' c', Joined t' j w g' c' → Joined t j w g' c'

section Clients

variable {net : Net} {t t' t'' : Tables} {i j : ℕ} {v w : IpVersion} {g g' c c' a : Ip}

theorem joined_congr (hg : addr v g = addr v g') (hc : addr v c = addr v c') :
    Joined t i v g c ↔ Joined t i v g' c' := by
  unfold Joined
  rw [clientsAt_congr hg, hc]

theorem mem_clientAddrs : a ∈ clientAddrs t i v ↔ ∃ g c, Joined t i v g c ∧ addr v c = a := by
  unfold clientAddrs
  rw [mem_dedup, mem_map]
  constructor
  · rintro ⟨⟨ge, e⟩, hmem, rfl⟩
    obtain ⟨g, hsearch, he⟩ := mem_members.mp hmem
    exact ⟨g, e.clientAddr, ⟨e, clientsAt_of_search hsearch ▸ he, rfl⟩, rfl⟩
  · rintro ⟨g, c, ⟨e, he, haddr⟩, rfl⟩
    obtain ⟨ge, hsearch, he⟩ := group_of_client he
    exact ⟨(ge, e), mem_members.mpr ⟨g, hsearch, he⟩, haddr⟩

/-- The groups that have such an entry, by their addresses. -/
theorem mem_groupsWith {p : ClientEntry → Bool} :
    a ∈ ((groupsOf t i v).filter fun e => e.clientList.any p).map (groupKey v) ↔
      ∃ g, (∃ e ∈ clientsAt t i v g, p e = true) ∧ addr v g = a := by
  simp only [mem_map, mem_filter, mem_groupsOf, any_eq_true]
  constructor
  · rintro ⟨ge, ⟨⟨g, hsearch⟩, hany⟩, rfl⟩
    exact ⟨g, clientsAt_of_search hsearch ▸ hany, (groupKey_of_search hsearch).symm⟩
  · rintro ⟨g, ⟨e, he, hp⟩, rfl⟩
    obtain ⟨ge, hsearch, he⟩ := group_of_client he
    exact ⟨ge, ⟨⟨g, hsearch⟩, e, he, hp⟩, groupKey_of_search hsearch⟩

theorem nodup_groupsWith {p : GroupEntry → Bool} : (((groupsOf t i v).filter p).map (groupKey v)).Nodup :=
  (groupKeys_nodup t i v).sublist (filter_sublist.map _)

theorem mem_joinedGroups : a ∈ joinedGroups t i v c ↔ ∃ g, Joined t i v g c ∧ addr v g = a := by
  unfold joinedGroups Joined
  rw [mem_groupsWith]
  simp only [beq_iff_eq, @eq_comm _ (addr v c)]

theorem clientAddrs_length_le {l : List Ip} (h : ∀ g c, Joined t i v g c → addr v c ∈ l) :
    (clientAddrs t i v).length ≤ l.length := by
  refine ((nodup_dedup _).subperm fun a ha => ?_).length_le
  obtain ⟨g, c, hjoined, rfl⟩ := mem_clientAddrs.mp ha
  exact h g c hjoined

theorem joinedGroups_length_le {l : List Ip} (h : ∀ g, Joined t i v g c → addr v g ∈ l) :
    (joinedGroups t i v c).length ≤ l.length := by
  refine (nodup_groupsWith.subperm fun a ha => ?_).length_le
  obtain ⟨g, hjoined, rfl⟩ := mem_joinedGroups.mp ha
  exact h g hjoined

theorem Loses.within (hloses : Loses t t') (h : ClientsWithin net t) : ClientsWithin net t' := by
  have hclients : ∀ i v, (clientAddrs t' i v).length ≤ (clientAddrs t i v).length := fun i v =>
    clientAddrs_length_le fun g c hj => mem_clientAddrs.mpr ⟨g, c, hloses i v g c hj, rfl⟩
  refine ⟨fun i v hset => (hclients i v).trans (h.version i v hset),
    fun i hset => (Nat.add_le_add (hclients i .v4) (hclients i .v6)).trans (h.total i hset), fun i v hset c => ?_⟩
  exact (joinedGroups_length_le fun g hj => mem_joinedGroups.mpr ⟨g, hloses i v g c hj, rfl⟩).trans (h.joins i v hset c)

/-- Counts that are not too small: an address of the version is a client counted by `totalClientCnt`. -/
def CountsAll (t : Tables) (i : ℕ) (v : IpVersion) : Prop := (clientAddrs t i v).length ≤ totalClientCnt t i v

/-- Over IPv4 the first entry of every address is counted. -/
theorem countsAll_v4 : CountsAll t i .v4 := by
  unfold CountsAll totalClientCnt
  rw [countP_eq_length_filter]
  have hsub : clientAddrs t i .v4 ⊆ (((members t i .v4).filter fun m =>
      clientCnt t i .v4 m.1.groupAddr m.2.clientAddr).map fun m => addr .v4 m.2.clientAddr) := by
    intro a ha
    obtain ⟨m, hm, rfl⟩ := mem_map.mp (mem_dedup.mp ha)
    -- the entry that the search for the address stops at
    cases hfind : (members t i .v4).find? fun m' => m.2.clientAddr.w0 == m'.2.clientAddr.w0 with
    | none =>
      have hnone := List.find?_eq_none.mp hfind m hm
      simp at hnone
    | some m' =>
      have hw : m.2.clientAddr.w0 = m'.2.clientAddr.w0 := by simpa using List.find?_some hfind
      refine mem_map.mpr ⟨m', mem_filter.mpr ⟨mem_of_find?_eq_some hfind, ?_⟩, ?_⟩
      · have hfind' : ((members t i .v4).find? fun m'' => m'.2.clientAddr.w0 == m''.2.clientAddr.w0) = some m' := by
          rw [← hw, hfind]
        simp [clientCnt, hfind']
      · simp only [addr, hw]
  have hlength := ((nodup_dedup _).subperm hsub).length_le
  rwa [length_map] at hlength

/-- The entries of an address are at least its groups. -/
theorem joinedGroups_le_count : (joinedGroups t i v c).length ≤ specificClientJoinCnt t i v v c := by
  unfold joinedGroups specificClientJoinCnt
  rw [if_pos rfl, length_map, ← countP_eq_length_filter,
    countP_members fun e => addr v c == addr v e.clientAddr]
  exact countP_any_le _ _

theorem count_eq_zero_iff : specificClientJoinCnt t i v v c = 0 ↔ addr v c ∉ clientAddrs t i v := by
  unfold specificClientJoinCnt clientAddrs
  rw [if_pos rfl, countP_eq_zero, mem_dedup, mem_map]
  simp only [beq_iff_eq, not_exists, not_and]
  exact ⟨fun h m hm heq => h m hm heq.symm, fun h m hm heq => h m hm heq.symm⟩

/-- What a report has to find for the limits to do their work: an address that is a client already, or
    counts that are not too small; and over IPv6 no other member that is taken for the client. -/
structure Countable (br : BrInfo) (t : Tables) (i : ℕ) (v : IpVersion) (g c : Ip) : Prop where
  clients : addr v c ∈ clientAddrs t i v ∨ CountsAll t i .v6 ∨
    (v = .v6 → (br.limits .v6).sysMaxClientSize = 0) ∧ br.sysMaxClientSize = 0
  member : v = .v6 → Joined t i v g c ∨ (∀ e ∈ clientsAt t i v g, e.clientAddr = c) ∨
    (br.limits v).perClientMaxJoinGroupSize = 0

theorem gains_of_acts {mac : Mac} (h : Acts i v g (addr v c, mac) t t') : Gains i v g c t t' := by
  rintro j w g' c' ⟨e, he, haddr⟩
  by_cases hspot : spot j w g' = spot i v g
  · obtain ⟨rfl, rfl, hg⟩ := spot_inj.mp hspot
    rw [clientsAt_congr hg] at he
    by_cases hkey : clientKey w e = (addr w c, mac)
    · exact Or.inr ⟨hspot, haddr.symm.trans (Prod.mk.inj hkey).1⟩
    · have hother : e ∈ (clientsAt t' j w g).filter fun e => clientKey w e ≠ (addr w c, mac) :=
        mem_filter.mpr ⟨he, by simpa using hkey⟩
      rw [h.only.others] at hother
      refine Or.inl ⟨e, ?_, haddr⟩
      rw [clientsAt_congr hg]
      exact mem_of_mem_filter hother
  · rw [h.frame.clientsAt hspot] at he
    exact Or.inl ⟨e, he, haddr⟩

/-- A client that joins its first group finds room among the clients. -/
theorem clientLimit_new (hlimit : clientLimit (net.brInfo i) t i v v g c = true)
    (hnew : addr v c ∉ clientAddrs t i v) :
    reached ((net.brInfo i).limits v).sysMaxClientSize (totalClientCnt t i v) = false ∧
      reached (net.brInfo i).sysMaxClientSize (totalClientCnt t i .v4 + totalClientCnt t i .v6) = false := by
  unfold clientLimit at hlimit
  rw [if_neg (not_not.mpr (count_eq_zero_iff.mpr hnew))] at hlimit
  simpa using hlimit

/-- A client that joins another group has not reached its limit, or over IPv6 somebody else is a member. -/
theorem clientLimit_known (hlimit : clientLimit (net.brInfo i) t i v v g c = true)
    (hold : addr v c ∈ clientAddrs t i v) (hnot : ¬ Joined t i v g c) :
    reached ((net.brInfo i).limits v).perClientMaxJoinGroupSize (specificClientJoinCnt t i v v c) = false ∨
      v = .v6 ∧ ∃ e ∈ clientsAt t i v g, e.clientAddr ≠ c := by
  unfold clientLimit at hlimit
  rw [if_pos fun hzero => count_eq_zero_iff.mp hzero hold, Bool.or_eq_true, Bool.not_eq_true',
    clientInGroup_iff] at hlimit
  refine hlimit.symm.imp_right ?_
  rintro ⟨e, he, ⟨-, haddr⟩ | ⟨rfl, hne⟩⟩
  · exact absurd ⟨e, he, haddr⟩ hnot
  · exact ⟨rfl, e, he, hne⟩

theorem one_le_toNat {limit : UInt32} (h : limit ≠ 0) : 1 ≤ limit.toNat := by
  rw [Nat.one_le_iff_ne_zero]
  exact fun hzero => h (UInt32.toNat_inj.mp hzero)

theorem Gains.addrs_other (h : Gains i v g c t t') (hne : (j, w) ≠ (i, v)) :
    (clientAddrs t' j w).length ≤ (clientAddrs t j w).length := by
  refine clientAddrs_length_le fun g' c' hj => mem_clientAddrs.mpr ⟨g', c', ?_, rfl⟩
  exact (h j w g' c' hj).resolve_right fun hspot => hne (Prod.ext (spot_inj.mp hspot.1).1 (spot_inj.mp hspot.1).2.1)

theorem Gains.addrs_le (h : Gains i v g c t t') {l : List Ip} (hold : clientAddrs t i v ⊆ l)
    (hnew : addr v c ∈ l) : (clientAddrs t' i v).length ≤ l.length := by
  refine clientAddrs_length_le fun g' c' hj => ?_
  rcases h i v g' c' hj with hin | ⟨-, haddr⟩
  · exact hold (mem_clientAddrs.mpr ⟨g', c', hin, rfl⟩)
  · rwa [haddr]

/-- The groups of an address grow by one, and only for the client and a group that it was not in. -/
theorem Gains.joins_le (h : Gains i v g c t t') (j : ℕ) (w : IpVersion) (c' : Ip) :
    (joinedGroups t' j w c').length ≤ (joinedGroups t j w c').length ∨
      ((j, w) = (i, v) ∧ addr w c' = addr w c ∧ ¬ Joined t i v g c ∧
        (joinedGroups t' j w c').length ≤ (addr w g :: joinedGroups t j w c').length) := by
  by_cases hself : (j, w) = (i, v) ∧ addr w c' = addr w c ∧ ¬ Joined t i v g c
  · refine Or.inr ⟨hself.1, hself.2.1, hself.2.2, joinedGroups_length_le fun g' hj => mem_cons.mpr ?_⟩
    obtain ⟨rfl, rfl⟩ := Prod.mk.inj hself.1
    rcases h j w g' c' hj with hold | ⟨hspot, -⟩
    · exact Or.inr (mem_joinedGroups.mpr ⟨g', hold, rfl⟩)
    · exact Or.inl (spot_inj.mp hspot).2.2
  · refine Or.inl (joinedGroups_length_le fun g' hj => mem_joinedGroups.mpr ⟨g', ?_, rfl⟩)
    refine (h j w g' c' hj).elim id fun hnew => ?_
    obtain ⟨rfl, rfl, hg⟩ := spot_inj.mp hnew.1
    refine not_not.mp fun hnot => hself ⟨rfl, hnew.2, fun hin => hnot ?_⟩
    exact (joined_congr hg hnew.2).mpr hin

/-- A client that the limit lets join one more group has room for it. -/
theorem joins_room (hlimit : clientLimit (net.brInfo i) t i v v g c = true)
    (hcount : Countable (net.brInfo i) t i v g c) (hnot : ¬ Joined t i v g c)
    (hset : ((net.brInfo i).limits v).perClientMaxJoinGroupSize ≠ 0) :
    (joinedGroups t i v c).length + 1 ≤ ((net.brInfo i).limits v).perClientMaxJoinGroupSize.toNat := by
  have hcnt : (joinedGroups t i v c).length ≤ specificClientJoinCnt t i v v c := joinedGroups_le_count
  by_cases hc : addr v c ∈ clientAddrs t i v
  · rcases clientLimit_known hlimit hc hnot with hroom | ⟨rfl, e, he, hne⟩
    · have hlt := lt_of_not_reached hroom hset
      omega
    · rcases hcount.member rfl with hin | hall | hzero
      · exact absurd hin hnot
      · exact absurd (hall e he) hne
      · exact absurd hzero hset
  · have hzero := count_eq_zero_iff.mpr hc
    have hpos := one_le_toNat hset
    omega

/-- A report that passes the checks on clients and finds what they count right keeps the limits. -/
theorem admit_within (hgains : Gains i v g c t t')
    (hlimit : clientLimit (net.brInfo i) t i v v g c = true) (hcount : Countable (net.brInfo i) t i v g c)
    (h : ClientsWithin net t) : ClientsWithin net t' := by
  have hall4 : CountsAll t i .v4 := countsAll_v4
  have hself : (clientAddrs t' i v).length ≤ (clientAddrs t i v).length ∨
      (clientAddrs t' i v).length ≤ 1 + (clientAddrs t i v).length ∧
      (((net.brInfo i).limits v).sysMaxClientSize ≠ 0 →
        (clientAddrs t i v).length < ((net.brInfo i).limits v).sysMaxClientSize.toNat) ∧
      ((net.brInfo i).sysMaxClientSize ≠ 0 →
        (clientAddrs t i .v4).length + (clientAddrs t i .v6).length < (net.brInfo i).sysMaxClientSize.toNat) := by
    by_cases hc : addr v c ∈ clientAddrs t i v
    · exact Or.inl (hgains.addrs_le (List.Subset.refl _) hc)
    · have hclients := hcount.clients.resolve_left hc
      obtain ⟨hroom, hroom'⟩ := clientLimit_new hlimit hc
      have hone := hgains.addrs_le (subset_cons_self _ _) mem_cons_self
      refine Or.inr ⟨by simpa [Nat.add_comm] using hone, fun hset => ?_, fun hset => ?_⟩
      · have hall : CountsAll t i v := by
          cases v with
          | v4 => exact hall4
          | v6 => exact hclients.resolve_right fun hzero => hset (hzero.1 rfl)
        exact Nat.lt_of_le_of_lt hall (lt_of_not_reached hroom hset)
      · have hall := hclients.resolve_right fun hzero => hset hzero.2
        exact Nat.lt_of_le_of_lt (Nat.add_le_add hall4 hall) (lt_of_not_reached hroom' hset)
  obtain ⟨hversion, htotal⟩ := counts_within (n := fun i v => (clientAddrs t i v).length)
    (m := fun i v => (clientAddrs t' i v).length) (fun _ _ => hgains.addrs_other) hself h.version h.total
  refine ⟨hversion, htotal, fun j w hset c' => ?_⟩
  rcases hgains.joins_le j w c' with hle | ⟨hjw, haddr, hnot, hle⟩
  · exact hle.trans (h.joins j w hset c')
  · obtain ⟨rfl, rfl⟩ := Prod.mk.inj hjw
    have hsame : joinedGroups t j w c' = joinedGroups t j w c := by
      unfold joinedGroups
      rw [haddr]
    exact hle.trans (hsame ▸ joins_room hlimit hcount hnot hset)

end Clients

/-! ### Reports, part by part -/

/-- What one part of a message asks for. -/
inductive Ask
  | member (g : Ip)
  | leave (g : Ip)
  | block (g : Ip)

/-- A record asks for a membership, unless it blocks sources. -/
def askOf (x : RecordType × GroupRecord) : Ask :=
  if x.1 = .block then .block x.2.groupAddr else .member x.2.groupAddr

/-- Every part of the message is allowed in the state it meets. -/
def Meets (ok : Db → Ask → Prop) (r : Reporter) (v : IpVersion) (db : Db) : Message → Prop
  | .join _ g => ok db (.member g)
  | .leave g => ok db (.leave g)
  | .records recs => Legal (fun db x => (handle r v x.2 db x.1).2) (fun db x => ok db (askOf x)) db recs

section Parts

variable {r : Reporter} {v : IpVersion} {db : Db} {P : Db → Prop} {ok : Db → Ask → Prop} {rec : GroupRecord}

/-- What each part keeps, the message keeps. -/
theorem process_keeps (hpart : ∀ db g makes db', P db → ok db (if makes then .member g else .block g) →
      Part r.dev r.pkt v r.clientAddr g db makes db' → P db')
    (hleave : ∀ db g, P db → ok db (.leave g) → P (processLeave db r.dev r.pkt v r.clientAddr g).2) (msg : Message)
    (hmeets : Meets ok r v db msg) (h : P db) : P (process r v db msg) := by
  cases msg with
  | join igmpv1 g => exact hpart db g true _ h hmeets part_join
  | leave g => exact hleave db g h hmeets
  | records recs =>
    refine run_invariant (fun db x h hok => hpart db _ _ _ h ?_ (part_handle x.1)) recs db h hmeets
    simpa [askOf] using hok

/-- A part changes the tables only after it has passed the limits. -/
theorem Part.limit {dev : DevInfo} {pkt : PktHdr} {c g : Ip} {makes : Bool} {db' : Db}
    (h : Part dev pkt v c g db makes db') : db'.tables = db.tables ∨
      (groupLimitCheck db.net db.tables dev pkt.moduleIndex v g c pkt.devIfindex .drop).1 = .cont := by
  cases h with
  | refused _ => exact Or.inl rfl
  | opened hpass _ => exact Or.inr hpass.2
  | entered hpass _ _ _ => exact Or.inr hpass.2
  | unknown hpass => exact Or.inr hpass.2
  | worked hpass _ _ => exact Or.inr hpass.2

end Parts

/-! ### Limits on clients in a run -/

section Loses

variable {t t' : Tables} {i : ℕ} {v : IpVersion} {g c : Ip} {e : ClientEntry} {db : Db} {dev : DevInfo} {pkt : PktHdr}

theorem Loses.same : Loses t t := fun _ _ _ _ h => h

theorem loses_of_frame (hframe : Frame (spot i v g) t t')
    (hself : ∀ e' ∈ clientsAt t' i v g, ∃ e ∈ clientsAt t i v g, addr v e.clientAddr = addr v e'.clientAddr) :
    Loses t t' := by
  rintro j w g' c' ⟨e, he, haddr⟩
  by_cases hspot : spot j w g' = spot i v g
  · obtain ⟨rfl, rfl, hg⟩ := spot_inj.mp hspot
    rw [clientsAt_congr hg] at he
    obtain ⟨e₀, he₀, haddr₀⟩ := hself e he
    exact ⟨e₀, clientsAt_congr hg ▸ he₀, haddr₀.trans haddr⟩
  · rw [hframe.clientsAt hspot] at he
    exact ⟨e, he, haddr⟩

theorem loses_storeClient : Loses t (t.storeClient i v g e) := by
  refine loses_of_frame frame_modifyClients fun e' he' => ?_
  rw [clientsAt_storeClient rfl] at he'
  rcases Chain.mem_update he' with he' | ⟨e₀, he₀, hkey, rfl⟩
  · exact ⟨e', he', rfl⟩
  · exact ⟨e₀, he₀, (Prod.mk.inj hkey).1⟩

theorem loses_processLeave : Loses db.tables (processLeave db dev pkt v c g).2.tables := by
  refine processLeave_holds .same ?_ fun e _ _ => ⟨loses_of_frame frame_deleteClientEntry fun e he => ?_,
    fun _ => loses_storeClient⟩
  · rintro db' hloses j w g' c' ⟨e, he, haddr⟩
    rw [clientsAt_dropEmptyGroup] at he
    exact hloses j w g' c' ⟨e, he, haddr⟩
  · rw [clientsAt_deleteClientEntry] at he
    exact ⟨e, mem_of_mem_filter he, rfl⟩

theorem Part.loses {db' : Db} (h : Part dev pkt v c g db false db') : Loses db.tables db'.tables := by
  cases h with
  | refused _ => exact .same
  | unknown _ => exact .same
  | worked _ _ _ =>
    rw [finish_tables]
    exact loses_storeClient

theorem Stays.loses (h : Stays t t') : Loses t t' := by
  rintro j w g' c' ⟨e', he', haddr⟩
  obtain ⟨e, he, hkey, -⟩ := h j w g' e' he'
  exact ⟨e, he, (Prod.mk.inj hkey).1.symm.trans haddr⟩

end Loses

/-- A membership that is asked for finds what the limits count right. -/
def CountableAsk (pkt : PktHdr) (v : IpVersion) (c : Ip) (db : Db) : Ask → Prop
  | .member g => Countable (db.net.brInfo pkt.moduleIndex) db.tables pkt.moduleIndex v g c
  | _ => True

/-- So do all parts of every report. The sweep, data and the passing of time are always allowed. -/
def Counted (db : Db) : Event → Prop
  | .report pkt v c msg => ∀ dev, devInfoOf db.net pkt.devIfindex = some dev →
      Meets (CountableAsk pkt v c) ⟨dev, pkt, c⟩ v db msg
  | .tick .. | .data .. | .elapse .. => True
  | _ => False

section Runs

variable {net net' : Net} {t t' : Tables} {db : Db} {r : Reporter} {v : IpVersion} {g c : Ip} {i : ℕ}

theorem Steady.clientsWithin (hsteady : Steady net net') (h : ClientsWithin net t) : ClientsWithin net' t := by
  refine ⟨fun i v => ?_, fun i => ?_, fun i v => ?_⟩
  · rw [hsteady.sameLimits.limits]
    exact h.version i v
  · rw [hsteady.sysMaxClientSize]
    exact h.total i
  · rw [hsteady.sameLimits.limits]
    exact h.joins i v

/-- A part that changes the tables for one client and has passed the limits. -/
theorem taken_within {mac : Mac} {dev : DevInfo} {ifidx : UInt32} (hacts : Acts i v g (addr v c, mac) t t')
    (hlimit : t' = t ∨ (groupLimitCheck net t dev i v g c ifidx .drop).1 = .cont)
    (hcount : Countable (net.brInfo i) t i v g c) (h : ClientsWithin net t) : ClientsWithin net t' := by
  rcases hlimit with rfl | hcont
  · exact h
  · have hclients := ((groupLimitCheck_cont.mp hcont).resolve_left nofun).2 v
    exact admit_within (gains_of_acts hacts) hclients hcount h

theorem process_clients (msg : Message) (hmeets : Meets (CountableAsk r.pkt v r.clientAddr) r v db msg)
    (hsteady : Steady net db.net) (h : ClientsWithin net db.tables) :
    ClientsWithin net (process r v db msg).tables := by
  -- the limits are read of the configuration that a part meets, which differs in counters only
  refine (process_keeps (P := fun db : Db => Steady net db.net ∧ ClientsWithin net db.tables) ?_ ?_ msg hmeets
    ⟨hsteady, h⟩).2
  · rintro db g makes db' ⟨hsteady, h⟩ hcount hpart
    refine ⟨hsteady.trans hpart.calm.2, ?_⟩
    cases makes with
    | true =>
      refine hsteady.symm.clientsWithin ?_
      exact taken_within hpart.acts hpart.limit hcount (hsteady.clientsWithin h)
    | false => exact hpart.loses.within h
  · rintro db g ⟨hsteady, h⟩ -
    exact ⟨hsteady.trans processLeave_calm.2, loses_processLeave.within h⟩

theorem step_clients (sysTimerSec : UInt32) (e : Event) (hu : Unique db.tables) (hok : Counted db e)
    (hsteady : Steady net db.net) (h : ClientsWithin net db.tables) :
    Steady net (step sysTimerSec db e).net ∧ ClientsWithin net (step sysTimerSec db e).tables := by
  have htraffic : e.Traffic := by
    cases e <;> trivial
  refine ⟨hsteady.trans (step_steady htraffic), ?_⟩
  rcases step_walked e hu with ⟨pkt, v, c, msg, rfl⟩ | ⟨G, is, hG, -, hwalked⟩
  · rw [step]
    rcases mldProcess_cases db pkt v c msg with heq | ⟨dev, hdev, -, -, heq⟩
    · rw [heq]
      exact h
    · rw [heq]
      exact process_clients msg (hok dev hdev) hsteady h
  · exact (hwalked.stays hG).loses.within h

end Runs

/-- From an empty database on, in every run of reports that find what the limits count right, and of
    sweeps, every module keeps to its limits on clients. -/
theorem clients_within_limits (sysTimerSec : UInt32) (net : Net) (G C S F : ℕ) (es : List Event)
    (hlegal : Legal (step sysTimerSec) Counted (Db.init net G C S F) es) :
    ClientsWithin net (run (step sysTimerSec) (Db.init net G C S F) es).tables := by
  have hstep : ∀ (db : Db) e, Unique db.tables ∧ Steady net db.net ∧ ClientsWithin net db.tables → Counted db e →
      Unique (step sysTimerSec db e).tables ∧ Steady net (step sysTimerSec db e).net ∧
        ClientsWithin net (step sysTimerSec db e).tables := by
    rintro db e ⟨hu, hsteady, h⟩ hok
    exact ⟨step_unique e hu, step_clients sysTimerSec e hu hok hsteady h⟩
  have hinit : ClientsWithin net (Db.init net G C S F).tables :=
    ⟨fun _ _ _ => Nat.zero_le _, fun _ _ => Nat.zero_le _, fun _ _ _ _ => Nat.zero_le _⟩
  exact (run_invariant hstep es _ ⟨unique_init net G C S F, Steady.same, hinit⟩ hlegal).2.2

/-- Where one client of each version may be there and join one group: one host joins over IPv6, another
    one over IPv4. -/
theorem clients_within_limits_sample :
    let net := limitNet fun _ => ⟨0, 1, 1, 0, false⟩
    let es := [.report samplePkt .v6 (host 9) (.join false (sampleRec []).groupAddr), .tick 10 fun _ => false,
      .report samplePkt .v4 (host 8) (.join false (sampleRec []).groupAddr)]
    ClientsWithin net (run (step 10) (Db.init net 4 4 8 4) es).tables := by
  intro net es
  refine clients_within_limits 10 net 4 4 8 4 es ⟨fun dev _ => ?_, trivial, fun dev _ => ?_, trivial⟩
  · refine ⟨Or.inr (Or.inl ?_), fun _ => Or.inr (Or.inl fun _ he => absurd he not_mem_nil)⟩
    unfold CountsAll
    decide +kernel
  · refine ⟨Or.inr (Or.inr ⟨nofun, ?_⟩), nofun⟩
    decide +kernel

/-- Two hosts join one group over IPv6 where one client is allowed. -/
theorem clients_beyond_limit :
    let net := limitNet fun _ => ⟨0, 1, 0, 0, false⟩
    let g := (sampleRec []).groupAddr
    let es := [.report samplePkt .v6 (host 9) (.join false g),
      .report { samplePkt with smac := 0x2 } .v6 (host 8) (.join false g)]
    ¬ ClientsWithin net (run (step 10) (Db.init net 4 4 8 4) es).tables := by
  intro net g es h
  have hcount : (clientAddrs (run (step 10) (Db.init net 4 4 8 4) es).tables 0 .v6).length = 2 := by decide +kernel
  have hlimit := h.version 0 .v6 (by decide +kernel)
  rw [hcount] at hlimit
  exact absurd hlimit (by decide +kernel)

end PhoebusBsp.Igmp

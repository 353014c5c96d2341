import PhoebusBsp.Igmp.System

/-! The limits on groups and clients: what `rtk_igmp_group_limitCheck` lets pass, and what it keeps.

        new group       the limits of both versions and of their sum, the weights, the limit of the device
        known group     the limit of the device, unless the device has a member of it
        client, once for the counts of each version
          counted       the groups it may join, unless it is a member
          not counted   the clients of that version, and of both

    An IPv4 client is never counted as an IPv6 one, so each report has to pass the limit on the clients of
    the other version. -/

namespace PhoebusBsp.Igmp
open Schemes List

theorem forall_version {p : IpVersion → Prop} : (∀ w, p w) ↔ p .v4 ∧ p .v6 := by
  refine ⟨fun h => ⟨h .v4, h .v6⟩, ?_⟩
  rintro ⟨h4, h6⟩ (_ | _)
  · exact h4
  · exact h6

def IpVersion.other : IpVersion → IpVersion
  | .v4 => .v6
  | .v6 => .v4

/-- What holds for the version of the packet and for the other one. -/
theorem forall_version_other {p : IpVersion → Prop} (v : IpVersion) : (∀ w, p w) ↔ p v ∧ p v.other := by
  rw [forall_version]
  cases v with
  | v4 => rfl
  | v6 => exact and_comm

/-! ### The check -/

/-- The limits on groups are not reached. -/
structure GroupRoom (br : BrInfo) (t : Tables) (i : ℕ) : Prop where
  version : ∀ w, reached (br.limits w).sysMaxGroupSize (groupsOf t i w).length = false
  total : reached br.sysMaxGroupSize ((groupsOf t i .v4).length + (groupsOf t i .v6).length) = false

/-- The limits on the groups of a bridge are the same. -/
structure SameLimits (net net' : Net) : Prop where
  limits : ∀ i, (net'.brInfo i).limits = (net.brInfo i).limits
  groups : ∀ i, (net'.brInfo i).sysMaxGroupSize = (net.brInfo i).sysMaxGroupSize

section Check

variable {net net' : Net} {t : Tables} {dev : DevInfo} {i : ℕ} {v w : IpVersion} {g c : Ip} {ifidx : UInt32}
  {act : Nf}

theorem SameLimits.trans {net'' : Net} (h : SameLimits net net') (h' : SameLimits net' net'') :
    SameLimits net net'' :=
  ⟨fun i => (h'.limits i).trans (h.limits i), fun i => (h'.groups i).trans (h.groups i)⟩

theorem SameLimits.symm (h : SameLimits net net') : SameLimits net' net :=
  ⟨fun i => (h.limits i).symm, fun i => (h.groups i).symm⟩

theorem Steady.sameLimits (h : Steady net net') : SameLimits net net' :=
  ⟨fun i => h.reads (fun net => (net.brInfo i).limits) fun _ => rfl,
    fun i => h.reads (fun net => (net.brInfo i).sysMaxGroupSize) fun _ => rfl⟩

theorem Steady.sysMaxClientSize (h : Steady net net') (i : ℕ) :
    (net'.brInfo i).sysMaxClientSize = (net.brInfo i).sysMaxClientSize :=
  h.reads (fun net => (net.brInfo i).sysMaxClientSize) fun _ => rfl

theorem Steady.clientLimit (h : Steady net net') :
    clientLimit (net'.brInfo i) t i v w g c = clientLimit (net.brInfo i) t i v w g c := by
  unfold Igmp.clientLimit
  rw [h.sameLimits.limits, h.sysMaxClientSize]

theorem SameLimits.groupRoom (h : SameLimits net net') (hroom : GroupRoom (net'.brInfo i) t i) :
    GroupRoom (net.brInfo i) t i := by
  refine ⟨fun w => ?_, ?_⟩
  · rw [← h.limits]
    exact hroom.version w
  · rw [← h.groups]
    exact hroom.total

/-- To the other version no client is known. -/
theorem clientLimit_other {br : BrInfo} : clientLimit br t i v v.other g c = true ↔
    reached (br.limits v.other).sysMaxClientSize (totalClientCnt t i v.other) = false ∧
      reached br.sysMaxClientSize (totalClientCnt t i .v4 + totalClientCnt t i .v6) = false := by
  have hzero : specificClientJoinCnt t i v v.other c = 0 := by
    cases v <;> rfl
  unfold clientLimit
  rw [if_neg (not_not.mpr hzero), Bool.and_eq_true, Bool.not_eq_true', Bool.not_eq_true']

/-- The checks on a new group. -/
theorem groupLimit_new (hnew : searchGroupEntry t i v g = none) :
    (groupLimit net t dev i v g ifidx).1 = true ↔
      GroupRoom (net.brInfo i) t i ∧ (weightOverCheck net t dev i v g).1 = true ∧
        devFull t dev i v ifidx = false := by
  have hroom : GroupRoom (net.brInfo i) t i ↔
      reached ((net.brInfo i).limits .v4).sysMaxGroupSize (groupsOf t i .v4).length = false ∧
      reached ((net.brInfo i).limits .v6).sysMaxGroupSize (groupsOf t i .v6).length = false ∧
      reached (net.brInfo i).sysMaxGroupSize
        ((groupsOf t i .v4).length + (groupsOf t i .v6).length) = false := by
    rw [← and_assoc, ← forall_version (p := fun w =>
      reached ((net.brInfo i).limits w).sysMaxGroupSize (groupsOf t i w).length = false)]
    exact ⟨fun h => ⟨h.version, h.total⟩, fun h => ⟨h.1, h.2⟩⟩
  rw [hroom]
  unfold groupLimit
  simp only [hnew]
  split_ifs with h4 h6 hsum
  · simp [h4]
  · simp [h6]
  · simp [hsum]
  · simp [h4, h6, hsum]

/-- The checks on a known group. -/
theorem groupLimit_known {e : GroupEntry} (hold : searchGroupEntry t i v g = some e) :
    (groupLimit net t dev i v g ifidx).1 = true ↔
      groupAndDevHit t i v g ifidx = true ∨ devFull t dev i v ifidx = false := by
  unfold groupLimit
  simp [hold]

/-- The configuration with the report counted. -/
def joinCounted (net : Net) (dev : DevInfo) (i : ℕ) (v : IpVersion) : Net :=
  (net.modifyDev dev.ifindex fun d => { d with devStatistic := bump v .joined d.devStatistic }).modifyBr i
    fun b => { b with brStatistic := bump v .joined b.brStatistic }

theorem joinCounted_steady : Steady net (joinCounted net dev i v) := by
  refine Steady.trans (steady_modifyDev fun _ _ => ?_) (steady_modifyBr fun _ => ?_) <;> rfl

/-- What it takes to pass. -/
theorem groupLimitCheck_cont :
    (groupLimitCheck net t dev i v g c ifidx act).1 = .cont ↔ act = .cont ∨
      (groupLimit (joinCounted net dev i v) t dev i v g ifidx).1 = true ∧
        ∀ w, clientLimit (net.brInfo i) t i v w g c = true := by
  have hsteady : Steady net (groupLimit (joinCounted net dev i v) t dev i v g ifidx).2 :=
    joinCounted_steady.trans groupLimit_steady
  have hcheck : groupLimitCheck net t dev i v g c ifidx act =
      if (groupLimit (joinCounted net dev i v) t dev i v g ifidx).1 &&
        clientLimit (net.brInfo i) t i v .v4 g c && clientLimit (net.brInfo i) t i v .v6 g c then
        (.cont, (groupLimit (joinCounted net dev i v) t dev i v g ifidx).2)
      else (act, (groupLimit (joinCounted net dev i v) t dev i v g ifidx).2) := by
    rw [← hsteady.clientLimit, ← hsteady.clientLimit]
    rfl
  rw [hcheck, forall_version]
  split
  · next hpass =>
    rw [Bool.and_eq_true, Bool.and_eq_true, and_assoc] at hpass
    exact ⟨fun _ => Or.inr hpass, fun _ => rfl⟩
  · next hfail =>
    rw [Bool.and_eq_true, Bool.and_eq_true, and_assoc] at hfail
    exact ⟨Or.inl, fun h => h.resolve_right hfail⟩

/-- A verdict is to go on, or the action asked for. -/
theorem groupLimitCheck_verdict :
    (groupLimitCheck net t dev i v g c ifidx act).1 = .cont ∨
      (groupLimitCheck net t dev i v g c ifidx act).1 = act := by
  unfold groupLimitCheck
  simp only
  split
  · exact Or.inl rfl
  · exact Or.inr rfl

/-- A new group that passes finds room. -/
theorem groupLimitCheck_room (hpass : (groupLimitCheck net t dev i v g c ifidx act).1 = .cont)
    (hact : act ≠ .cont) (hnew : searchGroupEntry t i v g = none) : GroupRoom (net.brInfo i) t i := by
  obtain ⟨hgroup, -⟩ := (groupLimitCheck_cont.mp hpass).resolve_left hact
  exact joinCounted_steady.sameLimits.groupRoom ((groupLimit_new hnew).mp hgroup).1

end Check

/-! ### Members -/

/-- The group has a member on the device. -/
def HasMember (t : Tables) (i : ℕ) (v : IpVersion) (g : Ip) (ifidx : UInt32) : Prop :=
  ∃ e ∈ clientsAt t i v g, e.inIfidx = ifidx

section Members

variable {net : Net} {t : Tables} {dev : DevInfo} {i : ℕ} {v : IpVersion} {g c : Ip} {ifidx : UInt32}
  {act : Nf} {e : ClientEntry}

theorem mem_members {ge : GroupEntry} :
    (ge, e) ∈ members t i v ↔ ∃ g, searchGroupEntry t i v g = some ge ∧ e ∈ ge.clientList := by
  unfold members
  simp only [mem_flatMap, mem_groupsOf, mem_map, Prod.mk.injEq]
  constructor
  · rintro ⟨_, ⟨g, hsearch⟩, _, he, rfl, rfl⟩
    exact ⟨g, hsearch, he⟩
  · rintro ⟨g, hsearch, he⟩
    exact ⟨ge, ⟨g, hsearch⟩, e, he, rfl, rfl⟩

theorem groupAndDevHit_iff : groupAndDevHit t i v g ifidx = true ↔ HasMember t i v g ifidx := by
  unfold groupAndDevHit HasMember
  rw [any_eq_true]
  constructor
  · rintro ⟨⟨ge, e⟩, hmem, hhit⟩
    obtain ⟨g', hsearch, he⟩ := mem_members.mp hmem
    obtain ⟨hg, hif⟩ : addr v g = addr v ge.groupAddr ∧ e.inIfidx = ifidx := by simpa using hhit
    rw [← searchGroupEntry_congr (hg.trans (groupKey_of_search hsearch))] at hsearch
    exact ⟨e, clientsAt_of_search hsearch ▸ he, hif⟩
  · rintro ⟨e, he, hif⟩
    obtain ⟨ge, hsearch, he⟩ := group_of_client he
    refine ⟨(ge, e), mem_members.mpr ⟨g, hsearch, he⟩, ?_⟩
    have hkey : addr v ge.groupAddr = addr v g := groupKey_of_search hsearch
    simp [hkey, hif]

/-- The entries of the group that let a known client pass: for IPv6 the comparison is the wrong way
    round, and it takes another client. -/
theorem clientInGroup_iff : (searchGroupEntry t i v g).any (clientInGroup · c) = true ↔
    ∃ e ∈ clientsAt t i v g, v = .v4 ∧ addr v e.clientAddr = addr v c ∨ v = .v6 ∧ e.clientAddr ≠ c := by
  unfold clientsAt
  cases hsearch : searchGroupEntry t i v g with
  | none => simp
  | some ge =>
    rw [Option.any_some, clientInGroup, (t.placed i v _ ge (Chain.mem_of_search hsearch)).1]
    cases v with
    | v4 => simp [addr, @eq_comm _ c.w0]
    | v6 => simp [@eq_comm _ c]

/-- What lets a member refresh its membership. -/
structure RefreshPasses (br : BrInfo) (t : Tables) (i : ℕ) (v : IpVersion) (g c : Ip) : Prop where
  member : v = .v6 → (∃ e ∈ clientsAt t i v g, e.clientAddr ≠ c) ∨
    reached (br.limits v).perClientMaxJoinGroupSize (specificClientJoinCnt t i v v c) = false
  other : reached (br.limits v.other).sysMaxClientSize (totalClientCnt t i v.other) = false
  total : reached br.sysMaxClientSize (totalClientCnt t i .v4 + totalClientCnt t i .v6) = false

/-- A member that reports its group again from its device is refused when the clients of the other
    version, or of both, are too many, and over IPv6 when it is alone in the group and has reached its
    own limit. -/
theorem refresh_passes_iff (net : Net) (t : Tables) (dev : DevInfo) (i : ℕ) (v : IpVersion) (g c : Ip)
    (ifidx : UInt32) (act : Nf)
    (hmember : ∃ e ∈ clientsAt t i v g, addr v e.clientAddr = addr v c ∧ e.inIfidx = ifidx) :
    (groupLimitCheck net t dev i v g c ifidx act).1 = .cont ↔
      act = .cont ∨ RefreshPasses (net.brInfo i) t i v g c := by
  obtain ⟨e, he, haddr, hport⟩ := hmember
  obtain ⟨ge, hsearch, hclient⟩ := group_of_client he
  have hgroup : (groupLimit (joinCounted net dev i v) t dev i v g ifidx).1 = true :=
    (groupLimit_known hsearch).mpr (Or.inl (groupAndDevHit_iff.mpr ⟨e, he, hport⟩))
  have hcount : specificClientJoinCnt t i v v c ≠ 0 := by
    unfold specificClientJoinCnt
    rw [if_pos rfl, ← Nat.pos_iff_ne_zero, countP_pos_iff]
    exact ⟨(ge, e), mem_members.mpr ⟨g, hsearch, hclient⟩, by simp [haddr]⟩
  -- as a client of its own version it is known, as one of the other version it is not
  have hself : clientLimit (net.brInfo i) t i v v g c = true ↔
      (v = .v6 → (∃ e ∈ clientsAt t i v g, e.clientAddr ≠ c) ∨
        reached ((net.brInfo i).limits v).perClientMaxJoinGroupSize
          (specificClientJoinCnt t i v v c) = false) := by
    unfold clientLimit
    rw [if_pos hcount, Bool.or_eq_true, clientInGroup_iff, Bool.not_eq_true']
    cases v with
    | v4 => exact iff_of_true (Or.inl ⟨e, he, Or.inl ⟨rfl, haddr⟩⟩) nofun
    | v6 => simp
  rw [groupLimitCheck_cont, forall_version_other v, hself, clientLimit_other]
  refine or_congr_right ⟨fun h => ⟨h.2.1, h.2.2.1, h.2.2.2⟩, fun h => ⟨hgroup, h.member, h.other, h.total⟩⟩

/-- The bridge of the samples with limits for the versions. -/
def limitNet (limits : IpVersion → BrLimits) : Net :=
  { sampleNet false with brInfo := fun i => { (sampleNet false).brInfo i with limits := limits } }

/-- The tables after a host has joined a group. -/
def joinedTables (v : IpVersion) : Tables :=
  (processIsExclude (sampleDb false) (samplePort false) samplePkt v (host 9) (sampleRec [])).2.tables

/-- An IPv4 client that may join one group may refresh it. -/
theorem refresh_passes_full :
    let net := limitNet fun _ => ⟨1, 1, 1, 0, false⟩
    let g := (sampleRec []).groupAddr
    (∃ e ∈ clientsAt (joinedTables .v4) 0 .v4 g, addr .v4 e.clientAddr = addr .v4 (host 9) ∧ e.inIfidx = 5) ∧
      (groupLimitCheck net (joinedTables .v4) (samplePort false) 0 .v4 g (host 9) 5 .drop).1 = .cont := by
  intro net g
  have hmember : ∃ e ∈ clientsAt (joinedTables .v4) 0 .v4 g,
      addr .v4 e.clientAddr = addr .v4 (host 9) ∧ e.inIfidx = 5 := by decide +kernel
  refine ⟨hmember, (refresh_passes_iff net (joinedTables .v4) (samplePort false) 0 .v4 g (host 9) 5 .drop
    hmember).mpr (Or.inr ⟨nofun, ?_, ?_⟩)⟩
  · decide +kernel
  · decide +kernel

/-- Over IPv6 the only member of a group, which may join one group, is refused when it reports the group
    again. -/
theorem refresh_refused_alone :
    let net := limitNet fun _ => ⟨0, 0, 1, 0, false⟩
    let g := (sampleRec []).groupAddr
    (∃ e ∈ clientsAt (joinedTables .v6) 0 .v6 g, addr .v6 e.clientAddr = addr .v6 (host 9) ∧ e.inIfidx = 5) ∧
      (groupLimitCheck net (joinedTables .v6) (samplePort false) 0 .v6 g (host 9) 5 .drop).1 = .drop := by
  decide +kernel

end Members

/-! ### One version and the other -/

section Versions

variable {net : Net} {t t' : Tables} {dev : DevInfo} {i : ℕ} {v : IpVersion} {g c : Ip} {ifidx : UInt32}
  {act : Nf}

/-- Nothing but the limits of single versions is set. -/
structure NoSharedLimit (net : Net) (dev : DevInfo) (i : ℕ) (v : IpVersion) : Prop where
  groups : (net.brInfo i).sysMaxGroupSize = 0
  clients : (net.brInfo i).sysMaxClientSize = 0
  devWeight : (dev.devConf v).maxWeight = 0
  brWeight : ((net.brInfo i).limits v).sysMaxWeight = 0

/-- The limits of the version of the packet let it pass. -/
structure OwnRoom (br : BrInfo) (dev : DevInfo) (t : Tables) (i : ℕ) (v : IpVersion) (g c : Ip)
    (ifidx : UInt32) : Prop where
  fresh : searchGroupEntry t i v g = none →
    reached (br.limits v).sysMaxGroupSize (groupsOf t i v).length = false
  device : (searchGroupEntry t i v g).isSome ∧ groupAndDevHit t i v g ifidx = true ∨
    devFull t dev i v ifidx = false
  client : clientLimit br t i v v g c = true

/-- A limit of the other version is reached that is looked at. -/
def Crowded (br : BrInfo) (t : Tables) (i : ℕ) (v : IpVersion) (g : Ip) : Prop :=
  (searchGroupEntry t i v g = none ∧
    reached (br.limits v.other).sysMaxGroupSize (groupsOf t i v.other).length = true) ∨
  reached (br.limits v.other).sysMaxClientSize (totalClientCnt t i v.other) = true

instance (br : BrInfo) (t : Tables) (i : ℕ) (v : IpVersion) (g : Ip) : Decidable (Crowded br t i v g) :=
  inferInstanceAs (Decidable (_ ∨ _))

theorem reached_zero (n : ℕ) : reached 0 n = false := rfl

theorem weightOverCheck_light (hdev : (dev.devConf v).maxWeight = 0)
    (hbr : ((net.brInfo i).limits v).sysMaxWeight = 0) : (weightOverCheck net t dev i v g).1 = true := by
  have hlight : ∀ p, overWeight net t p v 0 g = false := fun _ => rfl
  unfold weightOverCheck
  simp only [hdev, hbr, hlight]
  rfl

/-- The verdict is made of what the own limits and those of the other version say. -/
theorem groupLimitCheck_versions (t : Tables) (g c : Ip) (ifidx : UInt32) (act : Nf)
    (hset : NoSharedLimit net dev i v) :
    (groupLimitCheck net t dev i v g c ifidx act).1 = .cont ↔ act = .cont ∨
      OwnRoom (net.brInfo i) dev t i v g c ifidx ∧ ¬Crowded (net.brInfo i) t i v g := by
  have hsame : SameLimits net (joinCounted net dev i v) := joinCounted_steady.sameLimits
  rw [groupLimitCheck_cont, forall_version_other v, clientLimit_other, hset.clients, reached_zero,
    eq_self, and_true]
  refine or_congr_right ?_
  cases hsearch : searchGroupEntry t i v g with
  | none =>
    have hlight : (weightOverCheck (joinCounted net dev i v) t dev i v g).1 = true :=
      weightOverCheck_light hset.devWeight (by rw [hsame.limits]; exact hset.brWeight)
    have hroom : GroupRoom ((joinCounted net dev i v).brInfo i) t i ↔
        reached ((net.brInfo i).limits v).sysMaxGroupSize (groupsOf t i v).length = false ∧
        reached ((net.brInfo i).limits v.other).sysMaxGroupSize (groupsOf t i v.other).length = false := by
      rw [← forall_version_other (p := fun w =>
        reached ((net.brInfo i).limits w).sysMaxGroupSize (groupsOf t i w).length = false)]
      constructor
      · intro h w
        rw [← hsame.limits]
        exact h.version w
      · intro h
        refine ⟨fun w => ?_, ?_⟩
        · rw [hsame.limits]
          exact h w
        · rw [hsame.groups, hset.groups, reached_zero]
    rw [groupLimit_new hsearch, hroom]
    constructor
    · rintro ⟨⟨⟨hown, hgroups⟩, -, hdev⟩, hclient, hclients⟩
      refine ⟨⟨fun _ => hown, Or.inr hdev, hclient⟩, ?_⟩
      simp [Crowded, hgroups, hclients]
    · rintro ⟨hown, hfree⟩
      have hdev := hown.device.resolve_left (by simp [hsearch])
      simp only [Crowded, hsearch, true_and, not_or, Bool.not_eq_true] at hfree
      exact ⟨⟨⟨hown.fresh hsearch, hfree.1⟩, hlight, hdev⟩, hown.client, hfree.2⟩
  | some ge =>
    rw [groupLimit_known hsearch]
    constructor
    · rintro ⟨hdev, hclient, hclients⟩
      have hold : searchGroupEntry t i v g ≠ none := by simp [hsearch]
      refine ⟨⟨fun hnew => absurd hnew hold, ?_, hclient⟩, ?_⟩
      · simpa [hsearch] using hdev
      · simp [Crowded, hsearch, hclients]
    · rintro ⟨hown, hfree⟩
      simp only [Crowded, hsearch, reduceCtorEq, false_and, false_or, Bool.not_eq_true] at hfree
      exact ⟨by simpa [hsearch] using hown.device, hown.client, hfree⟩

/-- The limits and the groups of the other version are not looked at here. -/
theorem OwnRoom.congr {net' : Net} {dev' : DevInfo} (htables : t'.hashTable i v = t.hashTable i v)
    (hlimits : (net'.brInfo i).limits v = (net.brInfo i).limits v)
    (hdev : (dev'.devConf v).maxGroupSize = (dev.devConf v).maxGroupSize)
    (hshared : (net'.brInfo i).sysMaxClientSize = 0) (hshared' : (net.brInfo i).sysMaxClientSize = 0)
    (h : OwnRoom (net.brInfo i) dev t i v g c ifidx) : OwnRoom (net'.brInfo i) dev' t' i v g c ifidx := by
  have hsearch : searchGroupEntry t' i v g = searchGroupEntry t i v g := by
    unfold searchGroupEntry
    rw [htables]
  have hgroups : groupsOf t' i v = groupsOf t i v := by
    unfold groupsOf
    rw [htables]
  have hmembers : members t' i v = members t i v := by
    unfold members
    rw [hgroups]
  have htotal : totalClientCnt t' i v = totalClientCnt t i v := by
    unfold totalClientCnt clientCnt
    cases v <;> rw [hmembers]
  have hcount : specificClientJoinCnt t' i v v c = specificClientJoinCnt t i v v c := by
    unfold specificClientJoinCnt
    rw [hmembers]
  have hfull : devFull t' dev' i v ifidx = devFull t dev i v ifidx := by
    unfold devFull devGroupCnt
    rw [hmembers, hdev]
  have hhit : groupAndDevHit t' i v g ifidx = groupAndDevHit t i v g ifidx := by
    unfold groupAndDevHit
    rw [hmembers]
  have hclient : clientLimit (net'.brInfo i) t' i v v g c = clientLimit (net.brInfo i) t i v v g c := by
    unfold clientLimit
    rw [hcount, hsearch, hlimits, htotal, hshared, hshared', reached_zero, reached_zero]
  refine ⟨fun hnew => ?_, ?_, ?_⟩
  · rw [hlimits, hgroups]
    exact h.fresh (hsearch ▸ hnew)
  · rw [hsearch, hhit, hfull]
    exact h.device
  · rw [hclient]
    exact h.client

/-- Verdicts agree if both are to go on or neither is. -/
theorem verdicts_agree_iff {a b : Nf} (hact : act ≠ .cont) (ha : a = .cont ∨ a = act)
    (hb : b = .cont ∨ b = act) : a = b ↔ (a = .cont ↔ b = .cont) := by
  rcases ha with rfl | rfl <;> rcases hb with rfl | rfl <;> simp [hact, Ne.symm hact]

theorem and_not_iff_and_not {p q r : Prop} : ((p ∧ ¬q) ↔ (p ∧ ¬r)) ↔ (p → (q ↔ r)) := by
  by_cases hp : p <;> simp [hp, not_iff_not]

/-- Two states and settings that agree on a version give a report of this version the same verdict if and
    only if the report is refused on account of its own version, or limits of the other version are
    reached in both or in neither. -/
theorem limit_verdicts_agree_iff (net net' : Net) (t t' : Tables) (dev dev' : DevInfo) (i : ℕ)
    (v : IpVersion) (g c : Ip) (ifidx : UInt32) (act : Nf)
    (htables : t'.hashTable i v = t.hashTable i v)
    (hlimits : (net'.brInfo i).limits v = (net.brInfo i).limits v)
    (hdev : (dev'.devConf v).maxGroupSize = (dev.devConf v).maxGroupSize)
    (hset : NoSharedLimit net dev i v) (hset' : NoSharedLimit net' dev' i v) :
    (groupLimitCheck net t dev i v g c ifidx act).1 = (groupLimitCheck net' t' dev' i v g c ifidx act).1 ↔
      act = .cont ∨ (OwnRoom (net.brInfo i) dev t i v g c ifidx →
        (Crowded (net.brInfo i) t i v g ↔ Crowded (net'.brInfo i) t' i v g)) := by
  have hown : OwnRoom (net'.brInfo i) dev' t' i v g c ifidx ↔ OwnRoom (net.brInfo i) dev t i v g c ifidx :=
    ⟨OwnRoom.congr htables.symm hlimits.symm hdev.symm hset.clients hset'.clients,
      OwnRoom.congr htables hlimits hdev hset'.clients hset.clients⟩
  have hcont := groupLimitCheck_versions t g c ifidx act hset
  have hcont' := groupLimitCheck_versions t' g c ifidx act hset'
  rw [hown] at hcont'
  have hverdict := @groupLimitCheck_verdict net t dev i v g c ifidx act
  have hverdict' := @groupLimitCheck_verdict net' t' dev' i v g c ifidx act
  by_cases hact : act = .cont
  · rw [hact, or_self] at hverdict hverdict'
    rw [hact, hverdict, hverdict']
    simp
  · rw [or_iff_right hact] at hcont hcont' ⊢
    rw [verdicts_agree_iff hact hverdict hverdict', hcont, hcont']
    exact and_not_iff_and_not

/-- Tables with one group of a version and no clients. -/
def groupTables (v : IpVersion) : Tables :=
  (openGroup (.init 4 4 8) 0 v (sampleRec []).groupAddr).getD (.init 4 4 8)

/-- An IPv4 join is taken with or without an IPv6 group where two of them are allowed. -/
theorem limit_verdicts_agree_below :
    let net := limitNet fun _ => ⟨2, 2, 0, 0, false⟩
    let verdict t := (groupLimitCheck net t (samplePort false) 0 .v4 (sampleRec []).groupAddr (host 9) 5 .drop).1
    (groupTables .v6).hashTable 0 .v4 = (Tables.init 4 4 8).hashTable 0 .v4 ∧
      (groupTables .v6).hashTable 0 .v6 ≠ (Tables.init 4 4 8).hashTable 0 .v6 ∧
      verdict (.init 4 4 8) = verdict (groupTables .v6) := by
  intro net verdict
  have htables : (groupTables .v6).hashTable 0 .v4 = (Tables.init 4 4 8).hashTable 0 .v4 := rfl
  have hset : NoSharedLimit net (samplePort false) 0 .v4 := ⟨rfl, rfl, rfl, rfl⟩
  refine ⟨htables, fun h => ?_, (limit_verdicts_agree_iff net net (.init 4 4 8) (groupTables .v6)
    (samplePort false) (samplePort false) 0 .v4 (sampleRec []).groupAddr (host 9) 5 .drop htables rfl rfl
    hset hset).mpr (Or.inr fun _ => ?_)⟩
  · have hbucket : (groupTables .v6).hashTable 0 .v6 1 ≠ [] := by decide +kernel
    exact hbucket (congrFun h 1)
  · decide +kernel

/-- An IPv6 group keeps an IPv4 join out where one IPv6 group is allowed and no limit is set for IPv4. -/
theorem limit_of_other_version :
    let net := limitNet fun v => if v = .v6 then ⟨1, 0, 0, 0, false⟩ else ⟨0, 0, 0, 0, false⟩
    let verdict t := (groupLimitCheck net t (samplePort false) 0 .v4 (sampleRec []).groupAddr (host 9) 5 .drop).1
    (∀ h, (groupTables .v6).hashTable 0 .v4 h = (Tables.init 4 4 8).hashTable 0 .v4 h) ∧
      (net.brInfo 0).sysMaxGroupSize = 0 ∧ (net.brInfo 0).sysMaxClientSize = 0 ∧
      verdict (.init 4 4 8) = .cont ∧ verdict (groupTables .v6) = .drop := by
  intro net verdict
  exact ⟨fun _ => rfl, rfl, rfl, by decide +kernel, by decide +kernel⟩

end Versions

/-! ### The number of groups -/

section Groups

variable {t t' t'' : Tables} {i : ℕ} {v : IpVersion} {g : Ip}

/-- The groups of a module by their addresses. -/
theorem mem_groupKeys :
    addr v g ∈ (groupsOf t i v).map (groupKey v) ↔ (searchGroupEntry t i v g).isSome := by
  simp only [mem_map, mem_groupsOf, Option.isSome_iff_exists]
  constructor
  · rintro ⟨e, ⟨g', he⟩, hkey⟩
    exact ⟨e, searchGroupEntry_congr (hkey.symm.trans (groupKey_of_search he)) ▸ he⟩
  · rintro ⟨e, he⟩
    exact ⟨e, ⟨g, he⟩, groupKey_of_search he⟩

/-- No group is met twice. -/
theorem groupKeys_nodup (t : Tables) (i : ℕ) (v : IpVersion) :
    ((groupsOf t i v).map (groupKey v)).Nodup := by
  unfold groupsOf
  rw [map_flatMap, nodup_flatMap]
  refine ⟨fun h _ => t.distinct i v h, nodup_range.imp fun {h h'} hne => ?_⟩
  -- a group of two buckets would have two hash values
  intro k hk hk'
  obtain ⟨e, he, rfl⟩ := mem_map.mp hk
  obtain ⟨e', he', hkey⟩ := mem_map.mp hk'
  refine hne ?_
  rw [← (t.placed i v h e he).2, ← (t.placed i v h' e' he').2]
  exact hash_congr hkey.symm

/-- The groups are at most the addresses they are known to have. -/
theorem groups_length_le {l : List Ip} (h : ∀ g, (searchGroupEntry t i v g).isSome → addr v g ∈ l) :
    (groupsOf t i v).length ≤ l.length := by
  have hsub : (groupsOf t i v).map (groupKey v) ⊆ l := by
    intro k hk
    obtain ⟨e, -, rfl⟩ := mem_map.mp hk
    exact h e.groupAddr (mem_groupKeys.mp hk)
  have hlength := ((groupKeys_nodup t i v).subperm hsub).length_le
  rwa [length_map] at hlength

/-- No group has come to be. -/
def Shrinks (t t' : Tables) : Prop :=
  ∀ i v g, (searchGroupEntry t' i v g).isSome → (searchGroupEntry t i v g).isSome

theorem Shrinks.same : Shrinks t t := fun _ _ _ => id

theorem Shrinks.trans (h : Shrinks t t') (h' : Shrinks t' t'') : Shrinks t t'' :=
  fun i v g hg => h i v g (h' i v g hg)

theorem Shrinks.length_le (h : Shrinks t t') (i : ℕ) (v : IpVersion) :
    (groupsOf t' i v).length ≤ (groupsOf t i v).length :=
  (groups_length_le fun g hg => mem_groupKeys.mpr (h i v g hg)).trans_eq (length_map _)

theorem Frame.shrinks (h : Frame (spot i v g) t t')
    (hself : (searchGroupEntry t' i v g).isSome → (searchGroupEntry t i v g).isSome) : Shrinks t t' := by
  intro j w g' hg'
  by_cases hspot : spot j w g' = spot i v g
  · obtain ⟨rfl, rfl, hg⟩ := spot_inj.mp hspot
    rw [searchGroupEntry_congr hg] at hg' ⊢
    exact hself hg'
  · rwa [← h j w g' hspot]

theorem shrinks_modifyClients {f : List ClientEntry → List ClientEntry} :
    Shrinks t (t.modifyClients i v g f) := by
  refine frame_modifyClients.shrinks fun h => ?_
  rwa [searchGroupEntry_modifyClients, Option.isSome_map] at h

theorem shrinks_dropEmptyGroup (db : Db) : Shrinks db.tables (dropEmptyGroup db i v g).tables := by
  refine (frame_dropEmptyGroup db i v g).shrinks fun h => ?_
  rw [searchGroupEntry_dropEmptyGroup] at h
  exact Option.isSome_of_isSome_bind h

theorem Walked.shrinks {G : IpVersion → GroupEntry → Option GroupEntry} {is : List ℕ}
    (h : Walked G is t t') : Shrinks t t' := by
  intro i v g hg
  by_cases hi : i ∈ is
  · rw [h.done i hi] at hg
    exact Option.isSome_of_isSome_bind hg
  · rwa [h.same i hi] at hg

end Groups

/-! ### Limits on groups in a run -/

/-- Every module keeps to its limits on groups. -/
structure WithinLimits (net : Net) (t : Tables) : Prop where
  version : ∀ i v, ((net.brInfo i).limits v).sysMaxGroupSize ≠ 0 →
    (groupsOf t i v).length ≤ ((net.brInfo i).limits v).sysMaxGroupSize.toNat
  total : ∀ i, (net.brInfo i).sysMaxGroupSize ≠ 0 →
    (groupsOf t i .v4).length + (groupsOf t i .v6).length ≤ (net.brInfo i).sysMaxGroupSize.toNat

section Runs

variable {net net' : Net} {t t' : Tables} {db : Db} {dev : DevInfo} {pkt : PktHdr} {i : ℕ} {v : IpVersion}
  {c g : Ip}

theorem WithinLimits.mono (h : WithinLimits net t) (hle : ∀ i v, (groupsOf t' i v).length ≤ (groupsOf t i v).length) :
    WithinLimits net t' where
  version i v hset := (hle i v).trans (h.version i v hset)
  total i hset := (Nat.add_le_add (hle i .v4) (hle i .v6)).trans (h.total i hset)

theorem SameLimits.withinLimits (hsame : SameLimits net net') (h : WithinLimits net t) :
    WithinLimits net' t := by
  refine ⟨fun i v => ?_, fun i => ?_⟩
  · rw [hsame.limits]
    exact h.version i v
  · rw [hsame.groups]
    exact h.total i

theorem lt_of_not_reached {limit : UInt32} {n : ℕ} (h : reached limit n = false) (hset : limit ≠ 0) :
    n < limit.toNat := by
  unfold reached at h
  simpa [hset] using h

/-- Counts keep to the limits of the versions and of both when none grows, or one by one where there is room. -/
theorem counts_within {lim : ℕ → IpVersion → UInt32} {tot : ℕ → UInt32} {n m : ℕ → IpVersion → ℕ}
    (hothers : ∀ j w, (j, w) ≠ (i, v) → m j w ≤ n j w)
    (hself : m i v ≤ n i v ∨ m i v ≤ 1 + n i v ∧ (lim i v ≠ 0 → n i v < (lim i v).toNat) ∧
      (tot i ≠ 0 → n i .v4 + n i .v6 < (tot i).toNat))
    (hversion : ∀ j w, lim j w ≠ 0 → n j w ≤ (lim j w).toNat)
    (htotal : ∀ j, tot j ≠ 0 → n j .v4 + n j .v6 ≤ (tot j).toNat) :
    (∀ j w, lim j w ≠ 0 → m j w ≤ (lim j w).toNat) ∧ ∀ j, tot j ≠ 0 → m j .v4 + m j .v6 ≤ (tot j).toNat := by
  refine ⟨fun j w hset => ?_, fun j hset => ?_⟩
  · have hold := hversion j w hset
    by_cases hjw : (j, w) = (i, v)
    · obtain ⟨rfl, rfl⟩ := Prod.mk.inj hjw
      rcases hself with hle | ⟨hle, hroom, -⟩
      · exact hle.trans hold
      · have hlt := hroom hset
        omega
    · exact (hothers j w hjw).trans hold
  · have hold := htotal j hset
    by_cases hj : j = i
    · subst hj
      have hother : m j v.other ≤ n j v.other := hothers j v.other (by cases v <;> simp [IpVersion.other])
      cases v <;> simp only [IpVersion.other] at hother <;> rcases hself with hle | ⟨hle, -, hroom⟩
      all_goals first | omega | (have hlt := hroom hset; omega)
    · have h4 := hothers j .v4 fun heq => hj (Prod.mk.inj heq).1
      have h6 := hothers j .v6 fun heq => hj (Prod.mk.inj heq).1
      omega

/-- A group that is made where there is room. -/
theorem openGroup_within (h : WithinLimits net t)
    (hroom : searchGroupEntry t i v g = none → GroupRoom (net.brInfo i) t i)
    (hopen : openGroup t i v g = some t') : WithinLimits net t' := by
  rcases (openGroup_cases hopen).2 with ⟨rfl, -⟩ | ⟨hnew, -⟩
  · exact h
  have hfree := hroom hnew
  have hframe := frame_openGroup hopen
  have hothers : ∀ j w, (j, w) ≠ (i, v) → (groupsOf t' j w).length ≤ (groupsOf t j w).length := by
    intro j w hne
    refine (groups_length_le fun g' hg' => mem_groupKeys.mpr ?_).trans_eq (length_map _)
    rwa [← hframe j w g' fun hspot => hne (Prod.ext (spot_inj.mp hspot).1 (spot_inj.mp hspot).2.1)]
  have hself : (groupsOf t' i v).length ≤ (addr v g :: (groupsOf t i v).map (groupKey v)).length := by
    refine groups_length_le fun g' hg' => mem_cons.mpr ?_
    by_cases hg : addr v g' = addr v g
    · exact Or.inl hg
    · rw [hframe i v g' fun hspot => hg (spot_inj.mp hspot).2.2] at hg'
      exact Or.inr (mem_groupKeys.mpr hg')
  rw [length_cons, length_map, Nat.add_comm] at hself
  obtain ⟨hversion, htotal⟩ := counts_within (n := fun i v => (groupsOf t i v).length)
    (m := fun i v => (groupsOf t' i v).length) hothers
    (Or.inr ⟨hself, lt_of_not_reached (hfree.version v), lt_of_not_reached hfree.total⟩) h.version h.total
  exact ⟨hversion, htotal⟩

theorem openClient_shrinks {now timer : UInt32} {e : ClientEntry}
    (h : openClient now pkt v g c timer t = some (e, t')) : Shrinks t t' := by
  obtain ⟨-, ⟨_, _, -, rfl⟩ | ⟨_, _, -, -, -, rfl⟩⟩ := openClient_cases h
  · exact .same
  · exact shrinks_modifyClients

/-- A part that passes the checks has passed the limits. -/
theorem Part.within {makes : Bool} {db' : Db} (hpart : Part dev pkt v c g db makes db')
    (h : WithinLimits db.net db.tables) : WithinLimits db.net db'.tables := by
  have hgroup : ∀ {net : Net} {t : Tables}, Passed dev pkt v c g db net →
      openGroup db.tables pkt.moduleIndex v g = some t → WithinLimits db.net t := fun hpass hopen =>
    openGroup_within h (groupLimitCheck_room hpass.2 nofun) hopen
  cases hpart with
  | refused _ => exact h
  | opened hpass hopen => exact hgroup hpass hopen
  | entered hpass hopen hclient _ =>
    rw [finish_tables]
    exact (hgroup hpass hopen).mono ((openClient_shrinks hclient).trans shrinks_modifyClients).length_le
  | unknown _ => exact h
  | worked _ _ _ =>
    rw [finish_tables]
    exact h.mono shrinks_modifyClients.length_le

theorem Part.shrinks {db' : Db} (h : Part dev pkt v c g db false db') : Shrinks db.tables db'.tables := by
  cases h with
  | refused _ => exact .same
  | unknown _ => exact .same
  | worked _ _ _ =>
    rw [finish_tables]
    exact shrinks_modifyClients

theorem processLeave_shrinks : Shrinks db.tables (processLeave db dev pkt v c g).2.tables :=
  processLeave_holds .same (fun db h => h.trans (shrinks_dropEmptyGroup db)) fun _ _ _ =>
    ⟨shrinks_modifyClients, fun _ => shrinks_modifyClients⟩

/-- A part may change counters; the limits are those from before the report. -/
theorem mldProcess_within {msg : Message} (h : WithinLimits db.net db.tables) :
    WithinLimits db.net (mldProcess db pkt v c msg).tables := by
  refine (mldProcess_holds (P := fun db' => SameLimits db.net db'.net ∧ WithinLimits db.net db'.tables) msg
    ⟨Steady.same.sameLimits, h⟩ ?_ ?_).2
  · rintro dev g db₁ makes db₂ ⟨hsame, h⟩ hpart
    exact ⟨hsame.trans hpart.calm.2.sameLimits, hsame.symm.withinLimits (hpart.within (hsame.withinLimits h))⟩
  · rintro dev g db₁ ⟨hsame, h⟩
    exact ⟨hsame.trans processLeave_calm.2.sameLimits, h.mono processLeave_shrinks.length_le⟩

theorem flushModule_net (v : IpVersion) (db : Db) (i : ℕ) : (flushModule v db i).net = db.net := by
  unfold flushModule
  dsimp only
  rw [deleteGroups_net]

theorem flushBrMdb_net (db : Db) (brIfidx : Option UInt32) (v : IpVersion) :
    (flushBrMdb db brIfidx v).net = db.net := by
  unfold flushBrMdb
  exact List.foldlRecOn (motive := fun db' : Db => db'.net = db.net) _ _ rfl fun db' h i _ =>
    (flushModule_net v db' i).trans h

/-- An event leaves the configuration alone but for counters and the lists of devices, or clears and gives up a
    module. -/
theorem step_net (sysTimerSec : UInt32) (db : Db) (e : Event) :
    (∃ net lan wan, Steady db.net net ∧
        (step sysTimerSec db e).net = { net with lanDevInfo := lan, wanDevInfo := wan }) ∨
      ∃ i, (step sysTimerSec db e).tables = (clearModule i db).tables ∧
        (step sysTimerSec db e).flows = (clearModule i db).flows ∧
        (step sysTimerSec db e).net = db.net.modifyBr i fun b => { b with validBit := false } := by
  cases e with
  | report pkt v c msg => exact Or.inl ⟨_, _, _, mldProcess_calm.2, rfl⟩
  | tick time idle => exact Or.inl ⟨_, _, _, (maintainTimerList_calm sysTimerSec idle db time).2, rfl⟩
  | data i first d => exact Or.inl ⟨_, _, _, forwardData_calm.2, rfl⟩
  | elapse jiffies => exact Or.inl ⟨_, _, _, .same, rfl⟩
  | blackList p ifidx => exact Or.inl ⟨_, _, _, (blackListUpdateFlow_calm p ifidx db).2, rfl⟩
  | lanGone ifidx del =>
    rw [step]
    rcases unregisterLanDev_cases db ifidx del with h | ⟨db', hcalm, -, -, h | h⟩ <;> rw [h]
    · exact Or.inl ⟨_, _, _, .same, rfl⟩
    · exact Or.inl ⟨_, _, _, hcalm.2, rfl⟩
    · exact Or.inl ⟨_, _, _, hcalm.2, rfl⟩
  | wanGone ifidx del =>
    rw [step, unregisterWanDev]
    split <;> exact Or.inl ⟨_, _, _, .same, rfl⟩
  | brGone ifidx del =>
    rw [step]
    rcases unregisterBrDev_cases db ifidx del with h | ⟨i, -, htables, hflows, hnet | hnet⟩
    · rw [h]
      exact Or.inl ⟨_, _, _, .same, rfl⟩
    · exact Or.inl ⟨_, _, _, .same, hnet⟩
    · exact Or.inr ⟨i, htables, hflows, hnet⟩
  | flush brIfidx v => exact Or.inl ⟨_, _, _, .same, flushBrMdb_net db brIfidx v⟩

/-- No event changes the limits of a bridge. -/
theorem step_sameLimits (sysTimerSec : UInt32) (db : Db) (e : Event) :
    SameLimits db.net (step sysTimerSec db e).net := by
  rcases step_net sysTimerSec db e with ⟨net, lan, wan, hsteady, hnet⟩ | ⟨i, -, -, hnet⟩ <;> rw [hnet]
  · exact ⟨hsteady.sameLimits.limits, hsteady.sameLimits.groups⟩
  · constructor <;> intro j <;> simp only [Net.modifyBr] <;> split <;> rfl

theorem step_within (sysTimerSec : UInt32) (e : Event) (hu : Unique db.tables)
    (h : WithinLimits db.net db.tables) : WithinLimits db.net (step sysTimerSec db e).tables := by
  rcases step_walked e hu with ⟨pkt, v, c, msg, rfl⟩ | ⟨G, is, -, -, hwalked⟩
  · exact mldProcess_within h
  · exact h.mono hwalked.shrinks.length_le

/-- From an empty database on, in every run of any events, every module holds at most as many groups of
    each version and of both as its limits say. -/
theorem groups_within_limits (sysTimerSec : UInt32) (net : Net)
    (groupCount clientCount sourceCount flowCount : ℕ) (es : List Event) :
    let t := (run (step sysTimerSec) (Db.init net groupCount clientCount sourceCount flowCount) es).tables
    ∀ i, (∀ v, ((net.brInfo i).limits v).sysMaxGroupSize ≠ 0 →
        (groupsOf t i v).length ≤ ((net.brInfo i).limits v).sysMaxGroupSize.toNat) ∧
      ((net.brInfo i).sysMaxGroupSize ≠ 0 →
        (groupsOf t i .v4).length + (groupsOf t i .v6).length ≤ (net.brInfo i).sysMaxGroupSize.toNat) := by
  have hinit : WithinLimits net (Db.init net groupCount clientCount sourceCount flowCount).tables :=
    ⟨fun _ _ _ => Nat.zero_le _, fun _ _ => Nat.zero_le _⟩
  have hstep : ∀ (db : Db) e,
      Unique db.tables ∧ SameLimits net db.net ∧ WithinLimits net db.tables →
      Unique (step sysTimerSec db e).tables ∧ SameLimits net (step sysTimerSec db e).net ∧
        WithinLimits net (step sysTimerSec db e).tables := by
    rintro db e ⟨hu, hsame, hwithin⟩
    have hafter := step_within sysTimerSec e hu (hsame.withinLimits hwithin)
    exact ⟨step_unique e hu, hsame.trans (step_sameLimits sysTimerSec db e), hsame.symm.withinLimits hafter⟩
  obtain ⟨-, -, hwithin⟩ := run_always hstep es _
    ⟨unique_init net groupCount clientCount sourceCount flowCount, Steady.same.sameLimits, hinit⟩
  exact fun i => ⟨hwithin.version i, hwithin.total i⟩

end Runs

end PhoebusBsp.Igmp

import PhoebusBsp.Igmp.Indices
import PhoebusBsp.Igmp.Lifetime

/-! The statistics of a device or bridge.

        nextValidGroupStatistic_get   one group: its address, its newest client, the source and the
                                      VLANs of a flow to it
        devStatistic_get              all groups, one call after the other: how many, how heavy

    The search keeps its findings in the record of the caller, and clears the client there for every
    group in the range it still looks at, also for groups without a client on the device. -/

namespace PhoebusBsp.Igmp
open Schemes List

/-! ### One group -/

/-- `rt_igmpHook_groupStatistic_t`. -/
structure GroupStatistic where
  groupAddr : Ip
  sourceAddr : Ip
  curClient : Ip
  curClientExistTimesSec : UInt32
  vlanId : UInt16
  svlanId : UInt16
  deriving DecidableEq

/-- The local variables of the search and the record of the caller. -/
structure StatisticScan where
  searchIdx : ℕ
  hitGroupAndDevIdx : Option ℕ
  info : GroupStatistic

/-- One client of a group. -/
def statisticClient (now : UInt32) (counts : ClientEntry → Bool) (e : GroupEntry) (s : StatisticScan)
    (c : ClientEntry) : StatisticScan :=
  if counts c then
    let clientJoinSec := now - c.joinSystemSecTime
    let info := { s.info with groupAddr := e.groupAddr }
    let info := if clientJoinSec < info.curClientExistTimesSec then
        { info with curClient := c.clientAddr, curClientExistTimesSec := clientJoinSec }
      else info
    ⟨e.groupIdx, some e.groupIdx, info⟩
  else s

/-- No client so far. The time is the greatest there is. -/
def GroupStatistic.clearClient (info : GroupStatistic) : GroupStatistic :=
  { info with curClientExistTimesSec := -1, curClient := ⟨0, 0, 0, 0⟩ }

/-- One group, when it is in the range. -/
def statisticGroup (now : UInt32) (counts : ClientEntry → Bool) (searchMin : ℕ) (s : StatisticScan)
    (e : GroupEntry) : StatisticScan :=
  if searchMin ≤ e.groupIdx ∧ e.groupIdx ≤ s.searchIdx then
    e.clientList.foldl (statisticClient now counts e) { s with info := s.info.clearClient }
  else s

/-- The loops over the groups. -/
def scanStatistic (now : UInt32) (net : Net) (t : Tables) (ifidx : UInt32) (v : IpVersion) (getIdx : ℕ)
    (info : GroupStatistic) : StatisticScan :=
  (visitedGroups net t ifidx v).foldl (statisticGroup now (counted net ifidx) getIdx) ⟨t.groupIncIdx, none, info⟩

/-- The first flow to the group. For a device one of the `IGMP_MAX_DEV_NUM` slots has to be its; the
    slots behind the used ones are zero. -/
def statisticFlow (net : Net) (fl : Flows) (ifidx : UInt32) (v : IpVersion) (g : Ip) : Option FlowEntry :=
  let modules := (validModules net).filter fun i =>
    !(brModuleOf net ifidx).isSome || (net.brInfo i).ifindex == ifidx
  (modules.flatMap (flowsOf fl)).find? fun f => f.key.ipVersion = v && f.key.groupAddr == g &&
    ((f.fwd.egressDevInfo ++ List.replicate net.maxDevNum 0).take net.maxDevNum).any fun d =>
      !(devInfoOf net ifidx).isSome || d == ifidx

/-- The source and the VLANs of the flow, zero without one. -/
def GroupStatistic.readFlow (info : GroupStatistic) : Option FlowEntry → GroupStatistic
  | none => { info with vlanId := 0, svlanId := 0, sourceAddr := ⟨0, 0, 0, 0⟩ }
  | some f => { info with
      sourceAddr := f.key.serverAddr
      vlanId := f.key.ingressCvlan.getD 0
      svlanId := f.key.ingressSvlan.getD 0 }

/-- `rtk_igmp_nextValidGroupStatistic_get`: the index that is found (`none`: failure) and the record of
    the caller afterwards. -/
def nextValidGroupStatisticGet (now : UInt32) (net : Net) (t : Tables) (fl : Flows) (ifidx : UInt32)
    (v : IpVersion) (getIdx : ℕ) (info : GroupStatistic) : Option ℕ × GroupStatistic :=
  if !(devInfoOf net ifidx).isSome && !(brModuleOf net ifidx).isSome then (none, info)
  else
    let s := scanStatistic now net t ifidx v getIdx info
    (s.hitGroupAndDevIdx, if s.hitGroupAndDevIdx.isSome then
      s.info.readFlow (statisticFlow net fl ifidx v s.info.groupAddr) else s.info)

/-- The client that is in the record after some clients of a group: the first of those with the least
    time, when one has a time below the one before. -/
def newest (now : UInt32) (counts : ClientEntry → Bool) (l : List ClientEntry) (old : Ip × UInt32) : Ip × UInt32 :=
  l.foldl (fun a c => if counts c ∧ now - c.joinSystemSecTime < a.2 then
    (c.clientAddr, now - c.joinSystemSecTime) else a) old

/-- The record with another client. -/
def GroupStatistic.withClient (info : GroupStatistic) (g : Ip) (a : Ip × UInt32) : GroupStatistic :=
  { info with groupAddr := g, curClient := a.1, curClientExistTimesSec := a.2 }

section Newest

variable {now : UInt32} {counts : ClientEntry → Bool} {l : List ClientEntry} {old : Ip × UInt32}

theorem newest_spec (now : UInt32) (counts : ClientEntry → Bool) (l : List ClientEntry) (old : Ip × UInt32) :
    (newest now counts l old).2 ≤ old.2 ∧
    (∀ c ∈ l, counts c → (newest now counts l old).2 ≤ now - c.joinSystemSecTime) ∧
    (newest now counts l old = old ∨ (newest now counts l old).2 < old.2 ∧ ∃ c ∈ l, counts c ∧
      newest now counts l old = (c.clientAddr, now - c.joinSystemSecTime)) := by
  induction l generalizing old with
  | nil => exact ⟨UInt32.le_refl _, fun _ hc => absurd hc not_mem_nil, Or.inl rfl⟩
  | cons c l ih =>
    have hcons : newest now counts (c :: l) old = newest now counts l (if counts c ∧
        now - c.joinSystemSecTime < old.2 then (c.clientAddr, now - c.joinSystemSecTime) else old) := rfl
    rw [hcons]
    split
    · next hnew =>
      obtain ⟨hle, hleast, hfrom⟩ := ih (c.clientAddr, now - c.joinSystemSecTime)
      have hlt := UInt32.lt_of_le_of_lt hle hnew.2
      refine ⟨UInt32.le_of_lt hlt, fun c' hc' hcounts => ?_, Or.inr ⟨hlt, ?_⟩⟩
      · rcases mem_cons.mp hc' with rfl | hc'
        · exact hle
        · exact hleast c' hc' hcounts
      · rcases hfrom with hold | ⟨-, c', hc', hfrom⟩
        · exact ⟨c, mem_cons_self, hnew.1, hold⟩
        · exact ⟨c', mem_cons_of_mem c hc', hfrom⟩
    · next hold =>
      obtain ⟨hle, hleast, hfrom⟩ := ih old
      refine ⟨hle, fun c' hc' hcounts => ?_, hfrom.imp_right fun ⟨hlt, c', hc', hfrom⟩ =>
        ⟨hlt, c', mem_cons_of_mem c hc', hfrom⟩⟩
      rcases mem_cons.mp hc' with rfl | hc'
      · refine UInt32.le_trans hle (UInt32.not_lt.mp fun hlt => hold ⟨hcounts, hlt⟩)
      · exact hleast c' hc' hcounts

theorem newest_of_none (h : l.any counts = false) : newest now counts l old = old := by
  rcases (newest_spec now counts l old).2.2 with hold | ⟨-, c, hc, hcounts, -⟩
  · exact hold
  · exact absurd hcounts (any_eq_false.mp h c hc)

/-- The clients of one group. -/
theorem foldl_statisticClient (e : GroupEntry) (s : StatisticScan) :
    l.foldl (statisticClient now counts e) s = if l.any counts then ⟨e.groupIdx, some e.groupIdx,
      s.info.withClient e.groupAddr (newest now counts l (s.info.curClient, s.info.curClientExistTimesSec))⟩
    else s := by
  induction l generalizing s with
  | nil => rfl
  | cons c l ih =>
    rw [foldl_cons, ih, any_cons]
    have hcons : newest now counts (c :: l) (s.info.curClient, s.info.curClientExistTimesSec) =
        newest now counts l (if counts c ∧ now - c.joinSystemSecTime < s.info.curClientExistTimesSec then
          (c.clientAddr, now - c.joinSystemSecTime) else (s.info.curClient, s.info.curClientExistTimesSec)) := rfl
    rw [hcons]
    cases hc : counts c with
    | false =>
      have hskip : statisticClient now counts e s c = s := if_neg (by rw [hc]; exact Bool.false_ne_true)
      rw [hskip, Bool.false_or]
      simp
    | true =>
      have htake : statisticClient now counts e s c = ⟨e.groupIdx, some e.groupIdx, s.info.withClient e.groupAddr
          (if now - c.joinSystemSecTime < s.info.curClientExistTimesSec then
            (c.clientAddr, now - c.joinSystemSecTime) else (s.info.curClient, s.info.curClientExistTimesSec))⟩ := by
        unfold statisticClient
        rw [if_pos hc]
        dsimp only
        split <;> rfl
      simp only [htake, Bool.true_or, if_true, true_and]
      cases hl : l.any counts with
      | false =>
        rw [if_neg Bool.false_ne_true, newest_of_none hl]
      | true => rfl

theorem statisticGroup_eq (low : ℕ) (s : StatisticScan) (e : GroupEntry) : statisticGroup now counts low s e =
    if low ≤ e.groupIdx ∧ e.groupIdx ≤ s.searchIdx then
      if e.clientList.any counts then ⟨e.groupIdx, some e.groupIdx, s.info.withClient e.groupAddr
        (newest now counts e.clientList (⟨0, 0, 0, 0⟩, -1))⟩
      else { s with info := s.info.clearClient }
    else s := by
  unfold statisticGroup
  rw [foldl_statisticClient]
  rfl

end Newest

/-! ### All groups -/

/-- `rt_igmpHook_devStatistic_t`. -/
structure DevStatistic where
  activeGroupCnt : UInt32
  curWeight : UInt32
  joinCnt : UInt32
  bandwidthExceedCnt : UInt32
  deriving DecidableEq

/-- The loop of `rtk_igmp_devStatistic_get`. `none`: it goes on after the given number of rounds. -/
def devStatisticLoop (get : ℕ → GroupStatistic → Option ℕ × GroupStatistic) (weight : Ip → UInt32) :
    ℕ → ℕ → GroupStatistic → UInt32 → UInt32 → Option (UInt32 × UInt32)
  | 0, _, _, _, _ => none
  | fuel + 1, getIdx, info, activeCnt, curWeight =>
    match get getIdx info with
    | (some idx, info) =>
      devStatisticLoop get weight fuel (idx + 1) info (activeCnt + 1) (curWeight + weight info.groupAddr)
    | (none, _) => some (activeCnt, curWeight)

/-- The counters of the device, or else of the bridge. -/
def statisticOf (net : Net) (ifidx : UInt32) (v : IpVersion) : Option Statistic :=
  match devInfoOf net ifidx with
  | some dev => some (dev.devStatistic v)
  | none => (brModuleOf net ifidx).map fun i => (net.brInfo i).brStatistic v

/-- `rtk_igmp_devStatistic_get`; `info` is what its local record happens to hold. -/
def devStatisticGet (fuel : ℕ) (now : UInt32) (net : Net) (t : Tables) (fl : Flows) (ifidx : UInt32)
    (v : IpVersion) (info : GroupStatistic) : Option DevStatistic :=
  match statisticOf net ifidx v with
  | none => none
  | some counters =>
    match devStatisticLoop (nextValidGroupStatisticGet now net t fl ifidx v) (checkGroupWeightTbl net ifidx v)
      fuel 0 info 0 0 with
    | none => none
    | some (activeCnt, curWeight) => some ⟨activeCnt, curWeight, counters.joinCnt, counters.weightExceedCnt⟩

/-- Repeated calls, each with the index one above the last answer, give these groups and then fail,
    whatever the record of the caller holds. -/
def Answers (get : ℕ → GroupStatistic → Option ℕ × GroupStatistic) : ℕ → List GroupEntry → Prop
  | getIdx, [] => ∀ info, (get getIdx info).1 = none
  | getIdx, e :: es => (∀ info, (get getIdx info).1 = some e.groupIdx ∧
      (get getIdx info).2.groupAddr = e.groupAddr) ∧ Answers get (e.groupIdx + 1) es

section Calls

variable {now : UInt32} {net : Net} {t : Tables} {fl : Flows} {ifidx : UInt32} {v : IpVersion}

/-- What the search knows of the group found. -/
def StatisticScan.found (s : StatisticScan) : NextGroup :=
  ⟨s.searchIdx, s.hitGroupAndDevIdx.map fun idx => (idx, s.info.groupAddr)⟩

theorem found_statisticGroup {counts : ClientEntry → Bool} {searchMin : ℕ} (s : StatisticScan) (e : GroupEntry) :
    nextGroupStep counts searchMin s.found e = (statisticGroup now counts searchMin s e).found := by
  have hidx : s.found.searchIdx = s.searchIdx := rfl
  rw [nextGroupStep_eq, statisticGroup_eq, hidx]
  split_ifs <;> rfl

variable (now net t fl ifidx v)

theorem scanStatistic_found (getIdx : ℕ) (info : GroupStatistic) :
    (scanStatistic now net t ifidx v getIdx info).found.hit = nextValidGroup net t ifidx v getIdx := by
  have hfold : (visitedGroups net t ifidx v).foldl (nextGroupStep (counted net ifidx) getIdx)
      (StatisticScan.found ⟨t.groupIncIdx, none, info⟩) = (scanStatistic now net t ifidx v getIdx info).found :=
    foldl_hom StatisticScan.found found_statisticGroup
  rw [← hfold, nextValidGroup_fold]
  rfl

/-- What is read from the flows comes on top of what the search has found. -/
theorem nextValidGroupStatisticGet_scan (hreg : (devInfoOf net ifidx).isSome ∨ (brModuleOf net ifidx).isSome)
    (getIdx : ℕ) (info : GroupStatistic) :
    let s := scanStatistic now net t ifidx v getIdx info
    let r := nextValidGroupStatisticGet now net t fl ifidx v getIdx info
    r.1 = s.hitGroupAndDevIdx ∧ r.2.groupAddr = s.info.groupAddr ∧ r.2.curClient = s.info.curClient ∧
      r.2.curClientExistTimesSec = s.info.curClientExistTimesSec := by
  have hneither : ¬ (!(devInfoOf net ifidx).isSome && !(brModuleOf net ifidx).isSome) = true := by
    rcases hreg with h | h <;> simp [h]
  have hflow : ∀ (info : GroupStatistic) (f : Option FlowEntry), (info.readFlow f).groupAddr = info.groupAddr ∧
      (info.readFlow f).curClient = info.curClient ∧
      (info.readFlow f).curClientExistTimesSec = info.curClientExistTimesSec := by
    intro info f
    cases f <;> exact ⟨rfl, rfl, rfl⟩
  dsimp only
  unfold nextValidGroupStatisticGet
  rw [if_neg hneither]
  dsimp only
  refine ⟨rfl, ?_⟩
  split
  · exact hflow _ _
  · exact ⟨rfl, rfl, rfl⟩

/-- The call finds the group that the weights are summed by. -/
theorem nextValidGroupStatisticGet_next (getIdx : ℕ) (info : GroupStatistic) :
    (nextValidGroupStatisticGet now net t fl ifidx v getIdx info).1.map (fun idx =>
      (idx, (nextValidGroupStatisticGet now net t fl ifidx v getIdx info).2.groupAddr)) =
    nextValidGroup net t ifidx v getIdx := by
  by_cases hreg : (devInfoOf net ifidx).isSome ∨ (brModuleOf net ifidx).isSome
  · obtain ⟨hidx, haddr, -, -⟩ :=
      nextValidGroupStatisticGet_scan now net t fl ifidx v hreg getIdx info
    rw [hidx, haddr, ← scanStatistic_found now net t ifidx v getIdx info]
    rfl
  · obtain ⟨hdev, hbr⟩ := not_or.mp hreg
    have hneither : (!(devInfoOf net ifidx).isSome && !(brModuleOf net ifidx).isSome) = true := by
      simp [Bool.eq_false_iff.mpr hdev, Bool.eq_false_iff.mpr hbr]
    unfold nextValidGroupStatisticGet nextValidGroup
    dsimp only
    rw [if_pos hneither, if_pos hneither, Option.map_none]

variable {now net t fl ifidx v}

/-- The answers to repeated calls are those of the search by index. -/
theorem answers_of_walk {groups : List GroupEntry} {getIdx : ℕ}
    (hwalk : NextIndex.Walk GroupEntry.groupIdx (nextListed net t ifidx v) getIdx groups) :
    Answers (nextValidGroupStatisticGet now net t fl ifidx v) getIdx groups := by
  induction groups generalizing getIdx with
  | nil =>
    intro info
    have hnone : nextListed net t ifidx v getIdx = none := hwalk
    have hcall := nextValidGroupStatisticGet_next now net t fl ifidx v getIdx info
    rw [nextValidGroup_eq, hnone, Option.map_none] at hcall
    exact Option.map_eq_none_iff.mp hcall
  | cons e groups ih =>
    obtain ⟨hfirst, hrest⟩ := hwalk
    refine ⟨fun info => ?_, ih hrest⟩
    have hcall := nextValidGroupStatisticGet_next now net t fl ifidx v getIdx info
    rw [nextValidGroup_eq, hfirst, Option.map_some] at hcall
    obtain ⟨idx, hidx, hpair⟩ := Option.map_eq_some_iff.mp hcall
    obtain ⟨rfl, haddr⟩ := Prod.mk.inj hpair
    exact ⟨hidx, haddr⟩

end Calls

/-- The loop ends when there are no answers left, and counts each once. -/
theorem devStatisticLoop_answers {get : ℕ → GroupStatistic → Option ℕ × GroupStatistic} {weight : Ip → UInt32}
    {groups : List GroupEntry} {getIdx fuel : ℕ} (h : Answers get getIdx groups) (hfuel : groups.length < fuel)
    (info : GroupStatistic) (activeCnt curWeight : UInt32) :
    devStatisticLoop get weight fuel getIdx info activeCnt curWeight = some
      (activeCnt + UInt32.ofNat groups.length, curWeight + (groups.map fun e => weight e.groupAddr).sum) := by
  induction groups generalizing getIdx fuel info activeCnt curWeight with
  | nil =>
    obtain ⟨fuel, rfl⟩ := Nat.exists_eq_succ_of_ne_zero (Nat.ne_zero_of_lt hfuel)
    have hcall := h info
    rw [devStatisticLoop]
    rcases hget : get getIdx info with ⟨o, info'⟩
    rw [hget] at hcall
    obtain rfl : o = none := hcall
    simp
  | cons e groups ih =>
    obtain ⟨fuel, rfl⟩ := Nat.exists_eq_succ_of_ne_zero (Nat.ne_zero_of_lt hfuel)
    obtain ⟨hcall, hrest⟩ := h
    specialize hcall info
    rw [devStatisticLoop]
    rcases hget : get getIdx info with ⟨o, info'⟩
    rw [hget] at hcall
    obtain ⟨rfl, haddr⟩ : o = some e.groupIdx ∧ info'.groupAddr = e.groupAddr := hcall
    have hloop := ih hrest (Nat.lt_of_succ_lt_succ hfuel) info' (activeCnt + 1) (curWeight + weight e.groupAddr)
    have hcount : activeCnt + 1 + UInt32.ofNat groups.length = activeCnt + UInt32.ofNat (groups.length + 1) := by
      rw [UInt32.add_assoc, UInt32.add_comm 1, UInt32.ofNat_add]
      rfl
    dsimp only
    rw [haddr, hloop, hcount, map_cons, sum_cons, UInt32.add_assoc, length_cons]

/-- An entry with the index of the group was in the tables. -/
def Existed (t : Tables) (v : IpVersion) (e : GroupEntry) : Prop :=
  ∃ i h, ∃ e' ∈ t.hashTable i v h, e'.groupIdx = e.groupIdx

/-- In every database that a run reaches, the calls for a device or bridge list its groups, each once
    and the older ones first, and then fail; the two loops over them end and sum over these groups. -/
theorem group_enumeration_complete (sysTimerSec : UInt32) (net : Net) (G C S F : ℕ) (es : List Event)
    (ifidx : UInt32) (v : IpVersion) :
    let db := run (step sysTimerSec) (Db.init net G C S F) es
    ∃ groups : List GroupEntry,
      (∀ e, e ∈ groups ↔ Listed db.net db.tables ifidx v e) ∧
      groups.Pairwise (fun e e' => e.groupIdx < e'.groupIdx) ∧
      (∀ past rest, es = past ++ rest → ∀ e ∈ groups, ∀ e' ∈ groups,
        Existed (run (step sysTimerSec) (Db.init net G C S F) past).tables v e →
        ¬ Existed (run (step sysTimerSec) (Db.init net G C S F) past).tables v e' → e.groupIdx < e'.groupIdx) ∧
      Answers (nextValidGroupStatisticGet db.clock.now db.net db.tables db.flows ifidx v) 0 groups ∧
      (∀ fuel, groups.length ≤ fuel → totalWeight db.net db.tables ifidx v fuel 0 0 =
        (groups.map fun e => checkGroupWeightTbl db.net ifidx v e.groupAddr).sum) ∧
      groups.length ≤ db.tables.groupIncIdx + 1 ∧
      ∀ counters, statisticOf db.net ifidx v = some counters → ∀ fuel info, groups.length < fuel →
        devStatisticGet fuel db.clock.now db.net db.tables db.flows ifidx v info =
          some ⟨UInt32.ofNat groups.length, (groups.map fun e => checkGroupWeightTbl db.net ifidx v e.groupAddr).sum,
            counters.joinCnt, counters.weightExceedCnt⟩ := by
  intro db
  obtain ⟨-, hidx⟩ := run_indexed sysTimerSec net G C S F es
  obtain ⟨groups, hwalk, hsorted, hlisted, hlength⟩ := exists_listed db.net ifidx v hidx
  have hanswers : Answers (nextValidGroupStatisticGet db.clock.now db.net db.tables db.flows ifidx v) 0 groups :=
    answers_of_walk hwalk
  refine ⟨groups, hlisted, hsorted, ?_, hanswers, fun fuel hfuel => ?_, hlength, ?_⟩
  · rintro past rest rfl e he e' he' ⟨i, h, old, hold, hsame⟩ hnew
    obtain ⟨hu', hidx'⟩ := run_indexed sysTimerSec net G C S F past
    have hbefore := hidx'.bounded i v h old hold
    have hlater := run_later sysTimerSec _ rest hu'
    have hjoin : run (step sysTimerSec) (run (step sysTimerSec) (Db.init net G C S F) past) rest = db :=
      (foldl_append ..).symm
    rw [hjoin] at hlater
    obtain ⟨j, -, hmem, -⟩ := (hlisted e').mp he'
    obtain ⟨b, -, hmem⟩ := mem_flatMap.mp hmem
    rcases hlater.origin j v b e' hmem with ⟨old', hold', hsame', -⟩ | hafter
    · exact absurd ⟨j, b, old', hold', hsame'⟩ hnew
    · omega
  · rw [totalWeight_walk hwalk hfuel, UInt32.zero_add]
  · intro counters hcounters fuel info hfuel
    unfold devStatisticGet
    rw [hcounters]
    dsimp only
    rw [devStatisticLoop_answers hanswers hfuel]
    simp

/-! ### The newest client -/

/-- The search has cleared the client, or it has the newest of the group it has found. `seen` is what it
    has visited, `post` what came behind the group. -/
def Holds (now : UInt32) (counts : ClientEntry → Bool) (low : ℕ) (seen : List GroupEntry) (s : StatisticScan) :
    Prop :=
  ∀ idx, s.hitGroupAndDevIdx = some idx → s.searchIdx = idx ∧ ∃ pre e post, seen = pre ++ e :: post ∧
    e.groupIdx = idx ∧ e.clientList.any counts ∧ s.info.groupAddr = e.groupAddr ∧
    (s.info.curClient, s.info.curClientExistTimesSec) =
      if ∃ e' ∈ post, low ≤ e'.groupIdx ∧ e'.groupIdx ≤ idx then (⟨0, 0, 0, 0⟩, -1)
      else newest now counts e.clientList (⟨0, 0, 0, 0⟩, -1)

section Holds

variable {now : UInt32} {counts : ClientEntry → Bool} {low : ℕ} {seen : List GroupEntry} {s : StatisticScan}

theorem holds_statisticGroup (h : Holds now counts low seen s) (e : GroupEntry) :
    Holds now counts low (seen ++ [e]) (statisticGroup now counts low s e) := by
  rw [statisticGroup_eq]
  intro idx hidx
  by_cases hrange : low ≤ e.groupIdx ∧ e.groupIdx ≤ s.searchIdx
  · rw [if_pos hrange] at hidx ⊢
    by_cases hany : e.clientList.any counts = true
    · rw [if_pos hany] at hidx ⊢
      obtain rfl := Option.some.inj hidx
      refine ⟨rfl, seen, e, [], rfl, rfl, hany, rfl, ?_⟩
      rw [if_neg (by simp)]
      rfl
    · rw [if_neg hany] at hidx ⊢
      obtain ⟨hsearch, pre, e₀, post, rfl, hidx₀, hany₀, haddr, -⟩ := h idx hidx
      refine ⟨hsearch, pre, e₀, post ++ [e], by simp, hidx₀, hany₀, haddr, ?_⟩
      rw [if_pos ⟨e, mem_append_right post (mem_singleton_self e), hrange.1, hsearch ▸ hrange.2⟩]
      rfl
  · rw [if_neg hrange] at hidx ⊢
    obtain ⟨hsearch, pre, e₀, post, rfl, hidx₀, hany₀, haddr, hclient⟩ := h idx hidx
    refine ⟨hsearch, pre, e₀, post ++ [e], by simp, hidx₀, hany₀, haddr, ?_⟩
    have hsame : (∃ e' ∈ post ++ [e], low ≤ e'.groupIdx ∧ e'.groupIdx ≤ idx) ↔
        ∃ e' ∈ post, low ≤ e'.groupIdx ∧ e'.groupIdx ≤ idx := by
      constructor
      · rintro ⟨e', he', hle⟩
        rcases mem_append.mp he' with he' | he'
        · exact ⟨e', he', hle⟩
        · obtain rfl := mem_singleton.mp he'
          exact absurd (hsearch ▸ hle) hrange
      · rintro ⟨e', he', hle⟩
        exact ⟨e', mem_append_left _ he', hle⟩
    rw [hclient]
    simp only [hsame]

theorem holds_scanStatistic {net : Net} {t : Tables} {ifidx : UInt32} {v : IpVersion} (info : GroupStatistic) :
    Holds now (counted net ifidx) low (visitedGroups net t ifidx v)
      (scanStatistic now net t ifidx v low info) := by
  unfold scanStatistic
  generalize visitedGroups net t ifidx v = l
  induction l using List.reverseRecOn with
  | nil => exact fun idx hidx => nomatch hidx
  | append_singleton l e ih =>
    rw [foldl_append, foldl_cons, foldl_nil]
    exact holds_statisticGroup ih e

end Holds

/-- The record names a client of the group on the device, and none of those has joined later. -/
def NewestReported (now : UInt32) (net : Net) (t : Tables) (ifidx : UInt32) (v : IpVersion) (idx : ℕ)
    (info : GroupStatistic) : Prop :=
  ∃ e, Listed net t ifidx v e ∧ e.groupIdx = idx ∧ e.groupAddr = info.groupAddr ∧
    ∃ c ∈ e.clientList, c.inIfidx = ifidx ∧ info.curClient = c.clientAddr ∧
      info.curClientExistTimesSec = now - c.joinSystemSecTime ∧
      ∀ c' ∈ e.clientList, c'.inIfidx = ifidx → now - c.joinSystemSecTime ≤ now - c'.joinSystemSecTime

/-- No group behind the next one in the order of the chains has an index between the bound and its, and a
    client of it on the device has a time below the greatest one. -/
def Uncleared (now : UInt32) (net : Net) (t : Tables) (ifidx : UInt32) (v : IpVersion) (getIdx : ℕ) : Prop :=
  ∃ pre e post, visitedGroups net t ifidx v = pre ++ e :: post ∧
    NextIndex.IsNext GroupEntry.groupIdx (Listed net t ifidx v) getIdx (some e) ∧
    (∀ e' ∈ post, getIdx ≤ e'.groupIdx → e.groupIdx < e'.groupIdx) ∧
    ∃ c ∈ e.clientList, c.inIfidx = ifidx ∧ now - c.joinSystemSecTime ≠ -1

/-- All clients of the next group on the device have the greatest time, and one has no address. -/
def Nameless (now : UInt32) (net : Net) (t : Tables) (ifidx : UInt32) (v : IpVersion) (getIdx : ℕ) : Prop :=
  ∃ e, NextIndex.IsNext GroupEntry.groupIdx (Listed net t ifidx v) getIdx (some e) ∧
    (∃ c ∈ e.clientList, c.inIfidx = ifidx ∧ c.clientAddr = ⟨0, 0, 0, 0⟩) ∧
    ∀ c ∈ e.clientList, c.inIfidx = ifidx → now - c.joinSystemSecTime = -1

section Device

variable {now : UInt32} {net : Net} {t : Tables} {fl : Flows} {ifidx : UInt32} {v : IpVersion} {getIdx idx : ℕ}
  {info info' : GroupStatistic}

theorem counted_device (hdev : (devInfoOf net ifidx).isSome) (hbr : brModuleOf net ifidx = none) {c : ClientEntry} :
    counted net ifidx c = true ↔ c.inIfidx = ifidx := by
  simp [counted, hdev, hbr]

theorem le_neg_one (x : UInt32) : x ≤ -1 := by
  rw [UInt32.le_iff_toNat_le]
  have := x.toNat_lt
  have htop : (-1 : UInt32).toNat = 2 ^ 32 - 1 := by decide
  omega

/-- The newest client on the device, when its time is not the greatest. -/
theorem newest_on_device (hdev : (devInfoOf net ifidx).isSome) (hbr : brModuleOf net ifidx = none)
    {l : List ClientEntry} (hl : ∃ c ∈ l, c.inIfidx = ifidx ∧ now - c.joinSystemSecTime ≠ -1) :
    ∃ c ∈ l, c.inIfidx = ifidx ∧ newest now (counted net ifidx) l (⟨0, 0, 0, 0⟩, -1) =
      (c.clientAddr, now - c.joinSystemSecTime) ∧
      ∀ c' ∈ l, c'.inIfidx = ifidx → now - c.joinSystemSecTime ≤ now - c'.joinSystemSecTime := by
  obtain ⟨c₀, hc₀, hon₀, hne⟩ := hl
  obtain ⟨-, hleast, hfrom⟩ := newest_spec now (counted net ifidx) l (⟨0, 0, 0, 0⟩, -1)
  have hbelow := hleast c₀ hc₀ ((counted_device hdev hbr).mpr hon₀)
  rcases hfrom with hold | ⟨-, c, hc, hcounts, hfrom⟩
  · rw [hold] at hbelow
    exact absurd (UInt32.le_antisymm (le_neg_one _) hbelow) hne
  · refine ⟨c, hc, (counted_device hdev hbr).mp hcounts, hfrom, fun c' hc' hon' => ?_⟩
    have := hleast c' hc' ((counted_device hdev hbr).mpr hon')
    rwa [hfrom] at this

/-- Clients with the greatest time are passed over. -/
theorem newest_of_greatest (hdev : (devInfoOf net ifidx).isSome) (hbr : brModuleOf net ifidx = none)
    {l : List ClientEntry} (hl : ∀ c ∈ l, c.inIfidx = ifidx → now - c.joinSystemSecTime = -1) :
    newest now (counted net ifidx) l (⟨0, 0, 0, 0⟩, -1) = (⟨0, 0, 0, 0⟩, -1) := by
  rcases (newest_spec now (counted net ifidx) l (⟨0, 0, 0, 0⟩, -1)).2.2 with hold | ⟨hlt, c, hc, hcounts, hfrom⟩
  · exact hold
  · rw [hfrom, hl c hc ((counted_device hdev hbr).mp hcounts)] at hlt
    exact absurd hlt (UInt32.lt_irrefl _)

/-- A successful call has found the next group, and holds its newest client unless it was cleared. -/
theorem call_found (hidx : Indexed t) (hreg : (devInfoOf net ifidx).isSome ∨ (brModuleOf net ifidx).isSome)
    (hcall : nextValidGroupStatisticGet now net t fl ifidx v getIdx info = (some idx, info')) :
    ∃ pre e post, visitedGroups net t ifidx v = pre ++ e :: post ∧ e.groupIdx = idx ∧
      NextIndex.IsNext GroupEntry.groupIdx (Listed net t ifidx v) getIdx (some e) ∧
      info'.groupAddr = e.groupAddr ∧ (info'.curClient, info'.curClientExistTimesSec) =
        if ∃ e' ∈ post, getIdx ≤ e'.groupIdx ∧ e'.groupIdx ≤ idx then (⟨0, 0, 0, 0⟩, -1)
        else newest now (counted net ifidx) e.clientList (⟨0, 0, 0, 0⟩, -1) := by
  obtain ⟨hhit, haddr, hclient, htime⟩ := nextValidGroupStatisticGet_scan now net t fl ifidx v hreg getIdx info
  have hnext := nextValidGroupStatisticGet_next now net t fl ifidx v getIdx info
  rw [hcall] at hhit haddr hclient htime hnext
  rw [nextValidGroup_eq] at hnext
  obtain ⟨-, pre, e, post, hsplit, rfl, hany, hgroup, hread⟩ := holds_scanStatistic info idx hhit.symm
  obtain ⟨e₀, he₀, hpair⟩ := Option.map_eq_some_iff.mp hnext.symm
  have hleast := nextListed_isNext hidx net ifidx v getIdx
  rw [he₀] at hleast
  have hlisted : Listed net t ifidx v e := listed_iff.mpr ⟨by rw [hsplit]; simp, hany⟩
  obtain rfl : e₀ = e := hidx.listed_inj hleast.1 hlisted (Prod.mk.inj hpair).1
  refine ⟨pre, e₀, post, hsplit, rfl, hleast, haddr.trans hgroup, ?_⟩
  rw [← hread]
  exact Prod.ext hclient htime

end Device

/-- The client that a successful call for a device reports is the newest one of the group on the device
    exactly when no group that is visited later clears it, or the cleared record happens to be right. -/
theorem newest_client_reported_iff (now : UInt32) (net : Net) (t : Tables) (fl : Flows) (ifidx : UInt32)
    (v : IpVersion) (getIdx idx : ℕ) (info info' : GroupStatistic) (hidx : Indexed t)
    (hdev : (devInfoOf net ifidx).isSome) (hbr : brModuleOf net ifidx = none)
    (hcall : nextValidGroupStatisticGet now net t fl ifidx v getIdx info = (some idx, info')) :
    NewestReported now net t ifidx v idx info' ↔
      Uncleared now net t ifidx v getIdx ∨ Nameless now net t ifidx v getIdx := by
  obtain ⟨pre, e, post, hsplit, rfl, hnext, haddr, hread⟩ := call_found hidx (Or.inl hdev) hcall
  have hsame : ∀ e', NextIndex.IsNext GroupEntry.groupIdx (Listed net t ifidx v) getIdx (some e') → e' = e :=
    fun e' he' => Option.some.inj (he'.unique (fun _ _ => hidx.listed_inj) hnext)
  -- the property, read of the one group with the index
  have hprop : NewestReported now net t ifidx v e.groupIdx info' ↔ ∃ c ∈ e.clientList, c.inIfidx = ifidx ∧
      (info'.curClient, info'.curClientExistTimesSec) = (c.clientAddr, now - c.joinSystemSecTime) ∧
      ∀ c' ∈ e.clientList, c'.inIfidx = ifidx → now - c.joinSystemSecTime ≤ now - c'.joinSystemSecTime := by
    constructor
    · rintro ⟨e', he', hidx', -, c, hc, hon, hclient, htime, hleast⟩
      obtain rfl := hidx.listed_inj he' hnext.1 hidx'
      exact ⟨c, hc, hon, Prod.ext hclient htime, hleast⟩
    · rintro ⟨c, hc, hon, hclient, hleast⟩
      obtain ⟨hclient, htime⟩ := Prod.mk.inj hclient
      exact ⟨e, hnext.1, rfl, haddr.symm, c, hc, hon, hclient, htime, hleast⟩
  have huncleared : Uncleared now net t ifidx v getIdx ↔
      (¬ ∃ e' ∈ post, getIdx ≤ e'.groupIdx ∧ e'.groupIdx ≤ e.groupIdx) ∧
        ∃ c ∈ e.clientList, c.inIfidx = ifidx ∧ now - c.joinSystemSecTime ≠ -1 := by
    constructor
    · rintro ⟨pre', e', post', hsplit', hnext', hpost, hc⟩
      obtain rfl := hsame e' hnext'
      have hnodup : (pre ++ e' :: post).Nodup := hsplit ▸ hidx.nodup_visited
      obtain ⟨hpre, hrest⟩ := nodup_middle.mp hnodup |> nodup_cons.mp
      rw [mem_append, not_or] at hpre
      have hsplits := hsplit.symm.trans hsplit'
      obtain ⟨-, -, rfl⟩ := (append_cons_inj_of_notMem hpre.1 hpre.2).mp hsplits
      refine ⟨?_, hc⟩
      rintro ⟨e'', he'', hlow, hhigh⟩
      exact absurd (hpost e'' he'' hlow) (Nat.not_lt.mpr hhigh)
    · rintro ⟨hpost, hc⟩
      refine ⟨pre, e, post, hsplit, hnext, fun e' he' hlow => ?_, hc⟩
      exact Nat.not_le.mp fun hhigh => hpost ⟨e', he', hlow, hhigh⟩
  have hnameless : Nameless now net t ifidx v getIdx ↔
      (∃ c ∈ e.clientList, c.inIfidx = ifidx ∧ c.clientAddr = ⟨0, 0, 0, 0⟩) ∧
        ∀ c ∈ e.clientList, c.inIfidx = ifidx → now - c.joinSystemSecTime = -1 := by
    constructor
    · rintro ⟨e', hnext', h⟩
      obtain rfl := hsame e' hnext'
      exact h
    · exact fun h => ⟨e, hnext, h⟩
  rw [hprop, huncleared, hnameless]
  by_cases hkept : (¬ ∃ e' ∈ post, getIdx ≤ e'.groupIdx ∧ e'.groupIdx ≤ e.groupIdx) ∧
      ∃ c ∈ e.clientList, c.inIfidx = ifidx ∧ now - c.joinSystemSecTime ≠ -1
  · rw [if_neg hkept.1] at hread
    exact iff_of_true (hread ▸ newest_on_device hdev hbr hkept.2) (Or.inl hkept)
  · have hnull : (info'.curClient, info'.curClientExistTimesSec) = (⟨0, 0, 0, 0⟩, -1) := by
      rw [hread]
      split
      · rfl
      · next hpost =>
        refine newest_of_greatest hdev hbr fun c hc hon => ?_
        exact not_not.mp fun hne => hkept ⟨hpost, c, hc, hon, hne⟩
    rw [hnull, or_iff_right hkept]
    constructor
    · rintro ⟨c, hc, hon, hclient, hleast⟩
      obtain ⟨haddr, htime⟩ := Prod.mk.inj hclient
      refine ⟨⟨c, hc, hon, haddr.symm⟩, fun c' hc' hon' => ?_⟩
      exact UInt32.le_antisymm (le_neg_one _) (htime ▸ hleast c' hc' hon')
    · rintro ⟨⟨c, hc, hon, haddr⟩, htimes⟩
      refine ⟨c, hc, hon, by rw [haddr, htimes c hc hon], fun c' hc' hon' => ?_⟩
      rw [htimes c hc hon, htimes c' hc' hon']
      exact UInt32.le_refl _

/-- A host joins a group on port 5, then another host the given group on port 6. -/
def twoMembers (g : Ip) : Db :=
  run (step 10) (Db.init twoPorts 4 4 8 4) [.report samplePkt .v4 (host 9) (.join false (sampleRec []).groupAddr),
    .report { samplePkt with devIfindex := 6 } .v4 (host 8) (.join false g)]

/-- The only member of port 6 is reported. -/
theorem newest_client_reported_alone :
    let db := twoMembers ⟨0xef010102, 0, 0, 0⟩
    let start : GroupStatistic := ⟨⟨0, 0, 0, 0⟩, ⟨0, 0, 0, 0⟩, ⟨0, 0, 0, 0⟩, 0, 0, 0⟩
    let info : GroupStatistic := ⟨⟨0xef010102, 0, 0, 0⟩, ⟨0, 0, 0, 0⟩, host 8, 0, 0, 0⟩
    Indexed db.tables ∧ nextValidGroupStatisticGet 0 db.net db.tables db.flows 6 .v4 0 start = (some 3, info) ∧
      NewestReported 0 db.net db.tables 6 .v4 3 info := by
  intro db start info
  have hidx : Indexed db.tables := (run_indexed 10 twoPorts 4 4 8 4 _).2
  have hcall : nextValidGroupStatisticGet 0 db.net db.tables db.flows 6 .v4 0 start = (some 3, info) := by
    decide +kernel
  -- the group of port 6 is the last one
  have hlast : ∃ e ∈ (visitedGroups db.net db.tables 6 .v4).drop 1,
      visitedGroups db.net db.tables 6 .v4 = (visitedGroups db.net db.tables 6 .v4).take 1 ++ e :: [] ∧
      e.clientList.any (counted db.net 6) ∧
      (∀ e' ∈ visitedGroups db.net db.tables 6 .v4, e'.clientList.any (counted db.net 6) →
        e.groupIdx ≤ e'.groupIdx) ∧
      ∃ c ∈ e.clientList, c.inIfidx = 6 ∧ 0 - c.joinSystemSecTime ≠ -1 := by
    decide +kernel
  obtain ⟨e, he, hsplit, hany, hleast, hc⟩ := hlast
  refine ⟨hidx, hcall, (newest_client_reported_iff 0 db.net db.tables db.flows 6 .v4 0 3 start info hidx
    (by decide +kernel) (by decide +kernel) hcall).mpr (Or.inl ⟨_, e, [], hsplit, ?_, nofun, hc⟩)⟩
  refine ⟨listed_iff.mpr ⟨mem_of_mem_drop he, hany⟩, Nat.zero_le _, fun e' he' _ => ?_⟩
  obtain ⟨hmem, hcounted⟩ := listed_iff.mp he'
  exact hleast e' hmem hcounted

/-- A group of another port that is visited later clears the client. -/
theorem newest_client_cleared :
    let db := twoMembers ⟨0xef010100, 0, 0, 0⟩
    let start : GroupStatistic := ⟨⟨0, 0, 0, 0⟩, ⟨0, 0, 0, 0⟩, ⟨0, 0, 0, 0⟩, 0, 0, 0⟩
    let info : GroupStatistic := ⟨⟨0xef010100, 0, 0, 0⟩, ⟨0, 0, 0, 0⟩, ⟨0, 0, 0, 0⟩, -1, 0, 0⟩
    nextValidGroupStatisticGet 0 db.net db.tables db.flows 6 .v4 0 start = (some 3, info) ∧
      ¬ NewestReported 0 db.net db.tables 6 .v4 3 info := by
  intro db start info
  refine ⟨by decide +kernel, ?_⟩
  have haddr : ∀ e ∈ visitedGroups db.net db.tables 6 .v4, ∀ c ∈ e.clientList, ⟨0, 0, 0, 0⟩ ≠ c.clientAddr := by
    decide +kernel
  rintro ⟨e, he, -, -, c, hc, -, hclient, -⟩
  exact haddr e (listed_iff.mp he).1 c hc hclient

end PhoebusBsp.Igmp

import PhoebusBsp.Igmp.Part
import PhoebusBsp.Igmp.Sweep

/-! What the walks leave of the clients of the modules they visit.

        sweep             those that still want something, each with the sources it keeps
        black list        all but the first of each group that is hit
        device removed    those behind other devices
        bridge flushed    none -/

namespace PhoebusBsp.Igmp
open Schemes List

/-- What the sweep makes of a client. -/
def ClientEntry.ageOpt (now : UInt32) (e : ClientEntry) : Option ClientEntry :=
  if getClientFwdIfIdx now (e.aged now) = failIdx then none else some (e.aged now)

theorem clientKey_ageOpt {v : IpVersion} (now : UInt32) (e e' : ClientEntry)
    (h : e.ageOpt now = some e') : clientKey v e' = clientKey v e := by
  unfold ClientEntry.ageOpt at h
  split at h
  · cases h
  · obtain rfl := Option.some.inj h
    rfl

/-! ### One group -/

section Group

variable {now sysTimerSec : UInt32} {t : Tables} {i : ℕ} {v : IpVersion} {g : Ip} {e : ClientEntry}

theorem frame_ageClient : Frame (spot i v g) t (ageClient now t i v g e) := by
  unfold ageClient
  have hpool : ∀ pool calls, Frame (spot i v g) t (t.withSources pool calls) := fun _ _ => .of_eq rfl
  have hstore : ∀ pool calls, Frame (spot i v g) t
      ((t.withSources pool calls).storeClient i v g (e.aged now)) := fun pool calls =>
    (hpool pool calls).trans frame_modifyClients
  simp only
  split
  · exact (hstore _ _).trans frame_deleteClientEntry
  · exact hstore _ _

theorem searchGroupEntry_ageClient :
    searchGroupEntry (ageClient now t i v g e) i v g = (searchGroupEntry t i v g).map
      (GroupEntry.withClients fun l => Chain.turn (clientKey v) (ClientEntry.ageOpt now) l e) := by
  have hstore : ∀ pool calls, searchGroupEntry ((t.withSources pool calls).storeClient i v g (e.aged now)) i v g =
      (searchGroupEntry t i v g).map (GroupEntry.withClients
        (Chain.update (clientKey v) (clientKey v e) fun _ => e.aged now)) :=
    fun pool calls => searchGroupEntry_modifyClients (t := t.withSources pool calls)
  unfold ageClient Chain.turn ClientEntry.ageOpt
  simp only
  split
  · rw [deleteClientEntry, searchGroupEntry_modifyClients]
    refine (congrArg (Option.map _) (hstore _ _)).trans ?_
    rw [Option.map_map]
    refine congrArg (Option.map · _) (funext fun ge => ?_)
    have hsweep := Chain.sweep_update (l := ge.clientList) (k := clientKey v e) (f := fun _ => e.aged now)
      fun _ _ => (rfl : clientKey v (e.aged now) = clientKey v e)
    exact congrArg (fun l => { ge with clientList := l }) hsweep
  · exact hstore _ _

/-- Computing flows again changes neither the tables nor the clock. -/
theorem checkClientEntryTimer_db (sysTimerSec : UInt32) (i : ℕ) (v : IpVersion) (g : Ip) (db : Db)
    (e : ClientEntry) :
    (checkClientEntryTimer sysTimerSec i v g db e).tables = ageClient db.clock.now db.tables i v g e ∧
      (checkClientEntryTimer sysTimerSec i v g db e).clock = db.clock := by
  unfold checkClientEntryTimer
  simp only
  split <;> exact ⟨rfl, rfl⟩

/-- The loop over the clients of a group. -/
theorem checkClients (es : List ClientEntry) (db : Db) :
    let db' := es.foldl (checkClientEntryTimer sysTimerSec i v g) db
    db'.clock = db.clock ∧ Frame (spot i v g) db.tables db'.tables ∧
      searchGroupEntry db'.tables i v g = (searchGroupEntry db.tables i v g).map
        (GroupEntry.withClients fun l =>
          es.foldl (Chain.turn (clientKey v) (ClientEntry.ageOpt db.clock.now)) l) := by
  induction es generalizing db with
  | nil => exact ⟨rfl, .of_eq rfl, Option.map_id'.symm⟩
  | cons e es ih =>
    obtain ⟨htables, hclock⟩ := checkClientEntryTimer_db sysTimerSec i v g db e
    obtain ⟨hclock', hframe, hgroup⟩ := ih (checkClientEntryTimer sysTimerSec i v g db e)
    rw [hclock] at hclock' hgroup
    rw [htables] at hframe hgroup
    refine ⟨hclock', frame_ageClient.trans hframe, ?_⟩
    rw [foldl_cons, hgroup, searchGroupEntry_ageClient, Option.map_map]
    rfl

end Group

/-! ### All groups -/

section Groups

variable {now sysTimerSec : UInt32} {i : ℕ} {v : IpVersion} {idle : FlowKey → Bool}

theorem dropEmptyGroup_clock (db : Db) (i : ℕ) (v : IpVersion) (g : Ip) :
    (dropEmptyGroup db i v g).clock = db.clock := by
  rcases dropEmptyGroup_cases db i v g with h | ⟨ge, -, -, h⟩ <;> rw [h]

/-- What the sweep makes of a group. -/
def GroupEntry.ageOpt (now : UInt32) (e : GroupEntry) : Option GroupEntry :=
  if e.clientList.filterMap (ClientEntry.ageOpt now) = [] then none
  else some (e.withClients (List.filterMap (ClientEntry.ageOpt now)))

theorem keepsUnique_age (v : IpVersion) : KeepsUnique v (GroupEntry.ageOpt now) := by
  intro e e' h hl
  unfold GroupEntry.ageOpt at h
  split at h
  · cases h
  · obtain rfl := Option.some.inj h
    exact Chain.keys_filterMap_nodup (clientKey_ageOpt now) hl

theorem visits_checkGroup : Visits Db.tables (fun db => db.clock.now = now) i v
    (GroupEntry.ageOpt now) (checkGroupEntryTimer sysTimerSec i v) where
  keeps db e hnow := by
    unfold checkGroupEntryTimer
    rw [dropEmptyGroup_clock, (checkClients e.clientList db).1]
    exact hnow
  frame db e _ _ := (checkClients e.clientList db).2.1.trans (frame_dropEmptyGroup _ i v e.groupAddr)
  group db e hnow he hnodup := by
    have hfold : e.clientList.foldl (Chain.turn (clientKey v) (ClientEntry.ageOpt now)) e.clientList =
        e.clientList.filterMap (ClientEntry.ageOpt now) :=
      Chain.foldl_turn (clientKey_ageOpt now) hnodup
    unfold checkGroupEntryTimer GroupEntry.ageOpt
    rw [searchGroupEntry_dropEmptyGroup, (checkClients e.clientList db).2.2, he, hnow]
    simp [GroupEntry.withClients, hfold]

theorem ageGroups_swept (sysTimerSec : UInt32) (i : ℕ) (v : IpVersion) (db : Db) (hu : Unique db.tables) :
    Swept i v (GroupEntry.ageOpt db.clock.now) (fun _ => True) db.tables
      (ageGroups sysTimerSec i v db).tables :=
  visits_checkGroup.groups (keepsUnique_age v) db rfl hu

theorem ageGroups_clock (db : Db) : (ageGroups sysTimerSec i v db).clock.now = db.clock.now := by
  have hvisits : Visits Db.tables (fun db' => db'.clock.now = db.clock.now) i v _
    (checkGroupEntryTimer sysTimerSec i v) := visits_checkGroup
  have hkeeps := hvisits.keeps_buckets (List.range hashTblSize) db rfl
  unfold ageGroups
  exact hkeeps

theorem ageFlows_tables (db : Db) : (ageFlows idle i db).tables = db.tables := rfl

theorem ageFlows_clock (db : Db) : (ageFlows idle i db).clock = db.clock := rfl

theorem ageModule_walked (db : Db) (hu : Unique db.tables) :
    (ageModule sysTimerSec idle db i).clock.now = db.clock.now ∧
      Walked (fun _ => GroupEntry.ageOpt db.clock.now) [i] db.tables
        (ageModule sysTimerSec idle db i).tables := by
  have h4 := ageGroups_swept sysTimerSec i .v4 db hu
  have hu' := h4.unique (keepsUnique_age .v4) hu
  have h6 := ageGroups_swept sysTimerSec i .v6 _ hu'
  rw [ageGroups_clock] at h6
  rw [ageModule, ageFlows_tables, ageFlows_clock]
  exact ⟨(ageGroups_clock _).trans (ageGroups_clock db), walked_versions h4 h6⟩

/-- The sweep is exact. -/
theorem maintainTimerList_walked (sysTimerSec : UInt32) (idle : FlowKey → Bool) (db : Db) (time : UInt32)
    (hu : Unique db.tables) :
    (maintainTimerList sysTimerSec idle db time).clock.now = time ∧
      Walked (fun _ => GroupEntry.ageOpt time) (validModules db.net) db.tables
        (maintainTimerList sysTimerSec idle db time).tables := by
  have hvisit : ∀ (db : Db) i, db.clock.now = time → Unique db.tables →
      (ageModule sysTimerSec idle db i).clock.now = time ∧
        Walked (fun _ => GroupEntry.ageOpt time) [i] db.tables
          (ageModule sysTimerSec idle db i).tables := by
    rintro db i rfl hu
    exact ageModule_walked db hu
  unfold maintainTimerList
  rw [sysUpSeconds_eq]
  exact walked_modules (I := fun db => db.clock.now = time) hvisit keepsUnique_age _
    (validModules_nodup db.net) { db with clock := { db.clock with now := time } } rfl hu

end Groups

/-! ### The sweep is exact -/

section Exact

variable {now : UInt32} {e e' : ClientEntry}

/-- The client wants all sources but some, or some source. -/
def ClientEntry.Wants (now : UInt32) (e : ClientEntry) : Prop :=
  now < e.groupFilterTimer ∨ ∃ s ∈ e.sourceList, now < s.portTimer

/-- The addresses and timers of sources. -/
def sourceTimers (l : List SourceEntry) : List (Ip × UInt32) := l.map fun s => (s.sourceAddr, s.portTimer)

/-- `e'` is `e` after a sweep: with all its sources in EXCLUDE mode, and with those whose timers run in
    INCLUDE mode. -/
structure Survives (now : UInt32) (e e' : ClientEntry) : Prop where
  groupFilterTimer : e'.groupFilterTimer = e.groupFilterTimer
  clientAddr : e'.clientAddr = e.clientAddr
  clientMacAddr : e'.clientMacAddr = e.clientMacAddr
  inIfidx : e'.inIfidx = e.inIfidx
  excludeMode : now < e.groupFilterTimer → sourceTimers e'.sourceList = sourceTimers e.sourceList
  includeMode : ¬now < e.groupFilterTimer →
    sourceTimers e'.sourceList = sourceTimers (e.sourceList.filter fun s => now < s.portTimer)

theorem survives_aged (now : UInt32) (e : ClientEntry) : Survives now e (e.aged now) := by
  have hsources : sourceTimers (e.aged now).sourceList =
      sourceTimers (e.sourceList.filter (SourceEntry.kept now e.groupFilterTimer)) := by
    unfold sourceTimers ClientEntry.aged
    rw [map_map]
    rfl
  refine ⟨rfl, rfl, rfl, rfl, fun hexcl => ?_, fun hincl => ?_⟩
  · rw [hsources, filter_eq_self.mpr fun s _ => by simp [SourceEntry.kept, hexcl]]
  · have hkept : SourceEntry.kept now e.groupFilterTimer = fun s => decide (now < s.portTimer) := by
      funext s
      simp [SourceEntry.kept, hincl]
    rw [hsources, hkept]

/-- The sources that a client loses do not count. -/
theorem wants_aged : (e.aged now).Wants now ↔ e.Wants now := by
  unfold ClientEntry.Wants ClientEntry.aged
  simp only [mem_map, mem_filter]
  refine or_congr_right ⟨?_, ?_⟩
  · rintro ⟨_, ⟨s, ⟨hs, -⟩, rfl⟩, hrun⟩
    exact ⟨s, hs, hrun⟩
  · rintro ⟨s, hs, hrun⟩
    exact ⟨_, ⟨s, ⟨hs, by simp [SourceEntry.kept, hrun]⟩, rfl⟩, hrun⟩

/-- A client that wants nothing has no port to forward to. -/
theorem getClientFwdIfIdx_eq_fail :
    getClientFwdIfIdx now e = failIdx ↔ ¬e.Wants now ∨ e.inIfidx = failIdx := by
  unfold getClientFwdIfIdx ClientEntry.Wants
  by_cases hfilter : now < e.groupFilterTimer
  · simp [hfilter]
  · by_cases hsource : ∃ s ∈ e.sourceList, now < s.portTimer <;> simp [hfilter, hsource]

theorem ageOpt_eq_some :
    e.ageOpt now = some e' ↔ e.Wants now ∧ e.inIfidx ≠ failIdx ∧ e' = e.aged now := by
  have hfail : getClientFwdIfIdx now (e.aged now) = failIdx ↔ ¬e.Wants now ∨ e.inIfidx = failIdx := by
    rw [getClientFwdIfIdx_eq_fail, wants_aged]
    rfl
  unfold ClientEntry.ageOpt
  split
  · next h =>
    rcases hfail.mp h with h | h <;> simp [h]
  · next h =>
    rw [hfail, not_or, not_not] at h
    simp [h, eq_comm]

variable {sysTimerSec time : UInt32} {idle : FlowKey → Bool} {db : Db} {i : ℕ} {v : IpVersion} {g : Ip}

/-- The clients of a group in use after the sweep. -/
theorem clientsAt_maintain (hu : Unique db.tables) (hi : i ∈ validModules db.net) :
    clientsAt (maintainTimerList sysTimerSec idle db time).tables i v g =
      (clientsAt db.tables i v g).filterMap (ClientEntry.ageOpt time) := by
  obtain ⟨-, hwalked⟩ := maintainTimerList_walked sysTimerSec idle db time hu
  refine hwalked.clientsAt (F := fun _ => List.filterMap (ClientEntry.ageOpt time)) (fun _ => rfl) ?_ hi v g
  intro v e
  unfold GroupEntry.ageOpt
  split
  · next hempty => exact hempty.symm
  · rfl

theorem mem_clientsAt_maintain (hu : Unique db.tables) (hi : i ∈ validModules db.net) :
    e' ∈ clientsAt (maintainTimerList sysTimerSec idle db time).tables i v g ↔
      ∃ e ∈ clientsAt db.tables i v g, e.ageOpt time = some e' := by
  rw [clientsAt_maintain hu hi, mem_filterMap]

/-- The sweep deletes the clients that want nothing, and the groups without clients. A port with the
    number of `FAIL` counts as none. -/
theorem maintainTimerList_exact (sysTimerSec : UInt32) (idle : FlowKey → Bool) (db : Db) (time : UInt32)
    (hu : Unique db.tables)
    (hport : ∀ i ∈ validModules db.net, ∀ v g, ∀ e ∈ clientsAt db.tables i v g, e.inIfidx ≠ failIdx) :
    let t := db.tables
    let t' := (maintainTimerList sysTimerSec idle db time).tables
    (∀ i ∈ validModules db.net, ∀ v g,
      (∀ e ∈ clientsAt t i v g,
        (∃ e' ∈ clientsAt t' i v g, clientKey v e' = clientKey v e) ↔ e.Wants time) ∧
      (∀ e' ∈ clientsAt t' i v g, ∃ e ∈ clientsAt t i v g, Survives time e e') ∧
      ((searchGroupEntry t' i v g).isSome ↔ clientsAt t' i v g ≠ [])) ∧
    (∀ i, i ∉ validModules db.net → ∀ v g, searchGroupEntry t' i v g = searchGroupEntry t i v g) := by
  intro t t'
  obtain ⟨-, hwalked⟩ := maintainTimerList_walked sysTimerSec idle db time hu
  refine ⟨fun i hi v g => ⟨fun e he => ⟨?_, fun hwants => ?_⟩, fun e' he' => ?_, ?_⟩, hwalked.same⟩
  · rintro ⟨e', he', hkey⟩
    obtain ⟨e₀, he₀, hage⟩ := (mem_clientsAt_maintain hu hi).mp he'
    -- the group has no other client with this key
    have hsame : e₀ = e := inj_on_of_nodup_map (hu i v g) he₀ he
      ((clientKey_ageOpt time e₀ e' hage).symm.trans hkey)
    exact hsame ▸ (ageOpt_eq_some.mp hage).1
  · have hage : e.ageOpt time = some (e.aged time) :=
      ageOpt_eq_some.mpr ⟨hwants, hport i hi v g e he, rfl⟩
    exact ⟨e.aged time, (mem_clientsAt_maintain hu hi).mpr ⟨e, he, hage⟩, rfl⟩
  · obtain ⟨e, he, hage⟩ := (mem_clientsAt_maintain hu hi).mp he'
    obtain ⟨-, -, rfl⟩ := ageOpt_eq_some.mp hage
    exact ⟨e, he, survives_aged time e⟩
  · unfold clientsAt
    rw [hwalked.done i hi]
    cases searchGroupEntry db.tables i v g with
    | none => simp
    | some ge =>
      rw [Option.bind_some, GroupEntry.ageOpt]
      split
      · simp
      · next hleft =>
        rw [Option.isSome_some, Option.elim_some]
        exact ⟨fun _ => hleft, fun _ => rfl⟩

theorem processIsExclude_unique (db : Db) (dev : DevInfo) (pkt : PktHdr) (c : Ip) (rec : GroupRecord)
    (hu : Unique db.tables) : Unique (processIsExclude db dev pkt v c rec).2.tables :=
  (part_learn fun _ _ _ => works_coreOf .isExclude).acts.unique hu

theorem processAllow_unique (db : Db) (dev : DevInfo) (pkt : PktHdr) (c : Ip) (rec : GroupRecord)
    (hu : Unique db.tables) : Unique (processAllow db dev pkt v c rec).2.tables :=
  (part_learn fun _ _ _ => works_coreOf .allow).acts.unique hu

theorem sampleExclude_unique (fastLeave : Bool) : Unique (sampleExclude fastLeave).tables := by
  have hinit : Unique (sampleDb fastLeave).tables := fun _ _ _ => nodup_nil
  have hexclude := processIsExclude_unique (v := .v4) (sampleDb fastLeave) (samplePort fastLeave) samplePkt
    (host 9) (sampleRec [host 1]) hinit
  rw [sampleExclude]
  exact processAllow_unique _ (samplePort fastLeave) samplePkt (host 9) (sampleRec [host 2]) hexclude

/-- The client in EXCLUDE mode stays until its timer has run out. -/
theorem maintainTimerList_exact_sample :
    let db := sampleExclude false
    let g := (sampleRec []).groupAddr
    let swept time := (maintainTimerList 10 (fun _ => false) db time).tables
    (∃ e ∈ clientsAt (swept 200) 0 .v4 g, e.clientAddr = host 9) ∧ clientsAt (swept 360) 0 .v4 g = [] := by
  intro db g swept
  have hvalid : ∀ i ∈ validModules db.net, i = 0 := by decide
  have hports : ∀ h < hashTblSize, (∀ ge ∈ db.tables.hashTable 0 .v4 h, ∀ e ∈ ge.clientList,
      e.inIfidx ≠ failIdx) ∧ ∀ ge ∈ db.tables.hashTable 0 .v6 h, ∀ e ∈ ge.clientList,
      e.inIfidx ≠ failIdx := by decide +kernel
  have hport : ∀ i ∈ validModules db.net, ∀ v g, ∀ e ∈ clientsAt db.tables i v g,
      e.inIfidx ≠ failIdx := by
    intro i hi v g e he
    obtain rfl := hvalid i hi
    cases hsearch : searchGroupEntry db.tables 0 v g with
    | none =>
      rw [clientsAt, hsearch] at he
      cases he
    | some ge =>
      rw [clientsAt_of_search hsearch] at he
      have hmem := Chain.mem_of_search hsearch
      cases v with
      | v4 => exact (hports _ (hashAlgorithm_lt .v4 g)).1 ge hmem e he
      | v6 => exact (hports _ (hashAlgorithm_lt .v6 g)).2 ge hmem e he
  have hexact := fun time => maintainTimerList_exact 10 (fun _ => false) db time
    (sampleExclude_unique false) hport
  have hmem : 0 ∈ validModules db.net := by decide
  have hclient : ∃ e ∈ clientsAt db.tables 0 .v4 g, e.clientAddr = host 9 ∧ 200 < e.groupFilterTimer := by
    decide +kernel
  have hlast : ∀ e ∈ clientsAt db.tables 0 .v4 g, ¬(360 < e.groupFilterTimer ∨
      ∃ s ∈ e.sourceList, 360 < s.portTimer) := by decide +kernel
  constructor
  · obtain ⟨e, he, haddr, hruns⟩ := hclient
    obtain ⟨e', he', hkey⟩ := (((hexact 200).1 0 hmem .v4 g).1 e he).mpr (Or.inl hruns)
    obtain ⟨e₀, he₀, hsurvives⟩ := ((hexact 200).1 0 hmem .v4 g).2.1 e' he'
    have hsame : e₀ = e := inj_on_of_nodup_map (sampleExclude_unique false 0 .v4 g) he₀ he (by
      rw [← hkey, clientKey, clientKey, hsurvives.clientAddr, hsurvives.clientMacAddr])
    exact ⟨e', he', by rw [hsurvives.clientAddr, hsame, haddr]⟩
  · refine eq_nil_iff_forall_not_mem.mpr fun e' he' => ?_
    obtain ⟨e, he, hsurvives⟩ := ((hexact 360).1 0 hmem .v4 g).2.1 e' he'
    have hkey : clientKey .v4 e' = clientKey .v4 e := by
      rw [clientKey, clientKey, hsurvives.clientAddr, hsurvives.clientMacAddr]
    exact hlast e he ((((hexact 360).1 0 hmem .v4 g).1 e he).mp ⟨e', he', hkey⟩)

/-- A client behind a port with the number of `FAIL` is deleted while its timer runs. -/
theorem maintainTimerList_fail_port :
    let db := (processIsExclude (sampleDb false) (samplePort false) { samplePkt with devIfindex := failIdx }
      .v4 (host 9) (sampleRec [])).2
    let g := (sampleRec []).groupAddr
    0 ∈ validModules db.net ∧ (∃ e ∈ clientsAt db.tables 0 .v4 g, 200 < e.groupFilterTimer) ∧
      clientsAt (maintainTimerList 10 (fun _ => false) db 200).tables 0 .v4 g = [] := by
  decide +kernel

end Exact

/-! ### Walks that take clients away -/

/-- The group with some of its clients. -/
def thinned (F : IpVersion → List ClientEntry → List ClientEntry) (v : IpVersion) (e : GroupEntry) :
    Option GroupEntry := some (e.withClients (F v))

theorem keepsUnique_thinned {F : IpVersion → List ClientEntry → List ClientEntry}
    (hF : ∀ v l, (F v l).Sublist l) (v : IpVersion) : KeepsUnique v (thinned F v) := by
  intro e e' h hl
  obtain rfl := Option.some.inj h
  exact hl.sublist ((hF v e.clientList).map (clientKey v))

theorem clientsAt_thinned {F : IpVersion → List ClientEntry → List ClientEntry} {is : List ℕ}
    {t t' : Tables} (h : Walked (thinned F) is t t') (hF : ∀ v l, (F v l).Sublist l) {i : ℕ} (hi : i ∈ is)
    (v : IpVersion) (g : Ip) : clientsAt t' i v g = F v (clientsAt t i v g) :=
  h.clientsAt (fun v => sublist_nil.mp (hF v [])) (fun _ _ => rfl) hi v g

section BlackList

variable {p : BlackPattern} {ifidx : UInt32}

/-- The first client that is hit is deleted, in groups of the version of the pattern. -/
def BlackPattern.strike (p : BlackPattern) (ifidx : UInt32) (v : IpVersion) (l : List ClientEntry) :
    List ClientEntry :=
  match l.find? (p.hit ifidx) with
  | none => l
  | some c => if v = p.ipVersion then l.filter fun c' => clientKey v c' ≠ clientKey v c else l

theorem strike_sublist (v : IpVersion) (l : List ClientEntry) : (p.strike ifidx v l).Sublist l := by
  unfold BlackPattern.strike
  split
  · exact List.Sublist.refl l
  · split
    · exact filter_sublist
    · exact List.Sublist.refl l

/-- Groups of the other version are not visited. -/
theorem strike_ne {v : IpVersion} (hv : v ≠ p.ipVersion) (l : List ClientEntry) :
    p.strike ifidx v l = l := by
  unfold BlackPattern.strike
  split
  · rfl
  · exact if_neg hv

theorem reflushIn_tables (db : Db) (sel : FlowKey → Prop) [DecidablePred sel] (is : List ℕ) :
    (db.reflushIn sel is).tables = db.tables := rfl

theorem visits_blackListGroup (p : BlackPattern) (ifidx : UInt32) (i : ℕ) :
    Visits Db.tables (fun _ => True) i p.ipVersion (thinned (p.strike ifidx) p.ipVersion)
      (blackListGroup p ifidx i) where
  keeps _ _ _ := trivial
  frame db e _ _ := by
    unfold blackListGroup
    split
    · exact .of_eq rfl
    · rw [reflushIn_tables]
      exact frame_deleteClientEntry
  group db e _ he _ := by
    unfold blackListGroup thinned GroupEntry.withClients BlackPattern.strike
    cases e.clientList.find? (p.hit ifidx) with
    | none => exact he
    | some c =>
      simp only [reflushIn_tables, if_true, deleteClientEntry, searchGroupEntry_modifyClients]
      exact congrArg (Option.map _) he

theorem blackListUpdateFlow_walked (db : Db) (hu : Unique db.tables) :
    Walked (thinned (p.strike ifidx)) (validModules db.net) db.tables
      (blackListUpdateFlow p ifidx db).tables := by
  have hkeeps : ∀ v, KeepsUnique v (thinned (p.strike ifidx) v) := keepsUnique_thinned strike_sublist
  have hvisit : ∀ (db : Db) i, True → Unique db.tables → True ∧
      Walked (thinned (p.strike ifidx)) [i] db.tables
        ((List.range hashTblSize).foldl (fun db h =>
          (db.tables.hashTable i p.ipVersion h).foldl (blackListGroup p ifidx i) db) db).tables := by
    intro db i _ hu
    have hswept := (visits_blackListGroup p ifidx i).groups (hkeeps p.ipVersion) db trivial hu
    refine ⟨trivial, walked_version hswept fun w hw e => ?_⟩
    unfold thinned GroupEntry.withClients
    rw [strike_ne hw]
  exact (walked_modules (I := fun _ => True) hvisit hkeeps _ (validModules_nodup db.net) db trivial hu).2

end BlackList

/-! ### Devices and bridges -/

section Clear

variable {devIdx : UInt32} {i : ℕ} {v : IpVersion} {g : Ip}

/-- Deleting some clients of a group one after the other. -/
theorem deleteClients (cs : List ClientEntry) (t : Tables) :
    Frame (spot i v g) t (cs.foldl (fun t c => deleteClientEntry t i v g c) t) ∧
      searchGroupEntry (cs.foldl (fun t c => deleteClientEntry t i v g c) t) i v g =
        (searchGroupEntry t i v g).map (GroupEntry.withClients
          (List.filter fun c => clientKey v c ∉ cs.map (clientKey v))) := by
  induction cs generalizing t with
  | nil =>
    refine ⟨.of_eq rfl, ?_⟩
    cases hsearch : searchGroupEntry t i v g <;> simp [GroupEntry.withClients, hsearch]
  | cons c cs ih =>
    obtain ⟨hframe, hgroup⟩ := ih (deleteClientEntry t i v g c)
    refine ⟨frame_deleteClientEntry.trans hframe, ?_⟩
    have hdelete : searchGroupEntry (deleteClientEntry t i v g c) i v g =
        (searchGroupEntry t i v g).map (GroupEntry.withClients
          (List.filter fun c' => clientKey v c' ≠ clientKey v c)) := searchGroupEntry_modifyClients
    rw [foldl_cons, hgroup, hdelete, Option.map_map]
    refine congrArg (Option.map · _) (funext fun e => ?_)
    unfold GroupEntry.withClients
    rw [Function.comp_apply, filter_filter]
    refine congrArg (fun l => { e with clientList := l }) (filter_congr fun c' _ => ?_)
    rw [Bool.eq_iff_iff]
    simp [and_comm]

/-- Where no key is repeated, deleting by key is deleting. -/
theorem filter_keys_eq {l : List ClientEntry} {p : ClientEntry → Bool} (hl : (l.map (clientKey v)).Nodup) :
    (l.filter fun c => clientKey v c ∉ (l.filter p).map (clientKey v)) = l.filter fun c => !p c := by
  refine filter_congr fun c hc => ?_
  rw [Bool.eq_iff_iff]
  simp only [decide_eq_true_eq, Bool.not_eq_true']
  constructor
  · intro hkey
    rw [Bool.eq_false_iff]
    exact fun hp => hkey (mem_map_of_mem (mem_filter.mpr ⟨hc, hp⟩))
  · intro hp hkey
    obtain ⟨c', hc', heq⟩ := mem_map.mp hkey
    obtain ⟨hmem, hp'⟩ := mem_filter.mp hc'
    obtain rfl := inj_on_of_nodup_map hl hmem hc heq
    rw [hp] at hp'
    cases hp'

/-- The clients behind other devices. -/
def behindOthers (devIdx : UInt32) (_ : IpVersion) (l : List ClientEntry) : List ClientEntry :=
  l.filter fun c => !decide (c.inIfidx = devIdx)

theorem behindOthers_sublist (v : IpVersion) (l : List ClientEntry) :
    (behindOthers devIdx v l).Sublist l := filter_sublist

theorem visits_clearGroupByDev (devIdx : UInt32) :
    Visits (fun t => t) (fun _ => True) i v (thinned (behindOthers devIdx) v)
      (clearGroupByDev devIdx i v) where
  keeps _ _ _ := trivial
  frame t e _ _ := (deleteClients _ t).1
  group t e _ he hnodup := by
    have hfilter := filter_keys_eq (p := fun c => decide (c.inIfidx = devIdx)) hnodup
    unfold clearGroupByDev thinned GroupEntry.withClients behindOthers
    rw [(deleteClients _ t).2, he, Option.map_some, ← hfilter]
    rfl

theorem clearModuleByDev_swept (devIdx : UInt32) (i : ℕ) (v : IpVersion) (t : Tables) (hu : Unique t) :
    Swept i v (thinned (behindOthers devIdx) v) (fun _ => True) t (clearModuleByDev devIdx i v t) :=
  (visits_clearGroupByDev devIdx).groups (keepsUnique_thinned behindOthers_sublist v) t trivial hu

theorem clearDataBaseByDev_walked (net : Net) (t : Tables) (hu : Unique t) :
    Walked (thinned (behindOthers devIdx)) (validModules net) t (clearDataBaseByDev net devIdx t) := by
  have hkeeps : ∀ v, KeepsUnique v (thinned (behindOthers devIdx) v) :=
    keepsUnique_thinned behindOthers_sublist
  have hvisit : ∀ (t : Tables) i, True → Unique t → True ∧ Walked (thinned (behindOthers devIdx)) [i] t
      (clearModuleByDev devIdx i .v6 (clearModuleByDev devIdx i .v4 t)) := by
    intro t i _ hu
    have h4 := clearModuleByDev_swept devIdx i .v4 t hu
    have h6 := clearModuleByDev_swept devIdx i .v6 _ (h4.unique (hkeeps .v4) hu)
    exact ⟨trivial, walked_versions h4 h6⟩
  have hwalked := @walked_modules (thinned (behindOthers devIdx)) Tables (fun t => t) (fun _ => True) _ hvisit
    hkeeps (validModules net) (validModules_nodup net) t trivial hu
  exact hwalked.2

theorem keepsUnique_none (v : IpVersion) : KeepsUnique v fun _ => none := fun _ _ h => nomatch h

theorem visits_deleteGroupEntry :
    Visits Db.tables (fun _ => True) i v (fun _ => none) (fun db e => deleteGroupEntry db i v e) where
  keeps _ _ _ := trivial
  frame db e _ _ := (deleteClients e.clientList db.tables).1.trans frame_freeGroup
  group _ _ _ _ _ := searchGroupEntry_freeGroup

theorem deleteGroups_swept (i : ℕ) (v : IpVersion) (db : Db) (hu : Unique db.tables) :
    Swept i v (fun _ => none) (fun _ => True) db.tables (deleteGroups i v db).tables :=
  visits_deleteGroupEntry.groups (keepsUnique_none v) db trivial hu

/-- No groups of the version. -/
def without (v w : IpVersion) (e : GroupEntry) : Option GroupEntry := if w = v then none else some e

theorem keepsUnique_without (w : IpVersion) : KeepsUnique w (without v w) := by
  intro e e' h hl
  unfold without at h
  split at h
  · cases h
  · obtain rfl := Option.some.inj h
    exact hl

theorem flushBrMdb_walked (db : Db) (brIfidx : Option UInt32) (hu : Unique db.tables) :
    Walked (without v)
      ((validModules db.net).filter fun i => brIfidx.all fun b => (db.net.brInfo i).ifindex = b)
      db.tables (flushBrMdb db brIfidx v).tables := by
  have hvisit : ∀ (db : Db) i, True → Unique db.tables → True ∧ Walked (without v) [i] db.tables
      (flushModule v db i).tables := by
    intro db i _ hu
    have hswept := deleteGroups_swept i v db hu
    have hself : without v v = fun _ => none := funext fun _ => if_pos rfl
    rw [← hself] at hswept
    unfold flushModule
    dsimp only
    exact ⟨trivial, walked_version hswept fun w hw e => if_neg hw⟩
  exact (walked_modules (I := fun _ => True) hvisit keepsUnique_without _
    ((validModules_nodup db.net).filter _) db trivial hu).2

theorem clearModule_walked (db : Db) (hu : Unique db.tables) :
    Walked (fun _ _ => none) [i] db.tables (clearModule i db).tables := by
  have h4 := deleteGroups_swept i .v4 db hu
  have h6 := deleteGroups_swept i .v6 _ (h4.unique (keepsUnique_none .v4) hu)
  unfold clearModule
  dsimp only
  exact walked_versions h4 h6

end Clear

end PhoebusBsp.Igmp

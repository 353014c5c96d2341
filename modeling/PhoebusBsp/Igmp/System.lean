import PhoebusBsp.Igmp.Effects
import PhoebusBsp.Igmp.Reach
import PhoebusBsp.Schemes.Machine

/-! The module as a machine: what may happen, in any order and any number.

        report       a packet of IGMP or MLD comes in
        tick         the system timer expires: the sweep
        data         a multicast packet is to be forwarded
        elapse       jiffies go by
        blackList    a MAC address is put on the black list of a device
        lanGone, wanGone, brGone       a device or a bridge is unregistered
        flush        the database of a bridge, or of all, is flushed

    Packets that the black list, a rate limit or the version settings of the device stop do not reach
    the handlers and are no events. -/

namespace PhoebusBsp.Igmp
open Schemes List

/-! ### Reports -/

/-- What a packet says. -/
inductive Message where
  /-- A report of IGMPv1, IGMPv2 or MLDv1. -/
  | join (igmpv1 : Bool) (g : Ip)
  /-- A leave of IGMPv2, a done of MLDv1. -/
  | leave (g : Ip)
  /-- The records of an IGMPv3 or MLDv2 report that are handed to a handler. -/
  | records (recs : List (RecordType × GroupRecord))

/-- The groups it is about. -/
def Message.groups : Message → List Ip
  | .join _ g => [g]
  | .leave g => [g]
  | .records recs => recs.map fun r => r.2.groupAddr

def processRecords (r : Reporter) (v : IpVersion) (db : Db) (recs : List (RecordType × GroupRecord)) :
    Db :=
  recs.foldl (fun db x => (handle r v x.2 db x.1).2) db

def process (r : Reporter) (v : IpVersion) (db : Db) : Message → Db
  | .join igmpv1 g => (processJoin db r.dev r.pkt v igmpv1 r.clientAddr g).2
  | .leave g => (processLeave db r.dev r.pkt v r.clientAddr g).2
  | .records recs => processRecords r v db recs

/-- `rtk_igmp_mld_process`: the device is known, it belongs to a bridge, and snooping is on. -/
def mldProcess (db : Db) (pkt : PktHdr) (v : IpVersion) (c : Ip) (msg : Message) : Db :=
  match devInfoOf db.net pkt.devIfindex with
  | none => db
  | some dev =>
    if pkt.moduleIndex ∉ validModules db.net then db
    else if (dev.devConf v).snoopingDisable then db
    else process ⟨dev, pkt, c⟩ v db msg

/-- A report does with the tables what the message does that is read from its bytes. -/
theorem processIgmpv3Mldv2Reports_eq (r : Reporter) (h : ReportHdr) (mem : Bytes) (zero : Option Nf)
    (db : Db) : (processIgmpv3Mldv2Reports r h mem zero db).db = process r h.ipVersion db (.records
      ((handedFrom h.ipVersion mem h.igmpDataLen.toNat 0 (numOfRecords mem)).filterMap fun x =>
        (RecordType.ofByte (mem x.2)).map fun type => (type, recordAt h.ipVersion mem x.2))) := by
  refine Eq.trans (recordLoop_spec (numOfRecords mem) (numOfRecords mem) 0 (Nat.zero_add _) zero db).2 ?_
  generalize handedFrom h.ipVersion mem h.igmpDataLen.toNat 0 (numOfRecords mem) = handed
  induction handed generalizing db with
  | nil => rfl
  | cons x handed ih =>
    rw [foldl_cons]
    cases htype : RecordType.ofByte (mem x.2) with
    | none =>
      have hskip : applyRecord r h.ipVersion mem db x = db := by
        rw [applyRecord, htype]
      rw [hskip, filterMap_cons_none (by rw [htype, Option.map_none])]
      exact ih db
    | some type =>
      have hhandle : applyRecord r h.ipVersion mem db x =
          (handle r h.ipVersion (recordAt h.ipVersion mem x.2) db type).2 := by
        rw [applyRecord, htype]
      rw [hhandle, filterMap_cons_some (by rw [htype, Option.map_some])]
      exact ih _

/-! ### What a report changes -/

/-- Only entries of the client `k` in the groups `gs` may have changed. -/
structure Touches (i : ℕ) (v : IpVersion) (gs : List Ip) (k : Ip × Mac) (t t' : Tables) : Prop where
  frame : ∀ j w g, (∀ g' ∈ gs, spot j w g ≠ spot i v g') →
    searchGroupEntry t' j w g = searchGroupEntry t j w g
  only : ∀ g, Only v k (clientsAt t i v g) (clientsAt t' i v g)

section Touches

variable {i : ℕ} {v : IpVersion} {gs gs' : List Ip} {k : Ip × Mac} {t t' t'' : Tables}

theorem Touches.same : Touches i v gs k t t := ⟨fun _ _ _ _ => rfl, fun _ => .rfl⟩

theorem Acts.touches {g : Ip} (h : Acts i v g k t t') : Touches i v [g] k t t' where
  frame j w g' hne := h.frame j w g' (hne g mem_cons_self)
  only g' := by
    by_cases hg : addr v g' = addr v g
    · rw [clientsAt_congr hg, clientsAt_congr hg]
      exact h.only
    · rw [h.frame.clientsAt fun hspot => hg (spot_inj.mp hspot).2.2]
      exact .rfl

theorem Touches.trans (h : Touches i v gs k t t') (h' : Touches i v gs' k t' t'') :
    Touches i v (gs ++ gs') k t t'' where
  frame j w g hne := by
    rw [h'.frame j w g fun g' hg' => hne g' (mem_append_right gs hg'),
      h.frame j w g fun g' hg' => hne g' (mem_append_left gs' hg')]
  only g := (h.only g).trans (h'.only g)

/-- Groups that are not named stay. -/
theorem Touches.clientsAt (h : Touches i v gs k t t') {j : ℕ} {w : IpVersion} {g : Ip}
    (hne : ∀ g' ∈ gs, spot j w g ≠ spot i v g') : clientsAt t' j w g = clientsAt t j w g := by
  unfold Igmp.clientsAt
  rw [h.frame j w g hne]

theorem Touches.unique (h : Touches i v gs k t t') (hu : Unique t) : Unique t' := by
  intro j w g
  by_cases hj : j = i ∧ w = v
  · obtain ⟨rfl, rfl⟩ := hj
    exact (h.only g).nodup (hu j w g)
  · rw [h.clientsAt fun g' _ hspot => hj ⟨(spot_inj.mp hspot).1, (spot_inj.mp hspot).2.1⟩]
    exact hu j w g

end Touches

section Reports

variable {db : Db} {r : Reporter} {v : IpVersion}

theorem processRecords_touches (db : Db) (recs : List (RecordType × GroupRecord)) :
    Touches r.pkt.moduleIndex v (recs.map fun x => x.2.groupAddr) (addr v r.clientAddr, r.pkt.smac)
      db.tables (processRecords r v db recs).tables := by
  induction recs generalizing db with
  | nil => exact .same
  | cons x recs ih => exact (part_handle x.1).acts.touches.trans (ih _)

theorem process_touches (msg : Message) :
    Touches r.pkt.moduleIndex v msg.groups (addr v r.clientAddr, r.pkt.smac) db.tables
      (process r v db msg).tables := by
  cases msg with
  | join igmpv1 g => exact part_join.acts.touches
  | leave g => exact processLeave_acts.touches
  | records recs => exact processRecords_touches db recs

/-- What `rtk_igmp_mld_process` does is nothing, or what the handler does. -/
theorem mldProcess_cases (db : Db) (pkt : PktHdr) (v : IpVersion) (c : Ip) (msg : Message) :
    mldProcess db pkt v c msg = db ∨ ∃ dev, devInfoOf db.net pkt.devIfindex = some dev ∧
      pkt.moduleIndex ∈ validModules db.net ∧ (dev.devConf v).snoopingDisable = false ∧
      mldProcess db pkt v c msg = process ⟨dev, pkt, c⟩ v db msg := by
  unfold mldProcess
  cases hdev : devInfoOf db.net pkt.devIfindex with
  | none => exact Or.inl rfl
  | some dev =>
    by_cases hvalid : pkt.moduleIndex ∈ validModules db.net
    · cases hsnoop : (dev.devConf v).snoopingDisable with
      | true => exact Or.inl (by simp [hsnoop, hvalid])
      | false => exact Or.inr ⟨dev, rfl, hvalid, hsnoop, by simp [hsnoop, hvalid]⟩
    · exact Or.inl (by simp [hvalid])

/-- What holds after every part of a report, holds after the report. -/
theorem process_holds {P : Db → Prop} (msg : Message) (h : P db)
    (hpart : ∀ g db makes db', P db → Part r.dev r.pkt v r.clientAddr g db makes db' → P db')
    (hleave : ∀ g db, P db → P (processLeave db r.dev r.pkt v r.clientAddr g).2) : P (process r v db msg) := by
  cases msg with
  | join igmpv1 g => exact hpart g db true _ h part_join
  | leave g => exact hleave g db h
  | records recs =>
    exact List.foldlRecOn (motive := P) recs _ h fun db h x _ => hpart _ db _ _ h (part_handle x.1)

theorem mldProcess_holds {P : Db → Prop} {pkt : PktHdr} {c : Ip} (msg : Message) (h : P db)
    (hpart : ∀ dev g db makes db', P db → Part dev pkt v c g db makes db' → P db')
    (hleave : ∀ dev g db, P db → P (processLeave db dev pkt v c g).2) : P (mldProcess db pkt v c msg) := by
  rcases mldProcess_cases db pkt v c msg with heq | ⟨dev, -, -, -, heq⟩
  · rwa [heq]
  · rw [heq]
    exact process_holds msg h (hpart dev) (hleave dev)

theorem mldProcess_touches (db : Db) (pkt : PktHdr) (v : IpVersion) (c : Ip) (msg : Message) :
    Touches pkt.moduleIndex v msg.groups (addr v c, pkt.smac) db.tables
      (mldProcess db pkt v c msg).tables := by
  rcases mldProcess_cases db pkt v c msg with h | ⟨dev, -, -, -, h⟩
  · rw [h]
    exact .same
  · rw [h]
    exact process_touches (r := ⟨dev, pkt, c⟩) msg

end Reports

/-- One client cannot touch another: in every group of every module the entries of other clients are
    there after the packet just as before, with all their data and in their order, and a group that has
    one of them stays. -/
theorem report_leaves_others (db : Db) (pkt : PktHdr) (v : IpVersion) (c : Ip) (msg : Message) :
    let other w e := ¬(w = v ∧ clientKey v e = (addr v c, pkt.smac))
    let t := db.tables
    let t' := (mldProcess db pkt v c msg).tables
    (∀ j w g, (clientsAt t' j w g).filter (fun e => other w e) =
      (clientsAt t j w g).filter fun e => other w e) ∧
    (∀ j w g e, other w e → (Member t' w g j e ↔ Member t w g j e)) ∧
    (∀ j w h, ∀ ge ∈ t.hashTable j w h, (∃ e ∈ ge.clientList, other w e) →
      ∃ ge' ∈ t'.hashTable j w h, groupKey w ge' = groupKey w ge) := by
  intro other t t'
  have htouch := mldProcess_touches db pkt v c msg
  have hfilter : ∀ j w g, (clientsAt t' j w g).filter (fun e => other w e) =
      (clientsAt t j w g).filter fun e => other w e := by
    intro j w g
    by_cases hspot : j = pkt.moduleIndex ∧ w = v
    · obtain ⟨rfl, rfl⟩ := hspot
      have honly := (htouch.only g).others
      simpa only [other, true_and] using honly
    · rw [htouch.clientsAt fun g' _ h => hspot ⟨(spot_inj.mp h).1, (spot_inj.mp h).2.1⟩]
  have hmember : ∀ j w g e, other w e → (Member t' w g j e ↔ Member t w g j e) := by
    intro j w g e he
    have hiff : ∀ t, Member t w g j e ↔ e ∈ (clientsAt t j w g).filter fun e => other w e := by
      intro t
      rw [member_iff_clientsAt, mem_filter]
      simp [he]
    rw [hiff, hiff, hfilter]
  refine ⟨hfilter, hmember, fun j w h ge hge hother => ?_⟩
  obtain ⟨e, he, hne⟩ := hother
  obtain ⟨h', ge', hge', hkey, -⟩ := (hmember j w ge.groupAddr e hne).mpr ⟨h, ge, hge, rfl, he⟩
  have hbucket : h' = h := by
    rw [← (t'.placed j w h' ge' hge').2, ← (t.placed j w h ge hge).2]
    exact hash_congr hkey
  exact ⟨ge', hbucket ▸ hge', hkey⟩

/-- A member stays when another host leaves, with fast leave on. -/
theorem report_leaves_others_leave :
    let db := sampleExclude true
    let g := (sampleRec []).groupAddr
    ∃ e, e.clientAddr = host 9 ∧ Member db.tables .v4 g 0 e ∧
      Member (mldProcess db { samplePkt with smac := 2 } .v4 (host 8) (.leave g)).tables .v4 g 0 e := by
  intro db g
  have hexists : ∃ ge ∈ searchGroupEntry db.tables 0 .v4 g, ∃ e ∈ ge.clientList,
      e.clientAddr = host 9 := by decide +kernel
  obtain ⟨ge, hge, e, he, haddr⟩ := hexists
  have hmember : Member db.tables .v4 g 0 e := member_iff.mpr ⟨ge, hge, he⟩
  have hother : ¬(IpVersion.v4 = .v4 ∧ clientKey .v4 e = (addr .v4 (host 8), (2 : Mac))) := by
    rintro ⟨-, hkey⟩
    rw [clientKey, haddr] at hkey
    have hne : addr .v4 (host 9) ≠ addr .v4 (host 8) := by decide
    exact hne (congrArg Prod.fst hkey)
  exact ⟨e, haddr, hmember, ((report_leaves_others db { samplePkt with smac := 2 } .v4 (host 8)
    (.leave g)).2.1 0 .v4 g e hother).mpr hmember⟩

/-! ### What the handlers and walks leave alone -/

/-- Changes of the tables and of counters do not concern `P`, nor does what becomes of the flows. -/
structure Robust (P : Db → Prop) : Prop where
  tables : ∀ {db t}, P db → P { db with tables := t }
  net : ∀ {db net}, Steady db.net net → P db → P { db with net := net }
  reflush : ∀ {db g}, P db → P (db.reflush g)
  invalidate : ∀ {db i v g}, P db → P { db with flows := invalidateMCastGroupFlow db.flows i v g }

section Robust

variable {P : Db → Prop} {db db' : Db} {dev : DevInfo} {pkt : PktHdr} {v : IpVersion} {c g : Ip}

theorem Robust.dropEmptyGroup (hP : Robust P) {i : ℕ} (h : P db) : P (dropEmptyGroup db i v g) := by
  rcases dropEmptyGroup_cases db i v g with heq | ⟨ge, -, -, heq⟩
  · rwa [heq]
  · have htables : P { db with tables := db.tables.freeGroup i v ge } := hP.tables h
    rw [heq]
    exact hP.invalidate htables

theorem Robust.finish (hP : Robust P) {out : Outcome} (h : P db) : P (finish db pkt v g out).2 := by
  unfold Igmp.finish
  dsimp only
  generalize (db.tables.withSources out.sourcePool out.calls).storeClient pkt.moduleIndex v g out.client = t
  have htables : P { db with tables := t } := hP.tables h
  split
  · exact hP.reflush htables
  · exact htables

theorem Robust.part (hP : Robust P) {makes : Bool} (h : P db) (hpart : Part dev pkt v c g db makes db') : P db' := by
  cases hpart with
  | refused hsteady => exact hP.net hsteady h
  | opened hpass _ => exact hP.tables (hP.net hpass.1 h)
  | entered hpass _ _ _ => exact hP.finish (hP.tables (hP.net hpass.1 h))
  | unknown hpass => exact hP.reflush (hP.net hpass.1 h)
  | worked hpass _ _ => exact hP.finish (hP.net hpass.1 h)

theorem Robust.processLeave (hP : Robust P) (h : P db) : P (processLeave db dev pkt v c g).2 := by
  unfold Igmp.processLeave
  simp only
  split
  · exact hP.reflush (hP.dropEmptyGroup (hP.tables h))
  · exact hP.dropEmptyGroup (hP.tables h)

theorem Robust.mldProcess (hP : Robust P) {msg : Message} (h : P db) : P (mldProcess db pkt v c msg) :=
  mldProcess_holds msg h (fun _ _ _ _ _ => hP.part) fun _ _ _ => hP.processLeave

theorem Robust.ageGroups (hP : Robust P) {sysTimerSec : UInt32} {i : ℕ} (h : P db) :
    P (ageGroups sysTimerSec i v db) := by
  have hclient : ∀ g (db : Db) e, P db → P (checkClientEntryTimer sysTimerSec i v g db e) := by
    intro g db e h
    unfold checkClientEntryTimer
    simp only
    split
    · exact hP.reflush (hP.tables h)
    · exact hP.tables h
  refine List.foldlRecOn (motive := P) _ _ h fun db h b _ => ?_
  refine List.foldlRecOn (motive := P) _ _ h fun db h e _ => hP.dropEmptyGroup ?_
  exact List.foldlRecOn (motive := P) _ _ h fun db h c _ => hclient e.groupAddr db c h

theorem Robust.maintain (hP : Robust P) {idle : FlowKey → Bool} (hflows : ∀ {db i}, P db → P (ageFlows idle i db))
    {sysTimerSec time : UInt32} (h : P { db with clock := { db.clock with now := time } }) :
    P (maintainTimerList sysTimerSec idle db time) := by
  unfold maintainTimerList
  rw [sysUpSeconds_eq]
  exact List.foldlRecOn (motive := P) _ _ h fun db h i _ => hflows (hP.ageGroups (hP.ageGroups h))

theorem Robust.blackList (hP : Robust P) {p : BlackPattern} {ifidx : UInt32}
    (hreflush : ∀ {db' g}, ∀ i ∈ validModules db.net, P db' → P (db'.reflushIn (fun k => k.groupAddr = g) [i]))
    (h : P db) : P (blackListUpdateFlow p ifidx db) := by
  refine List.foldlRecOn (motive := P) _ _ h fun db' h i hi => ?_
  refine List.foldlRecOn (motive := P) _ _ h fun db' h b _ => ?_
  refine List.foldlRecOn (motive := P) _ _ h fun db' h e _ => ?_
  unfold blackListGroup
  split
  · exact h
  · exact hreflush i hi (hP.tables h)

end Robust

/-! ### Clock and configuration -/

/-- The clock stays, and of the configuration only counters change. -/
def Calm (db db' : Db) : Prop := db'.clock = db.clock ∧ Steady db.net db'.net

section Calm

variable {db db' db'' : Db} {r : Reporter} {pkt : PktHdr} {v : IpVersion} {c g : Ip}

theorem Calm.same : Calm db db := ⟨rfl, .same⟩

theorem Calm.trans (h : Calm db db') (h' : Calm db' db'') : Calm db db'' :=
  ⟨h'.1.trans h.1, h.2.trans h'.2⟩

theorem calm_reflushIn {sel : FlowKey → Prop} [DecidablePred sel] {is : List ℕ} :
    Calm db (db.reflushIn sel is) := ⟨rfl, reflushModules_steady (db.net, db.flows)⟩

theorem calm_tables {t : Tables} : Calm db { db with tables := t } := ⟨rfl, .same⟩

theorem calm_robust (db : Db) : Robust (Calm db) where
  tables h := h.trans calm_tables
  net hsteady h := h.trans ⟨rfl, hsteady⟩
  reflush h := h.trans ⟨rfl, flowReflushUpdate_steady⟩
  invalidate h := h.trans ⟨rfl, .same⟩

theorem Part.calm {dev : DevInfo} {makes : Bool} (h : Part dev pkt v c g db makes db') : Calm db db' :=
  (calm_robust db).part .same h

theorem processLeave_calm {dev : DevInfo} : Calm db (processLeave db dev pkt v c g).2 :=
  (calm_robust db).processLeave .same

theorem mldProcess_calm {msg : Message} : Calm db (mldProcess db pkt v c msg) := (calm_robust db).mldProcess .same

theorem maintainTimerList_calm (sysTimerSec : UInt32) (idle : FlowKey → Bool) (db : Db) (time : UInt32) :
    Calm { db with clock := { db.clock with now := time } } (maintainTimerList sysTimerSec idle db time) :=
  (calm_robust _).maintain (fun h => h.trans ⟨rfl, .same⟩) .same

theorem blackListUpdateFlow_calm (p : BlackPattern) (ifidx : UInt32) (db : Db) :
    Calm db (blackListUpdateFlow p ifidx db) :=
  (calm_robust db).blackList (fun _ _ h => h.trans calm_reflushIn) .same

end Calm

/-! ### Events -/

inductive Event where
  | report (pkt : PktHdr) (v : IpVersion) (c : Ip) (msg : Message)
  /-- `idle` is what the hardware says about the use of the flows. -/
  | tick (time : UInt32) (idle : FlowKey → Bool)
  | data (i : ℕ) (searchCacheFlowFirst : Bool) (d : DataInfo)
  | elapse (jiffies : UInt32)
  | blackList (p : BlackPattern) (ifidx : UInt32)
  | lanGone (ifidx : UInt32) (del : Bool)
  | wanGone (ifidx : UInt32) (del : Bool)
  | brGone (ifidx : UInt32) (del : Bool)
  | flush (brIfidx : Option UInt32) (v : IpVersion)

/-- A packet that belongs to a bridge is forwarded by `rtk_igmp_getMulticastDataFwdInfo`. -/
def forwardData (db : Db) (i : ℕ) (searchCacheFlowFirst : Bool) (d : DataInfo) : Db :=
  if i ∈ validModules db.net then
    let ans := getMulticastDataFwdInfo db.clock db.tables db.net db.flows i searchCacheFlowFirst d
    { db with net := ans.net, flows := ans.flows }
  else db

def step (sysTimerSec : UInt32) (db : Db) : Event → Db
  | .report pkt v c msg => mldProcess db pkt v c msg
  | .tick time idle => maintainTimerList sysTimerSec idle db time
  | .data i searchCacheFlowFirst d => forwardData db i searchCacheFlowFirst d
  | .elapse jiffies => { db with clock := { db.clock with jiffies := jiffies } }
  | .blackList p ifidx => blackListUpdateFlow p ifidx db
  | .lanGone ifidx del => unregisterLanDev db ifidx del
  | .wanGone ifidx del => unregisterWanDev db ifidx del
  | .brGone ifidx del => unregisterBrDev db ifidx del
  | .flush brIfidx v => flushBrMdb db brIfidx v

/-- The module after `rtk_igmp_init`, with the sizes of the four pools. -/
def Db.init (net : Net) (groupCount clientCount sourceCount flowCount : ℕ) : Db where
  clock := ⟨0, 0⟩
  tables := .init groupCount clientCount sourceCount
  net := net
  flows := ⟨fun _ _ => [], List.range flowCount, []⟩

section Events

variable {sysTimerSec : UInt32} {db : Db}

theorem forwardData_tables {i : ℕ} {first : Bool} {d : DataInfo} :
    (forwardData db i first d).tables = db.tables := by
  unfold forwardData
  split <;> rfl

theorem forwardData_calm {i : ℕ} {first : Bool} {d : DataInfo} : Calm db (forwardData db i first d) := by
  unfold forwardData
  split
  · exact ⟨rfl, getMulticastDataFwdInfo_steady⟩
  · exact .same

/-- Reports, data and the passing of time. -/
def Event.Traffic : Event → Prop
  | .report .. | .tick .. | .data .. | .elapse .. => True
  | _ => False

/-- Traffic leaves the configuration alone. -/
theorem step_steady {e : Event} (h : e.Traffic) : Steady db.net (step sysTimerSec db e).net := by
  cases e with
  | report pkt v c msg => exact mldProcess_calm.2
  | tick time idle => exact (maintainTimerList_calm sysTimerSec idle db time).2
  | data i first d => exact forwardData_calm.2
  | elapse jiffies => exact .same
  | blackList p ifidx => exact h.elim
  | lanGone ifidx del => exact h.elim
  | wanGone ifidx del => exact h.elim
  | brGone ifidx del => exact h.elim
  | flush brIfidx v => exact h.elim

/-- A LAN device that goes takes its clients along and may give up its slot. -/
theorem unregisterLanDev_cases (db : Db) (ifidx : UInt32) (del : Bool) :
    unregisterLanDev db ifidx del = db ∨ ∃ db', Calm db db' ∧
      db'.tables = clearDataBaseByDev db.net ifidx db.tables ∧
      (∃ t, db' = Db.reflushIn { db with tables := t } (fun _ => True) (validModules db.net)) ∧
      (unregisterLanDev db ifidx del = db' ∨ unregisterLanDev db ifidx del = { db' with net :=
        { db'.net with lanDevInfo := db'.net.lanDevInfo.eraseP fun dev => dev.ifindex = ifidx } }) := by
  unfold unregisterLanDev
  split
  · exact Or.inl rfl
  · refine Or.inr ⟨_, calm_tables.trans calm_reflushIn, reflushIn_tables _ _ _, ⟨_, rfl⟩, ?_⟩
    dsimp only
    split
    · exact Or.inr rfl
    · exact Or.inl rfl

theorem unregisterLanDev_tables (db : Db) (ifidx : UInt32) (del : Bool) :
    (unregisterLanDev db ifidx del).tables = db.tables ∨
      (unregisterLanDev db ifidx del).tables = clearDataBaseByDev db.net ifidx db.tables := by
  rcases unregisterLanDev_cases db ifidx del with h | ⟨db', -, htables, -, h | h⟩
  · exact Or.inl (by rw [h])
  · exact Or.inr (by rw [h, htables])
  · exact Or.inr (by rw [h, ← htables])

theorem deleteGroups_net (i : ℕ) (v : IpVersion) (db : Db) : (deleteGroups i v db).net = db.net := by
  unfold deleteGroups
  refine List.foldlRecOn (motive := fun db' : Db => db'.net = db.net) _ _ rfl fun db' h b _ => ?_
  exact List.foldlRecOn (motive := fun db' : Db => db'.net = db.net) _ _ h fun db' h e _ => h

theorem clearModule_net (i : ℕ) (db : Db) : (clearModule i db).net = db.net := by
  unfold clearModule
  dsimp only
  rw [deleteGroups_net, deleteGroups_net]

/-- A bridge that goes leaves its module clear, in use or not. -/
theorem unregisterBrDev_cases (db : Db) (ifidx : UInt32) (del : Bool) :
    unregisterBrDev db ifidx del = db ∨ ∃ i ∈ validModules db.net,
      (unregisterBrDev db ifidx del).tables = (clearModule i db).tables ∧
      (unregisterBrDev db ifidx del).flows = (clearModule i db).flows ∧
      ((unregisterBrDev db ifidx del).net = db.net ∨
        (unregisterBrDev db ifidx del).net = db.net.modifyBr i fun b => { b with validBit := false }) := by
  unfold unregisterBrDev
  split
  · exact Or.inl rfl
  · next i hi =>
    refine Or.inr ⟨i, mem_of_find?_eq_some hi, ?_⟩
    have hnet := clearModule_net i db
    generalize clearModule i db = cleared at hnet ⊢
    dsimp only
    split
    · exact ⟨rfl, rfl, Or.inr (by rw [hnet])⟩
    · exact ⟨rfl, rfl, Or.inl hnet⟩

theorem unique_init (net : Net) (groupCount clientCount sourceCount flowCount : ℕ) :
    Unique (Db.init net groupCount clientCount sourceCount flowCount).tables :=
  fun _ _ _ => nodup_nil

/-- A change of the groups that brings no clients: those that stay are as they were, or aged. -/
structure Thinning (G : IpVersion → GroupEntry → Option GroupEntry) : Prop where
  unique : ∀ v, KeepsUnique v (G v)
  clients : ∀ v ge ge', G v ge = some ge' → ∀ e' ∈ ge'.clientList, ∃ e ∈ ge.clientList,
    e' = e ∨ ∃ now, e' = e.aged now

theorem thinning_thinned {F : IpVersion → List ClientEntry → List ClientEntry} (hF : ∀ v l, (F v l).Sublist l) :
    Thinning (thinned F) := by
  refine ⟨keepsUnique_thinned hF, fun v ge ge' hge e he => ?_⟩
  obtain rfl := Option.some.inj hge
  exact ⟨e, (hF v ge.clientList).subset he, Or.inl rfl⟩

theorem thinning_age (now : UInt32) : Thinning fun _ => GroupEntry.ageOpt now := by
  refine ⟨keepsUnique_age, fun v ge ge' hge e' he' => ?_⟩
  unfold GroupEntry.ageOpt at hge
  split at hge
  · cases hge
  · obtain rfl := Option.some.inj hge
    obtain ⟨e, he, hage⟩ := mem_filterMap.mp he'
    obtain ⟨-, -, rfl⟩ := ageOpt_eq_some.mp hage
    exact ⟨e, he, Or.inr ⟨now, rfl⟩⟩

theorem thinning_without (v : IpVersion) : Thinning (without v) := by
  refine ⟨keepsUnique_without, fun w ge ge' hge e he => ?_⟩
  unfold without at hge
  split at hge
  · cases hge
  · obtain rfl := Option.some.inj hge
    exact ⟨e, he, Or.inl rfl⟩

theorem thinning_none : Thinning fun _ _ => none := ⟨keepsUnique_none, fun _ _ _ h => nomatch h⟩

/-- Every event but a report thins the groups of some modules. -/
theorem step_walked (e : Event) (hu : Unique db.tables) : (∃ pkt v c msg, e = .report pkt v c msg) ∨
    ∃ G is, Thinning G ∧ (∀ i ∈ is, i ∈ validModules db.net) ∧
      Walked G is db.tables (step sysTimerSec db e).tables := by
  have hsame : ∀ t, t = db.tables → ∃ G is, Thinning G ∧ (∀ i ∈ is, i ∈ validModules db.net) ∧
      Walked G is db.tables t := by
    rintro t rfl
    exact ⟨fun _ _ => none, [], thinning_none, nofun, fun _ hi => absurd hi not_mem_nil, fun _ _ _ _ => rfl⟩
  cases e with
  | report pkt v c msg => exact Or.inl ⟨pkt, v, c, msg, rfl⟩
  | tick time idle =>
    exact Or.inr ⟨_, _, thinning_age time, fun _ => id, (maintainTimerList_walked sysTimerSec idle db time hu).2⟩
  | data i first d => exact Or.inr (hsame _ (by rw [step, forwardData_tables]))
  | elapse jiffies => exact Or.inr (hsame _ rfl)
  | blackList p ifidx => exact Or.inr ⟨_, _, thinning_thinned strike_sublist, fun _ => id,
      blackListUpdateFlow_walked db hu⟩
  | lanGone ifidx del =>
    rw [step]
    rcases unregisterLanDev_tables db ifidx del with h | h
    · exact Or.inr (hsame _ h)
    · rw [h]
      exact Or.inr ⟨_, _, thinning_thinned behindOthers_sublist, fun _ => id,
        clearDataBaseByDev_walked db.net db.tables hu⟩
  | wanGone ifidx del =>
    rw [step, unregisterWanDev]
    split <;> exact Or.inr (hsame _ rfl)
  | brGone ifidx del =>
    rw [step]
    rcases unregisterBrDev_cases db ifidx del with h | ⟨i, hi, h, -⟩
    · exact Or.inr (hsame _ (by rw [h]))
    · rw [h]
      exact Or.inr ⟨_, _, thinning_none, by simpa using hi, clearModule_walked db hu⟩
  | flush brIfidx v => exact Or.inr ⟨_, _, thinning_without v, fun _ => mem_of_mem_filter,
      flushBrMdb_walked db brIfidx hu⟩

/-- No event puts a client in a group twice. -/
theorem step_unique (e : Event) (hu : Unique db.tables) : Unique (step sysTimerSec db e).tables := by
  rcases step_walked e hu with ⟨pkt, v, c, msg, rfl⟩ | ⟨G, is, hG, -, hwalked⟩
  · exact (mldProcess_touches db pkt v c msg).unique hu
  · exact hwalked.unique hG.unique hu

theorem run_unique (sysTimerSec : UInt32) (net : Net) (groupCount clientCount sourceCount flowCount : ℕ)
    (es : List Event) :
    Unique (run (step sysTimerSec) (Db.init net groupCount clientCount sourceCount flowCount) es).tables := by
  have hstep : ∀ (db : Db) e, Unique db.tables → Unique (step sysTimerSec db e).tables :=
    fun _ e hu => step_unique e hu
  exact run_always hstep es _ (unique_init net groupCount clientCount sourceCount flowCount)

end Events

end PhoebusBsp.Igmp

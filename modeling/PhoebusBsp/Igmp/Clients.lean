import PhoebusBsp.Igmp.System

/-! What holds of every client entry in every run, and the sources of a client.

    An entry is made by a report and changed by reports and by the sweep. So what new entries have and
    what the handlers and the sweep keep of an entry, all entries have at all times (`step_every`).

    The handlers search for a source before they link it, but for IS_IN and TO_IN with fast leave: there
    the old sources are deleted, and each listed one is linked as it comes. -/

namespace PhoebusBsp.Igmp
open Schemes List

/-- Every client of every group satisfies `P`. -/
def Every (P : IpVersion → ClientEntry → Prop) (t : Tables) : Prop :=
  ∀ i v g, ∀ e ∈ clientsAt t i v g, P v e

/-- New entries satisfy `P`, and entries keep it when a packet comes in at another port. -/
structure Kept (P : IpVersion → ClientEntry → Prop) (pkt : PktHdr) (v : IpVersion) : Prop where
  fresh : ∀ now c timer id, P v (ClientEntry.fresh now pkt v c timer id)
  seen : ∀ e, P v e → P v (e.seen pkt)

section Every

variable {P : IpVersion → ClientEntry → Prop} {t t' : Tables} {i : ℕ} {v : IpVersion} {g c : Ip}
  {e : ClientEntry} {pkt : PktHdr} {db : Db}

theorem Every.of_clients (h : Every P t)
    (hclients : ∀ i v g, ∀ e ∈ clientsAt t' i v g, e ∈ clientsAt t i v g) : Every P t' :=
  fun i v g e he => h i v g e (hclients i v g e he)

theorem Every.of_frame (h : Every P t) (hframe : Frame (spot i v g) t t')
    (hself : ∀ e ∈ clientsAt t' i v g, P v e) : Every P t' := by
  intro j w g' e he
  by_cases hspot : spot j w g' = spot i v g
  · obtain ⟨rfl, rfl, hg⟩ := spot_inj.mp hspot
    rw [clientsAt_congr hg] at he
    exact hself e he
  · rw [hframe.clientsAt hspot] at he
    exact h j w g' e he

theorem every_storeClient (h : Every P t) (he : P v e) : Every P (t.storeClient i v g e) := by
  refine h.of_frame frame_modifyClients fun e' he' => ?_
  rw [clientsAt_storeClient rfl] at he'
  rcases Chain.mem_update he' with he' | ⟨-, -, -, rfl⟩
  · exact h i v g e' he'
  · exact he

theorem every_deleteClientEntry (h : Every P t) : Every P (deleteClientEntry t i v g e) := by
  refine h.of_frame frame_deleteClientEntry fun e' he' => ?_
  rw [clientsAt_deleteClientEntry] at he'
  exact h i v g e' (mem_of_mem_filter he')

theorem every_dropEmptyGroup (db : Db) (h : Every P db.tables) : Every P (dropEmptyGroup db i v g).tables := by
  refine h.of_clients fun j w g' e he => ?_
  rwa [clientsAt_dropEmptyGroup] at he

theorem every_openGroup (h : Every P t) (hopen : openGroup t i v g = some t') : Every P t' := by
  refine h.of_frame (frame_openGroup hopen) fun e he => ?_
  rw [(searchGroupEntry_openGroup hopen).2] at he
  exact h i v g e he

theorem every_openClient {now timer : UInt32} (hk : Kept P pkt v) (h : Every P t)
    (hgroup : (searchGroupEntry t pkt.moduleIndex v g).isSome)
    (hopen : openClient now pkt v g c timer t = some (e, t')) : P v e ∧ Every P t' := by
  obtain ⟨-, ⟨old, hold, rfl, rfl⟩ | ⟨id, pool, -, -, rfl, rfl⟩⟩ := openClient_cases hopen
  · exact ⟨hk.seen old (h _ v g old hold), h⟩
  · have hnew := hk.fresh now c timer id
    refine ⟨hnew, h.of_frame frame_modifyClients fun e' he' => ?_⟩
    rw [clientsAt_link hgroup] at he'
    rcases mem_cons.mp he' with rfl | he'
    · exact hnew
    · exact h _ v g e' he'

end Every

/-! ### Reports -/

section Reports

variable {P : IpVersion → ClientEntry → Prop} {db : Db} {dev : DevInfo} {pkt : PktHdr} {v : IpVersion}
  {c g : Ip}

theorem finish_every (db : Db) {out : Outcome} (h : Every P db.tables) (hout : P v out.client) :
    Every P (finish db pkt v g out).2.tables := by
  have hpool : Every P (db.tables.withSources out.sourcePool out.calls) := h
  rw [finish_tables]
  exact every_storeClient hpool hout

theorem enter_every (db : Db) {timer : UInt32} {core : ClientEntry → List ℕ → Outcome} (hk : Kept P pkt v)
    (h : Every P db.tables) (hcore : ∀ e pool, P v e → P v (core e pool).client) :
    Every P (enter db pkt v c g timer core).2.tables := by
  unfold enter
  split
  · exact h
  · next t hopen =>
    have hgroup := every_openGroup h hopen
    split
    · exact hgroup
    · next e t' hclient =>
      obtain ⟨he, ht'⟩ := every_openClient hk hgroup (searchGroupEntry_openGroup hopen).1 hclient
      exact finish_every { db with tables := t' } ht' (hcore e _ he)

theorem learn_every {mcSource : Option Ip} {timer : UInt32}
    {core : DevConf → ClientEntry → List ℕ → Outcome} (hk : Kept P pkt v) (h : Every P db.tables)
    (hcore : ∀ e pool, P v e → P v (core (dev.devConf v) (e.reported pkt v) pool).client) :
    Every P (learn db dev pkt v c g mcSource timer core).2.tables := by
  have htables : (checkReport db dev pkt v c g mcSource).2.tables = db.tables := checkReport_tables
  rw [← htables] at h
  rcases learn_cases db dev pkt v c g mcSource timer core with hlearn | ⟨-, hlearn⟩
  · rw [hlearn]
    exact h
  · rw [hlearn]
    exact enter_every _ hk h hcore

theorem processJoin_every {igmpv1 : Bool} (hk : Kept P pkt v) (h : Every P db.tables)
    (hcore : ∀ now version e pool, P v e → P v (joinCore now pkt version (dev.devConf v) e pool).client) :
    Every P (processJoin db dev pkt v igmpv1 c g).2.tables := by
  have htables : (checkJoin db dev pkt v c g).2.tables = db.tables := checkJoin_tables
  rw [← htables] at h
  rcases processJoin_cases db dev pkt v igmpv1 c g with hjoin | ⟨-, hjoin⟩
  · rw [hjoin]
    exact h
  · rw [hjoin]
    exact enter_every _ hk h (hcore _ _)

theorem processLeave_every (hk : Kept P pkt v) (h : Every P db.tables)
    (hcap : ∀ last e, P v e → P v (e.cap last)) :
    Every P (processLeave db dev pkt v c g).2.tables :=
  processLeave_holds h (fun db => every_dropEmptyGroup db) fun e he _ =>
    ⟨every_deleteClientEntry h, fun last => every_storeClient h (hcap last _ (hk.seen e (h _ v g e he)))⟩

theorem processBlock_every {rec : GroupRecord} (hk : Kept P pkt v) (h : Every P db.tables)
    (hcore : ∀ now e pool, P v e → P v (block now v (dev.devConf v) rec.srcList
      { e with igmpVersion := reportVersion v } pool).client) :
    Every P (processBlock db dev pkt v c rec).2.tables := by
  have htables : (checkReport db dev pkt v c rec.groupAddr none).2.tables = db.tables := checkReport_tables
  rw [← htables] at h
  rcases processBlock_cases db dev pkt v c rec with hblock | ⟨-, ⟨-, hblock⟩ | ⟨e, he, hblock⟩⟩
  · rw [hblock]
    exact h
  · rw [hblock]
    exact h
  · rw [clientOf_eq] at he
    rw [hblock]
    exact finish_every _ h (hcore _ _ _ (hk.seen e (h _ v _ e (Chain.mem_of_search he))))

end Reports

/-! ### Events -/

section Events

variable {P : IpVersion → ClientEntry → Prop} {sysTimerSec : UInt32} {db : Db} {t t' : Tables}

theorem Walked.every {G : IpVersion → GroupEntry → Option GroupEntry} {is : List ℕ} (hw : Walked G is t t')
    (hG : ∀ v ge ge', G v ge = some ge' → (∀ e ∈ ge.clientList, P v e) → ∀ e ∈ ge'.clientList, P v e)
    (h : Every P t) : Every P t' := by
  intro i v g e he
  by_cases hi : i ∈ is
  · have hclients := h i v g
    unfold Igmp.clientsAt at he hclients
    rw [hw.done i hi] at he
    cases hsearch : searchGroupEntry t i v g with
    | none =>
      rw [hsearch] at he
      cases he
    | some ge =>
      rw [hsearch] at he hclients
      rw [Option.bind_some] at he
      cases hge : G v ge with
      | none =>
        rw [hge] at he
        cases he
      | some ge' =>
        rw [hge] at he
        exact hG v ge ge' hge hclients e he
  · rw [hw.clientsAt_same hi] at he
    exact h i v g e he

/-- What the sweep and this report keep, this event keeps. -/
theorem step_every (e : Event) (hu : Unique db.tables) (h : Every P db.tables)
    (haged : ∀ now v e, P v e → P v (e.aged now))
    (hreport : ∀ pkt v c msg, e = .report pkt v c msg → Every P (mldProcess db pkt v c msg).tables) :
    Every P (step sysTimerSec db e).tables := by
  rcases step_walked e hu with ⟨pkt, v, c, msg, rfl⟩ | ⟨G, is, hG, -, hwalked⟩
  · exact hreport pkt v c msg rfl
  · refine hwalked.every (fun v ge ge' hge hclients e' he' => ?_) h
    obtain ⟨e, he, rfl | ⟨now, rfl⟩⟩ := hG.clients v ge ge' hge e' he'
    · exact hclients e' he
    · exact haged now v e (hclients e he)

end Events

/-! ### The sources of a client -/

section Loops

variable {now filter timer : UInt32} {v : IpVersion} {a : Ip} {s : Sources} {B : List Ip}
  {c : ClientEntry} {conf : DevConf} {pool : List ℕ}

theorem walk_noRepeat {body : Ip → Sources → Turn × Sources}
    {after : ClientEntry → Sources → ClientEntry × Sources}
    (hsweep : NoRepeat v (sweep body B.length B s).2.sourceList)
    (hafter : ∀ s, NoRepeat v s.sourceList → NoRepeat v (after c s).2.sourceList) :
    NoRepeat v (walk body B c s after).client.sourceList := by
  unfold walk
  rcases hrun : sweep body B.length B s with ⟨complete, s'⟩
  rw [hrun] at hsweep
  cases complete with
  | false => exact hsweep
  | true => exact hafter s' hsweep

theorem sweep_noRepeat {body : Ip → Sources → Turn × Sources} (n : ℕ)
    (hbody : ∀ a s, NoRepeat v s.sourceList → NoRepeat v (body a s).2.sourceList)
    (hs : NoRepeat v s.sourceList) : NoRepeat v (sweep body n B s).2.sourceList :=
  sweep_keeps (P := fun s : Sources => NoRepeat v s.sourceList) (fun a _ s => hbody a s) n hs

/-- A source that is linked was not recorded. -/
theorem noRepeat_addThen {turn : Turn} (hnew : searchSourceEntry v a s.sourceList = none)
    (hs : NoRepeat v s.sourceList) : NoRepeat v (s.addThen v a timer turn).2.sourceList := by
  obtain ⟨l, pool⟩ := s
  cases pool with
  | nil => exact hs
  | cons id pool =>
    refine nodup_cons.mpr ⟨?_, hs⟩
    rw [sourceKey, addr_addr]
    exact Chain.search_eq_none.mp hnew

theorem Touched.noRepeat {x : Turn × Sources} (h : Touched v a s x) (hs : NoRepeat v s.sourceList) :
    NoRepeat v x.2.sourceList := by
  cases h with
  | changed _ hf => exact hs.modify fun e => (hf e).2
  | same _ => exact hs
  | linked _ hnew => exact noRepeat_addThen hnew hs

/-- Linking different sources that are not recorded. -/
theorem relink_noRepeat (n : ℕ) (hs : NoRepeat v s.sourceList) (hB : (B.map (addr v)).Nodup)
    (hnew : ∀ a ∈ B, searchSourceEntry v a s.sourceList = none) :
    NoRepeat v (sweep (relinkSource v timer) n B s).2.sourceList := by
  induction B generalizing n s with
  | nil => cases n <;> exact hs
  | cons a B ih =>
    rw [map_cons, nodup_cons] at hB
    have hadd : NoRepeat v (relinkSource v timer a s).2.sourceList :=
      noRepeat_addThen (hnew a mem_cons_self) hs
    cases n with
    | zero => exact hs
    | succ n =>
      obtain ⟨l, pool⟩ := s
      cases pool with
      | nil => exact hs
      | cons id pool =>
        refine ih n hadd hB.2 fun b hb => ?_
        have hne : ¬addr v (addr v a) = addr v b := by
          rw [addr_addr]
          exact fun h => hB.1 (h ▸ mem_map_of_mem hb)
        have hold : searchSourceEntry v b l = none := hnew b (mem_cons_of_mem _ hb)
        exact Chain.search_cons.trans ((if_neg hne).trans hold)

theorem fastInclude_noRepeat (hB : (B.map (addr v)).Nodup) :
    NoRepeat v (fastInclude now v conf B c pool).client.sourceList := by
  have hempty : (Sources.deleteSourceList ⟨c.sourceList, pool⟩).sourceList = [] := filter_false ..
  refine walk_noRepeat (relink_noRepeat _ ?_ hB fun a _ => ?_) fun _ h => h
  · rw [hempty]
    exact nodup_nil
  · rw [hempty]
    rfl

variable (hc : NoRepeat v c.sourceList)
include hc

theorem Looped.noRepeat {out : Outcome} (h : Looped v B c pool out) : NoRepeat v out.client.sourceList := by
  cases h with
  | mk hbody hg hl _ hrest =>
    subst hl
    refine walk_noRepeat (sweep_noRepeat _ (fun a s => (hbody a s).noRepeat) (hc.map fun e => (hg e).2)) fun s hs => ?_
    rcases hrest s with h | h
    · rwa [h]
    · rw [h]
      exact Chain.keys_filter_nodup hs

theorem coreOf_noRepeat (type : RecordType) (hB : conf.fastLeave = true → type = .isInclude ∨ type = .toInclude →
    (B.map (addr v)).Nodup) : NoRepeat v (coreOf now v conf B type c pool).client.sourceList := by
  rcases @coreOf_cases now v conf B c pool type with ⟨hfast, htype, heq⟩ | hloop
  · rw [heq]
    exact fastInclude_noRepeat (hB hfast htype)
  · exact hloop.noRepeat hc

theorem aged_noRepeat : NoRepeat v (c.aged now).sourceList :=
  NoRepeat.map (fun _ => rfl) (Chain.keys_filter_nodup hc)

end Loops

/-! ### Sources in a run -/

/-- No source of the client is recorded twice. -/
def Sober (v : IpVersion) (e : ClientEntry) : Prop := NoRepeat v e.sourceList

/-- With fast leave on the port, IS_IN and TO_IN records list no source twice. -/
def Unrepeated (db : Db) : Event → Prop
  | .report pkt v _ (.records recs) =>
    ∀ dev, devInfoOf db.net pkt.devIfindex = some dev → (dev.devConf v).fastLeave = true →
      ∀ x ∈ recs, x.1 = .isInclude ∨ x.1 = .toInclude → (x.2.srcList.map (addr v)).Nodup
  | _ => True

section Runs

variable {db : Db} {r : Reporter} {v : IpVersion}

theorem kept_sober (pkt : PktHdr) (v : IpVersion) : Kept Sober pkt v :=
  ⟨fun _ _ _ _ => nodup_nil, fun _ h => h⟩

theorem handle_sober {rec : GroupRecord} (type : RecordType)
    (hlist : (r.dev.devConf v).fastLeave = true → type = .isInclude ∨ type = .toInclude →
      (rec.srcList.map (addr v)).Nodup) (h : Every Sober db.tables) :
    Every Sober (handle r v rec db type).2.tables := by
  have hk := kept_sober r.pkt v
  have hcore : ∀ now (e : ClientEntry) pool, Sober v e →
      Sober v (coreOf now v (r.dev.devConf v) rec.srcList type e pool).client :=
    fun _ _ _ he => coreOf_noRepeat he type hlist
  cases type with
  | isInclude => exact learn_every hk h fun e => hcore _ (e.reported r.pkt v)
  | isExclude => exact learn_every hk h fun e => hcore _ (e.reported r.pkt v)
  | toInclude => exact learn_every hk h fun e => hcore _ (e.reported r.pkt v)
  | toExclude => exact learn_every hk h fun e => hcore _ (e.reported r.pkt v)
  | allow => exact learn_every hk h fun e => hcore _ (e.reported r.pkt v)
  | block => exact processBlock_every hk h fun now e => hcore now { e with igmpVersion := reportVersion v }

theorem process_sober (msg : Message)
    (hlist : ∀ recs, msg = .records recs → (r.dev.devConf v).fastLeave = true → ∀ x ∈ recs,
      x.1 = .isInclude ∨ x.1 = .toInclude → (x.2.srcList.map (addr v)).Nodup)
    (h : Every Sober db.tables) : Every Sober (process r v db msg).tables := by
  have hk := kept_sober r.pkt v
  cases msg with
  | join igmpv1 g => exact processJoin_every hk h fun _ _ _ _ _ => nodup_nil
  | leave g => exact processLeave_every hk h fun last e he => NoRepeat.map (fun _ => rfl) he
  | records recs =>
    exact List.foldlRecOn (motive := fun db : Db => Every Sober db.tables) recs _ h fun db h x hx =>
      handle_sober x.1 (fun hfast => hlist recs rfl hfast x hx) h

theorem step_sober (sysTimerSec : UInt32) (e : Event) (hu : Unique db.tables) (h : Every Sober db.tables)
    (hok : Unrepeated db e) : Every Sober (step sysTimerSec db e).tables := by
  refine step_every e hu h (fun _ _ _ => aged_noRepeat) ?_
  rintro pkt v c msg rfl
  rcases mldProcess_cases db pkt v c msg with heq | ⟨dev, hdev, -, -, heq⟩
  · rw [heq]
    exact h
  · rw [heq]
    refine process_sober msg ?_ h
    rintro recs rfl hfast
    exact hok dev hdev hfast

/-- In every run from the start in which no IS_IN or TO_IN record lists a source twice where fast leave
    is on, no client has two entries for one source. -/
theorem sources_never_repeated (sysTimerSec : UInt32) (net : Net)
    (groupCount clientCount sourceCount flowCount : ℕ) (es : List Event)
    (hlegal : Legal (step sysTimerSec) Unrepeated
      (Db.init net groupCount clientCount sourceCount flowCount) es) :
    let t := (run (step sysTimerSec) (Db.init net groupCount clientCount sourceCount flowCount) es).tables
    ∀ i v g, ∀ e ∈ clientsAt t i v g, (e.sourceList.map (sourceKey v)).Nodup := by
  have hstep : ∀ (db : Db) e, Unique db.tables ∧ Every Sober db.tables → Unrepeated db e →
      Unique (step sysTimerSec db e).tables ∧ Every Sober (step sysTimerSec db e).tables :=
    fun db e h hok => ⟨step_unique e h.1, step_sober sysTimerSec e h.1 h.2 hok⟩
  exact (run_invariant hstep es _ ⟨unique_init net groupCount clientCount sourceCount flowCount,
    fun _ _ _ _ he => nomatch he⟩ hlegal).2

/-- The bridge of the samples at the start, with fast leave on its port. -/
def sampleStart : Db := Db.init (sampleNet true) 4 4 8 4

/-- A report of the sample host with one record. -/
def sampleEvent (type : RecordType) (srcList : List Ip) : Event :=
  .report samplePkt .v4 (host 9) (.records [(type, sampleRec srcList)])

/-- IS_IN of two sources, then an ALLOW that lists a source twice, a sweep and a BLOCK. -/
theorem sources_never_repeated_sample :
    let es := [sampleEvent .isInclude [host 1, host 2], sampleEvent .allow [host 3, host 3],
      .tick 10 fun _ => false, sampleEvent .block [host 1, host 1]]
    (∃ e ∈ clientsAt (run (step 10) sampleStart es).tables 0 .v4 (sampleRec []).groupAddr,
      e.sourceList.length = 3) ∧
    ∀ i v g, ∀ e ∈ clientsAt (run (step 10) sampleStart es).tables i v g,
      (e.sourceList.map (sourceKey v)).Nodup := by
  intro es
  have hfirst : Unrepeated sampleStart (sampleEvent .isInclude [host 1, host 2]) := by
    intro dev _ _ x hx _
    obtain rfl := mem_singleton.mp hx
    decide
  have hother : ∀ (db : Db) type srcList, type ≠ .isInclude → type ≠ .toInclude →
      Unrepeated db (sampleEvent type srcList) := by
    rintro db type srcList hne hne' dev _ _ x hx htype
    obtain rfl := mem_singleton.mp hx
    rcases htype with h | h
    · exact absurd h hne
    · exact absurd h hne'
  have hlegal : Legal (step 10) Unrepeated sampleStart es :=
    ⟨hfirst, hother _ _ _ nofun nofun, trivial, hother _ _ _ nofun nofun, trivial⟩
  exact ⟨by decide +kernel, sources_never_repeated 10 (sampleNet true) 4 4 8 4 es hlegal⟩

/-- With fast leave, an IS_IN record that lists a source twice has it recorded twice. -/
theorem isInclude_repeats_source :
    let db := run (step 10) sampleStart [sampleEvent .isInclude [host 1, host 1]]
    ∃ e ∈ clientsAt db.tables 0 .v4 (sampleRec []).groupAddr,
      ¬(e.sourceList.map (sourceKey .v4)).Nodup := by
  decide +kernel

end Runs

end PhoebusBsp.Igmp

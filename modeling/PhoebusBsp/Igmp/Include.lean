import Mathlib.Tactic.NormNum
import PhoebusBsp.Igmp.Learn

/-! IS_IN, ALLOW, TO_IN and IS_EX records do to the entry of their client what the router states of
    IGMPv3 and MLDv2 ask for.

        record       INCLUDE(A)             EXCLUDE(X, Y)
        IS_IN(B)     INCLUDE(A+B)           EXCLUDE(X+B, Y-B)
        ALLOW(B)     INCLUDE(A+B)           EXCLUDE(X+B, Y-B)
        TO_IN(B)     INCLUDE(A+B)           EXCLUDE(X+B, Y-B)     and timers capped
        IS_EX(B)     EXCLUDE(A*B, B-A)      EXCLUDE(B-Y, Y*B)

    Each loop always moves on, so it visits the whole list; the entry that results is an operation on
    timers, and reading commutes with it. -/

namespace PhoebusBsp.Igmp
open Schemes

/-! ### Loops with an ending -/

section Walk

variable {body : Ip → Sources → Turn × Sources} {v : IpVersion} {B : List Ip} {c : ClientEntry}
  {s s' : Sources} {after : ClientEntry → Sources → ClientEntry × Sources}

theorem walk_eq (h : sweep body B.length B s = (true, s')) :
    walk body B c s after =
      ⟨true, { (after c s').1 with sourceList := (after c s').2.sourceList }, (after c s').2.sourcePool,
        newSourceCalls c.id s s' ++ deleteSourceCalls c.id (s'.sourceList.filter (· ∉ (after c s').2.sourceList))⟩ := by
  unfold walk
  rw [h]

theorem walk_key (hafter : ∀ s, clientKey v (after c s).1 = clientKey v c) :
    clientKey v (walk body B c s after).client = clientKey v c := by
  unfold walk
  split
  · rfl
  · exact hafter _

end Walk

/-! ### What the four records do to the timers -/

section Cores

variable {now start : UInt32} {v : IpVersion} {conf : DevConf} {B : List Ip} {c : ClientEntry}
  {pool : List ℕ} {timer : UInt32}

/-- The record of a source after IS_IN and ALLOW: the timer is new. -/
def includeCell (timer : UInt32) (x : Option (UInt32 × Bool)) : UInt32 × Bool :=
  (timer, x.elim false Prod.snd)

/-- The record of a source after TO_IN. -/
def toIncludeCell (timer : UInt32) (_ : Option (UInt32 × Bool)) : UInt32 × Bool := (timer, false)

/-- The record of a source after IS_EX, by the filter timer before. -/
def isExcludeCell (now filter timer : UInt32) : Option (UInt32 × Bool) → UInt32 × Bool
  | none => (if now < filter then timer else now, false)
  | some (τ, _) => (if now < filter ∧ τ ≤ now then now else τ, false)

theorem includeSource_visits {a : Ip} {s : Sources} (hpool : cell v s.sourceList a = none → s.sourcePool ≠ []) :
    ∃ s', includeSource v timer a s = (.advance, s') ∧ Visited v (includeCell timer) [a] s s' := by
  obtain ⟨s', hs', hvisit⟩ := visits_search .advance .advance (f := SourceEntry.setTimer timer)
    (F := includeCell timer) (fun _ => rfl) (fun _ => rfl) rfl hpool
  rw [ite_self] at hs'
  exact ⟨s', hs', hvisit⟩

theorem toIncludeSource_visits {a : Ip} {s : Sources}
    (hpool : cell v s.sourceList a = none → s.sourcePool ≠ []) :
    ∃ s', toIncludeSource v timer a s = (.advance, s') ∧
      Visited v (toIncludeCell timer) [a] s s' := by
  obtain ⟨s', hs', hvisit⟩ := visits_search .advance .advance
    (f := fun e => (e.setTimer timer).setFlag false)
    (F := toIncludeCell timer) (fun _ => rfl) (fun _ => rfl) rfl hpool
  rw [ite_self] at hs'
  exact ⟨s', hs', hvisit⟩

theorem isExcludeSource_visits {filter : UInt32} {a : Ip} {s : Sources}
    (hpool : cell v s.sourceList a = none → s.sourcePool ≠ []) :
    ∃ s', isExcludeSource now filter v timer a s = (.advance, s') ∧
      Visited v (isExcludeCell now filter timer) [a] s s' := by
  unfold isExcludeSource
  by_cases hmode : now < filter
  · have hnew : isExcludeCell now filter timer none = (timer, false) := by
      rw [isExcludeCell, if_pos hmode]
    have hold : ∀ e : SourceEntry,
        ((if e.portTimer ≤ now then e.setTimer now else e).setFlag false).cell =
          isExcludeCell now filter timer (some e.cell) := by
      intro e
      simp only [SourceEntry.cell, isExcludeCell, hmode, true_and]
      split <;> rfl
    simp only [if_pos hmode]
    obtain ⟨s', hs', hvisit⟩ := visits_search .advance .advance (fun e => by split <;> rfl) hold hnew
      hpool
    rw [ite_self] at hs'
    exact ⟨s', hs', hvisit⟩
  · have hnew : isExcludeCell now filter timer none = (now, false) := by
      rw [isExcludeCell, if_neg hmode]
    have hold : ∀ e : SourceEntry,
        (e.setFlag false).cell = isExcludeCell now filter timer (some e.cell) := by
      intro e
      simp only [SourceEntry.cell, isExcludeCell, hmode, false_and, if_false]
      rfl
    simp only [if_neg hmode]
    obtain ⟨s', hs', hvisit⟩ := visits_search .advance .advance (f := SourceEntry.setFlag false)
      (fun _ => rfl) hold hnew hpool
    rw [ite_self] at hs'
    exact ⟨s', hs', hvisit⟩

theorem isInclude_key : clientKey v (isInclude now v conf B c pool).client = clientKey v c := by
  unfold isInclude
  split
  · exact walk_key fun _ => rfl
  · exact walk_key fun _ => rfl

theorem toInclude_key : clientKey v (toInclude now v conf B c pool).client = clientKey v c := by
  unfold toInclude
  split
  · exact walk_key fun _ => rfl
  · exact walk_key fun _ => rfl

/-- What a complete loop with the records `F` leaves of the timers of a client. -/
theorem timers_visited {F : Option (UInt32 × Bool) → UInt32 × Bool} {s s' : Sources}
    (h : Visited v F B s s') (hlist : c.sourceList = s'.sourceList) (a : Ip) :
    (timers start v (some c)).timer a =
      if a ∈ listed v B then some (F (cell v s.sourceList a)).1
      else (cell v s.sourceList a).map Prod.fst := by
  rw [timers_of_list hlist, h.cell]
  split <;> rfl

/-- What is left of the timers when the entries that a loop has not come to are deleted. -/
theorem timers_deleteMarked {F : Option (UInt32 × Bool) → UInt32 × Bool} {s' : Sources}
    {c' : ClientEntry} {keep : UInt32 → UInt32} (hF : ∀ x, (F x).2 = false)
    (hkeep : ∀ x, (F (some x)).1 = keep x.1) (hl : NoRepeat v c.sourceList)
    (h : Visited v F B (Sources.markAll ⟨c.sourceList, pool⟩) s')
    (hlist : c'.sourceList = s'.deleteMarked.sourceList) :
    timers start v (some c') =
      (timers start v (some c)).replace (listed v B) keep (F none).1 c'.groupFilterTimer := by
  ext1
  · rfl
  · funext a
    rw [Timed.timer_replace, timers_of_list hlist, h.cell_deleteMarked hF hl, timers_timer, recorded]
    by_cases ha : a ∈ listed v B
    · rw [if_pos ha, if_pos ha]
      cases cell v c.sourceList a with
      | none => rfl
      | some x => exact congrArg some (hkeep (x.1, true))
    · rw [if_neg ha, if_neg ha]
      rfl

/-- The outcome of a record: it is complete, its timers are `op` of the timers before, and no source
    is recorded twice if none was. -/
structure Gives (start : UInt32) (v : IpVersion) (c : ClientEntry) (out : Outcome)
    (op : Timed Ip UInt32 → Timed Ip UInt32) : Prop where
  complete : out.complete = true
  timers : timers start v (some out.client) = op (timers start v (some c))
  noRepeat : NoRepeat v c.sourceList → NoRepeat v out.client.sourceList

theorem gives_refresh (hroom : missing v c.sourceList B ≤ pool.length) :
    Gives start v c (walk (includeSource v timer) B c ⟨c.sourceList, pool⟩ Prod.mk)
      (Timed.refresh (listed v B) · timer) := by
  obtain ⟨s', hvisit, hrun⟩ := sweep_visits_all (s := ⟨c.sourceList, pool⟩) (fun _ => rfl) hroom
    fun a s' hpool => includeSource_visits hpool
  rw [walk_eq hrun]
  refine ⟨rfl, ?_, hvisit.noRepeat⟩
  ext1
  · rfl
  · funext a
    rw [timers_visited hvisit rfl, Timed.timer_refresh, timers_timer]
    rfl

/-- TO_IN caps all timers before its loop and the filter timer after it. -/
theorem gives_toInclude (hfast : conf.fastLeave = false)
    (hroom : missing v c.sourceList B ≤ pool.length) :
    Gives start v c (toInclude now v conf B c pool) fun t =>
      (t.cap (now + conf.lastMemberAgingInterval)).refresh (listed v B)
        (now + conf.memberAgingInterval) := by
  have hroom' : missing v (c.sourceList.map (SourceEntry.capTimer now
      (now + conf.lastMemberAgingInterval))) B ≤ pool.length :=
    (missing_map (f := SourceEntry.capTimer now _) fun _ => rfl).trans_le hroom
  obtain ⟨s', hvisit, hrun⟩ := sweep_visits_all (s := ⟨_, pool⟩) (fun _ => rfl) hroom'
    fun a s' hpool => toIncludeSource_visits hpool
  unfold toInclude
  rw [hfast, if_neg Bool.false_ne_true]
  simp only
  rw [walk_eq hrun]
  refine ⟨rfl, ?_, fun hl => hvisit.noRepeat (hl.map fun _ => rfl)⟩
  ext1
  · rfl
  · funext a
    rw [timers_visited hvisit rfl, Timed.timer_refresh, Timed.timer_cap, timers_timer, cell_capTimer,
      Option.map_map, Option.map_map]
    rfl

/-- The filter timer before decides what IS_EX does with the timers it keeps and makes. -/
def isExcludeTimers (now timer : UInt32) (B : Set Ip) [DecidablePred (· ∈ B)] (t : Timed Ip UInt32) :
    Timed Ip UInt32 :=
  t.replace B (fun τ => if now < t.group ∧ τ ≤ now then now else τ)
    (if now < t.group then timer else now) timer

theorem isExcludeCell_flag {filter : UInt32} (x : Option (UInt32 × Bool)) :
    (isExcludeCell now filter timer x).2 = false := by
  cases x <;> rfl

theorem isExcludeCell_idem {filter : UInt32} (htimer : now < timer) (x : Option (UInt32 × Bool)) :
    isExcludeCell now filter timer (some (isExcludeCell now filter timer x)) =
      isExcludeCell now filter timer x := by
  cases x with
  | none =>
    simp only [isExcludeCell]
    grind
  | some x =>
    simp only [isExcludeCell]
    grind

theorem gives_isExclude (hage : now < now + conf.memberAgingInterval)
    (hroom : missing v c.sourceList B ≤ pool.length) (hl : NoRepeat v c.sourceList) :
    Gives start v c (isExclude now v conf B c pool)
      (isExcludeTimers now (now + conf.memberAgingInterval) (listed v B)) := by
  have hroom' : missing v (Sources.markAll ⟨c.sourceList, pool⟩).sourceList B ≤ pool.length :=
    (missing_map (f := SourceEntry.setFlag true) fun _ => rfl).trans_le hroom
  obtain ⟨s', hvisit, hrun⟩ := sweep_visits_all (s := Sources.markAll ⟨c.sourceList, pool⟩)
    (isExcludeCell_idem hage) hroom' fun a s' hpool => isExcludeSource_visits hpool
  have hl' : NoRepeat v s'.sourceList := hvisit.noRepeat (hl.map fun _ => rfl)
  unfold isExclude
  rw [walk_eq hrun]
  exact ⟨rfl, timers_deleteMarked isExcludeCell_flag (fun _ => rfl) hl hvisit rfl,
    fun _ => Chain.keys_filter_nodup hl'⟩

end Cores

/-! ### The records -/

section Records

variable {db : Db} {dev : DevInfo} {pkt : PktHdr} {v : IpVersion} {c : Ip} {rec : GroupRecord}

/-- A record has been learnt: the filter of the client went through `f` and its timers through `op`,
    and still no source is recorded twice. -/
structure Takes (db : Db) (r : Nf × Db) (pkt : PktHdr) (v : IpVersion) (g c : Ip) (start : UInt32)
    (f : SourceFilter Ip → SourceFilter Ip) (op : Timed Ip UInt32 → Timed Ip UInt32) : Prop where
  verdict : r.1 = .cont
  reading : reading db.clock.now v (entryOf r.2 pkt v g c) =
    f (reading db.clock.now v (entryOf db pkt v g c))
  timers : timers start v (entryOf r.2 pkt v g c) = op (timers start v (entryOf db pkt v g c))
  noRepeat : NoRepeat v (recorded (entryOf r.2 pkt v g c))

/-- The ageing times are positive, and the clock is not so late that adding them wraps around. -/
structure Ages (now : UInt32) (conf : DevConf) : Prop where
  member_pos : 0 < conf.memberAgingInterval
  last_pos : 0 < conf.lastMemberAgingInterval
  member_fits : now.toNat + conf.memberAgingInterval.toNat < 2 ^ 32
  last_fits : now.toNat + conf.lastMemberAgingInterval.toNat < 2 ^ 32

theorem lt_add_age {now age : UInt32} (hpos : 0 < age) (hfits : now.toNat + age.toNat < 2 ^ 32) :
    now < now + age := by
  rw [UInt32.lt_iff_toNat_lt] at hpos ⊢
  rw [UInt32.toNat_add, Nat.mod_eq_of_lt hfits]
  exact Nat.lt_add_of_pos_right hpos

/-- A handler whose loop does `op` to the timers takes the filter through what `op` stands for. -/
theorem learn_takes {mcSource : Option Ip} {start : UInt32}
    {core : DevConf → ClientEntry → List ℕ → Outcome} {f : SourceFilter Ip → SourceFilter Ip}
    {op : Timed Ip UInt32 → Timed Ip UInt32} (hresv : reserved db.net v rec.groupAddr = false)
    (hpass : Passes db dev pkt v c rec.groupAddr mcSource) (hroom : Room db pkt v c rec)
    (hl : NoRepeat v (recorded (entryOf db pkt v rec.groupAddr c))) (hstart : start ≤ db.clock.now)
    (hkey : ∀ conf e pool, clientKey v (core conf e pool).client = clientKey v e)
    (hcore : ∀ e : ClientEntry, missing v e.sourceList rec.srcList ≤ db.tables.sourcePool.length →
      NoRepeat v e.sourceList → Gives start v e (core (dev.devConf v) e db.tables.sourcePool) op)
    (hread : ∀ t, (op t).read db.clock.now = f (t.read db.clock.now)) :
    Takes db (learn db dev pkt v c rec.groupAddr mcSource start core) pkt v rec.groupAddr c start f
      op := by
  obtain ⟨e, htimers, hlist, hverdict, hentry⟩ := learn_entry start core hresv hpass hroom hkey
  have hgives := hcore e (hlist ▸ hroom.source) (hlist ▸ hl)
  have hl' : NoRepeat v (recorded (some (core (dev.devConf v) e db.tables.sourcePool).client)) :=
    hgives.noRepeat (hlist ▸ hl)
  refine ⟨?_, ?_, ?_, ?_⟩
  · rw [hverdict, hgives.complete, if_pos rfl]
  · rw [hentry, reading_eq_read _ hstart hl', hgives.timers, hread, htimers, reading_eq_read _ hstart hl]
  · rw [hentry, hgives.timers, htimers]
  · rw [hentry]
    exact hl'

theorem read_isExcludeTimers {now timer : UInt32} {B : Set Ip} [DecidablePred (· ∈ B)]
    (htimer : now < timer) (t : Timed Ip UInt32) :
    (isExcludeTimers now timer B t).read now = (t.read now).exclude B := by
  refine Timed.read_replace htimer ?_ ?_
  · intro τ
    grind
  · grind

/-- For a group that is not reserved, IS_IN, ALLOW, TO_IN and IS_EX take the entry of the client to
    the router state that the record asks for. -/
theorem include_and_isExclude_take (hresv : reserved db.net v rec.groupAddr = false)
    (hfast : (dev.devConf v).fastLeave = false) (hages : Ages db.clock.now (dev.devConf v))
    (hl : NoRepeat v (recorded (entryOf db pkt v rec.groupAddr c)))
    (hroom : Room db pkt v c rec) :
    let now := db.clock.now
    let member := now + (dev.devConf v).memberAgingInterval
    let last := now + (dev.devConf v).lastMemberAgingInterval
    let B := listed v rec.srcList
    (Passes db dev pkt v c rec.groupAddr (singleSource rec.srcList) →
      Takes db (processIsInclude db dev pkt v c rec) pkt v rec.groupAddr c now (.allow B)
        (Timed.refresh B · member) ∧
      Takes db (processAllow db dev pkt v c rec) pkt v rec.groupAddr c now (.allow B)
        (Timed.refresh B · member) ∧
      Takes db (processToInclude db dev pkt v c rec) pkt v rec.groupAddr c 0 (.allow B)
        (fun t => (t.cap last).refresh B member)) ∧
    (Passes db dev pkt v c rec.groupAddr none →
      Takes db (processIsExclude db dev pkt v c rec) pkt v rec.groupAddr c 0 (.exclude B)
        (isExcludeTimers now member B)) := by
  intro now member last B
  have hmember : now < member := lt_add_age hages.member_pos hages.member_fits
  have hlast : now < last := lt_add_age hages.last_pos hages.last_fits
  have hnow : now ≤ now := UInt32.le_refl now
  have hzero : 0 ≤ now := UInt32.zero_le
  refine ⟨fun hpass => ⟨?_, ?_, ?_⟩, fun hpass => ?_⟩
  · refine learn_takes hresv hpass hroom hl hnow (fun _ _ _ => isInclude_key) ?_
      fun t => Timed.read_refresh hmember
    intro e hmiss _
    rw [isInclude, hfast, if_neg Bool.false_ne_true]
    exact gives_refresh hmiss
  · refine learn_takes hresv hpass hroom hl hnow (fun _ _ _ => walk_key fun _ => rfl) ?_
      fun t => Timed.read_refresh hmember
    exact fun e hmiss _ => gives_refresh hmiss
  · refine learn_takes hresv hpass hroom hl hzero (fun _ _ _ => toInclude_key) ?_ ?_
    · exact fun e hmiss _ => gives_toInclude hfast hmiss
    · intro t
      rw [Timed.read_refresh hmember, Timed.read_cap hlast]
  · refine learn_takes hresv hpass hroom hl hzero (fun _ _ _ => walk_key fun _ => rfl) ?_ ?_
    · exact fun e hmiss hle => gives_isExclude hmember hmiss hle
    · exact read_isExcludeTimers hmember

end Records

/-! ### A bridge with one port -/

/-- A port that cares for sources and ages members after 260 seconds, or 10 after the last. -/
def samplePort (fastLeave : Bool) : DevInfo where
  ifindex := 5
  wlan := false
  devConf _ := ⟨false, false, fastLeave, true, 260, 10, 0, 0, false, [], ⟨0, 0, 0⟩⟩
  devStatistic _ := ⟨0, 0⟩

/-- A bridge with the port and no limits. IGMPv3 reports go to 224.0.0.22, which is reserved. -/
def sampleNet (fastLeave : Bool) : Net where
  maxBrModuleNum := 1
  maxDevNum := 8
  rateLimitCycle := 100
  lanDevInfo := [samplePort fastLeave]
  wanDevInfo := []
  brInfo _ := ⟨true, 1, [5], 0, fun _ => ⟨0, 0, 0, 0, false⟩, 0, 0, fun _ => ⟨0, 0⟩⟩
  resvGroups := [⟨⟨.v4, ⟨0xe0000016, 0, 0, 0⟩, ⟨0, 0, 0, 0⟩⟩, false⟩]
  groupWeights := []
  whiteList := []
  unknownFlood := false
  trapWlanToPS := false
  userGroup _ _ := false
  flowSetCb := false

/-- Nothing has been learnt at 100 seconds after the start. -/
def sampleDb (fastLeave : Bool) : Db :=
  ⟨⟨100, 0⟩, .init 4 4 8, sampleNet fastLeave, ⟨fun _ _ => [], List.range 4, []⟩⟩

def samplePkt : PktHdr := ⟨5, 0, 0x1, ⟨false, 0⟩, none, none⟩

/-- 10.0.0.n. -/
def host (n : UInt32) : Ip := ⟨0x0a000000 + n, 0, 0, 0⟩

/-- A record for 239.1.1.1. -/
def sampleRec (srcList : List Ip) : GroupRecord := ⟨⟨0xef010101, 0, 0, 0⟩, srcList⟩

/-- The client blocks one source and wants another: EXCLUDE({2}, {1}). -/
def sampleExclude (fastLeave : Bool) : Db :=
  let db := (processIsExclude (sampleDb fastLeave) (samplePort fastLeave) samplePkt .v4 (host 9)
    (sampleRec [host 1])).2
  (processAllow db (samplePort fastLeave) samplePkt .v4 (host 9) (sampleRec [host 2])).2

/-- With a repeated, a blocked and a new source in one record. -/
theorem include_and_isExclude_take_sample :
    let record := sampleRec [host 1, host 3, host 3]
    let B := listed .v4 record.srcList
    Passes (sampleExclude false) (samplePort false) samplePkt .v4 (host 9) record.groupAddr none ∧
    Takes (sampleExclude false)
      (processIsInclude (sampleExclude false) (samplePort false) samplePkt .v4 (host 9) record)
      samplePkt .v4 record.groupAddr (host 9) 100 (.allow B) (Timed.refresh B · 360) ∧
    Takes (sampleExclude false)
      (processIsExclude (sampleExclude false) (samplePort false) samplePkt .v4 (host 9) record)
      samplePkt .v4 record.groupAddr (host 9) 0 (.exclude B) (isExcludeTimers 100 360 B) := by
  intro record B
  have hpass : Passes (sampleExclude false) (samplePort false) samplePkt .v4 (host 9) record.groupAddr
      none := ⟨by decide +kernel, by decide +kernel⟩
  have htake := @include_and_isExclude_take (sampleExclude false) (samplePort false) samplePkt .v4
    (host 9) record (by decide +kernel) (by decide +kernel)
    ⟨by decide +kernel, by decide +kernel, by decide +kernel, by decide +kernel⟩ (by decide +kernel)
    ⟨by decide +kernel, by decide +kernel, by decide +kernel⟩
  exact ⟨hpass, (htake.1 hpass).1, htake.2 hpass⟩

/-- The sample database at the last second before the clock wraps around. -/
def sampleLate : Db := { sampleDb false with clock := ⟨0xffffffff, 0⟩ }

/-- At the end of the clock's range no timer runs. -/
theorem reading_late {v : IpVersion} (o : Option ClientEntry) : reading 0xffffffff v o = .incl ∅ := by
  have hlate : ∀ τ : UInt32, ¬0xffffffff < τ := by
    intro τ hτ
    have hfits := τ.toNat_lt
    rw [UInt32.lt_iff_toNat_lt] at hτ
    exact absurd hfits (Nat.not_lt.mpr hτ)
  cases o with
  | none => rfl
  | some e => simp [reading, ClientEntry.running, hlate]

theorem incl_empty_ne_allow {B : Set Ip} {a : Ip} (ha : a ∈ B) :
    SourceFilter.incl ∅ ≠ (SourceFilter.incl ∅).allow B := by
  intro h
  have hset : (∅ : Set Ip) = ∅ ∪ B := SourceFilter.incl.inj h
  rw [Set.empty_union] at hset
  rw [← hset] at ha
  exact ha

/-- A record for a reserved group is accepted and not learnt, and at the end of the clock's range the
    timer of a learnt source has run out at once, though the record passes all the checks and the
    pools have room. -/
theorem isInclude_reserved_or_late :
    (let record : GroupRecord := ⟨⟨0xe0000016, 0, 0, 0⟩, [host 1]⟩
      let after := processIsInclude (sampleDb false) (samplePort false) samplePkt .v4 (host 9) record
      Ages 100 ((samplePort false).devConf .v4) ∧
      Passes (sampleDb false) (samplePort false) samplePkt .v4 (host 9) record.groupAddr
        (singleSource record.srcList) ∧
      Room (sampleDb false) samplePkt .v4 (host 9) record ∧
      NoRepeat .v4 (recorded (entryOf (sampleDb false) samplePkt .v4 record.groupAddr (host 9))) ∧
      reading 100 .v4 (entryOf after.2 samplePkt .v4 record.groupAddr (host 9)) ≠
        (reading 100 .v4 (entryOf (sampleDb false) samplePkt .v4 record.groupAddr (host 9))).allow
          (listed .v4 record.srcList)) ∧
    (let record := sampleRec [host 1]
      let after := processIsInclude sampleLate (samplePort false) samplePkt .v4 (host 9) record
      reserved sampleLate.net .v4 record.groupAddr = false ∧
      Passes sampleLate (samplePort false) samplePkt .v4 (host 9) record.groupAddr
        (singleSource record.srcList) ∧
      Room sampleLate samplePkt .v4 (host 9) record ∧
      NoRepeat .v4 (recorded (entryOf sampleLate samplePkt .v4 record.groupAddr (host 9))) ∧
      reading 0xffffffff .v4 (entryOf after.2 samplePkt .v4 record.groupAddr (host 9)) ≠
        (reading 0xffffffff .v4 (entryOf sampleLate samplePkt .v4 record.groupAddr (host 9))).allow
          (listed .v4 record.srcList)) := by
  constructor
  · intro record after
    refine ⟨⟨by decide, by decide, by decide, by decide⟩, ⟨by decide +kernel, by decide +kernel⟩,
      ⟨by decide +kernel, by decide +kernel, by decide +kernel⟩, by decide +kernel, ?_⟩
    have hafter : entryOf after.2 samplePkt .v4 record.groupAddr (host 9) = none := by
      decide +kernel
    have hbefore : entryOf (sampleDb false) samplePkt .v4 record.groupAddr (host 9) = none := by
      decide +kernel
    rw [hafter, hbefore]
    exact incl_empty_ne_allow (mem_listed_of_mem List.mem_cons_self)
  · intro record after
    refine ⟨by decide +kernel, ⟨by decide +kernel, by decide +kernel⟩,
      ⟨by decide +kernel, by decide +kernel, by decide +kernel⟩, by decide +kernel, ?_⟩
    rw [reading_late, reading_late]
    exact incl_empty_ne_allow (mem_listed_of_mem List.mem_cons_self)

end PhoebusBsp.Igmp

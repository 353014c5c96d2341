import PhoebusBsp.Igmp.Block

/-! What a BLOCK record asks for, and when the handler does it.

        mode       fast leave   asked for                        done when
        EXCLUDE    off          EXCLUDE(X+(B-Y), Y)              new sources only at the stall
        EXCLUDE    on           X*B moves to Y, B is recorded    the turns suffice
        INCLUDE    off          INCLUDE(A)                       always
        INCLUDE    on           INCLUDE(A-B)                     running sources only at the stall -/

namespace PhoebusBsp.Igmp
open Schemes List

/-- What a BLOCK record asks for. -/
structure BlockAsked (now : UInt32) (fastLeave : Bool) (v : IpVersion) (B : Set Ip)
    (before after : Option ClientEntry) : Prop where
  /-- Without fast leave the filter is the one of the router states, -/
  off : fastLeave = false → reading now v after = (reading now v before).block B
  /-- and a source that is new in EXCLUDE mode gets the group timer. -/
  fresh : fastLeave = false → now < (timers 0 v before).group → ∀ a ∈ B,
    (timers 0 v before).timer a = none →
      (timers 0 v after).timer a = some (timers 0 v before).group
  /-- With fast leave the listed sources leave an INCLUDE filter; -/
  onInclude : fastLeave = true → ∀ A, reading now v before = .incl A →
    reading now v after = .incl (A \ B)
  /-- in an EXCLUDE filter those of `X` move to `Y`, all are recorded, and the others stay. -/
  onExclude : fastLeave = true → ∀ X Y, reading now v before = .excl X Y →
    ∃ X' Y', reading now v after = .excl X' Y' ∧ (∀ a ∈ X ∩ B, a ∈ Y' ∧ a ∉ X') ∧
      (∀ a ∈ B, a ∈ X' ∪ Y') ∧ ∀ a, a ∉ B → (a ∈ X' ↔ a ∈ X) ∧ (a ∈ Y' ↔ a ∈ Y)

section Asked

variable {now : UInt32} {v : IpVersion} {R S : Set Ip} [DecidablePred (· ∈ R)]
  {o o' : Option ClientEntry}

theorem read_of_group {t : Timed Ip UInt32} (h : now < t.group) :
    t.read now = .excl (t.running now) (t.stopped now) := if_pos h

theorem read_of_not_group {t : Timed Ip UInt32} (h : ¬now < t.group) :
    t.read now = .incl (t.running now) := if_neg h

/-- Entering some of the listed sources is what the record asks for in EXCLUDE mode without fast leave
    when no other listed source is new. -/
theorem blockAsked_enter_iff (hl : NoRepeat v (recorded o)) (hl' : NoRepeat v (recorded o'))
    (hmode : now < (timers 0 v o).group) (hRS : ∀ a ∈ R, a ∈ S)
    (htimers : timers 0 v o' = (timers 0 v o).enter R (timers 0 v o).group) :
    BlockAsked now false v S o o' ↔ ∀ a ∈ S, (timers 0 v o).timer a = none → a ∈ R := by
  constructor
  · intro h a ha hnone
    by_contra hR
    have hfresh := h.fresh rfl hmode a ha hnone
    rw [htimers, Timed.timer_enter, if_neg hR, hnone] at hfresh
    cases hfresh
  · intro h
    classical
    -- the listed sources that were not entered had been recorded
    have hall : (timers 0 v o).enter R (timers 0 v o).group =
        (timers 0 v o).enter S (timers 0 v o).group := by
      ext1
      · rfl
      · funext a
        rw [Timed.timer_enter, Timed.timer_enter]
        by_cases hR : a ∈ R
        · rw [if_pos hR, if_pos (hRS a hR)]
        · rw [if_neg hR]
          split
          · next hS =>
            obtain ⟨τ, hτ⟩ := Option.ne_none_iff_exists'.mp fun hnone => hR (h a hS hnone)
            rw [hτ, Option.getD_some]
          · rfl
    refine ⟨fun _ => ?_, fun _ _ a ha hnone => ?_, nofun, nofun⟩
    · rw [reading_eq_read now UInt32.zero_le hl', reading_eq_read now UInt32.zero_le hl, htimers,
        hall, Timed.read_enter hmode]
    · rw [htimers, Timed.timer_enter, if_pos (h a ha hnone), hnone, Option.getD_none]

/-- In INCLUDE mode without fast leave the record asks for nothing. -/
theorem blockAsked_same (hl : NoRepeat v (recorded o)) (hl' : NoRepeat v (recorded o'))
    (hmode : ¬now < (timers 0 v o).group) (htimers : timers 0 v o' = timers 0 v o) :
    BlockAsked now false v S o o' := by
  refine ⟨fun _ => ?_, fun _ h => absurd h hmode, nofun, nofun⟩
  rw [reading_eq_read now UInt32.zero_le hl', reading_eq_read now UInt32.zero_le hl, htimers,
    read_of_not_group hmode]
  rfl

/-- Expiring some of the listed sources is what the record asks for in INCLUDE mode with fast leave
    when no other listed source runs. -/
theorem blockAsked_expire_iff (hl : NoRepeat v (recorded o)) (hl' : NoRepeat v (recorded o'))
    (hmode : ¬now < (timers 0 v o).group) (hRS : ∀ a ∈ R, a ∈ S)
    (htimers : timers 0 v o' = (timers 0 v o).expire R now) :
    BlockAsked now true v S o o' ↔ ∀ a ∈ S, a ∈ (timers 0 v o).running now → a ∈ R := by
  have hread : reading now v o = .incl ((timers 0 v o).running now) := by
    rw [reading_eq_read now UInt32.zero_le hl, read_of_not_group hmode]
  have hread' : reading now v o' = .incl ((timers 0 v o).running now \ R) := by
    rw [reading_eq_read now UInt32.zero_le hl', htimers,
      Timed.read_expire hmode (UInt32.lt_irrefl now)]
  constructor
  · intro h a ha hrun
    by_contra hR
    have hsets := SourceFilter.incl.inj (hread'.symm.trans (h.onInclude rfl _ hread))
    have hmem : a ∈ (timers 0 v o).running now \ S := hsets ▸ ⟨hrun, hR⟩
    exact hmem.2 ha
  · intro h
    refine ⟨nofun, nofun, fun _ A hA => ?_, fun _ X Y hXY => ?_⟩
    · obtain rfl := SourceFilter.incl.inj (hread.symm.trans hA)
      rw [hread']
      congr 1
      ext a
      exact ⟨fun ⟨hrun, hR⟩ => ⟨hrun, fun hS => hR (h a hS hrun)⟩,
        fun ⟨hrun, hS⟩ => ⟨hrun, fun hR => hS (hRS a hR)⟩⟩
    · cases hread.symm.trans hXY

omit [DecidablePred (· ∈ R)] in
/-- Recording some of the listed sources, and expiring those among them that were recorded, is what
    the record asks for in EXCLUDE mode with fast leave when the others have run out. -/
theorem blockAsked_fast_iff (hl : NoRepeat v (recorded o)) (hl' : NoRepeat v (recorded o'))
    (hmode : now < (timers 0 v o).group) (hgroup : (timers 0 v o').group = (timers 0 v o).group)
    (hRS : ∀ a ∈ R, a ∈ S)
    (hin : ∀ a ∈ R, (timers 0 v o').timer a ≠ none ∧
      ((timers 0 v o).timer a ≠ none → a ∈ (timers 0 v o').stopped now))
    (hout : ∀ a, a ∉ R → (timers 0 v o').timer a = (timers 0 v o).timer a) :
    BlockAsked now true v S o o' ↔ ∀ a ∈ S, a ∉ (timers 0 v o).stopped now → a ∈ R := by
  have hread : reading now v o =
      .excl ((timers 0 v o).running now) ((timers 0 v o).stopped now) := by
    rw [reading_eq_read now UInt32.zero_le hl, read_of_group hmode]
  have hread' : reading now v o' =
      .excl ((timers 0 v o').running now) ((timers 0 v o').stopped now) := by
    rw [reading_eq_read now UInt32.zero_le hl', read_of_group (hgroup ▸ hmode)]
  constructor
  · intro h a ha hstop
    by_contra hR
    obtain ⟨X', Y', hXY', hmoved, hrecorded, -⟩ := h.onExclude rfl _ _ hread
    obtain ⟨rfl, rfl⟩ := SourceFilter.excl.inj (hread'.symm.trans hXY')
    have hsame := hout a hR
    rcases hrecorded a ha with ⟨τ, hτ, hrun⟩ | ⟨τ, hτ, hrun⟩
    · have hX : a ∈ (timers 0 v o).running now := ⟨τ, hsame ▸ hτ, hrun⟩
      exact (hmoved a ⟨hX, ha⟩).2 ⟨τ, hτ, hrun⟩
    · exact hstop ⟨τ, hsame ▸ hτ, hrun⟩
  · intro h
    refine ⟨nofun, nofun, fun _ A hA => ?_, fun _ X Y hXY => ?_⟩
    · cases hread.symm.trans hA
    · obtain ⟨rfl, rfl⟩ := SourceFilter.excl.inj (hread.symm.trans hXY)
      refine ⟨_, _, hread', ?_, ?_, ?_⟩
      · rintro a ⟨⟨τ, hτ, hrun⟩, hS⟩
        have hR : a ∈ R := h a hS fun ⟨τ', hτ', hstop⟩ =>
          hstop (Option.mem_unique hτ hτ' ▸ hrun)
        obtain ⟨τ', hτ', hstop⟩ := (hin a hR).2 (by rw [Option.mem_def.mp hτ]; nofun)
        exact ⟨⟨τ', hτ', hstop⟩, fun ⟨τ'', hτ'', hrun''⟩ =>
          hstop (Option.mem_unique hτ'' hτ' ▸ hrun'')⟩
      · intro a hS
        by_cases hR : a ∈ R
        · obtain ⟨τ, hτ⟩ := Option.ne_none_iff_exists'.mp (hin a hR).1
          by_cases hrun : now < τ
          · exact .inl ⟨τ, hτ, hrun⟩
          · exact .inr ⟨τ, hτ, hrun⟩
        · obtain ⟨τ, hτ, hstop⟩ := not_not.mp fun hstop => hR (h a hS hstop)
          exact .inr ⟨τ, (hout a hR).trans hτ, hstop⟩
      · intro a hS
        have hsame := hout a fun hR => hS (hRS a hR)
        simp [Timed.running, Timed.stopped, hsame]

end Asked

section Record

variable {db : Db} {dev : DevInfo} {pkt : PktHdr} {v : IpVersion} {c : Ip} {rec : GroupRecord}
  {e : ClientEntry} {start : UInt32} {o : Option ClientEntry}

/-- The condition under which a BLOCK record does what it asks for, by mode and fast leave. For a
    reserved group the record is ignored, which is right when there was nothing to do. -/
def BlockHolds (db : Db) (dev : DevInfo) (pkt : PktHdr) (v : IpVersion) (c : Ip)
    (rec : GroupRecord) : Prop :=
  let now := db.clock.now
  let B := rec.srcList
  let before := entryOf db pkt v rec.groupAddr c
  let t := timers 0 v before
  match (dev.devConf v).fastLeave, decide (now < t.group), reserved db.net v rec.groupAddr with
  | false, false, _ => True
  | false, true, true => ∀ b ∈ B, t.timer b ≠ none
  -- every new source is listed behind sources that have run out
  | false, true, false => ∀ b ∈ B, t.timer b = none → ∃ part b' rest, B = part ++ b' :: rest ∧
      addr v b' = addr v b ∧ ∀ x ∈ part, x ∈ t.stopped now
  | true, false, true => ∀ b ∈ B, b ∉ t.running now
  -- every running source is listed behind new sources
  | true, false, false => ∀ b ∈ B, b ∈ t.running now → ∃ part b' rest, B = part ++ b' :: rest ∧
      addr v b' = addr v b ∧ ∀ x ∈ part, t.timer x = none
  | true, true, true => ∀ b ∈ B, b ∈ t.stopped now
  -- the turns suffice to come to every source that is running or new
  | true, true, false => ∀ part b rest, B = part ++ b :: rest → b ∉ listed v part →
      b ∉ t.stopped now → part.length + missing v (recorded before) part < B.length

/-! Addresses that compare equal are one source. -/

theorem timers_congr {a b : Ip} (h : addr v a = addr v b) :
    (timers start v o).timer a = (timers start v o).timer b := by
  rw [timers_timer, timers_timer, cell_congr h]

theorem timer_none_congr {a b : Ip} (h : addr v a = addr v b) :
    (timers start v o).timer a = none ↔ (timers start v o).timer b = none := by
  rw [timers_congr h]

theorem mem_stopped_congr {now : UInt32} {a b : Ip} (h : addr v a = addr v b) :
    a ∈ (timers start v o).stopped now ↔ b ∈ (timers start v o).stopped now := by
  rw [mem_stopped, mem_stopped, timers_congr h]

theorem mem_running_congr {now : UInt32} {a b : Ip} (h : addr v a = addr v b) :
    a ∈ (timers start v o).running now ↔ b ∈ (timers start v o).running now := by
  show (∃ τ ∈ (timers start v o).timer a, now < τ) ↔ ∃ τ ∈ (timers start v o).timer b, now < τ
  rw [timers_congr h]

theorem enter_nil {t : Timed Ip UInt32} {τ : UInt32} : t.enter (listed v []) τ = t := by
  ext1
  · rfl
  · funext a
    rw [Timed.timer_enter, if_neg not_mem_listed_nil]

theorem expire_nil {t : Timed Ip UInt32} {τ : UInt32} : t.expire (listed v []) τ = t := by
  ext1
  · rfl
  · funext a
    rw [Timed.timer_expire, if_neg not_mem_listed_nil]

/-- A record that is ignored does what it asks for when there was nothing to do. -/
theorem block_ignored_iff {now : UInt32} {fastLeave : Bool} {B : List Ip} (hl : NoRepeat v (recorded o)) :
    BlockAsked now fastLeave v (listed v B) o o ↔
      match fastLeave, decide (now < (timers 0 v o).group) with
      | false, false => True
      | false, true => ∀ b ∈ B, (timers 0 v o).timer b ≠ none
      | true, false => ∀ b ∈ B, b ∉ (timers 0 v o).running now
      | true, true => ∀ b ∈ B, b ∈ (timers 0 v o).stopped now := by
  by_cases hmode : now < (timers 0 v o).group
  · rw [decide_eq_true hmode]
    cases fastLeave with
    | false =>
      rw [blockAsked_enter_iff (R := listed v []) hl hl hmode
          (fun _ h => absurd h not_mem_listed_nil) enter_nil.symm,
        forall_listed fun a b h => imp_congr (timer_none_congr h) (mem_listed_congr h)]
      simp [not_mem_listed_nil]
    | true =>
      rw [blockAsked_fast_iff (R := ∅) hl hl hmode rfl (fun _ h => h.elim) (fun _ h => h.elim)
        fun _ _ => rfl]
      simp only [Set.mem_empty_iff_false, imp_false, not_not]
      exact forall_listed fun a b h => mem_stopped_congr h
  · rw [decide_eq_false hmode]
    cases fastLeave with
    | false => exact iff_of_true (blockAsked_same hl hl hmode rfl) trivial
    | true =>
      rw [blockAsked_expire_iff (R := listed v []) hl hl hmode
          (fun _ h => absurd h not_mem_listed_nil) expire_nil.symm,
        forall_listed fun a b h => imp_congr (mem_running_congr h) (mem_listed_congr h)]
      simp [not_mem_listed_nil]

/-- The handler stores what the loop makes of the entry. -/
theorem processBlock_entry (hresv : reserved db.net v rec.groupAddr = false)
    (hpass : Passes db dev pkt v c rec.groupAddr none)
    (he : entryOf db pkt v rec.groupAddr c = some e) :
    ∃ e' : ClientEntry, timers 0 v (some e') = timers 0 v (some e) ∧ e'.sourceList = e.sourceList ∧
      entryOf (processBlock db dev pkt v c rec).2 pkt v rec.groupAddr c =
        some (block db.clock.now v (dev.devConf v) rec.srcList e' db.tables.sourcePool).client := by
  obtain ⟨net, hcheck⟩ := checkReport_passes hresv hpass
  obtain ⟨ge, -, hsearch⟩ := Option.bind_eq_some_iff.mp he
  have hkey : clientKey v e = (addr v c, pkt.smac) := Chain.key_of_search hsearch
  have he' : clientOf db.tables pkt.moduleIndex v rec.groupAddr c pkt.smac = some e := he
  refine ⟨{ e.seen pkt with igmpVersion := reportVersion v }, rfl, rfl, ?_⟩
  unfold processBlock
  simp only [hcheck, he']
  refine finish_entry ?_ ((walk_key fun _ => rfl).trans hkey)
  show (clientOf db.tables pkt.moduleIndex v rec.groupAddr c pkt.smac).isSome
  rw [he']
  rfl

/-- EXCLUDE mode with fast leave: the turns must suffice to come to every listed source that is not in
    `Y`. -/
theorem blockedFast_iff {now : UInt32} {B : List Ip} {c c' : ClientEntry}
    (h : BlockedFast now 0 v B c c') (hmode : now < (timers 0 v o).group)
    (hl : NoRepeat v (recorded o)) (ho : timers 0 v (some c) = timers 0 v o)
    (hlist : c.sourceList = recorded o) : BlockAsked now true v (listed v B) o (some c') ↔
      ∀ part b rest, B = part ++ b :: rest → b ∉ listed v part →
        b ∉ (timers 0 v o).stopped now → part.length + missing v (recorded o) part < B.length := by
  obtain ⟨hgroup, hrepeat, hothers, hreached, hunreached⟩ := h
  have hgroup : (timers 0 v (some c')).group = (timers 0 v (some c)).group := hgroup
  have hrepeat : NoRepeat v c.sourceList → NoRepeat v (recorded (some c')) := hrepeat
  rw [ho] at hothers hreached hunreached hgroup
  rw [hlist] at hreached hunreached hrepeat
  -- the sources that the loop comes to
  let R : Set Ip := {a | ∃ part b rest, B = part ++ b :: rest ∧ addr v b = addr v a ∧
    b ∉ listed v part ∧ part.length + missing v (recorded o) part < B.length}
  have hRS : ∀ a ∈ R, a ∈ listed v B := by
    rintro a ⟨part, b, rest, rfl, hba, -⟩
    exact mem_listed.mpr ⟨b, mem_append_right _ mem_cons_self, hba⟩
  have hin : ∀ a ∈ R, (timers 0 v (some c')).timer a ≠ none ∧
      ((timers 0 v o).timer a ≠ none → a ∈ (timers 0 v (some c')).stopped now) := by
    rintro a ⟨part, b, rest, hB, hba, hb, hn⟩
    obtain ⟨hsome, hstop⟩ := hreached part b rest hB hb hn
    rw [← timers_congr hba, ← timers_congr hba, ← mem_stopped_congr hba]
    exact ⟨hsome, hstop⟩
  have hout : ∀ a, a ∉ R → (timers 0 v (some c')).timer a = (timers 0 v o).timer a := by
    intro a ha
    by_cases hB : a ∈ listed v B
    · obtain ⟨part, b, rest, hsplit, hba, hb⟩ := exists_first hB
      rw [← timers_congr hba, ← timers_congr hba]
      exact hunreached part b rest hsplit hb (not_lt.mp fun hn => ha ⟨part, b, rest, hsplit, hba, hb, hn⟩)
    · exact hothers a hB
  rw [blockAsked_fast_iff hl (hrepeat hl) hmode hgroup hRS hin hout]
  constructor
  · intro hall part b rest hB hb hstop
    obtain ⟨part', b', rest', hB', hbb, hb', hn⟩ :=
      hall b (hB ▸ mem_listed_of_mem (mem_append_right _ mem_cons_self)) hstop
    rw [first_unique (hB.symm.trans hB') hb hb' hbb.symm]
    exact hn
  · intro hall a ha hstop
    obtain ⟨part, b, rest, hB, hba, hb⟩ := exists_first ha
    exact ⟨part, b, rest, hB, hba, hb, hall part b rest hB hb (mt (mem_stopped_congr hba).mp hstop)⟩

/-- The handler does what the record asks for exactly under the condition. -/
theorem block_asked_iff (he : entryOf db pkt v rec.groupAddr c = some e)
    (hpass : Passes db dev pkt v c rec.groupAddr none)
    (hroom : missing v e.sourceList rec.srcList ≤ db.tables.sourcePool.length)
    (hl : NoRepeat v e.sourceList) :
    BlockAsked db.clock.now (dev.devConf v).fastLeave v (listed v rec.srcList)
      (entryOf db pkt v rec.groupAddr c)
      (entryOf (processBlock db dev pkt v c rec).2 pkt v rec.groupAddr c) ↔
    BlockHolds db dev pkt v c rec := by
  unfold BlockHolds
  simp only
  cases hresv : reserved db.net v rec.groupAddr with
  | true =>
    have hsame : (processBlock db dev pkt v c rec).2 = db := by
      unfold processBlock
      rw [checkReport_reserved hresv]
    rw [hsame, he, block_ignored_iff hl]
    cases (dev.devConf v).fastLeave <;> cases decide (db.clock.now < (timers 0 v (some e)).group) <;> rfl
  | false =>
    obtain ⟨e', htimers, hlist, hentry⟩ := processBlock_entry hresv hpass he
    rw [hentry, he]
    rw [← hlist] at hroom
    have hle' : NoRepeat v e'.sourceList := hlist ▸ hl
    by_cases hmode : db.clock.now < (timers 0 v (some e)).group
    · have hmode' : db.clock.now < e'.groupFilterTimer := by rwa [← htimers] at hmode
      rw [decide_eq_true hmode]
      cases hfast : (dev.devConf v).fastLeave with
      | false =>
        obtain ⟨reached, hreached, hgives⟩ := block_exclude_gives 0 hfast hmode' hroom
        rw [htimers] at hreached
        rw [blockAsked_enter_iff hl (hgives.noRepeat hle') hmode
            (fun _ => listed_reached_subset hreached) (htimers ▸ hgives.timers),
          forall_listed fun a b h => imp_congr (timer_none_congr h) (mem_listed_congr h)]
        simp only [mem_listed_reached hreached]
      | true =>
        obtain ⟨-, hblocked⟩ := block_exclude_fast 0 hfast hmode' hroom
        exact blockedFast_iff hblocked hmode hl htimers hlist
    · have hmode' : ¬db.clock.now < e'.groupFilterTimer := by rwa [← htimers] at hmode
      rw [decide_eq_false hmode]
      cases hfast : (dev.devConf v).fastLeave with
      | false =>
        have hgives := block_include_gives 0 v rec.srcList db.tables.sourcePool hfast hmode'
        exact iff_of_true (blockAsked_same hl (hgives.noRepeat hle') hmode
          (hgives.timers.trans htimers)) trivial
      | true =>
        obtain ⟨reached, hreached, hgives⟩ := block_include_fast_gives 0 hfast hmode'
        rw [htimers] at hreached
        rw [blockAsked_expire_iff hl (hgives.noRepeat hle') hmode
            (fun _ => listed_reached_subset hreached) (htimers ▸ hgives.timers),
          forall_listed fun a b h => imp_congr (mem_running_congr h) (mem_listed_congr h)]
        simp only [mem_listed_reached hreached]

end Record

/-- A blocked source and behind it a new one, without fast leave. -/
theorem block_asked_blocked_new :
    let record := sampleRec [host 1, host 3]
    let before := entryOf (sampleExclude false) samplePkt .v4 record.groupAddr (host 9)
    before.isSome ∧
    Passes (sampleExclude false) (samplePort false) samplePkt .v4 (host 9) record.groupAddr none ∧
    BlockAsked 100 false .v4 (listed .v4 record.srcList) before
      (entryOf (processBlock (sampleExclude false) (samplePort false) samplePkt .v4 (host 9) record).2
        samplePkt .v4 record.groupAddr (host 9)) := by
  intro record before
  have hsome : before.isSome := by decide +kernel
  have hpass : Passes (sampleExclude false) (samplePort false) samplePkt .v4 (host 9)
      record.groupAddr none := ⟨by decide +kernel, by decide +kernel⟩
  have hroom : missing .v4 (recorded before) record.srcList ≤
      (sampleExclude false).tables.sourcePool.length := by decide +kernel
  have hl : NoRepeat .v4 (recorded before) := by decide +kernel
  have hmode : decide ((sampleExclude false).clock.now < (timers 0 .v4 before).group) = true := by
    decide +kernel
  have hresv : reserved (sampleExclude false).net .v4 record.groupAddr = false := by decide +kernel
  have hfast : ((samplePort false).devConf .v4).fastLeave = false := rfl
  refine ⟨hsome, hpass, ?_⟩
  obtain ⟨e, he⟩ := Option.isSome_iff_exists.mp hsome
  rw [he] at hroom hl
  refine (block_asked_iff he hpass hroom hl).mpr ?_
  simp only [BlockHolds, hfast, hresv, show decide ((sampleExclude false).clock.now < (timers 0 .v4
    (entryOf (sampleExclude false) samplePkt .v4 record.groupAddr (host 9))).group) = true from hmode]
  refine forall_mem_cons.mpr ⟨fun _ => ?_, forall_mem_singleton.mpr fun _ => ?_⟩
  · exact ⟨[], host 1, [host 3], rfl, rfl, nofun⟩
  · exact ⟨[host 1], host 3, [], rfl, rfl,
      forall_mem_singleton.mpr ⟨100, by decide +kernel, by decide⟩⟩

/-- The client wants two sources: INCLUDE({1, 2}). -/
def sampleInclude (fastLeave : Bool) : Db :=
  (processAllow (sampleDb fastLeave) (samplePort fastLeave) samplePkt .v4 (host 9)
    (sampleRec [host 1, host 2])).2

/-- The client leaves both sources, with fast leave: the second goes on. -/
theorem block_misses_second :
    let record := sampleRec [host 1, host 2]
    let before := entryOf (sampleInclude true) samplePkt .v4 record.groupAddr (host 9)
    before.isSome ∧
    Passes (sampleInclude true) (samplePort true) samplePkt .v4 (host 9) record.groupAddr none ∧
    missing .v4 (recorded before) record.srcList ≤ (sampleInclude true).tables.sourcePool.length ∧
    NoRepeat .v4 (recorded before) ∧
    ¬BlockAsked 100 true .v4 (listed .v4 record.srcList) before
      (entryOf (processBlock (sampleInclude true) (samplePort true) samplePkt .v4 (host 9) record).2
        samplePkt .v4 record.groupAddr (host 9)) := by
  intro record before
  have hl : NoRepeat .v4 (recorded before) := by decide +kernel
  refine ⟨by decide +kernel, ⟨by decide +kernel, by decide +kernel⟩, by decide +kernel, hl,
    fun h => ?_⟩
  have hbefore : reading 100 .v4 before = .incl ((timers 0 .v4 before).running 100) := by
    rw [reading_eq_read 100 UInt32.zero_le hl, read_of_not_group (by decide +kernel)]
  have hafter := h.onInclude rfl _ hbefore
  rw [reading_eq_read 100 UInt32.zero_le (by decide +kernel), read_of_not_group (by decide +kernel)]
    at hafter
  have hruns : host 2 ∈ (timers 0 .v4 (entryOf (processBlock (sampleInclude true) (samplePort true)
      samplePkt .v4 (host 9) record).2 samplePkt .v4 record.groupAddr (host 9))).running 100 :=
    ⟨360, by decide +kernel, by decide⟩
  rw [SourceFilter.incl.inj hafter] at hruns
  exact hruns.2 (mem_listed_of_mem (mem_cons_of_mem _ mem_cons_self))

end PhoebusBsp.Igmp

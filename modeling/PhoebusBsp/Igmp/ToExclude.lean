import PhoebusBsp.Igmp.Include

/-! TO_EX records. The loop moves on only from a source of `Y`, in EXCLUDE mode, and from a new source,
    in INCLUDE mode; at any other source it stays for the rest of its turns:

        EXCLUDE(X, Y)     y y y x . . .        INCLUDE(A)     n n n r . . .
                                ▲                                   ▲
                          first one outside Y              first one recorded by now

    What is listed behind is deleted or never linked, so the record does what it should exactly when
    nothing else is listed there. -/

namespace PhoebusBsp.Igmp
open Schemes List

/-! ### The loop -/

section Core

variable {now start filter : UInt32} {v : IpVersion} {conf : DevConf} {B : List Ip} {c : ClientEntry}
  {pool : List ℕ}

/-- The record of a source that the loop has reached. -/
def toExcludeCell (now filter : UInt32) : Option (UInt32 × Bool) → UInt32 × Bool
  | none => (if now < filter then filter else now, false)
  | some (τ, _) => (τ, false)

/-- The loop moves on from a source, given the record it found of it. -/
def toExcludeMoves (now filter : UInt32) (x : Option (UInt32 × Bool)) : Prop :=
  if now < filter then ∃ y ∈ x, ¬now < y.1 else x = none

theorem toExcludeCell_idem (x : Option (UInt32 × Bool)) :
    toExcludeCell now filter (some (toExcludeCell now filter x)) = toExcludeCell now filter x := by
  cases x <;> rfl

theorem toExcludeCell_flag (x : Option (UInt32 × Bool)) : (toExcludeCell now filter x).2 = false := by
  cases x <;> rfl

/-- One turn visits the source at hand, and moves on or stays. -/
theorem toExcludeSource_visits {a : Ip} {s : Sources}
    (hpool : cell v s.sourceList a = none → s.sourcePool ≠ []) :
    ∃ s', Visited v (toExcludeCell now filter) [a] s s' ∧
      (toExcludeMoves now filter (cell v s.sourceList a) →
        toExcludeSource now filter v a s = (.advance, s')) ∧
      (¬toExcludeMoves now filter (cell v s.sourceList a) →
        toExcludeSource now filter v a s = (.stay, s')) := by
  unfold toExcludeSource toExcludeMoves
  cases hsearch : searchSourceEntry v a s.sourceList with
  | none =>
    have hnone : cell v s.sourceList a = none := by rw [cell, hsearch, Option.map_none]
    simp only [hnone]
    by_cases hmode : now < filter
    · have hF : toExcludeCell now filter none = (filter, false) := by rw [toExcludeCell, if_pos hmode]
      obtain ⟨s', hs', hvisit⟩ := visited_addThen .stay hF hnone (hpool hnone)
      simp only [if_pos hmode]
      exact ⟨s', hvisit, fun h => by simp at h, fun _ => hs'⟩
    · have hF : toExcludeCell now filter none = (now, false) := by rw [toExcludeCell, if_neg hmode]
      obtain ⟨s', hs', hvisit⟩ := visited_addThen .advance hF hnone (hpool hnone)
      simp only [if_neg hmode]
      exact ⟨s', hvisit, fun _ => hs', fun h => absurd trivial h⟩
  | some e =>
    have hsome : cell v s.sourceList a = some e.cell := by rw [cell, hsearch, Option.map_some]
    have hvisit : Visited v (toExcludeCell now filter) [a] s (s.modify v a (.setFlag false)) :=
      visited_modify (fun _ => rfl) (fun _ => rfl) (hsome ▸ Option.some_ne_none _)
    refine ⟨_, hvisit, ?_⟩
    simp only [hsome]
    by_cases hmode : now < filter
    · simp only [if_pos hmode, Option.mem_def, Option.some.injEq, exists_eq_left', SourceEntry.cell]
      constructor
      · exact fun hstop => if_neg hstop
      · exact fun hrun => if_pos (not_not.mp hrun)
    · simp only [if_neg hmode]
      exact ⟨fun h => (by cases h), fun _ => trivial⟩

/-- A source at which the loop stays is one to stay at afterwards. -/
theorem toExcludeMoves_cell {x : Option (UInt32 × Bool)} (h : ¬toExcludeMoves now filter x) :
    ¬toExcludeMoves now filter (some (toExcludeCell now filter x)) := by
  unfold toExcludeMoves at h ⊢
  by_cases hmode : now < filter
  · rw [if_pos hmode] at h ⊢
    cases x with
    | none => simp [toExcludeCell, hmode]
    | some x => simpa [toExcludeCell] using h
  · rw [if_neg hmode]
    nofun

/-- Where the loop stays, it has nothing more to do. -/
theorem toExcludeSource_again {a : Ip} {s : Sources} {x : UInt32 × Bool}
    (hcell : cell v s.sourceList a = some x) (hflag : x.2 = false)
    (hstay : ¬toExcludeMoves now filter (cell v s.sourceList a)) :
    toExcludeSource now filter v a s = (.stay, s) := by
  obtain ⟨e, hsearch, he⟩ := Option.map_eq_some_iff.mp hcell
  have hkeep : s.modify v a (.setFlag false) = s := by
    refine modify_eq_self hcell fun e he => ?_
    rw [← hflag, ← he]
    rfl
  rw [hcell, toExcludeMoves] at hstay
  unfold toExcludeSource
  simp only [hsearch, hkeep]
  by_cases hmode : now < filter
  · rw [if_pos hmode] at hstay ⊢
    have hrun : now < e.portTimer := by
      by_contra hstop
      exact hstay ⟨x, rfl, he ▸ hstop⟩
    rw [if_pos hrun]
  · rw [if_neg hmode]

/-- The loop moves on from a source, by the timers of the client and the sources it has passed. -/
def ToExcludeMoves (now : UInt32) (v : IpVersion) (t : Timed Ip UInt32) (done : List Ip) (a : Ip) :
    Prop :=
  if now < t.group then a ∈ t.stopped now else t.timer a = none ∧ a ∉ listed v done

theorem mem_stopped {t : Timed Ip UInt32} {a : Ip} :
    a ∈ t.stopped now ↔ ∃ τ ∈ t.timer a, ¬now < τ := Iff.rfl

theorem toExcludeMoves_iff {done : List Ip} {a : Ip} {s' : Sources}
    (h : Visited v (toExcludeCell now c.groupFilterTimer) done
      (Sources.markAll ⟨c.sourceList, pool⟩) s') :
    toExcludeMoves now c.groupFilterTimer (cell v s'.sourceList a) ↔
      ToExcludeMoves now v (timers start v (some c)) done a := by
  unfold toExcludeMoves ToExcludeMoves
  rw [mem_stopped, timers_group_some, timers_timer, recorded, h.cell, cell_markAll]
  simp only
  by_cases hmode : now < c.groupFilterTimer
  · simp only [if_pos hmode]
    by_cases ha : a ∈ listed v done <;> cases cell v c.sourceList a <;>
      simp [ha, hmode, toExcludeCell]
  · simp only [if_neg hmode]
    by_cases ha : a ∈ listed v done <;> simp [ha]

/-- The loop visits the sources that have only sources to move on from before them. -/
theorem toExclude_reaches (now start : UInt32) (hroom : missing v c.sourceList B ≤ pool.length) :
    ∃ reached s', (∀ b, b ∈ reached ↔ ∃ done rest, B = done ++ b :: rest ∧
        Passed (ToExcludeMoves now v (timers start v (some c))) done) ∧
      Visited v (toExcludeCell now c.groupFilterTimer) reached
        (Sources.markAll ⟨c.sourceList, pool⟩) s' ∧
      sweep (toExcludeSource now c.groupFilterTimer v) B.length B
        (Sources.markAll ⟨c.sourceList, pool⟩) = (true, s') := by
  have hroom' : missing v (Sources.markAll ⟨c.sourceList, pool⟩).sourceList B ≤ pool.length :=
    (missing_map (f := SourceEntry.setFlag true) fun _ => rfl).trans_le hroom
  refine sweep_reaches Visited.nil ?_ ?_
  · intro done a rest s₁ hB hdone hQ
    obtain ⟨s₂, hvisit, hmove, -⟩ := toExcludeSource_visits fun hnew =>
      hdone.pool_ne_nil (hB ▸ hroom') hnew
    exact ⟨s₂, hmove ((toExcludeMoves_iff hdone).mpr hQ), hdone.append toExcludeCell_idem hvisit⟩
  · intro done a rest s₁ hB hdone hQ
    obtain ⟨s₂, hvisit, -, hstay⟩ := toExcludeSource_visits fun hnew =>
      hdone.pool_ne_nil (hB ▸ hroom') hnew
    have hnot := fun h => hQ ((toExcludeMoves_iff hdone).mp h)
    have hcell := hvisit.cell a
    rw [if_pos (mem_listed_singleton.mpr rfl)] at hcell
    refine ⟨s₂, hstay hnot, ?_, hdone.append toExcludeCell_idem hvisit⟩
    exact toExcludeSource_again hcell (toExcludeCell_flag _) (hcell ▸ toExcludeMoves_cell hnot)

/-- The record replaces the recorded sources by those the loop has reached. -/
theorem toExclude_gives (now start : UInt32) (conf : DevConf)
    (hroom : missing v c.sourceList B ≤ pool.length)
    (hl : NoRepeat v c.sourceList) :
    ∃ reached, (∀ b, b ∈ reached ↔ ∃ done rest, B = done ++ b :: rest ∧
        Passed (ToExcludeMoves now v (timers start v (some c))) done) ∧
      Gives start v c (toExclude now v conf B c pool) fun t =>
        t.replace (listed v reached) id (if now < t.group then t.group else now)
          (now + conf.memberAgingInterval) := by
  obtain ⟨reached, s', hreached, hvisit, hrun⟩ := toExclude_reaches now start hroom
  have hl' : NoRepeat v s'.sourceList := hvisit.noRepeat (hl.map fun _ => rfl)
  refine ⟨reached, hreached, ?_⟩
  unfold toExclude
  rw [walk_eq hrun]
  exact ⟨rfl, timers_deleteMarked toExcludeCell_flag (fun _ => rfl) hl hvisit rfl,
    fun _ => Chain.keys_filter_nodup hl'⟩

end Core

/-! ### The record -/

section Record

variable {now : UInt32} {v : IpVersion} {B : List Ip}

/-- What a TO_EX record asks for: the filter is the one of the router states, a source that is new in
    EXCLUDE mode gets the old group timer, what is not listed is deleted, what is kept keeps its timer,
    and the group timer starts at `member`. -/
structure ToExcludeAsked (now member : UInt32) (v : IpVersion) (B : Set Ip)
    (before after : Option ClientEntry) : Prop where
  reading : reading now v after = (reading now v before).exclude B
  fresh : now < (timers 0 v before).group → ∀ a ∈ B, (timers 0 v before).timer a = none →
    (timers 0 v after).timer a = some (timers 0 v before).group
  deleted : ∀ a, a ∉ B → (timers 0 v after).timer a = none
  kept : ∀ a ∈ B, ∀ τ ∈ (timers 0 v before).timer a, (timers 0 v after).timer a = some τ
  group : (timers 0 v after).group = member

/-- The loop gets past a part of the list: in EXCLUDE mode all of it has run out, in INCLUDE mode all
    of it is new and different. -/
def ToExcludePasses (now : UInt32) (v : IpVersion) (t : Timed Ip UInt32) (part : List Ip) : Prop :=
  if now < t.group then ∀ x ∈ part, x ∈ t.stopped now
  else (∀ x ∈ part, t.timer x = none) ∧ (part.map (addr v)).Nodup

theorem passed_toExcludeMoves {t : Timed Ip UInt32} {part : List Ip} :
    Passed (ToExcludeMoves now v t) part ↔ ToExcludePasses now v t part := by
  unfold ToExcludePasses
  by_cases hmode : now < t.group
  · rw [if_pos hmode]
    constructor
    · intro h x hx
      obtain ⟨done, rest, hpart⟩ := append_of_mem hx
      have hmove := h done x rest hpart
      rwa [ToExcludeMoves, if_pos hmode] at hmove
    · intro h done x rest hpart
      rw [ToExcludeMoves, if_pos hmode]
      exact h x (hpart ▸ mem_append_right _ mem_cons_self)
  · rw [if_neg hmode]
    constructor
    · intro h
      constructor
      · intro x hx
        obtain ⟨done, rest, hpart⟩ := append_of_mem hx
        have hmove := h done x rest hpart
        rw [ToExcludeMoves, if_neg hmode] at hmove
        exact hmove.1
      · induction part using List.reverseRecOn with
        | nil => exact nodup_nil
        | append_singleton part a ih =>
          have hmove := h part a [] rfl
          rw [ToExcludeMoves, if_neg hmode] at hmove
          rw [map_append, map_singleton]
          rw [← concat_eq_append]
          exact (ih h.left).concat hmove.2
    · rintro ⟨hnew, hdiff⟩ done x rest rfl
      rw [ToExcludeMoves, if_neg hmode]
      refine ⟨hnew x (mem_append_right _ mem_cons_self), ?_⟩
      rw [map_append, map_cons, nodup_middle, nodup_cons] at hdiff
      exact fun hx => hdiff.1 (mem_append_left _ hx)

/-- The condition under which a TO_EX record does what it asks for. For a reserved group the record is
    ignored, so the entry must have been so before; else the group timer must come to run, and every
    listed source must be listed behind sources that the loop gets past. -/
def ToExcludeHolds (db : Db) (dev : DevInfo) (pkt : PktHdr) (v : IpVersion) (c : Ip)
    (rec : GroupRecord) : Prop :=
  let now := db.clock.now
  let member := now + (dev.devConf v).memberAgingInterval
  let t := timers 0 v (entryOf db pkt v rec.groupAddr c)
  if reserved db.net v rec.groupAddr then
    now < member ∧ t.group = member ∧ ∀ a, a ∈ listed v rec.srcList ↔ t.timer a ≠ none
  else
    now < member ∧ ∀ b ∈ rec.srcList, ∃ part b' rest, rec.srcList = part ++ b' :: rest ∧
      addr v b' = addr v b ∧ ToExcludePasses now v t part

variable {db : Db} {dev : DevInfo} {pkt : PktHdr} {c : Ip} {rec : GroupRecord}

/-- The handler, in terms of the sources that the loop reaches. -/
theorem processToExclude_entry (hresv : reserved db.net v rec.groupAddr = false)
    (hpass : Passes db dev pkt v c rec.groupAddr none) (hroom : Room db pkt v c rec)
    (hl : NoRepeat v (recorded (entryOf db pkt v rec.groupAddr c))) :
    ∃ reached e, (∀ b, b ∈ reached ↔ ∃ part rest, rec.srcList = part ++ b :: rest ∧
        ToExcludePasses db.clock.now v (timers 0 v (entryOf db pkt v rec.groupAddr c)) part) ∧
      entryOf (processToExclude db dev pkt v c rec).2 pkt v rec.groupAddr c = some e ∧
      NoRepeat v (recorded (some e)) ∧
      timers 0 v (some e) =
        let t := timers 0 v (entryOf db pkt v rec.groupAddr c)
        t.replace (listed v reached) id (if db.clock.now < t.group then t.group else db.clock.now)
          (db.clock.now + (dev.devConf v).memberAgingInterval) := by
  obtain ⟨e, htimers, hlist, -, hentry⟩ := learn_entry 0
    (fun conf => toExclude db.clock.now v conf rec.srcList) hresv hpass hroom
    fun _ _ _ => walk_key fun _ => rfl
  obtain ⟨reached, hreached, hgives⟩ := toExclude_gives db.clock.now 0 (dev.devConf v)
    (hlist ▸ hroom.source) (hlist ▸ hl)
  refine ⟨reached, _, fun b => ?_, hentry, hgives.noRepeat (hlist ▸ hl), ?_⟩
  · rw [hreached, htimers]
    simp only [passed_toExcludeMoves]
  · rw [hgives.timers, htimers]

/-- An entry that stays as it is is what the record asks for when it is one of EXCLUDE mode with the
    listed sources and the group timer just started. -/
theorem asked_self_iff {member : UInt32} {S : Set Ip} [DecidablePred (· ∈ S)]
    {o : Option ClientEntry} (hl : NoRepeat v (recorded o)) :
    ToExcludeAsked now member v S o o ↔ now < member ∧ (timers 0 v o).group = member ∧
      ∀ a, a ∈ S ↔ (timers 0 v o).timer a ≠ none := by
  have hread : reading now v o = (timers 0 v o).read now := reading_eq_read now UInt32.zero_le hl
  constructor
  · intro h
    have hasked := h.reading
    rw [hread] at hasked
    obtain ⟨hmode, hrecorded⟩ := Timed.recorded_of_read_exclude hasked
    refine ⟨h.group ▸ hmode, h.group, fun a => ⟨hrecorded a, fun ha => ?_⟩⟩
    by_contra hS
    exact ha (h.deleted a hS)
  · rintro ⟨hmember, hgroup, hS⟩
    have hmode : now < (timers 0 v o).group := hgroup ▸ hmember
    have hsame : (timers 0 v o).replace S id (timers 0 v o).group (timers 0 v o).group =
        timers 0 v o := by
      ext1
      · rfl
      · funext a
        rw [Timed.timer_replace]
        cases hta : (timers 0 v o).timer a with
        | none => rw [if_neg fun ha => (hS a).mp ha hta]
        | some τ => rw [if_pos ((hS a).mpr (by rw [hta]; nofun))]; rfl
    have hexclude : ((timers 0 v o).replace S id (timers 0 v o).group (timers 0 v o).group).read now =
        ((timers 0 v o).read now).exclude S :=
      Timed.read_replace hmode (fun _ => Iff.rfl) Iff.rfl
    rw [hsame] at hexclude
    refine ⟨by rw [hread, ← hexclude], fun _ a ha hnone => absurd hnone ((hS a).mp ha), ?_,
      fun _ _ _ hτ => hτ, hgroup⟩
    intro a ha
    by_contra hnone
    exact ha ((hS a).mpr hnone)

/-- Replacing the recorded sources by some of the listed ones is what the record asks for when those
    are all. -/
theorem asked_replace_iff {member : UInt32} {R S : Set Ip} [DecidablePred (· ∈ R)]
    {o o' : Option ClientEntry} (hl : NoRepeat v (recorded o))
    (hl' : NoRepeat v (recorded o')) (hRS : ∀ a ∈ R, a ∈ S)
    (htimers : timers 0 v o' = (timers 0 v o).replace R id
      (if now < (timers 0 v o).group then (timers 0 v o).group else now) member) :
    ToExcludeAsked now member v S o o' ↔ now < member ∧ ∀ a ∈ S, a ∈ R := by
  have hread : reading now v o = (timers 0 v o).read now := reading_eq_read now UInt32.zero_le hl
  have hread' : reading now v o' = (timers 0 v o').read now :=
    reading_eq_read now UInt32.zero_le hl'
  have hgroup : (timers 0 v o').group = member := by rw [htimers]; rfl
  constructor
  · intro h
    have hasked := h.reading
    rw [hread'] at hasked
    obtain ⟨hmode, hrecorded⟩ := Timed.recorded_of_read_exclude hasked
    refine ⟨hgroup ▸ hmode, fun a ha => ?_⟩
    by_contra hR
    refine hrecorded a ha ?_
    rw [htimers, Timed.timer_replace, if_neg hR]
  · rintro ⟨hmember, hSR⟩
    obtain rfl : R = S := Set.ext fun a => ⟨hRS a, hSR a⟩
    refine ⟨?_, ?_, ?_, ?_, hgroup⟩
    · rw [hread', hread, htimers]
      refine Timed.read_replace hmember (fun _ => Iff.rfl) ?_
      split
      · rfl
      · next hmode => exact iff_of_false (UInt32.lt_irrefl now) hmode
    · intro hmode a ha hnone
      rw [htimers, Timed.timer_replace, if_pos ha, hnone, if_pos hmode]
      rfl
    · intro a ha
      rw [htimers, Timed.timer_replace, if_neg ha]
    · intro a ha τ hτ
      rw [htimers, Timed.timer_replace, if_pos ha, Option.mem_def.mp hτ]
      rfl

/-- The record does what it asks for exactly under the condition. -/
theorem toExclude_asked_iff (hpass : Passes db dev pkt v c rec.groupAddr none)
    (hroom : Room db pkt v c rec)
    (hl : NoRepeat v (recorded (entryOf db pkt v rec.groupAddr c))) :
    ToExcludeAsked db.clock.now (db.clock.now + (dev.devConf v).memberAgingInterval) v
      (listed v rec.srcList) (entryOf db pkt v rec.groupAddr c)
      (entryOf (processToExclude db dev pkt v c rec).2 pkt v rec.groupAddr c) ↔
    ToExcludeHolds db dev pkt v c rec := by
  unfold ToExcludeHolds
  cases hresv : reserved db.net v rec.groupAddr with
  | true =>
    have hsame : (processToExclude db dev pkt v c rec).2 = db := by
      unfold processToExclude learn
      rw [checkReport_reserved hresv]
    rw [hsame, asked_self_iff hl]
    rfl
  | false =>
    obtain ⟨reached, e, hreached, hentry, hle, htimers⟩ :=
      processToExclude_entry hresv hpass hroom hl
    rw [hentry, asked_replace_iff hl hle (fun _ => listed_reached_subset hreached) htimers,
      forall_listed fun a b h => mem_listed_congr h]
    simp [mem_listed_reached hreached]

end Record

/-- A blocked source and behind it a new one. -/
theorem toExclude_asked_blocked_new :
    let record := sampleRec [host 1, host 3]
    Passes (sampleExclude false) (samplePort false) samplePkt .v4 (host 9) record.groupAddr none ∧
    Room (sampleExclude false) samplePkt .v4 (host 9) record ∧
    ToExcludeAsked 100 360 .v4 (listed .v4 record.srcList)
      (entryOf (sampleExclude false) samplePkt .v4 record.groupAddr (host 9))
      (entryOf (processToExclude (sampleExclude false) (samplePort false) samplePkt .v4 (host 9)
        record).2 samplePkt .v4 record.groupAddr (host 9)) := by
  intro record
  have hpass : Passes (sampleExclude false) (samplePort false) samplePkt .v4 (host 9)
      record.groupAddr none := ⟨by decide +kernel, by decide +kernel⟩
  have hroom : Room (sampleExclude false) samplePkt .v4 (host 9) record :=
    ⟨by decide +kernel, by decide +kernel, by decide +kernel⟩
  have hresv : reserved (sampleExclude false).net .v4 record.groupAddr = false := by decide +kernel
  have hmode : (sampleExclude false).clock.now <
      (timers 0 .v4 (entryOf (sampleExclude false) samplePkt .v4 record.groupAddr (host 9))).group := by
    decide +kernel
  refine ⟨hpass, hroom, (toExclude_asked_iff hpass hroom (by decide +kernel)).mpr ?_⟩
  simp only [ToExcludeHolds, ToExcludePasses, hresv, if_neg Bool.false_ne_true, if_pos hmode]
  refine ⟨by decide +kernel, forall_mem_cons.mpr ⟨?_, forall_mem_singleton.mpr ?_⟩⟩
  · exact ⟨[], host 1, [host 3], rfl, rfl, nofun⟩
  · exact ⟨[host 1], host 3, [], rfl, rfl,
      forall_mem_singleton.mpr ⟨100, by decide +kernel, by decide⟩⟩

/-- Two new sources in EXCLUDE mode: the loop stays at the first, and the second is never linked. -/
theorem toExclude_misses_second :
    let record := sampleRec [host 3, host 4]
    Passes (sampleExclude false) (samplePort false) samplePkt .v4 (host 9) record.groupAddr none ∧
    Room (sampleExclude false) samplePkt .v4 (host 9) record ∧
    NoRepeat .v4 (recorded (entryOf (sampleExclude false) samplePkt .v4 record.groupAddr (host 9))) ∧
    ¬ToExcludeAsked 100 360 .v4 (listed .v4 record.srcList)
      (entryOf (sampleExclude false) samplePkt .v4 record.groupAddr (host 9))
      (entryOf (processToExclude (sampleExclude false) (samplePort false) samplePkt .v4 (host 9)
        record).2 samplePkt .v4 record.groupAddr (host 9)) := by
  intro record
  refine ⟨⟨by decide +kernel, by decide +kernel⟩, ⟨by decide +kernel, by decide +kernel,
    by decide +kernel⟩, by decide +kernel, fun h => ?_⟩
  have hlinked := h.fresh (by decide +kernel) (host 4) (mem_cons_of_mem _ mem_cons_self)
    (by decide +kernel)
  exact absurd hlinked (by decide +kernel)

end PhoebusBsp.Igmp

import PhoebusBsp.Igmp.ToExclude

/-! BLOCK records. Four loops in one: by the mode of the client and by fast leave of its device.

        mode       fast leave   a recorded source          a new source
        EXCLUDE    off          stay, or move on if in Y   link with the group timer, stay
        EXCLUDE    on           expire and move on         link with the group timer, stay
        INCLUDE    off          stay                       move on
        INCLUDE    on           expire and stay            move on

    The first and the last stall at a source; the second needs two turns for a new source and may run
    out of turns; the third changes nothing at all. -/

namespace PhoebusBsp.Igmp
open Schemes List

section Core

variable {now start filter : UInt32} {v : IpVersion} {conf : DevConf} {B : List Ip} {c : ClientEntry}
  {pool : List ℕ} {a : Ip} {s : Sources}

theorem blockSource_search_none {fastLeave : Bool} (h : cell v s.sourceList a = none) :
    blockSource now filter fastLeave v a s =
      if now < filter then s.addThen v a filter .stay else (.advance, s) := by
  have hsearch : searchSourceEntry v a s.sourceList = none := Option.map_eq_none_iff.mp h
  unfold blockSource
  rw [hsearch]

theorem blockSource_search_some {fastLeave : Bool} {x : UInt32 × Bool}
    (h : cell v s.sourceList a = some x) :
    blockSource now filter fastLeave v a s =
      (if now < filter then if !fastLeave && now < x.1 then .stay else .advance else .stay,
        if fastLeave then s.modify v a (.setTimer now) else s) := by
  obtain ⟨e, hsearch, rfl⟩ := Option.map_eq_some_iff.mp h
  unfold blockSource
  rw [hsearch]
  cases fastLeave <;> by_cases hmode : now < filter <;> by_cases hrun : now < e.portTimer <;>
    simp [hmode, hrun, SourceEntry.cell]

/-! ### EXCLUDE mode without fast leave -/

/-- The record of a source that the loop has reached. -/
def blockCell (filter : UInt32) (x : Option (UInt32 × Bool)) : UInt32 × Bool := x.getD (filter, false)

/-- One turn visits the source at hand; it moves on from a source that has run out. -/
theorem blockSource_visits (hmode : now < filter)
    (hpool : cell v s.sourceList a = none → s.sourcePool ≠ []) :
    ∃ s', Visited v (blockCell filter) [a] s s' ∧
      ((∃ x ∈ cell v s.sourceList a, ¬now < x.1) →
        blockSource now filter false v a s = (.advance, s')) ∧
      (¬(∃ x ∈ cell v s.sourceList a, ¬now < x.1) →
        blockSource now filter false v a s = (.stay, s')) := by
  cases hcell : cell v s.sourceList a with
  | none =>
    obtain ⟨s', hs', hvisit⟩ := visited_addThen .stay (F := blockCell filter) rfl hcell (hpool hcell)
    rw [blockSource_search_none hcell, if_pos hmode]
    exact ⟨s', hvisit, nofun, fun _ => hs'⟩
  | some x =>
    refine ⟨s, visited_self hcell rfl, ?_⟩
    rw [blockSource_search_some hcell, if_pos hmode]
    simp only [Bool.not_false, Bool.true_and, decide_eq_true_eq, Bool.false_eq_true, if_false,
      Option.mem_def, Option.some.injEq, exists_eq_left', Prod.mk.injEq, and_true]
    exact ⟨fun hstop => if_neg hstop, fun hrun => if_pos (not_not.mp hrun)⟩

theorem stopped_iff_visited {done : List Ip} {s' : Sources} (hmode : now < c.groupFilterTimer)
    (h : Visited v (blockCell c.groupFilterTimer) done ⟨c.sourceList, pool⟩ s') :
    (∃ x ∈ cell v s'.sourceList a, ¬now < x.1) ↔ a ∈ (timers start v (some c)).stopped now := by
  rw [mem_stopped, timers_timer, recorded, h.cell]
  simp only
  by_cases ha : a ∈ listed v done <;> cases cell v c.sourceList a <;> simp [ha, hmode, blockCell]

/-- The loop visits the sources that have only sources of `Y` before them. -/
theorem block_exclude_reaches (start : UInt32) (hmode : now < c.groupFilterTimer)
    (hroom : missing v c.sourceList B ≤ pool.length) :
    ∃ reached s', (∀ b, b ∈ reached ↔ ∃ part rest, B = part ++ b :: rest ∧
        Passed (fun _ x => x ∈ (timers start v (some c)).stopped now) part) ∧
      Visited v (blockCell c.groupFilterTimer) reached ⟨c.sourceList, pool⟩ s' ∧
      sweep (blockSource now c.groupFilterTimer false v) B.length B ⟨c.sourceList, pool⟩ =
        (true, s') := by
  refine sweep_reaches Visited.nil ?_ ?_
  · intro done a rest s₁ hB hdone hQ
    obtain ⟨s₂, hvisit, hmove, -⟩ := blockSource_visits hmode fun hnew =>
      hdone.pool_ne_nil (hB ▸ hroom) hnew
    exact ⟨s₂, hmove ((stopped_iff_visited hmode hdone).mpr hQ), hdone.append (fun _ => rfl) hvisit⟩
  · intro done a rest s₁ hB hdone hQ
    obtain ⟨s₂, hvisit, -, hstay⟩ := blockSource_visits hmode fun hnew =>
      hdone.pool_ne_nil (hB ▸ hroom) hnew
    have hnot := fun h => hQ ((stopped_iff_visited hmode hdone).mp h)
    have hcell := hvisit.cell a
    rw [if_pos (mem_listed_singleton.mpr rfl)] at hcell
    have hrun : now < (blockCell c.groupFilterTimer (cell v s₁.sourceList a)).1 := by
      by_contra hstop
      cases hx : cell v s₁.sourceList a with
      | none => exact hstop (hx ▸ hmode)
      | some x => exact hnot ⟨x, hx, by rwa [hx] at hstop⟩
    refine ⟨s₂, hstay hnot, ?_, hdone.append (fun _ => rfl) hvisit⟩
    rw [blockSource_search_some hcell, if_pos hmode]
    simp [hrun]

/-- The record enters the sources that the loop has reached. -/
theorem block_exclude_gives (start : UInt32) (hfast : conf.fastLeave = false)
    (hmode : now < c.groupFilterTimer) (hroom : missing v c.sourceList B ≤ pool.length) :
    ∃ reached, (∀ b, b ∈ reached ↔ ∃ part rest, B = part ++ b :: rest ∧
        ∀ x ∈ part, x ∈ (timers start v (some c)).stopped now) ∧
      Gives start v c (block now v conf B c pool) fun t => t.enter (listed v reached) t.group := by
  obtain ⟨reached, s', hreached, hvisit, hrun⟩ := block_exclude_reaches start hmode hroom
  simp only [passed_iff_forall] at hreached
  refine ⟨reached, hreached, ?_⟩
  unfold block
  rw [hfast, walk_eq hrun]
  refine ⟨rfl, ?_, hvisit.noRepeat⟩
  ext1
  · rfl
  · funext a
    rw [timers_visited hvisit rfl, Timed.timer_enter, timers_timer, recorded]
    split
    · cases cell v c.sourceList a <;> rfl
    · rfl

/-! ### INCLUDE mode -/

/-- Without fast leave nothing happens. -/
theorem block_include_gives (start : UInt32) (v : IpVersion) (B : List Ip) (pool : List ℕ)
    (hfast : conf.fastLeave = false) (hmode : ¬now < c.groupFilterTimer) :
    Gives start v c (block now v conf B c pool) id := by
  have hsame : ∃ s', s' = ⟨c.sourceList, pool⟩ ∧
      sweep (blockSource now c.groupFilterTimer false v) B.length B ⟨c.sourceList, pool⟩ =
        (true, s') := by
    refine sweep_invariant ?_ B.length rfl
    rintro a - s rfl
    cases hcell : cell v c.sourceList a with
    | none => rw [blockSource_search_none hcell, if_neg hmode]; exact ⟨nofun, rfl⟩
    | some x => rw [blockSource_search_some hcell, if_neg hmode]; exact ⟨nofun, rfl⟩
  obtain ⟨s', rfl, hrun⟩ := hsame
  unfold block
  rw [hfast, walk_eq hrun]
  exact ⟨rfl, rfl, id⟩

/-- What the loop with fast leave has done after the sources `done`. -/
structure Expired (now : UInt32) (v : IpVersion) (done : List Ip) (s s' : Sources) : Prop where
  cell : ∀ b, cell v s'.sourceList b = if b ∈ listed v done
    then (cell v s.sourceList b).map fun x => (now, x.2) else cell v s.sourceList b
  noRepeat : NoRepeat v s.sourceList → NoRepeat v s'.sourceList

theorem Expired.expire {done : List Ip} {s' : Sources} (h : Expired now v done s s') :
    Expired now v (done ++ [a]) s (s'.modify v a (.setTimer now)) where
  cell b := by
    have hcell : Igmp.cell v (s'.modify v a (.setTimer now)).sourceList b = if addr v b = addr v a
        then (Igmp.cell v s'.sourceList b).map fun x => (now, x.2) else Igmp.cell v s'.sourceList b :=
      cell_update (fun _ => rfl) fun _ => rfl
    rw [hcell, h.cell]
    by_cases hb : b ∈ listed v done <;> by_cases hba : addr v b = addr v a <;>
      simp [mem_listed_append, mem_listed_singleton, hb, hba, Function.comp_def]
  noRepeat hl := (h.noRepeat hl).modify fun _ => rfl

theorem Expired.skip {done : List Ip} {s' : Sources} (h : Expired now v done s s')
    (hnew : Igmp.cell v s.sourceList a = none) : Expired now v (done ++ [a]) s s' where
  cell b := by
    rw [h.cell]
    by_cases hba : addr v b = addr v a
    · simp [cell_congr hba, hnew]
    · simp [mem_listed_append, mem_listed_singleton, hba]
  noRepeat := h.noRepeat

/-- With fast leave the loop expires the first recorded source of the list and stays there. -/
theorem block_include_reaches (v : IpVersion) (B : List Ip) (pool : List ℕ)
    (hmode : ¬now < c.groupFilterTimer) :
    ∃ reached s', (∀ b, b ∈ reached ↔ ∃ part rest, B = part ++ b :: rest ∧
        Passed (fun _ x => cell v c.sourceList x = none) part) ∧
      Expired now v reached ⟨c.sourceList, pool⟩ s' ∧
      sweep (blockSource now c.groupFilterTimer true v) B.length B ⟨c.sourceList, pool⟩ =
        (true, s') := by
  refine sweep_reaches ⟨fun b => (if_neg not_mem_nil).symm, id⟩ ?_ ?_
  · intro done a rest s₁ hB hdone hnew
    have hcell : cell v s₁.sourceList a = none := by
      rw [hdone.cell, hnew, Option.map_none, ite_self]
    refine ⟨s₁, ?_, hdone.skip hnew⟩
    rw [blockSource_search_none hcell, if_neg hmode]
  · intro done a rest s₁ hB hdone hold
    have hsome : cell v s₁.sourceList a ≠ none := by
      rw [hdone.cell]
      split
      · exact fun h => hold (Option.map_eq_none_iff.mp h)
      · exact hold
    obtain ⟨x, hx⟩ := Option.ne_none_iff_exists'.mp hsome
    have hafter : cell v (s₁.modify v a (.setTimer now)).sourceList a = some (now, x.2) := by
      have hcell : cell v (s₁.modify v a (.setTimer now)).sourceList a = if addr v a = addr v a
          then (cell v s₁.sourceList a).map fun x => (now, x.2) else cell v s₁.sourceList a :=
        cell_update (fun _ => rfl) fun _ => rfl
      rw [hcell, if_pos rfl, hx, Option.map_some]
    refine ⟨_, ?_, ?_, hdone.expire⟩
    · rw [blockSource_search_some hx, if_neg hmode, if_pos rfl]
    · rw [blockSource_search_some hafter, if_neg hmode, if_pos rfl, modify_eq_self hafter]
      intro e he
      rw [← (Prod.mk.inj he).1]
      rfl

/-- The record expires the sources that the loop has reached. -/
theorem block_include_fast_gives (start : UInt32) (hfast : conf.fastLeave = true)
    (hmode : ¬now < c.groupFilterTimer) :
    ∃ reached, (∀ b, b ∈ reached ↔ ∃ part rest, B = part ++ b :: rest ∧
        ∀ x ∈ part, (timers start v (some c)).timer x = none) ∧
      Gives start v c (block now v conf B c pool) fun t => t.expire (listed v reached) now := by
  obtain ⟨reached, s', hreached, hexp, hrun⟩ := block_include_reaches v B pool hmode
  have hnone : ∀ x, (timers start v (some c)).timer x = none ↔ cell v c.sourceList x = none := by
    intro x
    rw [timers_timer, Option.map_eq_none_iff, recorded]
  simp only [passed_iff_forall, ← hnone] at hreached
  refine ⟨reached, hreached, ?_⟩
  unfold block
  rw [hfast, walk_eq hrun]
  refine ⟨rfl, ?_, hexp.noRepeat⟩
  ext1
  · rfl
  · funext a
    rw [timers_of_list rfl, hexp.cell, Timed.timer_expire, timers_timer, recorded]
    split
    · rw [Option.map_map, Option.map_map]
      rfl
    · rfl

/-! ### EXCLUDE mode with fast leave -/

/-- The record of a source after one turn. -/
def blockFastCell (now filter : UInt32) : Option (UInt32 × Bool) → UInt32 × Bool
  | none => (filter, false)
  | some x => (now, x.2)

/-- One turn expires a recorded source and moves on, or links a new one and stays. -/
theorem blockSource_fast_visits (hmode : now < filter)
    (hpool : cell v s.sourceList a = none → s.sourcePool ≠ []) :
    ∃ s', Visited v (blockFastCell now filter) [a] s s' ∧
      blockSource now filter true v a s =
        (if cell v s.sourceList a = none then .stay else .advance, s') := by
  cases hcell : cell v s.sourceList a with
  | none =>
    obtain ⟨s', hs', hvisit⟩ := visited_addThen .stay (F := blockFastCell now filter) rfl hcell
      (hpool hcell)
    rw [blockSource_search_none hcell, if_pos hmode, if_pos rfl]
    exact ⟨s', hvisit, hs'⟩
  | some x =>
    refine ⟨s.modify v a (.setTimer now), ?_, ?_⟩
    · exact visited_modify (fun _ => rfl) (fun _ => rfl) (by rw [hcell]; nofun)
    · rw [blockSource_search_some hcell, if_pos hmode, if_pos rfl]
      rfl

/-- The loop needs one turn to get past a recorded source and two for a new one. -/
theorem block_fast_pass (hmode : now < filter)
    (hpool : cell v s.sourceList a = none → s.sourcePool ≠ []) :
    ∃ s', Visited v (includeCell now) [a] s s' ∧ ∀ n l,
      sweep (blockSource now filter true v) (n + 1 + missing v s.sourceList [a]) (a :: l) s =
        sweep (blockSource now filter true v) n l s' := by
  obtain ⟨s₁, hvisit₁, hbody₁⟩ := blockSource_fast_visits hmode hpool
  rw [missing_singleton]
  cases hcell : cell v s.sourceList a with
  | some x =>
    rw [hcell] at hbody₁
    refine ⟨s₁, hvisit₁.congr fun b hb => ?_, fun n l => sweep_advance hbody₁⟩
    rw [cell_congr (mem_listed_singleton.mp hb), hcell]
    rfl
  | none =>
    rw [hcell] at hbody₁
    have hcell₁ := hvisit₁.cell a
    rw [if_pos (mem_listed_singleton.mpr rfl), hcell] at hcell₁
    obtain ⟨s₂, hvisit₂, hbody₂⟩ := blockSource_fast_visits (a := a) (s := s₁) hmode
      fun hnone => absurd (hcell₁.symm.trans hnone) nofun
    rw [hcell₁] at hbody₂
    refine ⟨s₂, ⟨fun b => ?_, fun hl => hvisit₂.noRepeat (hvisit₁.noRepeat hl), fun rest => ?_⟩,
      fun n l => ?_⟩
    · rw [hvisit₂.cell, hvisit₁.cell]
      split
      · next hb =>
        rw [cell_congr (mem_listed_singleton.mp hb), hcell]
        rfl
      · rfl
    · have h₁ := hvisit₁.room rest
      have h₂ := hvisit₂.room rest
      rw [singleton_append, missing_cons_of_recorded (by rw [hcell₁]; nofun)] at h₂
      omega
    · rw [if_pos rfl, sweep_stay hbody₁, sweep_advance hbody₂]

/-- The loop gets past a part of the list in as many turns as it has sources and new sources. -/
theorem block_fast_passes {part : List Ip} (hmode : now < filter)
    (hroom : missing v s.sourceList part ≤ s.sourcePool.length) :
    ∃ s', Visited v (includeCell now) part s s' ∧ ∀ n l,
      sweep (blockSource now filter true v) (n + (part.length + missing v s.sourceList part))
        (part ++ l) s = sweep (blockSource now filter true v) n l s' := by
  induction part using List.reverseRecOn with
  | nil => exact ⟨s, .nil, fun n l => by rw [missing_nil]; rfl⟩
  | append_singleton part a ih =>
    obtain ⟨s₁, hvisit₁, hrun₁⟩ := ih (missing_le_append.trans hroom)
    obtain ⟨s₂, hvisit₂, hrun₂⟩ := block_fast_pass (a := a) hmode fun hnew =>
      hvisit₁.pool_ne_nil hroom hnew
    refine ⟨s₂, hvisit₁.append (fun _ => rfl) hvisit₂, fun n l => ?_⟩
    rw [hvisit₁.missing_append, append_assoc, singleton_append, ← hrun₂, ← hrun₁]
    congr 1
    rw [length_append, length_singleton]
    omega

/-- The loop over the list comes to its end, and what every turn preserves holds there. -/
theorem block_fast_ends {P : Sources → Prop} (hmode : now < filter)
    (hroom : missing v s.sourceList B ≤ s.sourcePool.length) (hP : P s)
    (step : ∀ a ∈ B, ∀ s s', Visited v (blockFastCell now filter) [a] s s' → P s → P s') (n : ℕ)
    {l : List Ip} (hl : ∀ a ∈ l, a ∈ B) :
    ∃ s', P s' ∧ sweep (blockSource now filter true v) n l s = (true, s') := by
  have hend : ∃ s', (missing v s'.sourceList B ≤ s'.sourcePool.length ∧ P s') ∧
      sweep (blockSource now filter true v) n l s = (true, s') := by
    refine sweep_invariant ?_ n ⟨hroom, hP⟩
    rintro a ha s₁ ⟨hroom₁, hP₁⟩
    have hsub : ∀ b ∈ [a], b ∈ B := forall_mem_singleton.mpr (hl a ha)
    have hneed : missing v s₁.sourceList ([] ++ a :: B) ≤ s₁.sourcePool.length :=
      (missing_append_of_subset hsub).trans_le hroom₁
    obtain ⟨s₂, hvisit, hbody⟩ := blockSource_fast_visits hmode fun hnew =>
      Visited.nil.pool_ne_nil (F := includeCell now) hneed hnew
    rw [hbody]
    exact ⟨by split <;> nofun, hvisit.room_of_subset hsub hroom₁, step a (hl a ha) s₁ s₂ hvisit hP₁⟩
  obtain ⟨s', ⟨-, hP'⟩, hrun⟩ := hend
  exact ⟨s', hP', hrun⟩

/-- A source that is listed behind a part for which the turns suffice is recorded at the end, and has
    run out if it was recorded before. -/
theorem block_fast_reached {part rest : List Ip} {b : Ip} {n : ℕ} (hmode : now < filter)
    (hroom : missing v s.sourceList (part ++ b :: rest) ≤ s.sourcePool.length)
    (hb : b ∉ listed v part) (hn : part.length + missing v s.sourceList part < n) :
    ∃ s', (cell v s'.sourceList b ≠ none ∧
        (cell v s.sourceList b ≠ none → ∃ x ∈ cell v s'.sourceList b, ¬now < x.1)) ∧
      sweep (blockSource now filter true v) n (part ++ b :: rest) s = (true, s') := by
  obtain ⟨m, rfl⟩ := Nat.exists_eq_add_of_lt hn
  obtain ⟨s₁, hvisit₁, hrun₁⟩ := block_fast_passes hmode (missing_le_append.trans hroom)
  have hcell₁ := hvisit₁.cell b
  rw [if_neg hb] at hcell₁
  obtain ⟨s₂, hvisit₂, hbody⟩ := blockSource_fast_visits hmode fun hnew =>
    hvisit₁.pool_ne_nil hroom hnew
  have hcell₂ := hvisit₂.cell b
  rw [if_pos (mem_listed_singleton.mpr rfl), hcell₁] at hcell₂
  have hroom₂ : missing v s₂.sourceList (part ++ b :: rest) ≤ s₂.sourcePool.length := by
    refine hvisit₂.room_of_subset ?_ (hvisit₁.room_of_subset ?_ hroom)
    · exact forall_mem_singleton.mpr (mem_append_right _ mem_cons_self)
    · exact fun a ha => mem_append_left _ ha
  -- the rest of the loop keeps the source recorded and, once run out, run out
  have hrest := fun (l : List Ip) => block_fast_ends (l := l) (s := s₂)
    (P := fun s' => cell v s'.sourceList b ≠ none ∧
      (cell v s.sourceList b ≠ none → ∃ x ∈ cell v s'.sourceList b, ¬now < x.1))
    hmode hroom₂ (by
      rw [hcell₂]
      refine ⟨nofun, fun hold => ⟨_, rfl, ?_⟩⟩
      obtain ⟨x, hx⟩ := Option.ne_none_iff_exists'.mp hold
      rw [hx]
      exact UInt32.lt_irrefl now)
    (by
      rintro a - s₃ s₄ hvisit ⟨hold₃, hstop₃⟩
      obtain ⟨y, hy⟩ := Option.ne_none_iff_exists'.mp hold₃
      rw [hvisit.cell]
      split
      · rw [hy]
        exact ⟨nofun, fun _ => ⟨_, rfl, UInt32.lt_irrefl now⟩⟩
      · exact ⟨hold₃, hstop₃⟩) m
  have hrun : sweep (blockSource now filter true v) (part.length + missing v s.sourceList part + m + 1)
      (part ++ b :: rest) s = sweep (blockSource now filter true v) (m + 1) (b :: rest) s₁ := by
    rw [← hrun₁]
    congr 1
    omega
  rw [hrun]
  by_cases hnew : cell v s₁.sourceList b = none
  · rw [if_pos hnew] at hbody
    rw [sweep_stay hbody]
    exact hrest (b :: rest) fun a ha => mem_append_right _ ha
  · rw [if_neg hnew] at hbody
    rw [sweep_advance hbody]
    exact hrest rest fun a ha => mem_append_right _ (mem_cons_of_mem _ ha)

/-- The turns that the loop needs to get past a source change no other source. -/
theorem block_fast_at (tail : List Ip) {b : Ip} {n : ℕ} (hmode : now < filter)
    (hpool : cell v s.sourceList a = none → s.sourcePool ≠ []) (hb : b ∉ listed v [a])
    (hn : n ≤ 1 + missing v s.sourceList [a]) :
    cell v (sweep (blockSource now filter true v) n (a :: tail) s).2.sourceList b =
      cell v s.sourceList b := by
  rw [missing_singleton] at hn
  obtain ⟨s₁, hvisit₁, hbody₁⟩ := blockSource_fast_visits hmode hpool
  have hcell₁ := hvisit₁.cell b
  rw [if_neg hb] at hcell₁
  cases n with
  | zero => rfl
  | succ n =>
    by_cases hnew : cell v s.sourceList a = none
    · rw [if_pos hnew] at hbody₁ hn
      rw [sweep_stay hbody₁]
      cases n with
      | zero => exact hcell₁
      | succ n =>
        obtain rfl : n = 0 := by omega
        have hold := hvisit₁.cell a
        rw [if_pos (mem_listed_singleton.mpr rfl)] at hold
        obtain ⟨s₂, hvisit₂, hbody₂⟩ := blockSource_fast_visits (a := a) (s := s₁) hmode
          fun hnone => absurd (hold.symm.trans hnone) nofun
        rw [hold, if_neg nofun] at hbody₂
        rw [sweep_advance hbody₂, sweep, hvisit₂.cell, if_neg hb, hcell₁]
    · rw [if_neg hnew] at hbody₁ hn
      obtain rfl : n = 0 := by omega
      rw [sweep_advance hbody₁, sweep, hcell₁]

/-- A source that is listed behind a part for which the turns do not suffice is left alone. -/
theorem block_fast_unreached {part : List Ip} (tail : List Ip) {b : Ip} {n : ℕ} (hmode : now < filter)
    (hroom : missing v s.sourceList part ≤ s.sourcePool.length) (hb : b ∉ listed v part)
    (hn : n ≤ part.length + missing v s.sourceList part) :
    cell v (sweep (blockSource now filter true v) n (part ++ tail) s).2.sourceList b =
      cell v s.sourceList b := by
  induction part using List.reverseRecOn generalizing tail with
  | nil =>
    rw [missing_nil] at hn
    obtain rfl : n = 0 := Nat.le_zero.mp hn
    rfl
  | append_singleton part a ih =>
    have hb' : b ∉ listed v part ∧ b ∉ listed v [a] :=
      ⟨fun h => hb (mem_listed_append.mpr (.inl h)), fun h => hb (mem_listed_append.mpr (.inr h))⟩
    have hroom' := missing_le_append.trans hroom
    rw [append_assoc]
    by_cases hn' : n ≤ part.length + missing v s.sourceList part
    · exact ih _ hroom' hb'.1 hn'
    · obtain ⟨s₁, hvisit₁, hrun₁⟩ := block_fast_passes hmode hroom'
      obtain ⟨m, rfl⟩ := Nat.exists_eq_add_of_lt (not_le.mp hn')
      have hm : m + 1 ≤ 1 + missing v s₁.sourceList [a] := by
        rw [hvisit₁.missing_append, length_append, length_singleton] at hn
        omega
      have hcell₁ := hvisit₁.cell b
      rw [if_neg hb'.1] at hcell₁
      have hrun : sweep (blockSource now filter true v)
          (part.length + missing v s.sourceList part + m + 1) (part ++ a :: tail) s =
          sweep (blockSource now filter true v) (m + 1) (a :: tail) s₁ := by
        rw [← hrun₁]
        congr 1
        omega
      rw [singleton_append, hrun, block_fast_at tail hmode
        (fun hnew => hvisit₁.pool_ne_nil hroom hnew) hb'.2 hm, hcell₁]

/-- The outcome with fast leave: the filter timer and the sources that are not listed stay, and a
    listed source is expired or recorded if the turns of the loop suffice to come to it. -/
structure BlockedFast (now start : UInt32) (v : IpVersion) (B : List Ip) (c c' : ClientEntry) :
    Prop where
  group : c'.groupFilterTimer = c.groupFilterTimer
  noRepeat : NoRepeat v c.sourceList → NoRepeat v c'.sourceList
  others : ∀ b, b ∉ listed v B →
    (timers start v (some c')).timer b = (timers start v (some c)).timer b
  reached : ∀ part b rest, B = part ++ b :: rest → b ∉ listed v part →
    part.length + missing v c.sourceList part < B.length →
    (timers start v (some c')).timer b ≠ none ∧
      ((timers start v (some c)).timer b ≠ none → b ∈ (timers start v (some c')).stopped now)
  unreached : ∀ part b rest, B = part ++ b :: rest → b ∉ listed v part →
    B.length ≤ part.length + missing v c.sourceList part →
    (timers start v (some c')).timer b = (timers start v (some c)).timer b

theorem block_exclude_fast (start : UInt32) (hfast : conf.fastLeave = true)
    (hmode : now < c.groupFilterTimer) (hroom : missing v c.sourceList B ≤ pool.length) :
    (block now v conf B c pool).complete = true ∧
      BlockedFast now start v B c (block now v conf B c pool).client := by
  obtain ⟨s', ⟨hothers, hrepeat⟩, hrun⟩ := block_fast_ends (s := ⟨c.sourceList, pool⟩)
    (P := fun s' => (∀ b, b ∉ listed v B → cell v s'.sourceList b = cell v c.sourceList b) ∧
      (NoRepeat v c.sourceList → NoRepeat v s'.sourceList)) hmode hroom
    ⟨fun _ _ => rfl, id⟩ (by
      rintro a ha s₁ s₂ hvisit ⟨hothers, hrepeat⟩
      refine ⟨fun b hb => ?_, fun hl => hvisit.noRepeat (hrepeat hl)⟩
      rw [hvisit.cell, if_neg ?_, hothers b hb]
      intro hba
      exact hb (mem_listed.mpr ⟨a, ha, (mem_listed_singleton.mp hba).symm⟩)) B.length fun _ h => h
  unfold block
  rw [hfast, walk_eq hrun]
  refine ⟨rfl, rfl, hrepeat, ?_, ?_, ?_⟩
  · intro b hb
    rw [timers_timer, timers_timer, recorded, recorded]
    exact congrArg _ (hothers b hb)
  · rintro part b rest rfl hb hn
    obtain ⟨s'', ⟨hsome, hstop⟩, hrun'⟩ := block_fast_reached (s := ⟨c.sourceList, pool⟩) hmode hroom
      hb hn
    obtain rfl : s' = s'' := (Prod.mk.inj (hrun.symm.trans hrun')).2
    rw [mem_stopped, timers_timer, timers_timer, recorded, recorded]
    refine ⟨fun hnone => hsome (Option.map_eq_none_iff.mp hnone), fun hold => ?_⟩
    obtain ⟨x, hx, hnow⟩ := hstop fun hnone => hold (Option.map_eq_none_iff.mpr hnone)
    exact ⟨x.1, Option.mem_map_of_mem Prod.fst hx, hnow⟩
  · rintro part b rest rfl hb hn
    have hleft := block_fast_unreached (s := ⟨c.sourceList, pool⟩) (b :: rest) hmode
      (missing_le_append.trans hroom) hb hn
    rw [hrun] at hleft
    rw [timers_timer, timers_timer, recorded, recorded]
    exact congrArg _ hleft

end Core

end PhoebusBsp.Igmp

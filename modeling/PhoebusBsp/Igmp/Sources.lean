import Mathlib.Data.Finset.Dedup
import Mathlib.Data.Finset.Card
import Mathlib.Data.Finset.SDiff
import PhoebusBsp.Igmp.Report
import PhoebusBsp.Schemes.SourceFilter

/-! The chain of sources of a client as a function of the address: what is recorded of each source, and
    what the operations and the loops over a list of sources do to it.

    A loop is described by what one turn makes of the source at hand: `Visited v F B s s'` says that every
    source of `B` went from its old record `x` to `F x`, that the other sources are as before, and how
    many entries it took from the pool. -/

namespace PhoebusBsp.Igmp
open Schemes List

/-! ### Records of sources -/

/-- Timer and mark of an entry. -/
def SourceEntry.cell (e : SourceEntry) : UInt32 × Bool := (e.portTimer, e.setOpFlag)

/-- What is recorded of a source. -/
def cell (v : IpVersion) (l : List SourceEntry) (a : Ip) : Option (UInt32 × Bool) :=
  (searchSourceEntry v a l).map SourceEntry.cell

/-- No source is recorded twice. -/
def NoRepeat (v : IpVersion) (l : List SourceEntry) : Prop := (l.map (sourceKey v)).Nodup

instance (v : IpVersion) (l : List SourceEntry) : Decidable (NoRepeat v l) :=
  inferInstanceAs (Decidable (List.Nodup _))

/-- The sources of a list, as a set of addresses. -/
def listed (v : IpVersion) (B : List Ip) : Set Ip := {a | addr v a ∈ B.map (addr v)}

instance (v : IpVersion) (B : List Ip) : DecidablePred (· ∈ listed v B) :=
  fun a => inferInstanceAs (Decidable (addr v a ∈ B.map (addr v)))

/-- The number of different sources of a list that are not recorded. -/
def missing (v : IpVersion) (l : List SourceEntry) (B : List Ip) : ℕ :=
  ((B.map (addr v)).toFinset \ (l.map (sourceKey v)).toFinset).card

variable {v : IpVersion} {l : List SourceEntry} {a b : Ip} {B : List Ip}
  {f : SourceEntry → SourceEntry} {B' rest : List Ip}

theorem cell_eq_none : cell v l a = none ↔ addr v a ∉ l.map (sourceKey v) := by
  unfold cell searchSourceEntry
  rw [Option.map_eq_none_iff, Chain.search_eq_none]

theorem cell_congr (h : addr v a = addr v b) : cell v l a = cell v l b := by
  unfold cell searchSourceEntry
  rw [h]

theorem cell_cons {e : SourceEntry} (he : sourceKey v e = addr v a) :
    cell v (e :: l) b = if addr v b = addr v a then some e.cell else cell v l b := by
  unfold cell searchSourceEntry
  rw [Chain.search_cons, he]
  by_cases h : addr v b = addr v a
  · rw [if_pos h, if_pos h.symm, Option.map_some]
  · rw [if_neg h, if_neg (Ne.symm h)]

section SameAddresses

variable {φ : UInt32 × Bool → UInt32 × Bool} {s : Sources} (hf : ∀ e, (f e).sourceAddr = e.sourceAddr)
include hf

theorem keys_map :
    (l.map f).map (sourceKey v) = l.map (sourceKey v) := by
  rw [map_map]
  exact congrArg (List.map · l) (funext fun e => by rw [Function.comp_apply, sourceKey, hf, sourceKey])

theorem missing_map : missing v (l.map f) B = missing v l B := by
  unfold missing
  rw [keys_map hf]

theorem NoRepeat.map (hl : NoRepeat v l) : NoRepeat v (l.map f) := by
  unfold NoRepeat
  rw [keys_map hf]
  exact hl

theorem keys_modify :
    (s.modify v a f).sourceList.map (sourceKey v) = s.sourceList.map (sourceKey v) := by
  refine Chain.keys_update fun e he => ?_
  rw [sourceKey, hf]
  exact he

theorem NoRepeat.modify (hl : NoRepeat v s.sourceList) :
    NoRepeat v (s.modify v a f).sourceList := by
  unfold NoRepeat
  rw [keys_modify hf]
  exact hl

variable (hφ : ∀ e, (f e).cell = φ e.cell)
include hφ

theorem cell_update :
    cell v (Chain.update (sourceKey v) (addr v a) f l) b =
      if addr v b = addr v a then (cell v l b).map φ else cell v l b := by
  have hkey : ∀ e, sourceKey v e = addr v a → sourceKey v (f e) = addr v a := by
    intro e he
    rw [sourceKey, hf]
    exact he
  unfold cell searchSourceEntry
  split
  · next h =>
    rw [h, Chain.search_update_self hkey, Option.map_map, Option.map_map]
    exact congrArg (Option.map · _) (funext hφ)
  · next h => rw [Chain.search_update_of_ne hkey h]

theorem cell_map :
    cell v (l.map f) a = (cell v l a).map φ := by
  have hkey : ∀ e, sourceKey v (f e) = sourceKey v e := fun e => by rw [sourceKey, hf, sourceKey]
  unfold cell searchSourceEntry
  rw [Chain.search_map hkey, Option.map_map, Option.map_map]
  exact congrArg (Option.map · _) (funext hφ)

end SameAddresses

theorem cell_markAll {s : Sources} :
    cell v s.markAll.sourceList a = (cell v s.sourceList a).map fun x => (x.1, true) :=
  cell_map (f := SourceEntry.setFlag true) (fun _ => rfl) fun _ => rfl

theorem cell_capTimer {now last : UInt32} :
    cell v (l.map (SourceEntry.capTimer now last)) a =
      (cell v l a).map fun x => (if last < x.1 then last else x.1, decide (now < x.1)) :=
  cell_map (f := SourceEntry.capTimer now last) (fun _ => rfl) fun _ => rfl

/-- Deleting the marked entries leaves the sources without a mark as they are. -/
theorem cell_deleteMarked (pool : List ℕ) (hl : NoRepeat v l) :
    cell v (Sources.deleteMarked ⟨l, pool⟩).sourceList a = (cell v l a).filter fun x => !x.2 := by
  have hsearch : searchSourceEntry v a (Sources.deleteMarked ⟨l, pool⟩).sourceList =
      (searchSourceEntry v a l).filter fun e => !e.setOpFlag := Chain.search_filter hl
  unfold cell
  rw [hsearch]
  cases searchSourceEntry v a l with
  | none => rfl
  | some e => cases h : e.setOpFlag <;> simp [Option.filter, SourceEntry.cell, h]

/-! ### Visiting sources -/

/-- Every source of `B` has gone from its record `x` to `F x`, and nothing else has changed. What the
    sources still to come need of the pool has been left there. -/
structure Visited (v : IpVersion) (F : Option (UInt32 × Bool) → UInt32 × Bool) (B : List Ip)
    (s s' : Sources) : Prop where
  cell : ∀ b, cell v s'.sourceList b =
    if b ∈ listed v B then some (F (cell v s.sourceList b)) else cell v s.sourceList b
  noRepeat : NoRepeat v s.sourceList → NoRepeat v s'.sourceList
  room : ∀ rest, missing v s.sourceList (B ++ rest) + s'.sourcePool.length =
    missing v s'.sourceList rest + s.sourcePool.length

variable {F : Option (UInt32 × Bool) → UInt32 × Bool} {s s' s'' : Sources}

theorem mem_listed : a ∈ listed v B ↔ ∃ b ∈ B, addr v b = addr v a := mem_map

theorem mem_listed_of_mem (h : b ∈ B) : b ∈ listed v B := mem_map_of_mem h

theorem not_mem_listed_nil : b ∉ listed v [] := not_mem_nil

theorem mem_listed_singleton : b ∈ listed v [a] ↔ addr v b = addr v a := mem_singleton

theorem mem_listed_append : b ∈ listed v (B ++ B') ↔ b ∈ listed v B ∨ b ∈ listed v B' := by
  show addr v b ∈ (B ++ B').map (addr v) ↔ _
  rw [map_append, mem_append]
  rfl

/-! Addresses that compare equal are one source. -/

theorem mem_listed_congr (h : addr v a = addr v b) :
    a ∈ listed v B ↔ b ∈ listed v B := by
  rw [mem_listed, mem_listed, h]

theorem forall_listed {p : Ip → Prop}
    (hp : ∀ a b, addr v a = addr v b → (p a ↔ p b)) :
    (∀ a ∈ listed v B, p a) ↔ ∀ b ∈ B, p b := by
  constructor
  · exact fun h b hb => h b (mem_listed_of_mem hb)
  · intro h a ha
    obtain ⟨b, hb, hba⟩ := mem_listed.mp ha
    exact (hp b a hba).mp (h b hb)

/-- Where a source is listed first. -/
theorem exists_first (h : a ∈ listed v B) :
    ∃ part b rest, B = part ++ b :: rest ∧ addr v b = addr v a ∧ b ∉ listed v part := by
  induction B with
  | nil => exact absurd h not_mem_nil
  | cons x B ih =>
    by_cases hx : addr v x = addr v a
    · exact ⟨[], x, B, rfl, hx, not_mem_nil⟩
    · have ha : a ∈ listed v B := (mem_cons.mp h).resolve_left fun h => hx h.symm
      obtain ⟨part, b, rest, rfl, hb, hpart⟩ := ih ha
      refine ⟨x :: part, b, rest, rfl, hb, fun hmem => ?_⟩
      rcases mem_cons.mp hmem with h | h
      · exact hx (h.symm.trans hb)
      · exact hpart h

theorem first_unique {part part' rest' : List Ip} {b' : Ip}
    (hB : part ++ b :: rest = part' ++ b' :: rest') (hb : b ∉ listed v part)
    (hb' : b' ∉ listed v part') (hbb : addr v b = addr v b') : part = part' := by
  rcases append_eq_append_iff.mp hB with ⟨mid, rfl, hmid⟩ | ⟨mid, rfl, hmid⟩
  · cases mid with
    | nil => exact (append_nil part).symm
    | cons x mid =>
      obtain ⟨rfl, -⟩ := List.cons.inj hmid
      exact absurd (mem_listed.mpr ⟨b, mem_append_right _ mem_cons_self, hbb⟩) hb'
  · cases mid with
    | nil => exact append_nil part'
    | cons x mid =>
      obtain ⟨rfl, -⟩ := List.cons.inj hmid
      exact absurd (mem_listed.mpr ⟨b', mem_append_right _ mem_cons_self, hbb.symm⟩) hb

/-- The sources that a loop has reached, as a set. -/
theorem mem_listed_reached {reached : List Ip} {p : List Ip → Prop}
    (h : ∀ b, b ∈ reached ↔ ∃ part rest, B = part ++ b :: rest ∧ p part) :
    a ∈ listed v reached ↔ ∃ part b rest, B = part ++ b :: rest ∧ addr v b = addr v a ∧ p part := by
  rw [mem_listed]
  constructor
  · rintro ⟨b, hb, hba⟩
    obtain ⟨part, rest, hB, hpart⟩ := (h b).mp hb
    exact ⟨part, b, rest, hB, hba, hpart⟩
  · rintro ⟨part, b, rest, hB, hba, hpart⟩
    exact ⟨b, (h b).mpr ⟨part, rest, hB, hpart⟩, hba⟩

theorem listed_reached_subset {reached : List Ip} {p : List Ip → Prop}
    (h : ∀ b, b ∈ reached ↔ ∃ part rest, B = part ++ b :: rest ∧ p part)
    (ha : a ∈ listed v reached) : a ∈ listed v B := by
  obtain ⟨part, b, rest, rfl, hba, -⟩ := (mem_listed_reached h).mp ha
  exact mem_listed.mpr ⟨b, mem_append_right _ mem_cons_self, hba⟩

theorem Visited.nil : Visited v F [] s s where
  cell _ := (if_neg not_mem_nil).symm
  noRepeat := id
  room _ := rfl

theorem Visited.append (hF : ∀ x, F (some (F x)) = F x) (h : Visited v F B s s')
    (h' : Visited v F B' s' s'') : Visited v F (B ++ B') s s'' where
  cell b := by
    rw [h'.cell, h.cell]
    by_cases hb : b ∈ listed v B
    · rw [if_pos hb, if_pos (mem_listed_append.mpr (.inl hb)), hF, ite_self]
    · rw [if_neg hb]
      by_cases hb' : b ∈ listed v B'
      · rw [if_pos hb', if_pos (mem_listed_append.mpr (.inr hb'))]
      · rw [if_neg hb', if_neg fun hbb => (mem_listed_append.mp hbb).elim hb hb']
  noRepeat hs := h'.noRepeat (h.noRepeat hs)
  room rest := by
    have h₁ := h.room (B' ++ rest)
    have h₂ := h'.room rest
    rw [append_assoc]
    omega

theorem Visited.congr {G : Option (UInt32 × Bool) → UInt32 × Bool} (h : Visited v F B s s')
    (hFG : ∀ b ∈ listed v B, F (Igmp.cell v s.sourceList b) = G (Igmp.cell v s.sourceList b)) :
    Visited v G B s s' where
  cell b := by
    rw [h.cell]
    split
    · next hb => rw [hFG b hb]
    · rfl
  noRepeat := h.noRepeat
  room := h.room

/-- Mark all sources, visit those of `B` and delete what is still marked: `B` is left. -/
theorem Visited.cell_deleteMarked (hF : ∀ x, (F x).2 = false) (hl : NoRepeat v s.sourceList)
    (h : Visited v F B s.markAll s') (a : Ip) :
    Igmp.cell v s'.deleteMarked.sourceList a = if a ∈ listed v B then
      some (F ((Igmp.cell v s.sourceList a).map fun x => (x.1, true))) else none := by
  have hl' : NoRepeat v s'.sourceList := h.noRepeat (hl.map fun _ => rfl)
  rw [Igmp.cell_deleteMarked s'.sourcePool hl', h.cell, cell_markAll]
  split
  · rw [Option.filter_some, hF]
    rfl
  · cases Igmp.cell v s.sourceList a with
    | none => rfl
    | some x => rfl

/-- The pool still has an entry for a source that needs one. -/
theorem Visited.pool_ne_nil (h : Visited v F B s s')
    (hroom : missing v s.sourceList (B ++ a :: rest) ≤ s.sourcePool.length)
    (hnew : Igmp.cell v s'.sourceList a = none) : s'.sourcePool ≠ [] := by
  have hcount := h.room (a :: rest)
  have hpos : 0 < missing v s'.sourceList (a :: rest) := by
    refine Finset.card_pos.mpr ⟨addr v a, ?_⟩
    have hkey := cell_eq_none.mp hnew
    simpa using hkey
  rw [← length_pos_iff]
  omega

theorem missing_cons_of_recorded (h : cell v l a ≠ none) : missing v l (a :: rest) = missing v l rest := by
  have hkey : addr v a ∈ (l.map (sourceKey v)).toFinset := by
    by_contra hkey
    exact h (cell_eq_none.mpr fun hmem => hkey (mem_toFinset.mpr hmem))
  unfold missing
  rw [map_cons, toFinset_cons, Finset.insert_sdiff_of_mem _ hkey]

theorem missing_cons_of_new {l' : List SourceEntry} (h : cell v l a = none)
    (hl' : l'.map (sourceKey v) = addr v a :: l.map (sourceKey v)) :
    missing v l (a :: rest) = missing v l' rest + 1 := by
  have hkey : addr v a ∉ (l.map (sourceKey v)).toFinset := fun hmem =>
    cell_eq_none.mp h (mem_toFinset.mp hmem)
  unfold missing
  rw [hl', map_cons, toFinset_cons, toFinset_cons,
    Finset.insert_sdiff_of_notMem _ hkey, Finset.sdiff_insert, ← Finset.erase_insert_eq_erase,
    Finset.card_erase_add_one (Finset.mem_insert_self _ _)]

theorem missing_nil : missing v l [] = 0 := by
  unfold missing
  rw [map_nil, toFinset_nil, Finset.empty_sdiff, Finset.card_empty]

theorem missing_singleton : missing v l [a] = if cell v l a = none then 1 else 0 := by
  split
  · next h =>
    have hkeys : (⟨0, addr v a, 0, false, false⟩ :: l).map (sourceKey v) = addr v a :: l.map (sourceKey v) := by
      rw [map_cons, sourceKey, addr_addr]
    rw [missing_cons_of_new h hkeys, missing_nil]
  · next h => rw [missing_cons_of_recorded h, missing_nil]

theorem missing_le_append : missing v l B ≤ missing v l (B ++ B') := by
  unfold missing
  rw [map_append, toFinset_append]
  exact Finset.card_le_card (Finset.sdiff_subset_sdiff Finset.subset_union_left (subset_refl _))

/-- What has been visited is missing no more. -/
theorem Visited.missing_append (h : Visited v F B s s') (rest : List Ip) :
    missing v s.sourceList (B ++ rest) = missing v s.sourceList B + missing v s'.sourceList rest := by
  have hrest := h.room rest
  have hall := h.room []
  rw [append_nil, missing_nil] at hall
  omega

/-- Sources that are in the list already count once. -/
theorem missing_append_of_subset (h : ∀ a ∈ B', a ∈ B) : missing v l (B' ++ B) = missing v l B := by
  have hsub : (B'.map (addr v)).toFinset ⊆ (B.map (addr v)).toFinset := by
    intro k hk
    obtain ⟨a, ha, rfl⟩ := mem_map.mp (mem_toFinset.mp hk)
    exact mem_toFinset.mpr (mem_map_of_mem (h a ha))
  unfold missing
  rw [map_append, toFinset_append, Finset.union_eq_right.mpr hsub]

/-- Visiting sources of a list leaves room for the list. -/
theorem Visited.room_of_subset (h : Visited v F B' s s') (hsub : ∀ a ∈ B', a ∈ B)
    (hroom : missing v s.sourceList B ≤ s.sourcePool.length) :
    missing v s'.sourceList B ≤ s'.sourcePool.length := by
  have hcount := h.room B
  rw [missing_append_of_subset hsub] at hcount
  omega

/-- Linking a new entry visits its source. -/
theorem visited_addThen {timer : UInt32} (turn : Turn) (hF : F none = (timer, false))
    (hnew : cell v s.sourceList a = none) (hpool : s.sourcePool ≠ []) :
    ∃ s', s.addThen v a timer turn = (turn, s') ∧ Visited v F [a] s s' := by
  obtain ⟨l, pool⟩ := s
  obtain ⟨id, pool, rfl⟩ := exists_cons_of_ne_nil hpool
  have hkey : sourceKey v ⟨id, addr v a, timer, false, false⟩ = addr v a := addr_addr v a
  refine ⟨⟨⟨id, addr v a, timer, false, false⟩ :: l, pool⟩, rfl, ?_, ?_, ?_⟩
  · intro b
    rw [cell_cons hkey]
    by_cases hb : addr v b = addr v a
    · rw [if_pos hb, if_pos (mem_listed_singleton.mpr hb), cell_congr hb, hnew, hF]
      rfl
    · rw [if_neg hb, if_neg fun h => hb (mem_listed_singleton.mp h)]
  · intro hl
    refine nodup_cons.mpr ⟨?_, hl⟩
    rw [hkey]
    exact cell_eq_none.mp hnew
  · intro rest
    have hkeys : (⟨id, addr v a, timer, false, false⟩ :: l).map (sourceKey v) =
        addr v a :: l.map (sourceKey v) := by rw [map_cons, hkey]
    rw [singleton_append, missing_cons_of_new hnew hkeys, length_cons]
    exact Nat.succ_add_eq_add_succ _ _

/-- A recorded source that stays as it is has been visited. -/
theorem visited_self {x : UInt32 × Bool} (hold : cell v s.sourceList a = some x)
    (hF : F (some x) = x) : Visited v F [a] s s where
  cell b := by
    split
    · next hb => rw [cell_congr (mem_listed_singleton.mp hb), hold, hF]
    · rfl
  noRepeat := id
  room rest := by
    rw [singleton_append, missing_cons_of_recorded (by rw [hold]; nofun)]

theorem modify_eq_self {x : UInt32 × Bool}
    (hcell : cell v s.sourceList a = some x) (hf : ∀ e, e.cell = x → f e = e) : s.modify v a f = s := by
  obtain ⟨e, hsearch, he⟩ := Option.map_eq_some_iff.mp hcell
  unfold Sources.modify
  rw [Chain.update_eq_self hsearch (hf e he)]

/-- Changing the entry of a recorded source visits it. -/
theorem visited_modify (hf : ∀ e, (f e).sourceAddr = e.sourceAddr)
    (hF : ∀ e, (f e).cell = F (some e.cell)) (hold : cell v s.sourceList a ≠ none) :
    Visited v F [a] s (s.modify v a f) where
  cell b := by
    show cell v (Chain.update (sourceKey v) (addr v a) f s.sourceList) b = _
    rw [cell_update (φ := fun x => F (some x)) hf hF]
    by_cases hb : addr v b = addr v a
    · rw [if_pos hb, if_pos (mem_listed_singleton.mpr hb)]
      obtain ⟨x, hx⟩ := Option.ne_none_iff_exists'.mp (cell_congr hb ▸ hold)
      rw [hx, Option.map_some]
    · rw [if_neg hb, if_neg fun h => hb (mem_listed_singleton.mp h)]
  noRepeat hl := hl.modify hf
  room rest := by
    have hmiss : missing v (s.modify v a f).sourceList rest = missing v s.sourceList rest := by
      unfold missing
      rw [keys_modify hf]
    rw [singleton_append, missing_cons_of_recorded hold, hmiss]
    rfl

/-! ### Loops that visit -/

variable {body : Ip → Sources → Turn × Sources}

/-- The loop passes the sources on which every turn visits the source and moves on. -/
theorem sweep_visits {pre : List Ip} (hF : ∀ x, F (some (F x)) = F x)
    (hroom : missing v s.sourceList pre ≤ s.sourcePool.length)
    (step : ∀ done a rest s', pre = done ++ a :: rest → Visited v F done s s' →
      (cell v s'.sourceList a = none → s'.sourcePool ≠ []) →
      ∃ s'', body a s' = (.advance, s'') ∧ Visited v F [a] s' s'') (n : ℕ) (l : List Ip) :
    ∃ s', Visited v F pre s s' ∧ sweep body (pre.length + n) (pre ++ l) s = sweep body n l s' := by
  refine sweep_passes (P := fun done s' => Visited v F done s s') Visited.nil ?_ n l
  intro done a rest s' hpre hdone
  obtain ⟨s'', hbody, hvisit⟩ := step done a rest s' hpre hdone fun hnew =>
    hdone.pool_ne_nil (hpre ▸ hroom) hnew
  exact ⟨s'', hbody, hdone.append hF hvisit⟩

/-- Such a loop over the whole list visits all of it. -/
theorem sweep_visits_all (hF : ∀ x, F (some (F x)) = F x)
    (hroom : missing v s.sourceList B ≤ s.sourcePool.length)
    (step : ∀ a s', (cell v s'.sourceList a = none → s'.sourcePool ≠ []) →
      ∃ s'', body a s' = (.advance, s'') ∧ Visited v F [a] s' s'') :
    ∃ s', Visited v F B s s' ∧ sweep body B.length B s = (true, s') := by
  obtain ⟨s', hvisit, hrun⟩ :=
    sweep_visits hF hroom (fun _ a _ s' _ _ hpool => step a s' hpool) 0 []
  rw [Nat.add_zero, append_nil] at hrun
  exact ⟨s', hvisit, hrun⟩

/-- A turn that changes the entry of a recorded source and links one for a new source. -/
theorem visits_search {timer : UInt32} (turn turn' : Turn)
    (hf : ∀ e, (f e).sourceAddr = e.sourceAddr) (hold : ∀ e, (f e).cell = F (some e.cell))
    (hnew : F none = (timer, false)) (hpool : cell v s.sourceList a = none → s.sourcePool ≠ []) :
    ∃ s', (match searchSourceEntry v a s.sourceList with
      | some _ => (turn, s.modify v a f)
      | none => s.addThen v a timer turn') =
        (if cell v s.sourceList a = none then turn' else turn, s') ∧ Visited v F [a] s s' := by
  cases hsearch : searchSourceEntry v a s.sourceList with
  | none =>
    have hnone : cell v s.sourceList a = none := by rw [cell, hsearch, Option.map_none]
    rw [if_pos hnone]
    exact visited_addThen turn' hnew hnone (hpool hnone)
  | some e =>
    have hsome : cell v s.sourceList a ≠ none := by rw [cell, hsearch, Option.map_some]; nofun
    rw [if_neg hsome]
    exact ⟨_, rfl, visited_modify hf hold hsome⟩

end PhoebusBsp.Igmp

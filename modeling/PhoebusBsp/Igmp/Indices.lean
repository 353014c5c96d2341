import PhoebusBsp.Igmp.Limits
import PhoebusBsp.Igmp.Upkeep
import PhoebusBsp.Schemes.NextIndex

/-! The index that a group gets when it is linked, and the search for the next group by index.

        link            groupIncIdx + 1, never given again
        nextValidGroup  the listed group with the least index from a bound on
        totalWeight     asks again with the bound one above the last answer

    No two groups of the tables have one index, whatever their modules and versions, so the answers
    are the listed groups of the device or bridge in the order of their creation. -/

namespace PhoebusBsp.Igmp
open Schemes List

/-! ### Indices are given once -/

/-- Every group has an index of its own, up to `groupIncIdx`. -/
structure Indexed (t : Tables) : Prop where
  bounded : ∀ i v h, ∀ e ∈ t.hashTable i v h, e.groupIdx ≤ t.groupIncIdx
  apart : ∀ i v h, ∀ e ∈ t.hashTable i v h, ∀ j w b, ∀ e' ∈ t.hashTable j w b,
    e.groupIdx = e'.groupIdx → (i, v, h) = (j, w, b) ∧ e = e'

/-- The group was there before under its index. -/
def Descends (t : Tables) (i : ℕ) (v : IpVersion) (h : ℕ) (e' : GroupEntry) : Prop :=
  ∃ e ∈ t.hashTable i v h, e.groupIdx = e'.groupIdx ∧ groupKey v e = groupKey v e'

/-- A group of `t'` was there in `t`, or its index is newer than `t`. -/
structure Later (t t' : Tables) : Prop where
  counter : t.groupIncIdx ≤ t'.groupIncIdx
  origin : ∀ i v h, ∀ e ∈ t'.hashTable i v h, Descends t i v h e ∨ t.groupIncIdx < e.groupIdx

section Indices

variable {t t' t'' : Tables} {i : ℕ} {v : IpVersion} {g : Ip}

theorem Later.refl : Later t t := ⟨le_rfl, fun _ _ _ e he => Or.inl ⟨e, he, rfl, rfl⟩⟩

theorem Later.trans (h : Later t t') (h' : Later t' t'') : Later t t'' := by
  refine ⟨h.counter.trans h'.counter, fun i v b e he => ?_⟩
  rcases h'.origin i v b e he with ⟨e', he', hidx, hkey⟩ | hnew
  · rcases h.origin i v b e' he' with ⟨e₀, he₀, hidx₀, hkey₀⟩ | hnew
    · exact Or.inl ⟨e₀, he₀, hidx₀.trans hidx, hkey₀.trans hkey⟩
    · exact Or.inr (hidx ▸ hnew)
  · exact Or.inr (h.counter.trans_lt hnew)

/-- Without new groups the indices stay apart. -/
theorem Indexed.of_descends (h : Indexed t) (hcounter : t'.groupIncIdx = t.groupIncIdx)
    (horigin : ∀ i v b, ∀ e ∈ t'.hashTable i v b, Descends t i v b e) : Indexed t' := by
  refine ⟨fun i v b e he => ?_, fun i v b e he j w b' e' he' hidx => ?_⟩
  · obtain ⟨e₀, he₀, hidx, -⟩ := horigin i v b e he
    rw [hcounter, ← hidx]
    exact h.bounded i v b e₀ he₀
  · obtain ⟨e₀, he₀, hidx₀, hkey₀⟩ := horigin i v b e he
    obtain ⟨e₁, he₁, hidx₁, hkey₁⟩ := horigin j w b' e' he'
    have hsame : e₀.groupIdx = e₁.groupIdx := hidx₀.trans (hidx.trans hidx₁.symm)
    obtain ⟨hplace, rfl⟩ := h.apart i v b e₀ he₀ j w b' e₁ he₁ hsame
    obtain ⟨rfl, hrest⟩ := Prod.mk.inj hplace
    obtain ⟨rfl, rfl⟩ := Prod.mk.inj hrest
    exact ⟨rfl, inj_on_of_nodup_map (t'.distinct i v b) he he' (hkey₀.symm.trans hkey₁)⟩

theorem mem_setChain {l : List GroupEntry} {e : GroupEntry} {j b : ℕ} {w : IpVersion}
    (he : e ∈ setChain t.hashTable i v g l j w b) :
    (j, w, b) = (i, v, hashAlgorithm v g) ∧ e ∈ l ∨ e ∈ t.hashTable j w b := by
  by_cases hb : (j, w, b) = (i, v, hashAlgorithm v g)
  · cases hb
    rw [setChain_self] at he
    exact Or.inl ⟨rfl, he⟩
  · rw [setChain_other hb] at he
    exact Or.inr he

/-- Changing the clients of a group leaves the indices alone. -/
theorem descends_modifyClients {f : List ClientEntry → List ClientEntry} (i' : ℕ) (v' : IpVersion) (b : ℕ) :
    ∀ e ∈ (t.modifyClients i v g f).hashTable i' v' b, Descends t i' v' b e := by
  intro e he
  rcases mem_setChain he with ⟨hb, hl⟩ | he
  · cases hb
    rcases Chain.mem_update hl with he | ⟨e', he', -, rfl⟩
    · exact ⟨e, he, rfl, rfl⟩
    · exact ⟨e', he', rfl, rfl⟩
  · exact ⟨e, he, rfl, rfl⟩

theorem descends_freeGroup {e₀ : GroupEntry} (i' : ℕ) (v' : IpVersion) (b : ℕ) :
    ∀ e ∈ (t.freeGroup i v e₀).hashTable i' v' b, Descends t i' v' b e := by
  intro e he
  rcases mem_setChain he with ⟨hb, hl⟩ | he
  · cases hb
    exact ⟨e, mem_of_mem_filter hl, rfl, rfl⟩
  · exact ⟨e, he, rfl, rfl⟩

/-- A change links a group or brings none. -/
theorem Change.cases_newGroup (h : Change t t') : (∃ i v g, openGroup t i v g = some t') ∨
    (t'.groupIncIdx = t.groupIncIdx ∧ ∀ i v b, ∀ e ∈ t'.hashTable i v b, Descends t i v b e) := by
  cases h with
  | newGroup hopen => exact Or.inl ⟨_, _, _, hopen⟩
  | freeGroup he hid hempty => exact Or.inr ⟨rfl, descends_freeGroup⟩
  | linkClient he hpool hnew hsources => exact Or.inr ⟨rfl, descends_modifyClients⟩
  | storeClient hc hid hkey hmoved => exact Or.inr ⟨rfl, descends_modifyClients⟩
  | deleteClient hc => exact Or.inr ⟨rfl, descends_modifyClients⟩

/-- The new group is in front of its chain, with the next index. -/
theorem mem_openGroup (h : openGroup t i v g = some t') : t' = t ∨ ∃ e₀ : GroupEntry,
    e₀.groupIdx = t.groupIncIdx + 1 ∧ t'.groupIncIdx = t.groupIncIdx + 1 ∧
    ∀ j w b e, e ∈ t'.hashTable j w b →
      (j, w, b) = (i, v, hashAlgorithm v g) ∧ e = e₀ ∨ e ∈ t.hashTable j w b := by
  rcases (openGroup_cases h).2 with ⟨rfl, -⟩ | ⟨-, e₀, -, -, -, hidx, hcounter, -, hchain⟩
  · exact Or.inl rfl
  refine Or.inr ⟨e₀, hidx, hcounter, fun j w b e he => ?_⟩
  rw [hchain] at he
  rcases mem_setChain he with ⟨hb, hl⟩ | he
  · rcases mem_cons.mp hl with rfl | hl
    · exact Or.inl ⟨hb, rfl⟩
    · cases hb
      exact Or.inr hl
  · exact Or.inr he

theorem Change.later (h : Change t t') : Later t t' := by
  rcases h.cases_newGroup with ⟨i, v, g, hopen⟩ | ⟨hcounter, horigin⟩
  · rcases mem_openGroup hopen with rfl | ⟨e₀, hidx, hcounter, hmem⟩
    · exact .refl
    refine ⟨by omega, fun j w b e he => ?_⟩
    rcases hmem j w b e he with ⟨-, rfl⟩ | hold
    · exact Or.inr (by omega)
    · exact Or.inl ⟨e, hold, rfl, rfl⟩
  · exact ⟨hcounter.ge, fun j w b e he => Or.inl (horigin j w b e he)⟩

theorem Change.indexed (h : Change t t') (ht : Indexed t) : Indexed t' := by
  rcases h.cases_newGroup with ⟨i, v, g, hopen⟩ | ⟨hcounter, horigin⟩
  · rcases mem_openGroup hopen with rfl | ⟨e₀, hidx, hcounter, hmem⟩
    · exact ht
    have hold : ∀ j w b e, e ∈ t.hashTable j w b → e.groupIdx ≠ e₀.groupIdx := fun j w b e he => by
      have := ht.bounded j w b e he
      omega
    refine ⟨fun j w b e he => ?_, fun j w b e he j' w' b' e' he' heq => ?_⟩
    · rcases hmem j w b e he with ⟨-, rfl⟩ | he
      · omega
      · have := ht.bounded j w b e he
        omega
    · rcases hmem j w b e he with ⟨hplace, rfl⟩ | he
      · rcases hmem j' w' b' e' he' with ⟨hplace', rfl⟩ | he'
        · exact ⟨hplace.trans hplace'.symm, rfl⟩
        · exact absurd heq.symm (hold j' w' b' e' he')
      · rcases hmem j' w' b' e' he' with ⟨-, rfl⟩ | he'
        · exact absurd heq (hold j w b e he)
        · exact ht.apart j w b e he j' w' b' e' he' heq
  · exact ht.of_descends hcounter horigin

end Indices

section Runs

variable (sysTimerSec : UInt32) (net : Net) (G C S F : ℕ)

theorem indexed_init : Indexed (Db.init net G C S F).tables := by
  have hempty : ∀ i v h e, e ∉ (Db.init net G C S F).tables.hashTable i v h := fun _ _ _ _ => not_mem_nil
  exact ⟨fun i v h e he => absurd he (hempty i v h e), fun i v h e he => absurd he (hempty i v h e)⟩

/-- In every run the groups differ in their indices. -/
theorem run_indexed (es : List Event) : Unique (run (step sysTimerSec) (Db.init net G C S F) es).tables ∧
    Indexed (run (step sysTimerSec) (Db.init net G C S F) es).tables := by
  have hstep : ∀ (db : Db) e, Unique db.tables ∧ Indexed db.tables →
      Unique (step sysTimerSec db e).tables ∧ Indexed (step sysTimerSec db e).tables := by
    rintro db e ⟨hu, hidx⟩
    exact ⟨step_unique e hu, (evolves_step sysTimerSec db e).keeps (fun _ _ h _ => h.indexed) hu hidx⟩
  exact run_always hstep es _ ⟨unique_init net G C S F, indexed_init net G C S F⟩

/-- What is linked in the rest of a run has a newer index. -/
theorem run_later (db : Db) (es : List Event) (hu : Unique db.tables) :
    Later db.tables (run (step sysTimerSec) db es).tables := by
  induction es generalizing db with
  | nil => exact .refl
  | cons e es ih =>
    have hstep : Later db.tables (step sysTimerSec db e).tables :=
      (evolves_step sysTimerSec db e).keeps (P := Later db.tables)
        (fun _ _ hchange _ h => h.trans hchange.later) hu .refl
    exact hstep.trans (ih (step sysTimerSec db e) (step_unique e hu))

end Runs

/-! ### The listed groups -/

/-- The groups that the search for a device or bridge looks at, in the order it meets them. -/
def visitedGroups (net : Net) (t : Tables) (ifidx : UInt32) (v : IpVersion) : List GroupEntry :=
  ((validModules net).filter fun i => !(brModuleOf net ifidx).isSome || (net.brInfo i).ifindex == ifidx).flatMap
    fun i => groupsOf t i v

/-- The client counts: it is on the device, or any client of the bridge does. -/
def counted (net : Net) (ifidx : UInt32) (c : ClientEntry) : Bool :=
  ((devInfoOf net ifidx).isSome && c.inIfidx == ifidx) || (brModuleOf net ifidx).isSome

/-- The group is one of the bridge with a member, or for a device one with a member on it. -/
def Listed (net : Net) (t : Tables) (ifidx : UInt32) (v : IpVersion) (e : GroupEntry) : Prop :=
  ∃ i ∈ validModules net, e ∈ groupsOf t i v ∧
    if (brModuleOf net ifidx).isSome then (net.brInfo i).ifindex = ifidx ∧ e.clientList ≠ []
    else (devInfoOf net ifidx).isSome ∧ ∃ c ∈ e.clientList, c.inIfidx = ifidx

/-- The listed group with the least index from `getIdx` on. -/
def nextListed (net : Net) (t : Tables) (ifidx : UInt32) (v : IpVersion) (getIdx : ℕ) : Option GroupEntry :=
  NextIndex.scan GroupEntry.groupIdx (fun e => e.clientList.any (counted net ifidx)) getIdx t.groupIncIdx
    (visitedGroups net t ifidx v)

section Listed

variable {net : Net} {t : Tables} {ifidx : UInt32} {v : IpVersion} {e : GroupEntry}

theorem mem_visitedGroups : e ∈ visitedGroups net t ifidx v ↔ ∃ i ∈ validModules net, e ∈ groupsOf t i v ∧
    ((brModuleOf net ifidx).isSome → (net.brInfo i).ifindex = ifidx) := by
  unfold visitedGroups
  rw [mem_flatMap]
  constructor
  · rintro ⟨i, hi, he⟩
    obtain ⟨hvalid, hbr⟩ := mem_filter.mp hi
    refine ⟨i, hvalid, he, fun hsome => ?_⟩
    simpa [hsome] using hbr
  · rintro ⟨i, hvalid, he, hbr⟩
    refine ⟨i, mem_filter.mpr ⟨hvalid, ?_⟩, he⟩
    cases hsome : (brModuleOf net ifidx).isSome with
    | false => rfl
    | true => simpa using hbr hsome

theorem listed_iff : Listed net t ifidx v e ↔
    e ∈ visitedGroups net t ifidx v ∧ e.clientList.any (counted net ifidx) := by
  rw [mem_visitedGroups]
  unfold Listed counted
  cases hbr : (brModuleOf net ifidx).isSome with
  | false =>
    cases hdev : (devInfoOf net ifidx).isSome with
    | false => simp
    | true =>
      simp only [Bool.false_eq_true, if_false, true_and, false_implies, and_true, Bool.true_and, Bool.or_false,
        any_eq_true, beq_iff_eq]
      constructor
      · rintro ⟨i, hi, he, hc⟩
        exact ⟨⟨i, hi, he⟩, hc⟩
      · rintro ⟨⟨i, hi, he⟩, hc⟩
        exact ⟨i, hi, he, hc⟩
  | true =>
    have hany : (e.clientList.any fun c => (devInfoOf net ifidx).isSome && c.inIfidx == ifidx || true) = true ↔
        e.clientList ≠ [] := by
      rw [any_eq_true]
      simp [eq_nil_iff_forall_not_mem]
    rw [hany]
    simp only [if_true, true_implies]
    constructor
    · rintro ⟨i, hi, he, hidx, hne⟩
      exact ⟨⟨i, hi, he, hidx⟩, hne⟩
    · rintro ⟨⟨i, hi, he, hidx⟩, hne⟩
      exact ⟨i, hi, he, hidx, hne⟩

/-- Every client that counts makes the group the one found; more of them change nothing. -/
theorem foldl_counted {α β : Type} (p : α → Bool) (x : β) (l : List α) (s : β) :
    l.foldl (fun s a => if p a then x else s) s = if l.any p then x else s := by
  induction l generalizing s with
  | nil => rfl
  | cons a l ih =>
    rw [foldl_cons, ih, any_cons]
    cases p a <;> simp

theorem nextGroupStep_eq (counts : ClientEntry → Bool) (low : ℕ) (s : NextGroup) (e : GroupEntry) :
    nextGroupStep counts low s e = if low ≤ e.groupIdx ∧ e.groupIdx ≤ s.searchIdx then
      if e.clientList.any counts then ⟨e.groupIdx, some (e.groupIdx, e.groupAddr)⟩ else s else s := by
  rw [nextGroupStep, foldl_counted]

/-- For what is neither device nor bridge no client counts, so the loops may be run for it too. -/
theorem nextValidGroup_fold (getIdx : ℕ) : nextValidGroup net t ifidx v getIdx =
    ((visitedGroups net t ifidx v).foldl (nextGroupStep (counted net ifidx) getIdx)
      ⟨t.groupIncIdx, none⟩).hit := by
  unfold nextValidGroup
  dsimp only
  split
  · next hneither =>
    obtain ⟨hdev, hbr⟩ : (devInfoOf net ifidx).isSome = false ∧ (brModuleOf net ifidx).isSome = false := by
      simpa using hneither
    have hnone : (visitedGroups net t ifidx v).foldl (nextGroupStep (counted net ifidx) getIdx)
        ⟨t.groupIncIdx, none⟩ = ⟨t.groupIncIdx, none⟩ := by
      refine List.foldlRecOn (motive := fun s : NextGroup => s = ⟨t.groupIncIdx, none⟩) _ _ rfl fun s hs e _ => ?_
      have hany : e.clientList.any (counted net ifidx) = false := by simp [counted, hdev, hbr]
      rw [nextGroupStep_eq, hany, if_neg Bool.false_ne_true, ite_self]
      exact hs
    rw [hnone]
  · rfl

/-- The search is one pass for the least index. -/
theorem nextValidGroup_eq (getIdx : ℕ) : nextValidGroup net t ifidx v getIdx =
    (nextListed net t ifidx v getIdx).map fun e => (e.groupIdx, e.groupAddr) := by
  let found : NextIndex.Scan GroupEntry → NextGroup :=
    fun s => ⟨s.bound, s.hit.map fun e => (e.groupIdx, e.groupAddr)⟩
  have hstep : ∀ s e, nextGroupStep (counted net ifidx) getIdx (found s) e =
      found (NextIndex.visit GroupEntry.groupIdx (fun e => e.clientList.any (counted net ifidx)) getIdx s e) := by
    intro s e
    rw [nextGroupStep_eq, NextIndex.visit]
    by_cases hlow : getIdx ≤ e.groupIdx ∧ e.groupIdx ≤ s.bound
    · rw [if_pos hlow]
      by_cases hany : e.clientList.any (counted net ifidx) = true
      · rw [if_pos hany, if_pos ⟨hlow.1, hlow.2, hany⟩]
        rfl
      · rw [if_neg hany, if_neg fun h => hany h.2.2]
    · rw [if_neg hlow, if_neg fun h => hlow ⟨h.1, h.2.1⟩]
  have hfold : (visitedGroups net t ifidx v).foldl (nextGroupStep (counted net ifidx) getIdx)
      (found ⟨t.groupIncIdx, none⟩) = found _ := foldl_hom found hstep
  rw [nextValidGroup_fold]
  exact congrArg NextGroup.hit hfold

/-- A visited group has its place in the tables. -/
theorem exists_place (he : e ∈ visitedGroups net t ifidx v) : ∃ i b, e ∈ t.hashTable i v b := by
  obtain ⟨i, -, he, -⟩ := mem_visitedGroups.mp he
  obtain ⟨b, -, he⟩ := mem_flatMap.mp he
  exact ⟨i, b, he⟩

theorem Indexed.listed_inj {e' : GroupEntry} (h : Indexed t) (he : Listed net t ifidx v e)
    (he' : Listed net t ifidx v e') (hidx : e.groupIdx = e'.groupIdx) : e = e' := by
  obtain ⟨i, b, he⟩ := exists_place (listed_iff.mp he).1
  obtain ⟨j, b', he'⟩ := exists_place (listed_iff.mp he').1
  exact (h.apart i v b e he j v b' e' he' hidx).2

theorem Indexed.visited_le (h : Indexed t) (he : e ∈ visitedGroups net t ifidx v) :
    e.groupIdx ≤ t.groupIncIdx := by
  obtain ⟨i, b, he⟩ := exists_place he
  exact h.bounded i v b e he

theorem nextListed_isNext (h : Indexed t) (net : Net) (ifidx : UInt32) (v : IpVersion) (getIdx : ℕ) :
    NextIndex.IsNext GroupEntry.groupIdx (Listed net t ifidx v) getIdx (nextListed net t ifidx v getIdx) := by
  have hlisted : Listed net t ifidx v = fun e =>
      e ∈ visitedGroups net t ifidx v ∧ e.clientList.any (counted net ifidx) = true :=
    funext fun _ => propext listed_iff
  rw [hlisted]
  exact NextIndex.scan_isNext fun _ he => h.visited_le he

/-- The listed groups of tables whose groups differ in their indices: the answers to repeated calls,
    each group once and in the order of creation. -/
theorem exists_listed (net : Net) (ifidx : UInt32) (v : IpVersion) (h : Indexed t) : ∃ groups : List GroupEntry,
    NextIndex.Walk GroupEntry.groupIdx (nextListed net t ifidx v) 0 groups ∧
    groups.Pairwise (fun e e' => e.groupIdx < e'.groupIdx) ∧ (∀ e, e ∈ groups ↔ Listed net t ifidx v e) ∧
    groups.length ≤ t.groupIncIdx + 1 := by
  obtain ⟨groups, hwalk, hsorted, hmem⟩ := NextIndex.exists_walk (nextListed_isNext h net ifidx v)
    (fun e he => h.visited_le (listed_iff.mp he).1) (fun _ _ => h.listed_inj) 0
  have hlisted : ∀ e, e ∈ groups ↔ Listed net t ifidx v e := by
    intro e
    rw [hmem, and_iff_left (Nat.zero_le _)]
  refine ⟨groups, hwalk, hsorted, hlisted, NextIndex.length_le_of_sorted hsorted fun e he => ?_⟩
  exact h.visited_le (listed_iff.mp ((hlisted e).mp he)).1

/-- No group is visited twice. -/
theorem Indexed.nodup_visited (h : Indexed t) : (visitedGroups net t ifidx v).Nodup := by
  unfold visitedGroups
  rw [nodup_flatMap]
  refine ⟨fun i _ => (groupKeys_nodup t i v).of_map _, ?_⟩
  have hmodules : ((validModules net).filter fun i =>
      !(brModuleOf net ifidx).isSome || (net.brInfo i).ifindex == ifidx).Nodup :=
    (nodup_range.filter _).filter _
  refine hmodules.imp fun {i j} hne => ?_
  intro e he he'
  obtain ⟨b, -, he⟩ := mem_flatMap.mp he
  obtain ⟨b', -, he'⟩ := mem_flatMap.mp he'
  exact hne (Prod.mk.inj (h.apart i v b e he j v b' e he' rfl).1).1

/-- The sum over the answers. -/
theorem totalWeight_walk {groups : List GroupEntry} {getIdx : ℕ}
    (hwalk : NextIndex.Walk GroupEntry.groupIdx (nextListed net t ifidx v) getIdx groups) {fuel : ℕ}
    (hfuel : groups.length ≤ fuel) (total : UInt32) :
    totalWeight net t ifidx v fuel getIdx total =
      total + (groups.map fun e => checkGroupWeightTbl net ifidx v e.groupAddr).sum := by
  induction groups generalizing getIdx fuel total with
  | nil =>
    have hnext : nextValidGroup net t ifidx v getIdx = none := by
      have hnone : nextListed net t ifidx v getIdx = none := hwalk
      rw [nextValidGroup_eq, hnone, Option.map_none]
    have hzero : totalWeight net t ifidx v fuel getIdx total = total := by
      cases fuel with
      | zero => rfl
      | succ fuel => rw [totalWeight, hnext]
    rw [hzero, map_nil, sum_nil, UInt32.add_zero]
  | cons e groups ih =>
    obtain ⟨hfirst, hrest⟩ := hwalk
    have hnext : nextValidGroup net t ifidx v getIdx = some (e.groupIdx, e.groupAddr) := by
      rw [nextValidGroup_eq, hfirst, Option.map_some]
    cases fuel with
    | zero => exact absurd hfuel (Nat.not_succ_le_zero _)
    | succ fuel =>
      rw [totalWeight, hnext]
      dsimp only
      rw [ih hrest (Nat.le_of_succ_le_succ hfuel), map_cons, sum_cons, UInt32.add_assoc]

end Listed

end PhoebusBsp.Igmp

import PhoebusBsp.Igmp.FlowTable

/-! What is deleted when the pool of flow entries has run out.

        first pass     the head of the first chain becomes the candidate; what has expired is deleted
        second pass    only if nothing was deleted: the candidate becomes the oldest flow, and is deleted

    The candidate is a pointer that may point to an entry which the first pass has freed, but then it is not
    used. A flow expires when `refreshTime + 140` is over, computed in 32 bits. -/

namespace PhoebusBsp.Igmp
open Schemes List

/-! ### The two passes -/

/-- The variables of the first loop; an entry is its address. -/
structure Pass where
  flows : Flows
  oldestMcastFlowEntry : Option ℕ
  freeCnt : ℕ

/-- At the head of a chain a candidate that is still missing is the head. -/
def candidate (oldest : Option ℕ) (chain : List FlowEntry) : Option ℕ := oldest.or (chain.head?.map FlowEntry.id)

/-- The first loop, for one chain. -/
def firstPass (now : UInt32) (i : ℕ) (s : Pass) (h : ℕ) : Pass :=
  let chain := s.flows.flowHashTable i h
  chain.foldl (fun s e =>
      if expires now e then ⟨deleteMcastFlowEntry s.flows i e, s.oldestMcastFlowEntry, s.freeCnt + 1⟩ else s)
    { s with oldestMcastFlowEntry := candidate s.oldestMcastFlowEntry chain }

section Pointers

variable (fl : Flows) (i p : ℕ)

/-- The entry at an address. -/
def flowAt : Option FlowEntry := Chain.search FlowEntry.id p (flowsOf fl i)

/-- An entry that has been freed is cleared. -/
def refreshTimeAt : UInt32 := ((flowAt fl i p).map FlowEntry.refreshTime).getD 0

/-- An entry that has been freed gets into the pool a second time. -/
def deleteAt : Flows :=
  match flowAt fl i p with
  | some e => deleteMcastFlowEntry fl i e
  | none => { fl with flowPool := p :: fl.flowPool }

end Pointers

/-- The second loop, for one chain. -/
def secondPass (fl : Flows) (i : ℕ) (oldest : Option ℕ) (h : ℕ) : Option ℕ :=
  let chain := fl.flowHashTable i h
  chain.foldl (fun oldest e => oldest.map fun p => if e.refreshTime < refreshTimeAt fl i p then e.id else p)
    (candidate oldest chain)

/-- `rtk_igmp_doMcastFlowRecycle`, pass by pass. -/
def recyclePasses (now : UInt32) (fl : Flows) (i : ℕ) : Flows :=
  let s := (List.range hashTblSize).foldl (firstPass now i) ⟨fl, none, 0⟩
  if s.freeCnt > 0 then s.flows
  else
    match (List.range hashTblSize).foldl (secondPass s.flows i) s.oldestMcastFlowEntry with
    | some p => deleteAt s.flows i p
    | none => s.flows

/-- The flow table of a module: every flow is in the chain of its group, and all are different entries. -/
structure Linked (fl : Flows) (i : ℕ) : Prop where
  placed : ∀ h, ∀ e ∈ fl.flowHashTable i h, e.key.hash = h
  once : ((flowsOf fl i).map FlowEntry.id).Nodup

section Passes

variable {now : UInt32} {fl : Flows} {i : ℕ}

theorem firstPass_eq (s : Pass) (h : ℕ) :
    firstPass now i s h = ⟨((s.flows.flowHashTable i h).filter (expires now)).foldl (deleteMcastFlowEntry · i) s.flows,
      candidate s.oldestMcastFlowEntry (s.flows.flowHashTable i h),
      s.freeCnt + ((s.flows.flowHashTable i h).filter (expires now)).length⟩ := by
  obtain ⟨fl, old, cnt⟩ := s
  unfold firstPass
  dsimp only
  generalize candidate old (fl.flowHashTable i h) = old
  generalize fl.flowHashTable i h = chain
  induction chain generalizing fl cnt with
  | nil => rfl
  | cons e chain ih =>
    rw [foldl_cons]
    by_cases he : expires now e = true
    · rw [if_pos he, ih, filter_cons_of_pos he, foldl_cons, length_cons, Nat.add_right_comm,
        Nat.add_assoc]
    · rw [if_neg he, ih, filter_cons_of_neg he]

/-- The first loop deletes what has expired; the candidate is the first flow there was. -/
theorem firstPass_all (hplaced : ∀ h, ∀ e ∈ fl.flowHashTable i h, e.key.hash = h) (hs : List ℕ) (hnodup : hs.Nodup)
    (s : Pass) (hsame : ∀ h ∈ hs, s.flows.flowHashTable i h = fl.flowHashTable i h) :
    let es := (hs.flatMap (fl.flowHashTable i)).filter (expires now)
    hs.foldl (firstPass now i) s = ⟨es.foldl (deleteMcastFlowEntry · i) s.flows,
      candidate s.oldestMcastFlowEntry (hs.flatMap (fl.flowHashTable i)), s.freeCnt + es.length⟩ := by
  induction hs generalizing s with
  | nil => simp [candidate]
  | cons h hs ih =>
    obtain ⟨hh, hnodup⟩ := nodup_cons.mp hnodup
    rw [foldl_cons, firstPass_eq, hsame h mem_cons_self]
    -- the flows of a chain are deleted from that chain
    have hrest : ∀ h' ∈ hs, ((((fl.flowHashTable i h).filter (expires now)).foldl (deleteMcastFlowEntry · i)
        s.flows).flowHashTable i h') = fl.flowHashTable i h' := by
      intro h' hh'
      rw [deletes_table, hsame h' (mem_cons_of_mem _ hh')]
      refine filter_eq_self.mpr fun e _ => decide_eq_true fun e' he' _ hhash => ?_
      rw [hplaced h e' (mem_filter.mp he').1] at hhash
      exact absurd (hhash ▸ hh') hh
    rw [ih hnodup ⟨_, _, _⟩ hrest]
    simp only [flatMap_cons, filter_append, foldl_append, length_append, Nat.add_assoc]
    cases fl.flowHashTable i h <;> simp [candidate]

/-- From a candidate on, the second loop goes through all flows. -/
theorem secondPass_some (hs : List ℕ) (p : ℕ) : hs.foldl (secondPass fl i) (some p) =
    some ((hs.flatMap (fl.flowHashTable i)).foldl
      (fun p e => if e.refreshTime < refreshTimeAt fl i p then e.id else p) p) := by
  have hchain : ∀ (chain : List FlowEntry) p, chain.foldl (fun oldest e => Option.map (fun p =>
      if e.refreshTime < refreshTimeAt fl i p then e.id else p) oldest) (some p) =
      some (chain.foldl (fun p e => if e.refreshTime < refreshTimeAt fl i p then e.id else p) p) := by
    intro chain
    induction chain with
    | nil => exact fun _ => rfl
    | cons e chain ih => exact fun _ => ih _
  induction hs generalizing p with
  | nil => rfl
  | cons h hs ih => rw [foldl_cons, secondPass, candidate, Option.some_or, hchain, ih, flatMap_cons,
      foldl_append]

theorem secondPass_none (h : flowsOf fl i = []) : (List.range hashTblSize).foldl (secondPass fl i) none = none := by
  refine List.foldlRecOn (motive := fun o => o = none) _ _ rfl ?_
  rintro _ rfl b hb
  have hchain : fl.flowHashTable i b = [] := flatMap_eq_nil_iff.mp h b hb
  rw [secondPass, hchain]
  rfl

variable (hfl : Linked fl i)
include hfl

theorem flowAt_of_mem {e : FlowEntry} (he : e ∈ flowsOf fl i) : flowAt fl i e.id = some e :=
  Chain.search_eq_some hfl.once he

/-- The second loop compares addresses as the entries they point to. -/
theorem oldest_ids (es : List FlowEntry) (hes : es ⊆ flowsOf fl i) {e : FlowEntry} (he : e ∈ flowsOf fl i) :
    es.foldl (fun p e => if e.refreshTime < refreshTimeAt fl i p then e.id else p) e.id =
      (es.foldl (fun old e => if e.refreshTime < old.refreshTime then e else old) e).id := by
  induction es generalizing e with
  | nil => rfl
  | cons b es ih =>
    obtain ⟨hb, hes⟩ := cons_subset.mp hes
    have htime : refreshTimeAt fl i e.id = e.refreshTime := by
      rw [refreshTimeAt, flowAt_of_mem hfl he]
      rfl
    rw [foldl_cons, foldl_cons, htime]
    split
    · exact ih hes hb
    · exact ih hes he

theorem secondPass_oldest : (List.range hashTblSize).foldl (secondPass fl i) (candidate none (flowsOf fl i)) =
    (oldestFlow (flowsOf fl i)).map FlowEntry.id := by
  cases hall : flowsOf fl i with
  | nil => exact secondPass_none hall
  | cons e es =>
    have he : e ∈ flowsOf fl i := hall ▸ mem_cons_self
    have hstart : candidate none (e :: es) = some e.id := rfl
    rw [hstart, secondPass_some, ← flowsOf, oldest_ids hfl _ (List.Subset.refl _) he, hall, foldl_cons,
      if_neg (UInt32.lt_irrefl _)]
    rfl

/-- The passes delete the expired flows, or else the oldest: when the candidate is used, nothing has been freed. -/
theorem recyclePasses_eq (now : UInt32) : recyclePasses now fl i = doMcastFlowRecycle now fl i := by
  have hexpires : (fun e : FlowEntry => decide (e.refreshTime + flowExpireTime < now)) = expires now := rfl
  unfold recyclePasses doMcastFlowRecycle
  rw [firstPass_all hfl.placed _ nodup_range _ fun _ _ => rfl, ← flowsOf, hexpires]
  cases (flowsOf fl i).filter (expires now) with
  | cons e es => simp
  | nil =>
    simp only [foldl_nil, length_nil, Nat.add_zero, gt_iff_lt, Nat.lt_irrefl, if_false, secondPass_oldest hfl]
    cases hold : oldestFlow (flowsOf fl i) with
    | none => rfl
    | some e =>
      simp only [Option.map_some, deleteAt, flowAt_of_mem hfl (mem_oldestFlow hold)]

end Passes

/-! ### What is deleted -/

/-- The flow has not been used for more than `IGMP_MCAST_FLOW_EXPIRE_TIME` seconds. -/
def Aged (now : UInt32) (e : FlowEntry) : Prop := flowExpireTime.toNat < now.toNat - e.refreshTime.toNat

/-- The time at which the flow expires does not fit in 32 bits, and what is left of it is over. -/
def Wraps (now : UInt32) (e : FlowEntry) : Prop :=
  2 ^ 32 ≤ e.refreshTime.toNat + flowExpireTime.toNat ∧ e.refreshTime.toNat + flowExpireTime.toNat - 2 ^ 32 < now.toNat

/-- No flow of the module was used less recently. -/
def Oldest (fl : Flows) (i : ℕ) (e : FlowEntry) : Prop :=
  e ∈ flowsOf fl i ∧ ∀ e' ∈ flowsOf fl i, e.refreshTime ≤ e'.refreshTime

/-- Least recently used flows of the module make room. -/
structure Lru (now : UInt32) (i : ℕ) (fl fl' : Flows) : Prop where
  aged : (∃ e ∈ flowsOf fl i, Aged now e) → ∀ e ∈ flowsOf fl i, e ∉ flowsOf fl' i ↔ Aged now e
  oldest : (∀ e ∈ flowsOf fl i, ¬Aged now e) → flowsOf fl i ≠ [] →
    ∃ old, Oldest fl i old ∧ ∀ e ∈ flowsOf fl i, e ∉ flowsOf fl' i ↔ e = old
  nothing : flowsOf fl i = [] → fl' = fl
  others : (∀ e ∈ flowsOf fl' i, e ∈ flowsOf fl i) ∧ ∀ j ≠ i, fl'.flowHashTable j = fl.flowHashTable j
  room : flowsOf fl i ≠ [] → fl'.flowPool ≠ [] ∧ (allocateMcastFlowEntry now fl i).1 ≠ none
  recent : ∀ e ∈ flowsOf fl i, e ∉ flowsOf fl' i → ¬Aged now e → Oldest fl i e

/-- No expiry time wraps around, or just that of the flow that would be deleted anyway. -/
def Judged (now : UInt32) (fl : Flows) (i : ℕ) : Prop :=
  (∀ e ∈ flowsOf fl i, ¬Wraps now e) ∨ (∀ e ∈ flowsOf fl i, ¬Aged now e) ∧
    ∃ old, Oldest fl i old ∧ ∀ e ∈ flowsOf fl i, Wraps now e ↔ e = old

section Deleted

variable {now : UInt32} {fl : Flows} {i : ℕ} {e : FlowEntry}

theorem expires_iff : expires now e = true ↔ Aged now e ∨ Wraps now e := by
  have hr := e.refreshTime.toNat_lt
  have hn := now.toNat_lt
  have ht : flowExpireTime.toNat = 140 := rfl
  rw [expires, decide_eq_true_eq, UInt32.lt_iff_toNat_lt, UInt32.toNat_add, Aged, Wraps]
  omega

theorem Wraps.not_aged (h : Wraps now e) : ¬Aged now e := by
  have hn := now.toNat_lt
  obtain ⟨hle, -⟩ := h
  unfold Aged
  omega

theorem oldest_of_oldestFlow (h : oldestFlow (flowsOf fl i) = some e) : Oldest fl i e := by
  refine ⟨mem_oldestFlow h, fun e' he' => UInt32.le_iff_toNat_le.mpr ?_⟩
  rw [oldestFlow_eq] at h
  exact le_of_mem_argmin (f := fun e => e.refreshTime.toNat) he' h

theorem mem_recycled (h : ∃ e ∈ flowsOf fl i, expires now e = true) :
    e ∈ recycled now fl i ↔ e ∈ flowsOf fl i ∧ expires now e = true := by
  unfold recycled
  split
  · next hnil =>
    obtain ⟨b, hb, hexpires⟩ := h
    exact absurd hexpires (filter_eq_nil_iff.mp hnil b hb)
  · exact mem_filter

theorem recycled_oldest (h : ∀ e ∈ flowsOf fl i, ¬expires now e = true) :
    recycled now fl i = (oldestFlow (flowsOf fl i)).toList := by
  rw [recycled, filter_eq_nil_iff.mpr h]

/-- Something is deleted where there is something. -/
theorem recycled_ne_nil (h : flowsOf fl i ≠ []) : recycled now fl i ≠ [] := by
  unfold recycled
  split
  · cases hall : flowsOf fl i with
    | nil => exact absurd hall h
    | cons e es => nofun
  · next hne => exact hne

theorem deletes_pool {es : List FlowEntry} (h : es ≠ []) : (es.foldl (deleteMcastFlowEntry · i) fl).flowPool ≠ [] := by
  obtain ⟨l, b, rfl⟩ := (eq_nil_or_concat es).resolve_left h
  rw [concat_eq_append, foldl_append]
  nofun

theorem allocateMcastFlowEntry_some (h : flowsOf fl i ≠ []) : (allocateMcastFlowEntry now fl i).1 ≠ none := by
  have hpool : (if fl.flowPool = [] then doMcastFlowRecycle now fl i else fl).flowPool ≠ [] := by
    split
    · rw [doMcastFlowRecycle_eq]
      exact deletes_pool (recycled_ne_nil h)
    · next hne => exact hne
  unfold allocateMcastFlowEntry
  dsimp only
  split
  · next hnil => exact absurd hnil hpool
  · nofun

variable (hfl : Linked fl i)
include hfl

/-- Of the flows of the module just those that recycling deletes are gone. -/
theorem gone_iff (he : e ∈ flowsOf fl i) : e ∉ flowsOf (recyclePasses now fl i) i ↔ e ∈ recycled now fl i := by
  rw [recyclePasses_eq hfl, doMcastFlowRecycle_eq, ← not_iff_not, not_not]
  obtain ⟨h, hh, hmem⟩ := mem_flatMap.mp he
  constructor
  · intro hkept hin
    obtain ⟨h', -, hmem'⟩ := mem_flatMap.mp hkept
    obtain ⟨hold, hne⟩ := mem_deletes _ hmem'
    exact hne e hin rfl (hfl.placed h' e hold) rfl
  · intro hnot
    refine mem_flatMap.mpr ⟨h, hh, ?_⟩
    rw [deletes_table]
    refine mem_filter.mpr ⟨hmem, decide_eq_true fun e' he' _ _ hid => hnot ?_⟩
    rwa [inj_on_of_nodup_map hfl.once he (recycled_sublist.subset he') hid]

/-- What is deleted decides it; the rest holds of any recycling. -/
theorem lru_of (haged : (∃ e ∈ flowsOf fl i, Aged now e) → ∀ e ∈ flowsOf fl i, e ∈ recycled now fl i ↔ Aged now e)
    (holdest : (∀ e ∈ flowsOf fl i, ¬Aged now e) → flowsOf fl i ≠ [] →
      ∃ old, Oldest fl i old ∧ ∀ e ∈ flowsOf fl i, e ∈ recycled now fl i ↔ e = old) :
    Lru now i fl (recyclePasses now fl i) where
  aged h e he := (gone_iff hfl he).trans (haged h e he)
  oldest h hne := by
    obtain ⟨old, hold, hall⟩ := holdest h hne
    exact ⟨old, hold, fun e he => (gone_iff hfl he).trans (hall e he)⟩
  nothing h := by
    have hnil : recycled now fl i = [] := sublist_nil.mp (h ▸ recycled_sublist)
    rw [recyclePasses_eq hfl, doMcastFlowRecycle_eq, hnil]
    rfl
  others := by
    rw [recyclePasses_eq hfl, doMcastFlowRecycle_eq]
    refine ⟨fun e he => ?_, fun j hj => ?_⟩
    · obtain ⟨h, hh, hmem⟩ := mem_flatMap.mp he
      exact mem_flatMap.mpr ⟨h, hh, (mem_deletes _ hmem).1⟩
    · funext h
      rw [deletes_table, filter_eq_self.mpr fun e _ => decide_eq_true fun _ _ heq => absurd heq hj]
  room h := by
    rw [recyclePasses_eq hfl, doMcastFlowRecycle_eq]
    exact ⟨deletes_pool (recycled_ne_nil h), allocateMcastFlowEntry_some h⟩
  recent e he hgone hfresh := by
    rw [gone_iff hfl he] at hgone
    by_cases hsome : ∃ e ∈ flowsOf fl i, Aged now e
    · exact absurd ((haged hsome e he).mp hgone) hfresh
    · obtain ⟨old, hold, hall⟩ := holdest (fun e he h => hsome ⟨e, he, h⟩) (ne_nil_of_mem he)
      rwa [(hall e he).mp hgone]

/-- Recycling makes room as an LRU cache does just where the expiry times do not wrap around, or only that of the flow
    that is the least recently used one. -/
theorem recycling_lru_iff : Lru now i fl (recyclePasses now fl i) ↔ Judged now fl i := by
  constructor
  · intro h
    by_cases hwrap : ∃ e ∈ flowsOf fl i, Wraps now e
    · obtain ⟨w, hw, hwrap⟩ := hwrap
      have hmem : ∀ e ∈ flowsOf fl i, e ∉ flowsOf (recyclePasses now fl i) i ↔ Aged now e ∨ Wraps now e := by
        intro e he
        rw [gone_iff hfl he, mem_recycled ⟨w, hw, expires_iff.mpr (Or.inr hwrap)⟩, and_iff_right he, expires_iff]
      have hfresh : ∀ e ∈ flowsOf fl i, ¬Aged now e := fun e he haged =>
        hwrap.not_aged ((h.aged ⟨e, he, haged⟩ w hw).mp ((hmem w hw).mpr (Or.inr hwrap)))
      obtain ⟨old, hold, hall⟩ := h.oldest hfresh (ne_nil_of_mem hw)
      refine Or.inr ⟨hfresh, old, hold, fun e he => ?_⟩
      rw [← hall e he, hmem e he, or_iff_right (hfresh e he)]
    · exact Or.inl fun e he h => hwrap ⟨e, he, h⟩
  · rintro (hwrap | ⟨hfresh, old, hold, hall⟩)
    · have hexpires : ∀ e ∈ flowsOf fl i, expires now e = true ↔ Aged now e := fun e he =>
        expires_iff.trans (or_iff_left (hwrap e he))
      refine lru_of hfl (fun ⟨b, hb, haged⟩ e he => ?_) fun hfresh hne => ?_
      · rw [mem_recycled ⟨b, hb, (hexpires b hb).mpr haged⟩, and_iff_right he, hexpires e he]
      · have hnone := recycled_oldest fun e he h => hfresh e he ((hexpires e he).mp h)
        have hsome : recycled now fl i ≠ [] := recycled_ne_nil hne
        rw [hnone] at hsome ⊢
        cases hold : oldestFlow (flowsOf fl i) with
        | none => exact absurd (by rw [hold]; rfl) hsome
        | some old => exact ⟨old, oldest_of_oldestFlow hold, fun e _ => by simp⟩
    · refine lru_of hfl (fun ⟨b, hb, haged⟩ => absurd haged (hfresh b hb)) fun _ _ => ⟨old, hold, fun e he => ?_⟩
      have hwrap := (hall old hold.1).mpr rfl
      rw [mem_recycled ⟨old, hold.1, expires_iff.mpr (Or.inr hwrap)⟩, and_iff_right he, expires_iff,
        or_iff_right (hfresh e he), hall e he]

end Deleted

/-- A flow of one group. -/
def sampleFlow (id : ℕ) (refreshTime : UInt32) : FlowEntry :=
  ⟨id, ⟨.v4, ⟨0x0a000001, 0, 0, 0⟩, ⟨0xe0010203, 0, 0, 0⟩, UInt32.ofNat id, 5004, none, none, 17⟩, .clear,
    refreshTime, 1, 0⟩

/-- A module with two flows that were used at these times. -/
def twoFlows (first second : UInt32) : Flows :=
  ⟨fun j h => if j = 0 ∧ h = (sampleFlow 0 0).key.hash then [sampleFlow 0 first, sampleFlow 1 second] else [],
    [], []⟩

theorem flowsOf_twoFlows (first second : UInt32) :
    flowsOf (twoFlows first second) 0 = [sampleFlow 0 first, sampleFlow 1 second] := rfl

theorem linked_twoFlows (first second : UInt32) : Linked (twoFlows first second) 0 where
  placed h e he := by
    simp only [twoFlows, true_and] at he
    split at he
    · next hh =>
      subst hh
      rcases mem_pair.mp he with rfl | rfl <;> rfl
    · exact absurd he not_mem_nil
  once := by
    rw [flowsOf_twoFlows]
    exact (by decide : [0, 1].Nodup)

/-- A flow that was last used 190 seconds ago makes room. -/
theorem recycling_lru_sample : Lru 200 0 (twoFlows 10 150) (recyclePasses 200 (twoFlows 10 150) 0) := by
  refine (recycling_lru_iff (linked_twoFlows 10 150)).mpr (Or.inl ?_)
  simp [flowsOf_twoFlows, Wraps, sampleFlow, flowExpireTime]

/-- Shortly before the clock wraps around, flows that were used 15 and 5 seconds ago are both deleted. -/
theorem recycling_deletes_recent : Linked (twoFlows 4294967276 4294967286) 0 ∧
    ¬Lru 4294967291 0 (twoFlows 4294967276 4294967286)
      (recyclePasses 4294967291 (twoFlows 4294967276 4294967286) 0) := by
  refine ⟨linked_twoFlows _ _, fun h => ?_⟩
  have hnone : flowsOf (recyclePasses 4294967291 (twoFlows 4294967276 4294967286) 0) 0 = [] := by decide +kernel
  obtain ⟨old, -, hall⟩ := h.oldest (by simp [flowsOf_twoFlows, Aged, sampleFlow, flowExpireTime]) nofun
  simp only [hnone, not_mem_nil, not_false_eq_true, true_iff, flowsOf_twoFlows, forall_mem_cons] at hall
  exact absurd (hall.1.trans hall.2.1.symm) (by decide)

end PhoebusBsp.Igmp

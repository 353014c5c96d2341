import Mathlib.Data.List.MinMax
import PhoebusBsp.Igmp.System
import PhoebusBsp.Schemes.Arena

/-! The flow entries as they lie in memory, and that memory follows every change of the flow tables.

        mcastFlowEntryPool    flowHashTable[bucket]      heads of doubly linked lists

    The flow tables change in three ways: an entry is refreshed or gets a new answer, an entry is deleted,
    a new entry comes in front of its chain. Whatever computes, records and forgets flows is made of
    these. -/

namespace PhoebusBsp.Igmp
open Schemes Chain Arena List

/-- The links of the flow entries; a bucket is a module and an index. -/
abbrev FlowHeap := Pooled (ℕ × ℕ) ℕ

/-! ### Memory -/

section Routines

variable (m : FlowHeap)

/-- `rtk_igmp_initMcastFlowEntryPool`. -/
def FlowHeap.init (flowCount : ℕ) : FlowHeap := fresh flowCount

def FlowHeap.allocateMcastFlowEntry : Option ℕ × FlowHeap := allocate m

def linkMcastFlowEntry (b : ℕ × ℕ) (a : ℕ) : FlowHeap := link m b a

def unlinkMcastFlowEntry (b : ℕ × ℕ) (a : ℕ) : FlowHeap := unlink m b a

def clearMcastFlowEntry (a : ℕ) : FlowHeap := clear m a

def freeMcastFlowEntry (a : ℕ) : FlowHeap := free m a

end Routines

/-- A new entry is allocated and linked, an old one is unlinked, cleared and freed. -/
def execFlow (m : FlowHeap) : FlowCall → FlowHeap
  | .new b =>
    match FlowHeap.allocateMcastFlowEntry m with
    | (none, m) => m
    | (some a, m) => linkMcastFlowEntry m b a
  | .delete b a => freeMcastFlowEntry (clearMcastFlowEntry (unlinkMcastFlowEntry m b a) a) a

/-- Every flow is in the chain of its group and in a module of `modules`, and no chain has two flows with
    one key. -/
structure Filed (modules : List ℕ) (fl : Flows) : Prop where
  placed : ∀ i h, ∀ e ∈ fl.flowHashTable i h, e.key.hash = h
  distinct : ∀ i h, ((fl.flowHashTable i h).map FlowEntry.key).Nodup
  vacant : ∀ i, i ∉ modules → ∀ h, fl.flowHashTable i h = []

/-- The lists are those of the flow tables. -/
structure ShowsFlows (fl : Flows) (lists : Option (ℕ × ℕ) → List ℕ) : Prop where
  pool : lists none = fl.flowPool
  chains : ∀ i h, lists (some (i, h)) = (fl.flowHashTable i h).map FlowEntry.id

/-- Memory holds the flow tables. -/
def FlowBacked (modules : List ℕ) (flowCount : ℕ) (m : FlowHeap) (fl : Flows) : Prop :=
  ∃ lists, Tiles (· < flowCount) m lists ∧ ShowsFlows fl lists ∧ Filed modules fl

/-- Memory holds the flow tables after their calls, if it did before. -/
def FlowFollows (modules : List ℕ) (fl fl' : Flows) : Prop :=
  ∀ F m, FlowBacked modules F (fl.calls.foldl execFlow m) fl →
    FlowBacked modules F (fl'.calls.foldl execFlow m) fl'

section Follows

variable {V : List ℕ} {fl fl' fl'' : Flows}

theorem FlowFollows.refl : FlowFollows V fl fl := fun _ _ h => h

theorem FlowFollows.trans (h : FlowFollows V fl fl') (h' : FlowFollows V fl' fl'') : FlowFollows V fl fl'' :=
  fun F m hm => h' F m (h F m hm)

/-- What the last calls do to memory that holds the flow tables. -/
theorem FlowFollows.of_calls {log : List FlowCall} (hcalls : fl'.calls = fl.calls ++ log)
    (h : ∀ F m, FlowBacked V F m fl → FlowBacked V F (log.foldl execFlow m) fl') : FlowFollows V fl fl' := by
  intro F m hm
  rw [hcalls, foldl_append]
  exact h F _ hm

end Follows

/-! ### The three changes -/

section Changes

variable {V : List ℕ} {fl : Flows} {i : ℕ} {e : FlowEntry} {f : List FlowEntry → List FlowEntry}

theorem modifyChain_self {h : ℕ} :
    (fl.modifyChain i h f).flowHashTable i h = f (fl.flowHashTable i h) := if_pos ⟨rfl, rfl⟩

theorem modifyChain_other {j b h : ℕ} (hne : (j, b) ≠ (i, h)) :
    (fl.modifyChain i h f).flowHashTable j b = fl.flowHashTable j b :=
  if_neg fun heq => hne (by rw [heq.1, heq.2])

/-- What holds of every chain before and of the new chain holds of every chain after. -/
theorem modifyChain_all {P : ℕ → ℕ → List FlowEntry → Prop} {h : ℕ}
    (hold : ∀ j b, P j b (fl.flowHashTable j b)) (hnew : P i h (f (fl.flowHashTable i h))) (j b : ℕ) :
    P j b ((fl.modifyChain i h f).flowHashTable j b) := by
  by_cases heq : (j, b) = (i, h)
  · obtain ⟨rfl, rfl⟩ := Prod.mk.inj heq
    rw [modifyChain_self]
    exact hnew
  · rw [modifyChain_other heq]
    exact hold j b

/-- A chain stays in order when its flows are among the old ones or new, in the right chain, and different. -/
theorem Filed.modifyChain {h : ℕ} (hfl : Filed V fl) (hplaced : ∀ e ∈ f (fl.flowHashTable i h), e.key.hash = h)
    (hdistinct : ((f (fl.flowHashTable i h)).map FlowEntry.key).Nodup)
    (hvacant : i ∉ V → f [] = []) : Filed V (fl.modifyChain i h f) where
  placed := modifyChain_all (P := fun _ b l => ∀ e ∈ l, e.key.hash = b) hfl.placed hplaced
  distinct := modifyChain_all (P := fun _ _ l => (l.map FlowEntry.key).Nodup) hfl.distinct hdistinct
  vacant j hj b := by
    have hall := modifyChain_all (P := fun j _ l => j ∉ V → l = []) (i := i) (h := h) (f := f)
      (fun j b hj => hfl.vacant j hj b) (fun hi => by rw [hfl.vacant i hi, hvacant hi]) j b
    exact hall hj

theorem flowFollows_modify {k : FlowKey} {f : FlowEntry → FlowEntry}
    (hf : ∀ e, (f e).id = e.id ∧ (f e).key = e.key) : FlowFollows V fl (fl.modify i k f) := by
  rintro F m ⟨lists, htiles, hshows, hfiled⟩
  have hids : ∀ l, (update FlowEntry.key k f l).map FlowEntry.id = l.map FlowEntry.id := fun _ =>
    map_update fun e _ => (hf e).1
  have hkeys : ∀ l, (update FlowEntry.key k f l).map FlowEntry.key = l.map FlowEntry.key := fun _ =>
    map_update fun e _ => (hf e).2
  refine ⟨lists, htiles, ⟨hshows.pool, fun j b => ?_⟩, ?_⟩
  · exact modifyChain_all (P := fun j b l => lists (some (j, b)) = l.map FlowEntry.id) hshows.chains
      (by rw [hids, hshows.chains]) j b
  · refine hfiled.modifyChain (fun e he => ?_) ?_ fun _ => rfl
    · rcases mem_update he with he | ⟨e', -, hkey, rfl⟩
      · exact hfiled.placed i _ e he
      · rw [(hf e').2, hkey]
    · rw [hkeys]
      exact hfiled.distinct i _

/-- The entry is in its chain, perhaps with another answer. -/
def Present (fl : Flows) (i : ℕ) (e : FlowEntry) : Prop :=
  ∃ e' ∈ fl.flowHashTable i e.key.hash, e'.id = e.id

theorem flowFollows_delete (he : Present fl i e) : FlowFollows V fl (deleteMcastFlowEntry fl i e) := by
  refine .of_calls rfl ?_
  rintro F m ⟨lists, htiles, hshows, hfiled⟩
  obtain ⟨e', he', hid⟩ := he
  have hmem : e.id ∈ lists (some (i, e.key.hash)) := by
    rw [hshows.chains, ← hid]
    exact mem_map_of_mem he'
  have hfilter : ∀ l : List FlowEntry, (l.filter fun e' => e'.id != e.id) = l.filter fun b => b.id ≠ e'.id := by
    intro l
    refine filter_congr fun b _ => ?_
    rw [Bool.eq_iff_iff]
    simp [hid]
  refine ⟨_, htiles.give hmem, ⟨?_, fun j b => ?_⟩, ?_⟩
  · rw [give_none, hshows.pool]
    rfl
  · by_cases hb : (j, b) = (i, e.key.hash)
    · obtain ⟨rfl, rfl⟩ := Prod.mk.inj hb
      have hnodup := htiles.forest.nodup (some (j, e.key.hash))
      rw [hshows.chains] at hnodup
      rw [give_self, hshows.chains]
      refine Eq.trans ?_ (congrArg (List.map FlowEntry.id) (modifyChain_self.trans (hfilter _))).symm
      rw [map_sweep hnodup hnodup he', hid]
    · rw [give_other hb, hshows.chains]
      exact congrArg (List.map FlowEntry.id) (modifyChain_other hb).symm
  · have hsub : ∀ l : List FlowEntry, (l.filter fun e' => e'.id != e.id).Sublist l := fun _ => filter_sublist
    have hchain : Filed V (fl.modifyChain i e.key.hash (List.filter fun e' => e'.id != e.id)) :=
      hfiled.modifyChain (fun b hb => hfiled.placed i _ b ((hsub _).subset hb))
        ((hfiled.distinct i _).sublist ((hsub _).map FlowEntry.key)) fun _ => rfl
    exact ⟨hchain.placed, hchain.distinct, hchain.vacant⟩

theorem flowFollows_insert {pool : List ℕ} (hi : i ∈ V) (hpool : fl.flowPool = e.id :: pool)
    (hnew : search FlowEntry.key e.key (fl.flowHashTable i e.key.hash) = none) :
    FlowFollows V fl ({ fl with flowPool := pool }.link i e) := by
  refine .of_calls rfl ?_
  rintro F m ⟨lists, htiles, hshows, hfiled⟩
  have hfree : lists none = e.id :: pool := hshows.pool.trans hpool
  have hexec : execFlow m (.new (i, e.key.hash)) = link (allocate m).2 (i, e.key.hash) e.id := by
    have halloc := (allocate_spec htiles.forest hfree).1
    unfold execFlow FlowHeap.allocateMcastFlowEntry
    rcases hm : allocate m with ⟨p, m'⟩
    rw [hm] at halloc
    obtain rfl : p = some e.id := halloc
    rfl
  have hfiled' : Filed V { fl with flowPool := pool } := ⟨hfiled.placed, hfiled.distinct, hfiled.vacant⟩
  have hlinked : ({ fl with flowPool := pool }.link i e).flowHashTable =
      ({ fl with flowPool := pool }.modifyChain i e.key.hash (e :: ·)).flowHashTable := rfl
  refine ⟨take lists (i, e.key.hash), ?_, ⟨take_none hfree, fun j b => ?_⟩, ?_⟩
  · rw [foldl_cons, foldl_nil, hexec]
    exact htiles.take hfree
  · by_cases hb : (j, b) = (i, e.key.hash)
    · obtain ⟨rfl, rfl⟩ := Prod.mk.inj hb
      rw [take_self hfree, hshows.chains, hlinked, modifyChain_self]
      rfl
    · rw [take_other hb, hshows.chains, hlinked, modifyChain_other hb]
  · have hchain : Filed V ({ fl with flowPool := pool }.modifyChain i e.key.hash (e :: ·)) := by
      refine hfiled'.modifyChain (fun b hb => ?_) ?_ fun hnot => absurd hi hnot
      · rcases mem_cons.mp hb with rfl | hb
        · rfl
        · exact hfiled.placed i _ b hb
      · exact nodup_cons.mpr ⟨search_eq_none.mp hnew, hfiled.distinct i _⟩
    exact ⟨hchain.placed, hchain.distinct, hchain.vacant⟩

end Changes

/-! ### Several flows of a module -/

section Several

variable {V : List ℕ} {fl fl' : Flows} {i : ℕ} {e e' : FlowEntry}

theorem Present.delete (h : Present fl i e') (hne : e'.id ≠ e.id) :
    Present (deleteMcastFlowEntry fl i e) i e' := by
  obtain ⟨b, hb, hid⟩ := h
  refine ⟨b, ?_, hid⟩
  have hkeep : b ∈ (fl.flowHashTable i e'.key.hash).filter fun b => b.id != e.id :=
    mem_filter.mpr ⟨hb, by simpa [hid] using hne⟩
  have htable : (deleteMcastFlowEntry fl i e).flowHashTable =
      (fl.modifyChain i e.key.hash (List.filter fun b => b.id != e.id)).flowHashTable := rfl
  rw [htable]
  by_cases hb' : (i, e'.key.hash) = (i, e.key.hash)
  · obtain ⟨-, hhash⟩ := Prod.mk.inj hb'
    rw [hhash] at hkeep ⊢
    rw [modifyChain_self]
    exact hkeep
  · rw [modifyChain_other hb']
    exact hb

theorem Present.modify {k : FlowKey} {f : FlowEntry → FlowEntry} (hf : ∀ e, (f e).id = e.id)
    (h : Present fl i e) : Present (fl.modify i k f) i e := by
  obtain ⟨b, hb, hid⟩ := h
  have hids : ∀ l, (update FlowEntry.key k f l).map FlowEntry.id = l.map FlowEntry.id := fun _ =>
    map_update fun e _ => hf e
  have hall : ((fl.modify i k f).flowHashTable i e.key.hash).map FlowEntry.id =
      (fl.flowHashTable i e.key.hash).map FlowEntry.id :=
    modifyChain_all (P := fun j b l => l.map FlowEntry.id = (fl.flowHashTable j b).map FlowEntry.id)
      (fun _ _ => rfl) (hids _) i e.key.hash
  have hmem : e.id ∈ ((fl.modify i k f).flowHashTable i e.key.hash).map FlowEntry.id := by
    rw [hall, ← hid]
    exact mem_map_of_mem hb
  obtain ⟨b', hb', hid'⟩ := mem_map.mp hmem
  exact ⟨b', hb', hid'⟩

/-- A flow is deleted, or changed without its entry and key. -/
def Tends (i : ℕ) (op : Flows → FlowEntry → Flows) : Prop :=
  ∀ fl e, op fl e = deleteMcastFlowEntry fl i e ∨
    ∃ f : FlowEntry → FlowEntry, (∀ e, (f e).id = e.id ∧ (f e).key = e.key) ∧ op fl e = fl.modify i e.key f

theorem tends_ageFlow {now : UInt32} {idle : FlowKey → Bool} : Tends i (ageFlow now idle i) := by
  intro fl e
  unfold ageFlow
  split
  · exact Or.inl rfl
  · exact Or.inr ⟨fun e => { e with refreshTime := now }, fun _ => ⟨rfl, rfl⟩, rfl⟩

section Tends

variable {op : Flows → FlowEntry → Flows} (h : Tends i op)
include h

theorem Tends.follows (he : Present fl i e) : FlowFollows V fl (op fl e) := by
  rcases h fl e with heq | ⟨f, hf, heq⟩
  · rw [heq]
    exact flowFollows_delete he
  · rw [heq]
    exact flowFollows_modify hf

/-- The other flows stay in their chains. -/
theorem Tends.others (hne : e'.id ≠ e.id) (he' : Present fl i e') : Present (op fl e) i e' := by
  rcases h fl e with heq | ⟨f, hf, heq⟩
  · rw [heq]
    exact he'.delete hne
  · rw [heq]
    exact he'.modify fun e => (hf e).1

end Tends

theorem hash_lt (k : FlowKey) : k.hash < hashTblSize := hashAlgorithm_lt k.ipVersion k.groupAddr

/-- The flows of a module have different entries. -/
theorem flowsOf_ids {F : ℕ} {m : FlowHeap} {lists : Option (ℕ × ℕ) → List ℕ} (htiles : Tiles (· < F) m lists)
    (hshows : ShowsFlows fl lists) (i : ℕ) : ((flowsOf fl i).map FlowEntry.id).Nodup := by
  have hids : (flowsOf fl i).map FlowEntry.id = (List.range hashTblSize).flatMap fun h => lists (some (i, h)) := by
    rw [flowsOf, map_flatMap]
    simp only [hshows.chains]
  rw [hids, nodup_flatMap]
  refine ⟨fun h _ => htiles.forest.nodup (some (i, h)), nodup_range.imp fun {h h'} hne a ha ha' => ?_⟩
  have heq := htiles.forest.apart _ _ a ha ha'
  exact hne (Prod.mk.inj (Option.some.inj heq)).2

/-- One flow of a module after the other; each is still there in its turn. -/
theorem flowFollows_each {op : Flows → FlowEntry → Flows} (hop : Tends i op) {es : List FlowEntry}
    (hes : es.Sublist (flowsOf fl i)) : FlowFollows V fl (es.foldl op fl) := by
  rintro F m ⟨lists, htiles, hshows, hfiled⟩
  have hpresent : ∀ e ∈ es, Present fl i e := by
    intro e he
    obtain ⟨h, -, hmem⟩ := mem_flatMap.mp (hes.subset he)
    exact ⟨e, (hfiled.placed i h e hmem).symm ▸ hmem, rfl⟩
  have hids := (flowsOf_ids htiles hshows i).sublist (hes.map FlowEntry.id)
  have hfollows : ∀ (es : List FlowEntry) fl, (∀ e ∈ es, Present fl i e) → (es.map FlowEntry.id).Nodup →
      FlowFollows V fl (es.foldl op fl) := by
    intro es
    induction es with
    | nil => exact fun _ _ _ => .refl
    | cons e es ih =>
      intro fl hpresent hids
      rw [map_cons, nodup_cons] at hids
      refine (hop.follows (hpresent e mem_cons_self)).trans (ih (op fl e) (fun e' he' => ?_) hids.2)
      refine hop.others (fun heq => hids.1 ?_) (hpresent e' (mem_cons_of_mem _ he'))
      exact heq ▸ mem_map_of_mem he'
  exact hfollows es fl hpresent hids F m ⟨lists, htiles, hshows, hfiled⟩

/-- Deleting flows leaves the other entries where they are. -/
theorem deletes_table (es : List FlowEntry) (j h : ℕ) :
    (es.foldl (deleteMcastFlowEntry · i) fl).flowHashTable j h = (fl.flowHashTable j h).filter fun e =>
      ∀ e' ∈ es, j = i → e'.key.hash = h → e.id ≠ e'.id := by
  induction es generalizing fl with
  | nil => simp
  | cons b es ih =>
    have hone : (deleteMcastFlowEntry fl i b).flowHashTable j h =
        (fl.flowHashTable j h).filter fun e => j = i → b.key.hash = h → e.id ≠ b.id := by
      by_cases hb : j = i ∧ h = b.key.hash
      · obtain ⟨rfl, rfl⟩ := hb
        refine modifyChain_self.trans (filter_congr fun e _ => ?_)
        by_cases he : e.id = b.id <;> simp [he]
      · rw [filter_eq_self.mpr fun e _ => decide_eq_true fun hj hh => absurd ⟨hj, hh.symm⟩ hb]
        exact modifyChain_other fun heq => hb (Prod.mk.inj heq)
    rw [foldl_cons, ih, hone, filter_filter]
    refine filter_congr fun e _ => ?_
    rw [Bool.eq_iff_iff]
    simp [and_comm]

/-- Deleting flows leaves none that was not there, and none of those. -/
theorem mem_deletes (es : List FlowEntry) {j h : ℕ}
    (he : e ∈ (es.foldl (deleteMcastFlowEntry · i) fl).flowHashTable j h) :
    e ∈ fl.flowHashTable j h ∧ ∀ e' ∈ es, j = i → e'.key.hash = h → e.id ≠ e'.id := by
  rw [deletes_table] at he
  simpa using he

end Several

/-! ### Recording -/

section Recording

variable {V : List ℕ} {net : Net} {now : UInt32} {fl : Flows} {i : ℕ} {d : DataInfo}

theorem oldestFlow_eq (l : List FlowEntry) : oldestFlow l = l.argmin fun e => e.refreshTime.toNat := by
  cases l with
  | nil => rfl
  | cons b l =>
    refine (foldl_hom some fun old e => ?_).symm
    simp only [List.argAux, UInt32.lt_iff_toNat_lt]
    split <;> rfl

theorem mem_oldestFlow {l : List FlowEntry} {e : FlowEntry} (h : oldestFlow l = some e) : e ∈ l :=
  argmin_mem ((oldestFlow_eq l).symm.trans h)

def expires (now : UInt32) (e : FlowEntry) : Bool := e.refreshTime + flowExpireTime < now

/-- The flows that recycling deletes. -/
def recycled (now : UInt32) (fl : Flows) (i : ℕ) : List FlowEntry :=
  match (flowsOf fl i).filter (expires now) with
  | [] => (oldestFlow (flowsOf fl i)).toList
  | expired => expired

theorem doMcastFlowRecycle_eq (now : UInt32) (fl : Flows) (i : ℕ) :
    doMcastFlowRecycle now fl i = (recycled now fl i).foldl (deleteMcastFlowEntry · i) fl := by
  have hexpires : (fun e : FlowEntry => decide (e.refreshTime + flowExpireTime < now)) = expires now := rfl
  unfold doMcastFlowRecycle recycled
  rw [hexpires]
  cases (flowsOf fl i).filter (expires now) with
  | nil => cases oldestFlow (flowsOf fl i) <;> rfl
  | cons e es => rfl

theorem recycled_sublist : (recycled now fl i).Sublist (flowsOf fl i) := by
  unfold recycled
  split
  · cases hold : oldestFlow (flowsOf fl i) with
    | none => exact nil_sublist _
    | some e => exact singleton_sublist.mpr (mem_oldestFlow hold)
  · exact filter_sublist

/-- The entry that is allocated is the first of the pool, after a recycling. -/
theorem allocateMcastFlowEntry_cases {id : Option ℕ} {fl' : Flows}
    (h : allocateMcastFlowEntry now fl i = (id, fl')) :
    ∃ es : List FlowEntry, es.Sublist (flowsOf fl i) ∧
      ((id = none ∧ fl' = es.foldl (deleteMcastFlowEntry · i) fl) ∨
        ∃ a pool, id = some a ∧ (es.foldl (deleteMcastFlowEntry · i) fl).flowPool = a :: pool ∧
          fl' = { es.foldl (deleteMcastFlowEntry · i) fl with flowPool := pool }) := by
  have hready : ∃ es : List FlowEntry, es.Sublist (flowsOf fl i) ∧
      (if fl.flowPool = [] then doMcastFlowRecycle now fl i else fl) = es.foldl (deleteMcastFlowEntry · i) fl := by
    split
    · exact ⟨_, recycled_sublist, doMcastFlowRecycle_eq now fl i⟩
    · exact ⟨[], nil_sublist _, rfl⟩
  obtain ⟨es, hes, heq⟩ := hready
  refine ⟨es, hes, ?_⟩
  unfold allocateMcastFlowEntry at h
  rw [heq] at h
  generalize es.foldl (deleteMcastFlowEntry · i) fl = fl₁ at h ⊢
  dsimp only at h
  cases hpool : fl₁.flowPool with
  | nil =>
    rw [hpool] at h
    obtain ⟨rfl, rfl⟩ := Prod.mk.inj h
    exact Or.inl ⟨rfl, rfl⟩
  | cons a pool =>
    rw [hpool] at h
    obtain ⟨rfl, rfl⟩ := Prod.mk.inj h
    exact Or.inr ⟨a, pool, rfl, rfl, rfl⟩

/-- What the search finds after its refresh. -/
theorem search_refreshed (now : UInt32) (fl : Flows) (i : ℕ) (k : FlowKey) :
    search FlowEntry.key k ((searchMcastFlowEntry now fl i k).2.flowHashTable i k.hash) =
      (searchMcastFlowEntry now fl i k).1.map fun e => { e with refreshTime := now } :=
  (congrArg _ modifyChain_self).trans (search_update_self fun _ h => h)

/-- Recycling brings no flow in, so a flow that is not found is not found afterwards. -/
theorem search_deletes {k : FlowKey} (es : List FlowEntry)
    (h : search FlowEntry.key k (fl.flowHashTable i k.hash) = none) :
    search FlowEntry.key k ((es.foldl (deleteMcastFlowEntry · i) fl).flowHashTable i k.hash) = none := by
  rw [search_eq_none] at h ⊢
  intro hkey
  obtain ⟨e, he, hek⟩ := mem_map.mp hkey
  exact h (mem_map.mpr ⟨e, (mem_deletes es he).1, hek⟩)

theorem flowFollows_search {k : FlowKey} : FlowFollows V fl (searchMcastFlowEntry now fl i k).2 :=
  flowFollows_modify fun _ => ⟨rfl, rfl⟩

theorem flowFollows_deletes {es : List FlowEntry} (hes : es.Sublist (flowsOf fl i)) :
    FlowFollows V fl (es.foldl (deleteMcastFlowEntry · i) fl) :=
  flowFollows_each (fun _ _ => Or.inl rfl) hes

theorem flowFollows_announce : FlowFollows V fl (announceFlow net now fl i d) := by
  unfold announceFlow
  split
  · exact .refl
  · have hothers : FlowFollows V fl (refreshOthers net now fl i d.key) :=
      List.foldlRecOn (motive := fun fl' => FlowFollows V fl fl') _ _ .refl fun fl' h j _ => h.trans flowFollows_search
    exact hothers.trans (flowFollows_modify fun _ => ⟨rfl, rfl⟩)

theorem flowFollows_record (hi : i ∈ V) {fwd : FwdInfo} : FlowFollows V fl (recordMcastFlow net now fl i d fwd) := by
  unfold recordMcastFlow
  split
  · exact .refl
  · have hlook := search_refreshed now fl i d.key
    have hsearch : FlowFollows V fl (searchMcastFlowEntry now fl i d.key).2 := flowFollows_search
    rcases hfound : searchMcastFlowEntry now fl i d.key with ⟨found, fl₁⟩
    rw [hfound] at hlook hsearch
    cases found with
    | none =>
      dsimp only
      split
      · exact hsearch
      · rcases halloc : allocateMcastFlowEntry now fl₁ i with ⟨id, fl₂⟩
        obtain ⟨es, hes, ⟨rfl, rfl⟩ | ⟨a, pool, rfl, hpool, rfl⟩⟩ := allocateMcastFlowEntry_cases halloc
        · exact hsearch.trans (flowFollows_deletes hes)
        · have hinsert := flowFollows_insert (e := ⟨a, d.key, fwd, now, 1, 0⟩) hi hpool (search_deletes es hlook)
          exact (hsearch.trans (flowFollows_deletes hes)).trans (hinsert.trans flowFollows_announce)
    | some e =>
      dsimp only
      have hkey : e.key = d.key := key_of_search (Prod.mk.inj hfound).1
      have hpresent : Present fl₁ i e := by
        have hhash : e.key.hash = d.key.hash := congrArg FlowKey.hash hkey
        refine ⟨{ e with refreshTime := now }, ?_, rfl⟩
        rw [hhash]
        exact mem_of_search hlook
      have hcount : FlowFollows V fl₁ (fl₁.modify i d.key fun e =>
          { e with refreshTime := now, fwdPktCnt := e.fwdPktCnt + 1 }) := flowFollows_modify fun _ => ⟨rfl, rfl⟩
      split
      · exact hsearch.trans (flowFollows_delete hpresent)
      · split
        · exact hsearch.trans hcount
        · refine (hsearch.trans hcount).trans (.trans ?_ flowFollows_announce)
          exact flowFollows_modify fun _ => ⟨rfl, rfl⟩

theorem flowFollows_useFlow {e : FlowEntry} {copy2cpu : Bool} :
    FlowFollows V fl (useFlow net now fl i d e copy2cpu).flows := by
  have hcount : FlowFollows V fl (fl.modify i d.key fun e =>
      { e with
        fwdPktCnt := e.fwdPktCnt + 1
        defineFwdPktCnt := if d.dummyPkt then e.defineFwdPktCnt + 1 else e.defineFwdPktCnt }) :=
    flowFollows_modify fun _ => ⟨rfl, rfl⟩
  unfold Igmp.useFlow
  dsimp only
  split
  · exact hcount
  · exact hcount.trans flowFollows_announce

theorem flowFollows_invalidate {v : IpVersion} {g : Ip} : FlowFollows V fl (invalidateMCastGroupFlow fl i v g) := by
  refine flowFollows_deletes ?_
  unfold staleFlows
  split
  · exact filter_sublist
  · refine filter_sublist.trans ?_
    rw [flowsOf, flatMap_def]
    refine sublist_flatten_of_mem (mem_map_of_mem ?_)
    exact mem_range.mpr (hashAlgorithm_lt v g)

theorem flowFollows_ageing {idle : FlowKey → Bool} : FlowFollows V fl (agingMcastFlow net now idle fl i) :=
  flowFollows_each tends_ageFlow filter_sublist

theorem flowFollows_flood {idle : FlowKey → Bool} : FlowFollows V fl (deleteUnknownFloodMacstFlow now idle fl i) :=
  flowFollows_each tends_ageFlow (List.Sublist.refl _)

end Recording

/-! ### Answering and computing again -/

/-- The modules in use are among `modules`. -/
def InUse (modules : List ℕ) (net : Net) : Prop := ∀ j ∈ validModules net, j ∈ modules

theorem InUse.steady {V : List ℕ} {net net' : Net} (h : InUse V net) (hnet : Steady net net') : InUse V net' :=
  fun j hj => h j (hnet.validModules ▸ hj)

section Answering

variable {V : List ℕ} {clock : Clock} {t : Tables} {net : Net} {fl : Flows} {i : ℕ} {d : DataInfo} {first : Bool}

theorem flowFollows_compute (hi : i ∈ V) (fwd : FwdInfo) :
    FlowFollows V fl (computeFwdInfo clock t net fl i d fwd).flows := by
  unfold computeFwdInfo
  dsimp only
  split
  · exact flowFollows_record hi
  · split
    · split
      · exact flowFollows_record hi
      · exact .refl
    · exact flowFollows_record hi

theorem flowFollows_getFwdInfo (hi : i ∈ V) : FlowFollows V fl (getFwdInfo clock t net fl i first d).flows := by
  unfold getFwdInfo
  split
  · exact .refl
  · simp only
    split
    · have hsearch : FlowFollows V fl (searchMcastFlowEntry clock.now fl i d.key).2 := flowFollows_search
      rcases hfound : searchMcastFlowEntry clock.now fl i d.key with ⟨found, fl₁⟩
      rw [hfound] at hsearch
      cases found with
      | none => exact hsearch.trans (flowFollows_compute hi _)
      | some e =>
        dsimp only
        split
        · exact hsearch.trans (flowFollows_compute hi _)
        · exact hsearch.trans flowFollows_useFlow
    · exact flowFollows_compute hi _

theorem flowFollows_combineLoop (is : List ℕ) (his : ∀ i ∈ is, i ∈ V) (ans : Answer) :
    FlowFollows V ans.flows (combineLoop clock t first is ans).flows := by
  induction is generalizing ans with
  | nil => exact .refl
  | cons i is ih =>
    have hown : FlowFollows V ans.flows (getFwdInfo clock t ans.net ans.flows i first ans.data).flows :=
      flowFollows_getFwdInfo (his i mem_cons_self)
    unfold combineLoop
    generalize getFwdInfo clock t ans.net ans.flows i first ans.data = tmp at hown ⊢
    dsimp only
    split
    · exact hown.trans (ih (fun j hj => his j (mem_cons_of_mem _ hj))
        { tmp with fwd := ans.fwd.join ans.net.maxDevNum tmp.fwd tmp.success })
    · exact hown

/-- The bridges that are asked are in use. -/
theorem flowFollows_gather (hi : i ∈ V) (hnet : InUse V net) :
    FlowFollows V fl (getMulticastDataFwdInfo clock t net fl i first d).flows := by
  rw [getMulticastDataFwdInfo_gather.2.1]
  unfold gather
  split
  · exact flowFollows_getFwdInfo hi
  · exact flowFollows_combineLoop (combined net i) (fun j hj => hnet j (mem_of_mem_filter hj))
      ⟨false, .clear, d, net, fl⟩

theorem flowFollows_reflushModules {sel : FlowKey → Prop} [DecidablePred sel] {is : List ℕ}
    (his : ∀ i ∈ is, i ∈ V) (s : Net × Flows) (hnet : InUse V s.1) :
    FlowFollows V s.2 (reflushModules clock t sel is s).2 := by
  -- the settings stay as they are for the answers
  suffices H : InUse V (reflushModules clock t sel is s).1 ∧ FlowFollows V s.2 (reflushModules clock t sel is s).2
    from H.2
  unfold reflushModules
  refine List.foldlRecOn (motive := fun s' : Net × Flows => InUse V s'.1 ∧ FlowFollows V s.2 s'.2) _ _
    ⟨hnet, .refl⟩ fun s' hs' i hi => ?_
  refine List.foldlRecOn (motive := fun s' : Net × Flows => InUse V s'.1 ∧ FlowFollows V s.2 s'.2) _ _
    hs' fun s' hs' h _ => ?_
  unfold reflushWalk
  refine List.foldlRecOn (motive := fun s' : Net × Flows => InUse V s'.1 ∧ FlowFollows V s.2 s'.2) _ _
    hs' fun s' hs' e _ => ?_
  split
  · exact hs'
  · split
    · exact ⟨hs'.1.steady getMulticastDataFwdInfo_steady, hs'.2.trans (flowFollows_gather (his i hi) hs'.1)⟩
    · exact hs'

end Answering

end PhoebusBsp.Igmp

import PhoebusBsp.Igmp.FlowTable
import PhoebusBsp.Igmp.Limits
import PhoebusBsp.Igmp.Ledger

/-! Integrity of the tables in every run.

        every entry      in its pool, or in one chain of one module in use
        every chain      doubly linked, without cycles, of groups or flows of its hash value
        no duplicates    of groups and flows in a module, of clients in a group
        nothing lost     the pools are full again when nothing is recorded

    `FlowStep` composes what the handlers do to the flow tables, as `Follows` does for the groups. -/

namespace PhoebusBsp.Igmp
open Schemes Arena List

/-! ### Flows of the handlers -/

/-- Memory can follow the flow tables, and no module comes into use. -/
def FlowStep (modules : List ℕ) (db db' : Db) : Prop :=
  InUse modules db.net → InUse modules db'.net ∧ FlowFollows modules db.flows db'.flows

section FlowStep

variable {V : List ℕ} {db db' db'' : Db} {r : Reporter} {pkt : PktHdr} {v : IpVersion} {c g : Ip} {i : ℕ}

theorem FlowStep.refl : FlowStep V db db := fun h => ⟨h, .refl⟩

theorem FlowStep.trans (h : FlowStep V db db') (h' : FlowStep V db' db'') : FlowStep V db db'' := by
  intro hdb
  obtain ⟨hdb', hfollows⟩ := h hdb
  obtain ⟨hdb'', hfollows'⟩ := h' hdb'
  exact ⟨hdb'', hfollows.trans hfollows'⟩

theorem flowStep_of_calm (hcalm : Calm db db') (hflows : db'.flows = db.flows) : FlowStep V db db' := fun h =>
  ⟨h.steady hcalm.2, hflows ▸ .refl⟩

theorem flowStep_tables {t : Tables} : FlowStep V db { db with tables := t } := flowStep_of_calm calm_tables rfl

theorem flowStep_flows {fl : Flows} (h : FlowFollows V db.flows fl) : FlowStep V db { db with flows := fl } :=
  fun hdb => ⟨hdb, h⟩

theorem flowStep_reflushIn {sel : FlowKey → Prop} [DecidablePred sel] {is : List ℕ} (his : ∀ i ∈ is, i ∈ V) :
    FlowStep V db (db.reflushIn sel is) := fun h =>
  ⟨h.steady calm_reflushIn.2, flowFollows_reflushModules his (db.net, db.flows) h⟩

theorem flowStep_reflush : FlowStep V db (db.reflush g) := by
  intro h
  refine ⟨h.steady flowReflushUpdate_steady, ?_⟩
  have hflows : (db.reflush g).flows = (reflushModules db.clock db.tables (fun k => k.groupAddr = g)
    (validModules db.net) (db.net, db.flows)).2 := rfl
  rw [hflows]
  exact flowFollows_reflushModules h (db.net, db.flows) h

theorem flowStep_robust (V : List ℕ) (db : Db) : Robust (FlowStep V db) where
  tables h := h.trans flowStep_tables
  net hsteady h := h.trans (flowStep_of_calm ⟨rfl, hsteady⟩ rfl)
  reflush h := h.trans flowStep_reflush
  invalidate h := h.trans (flowStep_flows flowFollows_invalidate)

/-! ### Flows of the walks -/

theorem flowStep_ageFlows {idle : FlowKey → Bool} (db : Db) : FlowStep V db (ageFlows idle i db) := by
  unfold ageFlows
  dsimp only
  refine flowStep_flows ?_
  split
  · exact flowFollows_ageing.trans flowFollows_flood
  · exact flowFollows_ageing

theorem flowStep_maintain (sysTimerSec : UInt32) (idle : FlowKey → Bool) (db : Db) (time : UInt32) :
    FlowStep V db (maintainTimerList sysTimerSec idle db time) :=
  (flowStep_robust V db).maintain (fun h => h.trans (flowStep_ageFlows _)) fun h => ⟨h, .refl⟩

theorem flowStep_blackList (p : BlackPattern) (ifidx : UInt32) (db : Db) (hdb : InUse V db.net) :
    FlowStep V db (blackListUpdateFlow p ifidx db) :=
  (flowStep_robust V db).blackList
    (fun i hi h => h.trans (flowStep_reflushIn (forall_mem_singleton.mpr (hdb i hi)))) .refl

theorem flowStep_deleteGroups (i : ℕ) (v : IpVersion) (db : Db) : FlowStep V db (deleteGroups i v db) := by
  have hgroup : ∀ (db : Db) e, FlowStep V db (deleteGroupEntry db i v e) := fun _ _ h =>
    ⟨h, flowFollows_invalidate⟩
  unfold deleteGroups
  refine List.foldlRecOn (motive := fun db' : Db => FlowStep V db db') _ _ .refl fun db' h b _ => ?_
  exact List.foldlRecOn (motive := fun db' : Db => FlowStep V db db') _ _ h fun db' h e _ =>
    h.trans (hgroup db' e)

theorem flowStep_flush (db : Db) (brIfidx : Option UInt32) (v : IpVersion) :
    FlowStep V db (flushBrMdb db brIfidx v) := by
  have hmodule : ∀ (db : Db) i, FlowStep V db (flushModule v db i) := fun db i =>
    (flowStep_deleteGroups i v db).trans (flowStep_flows flowFollows_invalidate)
  unfold flushBrMdb
  exact List.foldlRecOn (motive := fun db' : Db => FlowStep V db db') _ _ .refl fun db' h i _ =>
    h.trans (hmodule db' i)

theorem flowStep_clearModule (i : ℕ) (db : Db) : FlowStep V db (clearModule i db) := by
  have hgroups : FlowStep V db (deleteGroups i .v6 (deleteGroups i .v4 db)) :=
    (flowStep_deleteGroups i .v4 db).trans (flowStep_deleteGroups i .v6 _)
  unfold clearModule
  generalize deleteGroups i .v6 (deleteGroups i .v4 db) = db' at hgroups ⊢
  exact hgroups.trans (flowStep_flows (flowFollows_deletes (List.Sublist.refl _)))

theorem flowStep_unregisterLanDev (db : Db) (ifidx : UInt32) (del : Bool) (hdb : InUse V db.net) :
    FlowStep V db (unregisterLanDev db ifidx del) := by
  have hreflush : ∀ t, FlowStep V db (Db.reflushIn { db with tables := t } (fun _ => True) (validModules db.net)) :=
    fun t => flowStep_tables.trans (flowStep_reflushIn hdb)
  rcases unregisterLanDev_cases db ifidx del with h | ⟨db', -, -, ⟨t, rfl⟩, h | h⟩
  · rw [h]
    exact .refl
  · rw [h]
    exact hreflush t
  · rw [h]
    exact (hreflush t).trans fun h => ⟨h, .refl⟩

end FlowStep

/-! ### Modules in use -/

section Modules

variable {sysTimerSec : UInt32} {db : Db}

theorem mem_validModules_modifyBr {net : Net} {i j : ℕ} :
    j ∈ validModules (net.modifyBr i fun b => { b with validBit := false }) ↔ j ∈ validModules net ∧ j ≠ i := by
  unfold validModules Net.modifyBr
  simp only [mem_filter]
  by_cases hj : j = i <;> simp [hj]

/-- The modules in use stay, but for one that is cleared and given up. -/
theorem step_modules (db : Db) (e : Event) :
    validModules (step sysTimerSec db e).net = validModules db.net ∨
      ∃ i, (∀ j, j ∈ validModules (step sysTimerSec db e).net ↔ j ∈ validModules db.net ∧ j ≠ i) ∧
        (step sysTimerSec db e).tables = (clearModule i db).tables ∧
        (step sysTimerSec db e).flows = (clearModule i db).flows := by
  rcases step_net sysTimerSec db e with ⟨net, lan, wan, hsteady, hnet⟩ | ⟨i, htables, hflows, hnet⟩ <;> rw [hnet]
  · exact Or.inl hsteady.validModules
  · exact Or.inr ⟨i, fun j => mem_validModules_modifyBr, htables, hflows⟩

/-- No flow is left in a module that has been cleared. -/
theorem clearModule_vacant {V : List ℕ} {i : ℕ} (hfiled : Filed V (clearModule i db).flows) (h : ℕ) :
    (clearModule i db).flows.flowHashTable i h = [] := by
  unfold clearModule at hfiled ⊢
  generalize deleteGroups i .v6 (deleteGroups i .v4 db) = db' at hfiled ⊢
  dsimp only at hfiled ⊢
  refine eq_nil_iff_forall_not_mem.mpr fun e he => ?_
  have hhash := hfiled.placed i h e he
  obtain ⟨hmem, hothers⟩ := mem_deletes _ he
  have hflow : e ∈ flowsOf db'.flows i :=
    mem_flatMap.mpr ⟨h, mem_range.mpr (hhash ▸ hash_lt e.key), hmem⟩
  exact hothers e hflow rfl hhash rfl

/-- Memory follows the flow tables of the modules in use. -/
theorem flowBacked_step (sysTimerSec : UInt32) (db : Db) (e : Event) {F : ℕ} {m : FlowHeap}
    (h : FlowBacked (validModules db.net) F (db.flows.calls.foldl execFlow m) db.flows) :
    FlowBacked (validModules (step sysTimerSec db e).net) F ((step sysTimerSec db e).flows.calls.foldl execFlow m)
      (step sysTimerSec db e).flows := by
  have huse : InUse (validModules db.net) db.net := fun _ hj => hj
  have hfollows : FlowFollows (validModules db.net) db.flows (step sysTimerSec db e).flows := by
    cases e with
    | report pkt v c msg => exact ((flowStep_robust _ db).mldProcess .refl huse).2
    | tick time idle => exact (flowStep_maintain sysTimerSec idle db time huse).2
    | data i first d =>
      rw [step, forwardData]
      split
      · next hi => exact flowFollows_gather hi huse
      · exact .refl
    | elapse jiffies => exact .refl
    | blackList p ifidx => exact (flowStep_blackList p ifidx db huse huse).2
    | lanGone ifidx del => exact (flowStep_unregisterLanDev db ifidx del huse huse).2
    | wanGone ifidx del =>
      rw [step, unregisterWanDev]
      split <;> exact .refl
    | brGone ifidx del =>
      have hclear : ∀ i, FlowFollows (validModules db.net) db.flows (clearModule i db).flows := fun i =>
        (flowStep_clearModule i db huse).2
      rw [step]
      rcases unregisterBrDev_cases db ifidx del with h | ⟨i, -, -, hflows, -⟩
      · rw [h]
        exact .refl
      · rw [hflows]
        exact hclear i
    | flush brIfidx v => exact (flowStep_flush db brIfidx v huse).2
  obtain ⟨lists, htiles, hshows, hfiled⟩ := hfollows F m h
  refine ⟨lists, htiles, hshows, hfiled.placed, hfiled.distinct, fun j hj b => ?_⟩
  rcases step_modules db e with hsame | ⟨i, hmodules, -, hflows⟩
  · exact hfiled.vacant j (hsame ▸ hj) b
  · by_cases hji : j = i
    · rw [hflows] at hfiled ⊢
      rw [hji]
      exact clearModule_vacant hfiled b
    · exact hfiled.vacant j (fun hold => hj ((hmodules j).mpr ⟨hold, hji⟩)) b

/-- Modules that are not in use have no groups. -/
def Vacant (db : Db) : Prop := ∀ i, i ∉ validModules db.net → ∀ v g, searchGroupEntry db.tables i v g = none

theorem step_vacant (e : Event) (hu : Unique db.tables) (h : Vacant db) : Vacant (step sysTimerSec db e) := by
  have hout : ∀ i ∉ validModules db.net, ∀ v g, searchGroupEntry (step sysTimerSec db e).tables i v g = none := by
    intro i hi v g
    rw [← h i hi v g]
    rcases step_walked e hu with ⟨pkt, w, c, msg, rfl⟩ | ⟨G, is, -, his, hwalked⟩
    · rcases mldProcess_cases db pkt w c msg with heq | ⟨dev, -, hmodule, -, -⟩
      · rw [step, heq]
      · have hne : i ≠ pkt.moduleIndex := fun heq => hi (heq ▸ hmodule)
        exact (mldProcess_touches db pkt w c msg).frame i v g fun g' _ hspot => hne (spot_inj.mp hspot).1
    · exact hwalked.same i (fun hmem => hi (his i hmem)) v g
  -- a module that goes out of use has been cleared
  intro i hi v g
  rcases step_modules db e with hmodules | ⟨j, hmodules, htables, -⟩
  · exact hout i (hmodules ▸ hi) v g
  · by_cases hij : i = j
    · rw [htables, (clearModule_walked db hu).done i (mem_singleton.mpr hij), Option.bind_fun_none]
    · exact hout i (fun hold => hi ((hmodules i).mpr ⟨hold, hij⟩)) v g

end Modules

/-! ### Full pools -/

section Full

variable {sysTimerSec : UInt32} {db : Db} {G C S : ℕ} {m : Heap} {L : Layout}

/-- No group has a client. -/
def Deserted (t : Tables) : Prop := ∀ i v h, ∀ e ∈ t.hashTable i v h, e.clientList = []

theorem Shows.clients_empty {t : Tables} (h : Shows t L) (hs : Sound G C S m L) (ht : Deserted t) (g : ℕ) :
    L.clients (some g) = [] := by
  by_contra hne
  obtain ⟨⟨i, v, b⟩, hg⟩ := hs.clientsAt g hne
  rw [h.groups] at hg
  obtain ⟨e, he, rfl⟩ := mem_map.mp hg
  rw [h.clients i v e.groupAddr e (searchGroupEntry_of_mem he), ht i v b e he] at hne
  exact hne rfl

/-- The sweep deletes the groups without clients. -/
theorem tick_empty (hu : Unique db.tables) (hvacant : Vacant db) (ht : Deserted db.tables) (time : UInt32)
    (idle : FlowKey → Bool) (i : ℕ) (v : IpVersion) (h : ℕ) :
    (step sysTimerSec db (.tick time idle)).tables.hashTable i v h = [] := by
  have hwalked := (maintainTimerList_walked sysTimerSec idle db time hu).2
  refine eq_nil_iff_forall_not_mem.mpr fun e he => ?_
  have hfound := searchGroupEntry_of_mem he
  rw [step] at hfound
  by_cases hi : i ∈ validModules db.net
  · rw [hwalked.done i hi] at hfound
    obtain ⟨old, hold, hage⟩ := Option.bind_eq_some_iff.mp hfound
    have hclients := ht i v _ old (Chain.mem_of_search hold)
    rw [GroupEntry.ageOpt, hclients, if_pos (filterMap_nil ..)] at hage
    cases hage
  · rw [hwalked.same i hi, hvacant i hi] at hfound
    cases hfound

end Full

/-! ### Every run -/

/-- The memory of the group tables and of the flow tables. -/
structure Memory where
  tables : Heap
  flows : FlowHeap

def Memory.init (groupCount clientCount sourceCount flowCount : ℕ) : Memory :=
  ⟨.init groupCount clientCount sourceCount, .init flowCount⟩

/-- What the calls made so far have made of the memory, one after the other. -/
def Db.memory (db : Db) (m : Memory) : Memory :=
  ⟨db.tables.calls.foldl exec m.tables, db.flows.calls.foldl execFlow m.flows⟩

/-- The tables in memory are in order: `L` and `lists` are the lists of entries that are linked
    there, at `none` those of the pools. -/
structure Intact (sysTimerSec : UInt32) (groupCount clientCount sourceCount flowCount : ℕ) (m : Memory) (db : Db)
    (L : Layout) (lists : Option (ℕ × ℕ) → List ℕ) : Prop where
  /-- All lists are doubly linked and cover the entries; clients hang at groups, sources at clients. -/
  sound : Sound groupCount clientCount sourceCount m.tables L
  tiles : Tiles (· < flowCount) m.flows lists
  /-- They are the chains and pools of the tables. -/
  shows : Shows db.tables L
  showsFlows : ShowsFlows db.flows lists
  /-- Every entry is in one place. -/
  groupPlace : ∀ a < groupCount, ∃! r, a ∈ L.groups r
  clientPlace : ∀ a < clientCount, ∃! r, a ∈ L.clients r
  sourcePlace : ∀ a < sourceCount, ∃! r, a ∈ L.sources r
  flowPlace : ∀ a < flowCount, ∃! r, a ∈ lists r
  /-- A chain that is not empty belongs to a module in use, and to the hash value of its entries. -/
  groupChain : ∀ i v h, ∀ e ∈ db.tables.hashTable i v h,
    i ∈ validModules db.net ∧ e.ipVersion = v ∧ hashAlgorithm e.ipVersion e.groupAddr = h
  flowChain : ∀ i h, ∀ e ∈ db.flows.flowHashTable i h,
    i ∈ validModules db.net ∧ hashAlgorithm e.key.ipVersion e.key.groupAddr = h
  /-- Nothing is there twice. -/
  groupOnce : ∀ i v h v' h', ∀ e ∈ db.tables.hashTable i v h, ∀ e' ∈ db.tables.hashTable i v' h',
    e.ipVersion = e'.ipVersion → addr v e.groupAddr = addr v e'.groupAddr → e = e'
  clientOnce : ∀ i v h, ∀ e ∈ db.tables.hashTable i v h, (e.clientList.map (clientKey v)).Nodup
  flowOnce : ∀ i h h', ∀ e ∈ db.flows.flowHashTable i h, ∀ e' ∈ db.flows.flowHashTable i h', e.key = e'.key → e = e'
  /-- Nothing is lost. Groups that are left without clients go with the next sweep. -/
  membersGone : Deserted db.tables → db.tables.clientPool.Perm (List.range clientCount) ∧
    db.tables.sourcePool.Perm (List.range sourceCount) ∧ ∀ time idle,
      (step sysTimerSec db (.tick time idle)).tables.groupPool.Perm (List.range groupCount)
  groupsGone : (∀ i v h, db.tables.hashTable i v h = []) → db.tables.groupPool.Perm (List.range groupCount)
  flowsGone : (∀ i h, db.flows.flowHashTable i h = []) → db.flows.flowPool.Perm (List.range flowCount)

/-- What is carried from event to event. -/
structure InOrder (groupCount clientCount sourceCount flowCount : ℕ) (m : Memory) (db : Db) : Prop where
  backed : Backed groupCount clientCount sourceCount m.tables db.tables
  flowBacked : FlowBacked (validModules db.net) flowCount m.flows db.flows
  vacant : Vacant db

section Run

variable {sysTimerSec : UInt32} {db : Db} {G C S F : ℕ} {m : Memory}

theorem inOrder_init (net : Net) : InOrder G C S F (.init G C S F) (.init net G C S F) where
  backed := ⟨_, sound_init, ⟨rfl, rfl, rfl, fun _ _ _ => rfl, fun _ _ _ _ h => (nomatch h),
    fun _ _ _ _ h => (nomatch h)⟩, unique_init net G C S F⟩
  flowBacked := ⟨_, tiles_fresh, ⟨rfl, fun _ _ => rfl⟩, fun _ _ _ h => (nomatch h), fun _ _ => nodup_nil,
    fun _ _ _ => rfl⟩
  vacant := fun _ _ _ _ => rfl

/-- The calls of an event keep memory and tables in order. -/
theorem inOrder_step (db : Db) (e : Event) (h : InOrder G C S F (db.memory m) db) :
    InOrder G C S F ((step sysTimerSec db e).memory m) (step sysTimerSec db e) where
  backed := follows_step sysTimerSec db e G C S m.tables h.backed
  flowBacked := flowBacked_step sysTimerSec db e h.flowBacked
  vacant := by
    obtain ⟨-, -, -, hu⟩ := h.backed
    exact step_vacant e hu h.vacant

theorem InOrder.groupPool_full (h : InOrder G C S F m db) (hempty : ∀ i v b, db.tables.hashTable i v b = []) :
    db.tables.groupPool.Perm (List.range G) := by
  obtain ⟨L, hsound, hshows, -⟩ := h.backed
  rw [← hshows.groupPool]
  refine hsound.groups.pool_perm fun ⟨i, v, b⟩ => ?_
  rw [hshows.groups, hempty, map_nil]

/-- A group that is found is in a module in use. -/
theorem InOrder.groupChain (h : InOrder G C S F m db) {i : ℕ} {v : IpVersion} {b : ℕ} {e : GroupEntry}
    (he : e ∈ db.tables.hashTable i v b) : i ∈ validModules db.net := by
  by_contra hi
  cases (h.vacant i hi v e.groupAddr).symm.trans (searchGroupEntry_of_mem he)

theorem InOrder.flowChain (h : InOrder G C S F m db) {i b : ℕ} {e : FlowEntry}
    (he : e ∈ db.flows.flowHashTable i b) : i ∈ validModules db.net ∧ e.key.hash = b := by
  obtain ⟨-, -, -, hfiled⟩ := h.flowBacked
  refine ⟨?_, hfiled.placed i b e he⟩
  by_contra hi
  rw [hfiled.vacant i hi b] at he
  cases he

theorem InOrder.flowOnce (h : InOrder G C S F m db) {i b b' : ℕ} {e e' : FlowEntry}
    (he : e ∈ db.flows.flowHashTable i b)
    (he' : e' ∈ db.flows.flowHashTable i b') (hkey : e.key = e'.key) : e = e' := by
  obtain ⟨-, -, -, hfiled⟩ := h.flowBacked
  obtain rfl := hfiled.placed i b e he
  obtain rfl := hfiled.placed i b' e' he'
  rw [← hkey] at he'
  exact inj_on_of_nodup_map (hfiled.distinct i e.key.hash) he he' hkey

theorem group_once {t : Tables} {i : ℕ} {v v' : IpVersion} {b b' : ℕ} {e e' : GroupEntry}
    (he : e ∈ t.hashTable i v b) (he' : e' ∈ t.hashTable i v' b') (hversion : e.ipVersion = e'.ipVersion)
    (haddr : addr v e.groupAddr = addr v e'.groupAddr) : e = e' := by
  obtain rfl : v = v' := (t.placed i v b e he).1.symm.trans (hversion.trans (t.placed i v' b' e' he').1)
  have hfound := searchGroupEntry_of_mem he
  rw [searchGroupEntry_congr haddr, searchGroupEntry_of_mem he'] at hfound
  exact (Option.some.inj hfound).symm

theorem InOrder.intact (h : InOrder G C S F (db.memory m) db) :
    ∃ L lists, Intact sysTimerSec G C S F (db.memory m) db L lists := by
  obtain ⟨L, hsound, hshows, hu⟩ := h.backed
  obtain ⟨lists, htiles, hflows, -⟩ := h.flowBacked
  refine ⟨L, lists, ⟨hsound, htiles, hshows, hflows, fun a ha => hsound.groups.place ha,
    fun a ha => hsound.clients.place ha, fun a ha => hsound.sources.place ha, fun a ha => htiles.place ha,
    ?_, fun i b e he => h.flowChain he, fun i v b v' b' e he e' he' => group_once he he', ?_,
    fun i b b' e he e' he' => h.flowOnce he he', ?_, h.groupPool_full, ?_⟩⟩
  · intro i v b e he
    obtain ⟨rfl, hhash⟩ := db.tables.placed i v b e he
    exact ⟨h.groupChain he, rfl, hhash⟩
  · intro i v b e he
    have hnodup := hu i v e.groupAddr
    rwa [clientsAt, searchGroupEntry_of_mem he] at hnodup
  · intro hempty
    obtain ⟨hclients, hsources⟩ := hsound.clients_full (hshows.clients_empty hsound hempty)
    rw [hshows.clientPool] at hclients
    rw [hshows.sourcePool] at hsources
    refine ⟨hclients, hsources, fun time idle => ?_⟩
    exact (inOrder_step db (.tick time idle) h).groupPool_full (tick_empty hu h.vacant hempty time idle)
  · intro hempty
    rw [← hflows.pool]
    refine htiles.pool_perm ?_
    rintro ⟨i, b⟩
    rw [hflows.chains, hempty, map_nil]

/-- The tables stay in order in every run: what the calls of the handlers, in their order, make of the
    memory after initialisation is in order, and the tables show it. -/
theorem tables_intact (sysTimerSec : UInt32) (net : Net) (groupCount clientCount sourceCount flowCount : ℕ)
    (es : List Event) :
    let db := run (step sysTimerSec) (.init net groupCount clientCount sourceCount flowCount) es
    ∃ L lists, Intact sysTimerSec groupCount clientCount sourceCount flowCount
      (db.memory (.init groupCount clientCount sourceCount flowCount)) db L lists := by
  refine InOrder.intact ?_
  exact @run_always _ _ _ (fun db => InOrder _ _ _ _ (Db.memory db _) db) inOrder_step es _ (inOrder_init net)

end Run

end PhoebusBsp.Igmp

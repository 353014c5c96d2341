import PhoebusBsp.Igmp.Change

/-! Every handler and every walk is made of the five changes.

        report    open group ─▶ open client ─▶ sources           enter
        leave     delete or cap ─▶ drop the group if empty        leave
        walks     group by group, client by client: each is still there in its turn -/

namespace PhoebusBsp.Igmp
open Schemes List

/-! ### Reports -/

section Reports

variable {db : Db} {dev : DevInfo} {pkt : PktHdr} {v : IpVersion} {c g : Ip} {t t' : Tables}

/-- The entry is in the table, but for what the report says about the client itself. -/
theorem evolves_openClient {now timer : UInt32} {e : ClientEntry}
    (hgroup : (searchGroupEntry t pkt.moduleIndex v g).isSome)
    (h : openClient now pkt v g c timer t = some (e, t')) :
    Evolves t t' ∧ ∃ e₀ ∈ clientsAt t' pkt.moduleIndex v g, e.id = e₀.id ∧ clientKey v e = clientKey v e₀ ∧
      e.sourceList = e₀.sourceList := by
  obtain ⟨ge, hge⟩ := Option.isSome_iff_exists.mp hgroup
  obtain ⟨hkey, ⟨old, hold, rfl, rfl⟩ | ⟨id, pool, hpool, hnew, rfl, rfl⟩⟩ := openClient_cases h
  · exact ⟨.refl, old, hold, rfl, rfl, rfl⟩
  · rw [clientsAt_of_search hge, ← hkey] at hnew
    refine ⟨(Change.linkClient hge hpool hnew rfl).evolves, _, ?_, rfl, rfl, rfl⟩
    rw [clientsAt_link hgroup]
    exact mem_cons_self

theorem evolves_finish {out : Outcome} {e e' : ClientEntry} (db : Db)
    (he : e ∈ clientsAt db.tables pkt.moduleIndex v g) (hout : Works v e' db.tables.sourcePool out)
    (hid : e'.id = e.id) (hkey : clientKey v e' = clientKey v e) (hsources : e'.sourceList = e.sourceList) :
    Evolves db.tables (finish db pkt v g out).2.tables := by
  have hmoved := hout.moved
  rw [hid, hsources] at hmoved
  rw [finish_tables]
  exact (Change.storeClient he (hout.id.trans hid) (hout.key.trans hkey) hmoved).evolves

theorem Part.evolves {makes : Bool} {db' : Db} (h : Part dev pkt v c g db makes db') :
    Evolves db.tables db'.tables := by
  cases h with
  | refused _ => exact .refl
  | opened _ hopen => exact (Change.newGroup hopen).evolves
  | @entered net _ t' _ _ _ _ hopen hclient hout =>
    obtain ⟨hevolves, e₀, he₀, hid, hkey, hsources⟩ :=
      evolves_openClient (searchGroupEntry_openGroup hopen).1 hclient
    exact ((Change.newGroup hopen).evolves.trans hevolves).trans
      (evolves_finish { db with net := net, tables := t' } he₀ hout hid hkey hsources)
  | unknown _ => exact .refl
  | @worked net _ _ _ he hout =>
    rw [clientOf_eq] at he
    exact evolves_finish { db with net := net } (Chain.mem_of_search he) hout rfl rfl rfl

theorem evolves_dropEmptyGroup (db : Db) (i : ℕ) (v : IpVersion) (g : Ip) :
    Evolves db.tables (dropEmptyGroup db i v g).tables := by
  rcases dropEmptyGroup_cases db i v g with h | ⟨ge, hge, hempty, h⟩
  · rw [h]
    exact .refl
  · have hself : searchGroupEntry db.tables i v ge.groupAddr = some ge := by
      rw [searchGroupEntry_congr (groupKey_of_search hge : addr v ge.groupAddr = addr v g), hge]
    rw [h]
    exact (Change.freeGroup hself rfl hempty).evolves

/-- A client is stored with the entries it has. -/
theorem evolves_storeClient {i : ℕ} {e e' : ClientEntry} (he : e ∈ clientsAt t i v g) (hid : e'.id = e.id)
    (hkey : clientKey v e' = clientKey v e)
    (hids : Sources.ids ⟨e'.sourceList, t.sourcePool⟩ = Sources.ids ⟨e.sourceList, t.sourcePool⟩) :
    Evolves t (t.storeClient i v g e') := by
  have hstore := (Change.storeClient he hid hkey (.of_eq hids)).evolves
  rwa [withSources_nil] at hstore

theorem evolves_processLeave : Evolves db.tables (processLeave db dev pkt v c g).2.tables :=
  processLeave_holds .refl (fun db h => h.trans (evolves_dropEmptyGroup db _ _ _)) fun e he _ =>
    ⟨(Change.deleteClient he).evolves, fun _ =>
      evolves_storeClient he rfl rfl (ids_map (s := ⟨e.sourceList, db.tables.sourcePool⟩) fun _ => rfl)⟩

theorem evolves_mldProcess (db : Db) (pkt : PktHdr) (v : IpVersion) (c : Ip) (msg : Message) :
    Evolves db.tables (mldProcess db pkt v c msg).tables :=
  mldProcess_holds (P := fun db' => Evolves db.tables db'.tables) msg .refl
    (fun _ _ _ _ _ h hpart => h.trans hpart.evolves) fun _ _ _ h => h.trans evolves_processLeave

end Reports

/-! ### Walks -/

/-- A client that a change does not concern stays. -/
theorem Only.mem {v : IpVersion} {k : Ip × Mac} {l l' : List ClientEntry} {c : ClientEntry} (h : Only v k l l')
    (hne : clientKey v c ≠ k) (hc : c ∈ l) : c ∈ l' := by
  have hother : c ∈ l.filter fun c => clientKey v c ≠ k := mem_filter.mpr ⟨hc, by simpa using hne⟩
  rw [← h.others] at hother
  exact mem_of_mem_filter hother

section Walks

variable {σ : Type} (tab : σ → Tables) {i : ℕ} {v : IpVersion} {g : Ip}

/-- One client of a group after the other; each is still there in its turn. -/
theorem evolves_clients {op : σ → ClientEntry → σ}
    (hop : ∀ s c, c ∈ clientsAt (tab s) i v g →
      Evolves (tab s) (tab (op s c)) ∧ Acts i v g (clientKey v c) (tab s) (tab (op s c)))
    (cs : List ClientEntry) (s : σ) (hcs : ∀ c ∈ cs, c ∈ clientsAt (tab s) i v g)
    (hkeys : (cs.map (clientKey v)).Nodup) : Evolves (tab s) (tab (cs.foldl op s)) := by
  induction cs generalizing s with
  | nil => exact .refl
  | cons c cs ih =>
    rw [map_cons, nodup_cons] at hkeys
    obtain ⟨hevolves, hacts⟩ := hop s c (hcs c mem_cons_self)
    refine hevolves.trans (ih (op s c) (fun c' hc' => ?_) hkeys.2)
    have hne : clientKey v c' ≠ clientKey v c := fun heq => hkeys.1 (heq ▸ mem_map_of_mem hc')
    exact hacts.only.mem hne (hcs c' (mem_cons_of_mem _ hc'))

/-- The clients of a group that is found, all of them or some. -/
theorem evolves_group {op : σ → ClientEntry → σ}
    (hop : ∀ s c, c ∈ clientsAt (tab s) i v g →
      Evolves (tab s) (tab (op s c)) ∧ Acts i v g (clientKey v c) (tab s) (tab (op s c)))
    {e : GroupEntry} {s : σ} (he : searchGroupEntry (tab s) i v g = some e) {cs : List ClientEntry}
    (hcs : cs.Sublist e.clientList) : Evolves (tab s) (tab (cs.foldl op s)) := by
  intro hu
  have hkeys := hu i v g
  rw [clientsAt_of_search he] at hkeys
  refine evolves_clients tab hop cs s (fun c hc => ?_) (hkeys.sublist (hcs.map (clientKey v))) hu
  rw [clientsAt_of_search he]
  exact hcs.subset hc

/-- One group of a module after the other; each is still there in its turn. -/
theorem evolves_groups {visit : σ → GroupEntry → σ}
    (hvisit : ∀ s e, searchGroupEntry (tab s) i v e.groupAddr = some e →
      Evolves (tab s) (tab (visit s e)) ∧ Frame (spot i v e.groupAddr) (tab s) (tab (visit s e))) (s : σ) :
    Evolves (tab s) (tab ((List.range hashTblSize).foldl
      (fun s h => ((tab s).hashTable i v h).foldl visit s) s)) := by
  have hchain : ∀ (es : List GroupEntry) s, (∀ e ∈ es, searchGroupEntry (tab s) i v e.groupAddr = some e) →
      (es.map (groupKey v)).Nodup → Evolves (tab s) (tab (es.foldl visit s)) := by
    intro es
    induction es with
    | nil => exact fun _ _ _ => .refl
    | cons e es ih =>
      intro s hes hkeys
      rw [map_cons, nodup_cons] at hkeys
      obtain ⟨hevolves, hframe⟩ := hvisit s e (hes e mem_cons_self)
      refine hevolves.trans (ih (visit s e) (fun e' he' => ?_) hkeys.2)
      rw [hframe i v e'.groupAddr fun hspot => ?_, hes e' (mem_cons_of_mem _ he')]
      have hkey : groupKey v e' = groupKey v e := (spot_inj.mp hspot).2.2
      exact hkeys.1 (hkey ▸ mem_map_of_mem he')
  refine List.foldlRecOn (motive := fun s' => Evolves (tab s) (tab s')) _ _ .refl fun s' h b _ => h.trans ?_
  exact hchain _ s' (fun e he => searchGroupEntry_of_mem he) ((tab s').distinct i v b)

end Walks

/-! ### The sweep -/

section Sweep

variable {sysTimerSec now : UInt32} {t : Tables} {i : ℕ} {v : IpVersion} {g : Ip} {c : ClientEntry}
  {idle : FlowKey → Bool}

theorem moved_age (now filter : UInt32) {s : Sources} {c : ℕ} :
    Moved c (deleteSourceCalls c (s.sourceList.filter fun e => !e.kept now filter)) s (s.age now filter) := by
  have hdelete := moved_delete (c := c) (s := s) (SourceEntry.kept now filter)
  have hmoved := hdelete.trans (.of_eq (ids_map (f := SourceEntry.aged now) fun _ => rfl))
  rwa [append_nil] at hmoved

theorem evolves_ageClient (hc : c ∈ clientsAt t i v g) : Evolves t (ageClient now t i v g c) := by
  have hid : (c.aged now).id = c.id := rfl
  have hstore := (Change.storeClient hc hid rfl (moved_age now c.groupFilterTimer)).evolves
  unfold ageClient
  dsimp only
  split
  · refine hstore.trans (Change.deleteClient ?_).evolves
    have hsome : (Chain.search (clientKey v) (clientKey v (c.aged now)) (clientsAt t i v g)).isSome :=
      Chain.search_isSome.mpr (mem_map.mpr ⟨c, hc, rfl⟩)
    obtain ⟨a, ha⟩ := Option.isSome_iff_exists.mp hsome
    have hkept : Chain.search (clientKey v) (clientKey v (c.aged now)) (Chain.update (clientKey v)
        (clientKey v (c.aged now)) (fun _ => c.aged now) (clientsAt t i v g)) = some (c.aged now) := by
      rw [Chain.search_update_self fun _ _ => rfl, ha, Option.map_some]
    rw [clientsAt_storeClient rfl]
    exact Chain.mem_of_search hkept
  · exact hstore

theorem acts_ageClient : Acts i v g (clientKey v c) t (ageClient now t i v g c) := by
  have hstore : ∀ pool calls,
      Acts i v g (clientKey v c) t ((t.withSources pool calls).storeClient i v g (c.aged now)) := fun pool calls =>
    (Acts.of_eq rfl : Acts i v g (clientKey v c) t (t.withSources pool calls)).trans (acts_storeClient rfl)
  unfold ageClient
  dsimp only
  split
  · exact (hstore _ _).trans (acts_deleteClientEntry rfl)
  · exact hstore _ _

theorem evolves_checkGroup (db : Db) (e : GroupEntry) (he : searchGroupEntry db.tables i v e.groupAddr = some e) :
    Evolves db.tables (checkGroupEntryTimer sysTimerSec i v db e).tables := by
  unfold checkGroupEntryTimer
  refine Evolves.trans ?_ (evolves_dropEmptyGroup _ i v e.groupAddr)
  refine evolves_group Db.tables (fun db c hc => ?_) he (List.Sublist.refl e.clientList)
  rw [(checkClientEntryTimer_db sysTimerSec i v e.groupAddr db c).1]
  exact ⟨evolves_ageClient hc, acts_ageClient⟩

theorem evolves_ageGroups (sysTimerSec : UInt32) (i : ℕ) (v : IpVersion) (db : Db) :
    Evolves db.tables (ageGroups sysTimerSec i v db).tables :=
  evolves_groups Db.tables (fun db e he => ⟨evolves_checkGroup db e he, visits_checkGroup.frame db e rfl he⟩) db

theorem evolves_maintain (db : Db) (time : UInt32) :
    Evolves db.tables (maintainTimerList sysTimerSec idle db time).tables := by
  unfold maintainTimerList
  refine List.foldlRecOn (motive := fun db' : Db => Evolves db.tables db'.tables) _ _ .refl fun db' h i _ => ?_
  refine h.trans ?_
  rw [ageModule, ageFlows_tables]
  exact (evolves_ageGroups sysTimerSec i .v4 db').trans (evolves_ageGroups sysTimerSec i .v6 _)

end Sweep

/-! ### Black list, devices and bridges -/

section Admin

variable {i : ℕ} {v : IpVersion} {devIdx : UInt32}

theorem evolves_blackListUpdateFlow (p : BlackPattern) (ifidx : UInt32) (db : Db) :
    Evolves db.tables (blackListUpdateFlow p ifidx db).tables := by
  have hgroup : ∀ i (db : Db) e, searchGroupEntry db.tables i p.ipVersion e.groupAddr = some e →
      Evolves db.tables (blackListGroup p ifidx i db e).tables := by
    intro i db e he
    unfold blackListGroup
    split
    · exact .refl
    · next c hc =>
      rw [reflushIn_tables]
      refine (Change.deleteClient ?_).evolves
      rw [clientsAt_of_search he]
      exact mem_of_find?_eq_some hc
  refine List.foldlRecOn (motive := fun db' : Db => Evolves db.tables db'.tables) _ _ .refl fun db' h i _ => ?_
  refine h.trans (evolves_groups Db.tables (fun db e he => ⟨hgroup i db e he, ?_⟩) db')
  exact (visits_blackListGroup p ifidx i).frame db e trivial he

theorem evolves_clearModuleByDev (devIdx : UInt32) (i : ℕ) (v : IpVersion) (t : Tables) :
    Evolves t (clearModuleByDev devIdx i v t) := by
  refine evolves_groups (fun t => t) (fun t e he => ⟨?_, (visits_clearGroupByDev devIdx).frame t e trivial he⟩) t
  exact evolves_group (fun t => t) (fun t c hc => ⟨(Change.deleteClient hc).evolves, acts_deleteClientEntry rfl⟩)
    he filter_sublist

theorem evolves_clearDataBaseByDev (net : Net) (devIdx : UInt32) (t : Tables) :
    Evolves t (clearDataBaseByDev net devIdx t) :=
  List.foldlRecOn (motive := fun t' => Evolves t t') _ _ .refl fun t' h i _ =>
    h.trans ((evolves_clearModuleByDev devIdx i .v4 t').trans (evolves_clearModuleByDev devIdx i .v6 _))

/-- The clients of a group go first, then the group. -/
theorem evolves_deleteGroupEntry (db : Db) (e : GroupEntry)
    (he : searchGroupEntry db.tables i v e.groupAddr = some e) :
    Evolves db.tables (deleteGroupEntry db i v e).tables := by
  have hlist : Evolves db.tables (deleteClientList db.tables i v e) :=
    evolves_group (fun t => t) (fun t c hc => ⟨(Change.deleteClient hc).evolves, acts_deleteClientEntry rfl⟩)
      he (List.Sublist.refl e.clientList)
  have hleft := (deleteClients (i := i) (v := v) (g := e.groupAddr) e.clientList db.tables).2
  rw [he, Option.map_some] at hleft
  refine hlist.trans (Change.freeGroup hleft rfl ?_).evolves
  refine filter_eq_nil_iff.mpr fun c hc => ?_
  simpa using mem_map_of_mem (f := clientKey v) hc

theorem evolves_deleteGroups (i : ℕ) (v : IpVersion) (db : Db) :
    Evolves db.tables (deleteGroups i v db).tables :=
  evolves_groups Db.tables (fun db e he => ⟨evolves_deleteGroupEntry db e he,
    visits_deleteGroupEntry.frame db e trivial he⟩) db

theorem evolves_flushBrMdb (db : Db) (brIfidx : Option UInt32) (v : IpVersion) :
    Evolves db.tables (flushBrMdb db brIfidx v).tables := by
  have hmodule : ∀ (db : Db) i, Evolves db.tables (flushModule v db i).tables := by
    intro db i
    unfold flushModule
    dsimp only
    exact evolves_deleteGroups i v db
  exact List.foldlRecOn (motive := fun db' : Db => Evolves db.tables db'.tables) _ _ .refl fun db' h i _ =>
    h.trans (hmodule db' i)

theorem evolves_clearModule (i : ℕ) (db : Db) : Evolves db.tables (clearModule i db).tables := by
  unfold clearModule
  dsimp only
  exact (evolves_deleteGroups i .v4 db).trans (evolves_deleteGroups i .v6 _)

end Admin

/-- Every event is made of the changes. -/
theorem evolves_step (sysTimerSec : UInt32) (db : Db) (e : Event) :
    Evolves db.tables (step sysTimerSec db e).tables := by
  cases e with
  | report pkt v c msg => exact evolves_mldProcess db pkt v c msg
  | tick time idle => exact evolves_maintain db time
  | data i first d =>
    rw [step, forwardData_tables]
    exact .refl
  | elapse jiffies => exact .refl
  | blackList p ifidx => exact evolves_blackListUpdateFlow p ifidx db
  | lanGone ifidx del =>
    rw [step]
    rcases unregisterLanDev_tables db ifidx del with h | h
    · rw [h]
      exact .refl
    · rw [h]
      exact evolves_clearDataBaseByDev db.net ifidx db.tables
  | wanGone ifidx del =>
    rw [step, unregisterWanDev]
    split <;> exact .refl
  | brGone ifidx del =>
    rw [step]
    rcases unregisterBrDev_cases db ifidx del with h | ⟨i, -, h, -⟩
    · rw [h]
      exact .refl
    · rw [h]
      exact evolves_clearModule i db
  | flush brIfidx v => exact evolves_flushBrMdb db brIfidx v

end PhoebusBsp.Igmp

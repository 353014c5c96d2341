import PhoebusBsp.Igmp.Sources

/-! What a record makes of the entry of its client.

    The entry is read as a source filter (`reading`) and, more closely, as the timers behind it
    (`timers`). A handler finds or makes the entry, runs its loop on it and stores the outcome, so the
    entry after the record is the outcome of the loop on the entry before (`learn_client`). -/

namespace PhoebusBsp.Igmp
open Schemes Option

/-! ### Reading an entry -/

/-- The sources whose timers run. -/
def ClientEntry.running (now : UInt32) (v : IpVersion) (e : ClientEntry) : Set Ip :=
  {a | ∃ s ∈ e.sourceList, sourceKey v s = addr v a ∧ now < s.portTimer}

/-- The recorded sources whose timers have run out. -/
def ClientEntry.stopped (now : UInt32) (v : IpVersion) (e : ClientEntry) : Set Ip :=
  {a | ∃ s ∈ e.sourceList, sourceKey v s = addr v a ∧ ¬now < s.portTimer}

/-- The source filter of a client. A client without an entry wants nothing. -/
def reading (now : UInt32) (v : IpVersion) : Option ClientEntry → SourceFilter Ip
  | none => .incl ∅
  | some e =>
    if now < e.groupFilterTimer then .excl (e.running now v) (e.stopped now v)
    else .incl (e.running now v)

/-- The timers of a client; `start` is the filter timer of an entry that has yet to be made. -/
def timers (start : UInt32) (v : IpVersion) : Option ClientEntry → Timed Ip UInt32
  | none => .fresh start
  | some e => ⟨e.groupFilterTimer, fun a => (searchSourceEntry v a e.sourceList).map (·.portTimer)⟩

/-- The sources of a client. -/
def recorded : Option ClientEntry → List SourceEntry
  | none => []
  | some e => e.sourceList

section Reading

variable {start : UInt32} {v : IpVersion} {e : ClientEntry} {o : Option ClientEntry} {a : Ip}

theorem timers_group_some : (timers start v (some e)).group = e.groupFilterTimer := rfl

theorem timers_timer : (timers start v o).timer a = (cell v (recorded o) a).map Prod.fst := by
  cases o with
  | none => rfl
  | some e =>
    rw [recorded, cell, map_map]
    rfl

theorem timers_of_list {l : List SourceEntry} (hlist : e.sourceList = l) :
    (timers start v (some e)).timer a = (cell v l a).map Prod.fst := by
  rw [timers_timer, recorded, hlist]

theorem mem_search_iff {s : SourceEntry} (hl : NoRepeat v e.sourceList) :
    s ∈ e.sourceList ∧ sourceKey v s = addr v a ↔ searchSourceEntry v a e.sourceList = some s := by
  constructor
  · rintro ⟨hs, hkey⟩
    rw [searchSourceEntry, ← hkey]
    exact Chain.search_eq_some hl hs
  · intro hs
    exact ⟨Chain.mem_of_search hs, Chain.key_of_search hs⟩

/-- Where no source is recorded twice, the filter is the one the timers stand for. -/
theorem reading_eq_read (now : UInt32) (hstart : start ≤ now) (hl : NoRepeat v (recorded o)) :
    reading now v o = (timers start v o).read now := by
  cases o with
  | none =>
    have hrun : (timers start v none).running now = ∅ := by
      ext a
      simp [timers, Timed.fresh, Timed.running]
    have hgroup : ¬now < (timers start v none).group := UInt32.not_lt.mpr hstart
    rw [Timed.read, if_neg hgroup, hrun]
    rfl
  | some e =>
    have hrun : (timers start v (some e)).running now = e.running now v := by
      ext a
      simp only [timers, Timed.running, ClientEntry.running, Set.mem_ofPred_eq, ← and_assoc,
        mem_search_iff hl, mem_def, map_eq_some_iff]
      grind
    have hstop : (timers start v (some e)).stopped now = e.stopped now v := by
      ext a
      simp only [timers, Timed.stopped, ClientEntry.stopped, Set.mem_ofPred_eq, ← and_assoc,
        mem_search_iff hl, mem_def, map_eq_some_iff]
      grind
    rw [Timed.read, hrun, hstop]
    rfl

end Reading

/-! ### Finding and storing the entry -/

/-- The clients of a group; none when the group is not there. -/
def clientsAt (t : Tables) (i : ℕ) (v : IpVersion) (g : Ip) : List ClientEntry :=
  (searchGroupEntry t i v g).elim [] GroupEntry.clientList

section Tables

variable {t t' : Tables} {i : ℕ} {v : IpVersion} {g c : Ip} {mac : Mac}

theorem clientsAt_of_search {e : GroupEntry} (h : searchGroupEntry t i v g = some e) :
    clientsAt t i v g = e.clientList := by
  rw [clientsAt, h]
  rfl

theorem clientOf_eq :
    clientOf t i v g c mac = Chain.search (clientKey v) (addr v c, mac) (clientsAt t i v g) := by
  unfold clientOf clientsAt
  cases searchGroupEntry t i v g <;> rfl

theorem searchGroupEntry_modifyClients {f : List ClientEntry → List ClientEntry} :
    searchGroupEntry (t.modifyClients i v g f) i v g =
      (searchGroupEntry t i v g).map (GroupEntry.withClients f) := by
  have hkey : ∀ e, groupKey v e = addr v g →
      groupKey v (GroupEntry.withClients f e) = addr v g := fun _ h => h
  unfold searchGroupEntry Tables.modifyClients
  simp only
  rw [setChain_self, Chain.search_update_self hkey]

theorem clientOf_modifyClients {f : List ClientEntry → List ClientEntry} :
    clientOf (t.modifyClients i v g f) i v g c mac =
      (searchGroupEntry t i v g).bind fun e =>
        Chain.search (clientKey v) (addr v c, mac) (f e.clientList) := by
  unfold clientOf
  rw [searchGroupEntry_modifyClients, bind_map]
  rfl

/-- An entry that is there is replaced. -/
theorem clientOf_storeClient {e e' : ClientEntry} (hold : clientOf t i v g c mac = some e)
    (hkey : clientKey v e' = (addr v c, mac)) :
    clientOf (t.storeClient i v g e') i v g c mac = some e' := by
  unfold Tables.storeClient
  rw [clientOf_modifyClients, hkey]
  obtain ⟨ge, hge, hc⟩ := bind_eq_some_iff.mp hold
  rw [hge, bind_some, Chain.search_update_self fun _ _ => hkey, hc, map_some]

/-- The group is there, or an entry without clients comes in front of its chain. -/
theorem openGroup_cases (h : openGroup t i v g = some t') :
    (t'.clientPool = t.clientPool ∧ t'.sourcePool = t.sourcePool) ∧
    (t' = t ∧ (searchGroupEntry t i v g).isSome ∨
      searchGroupEntry t i v g = none ∧ ∃ e : GroupEntry, t.groupPool = e.id :: t'.groupPool ∧
        groupKey v e = addr v g ∧ e.clientList = [] ∧ e.groupIdx = t.groupIncIdx + 1 ∧
        t'.groupIncIdx = t.groupIncIdx + 1 ∧ t'.calls = t.calls ++ [.newGroup (i, v, hashAlgorithm v g)] ∧
        t'.hashTable = setChain t.hashTable i v g (e :: t.hashTable i v (hashAlgorithm v g))) := by
  unfold openGroup at h
  split at h
  · next hnew =>
    split at h
    · cases h
    · next id pool hpool =>
      obtain rfl := some.inj h
      exact ⟨⟨rfl, rfl⟩, Or.inr ⟨hnew, ⟨id, addr v g, v, t.groupIncIdx + 1, []⟩, hpool, addr_addr v g, rfl, rfl,
        rfl, rfl, rfl⟩⟩
  · next hold =>
    obtain rfl := some.inj h
    exact ⟨⟨rfl, rfl⟩, Or.inl ⟨rfl, isSome_iff_ne_none.mpr hold⟩⟩

theorem searchGroupEntry_openGroup (h : openGroup t i v g = some t') :
    (searchGroupEntry t' i v g).isSome ∧ clientsAt t' i v g = clientsAt t i v g := by
  rcases (openGroup_cases h).2 with ⟨rfl, hold⟩ | ⟨hnew, e, -, hkey, hempty, -, -, -, hchain⟩
  · exact ⟨hold, rfl⟩
  · have he : searchGroupEntry t' i v g = some e := by
      rw [searchGroupEntry, hchain, setChain_self, Chain.search_cons, if_pos hkey]
    rw [clientsAt_of_search he, hempty, he, clientsAt, hnew]
    exact ⟨rfl, rfl⟩

/-- Opening a group makes it searchable and changes no client of it. -/
theorem openGroup_spec (hroom : searchGroupEntry t i v g = none → t.groupPool ≠ []) :
    ∃ t', openGroup t i v g = some t' ∧ (searchGroupEntry t' i v g).isSome ∧
      t'.clientPool = t.clientPool ∧ t'.sourcePool = t.sourcePool ∧
      ∀ c mac, clientOf t' i v g c mac = clientOf t i v g c mac := by
  obtain ⟨t', hopen⟩ : ∃ t', openGroup t i v g = some t' := by
    unfold openGroup
    split
    · next hnew =>
      split
      · next hempty => exact absurd hempty (hroom hnew)
      · exact ⟨_, rfl⟩
    · exact ⟨t, rfl⟩
  obtain ⟨⟨hclient, hsource⟩, -⟩ := openGroup_cases hopen
  obtain ⟨hsome, hclients⟩ := searchGroupEntry_openGroup hopen
  refine ⟨t', hopen, hsome, hclient, hsource, fun c mac => ?_⟩
  rw [clientOf_eq, clientOf_eq, hclients]

/-- The entry that is found or made has the timers of the client, and its place in the table. -/
theorem openClient_spec (now timer : UInt32) {pkt : PktHdr}
    (hgroup : (searchGroupEntry t pkt.moduleIndex v g).isSome)
    (hroom : clientOf t pkt.moduleIndex v g c pkt.smac = none → t.clientPool ≠ []) :
    ∃ e t', openClient now pkt v g c timer t = some (e, t') ∧ t'.sourcePool = t.sourcePool ∧
      clientKey v e = (addr v c, pkt.smac) ∧
      (clientOf t' pkt.moduleIndex v g c pkt.smac).isSome ∧
      timers timer v (some e) = timers timer v (clientOf t pkt.moduleIndex v g c pkt.smac) ∧
      e.sourceList = recorded (clientOf t pkt.moduleIndex v g c pkt.smac) := by
  unfold openClient
  cases hold : clientOf t pkt.moduleIndex v g c pkt.smac with
  | some e =>
    obtain ⟨ge, -, hc⟩ := bind_eq_some_iff.mp hold
    have hkey : clientKey v e = (addr v c, pkt.smac) := Chain.key_of_search hc
    refine ⟨e.seen pkt, t, rfl, rfl, hkey, ?_, rfl, rfl⟩
    rw [hold]
    rfl
  | none =>
    obtain ⟨id, pool, hpool⟩ := List.exists_cons_of_ne_nil (hroom hold)
    have hkey : clientKey v (ClientEntry.fresh now pkt v c timer id) = (addr v c, pkt.smac) := by
      rw [clientKey, ClientEntry.fresh, addr_addr]
    simp only [hpool]
    refine ⟨_, _, rfl, rfl, hkey, ?_, rfl, rfl⟩
    obtain ⟨ge, hge⟩ := isSome_iff_exists.mp hgroup
    have hge' : searchGroupEntry (t.takeClient pkt.moduleIndex v g pool) pkt.moduleIndex v g = some ge := hge
    rw [clientOf_modifyClients, hge', bind_some, Chain.search_cons, if_pos hkey]
    rfl

end Tables

/-! ### Whole records -/

section Records

variable {db : Db} {dev : DevInfo} {pkt : PktHdr} {v : IpVersion} {c g : Ip} {mcSource : Option Ip}

/-- The entry of the client that a packet comes from. -/
def entryOf (db : Db) (pkt : PktHdr) (v : IpVersion) (g c : Ip) : Option ClientEntry :=
  clientOf db.tables pkt.moduleIndex v g c pkt.smac

/-- The record passes the limit checks and the white list. -/
structure Passes (db : Db) (dev : DevInfo) (pkt : PktHdr) (v : IpVersion) (c g : Ip)
    (mcSource : Option Ip) : Prop where
  limit : (groupLimitCheck db.net db.tables dev pkt.moduleIndex v g c pkt.devIfindex .drop).1 = .cont
  white : filterWhiteListCheck
    (groupLimitCheck db.net db.tables dev pkt.moduleIndex v g c pkt.devIfindex .drop).2
    dev v true g c mcSource pkt.smac = true

/-- The pools have an entry for the group, for the client and for every source that needs one. -/
structure Room (db : Db) (pkt : PktHdr) (v : IpVersion) (c : Ip) (rec : GroupRecord) : Prop where
  group : searchGroupEntry db.tables pkt.moduleIndex v rec.groupAddr = none → db.tables.groupPool ≠ []
  client : entryOf db pkt v rec.groupAddr c = none → db.tables.clientPool ≠ []
  source : missing v (recorded (entryOf db pkt v rec.groupAddr c)) rec.srcList ≤
    db.tables.sourcePool.length

theorem checkReport_passes (hresv : reserved db.net v g = false)
    (hpass : Passes db dev pkt v c g mcSource) :
    ∃ net, checkReport db dev pkt v c g mcSource = (.cont, { db with net := net }) := by
  unfold checkReport
  rw [hresv, if_neg Bool.false_ne_true]
  obtain ⟨hlimit, hwhite⟩ := hpass
  generalize groupLimitCheck db.net db.tables dev pkt.moduleIndex v g c pkt.devIfindex .drop = r
    at hlimit hwhite
  obtain ⟨ret, net⟩ := r
  obtain rfl : ret = .cont := hlimit
  exact ⟨net, if_pos hwhite⟩

/-- Reports for a reserved group change nothing. -/
theorem checkReport_reserved (hresv : reserved db.net v g = true) :
    checkReport db dev pkt v c g mcSource = (.accept, db) := by
  unfold checkReport
  rw [hresv, if_pos rfl]

theorem finish_verdict {out : Outcome} :
    (finish db pkt v g out).1 = if out.complete then .cont else .drop := by
  unfold finish
  split <;> rfl

/-- The outcome is the new entry. -/
theorem finish_entry {out : Outcome} (hold : (entryOf db pkt v g c).isSome)
    (hkey : clientKey v out.client = (addr v c, pkt.smac)) :
    entryOf (finish db pkt v g out).2 pkt v g c = some out.client := by
  obtain ⟨e, he⟩ := isSome_iff_exists.mp hold
  have hstore : clientOf ((db.tables.withSources out.sourcePool out.calls).storeClient
      pkt.moduleIndex v g out.client) pkt.moduleIndex v g c pkt.smac = some out.client :=
    clientOf_storeClient (e := e) he hkey
  unfold finish
  split
  · exact hstore
  · exact hstore

/-- A record that passes runs its loop on the entry of the client, found or new, and stores the
    outcome. -/
theorem learn_entry {srcList : List Ip} (timer : UInt32)
    (core : DevConf → ClientEntry → List ℕ → Outcome) (hresv : reserved db.net v g = false)
    (hpass : Passes db dev pkt v c g mcSource) (hroom : Room db pkt v c ⟨g, srcList⟩)
    (hcore : ∀ conf e pool, clientKey v (core conf e pool).client = clientKey v e) :
    ∃ e : ClientEntry, timers timer v (some e) = timers timer v (entryOf db pkt v g c) ∧
      e.sourceList = recorded (entryOf db pkt v g c) ∧
      (learn db dev pkt v c g mcSource timer core).1 =
        (if (core (dev.devConf v) e db.tables.sourcePool).complete then .cont else .drop) ∧
      entryOf (learn db dev pkt v c g mcSource timer core).2 pkt v g c =
        some (core (dev.devConf v) e db.tables.sourcePool).client := by
  obtain ⟨net, hcheck⟩ := checkReport_passes hresv hpass
  obtain ⟨t₁, hopen, hgroup, hclients, hsources, hsame⟩ := openGroup_spec hroom.group
  obtain ⟨e, t₂, hclient, hpool, hkey, hlinked, htimers, hlist⟩ :=
    openClient_spec db.clock.now timer hgroup fun hnone => by
      rw [hsame] at hnone
      rw [hclients]
      exact hroom.client hnone
  rw [hsame] at htimers hlist
  refine ⟨e.reported pkt v, htimers, hlist, ?_⟩
  have hlearn : learn db dev pkt v c g mcSource timer core =
      finish { clock := db.clock, tables := t₂, net := net, flows := db.flows } pkt v g
        (core (dev.devConf v) (e.reported pkt v) db.tables.sourcePool) := by
    unfold learn
    simp only [hcheck, hopen, hclient, hpool, hsources]
  rw [hlearn]
  exact ⟨finish_verdict, finish_entry hlinked ((hcore _ _ _).trans hkey)⟩

end Records

end PhoebusBsp.Igmp

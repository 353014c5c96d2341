import PhoebusBsp.Igmp.Include
import PhoebusBsp.Igmp.Ageing

/-! The tables as a map from groups to their clients, and what a report does to it.

    A report works in one group (`Frame`: the others stay) and on one client (`Only`: the others stay,
    in their order). A group without clients reads like one that is not there. -/

namespace PhoebusBsp.Igmp
open Schemes Chain

/-! ### The clients of a group -/

/-- Which group: the module, the version and the address. -/
abbrev Spot := ℕ × IpVersion × Ip

def spot (i : ℕ) (v : IpVersion) (g : Ip) : Spot := (i, v, addr v g)

theorem spot_inj {i j : ℕ} {v w : IpVersion} {g g' : Ip} :
    spot j w g' = spot i v g ↔ j = i ∧ w = v ∧ addr w g' = addr v g := by
  simp [spot]

section Clients

variable {t t' : Tables} {i j : ℕ} {v w : IpVersion} {g g' c : Ip} {mac : Mac} {e : GroupEntry}

theorem searchGroupEntry_congr (h : addr v g = addr v g') :
    searchGroupEntry t i v g = searchGroupEntry t i v g' := by
  unfold searchGroupEntry
  rw [h, hash_congr h]

theorem clientsAt_congr (h : addr v g = addr v g') : clientsAt t i v g = clientsAt t i v g' := by
  unfold clientsAt
  rw [searchGroupEntry_congr h]

theorem GroupRange.hit_congr {r : GroupRange} (h : addr v g = addr v g') : r.hit v g = r.hit v g' := by
  cases v with
  | v6 =>
    obtain rfl : g = g' := h
    rfl
  | v4 =>
    have hw : g.w0 = g'.w0 := (Ip.mk.inj h).1
    cases hr : r.ipVersion with
    | v4 => simp only [GroupRange.hit, hr, inRange, hw]
    | v6 => simp only [GroupRange.hit, hr]

theorem reserved_congr {net : Net} (h : addr v g = addr v g') : reserved net v g = reserved net v g' := by
  simp only [reserved, checkGroupToPsTbl, GroupRange.hit_congr h]

theorem groupKey_of_search (h : searchGroupEntry t i v g = some e) :
    groupKey v e = addr v g := key_of_search h

theorem group_of_client {e : ClientEntry} (he : e ∈ clientsAt t i v g) :
    ∃ ge, searchGroupEntry t i v g = some ge ∧ e ∈ ge.clientList := by
  unfold clientsAt at he
  cases hsearch : searchGroupEntry t i v g with
  | none =>
    rw [hsearch] at he
    cases he
  | some ge =>
    rw [hsearch] at he
    exact ⟨ge, rfl, he⟩

theorem clientsAt_modifyClients {f : List ClientEntry → List ClientEntry}
    (hf : f [] = [] ∨ (searchGroupEntry t i v g).isSome) :
    clientsAt (t.modifyClients i v g f) i v g = f (clientsAt t i v g) := by
  unfold clientsAt
  rw [searchGroupEntry_modifyClients]
  cases hsearch : searchGroupEntry t i v g with
  | none =>
    rcases hf with hf | hf
    · exact hf.symm
    · rw [hsearch] at hf
      cases hf
  | some e => rfl

/-- Only the group at the spot may have changed. -/
def Frame (s : Spot) (t t' : Tables) : Prop :=
  ∀ j w g, spot j w g ≠ s → searchGroupEntry t' j w g = searchGroupEntry t j w g

variable {s : Spot} {t'' : Tables}

theorem Frame.of_eq (h : t'.hashTable = t.hashTable) : Frame s t t' := by
  intro j w g _
  unfold searchGroupEntry
  rw [h]

theorem Frame.trans (h : Frame s t t') (h' : Frame s t' t'') : Frame s t t'' := fun j w g hne =>
  (h' j w g hne).trans (h j w g hne)

theorem Frame.clientsAt (h : Frame s t t') (hne : spot j w g ≠ s) :
    clientsAt t' j w g = clientsAt t j w g := by
  unfold Igmp.clientsAt
  rw [h j w g hne]

/-- A new chain that has the same entries for all other addresses. -/
theorem frame_setChain {l : List GroupEntry} (htbl : t'.hashTable = setChain t.hashTable i v g l)
    (hl : ∀ k, k ≠ addr v g →
      search (groupKey v) k l =
        search (groupKey v) k (t.hashTable i v (hashAlgorithm v g))) :
    Frame (spot i v g) t t' := by
  intro j w g' hne
  unfold searchGroupEntry
  rw [htbl, setChain]
  split
  · next h =>
    obtain ⟨rfl, rfl, hh⟩ := h
    have hk : addr w g' ≠ addr w g := fun hk => hne (congrArg (fun a => (j, w, a)) hk)
    rw [hl _ hk, hh]
  · rfl

theorem frame_modifyClients {f : List ClientEntry → List ClientEntry} :
    Frame (spot i v g) t (t.modifyClients i v g f) :=
  frame_setChain rfl fun _ hk => search_update_of_ne (fun _ h => h) hk

theorem frame_openGroup (h : openGroup t i v g = some t') : Frame (spot i v g) t t' := by
  rcases (openGroup_cases h).2 with ⟨rfl, -⟩ | ⟨-, e, -, hkey, -, -, -, -, hchain⟩
  · exact .of_eq rfl
  · refine frame_setChain hchain fun k hk => ?_
    rw [search_cons, if_neg fun heq => hk (heq.symm.trans hkey)]

theorem frame_freeGroup : Frame (spot i v e.groupAddr) t (t.freeGroup i v e) :=
  frame_setChain rfl fun _ hk => search_sweep_of_ne hk

theorem searchGroupEntry_freeGroup : searchGroupEntry (t.freeGroup i v e) i v e.groupAddr = none := by
  unfold searchGroupEntry Tables.freeGroup
  simp only
  rw [setChain_self]
  exact search_sweep_self

theorem clientsAt_freeGroup : clientsAt (t.freeGroup i v e) i v e.groupAddr = [] := by
  rw [clientsAt, searchGroupEntry_freeGroup]
  rfl

end Clients

/-! ### One client -/

/-- Clients with another address or MAC are left as they are, and none comes in twice. -/
structure Only (v : IpVersion) (k : Ip × Mac) (l l' : List ClientEntry) : Prop where
  others : (l'.filter fun c => clientKey v c ≠ k) = l.filter fun c => clientKey v c ≠ k
  nodup : (l.map (clientKey v)).Nodup → (l'.map (clientKey v)).Nodup

section Only

variable {v : IpVersion} {k k' : Ip × Mac} {l l' l'' : List ClientEntry} {e : ClientEntry}

theorem Only.rfl : Only v k l l := ⟨Eq.refl _, id⟩

theorem Only.trans (h : Only v k l l') (h' : Only v k l' l'') : Only v k l l'' :=
  ⟨h'.others.trans h.others, h'.nodup ∘ h.nodup⟩

theorem only_update (hkey : clientKey v e = k) :
    Only v k l (update (clientKey v) k (fun _ => e) l) where
  others := sweep_update fun _ _ => hkey
  nodup h := by rwa [keys_update fun _ _ => hkey]

theorem only_cons (hkey : clientKey v e = k) (hnew : search (clientKey v) k l = none) :
    Only v k l (e :: l) where
  others := List.filter_cons_of_neg (by simpa using hkey)
  nodup h := List.nodup_cons.mpr ⟨hkey ▸ search_eq_none.mp hnew, h⟩

theorem only_sweep (hkey : clientKey v e = k) :
    Only v k l (l.filter fun c => clientKey v c ≠ clientKey v e) where
  others := by
    subst hkey
    rw [List.filter_filter]
    simp
  nodup := keys_filter_nodup

/-- Other clients are found as before. -/
theorem Only.search (h : Only v k l l') (hne : k' ≠ k) :
    search (clientKey v) k' l' = search (clientKey v) k' l := by
  rw [← search_sweep_of_ne hne, h.others, search_sweep_of_ne hne]

end Only

/-- A change that concerns one client in one group. -/
structure Acts (i : ℕ) (v : IpVersion) (g : Ip) (k : Ip × Mac) (t t' : Tables) : Prop where
  frame : Frame (spot i v g) t t'
  only : Only v k (clientsAt t i v g) (clientsAt t' i v g)

section Acts

variable {i j : ℕ} {v w : IpVersion} {g g' c : Ip} {k : Ip × Mac} {t t' t'' : Tables} {e : ClientEntry}

theorem Acts.of_eq (h : t'.hashTable = t.hashTable) : Acts i v g k t t' := by
  refine ⟨.of_eq h, ?_⟩
  have hclients : clientsAt t' i v g = clientsAt t i v g := by
    unfold clientsAt searchGroupEntry
    rw [h]
  rw [hclients]
  exact .rfl

theorem Acts.trans (h : Acts i v g k t t') (h' : Acts i v g k t' t'') : Acts i v g k t t'' :=
  ⟨h.frame.trans h'.frame, h.only.trans h'.only⟩

theorem acts_openGroup (h : openGroup t i v g = some t') : Acts i v g k t t' := by
  refine ⟨frame_openGroup h, ?_⟩
  rw [(searchGroupEntry_openGroup h).2]
  exact .rfl

theorem clientsAt_storeClient (hkey : clientKey v e = k) :
    clientsAt (t.storeClient i v g e) i v g =
      update (clientKey v) k (fun _ => e) (clientsAt t i v g) := by
  subst hkey
  exact clientsAt_modifyClients (Or.inl rfl)

theorem acts_storeClient (hkey : clientKey v e = k) : Acts i v g k t (t.storeClient i v g e) := by
  refine ⟨frame_modifyClients, ?_⟩
  rw [clientsAt_storeClient hkey]
  exact only_update hkey

theorem clientsAt_deleteClientEntry :
    clientsAt (deleteClientEntry t i v g e) i v g =
      (clientsAt t i v g).filter fun c => clientKey v c ≠ clientKey v e :=
  clientsAt_modifyClients (Or.inl rfl)

theorem frame_deleteClientEntry : Frame (spot i v g) t (deleteClientEntry t i v g e) :=
  frame_modifyClients

theorem acts_deleteClientEntry (hkey : clientKey v e = k) :
    Acts i v g k t (deleteClientEntry t i v g e) := by
  refine ⟨frame_deleteClientEntry, ?_⟩
  rw [clientsAt_deleteClientEntry]
  exact only_sweep hkey

theorem clientsAt_link {pool : List ℕ} (hgroup : (searchGroupEntry t i v g).isSome) :
    clientsAt ((t.takeClient i v g pool).modifyClients i v g (e :: ·)) i v g = e :: clientsAt t i v g :=
  clientsAt_modifyClients (t := t.takeClient i v g pool) (f := (e :: ·)) (Or.inr hgroup)

/-- The entry is one that was there or a new one, linked in front. -/
theorem openClient_cases {now timer : UInt32} {pkt : PktHdr}
    (h : openClient now pkt v g c timer t = some (e, t')) :
    clientKey v e = (addr v c, pkt.smac) ∧
      ((∃ old ∈ clientsAt t pkt.moduleIndex v g, e = old.seen pkt ∧ t' = t) ∨
        ∃ id pool, t.clientPool = id :: pool ∧
          search (clientKey v) (addr v c, pkt.smac) (clientsAt t pkt.moduleIndex v g) = none ∧
          e = ClientEntry.fresh now pkt v c timer id ∧
          t' = (t.takeClient pkt.moduleIndex v g pool).modifyClients pkt.moduleIndex v g (e :: ·)) := by
  unfold openClient at h
  rw [clientOf_eq] at h
  split at h
  · next old hold =>
    obtain ⟨rfl, rfl⟩ := Prod.mk.inj (Option.some.inj h)
    have hkey : clientKey v old = (addr v c, pkt.smac) := key_of_search hold
    exact ⟨hkey, Or.inl ⟨old, mem_of_search hold, rfl, rfl⟩⟩
  · next hnew =>
    split at h
    · cases h
    · next id pool hpool =>
      obtain ⟨rfl, rfl⟩ := Prod.mk.inj (Option.some.inj h)
      have hkey : clientKey v (ClientEntry.fresh now pkt v c timer id) = (addr v c, pkt.smac) := by
        rw [clientKey, ClientEntry.fresh, addr_addr]
      exact ⟨hkey, Or.inr ⟨id, pool, hpool, hnew, rfl, rfl⟩⟩

/-- The entry that is found or made belongs to the client. -/
theorem openClient_acts {now timer : UInt32} {pkt : PktHdr}
    (hgroup : (searchGroupEntry t pkt.moduleIndex v g).isSome)
    (h : openClient now pkt v g c timer t = some (e, t')) :
    clientKey v e = (addr v c, pkt.smac) ∧
      Acts pkt.moduleIndex v g (addr v c, pkt.smac) t t' := by
  obtain ⟨hkey, ⟨_, _, -, rfl⟩ | ⟨id, pool, -, hnew, -, rfl⟩⟩ := openClient_cases h
  · exact ⟨hkey, .of_eq rfl⟩
  · refine ⟨hkey, frame_modifyClients, ?_⟩
    rw [clientsAt_link hgroup]
    exact only_cons hkey hnew

/-- A group that is deleted had no clients. -/
theorem dropEmptyGroup_cases (db : Db) (i : ℕ) (v : IpVersion) (g : Ip) :
    dropEmptyGroup db i v g = db ∨
      ∃ ge, searchGroupEntry db.tables i v g = some ge ∧ ge.clientList = [] ∧
        dropEmptyGroup db i v g = { db with
          tables := db.tables.freeGroup i v ge
          flows := invalidateMCastGroupFlow db.flows i v ge.groupAddr } := by
  unfold dropEmptyGroup
  split
  · next ge hge =>
    split
    · next hempty =>
      refine Or.inr ⟨ge, hge, hempty, ?_⟩
      have hlist : deleteClientList db.tables i v ge = db.tables := by
        rw [deleteClientList, hempty]
        rfl
      rw [deleteGroupEntry, hlist]
    · exact Or.inl rfl
  · exact Or.inl rfl

theorem frame_dropEmptyGroup (db : Db) (i : ℕ) (v : IpVersion) (g : Ip) :
    Frame (spot i v g) db.tables (dropEmptyGroup db i v g).tables := by
  rcases dropEmptyGroup_cases db i v g with h | ⟨ge, hge, -, h⟩
  · rw [h]
    exact .of_eq rfl
  · have hkey : addr v ge.groupAddr = addr v g := groupKey_of_search hge
    have hspot : spot i v g = spot i v ge.groupAddr := congrArg (fun a => (i, v, a)) hkey.symm
    rw [h, hspot]
    exact frame_freeGroup

/-- A group stays if it has clients. -/
theorem searchGroupEntry_dropEmptyGroup (db : Db) (i : ℕ) (v : IpVersion) (g : Ip) :
    searchGroupEntry (dropEmptyGroup db i v g).tables i v g =
      (searchGroupEntry db.tables i v g).bind fun e => if e.clientList = [] then none else some e := by
  unfold dropEmptyGroup
  cases hsearch : searchGroupEntry db.tables i v g with
  | none => exact hsearch
  | some e =>
    have hkey : addr v g = addr v e.groupAddr := (groupKey_of_search hsearch).symm
    rw [Option.bind_some]
    simp only
    split
    · rw [searchGroupEntry_congr hkey]
      exact searchGroupEntry_freeGroup
    · exact hsearch

/-- Deleting a group without clients is not seen. -/
theorem clientsAt_dropEmptyGroup (db : Db) (i : ℕ) (v : IpVersion) (g : Ip) :
    clientsAt (dropEmptyGroup db i v g).tables j w g' = clientsAt db.tables j w g' := by
  by_cases hne : spot j w g' = spot i v g
  · obtain ⟨rfl, rfl, hg⟩ := spot_inj.mp hne
    rw [clientsAt_congr hg, clientsAt_congr hg]
    rcases dropEmptyGroup_cases db j w g with h | ⟨ge, hge, hempty, h⟩
    · rw [h]
    · have hkey : addr w ge.groupAddr = addr w g := groupKey_of_search hge
      rw [h, clientsAt_congr hkey.symm, clientsAt_freeGroup, clientsAt_of_search hge, hempty]
  · exact (frame_dropEmptyGroup db i v g).clientsAt hne

theorem acts_dropEmptyGroup (db : Db) :
    Acts i v g k db.tables (dropEmptyGroup db i v g).tables := by
  refine ⟨frame_dropEmptyGroup db i v g, ?_⟩
  rw [clientsAt_dropEmptyGroup]
  exact .rfl

end Acts

/-! ### Reports -/

section Reports

variable {db : Db} {dev : DevInfo} {pkt : PktHdr} {v : IpVersion} {c g : Ip}

theorem finish_tables {out : Outcome} :
    (finish db pkt v g out).2.tables =
      (db.tables.withSources out.sourcePool out.calls).storeClient pkt.moduleIndex v g out.client := by
  unfold finish
  split <;> rfl

theorem finish_acts (db : Db) {out : Outcome} (hkey : clientKey v out.client = (addr v c, pkt.smac)) :
    Acts pkt.moduleIndex v g (addr v c, pkt.smac) db.tables (finish db pkt v g out).2.tables := by
  rw [finish_tables]
  have hpool : Acts pkt.moduleIndex v g (addr v c, pkt.smac) db.tables
      (db.tables.withSources out.sourcePool out.calls) := .of_eq rfl
  exact hpool.trans (acts_storeClient hkey)

/-- A record that passes the checks is entered. -/
theorem learn_cases (db : Db) (dev : DevInfo) (pkt : PktHdr) (v : IpVersion) (c g : Ip)
    (mcSource : Option Ip) (timer : UInt32) (core : DevConf → ClientEntry → List ℕ → Outcome) :
    (learn db dev pkt v c g mcSource timer core).2 = (checkReport db dev pkt v c g mcSource).2 ∨
      (checkReport db dev pkt v c g mcSource).1 = .cont ∧
      learn db dev pkt v c g mcSource timer core =
        enter (checkReport db dev pkt v c g mcSource).2 pkt v c g timer fun e =>
          core (dev.devConf v) (e.reported pkt v) := by
  rw [learn_eq_enter]
  rcases checkReport db dev pkt v c g mcSource with ⟨ret, db'⟩
  cases ret with
  | cont => exact Or.inr ⟨rfl, rfl⟩
  | drop => exact Or.inl rfl
  | accept => exact Or.inl rfl

theorem processJoin_cases (db : Db) (dev : DevInfo) (pkt : PktHdr) (v : IpVersion) (igmpv1 : Bool)
    (c g : Ip) :
    (processJoin db dev pkt v igmpv1 c g).2 = (checkJoin db dev pkt v c g).2 ∨
      (checkJoin db dev pkt v c g).1 = .cont ∧
      (processJoin db dev pkt v igmpv1 c g).2 =
        (enter (checkJoin db dev pkt v c g).2 pkt v c g 0
          (joinCore (checkJoin db dev pkt v c g).2.clock.now pkt (joinVersion igmpv1 v)
            (dev.devConf v))).2 := by
  unfold processJoin
  rcases checkJoin db dev pkt v c g with ⟨ret, db'⟩
  cases ret with
  | cont => exact Or.inr ⟨rfl, rfl⟩
  | drop => exact Or.inl rfl
  | accept => exact Or.inl rfl

/-- A record of blocked sources: nothing, or the client's sources, or only the flows. -/
theorem processBlock_cases (db : Db) (dev : DevInfo) (pkt : PktHdr) (v : IpVersion) (c : Ip)
    (rec : GroupRecord) :
    let db' := (checkReport db dev pkt v c rec.groupAddr none).2
    (processBlock db dev pkt v c rec).2 = db' ∨
    (checkReport db dev pkt v c rec.groupAddr none).1 = .cont ∧
      ((clientOf db'.tables pkt.moduleIndex v rec.groupAddr c pkt.smac = none ∧
          (processBlock db dev pkt v c rec).2 = db'.reflush (addr v rec.groupAddr)) ∨
        ∃ e, clientOf db'.tables pkt.moduleIndex v rec.groupAddr c pkt.smac = some e ∧
          processBlock db dev pkt v c rec = finish db' pkt v rec.groupAddr
            (block db'.clock.now v (dev.devConf v) rec.srcList
              { e.seen pkt with igmpVersion := reportVersion v } db'.tables.sourcePool)) := by
  unfold processBlock
  rcases checkReport db dev pkt v c rec.groupAddr none with ⟨ret, db'⟩
  cases ret with
  | cont =>
    refine Or.inr ⟨rfl, ?_⟩
    simp only
    cases hclient : clientOf db'.tables pkt.moduleIndex v rec.groupAddr c pkt.smac with
    | none => exact Or.inl ⟨rfl, rfl⟩
    | some e => exact Or.inr ⟨e, rfl, rfl⟩
  | drop => exact Or.inl rfl
  | accept => exact Or.inl rfl

theorem processLeave_tables :
    (processLeave db dev pkt v c g).2.tables = (dropEmptyGroup
      { db with tables := leaveClient pkt v db.clock.now db.tables (dev.devConf v) c g }
      pkt.moduleIndex v g).tables := by
  unfold processLeave
  simp only
  split <;> rfl

/-- A leave deletes the client or caps its timers, and the group may be deleted. -/
theorem processLeave_holds {P : Tables → Prop} (h : P db.tables)
    (hdrop : ∀ db : Db, P db.tables → P (dropEmptyGroup db pkt.moduleIndex v g).tables)
    (hclient : ∀ e ∈ clientsAt db.tables pkt.moduleIndex v g, clientKey v e = (addr v c, pkt.smac) →
      P (deleteClientEntry db.tables pkt.moduleIndex v g e) ∧
        ∀ last, P (db.tables.storeClient pkt.moduleIndex v g ((e.seen pkt).cap last))) :
    P (processLeave db dev pkt v c g).2.tables := by
  rw [processLeave_tables]
  refine hdrop _ ?_
  dsimp only
  unfold leaveClient
  split
  · exact h
  · next e he =>
    rw [clientOf_eq] at he
    obtain ⟨hdelete, hcap⟩ := hclient e (mem_of_search he) (key_of_search he)
    split
    · exact hdelete
    · exact hcap _

theorem processLeave_acts :
    Acts pkt.moduleIndex v g (addr v c, pkt.smac) db.tables (processLeave db dev pkt v c g).2.tables :=
  processLeave_holds (.of_eq rfl) (fun db h => h.trans (acts_dropEmptyGroup db)) fun _ _ hkey =>
    ⟨acts_deleteClientEntry hkey, fun _ => acts_storeClient hkey⟩

end Reports

end PhoebusBsp.Igmp

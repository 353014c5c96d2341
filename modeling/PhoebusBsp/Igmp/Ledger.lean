import PhoebusBsp.Igmp.Heap
import PhoebusBsp.Igmp.Upkeep

/-! Tables and memory in step: what is done to the tables, the calls of the handler do to memory.

        tables   t  ──handler──▶  t'
                 │                │          Backed: memory holds a layout, the tables show it
        memory   m  ───calls───▶  m'

    `Follows t t'` says that this square commutes from any memory. It is proved for each of the changes
    that the handlers are made of. -/

namespace PhoebusBsp.Igmp
open Schemes Chain Arena List

/-- The tables show what hangs where. -/
structure Shows (t : Tables) (L : Layout) : Prop where
  groupPool : L.groups none = t.groupPool
  clientPool : L.clients none = t.clientPool
  sourcePool : L.sources none = t.sourcePool
  groups : ∀ i v h, L.groups (some (i, v, h)) = (t.hashTable i v h).map GroupEntry.id
  clients : ∀ i v g e, searchGroupEntry t i v g = some e →
    L.clients (some e.id) = e.clientList.map ClientEntry.id
  sources : ∀ i v g e, searchGroupEntry t i v g = some e → ∀ c ∈ e.clientList,
    L.sources (some c.id) = c.sourceList.map SourceEntry.id

/-- Memory holds the tables. -/
def Backed (groupCount clientCount sourceCount : ℕ) (m : Heap) (t : Tables) : Prop :=
  ∃ L, Sound groupCount clientCount sourceCount m L ∧ Shows t L ∧ Unique t

/-- Memory holds the tables after their calls, if it did before. -/
def Follows (t t' : Tables) : Prop :=
  ∀ G C S m, Backed G C S (t.calls.foldl exec m) t → Backed G C S (t'.calls.foldl exec m) t'

theorem Follows.refl {t : Tables} : Follows t t := fun _ _ _ _ h => h

theorem Follows.trans {t t' t'' : Tables} (h : Follows t t') (h' : Follows t' t'') : Follows t t'' :=
  fun G C S m hm => h' G C S m (h G C S m hm)

/-- What the last calls do to memory that holds the tables. -/
theorem Follows.of_calls {t t' : Tables} {log : List Call} (hcalls : t'.calls = t.calls ++ log)
    (h : ∀ G C S m, Backed G C S m t → Backed G C S (log.foldl exec m) t') : Follows t t' := by
  intro G C S m hm
  rw [hcalls, foldl_append]
  exact h G C S _ hm

/-! ### Every entry at one place -/

section Places

variable {G C S : ℕ} {m : Heap} {L : Layout} {t : Tables} {i j : ℕ} {v w : IpVersion} {g g' : Ip}
  {e e' : GroupEntry} {c c' : ClientEntry}

theorem Shows.group_mem (h : Shows t L) (he : searchGroupEntry t i v g = some e) :
    e.id ∈ L.groups (some (i, v, hashAlgorithm v g)) := by
  rw [h.groups]
  exact mem_map_of_mem (mem_of_search he)

/-- Two groups do not have one entry. -/
theorem Shows.group_inj (h : Shows t L) (hs : Sound G C S m L) (he : searchGroupEntry t i v g = some e)
    (he' : searchGroupEntry t j w g' = some e') (hid : e.id = e'.id) : spot i v g = spot j w g' := by
  have hmem' := h.group_mem he'
  have hbucket := hs.groups.forest.apart _ _ e.id (h.group_mem he) (hid ▸ hmem')
  obtain ⟨rfl, hrest⟩ := Prod.mk.inj (Option.some.inj hbucket)
  obtain ⟨rfl, hhash⟩ := Prod.mk.inj hrest
  have hnodup := hs.groups.forest.nodup (some (i, v, hashAlgorithm v g))
  rw [h.groups] at hnodup
  have hin : e' ∈ t.hashTable i v (hashAlgorithm v g) := hhash ▸ mem_of_search he'
  obtain rfl := inj_on_of_nodup_map hnodup (mem_of_search he) hin hid
  exact spot_inj.mpr ⟨rfl, rfl, (groupKey_of_search he).symm.trans (groupKey_of_search he')⟩

theorem Shows.client_mem (h : Shows t L) (he : searchGroupEntry t i v g = some e) (hc : c ∈ e.clientList) :
    c.id ∈ L.clients (some e.id) := by
  rw [h.clients i v g e he]
  exact mem_map_of_mem hc

/-- Two clients do not have one entry. -/
theorem Shows.client_inj (h : Shows t L) (hs : Sound G C S m L) (he : searchGroupEntry t i v g = some e)
    (hc : c ∈ e.clientList) (he' : searchGroupEntry t j w g' = some e') (hc' : c' ∈ e'.clientList)
    (hid : c.id = c'.id) : spot i v g = spot j w g' ∧ c = c' := by
  have hmem' := h.client_mem he' hc'
  have hgroup := Option.some.inj (hs.clients.forest.apart _ _ c.id (h.client_mem he hc) (hid ▸ hmem'))
  have hspot := h.group_inj hs he he' hgroup
  obtain ⟨rfl, rfl, hg⟩ := spot_inj.mp hspot
  rw [searchGroupEntry_congr hg, he'] at he
  obtain rfl := Option.some.inj he
  have hnodup := hs.clients.forest.nodup (some e'.id)
  rw [h.clients i v g' e' he'] at hnodup
  exact ⟨hspot, inj_on_of_nodup_map hnodup hc hc' hid⟩

end Places

/-! ### Groups -/

section Groups

variable {t t' : Tables} {i : ℕ} {v : IpVersion} {g : Ip}

theorem follows_openGroup (h : openGroup t i v g = some t') : Follows t t' := by
  have hacts : Acts i v g (addr v g, 0) t t' := acts_openGroup h
  obtain ⟨⟨hclient, hsource⟩, ⟨rfl, -⟩ | ⟨-, e, hpool, hkey, hempty, -, -, hcalls, hchain⟩⟩ := openGroup_cases h
  · exact .refl
  refine .of_calls hcalls ?_
  rintro G C S m ⟨L, hsound, hshows, hu⟩
  have hfree : L.groups none = e.id :: t'.groupPool := hshows.groupPool.trans hpool
  have hlegal : (Call.newGroup (i, v, hashAlgorithm v g)).Legal L := by
    rw [Call.Legal, hfree]
    exact cons_ne_nil e.id t'.groupPool
  have hself : searchGroupEntry t' i v g = some e := by
    rw [searchGroupEntry, hchain, setChain_self, search_cons, if_pos hkey]
  -- a group in the new tables is the new one or an old one
  have hcases : ∀ j w g' e', searchGroupEntry t' j w g' = some e' →
      e' = e ∨ searchGroupEntry t j w g' = some e' := by
    intro j w g' e' he'
    by_cases hspot : spot j w g' = spot i v g
    · obtain ⟨rfl, rfl, hg⟩ := spot_inj.mp hspot
      rw [searchGroupEntry_congr hg, hself] at he'
      exact Or.inl (Option.some.inj he').symm
    · exact Or.inr (hacts.frame j w g' hspot ▸ he')
  refine ⟨_, exec_sound _ hlegal hsound, ?_, hacts.unique hu⟩
  refine ⟨take_none hfree, hshows.clientPool.trans hclient.symm, hshows.sourcePool.trans hsource.symm,
    fun j w b => ?_, fun j w g' e' he' => ?_, fun j w g' e' he' => ?_⟩
  · by_cases hb : (j, w, b) = (i, v, hashAlgorithm v g)
    · obtain ⟨rfl, hrest⟩ := Prod.mk.inj hb
      obtain ⟨rfl, rfl⟩ := Prod.mk.inj hrest
      refine (take_self hfree).trans ?_
      rw [hshows.groups, hchain, setChain_self, map_cons]
    · refine (take_other hb).trans ?_
      rw [hshows.groups, hchain, setChain_other hb]
  · rcases hcases j w g' e' he' with rfl | hold
    · rw [hempty]
      exact hanging_free hsound.clientsAt hsound.groups (hfree ▸ mem_cons_self)
    · exact hshows.clients j w g' e' hold
  · rcases hcases j w g' e' he' with rfl | hold
    · rw [hempty]
      exact fun c hc => absurd hc not_mem_nil
    · exact hshows.sources j w g' e' hold

/-- An entry without clients is unlinked. -/
theorem follows_freeGroup {e e₀ : GroupEntry} (he : searchGroupEntry t i v e₀.groupAddr = some e)
    (hid : e.id = e₀.id) (hempty : e.clientList = []) : Follows t (t.freeGroup i v e₀) := by
  have hframe : Frame (spot i v e₀.groupAddr) t (t.freeGroup i v e₀) := frame_freeGroup
  have hgone : searchGroupEntry (t.freeGroup i v e₀) i v e₀.groupAddr = none := searchGroupEntry_freeGroup
  have hold : ∀ j w g' e', searchGroupEntry (t.freeGroup i v e₀) j w g' = some e' →
      searchGroupEntry t j w g' = some e' := by
    intro j w g' e' he'
    by_cases hspot : spot j w g' = spot i v e₀.groupAddr
    · obtain ⟨rfl, rfl, hg⟩ := spot_inj.mp hspot
      rw [searchGroupEntry_congr hg, hgone] at he'
      cases he'
    · exact hframe j w g' hspot ▸ he'
  have hcalls : (t.freeGroup i v e₀).calls = t.calls ++ [.deleteGroup (i, v, hashAlgorithm v e₀.groupAddr) e.id] :=
    hid ▸ rfl
  refine .of_calls hcalls ?_
  rintro G C S m ⟨L, hsound, hshows, hu⟩
  have hmem : e.id ∈ L.groups (some (i, v, hashAlgorithm v e₀.groupAddr)) := hshows.group_mem he
  have hlegal : (Call.deleteGroup (i, v, hashAlgorithm v e₀.groupAddr) e.id).Legal L :=
    ⟨hmem, by rw [hshows.clients i v _ e he, hempty, map_nil]⟩
  have hunique : Unique (t.freeGroup i v e₀) := (Change.freeGroup he hid hempty).unique hu
  refine ⟨_, exec_sound _ hlegal hsound, ?_, hunique⟩
  refine ⟨?_, hshows.clientPool, hshows.sourcePool, fun j w b => ?_,
    fun j w g' e' he' => hshows.clients j w g' e' (hold j w g' e' he'),
    fun j w g' e' he' => hshows.sources j w g' e' (hold j w g' e' he')⟩
  · have hpool : give L.groups (i, v, hashAlgorithm v e₀.groupAddr) e.id none = e.id :: L.groups none :=
      give_none
    refine hpool.trans ?_
    rw [hshows.groupPool, hid]
    rfl
  · have hchain : (t.freeGroup i v e₀).hashTable = setChain t.hashTable i v e₀.groupAddr
        ((t.hashTable i v (hashAlgorithm v e₀.groupAddr)).filter fun e' => groupKey v e' ≠ groupKey v e₀) := rfl
    by_cases hb : (j, w, b) = (i, v, hashAlgorithm v e₀.groupAddr)
    · obtain ⟨rfl, hrest⟩ := Prod.mk.inj hb
      obtain ⟨rfl, rfl⟩ := Prod.mk.inj hrest
      have hkey : groupKey w e = groupKey w e₀ := groupKey_of_search he
      have hnodup := hsound.groups.forest.nodup (some (j, w, hashAlgorithm w e₀.groupAddr))
      rw [hshows.groups] at hnodup
      refine give_self.trans ?_
      rw [hshows.groups, hchain, setChain_self, ← hkey]
      exact (map_sweep (t.distinct j w _) hnodup (mem_of_search he)).symm
    · refine (give_other hb).trans ?_
      rw [hshows.groups, hchain, setChain_other hb]

end Groups

/-! ### Clients -/

section Clients

variable {G C S : ℕ} {m : Heap} {L L' : Layout} {t t' : Tables} {i : ℕ} {v : IpVersion} {g : Ip}
  {e : GroupEntry} {c c' : ClientEntry} {pool : List ℕ} {calls : List Call}

/-- Memory follows the calls for the sources of one client. -/
theorem sound_moves {a : ℕ} {log : List Call} {x y : List ℕ × List ℕ} (hmoves : SourceMoves a log x y) :
    ∀ {m L}, Sound G C S m L → (∃ g, a ∈ L.clients (some g)) → (L.sources (some a), L.sources none) = x →
      ∃ L', Sound G C S (log.foldl exec m) L' ∧ L'.groups = L.groups ∧ L'.clients = L.clients ∧
        (L'.sources (some a), L'.sources none) = y ∧ ∀ b, b ≠ a → L'.sources (some b) = L.sources (some b) := by
  induction hmoves with
  | refl => exact fun {_ L} hsound _ hlists => ⟨L, hsound, rfl, rfl, hlists, fun _ _ => rfl⟩
  | @new _ l pool b _ _ ih =>
    intro m L hsound ha hlists
    obtain ⟨hl, hpool⟩ := Prod.mk.inj hlists
    have hlegal : (Call.newSource a).Legal L := ⟨hpool ▸ cons_ne_nil b pool, ha⟩
    have hlists' : (take L.sources a (some a), take L.sources a none) = (b :: l, pool) :=
      Prod.ext ((take_self hpool).trans (by rw [hl])) (take_none hpool)
    obtain ⟨L', hsound', hgroups, hclients, hend, hothers⟩ := ih (exec_sound _ hlegal hsound) ha hlists'
    exact ⟨L', hsound', hgroups, hclients, hend, fun b hb => (hothers b hb).trans (take_other hb)⟩
  | @delete _ pre post pool b _ _ ih =>
    intro m L hsound ha hlists
    obtain ⟨hl, hpool⟩ := Prod.mk.inj hlists
    have hmem : b ∈ L.sources (some a) := by
      rw [hl]
      exact mem_append_right _ mem_cons_self
    have hnodup := hsound.sources.forest.nodup (some a)
    rw [hl] at hnodup
    have hpre : b ∉ pre := fun hpre => (nodup_append.mp hnodup).2.2 b hpre b mem_cons_self rfl
    have herase : give L.sources a b (some a) = pre ++ post := by
      rw [give_self, hl, erase_append_right _ hpre, erase_cons_head]
    have hfree : give L.sources a b none = b :: pool := by rw [give_none, hpool]
    have hlegal : (Call.deleteSource a b).Legal L := hmem
    obtain ⟨L', hsound', hgroups, hclients, hend, hothers⟩ :=
      ih (exec_sound _ hlegal hsound) ha (Prod.ext herase hfree)
    exact ⟨L', hsound', hgroups, hclients, hend, fun b' hb => (hothers b' hb).trans (give_other hb)⟩

theorem groupId_of_search (he : searchGroupEntry t i v g = some e) : groupId t i v g = e.id := by
  rw [groupId, he]
  rfl

/-- The tables show the layout again when the clients of one group, with their sources, are shown. -/
theorem shows_modifyClients {f : List ClientEntry → List ClientEntry} (hshows : Shows t L)
    (hsound : Sound G C S m L) (he : searchGroupEntry t i v g = some e)
    (hchain : t'.hashTable = (t.modifyClients i v g f).hashTable) (hgroupPool : t'.groupPool = t.groupPool)
    (hgroups : L'.groups = L.groups) (hclientPool : L'.clients none = t'.clientPool)
    (hsourcePool : L'.sources none = t'.sourcePool)
    (hclients : L'.clients (some e.id) = (f e.clientList).map ClientEntry.id)
    (hclients' : ∀ a, a ≠ e.id → L'.clients (some a) = L.clients (some a))
    (hsources : ∀ c ∈ f e.clientList, L'.sources (some c.id) = c.sourceList.map SourceEntry.id)
    (hsources' : ∀ j w g' e', spot j w g' ≠ spot i v g → searchGroupEntry t j w g' = some e' →
      ∀ c ∈ e'.clientList, L'.sources (some c.id) = L.sources (some c.id)) : Shows t' L' := by
  have hsearch : ∀ j w g', searchGroupEntry t' j w g' = searchGroupEntry (t.modifyClients i v g f) j w g' := by
    intro j w g'
    unfold searchGroupEntry
    rw [hchain]
  -- a group in the new tables is the changed one or an old one
  have hcases : ∀ j w g' e', searchGroupEntry t' j w g' = some e' →
      e' = e.withClients f ∨ (spot j w g' ≠ spot i v g ∧ searchGroupEntry t j w g' = some e') := by
    intro j w g' e' he'
    rw [hsearch] at he'
    by_cases hspot : spot j w g' = spot i v g
    · obtain ⟨rfl, rfl, hg⟩ := spot_inj.mp hspot
      rw [searchGroupEntry_congr hg, searchGroupEntry_modifyClients, he, Option.map_some] at he'
      exact Or.inl (Option.some.inj he').symm
    · exact Or.inr ⟨hspot, frame_modifyClients j w g' hspot ▸ he'⟩
  refine ⟨?_, hclientPool, hsourcePool, fun j w b => ?_, fun j w g' e' he' => ?_, fun j w g' e' he' c hc => ?_⟩
  · rw [hgroups, hshows.groupPool, hgroupPool]
  · have hset : (t.modifyClients i v g f).hashTable = setChain t.hashTable i v g
        (update (groupKey v) (addr v g) (GroupEntry.withClients f)
          (t.hashTable i v (hashAlgorithm v g))) := rfl
    rw [hgroups, hshows.groups, hchain, hset]
    by_cases hb : (j, w, b) = (i, v, hashAlgorithm v g)
    · obtain ⟨rfl, hrest⟩ := Prod.mk.inj hb
      obtain ⟨rfl, rfl⟩ := Prod.mk.inj hrest
      have hids : ∀ l, (update (groupKey w) (addr w g) (GroupEntry.withClients f) l).map GroupEntry.id =
          l.map GroupEntry.id := fun _ => map_update fun _ _ => rfl
      rw [setChain_self, hids]
    · rw [setChain_other hb]
  · rcases hcases j w g' e' he' with rfl | ⟨hspot, hold⟩
    · exact hclients
    · have hne : e'.id ≠ e.id := fun hid => hspot (hshows.group_inj hsound hold he hid)
      rw [hclients' _ hne]
      exact hshows.clients j w g' e' hold
  · rcases hcases j w g' e' he' with rfl | ⟨hspot, hold⟩
    · exact hsources c hc
    · rw [hsources' j w g' e' hspot hold c hc]
      exact hshows.sources j w g' e' hold c hc

/-- A new client is linked. -/
theorem follows_linkClient (he : searchGroupEntry t i v g = some e) (hpool : t.clientPool = c.id :: pool)
    (hnew : search (clientKey v) (clientKey v c) e.clientList = none) (hsources : c.sourceList = []) :
    Follows t ((t.takeClient i v g pool).modifyClients i v g (c :: ·)) := by
  have hcalls : ((t.takeClient i v g pool).modifyClients i v g (c :: ·)).calls = t.calls ++ [.newClient e.id] := by
    rw [← groupId_of_search he]
    rfl
  refine .of_calls hcalls ?_
  rintro G C S m ⟨L, hsound, hshows, hu⟩
  have hfree : L.clients none = c.id :: pool := hshows.clientPool.trans hpool
  have hlegal : (Call.newClient e.id).Legal L := ⟨hfree ▸ cons_ne_nil c.id pool, _, hshows.group_mem he⟩
  refine ⟨_, exec_sound _ hlegal hsound, ?_,
    (Change.linkClient he hpool hnew hsources).unique hu⟩
  refine shows_modifyClients hshows hsound he rfl rfl rfl (take_none hfree) hshows.sourcePool ?_
    (fun a ha => take_other ha) ?_ fun _ _ _ _ _ _ _ _ => rfl
  · refine (take_self hfree).trans ?_
    rw [hshows.clients i v g e he, map_cons]
  · intro c' hc'
    rcases mem_cons.mp hc' with rfl | hc'
    · rw [hsources]
      exact hanging_free hsound.sourcesAt hsound.clients (hfree ▸ mem_cons_self)
    · exact hshows.sources i v g e he c' hc'

/-- The sources of a client are worked on. -/
theorem follows_storeClient (hc : c ∈ clientsAt t i v g)
    (hid : c'.id = c.id) (hkey : clientKey v c' = clientKey v c)
    (hmoved : Moved c.id calls ⟨c.sourceList, t.sourcePool⟩ ⟨c'.sourceList, pool⟩) :
    Follows t ((t.withSources pool calls).storeClient i v g c') := by
  refine .of_calls rfl ?_
  rintro G C S m ⟨L, hsound, hshows, hu⟩
  obtain ⟨e, he, hmem⟩ := group_of_client hc
  have hnodup := hu i v g
  rw [clientsAt_of_search he] at hnodup
  have hfound : search (clientKey v) (clientKey v c) e.clientList = some c :=
    search_eq_some hnodup hmem
  have hlists : (L.sources (some c.id), L.sources none) = Sources.ids ⟨c.sourceList, t.sourcePool⟩ :=
    Prod.ext (hshows.sources i v g e he c hmem) hshows.sourcePool
  obtain ⟨L', hsound', hgroups, hclients, hlists', hothers⟩ :=
    sound_moves hmoved hsound ⟨_, hshows.client_mem he hmem⟩ hlists
  obtain ⟨hown, hpool⟩ := Prod.mk.inj hlists'
  -- the key leads to `c`, whose place `c'` takes
  have hkeeps : ∀ a, clientKey v a = clientKey v c' → clientKey v c' = clientKey v c' := fun _ _ => rfl
  refine ⟨L', hsound', ?_, (Change.storeClient hc hid hkey hmoved).unique hu⟩
  refine shows_modifyClients hshows hsound he rfl rfl hgroups ?_ hpool ?_ ?_ ?_ ?_
  · rw [hclients]
    exact hshows.clientPool
  · rw [hclients, hshows.clients i v g e he, hkey]
    refine (map_update fun a ha => ?_).symm
    obtain rfl := Option.some.inj (hfound.symm.trans ha)
    exact hid
  · intro a _
    rw [hclients]
  · intro b hb
    rcases mem_update_of_nodup hkeeps hnodup hb with ⟨a, -, rfl⟩ | ⟨hne, hold⟩
    · rw [hid]
      exact hown
    · have hids : b.id ≠ c.id := fun hbc => by
        obtain ⟨-, rfl⟩ := hshows.client_inj hsound he hold he hmem hbc
        exact hne hkey.symm
      rw [hothers b.id hids]
      exact hshows.sources i v g e he b hold
  · intro j w g' e' hspot he' b hb
    refine hothers b.id fun hbc => hspot ?_
    exact (hshows.client_inj hsound he' hb he hmem hbc).1

/-- A client of the group is deleted, its sources first. -/
theorem follows_deleteClientEntry (hc : c ∈ clientsAt t i v g) : Follows t (deleteClientEntry t i v g c) := by
  refine .of_calls rfl ?_
  rintro G C S m ⟨L, hsound, hshows, hu⟩
  have hunique : Unique (deleteClientEntry t i v g c) := (Change.deleteClient hc).unique hu
  obtain ⟨e, he, hc⟩ := group_of_client hc
  have hnodup := hu i v g
  rw [clientsAt_of_search he] at hnodup
  have hlists : (L.sources (some c.id), L.sources none) = Sources.ids ⟨c.sourceList, t.sourcePool⟩ :=
    Prod.ext (hshows.sources i v g e he c hc) hshows.sourcePool
  obtain ⟨L₁, hsound₁, hgroups, hclients, hlists₁, hothers⟩ :=
    sound_moves moved_deleteSourceList hsound ⟨_, hshows.client_mem he hc⟩ hlists
  obtain ⟨hown, hpool⟩ := Prod.mk.inj hlists₁
  have hempty : L₁.sources (some c.id) = [] := by
    rw [hown, Sources.deleteSourceList, Sources.delete, filter_false, map_nil]
  have hin : c.id ∈ L₁.clients (some e.id) := by
    rw [hclients]
    exact hshows.client_mem he hc
  have hids := hsound.clients.forest.nodup (some e.id)
  rw [hshows.clients i v g e he] at hids
  rw [groupId_of_search he, foldl_append]
  refine ⟨L₁.apply (.deleteClient e.id c.id), ?_, ?_, hunique⟩
  · exact exec_sound (.deleteClient e.id c.id) ⟨hin, hempty⟩ hsound₁
  have hclientPool : give L₁.clients e.id c.id none = c.id :: t.clientPool := by
    rw [give_none, hclients, hshows.clientPool]
  have hgroup : give L₁.clients e.id c.id (some e.id) =
      (e.clientList.filter fun b => clientKey v b ≠ clientKey v c).map ClientEntry.id := by
    rw [give_self, hclients, hshows.clients i v g e he]
    exact (map_sweep hnodup hids hc).symm
  refine shows_modifyClients hshows hsound he rfl rfl hgroups hclientPool hpool hgroup ?_ ?_ ?_
  · intro a ha
    refine (give_other ha).trans ?_
    rw [hclients]
  · intro b hb
    obtain ⟨hold, hne⟩ := mem_filter.mp hb
    have hne : clientKey v b ≠ clientKey v c := by simpa using hne
    have hbc : b.id ≠ c.id := fun hbc => by
      obtain ⟨-, rfl⟩ := hshows.client_inj hsound he hold he hc hbc
      exact hne rfl
    refine (hothers b.id hbc).trans ?_
    exact hshows.sources i v g e he b hold
  · intro j w g' e' hspot he' b hb
    refine hothers b.id fun hbc => hspot ?_
    exact (hshows.client_inj hsound he' hb he hc hbc).1

end Clients

/-! ### Events -/

theorem Change.follows {t t' : Tables} (h : Change t t') : Follows t t' := by
  cases h with
  | newGroup hopen => exact follows_openGroup hopen
  | freeGroup he hid hempty => exact follows_freeGroup he hid hempty
  | linkClient he hpool hnew hsources => exact follows_linkClient he hpool hnew hsources
  | storeClient hc hid hkey hmoved => exact follows_storeClient hc hid hkey hmoved
  | deleteClient hc => exact follows_deleteClientEntry hc

theorem Evolves.follows {t t' : Tables} (h : Evolves t t') : Follows t t' := by
  rintro G C S m ⟨L, hsound, hshows, hu⟩
  have hfollows : ∀ t', Relation.ReflTransGen Change t t' → Follows t t' := by
    intro t' hchanges
    induction hchanges with
    | refl => exact .refl
    | tail _ hchange ih => exact ih.trans hchange.follows
  exact hfollows t' (h hu) G C S m ⟨L, hsound, hshows, hu⟩

/-- Memory follows every event. -/
theorem follows_step (sysTimerSec : UInt32) (db : Db) (e : Event) :
    Follows db.tables (step sysTimerSec db e).tables :=
  (evolves_step sysTimerSec db e).follows

end PhoebusBsp.Igmp

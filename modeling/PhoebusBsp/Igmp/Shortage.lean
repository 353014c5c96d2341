import PhoebusBsp.Igmp.System
import PhoebusBsp.Schemes.Retouch

/-! Records that find a pool empty. A handler links the entries it needs one after the other and returns when one
    of the pools runs out; what it has done so far stays.

        group pool     nothing has been done yet
        client pool    a new group is linked, without clients
        source pool    a new client is linked, or the client and its sources are changed up to the source that
                       finds no entry

    The database is as before only where the handler had nothing to do up to that point. -/

namespace PhoebusBsp.Igmp
open Schemes Chain List

/-! ### The group database -/

/-- A source is its address and its timer; marks of the loops and of the sweeps are left out. -/
def SourceEntry.content (e : SourceEntry) : Ip × UInt32 := (e.sourceAddr, e.portTimer)

def ClientEntry.content (e : ClientEntry) : ClientEntry × List (Ip × UInt32) :=
  ({ e with sourceList := [] }, e.sourceList.map SourceEntry.content)

def GroupEntry.content (e : GroupEntry) : GroupEntry × List (ClientEntry × List (Ip × UInt32)) :=
  ({ e with clientList := [] }, e.clientList.map ClientEntry.content)

/-- The same groups with the same clients, their timers and sources. -/
def SameDatabase (t t' : Tables) : Prop :=
  ∀ j w h, (t'.hashTable j w h).map GroupEntry.content = (t.hashTable j w h).map GroupEntry.content

section Database

variable {t t' t'' : Tables} {i : ℕ} {v : IpVersion} {g c : Ip} {mac : Mac} {e e' : ClientEntry}

theorem SameDatabase.of_eq (h : t'.hashTable = t.hashTable) : SameDatabase t t' := fun _ _ _ => by rw [h]

theorem clientKey_of_content (h : e.content = e'.content) : clientKey v e = clientKey v e' :=
  congrArg (fun x : ClientEntry × List (Ip × UInt32) => clientKey v x.1) h

theorem groupKey_of_content {ge ge' : GroupEntry} (h : ge.content = ge'.content) : groupKey v ge = groupKey v ge' :=
  congrArg (fun x : GroupEntry × List (ClientEntry × List (Ip × UInt32)) => groupKey v x.1) h

theorem SameDatabase.group (h : SameDatabase t t') (i : ℕ) (v : IpVersion) (g : Ip) :
    (searchGroupEntry t' i v g).map GroupEntry.content = (searchGroupEntry t i v g).map GroupEntry.content :=
  search_congr (fun _ _ => groupKey_of_content) (h i v _)

theorem clientsAt_content (t : Tables) (i : ℕ) (v : IpVersion) (g : Ip) :
    (clientsAt t i v g).map ClientEntry.content =
      ((searchGroupEntry t i v g).map GroupEntry.content).elim [] Prod.snd := by
  unfold clientsAt
  cases searchGroupEntry t i v g <;> rfl

theorem SameDatabase.client (h : SameDatabase t t') (i : ℕ) (v : IpVersion) (g c : Ip) (mac : Mac) :
    (clientOf t' i v g c mac).map ClientEntry.content = (clientOf t i v g c mac).map ClientEntry.content := by
  rw [clientOf_eq, clientOf_eq]
  refine search_congr (fun _ _ => clientKey_of_content) ?_
  rw [clientsAt_content, clientsAt_content, h.group]

/-- An entry is written back to the group it was found in. -/
theorem sameDatabase_storeClient (hold : clientOf t i v g c mac = some e) (hkey : clientKey v e' = (addr v c, mac)) :
    SameDatabase t (t.storeClient i v g e') ↔ e'.content = e.content := by
  constructor
  · intro h
    have hclient := h.client i v g c mac
    rw [clientOf_storeClient hold hkey, hold] at hclient
    exact Option.some.inj hclient
  · intro hcontent j w h
    unfold Tables.storeClient Tables.modifyClients setChain
    dsimp only
    split
    · next hspot =>
      obtain ⟨rfl, rfl, rfl⟩ := hspot
      refine map_update fun ge hge => Prod.mk_inj.mpr ⟨rfl, ?_⟩
      rw [clientOf, searchGroupEntry, hge] at hold
      refine map_update fun e₀ he₀ => ?_
      rw [hkey] at he₀
      rw [hcontent, Option.some.inj (hold.symm.trans he₀)]
    · rfl

end Database

/-! ### Loops that run out of sources -/

section Loops

variable {body : Ip → Sources → Turn × Sources} {v : IpVersion} {s s' : Sources} {a : Ip} {timer : UInt32} {turn : Turn}

/-- A loop that gives up has met a turn that does. -/
theorem sweep_stopped {n : ℕ} {l : List Ip} (h : sweep body n l s = (false, s')) : ∃ a s, body a s = (.stop, s') := by
  induction n generalizing l s with
  | zero => cases h
  | succ n ih =>
    cases l with
    | nil => cases h
    | cons a l =>
      rw [sweep] at h
      split at h
      · exact ih h
      · exact ih h
      · next s₁ hbody =>
        obtain ⟨-, rfl⟩ := Prod.mk.inj h
        exact ⟨a, s, hbody⟩

/-- Entries come from the pool one by one, and a turn gives up when there is none. -/
structure Thrifty (body : Ip → Sources → Turn × Sources) : Prop where
  size : ∀ a s, (body a s).2.sourceList.length + (body a s).2.sourcePool.length =
    s.sourceList.length + s.sourcePool.length
  stops : ∀ a s s', body a s = (.stop, s') → s'.sourcePool = []

theorem addThen_size : (s.addThen v a timer turn).2.sourceList.length + (s.addThen v a timer turn).2.sourcePool.length =
    s.sourceList.length + s.sourcePool.length := by
  obtain ⟨l, pool⟩ := s
  cases pool with
  | nil => rfl
  | cons id pool =>
    simp only [Sources.addThen, Sources.add, length_cons]
    omega

theorem addThen_stops (hturn : turn ≠ .stop) (h : s.addThen v a timer turn = (.stop, s')) : s'.sourcePool = [] := by
  obtain ⟨l, pool⟩ := s
  cases pool with
  | nil =>
    obtain ⟨-, rfl⟩ := Prod.mk.inj h
    rfl
  | cons id pool => exact absurd (Prod.mk.inj h).1 hturn

theorem Touched.size {x : Turn × Sources} (h : Touched v a s x) :
    x.2.sourceList.length + x.2.sourcePool.length = s.sourceList.length + s.sourcePool.length := by
  cases h with
  | changed _ _ => exact congrArg (· + s.sourcePool.length) length_update
  | same _ => rfl
  | linked _ _ => exact addThen_size

theorem Touched.stops {x : Turn × Sources} (h : Touched v a s x) (hx : x = (.stop, s')) : s'.sourcePool = [] := by
  cases h with
  | changed hturn _ => exact absurd (Prod.mk.inj hx).1 hturn
  | same hturn => exact absurd (Prod.mk.inj hx).1 hturn
  | linked hturn _ => exact addThen_stops hturn hx

theorem thrifty_of (h : ∀ a s, Touched v a s (body a s)) : Thrifty body :=
  ⟨fun a s => (h a s).size, fun a s _ => (h a s).stops⟩

theorem thrifty_relink : Thrifty (relinkSource v timer) := ⟨fun _ _ => addThen_size, fun _ _ _ => addThen_stops nofun⟩

/-- A loop that gives up has used all entries there were. -/
theorem Thrifty.stopped (h : Thrifty body) {n : ℕ} {l : List Ip} (hstop : sweep body n l s = (false, s')) :
    s'.sourceList.length = s.sourceList.length + s.sourcePool.length := by
  have hsize : (sweep body n l s).2.sourceList.length + (sweep body n l s).2.sourcePool.length =
      s.sourceList.length + s.sourcePool.length := by
    refine sweep_keeps (P := fun s' : Sources => s'.sourceList.length + s'.sourcePool.length =
      s.sourceList.length + s.sourcePool.length) (fun a _ s' hs' => (h.size a s').trans hs') n rfl
  obtain ⟨a, s₀, hbody⟩ := sweep_stopped hstop
  rw [hstop, h.stops a s₀ s' hbody] at hsize
  exact hsize

/-- The listed sources in front of the first one that is not recorded. -/
def passed (v : IpVersion) (srcList : List Ip) (l : List SourceEntry) : List Ip :=
  (srcList.takeWhile fun a => (searchSourceEntry v a l).isSome).map (addr v)

theorem passed_congr {l l' : List SourceEntry} (h : l'.map (sourceKey v) = l.map (sourceKey v)) (srcList : List Ip) :
    passed v srcList l' = passed v srcList l := by
  have hfound : ∀ a, (searchSourceEntry v a l').isSome = (searchSourceEntry v a l).isSome := by
    intro a
    rw [Bool.eq_iff_iff, searchSourceEntry, searchSourceEntry, search_isSome, search_isSome, h]
  unfold passed
  simp only [hfound]

theorem addThen_missing (h : s.sourcePool = []) : s.addThen v a timer turn = (.stop, s) := by
  rw [Sources.addThen, Sources.add, h]

/-- With an empty pool, a loop that changes the entries it finds comes as far as sources are recorded. -/
theorem sweep_passed {f : SourceEntry → SourceEntry} (hkey : ∀ e, sourceKey v (f e) = sourceKey v e)
    (hbody : ∀ a s, body a s = if (searchSourceEntry v a s.sourceList).isSome then (.advance, s.modify v a f)
      else s.addThen v a timer turn)
    (srcList : List Ip) (l : List SourceEntry) : (sweep body srcList.length srcList ⟨l, []⟩).2.sourceList =
      (passed v srcList l).foldl (fun l k => update (sourceKey v) k f l) l := by
  induction srcList generalizing l with
  | nil => rfl
  | cons a srcList ih =>
    have hturn := hbody a ⟨l, []⟩
    cases hsearch : searchSourceEntry v a l with
    | none =>
      have hpassed : passed v (a :: srcList) l = [] := by simp [passed, hsearch]
      rw [if_neg (by simp [hsearch]), addThen_missing rfl] at hturn
      rw [hpassed, length_cons, sweep, hturn]
      rfl
    | some e =>
      have hkeys : (update (sourceKey v) (addr v a) f l).map (sourceKey v) = l.map (sourceKey v) :=
        keys_update fun e he => (hkey e).trans he
      have hpassed : passed v (a :: srcList) l =
          addr v a :: passed v srcList (update (sourceKey v) (addr v a) f l) := by
        rw [passed_congr hkeys]
        simp [passed, hsearch]
      rw [if_pos (by simp [hsearch])] at hturn
      rw [hpassed, length_cons, sweep_advance hturn, foldl_cons]
      exact ih _

/-- Linking the listed sources until the pool is empty. -/
theorem sweep_relink (timer : UInt32) (srcList : List Ip) (s : Sources) :
    (sweep (relinkSource v timer) srcList.length srcList s).2.sourceList.map SourceEntry.content =
      ((srcList.take s.sourcePool.length).map fun a => (addr v a, timer)).reverse ++
        s.sourceList.map SourceEntry.content := by
  induction srcList generalizing s with
  | nil => simp [sweep]
  | cons a srcList ih =>
    obtain ⟨l, pool⟩ := s
    cases pool with
    | nil => rfl
    | cons id pool =>
      have hturn : relinkSource v timer a ⟨l, id :: pool⟩ =
        (.advance, ⟨⟨id, addr v a, timer, false, false⟩ :: l, pool⟩) := rfl
      rw [length_cons, sweep_advance hturn, ih]
      simp [SourceEntry.content]

end Loops

/-! ### Clients that run out of sources -/

section Walks

variable {body : Ip → Sources → Turn × Sources} {v : IpVersion} {srcList : List Ip} {c : ClientEntry} {s : Sources}
  {after : ClientEntry → Sources → ClientEntry × Sources}

theorem walk_incomplete (h : (walk body srcList c s after).complete = false) :
    ∃ s', sweep body srcList.length srcList s = (false, s') ∧
      (walk body srcList c s after).client = { c with sourceList := s'.sourceList } := by
  unfold walk at h ⊢
  rcases hsweep : sweep body srcList.length srcList s with ⟨complete, s'⟩
  rw [hsweep] at h
  cases complete with
  | false => exact ⟨s', rfl, rfl⟩
  | true => cases h

theorem content_sources {l : List SourceEntry} : { c with sourceList := l }.content = c.content ↔
    l.map SourceEntry.content = c.sourceList.map SourceEntry.content :=
  ⟨fun h => (Prod.mk.inj h).2, fun h => Prod.mk_inj.mpr ⟨rfl, h⟩⟩

/-- A client that has as many sources as before has got none, so there was no free entry. -/
theorem pool_nil_of_content (hthrifty : Thrifty body) (hlength : s.sourceList.length = c.sourceList.length)
    {s' : Sources} {n : ℕ} (hsweep : sweep body n srcList s = (false, s'))
    (hcontent : s'.sourceList.map SourceEntry.content = c.sourceList.map SourceEntry.content) : s.sourcePool = [] := by
  have hsame := congrArg List.length hcontent
  rw [length_map, length_map, hthrifty.stopped hsweep] at hsame
  exact length_eq_zero_iff.mp (by omega)

/-- A loop that changes the entries it finds. -/
theorem walk_content_iff {f g : SourceEntry → SourceEntry} (timer : UInt32) (turn : Turn) (hthrifty : Thrifty body)
    (hlist : s.sourceList = c.sourceList.map g) (hg : ∀ e, sourceKey v (g e) = sourceKey v e)
    (hkey : ∀ e, sourceKey v (f e) = sourceKey v e) (hidem : ∀ e, f (f e) = f e)
    (hbody : ∀ a s, body a s = if (searchSourceEntry v a s.sourceList).isSome then (.advance, s.modify v a f)
      else s.addThen v a timer turn)
    (h : (walk body srcList c s after).complete = false) : (walk body srcList c s after).client.content = c.content ↔
      s.sourcePool = [] ∧ Firsts (sourceKey v) (fun e => (f (g e)).content = e.content)
        (fun e => (g e).content = e.content) (passed v srcList c.sourceList) c.sourceList := by
  obtain ⟨s', hsweep, hclient⟩ := walk_incomplete h
  rw [hclient, content_sources]
  have hkeys : s.sourceList.map (sourceKey v) = c.sourceList.map (sourceKey v) := by
    rw [hlist, map_map]
    exact map_congr_left fun e _ => hg e
  have hend : s.sourcePool = [] → s'.sourceList =
      retouch (sourceKey v) f (passed v srcList c.sourceList) (c.sourceList.map g) := by
    intro hpool
    have hs : s = ⟨s.sourceList, []⟩ := by rw [← hpool]
    have hpassed := sweep_passed hkey hbody srcList s.sourceList
    rwa [← hs, hsweep, foldl_update_eq hkey hidem, passed_congr hkeys, hlist] at hpassed
  constructor
  · intro hcontent
    have hpool := pool_nil_of_content hthrifty (by rw [hlist, length_map]) hsweep hcontent
    rw [hend hpool, map_retouch_iff hg] at hcontent
    exact ⟨hpool, hcontent⟩
  · rintro ⟨hpool, hfirsts⟩
    rw [hend hpool, map_retouch_iff hg]
    exact hfirsts

/-- A loop that only marks the entries it finds. -/
theorem walk_marks_iff {g : SourceEntry → SourceEntry} (hthrifty : Thrifty body)
    (hlist : s.sourceList = c.sourceList.map g) (hg : ∀ e, (g e).content = e.content)
    (hbody : ∀ a s, s.sourcePool = [] → (body a s).2.sourcePool = [] ∧
      (body a s).2.sourceList.map SourceEntry.content = s.sourceList.map SourceEntry.content)
    (h : (walk body srcList c s after).complete = false) :
    (walk body srcList c s after).client.content = c.content ↔ s.sourcePool = [] := by
  obtain ⟨s', hsweep, hclient⟩ := walk_incomplete h
  rw [hclient, content_sources]
  have hstart : s.sourceList.map SourceEntry.content = c.sourceList.map SourceEntry.content := by
    rw [hlist, map_map]
    exact map_congr_left fun e _ => hg e
  refine ⟨pool_nil_of_content hthrifty (by rw [hlist, length_map]) hsweep, fun hpool => ?_⟩
  have hkeep := sweep_keeps (l := srcList) (P := fun s' : Sources => s'.sourcePool = [] ∧
      s'.sourceList.map SourceEntry.content = c.sourceList.map SourceEntry.content)
    (fun a _ s₀ hs₀ => ⟨(hbody a s₀ hs₀.1).1, (hbody a s₀ hs₀.1).2.trans hs₀.2⟩) srcList.length ⟨hpool, hstart⟩
  rw [hsweep] at hkeep
  exact hkeep.2

end Walks

section Cores

variable (now : UInt32) (v : IpVersion) (conf : DevConf) (srcList : List Ip)

/-- With fast leave the sources are linked anew: they are those at the front of the list, in this order, with a full
    interval to go, and the filter timer has just run out. -/
def Relinked (c : ClientEntry) : Prop :=
  c.groupFilterTimer = now ∧ c.sourceList.map SourceEntry.content =
    ((srcList.take c.sourceList.length).map fun a => (addr v a, now + conf.memberAgingInterval)).reverse

/-- The first entries of the listed sources, as far as sources are recorded, and the other entries. -/
def Found (c : ClientEntry) (P Q : SourceEntry → Prop) : Prop :=
  Firsts (sourceKey v) P Q (passed v srcList c.sourceList) c.sourceList

/-- The timers are such that the record would not move them, as far as the handler comes. -/
def Harmless (c : ClientEntry) : RecordType → Prop
  | .isInclude =>
    if conf.fastLeave then Relinked now v conf srcList c
    else Found v srcList c (fun s => s.portTimer = now + conf.memberAgingInterval) fun _ => True
  | .allow => Found v srcList c (fun s => s.portTimer = now + conf.memberAgingInterval) fun _ => True
  | .toInclude =>
    if conf.fastLeave then Relinked now v conf srcList c
    else Found v srcList c (fun s => s.portTimer = now + conf.memberAgingInterval)
      fun s => s.portTimer ≤ now + conf.lastMemberAgingInterval
  | .isExclude => now < c.groupFilterTimer → Found v srcList c (fun s => now ≤ s.portTimer) fun _ => True
  | .toExclude => True
  | .block => conf.fastLeave = true → Found v srcList c (fun s => s.portTimer = now) fun _ => True

instance (c : ClientEntry) : (type : RecordType) → Decidable (Harmless now v conf srcList c type)
  | .isInclude | .toInclude => inferInstanceAs (Decidable (ite _ (_ ∧ _) (Firsts _ _ _ _ _)))
  | .isExclude | .block => inferInstanceAs (Decidable (_ → Firsts _ _ _ _ _))
  | .toExclude => inferInstanceAs (Decidable True)
  | .allow => inferInstanceAs (Decidable (Firsts _ _ _ _ _))

variable {now v conf srcList} {c : ClientEntry} {pool : List ℕ}

theorem setTimer_content {timer : UInt32} {e : SourceEntry} :
    (e.setTimer timer).content = e.content ↔ e.portTimer = timer :=
  ⟨fun h => (Prod.mk.inj h).2.symm, fun h => Prod.mk_inj.mpr ⟨rfl, h.symm⟩⟩

theorem include_content (h : (allow now v conf srcList c pool).complete = false) :
    (allow now v conf srcList c pool).client.content = c.content ↔
      pool = [] ∧ Found v srcList c (fun s => s.portTimer = now + conf.memberAgingInterval) fun _ => True := by
  refine (walk_content_iff (f := .setTimer (now + conf.memberAgingInterval)) (g := id)
    (now + conf.memberAgingInterval) .advance (thrifty_of fun _ _ => touched_includeSource) (map_id _).symm
    (fun _ => rfl) (fun _ => rfl) (fun _ => rfl) (fun a s => ?_) h).trans
      (and_congr_right fun _ => firsts_congr (fun e => ?_) fun e => ?_)
  · rw [includeSource]
    cases searchSourceEntry v a s.sourceList <;> rfl
  · exact setTimer_content
  · exact iff_of_true rfl trivial

theorem toInclude_content (hfast : conf.fastLeave = false)
    (h : (toInclude now v conf srcList c pool).complete = false) :
    (toInclude now v conf srcList c pool).client.content = c.content ↔
      pool = [] ∧ Found v srcList c (fun s => s.portTimer = now + conf.memberAgingInterval)
        fun s => s.portTimer ≤ now + conf.lastMemberAgingInterval := by
  unfold toInclude at h ⊢
  rw [if_neg (by simp [hfast])] at h ⊢
  refine (walk_content_iff (f := fun e => (e.setTimer (now + conf.memberAgingInterval)).setFlag false)
    (g := SourceEntry.capTimer now (now + conf.lastMemberAgingInterval)) (now + conf.memberAgingInterval) .advance
    (thrifty_of fun _ _ => touched_toIncludeSource) rfl (fun _ => rfl) (fun _ => rfl) (fun _ => rfl)
    (fun a s => ?_) h).trans
      (and_congr_right fun _ => firsts_congr (fun e => ?_) fun e => ?_)
  · rw [toIncludeSource]
    cases searchSourceEntry v a s.sourceList <;> rfl
  · exact setTimer_content (e := e)
  · have hcap : (e.capTimer now (now + conf.lastMemberAgingInterval)).content = (e.sourceAddr,
        if now + conf.lastMemberAgingInterval < e.portTimer then now + conf.lastMemberAgingInterval
        else e.portTimer) := rfl
    rw [hcap, SourceEntry.content, Prod.mk_inj, and_iff_right rfl, ← UInt32.not_lt]
    constructor
    · intro hsame hlt
      rw [if_pos hlt] at hsame
      rw [hsame] at hlt
      exact absurd hlt (UInt32.lt_irrefl _)
    · intro hle
      exact if_neg hle

/-- In EXCLUDE mode a source that has run out is stopped now. -/
def SourceEntry.stopNow (now : UInt32) (e : SourceEntry) : SourceEntry :=
  (if e.portTimer ≤ now then e.setTimer now else e).setFlag false

theorem stopNow_content {e : SourceEntry} : (e.stopNow now).content = e.content ↔ now ≤ e.portTimer := by
  unfold SourceEntry.stopNow
  split
  · next hle =>
    have hset : ((e.setTimer now).setFlag false).content = (e.setTimer now).content := rfl
    rw [hset, setTimer_content]
    exact ⟨fun h => h ▸ UInt32.le_refl _, fun h => UInt32.le_antisymm hle h⟩
  · next hgt => exact iff_of_true rfl (UInt32.le_of_lt (UInt32.not_le.mp hgt))

theorem stopNow_stopNow (e : SourceEntry) : (e.stopNow now).stopNow now = e.stopNow now := by
  unfold SourceEntry.stopNow
  by_cases h : e.portTimer ≤ now
  · simp [h, SourceEntry.setTimer, SourceEntry.setFlag]
  · simp [h, SourceEntry.setFlag]

theorem stopNow_key (e : SourceEntry) : sourceKey v (e.stopNow now) = sourceKey v e := by
  unfold SourceEntry.stopNow
  split <;> rfl

theorem isExclude_content (h : (isExclude now v conf srcList c pool).complete = false) :
    (isExclude now v conf srcList c pool).client.content = c.content ↔
      pool = [] ∧ (now < c.groupFilterTimer → Found v srcList c (fun s => now ≤ s.portTimer) fun _ => True) := by
  by_cases hmode : now < c.groupFilterTimer
  · refine (walk_content_iff (v := v) (f := .stopNow now) (g := .setFlag true) (now + conf.memberAgingInterval) .advance
      (thrifty_of fun _ _ => touched_isExcludeSource) rfl (fun _ => rfl) stopNow_key stopNow_stopNow
        (fun a s => ?_) h).trans (and_congr_right fun _ => ?_)
    · rw [isExcludeSource, if_pos hmode, if_pos hmode]
      cases searchSourceEntry v a s.sourceList <;> rfl
    · rw [imp_iff_right hmode]
      exact firsts_congr (fun e => stopNow_content (e := e.setFlag true)) fun _ => iff_of_true rfl trivial
  · -- in INCLUDE mode the entries that are found are only marked
    have hmarks := walk_marks_iff (g := .setFlag true) (thrifty_of fun _ _ => touched_isExcludeSource)
      rfl (fun _ => rfl) (fun a s hpool => ?_) h
    · exact hmarks.trans (and_iff_left fun hlt => absurd hlt hmode).symm
    · unfold isExcludeSource
      split
      · rw [if_neg hmode]
        exact ⟨hpool, map_update fun _ _ => rfl⟩
      · rw [addThen_missing hpool]
        exact ⟨hpool, rfl⟩

theorem toExclude_content (h : (toExclude now v conf srcList c pool).complete = false) :
    (toExclude now v conf srcList c pool).client.content = c.content ↔ pool = [] := by
  refine walk_marks_iff (g := .setFlag true) (thrifty_of fun _ _ => touched_toExcludeSource) rfl (fun _ => rfl)
    (fun a s hpool => ?_) h
  have hmark : (s.modify v a (.setFlag false)).sourceList.map SourceEntry.content =
    s.sourceList.map SourceEntry.content :=
    map_update fun _ _ => rfl
  unfold toExcludeSource
  dsimp only
  split
  · split
    · split <;> exact ⟨hpool, hmark⟩
    · exact ⟨hpool, hmark⟩
  · split <;> rw [addThen_missing hpool] <;> exact ⟨hpool, rfl⟩

theorem block_content (h : (block now v conf srcList c pool).complete = false) :
    (block now v conf srcList c pool).client.content = c.content ↔
      pool = [] ∧ (conf.fastLeave = true → Found v srcList c (fun s => s.portTimer = now) fun _ => True) := by
  cases hfast : conf.fastLeave with
  | false =>
    unfold block at h ⊢
    rw [hfast] at h ⊢
    have hmarks := walk_marks_iff (g := id) (thrifty_of fun _ _ => touched_blockSource) (map_id _).symm
      (fun _ => rfl) (fun a s hpool => ?_) h
    · exact hmarks.trans (and_iff_left nofun).symm
    · unfold blockSource
      dsimp only
      split
      · split
        · split <;> exact ⟨hpool, rfl⟩
        · exact ⟨hpool, rfl⟩
      · split
        · rw [addThen_missing hpool]
          exact ⟨hpool, rfl⟩
        · exact ⟨hpool, rfl⟩
  | true =>
    unfold block at h ⊢
    rw [hfast] at h ⊢
    -- in INCLUDE mode a record takes no entry from the pool
    have hmode : now < c.groupFilterTimer := by
      by_contra hmode
      obtain ⟨s', hsweep, -⟩ := walk_incomplete h
      obtain ⟨a, s, hstop⟩ := sweep_stopped hsweep
      unfold blockSource at hstop
      dsimp only at hstop
      split at hstop <;> rw [if_neg hmode] at hstop <;> cases (Prod.mk.inj hstop).1
    refine (walk_content_iff (v := v) (f := .setTimer now) (g := id) c.groupFilterTimer .stay
      (thrifty_of fun _ _ => touched_blockSource) (map_id _).symm (fun _ => rfl) (fun _ => rfl)
        (fun _ => rfl) (fun a s => ?_) h).trans (and_congr_right fun _ => ?_)
    · cases hsearch : searchSourceEntry v a s.sourceList <;> simp [blockSource, hsearch, hmode]
    · rw [imp_iff_right rfl]
      exact firsts_congr (fun _ => setTimer_content) fun _ => iff_of_true rfl trivial

theorem deleteSourceList_pool {s : Sources} :
    s.deleteSourceList.sourcePool.length = s.sourceList.length + s.sourcePool.length := by
  have hfold : ∀ (l : List SourceEntry) (pool : List ℕ),
      (l.foldl (fun pool e => e.id :: pool) pool).length = l.length + pool.length := by
    intro l
    induction l with
    | nil => simp
    | cons e l ih =>
      intro pool
      rw [foldl_cons, ih, length_cons, length_cons]
      omega
  have hpool : s.deleteSourceList.sourcePool = s.sourceList.foldl (fun pool e => e.id :: pool) s.sourcePool := by
    simp [Sources.deleteSourceList, Sources.delete]
  rw [hpool, hfold]

theorem deleteSourceList_list {s : Sources} : s.deleteSourceList.sourceList = [] := by
  simp [Sources.deleteSourceList, Sources.delete]

theorem fastInclude_content (h : (fastInclude now v conf srcList c pool).complete = false) :
    (fastInclude now v conf srcList c pool).client.content = c.content ↔ pool = [] ∧ Relinked now v conf srcList c := by
  obtain ⟨s', hsweep, hclient⟩ := walk_incomplete h
  have hclient : (fastInclude now v conf srcList c pool).client =
      { c with groupFilterTimer := now, sourceList := s'.sourceList } := hclient
  have hlength : s'.sourceList.length = c.sourceList.length + pool.length := by
    rw [thrifty_relink.stopped hsweep, deleteSourceList_list, deleteSourceList_pool, length_nil, Nat.zero_add]
  have hlist : s'.sourceList.map SourceEntry.content = ((srcList.take (c.sourceList.length + pool.length)).map fun a =>
      (addr v a, now + conf.memberAgingInterval)).reverse := by
    have hrelink := sweep_relink (v := v) (now + conf.memberAgingInterval) srcList
      (Sources.deleteSourceList ⟨c.sourceList, pool⟩)
    rwa [hsweep, deleteSourceList_list, deleteSourceList_pool, map_nil, append_nil] at hrelink
  have hcontent : (fastInclude now v conf srcList c pool).client.content = c.content ↔ c.groupFilterTimer = now ∧
      s'.sourceList.map SourceEntry.content = c.sourceList.map SourceEntry.content := by
    rw [hclient]
    constructor
    · intro heq
      obtain ⟨hfields, hsources⟩ := Prod.mk.inj heq
      exact ⟨(congrArg ClientEntry.groupFilterTimer hfields).symm, hsources⟩
    · rintro ⟨rfl, hsources⟩
      exact Prod.mk_inj.mpr ⟨rfl, hsources⟩
  rw [hcontent]
  constructor
  · rintro ⟨hfilter, hsources⟩
    have hsame := congrArg List.length hsources
    rw [length_map, length_map, hlength] at hsame
    obtain rfl : pool = [] := length_eq_zero_iff.mp (by omega)
    exact ⟨rfl, hfilter, hsources.symm.trans hlist⟩
  · rw [hlist]
    rintro ⟨rfl, hfilter, hsources⟩
    exact ⟨hfilter, hsources.symm⟩

/-- The client is as before only where the pool was empty from the start and the timers need not be moved. -/
theorem coreOf_content (type : RecordType) (h : (coreOf now v conf srcList type c pool).complete = false) :
    (coreOf now v conf srcList type c pool).client.content = c.content ↔
      pool = [] ∧ Harmless now v conf srcList c type := by
  cases type with
  | isInclude =>
    simp only [coreOf, isInclude, Harmless] at h ⊢
    cases hfast : conf.fastLeave with
    | true =>
      simp only [hfast, if_true] at h ⊢
      exact fastInclude_content h
    | false =>
      simp only [hfast, Bool.false_eq_true, if_false] at h ⊢
      exact include_content h
  | isExclude => exact isExclude_content h
  | toInclude =>
    simp only [coreOf, Harmless] at h ⊢
    cases hfast : conf.fastLeave with
    | true =>
      have hcore : toInclude now v conf srcList c pool = fastInclude now v conf srcList c pool := by
        simp [toInclude, hfast]
      simp only [hcore, if_true] at h ⊢
      exact fastInclude_content h
    | false =>
      simp only [Bool.false_eq_true, if_false]
      exact toInclude_content hfast h
  | toExclude => exact (toExclude_content h).trans (and_iff_left trivial).symm
  | allow => exact include_content h
  | block => exact block_content h

/-- Besides its filter timer and its sources the client is as it was. -/
theorem coreOf_frame (type : RecordType) (h : (coreOf now v conf srcList type c pool).complete = false) :
    { (coreOf now v conf srcList type c pool).client with
      groupFilterTimer := c.groupFilterTimer, sourceList := c.sourceList } = c := by
  rcases @coreOf_cases now v conf srcList c pool type with ⟨-, -, heq⟩ | hloop
  · rw [heq] at h ⊢
    obtain ⟨s', -, hclient⟩ := walk_incomplete h
    rw [fastInclude, hclient]
  · generalize coreOf now v conf srcList type c pool = out at h hloop
    cases hloop with
    | mk _ _ _ _ _ =>
      obtain ⟨s', -, hclient⟩ := walk_incomplete h
      rw [hclient]

/-- The client `c` that the loop works on is the recorded client `e` with what the message says of it. -/
theorem coreOf_content_iff {e : ClientEntry} (type : RecordType)
    (h : (coreOf now v conf srcList type c pool).complete = false) (hfilter : c.groupFilterTimer = e.groupFilterTimer)
    (hlist : c.sourceList = e.sourceList) :
    (coreOf now v conf srcList type c pool).client.content = e.content ↔
      pool = [] ∧ c = e ∧ Harmless now v conf srcList e type := by
  constructor
  · intro hcontent
    obtain rfl : c = e := by
      have hframe := congrArg (fun x : ClientEntry × List (Ip × UInt32) =>
        { x.1 with groupFilterTimer := e.groupFilterTimer, sourceList := e.sourceList }) hcontent
      rw [← coreOf_frame type h, hfilter, hlist]
      exact hframe
    obtain ⟨hpool, hharmless⟩ := (coreOf_content type h).mp hcontent
    exact ⟨hpool, rfl, hharmless⟩
  · rintro ⟨hpool, rfl, hharmless⟩
    exact (coreOf_content type h).mpr ⟨hpool, hharmless⟩

end Cores

/-! ### Entering -/

section Entering

variable {db : Db} {pkt : PktHdr} {v : IpVersion} {c g : Ip} {timer : UInt32} {core : ClientEntry → List ℕ → Outcome}

theorem openGroup_none (hnew : searchGroupEntry db.tables pkt.moduleIndex v g = none)
    (hpool : db.tables.groupPool = []) :
    openGroup db.tables pkt.moduleIndex v g = none := by
  rw [openGroup, dif_pos hnew]
  split
  · rfl
  · next hcons => cases hpool.symm.trans hcons

theorem openGroup_some {ge : GroupEntry} (hold : searchGroupEntry db.tables pkt.moduleIndex v g = some ge) :
    openGroup db.tables pkt.moduleIndex v g = some db.tables := by
  rw [openGroup, dif_neg (by rw [hold]; exact Option.some_ne_none ge)]

/-- Keeping an outcome keeps the database if the outcome is the client that is there. -/
theorem finish_sameDatabase (db : Db) {out : Outcome} {e : ClientEntry}
    (hold : clientOf db.tables pkt.moduleIndex v g c pkt.smac = some e)
    (hkey : clientKey v out.client = (addr v c, pkt.smac)) :
    SameDatabase db.tables (finish db pkt v g out).2.tables ↔ out.client.content = e.content := by
  have hstore : SameDatabase (db.tables.withSources out.sourcePool out.calls)
      ((db.tables.withSources out.sourcePool out.calls).storeClient pkt.moduleIndex v g out.client) ↔
      out.client.content = e.content := sameDatabase_storeClient (c := c) hold hkey
  rw [finish_tables]
  exact hstore

/-- A client that has room is there afterwards. -/
theorem enter_client_linked {t : Tables} (hcore : ∀ e pool, clientKey v (core e pool).client = clientKey v e)
    (hopen : openGroup db.tables pkt.moduleIndex v g = some t)
    (hroom : clientOf t pkt.moduleIndex v g c pkt.smac = none → t.clientPool ≠ []) :
    ∃ e, entryOf (enter db pkt v c g timer core).2 pkt v g c = some e := by
  obtain ⟨e, t', hclient, -, hkey, hlinked, -⟩ :=
    openClient_spec db.clock.now timer (searchGroupEntry_openGroup hopen).1 hroom
  refine ⟨(core e t'.sourcePool).client, ?_⟩
  simp only [enter, hopen, hclient]
  exact finish_entry hlinked ((hcore _ _).trans hkey)

/-- A group that has room is there afterwards, with its client or empty. -/
theorem enter_group_linked {t : Tables} (hcore : ∀ e pool, clientKey v (core e pool).client = clientKey v e)
    (hopen : openGroup db.tables pkt.moduleIndex v g = some t) :
    (searchGroupEntry (enter db pkt v c g timer core).2.tables pkt.moduleIndex v g).isSome := by
  by_cases hroom : clientOf t pkt.moduleIndex v g c pkt.smac = none → t.clientPool ≠ []
  · obtain ⟨e, he⟩ := @enter_client_linked db pkt v c g timer core t hcore hopen hroom
    obtain ⟨ge, hge, -⟩ := Option.bind_eq_some_iff.mp he
    rw [hge]
    rfl
  · obtain ⟨hnone, hpool⟩ := Classical.not_imp.mp hroom
    have hclient : openClient db.clock.now pkt v g c timer t = none := by
      rw [openClient, hnone, not_not.mp hpool]
    simp only [enter, hopen, hclient]
    exact (searchGroupEntry_openGroup hopen).1

/-- The database is as before where the first entry that is missing cannot be made, or where the client that is
    there stays the same. -/
theorem enter_sameDatabase (db : Db) (hcore : ∀ e pool, clientKey v (core e pool).client = clientKey v e) :
    SameDatabase db.tables (enter db pkt v c g timer core).2.tables ↔
      match searchGroupEntry db.tables pkt.moduleIndex v g, entryOf db pkt v g c with
      | none, _ => db.tables.groupPool = []
      | some _, none => db.tables.clientPool = []
      | some _, some e => (core (e.seen pkt) db.tables.sourcePool).client.content = e.content := by
  cases hgroup : searchGroupEntry db.tables pkt.moduleIndex v g with
  | none =>
    constructor
    · intro hsame
      by_contra hpool
      obtain ⟨t, hopen, -⟩ := openGroup_spec fun _ => hpool
      have hafter := @enter_group_linked db pkt v c g timer core t hcore hopen
      have hcontent := hsame.group pkt.moduleIndex v g
      rw [hgroup, Option.map_none, Option.map_eq_none_iff] at hcontent
      rw [hcontent] at hafter
      cases hafter
    · intro hpool
      simp only [enter, openGroup_none hgroup hpool]
      exact .of_eq rfl
  | some ge =>
    have hopen := openGroup_some hgroup
    cases hentry : entryOf db pkt v g c with
    | none =>
      constructor
      · intro hsame
        by_contra hpool
        obtain ⟨e, he⟩ := @enter_client_linked db pkt v c g timer core _ hcore hopen fun _ => hpool
        have hcontent := hsame.client pkt.moduleIndex v g c pkt.smac
        rw [entryOf] at he hentry
        rw [he, hentry] at hcontent
        cases hcontent
      · intro hpool
        rw [entryOf] at hentry
        have hclient : openClient db.clock.now pkt v g c timer db.tables = none := by
          rw [openClient, hentry, hpool]
        simp only [enter, hopen, hclient]
        exact .of_eq rfl
    | some e =>
      rw [entryOf] at hentry
      have hclient : openClient db.clock.now pkt v g c timer db.tables = some (e.seen pkt, db.tables) := by
        rw [openClient, hentry]
      have hkey : clientKey v e = (addr v c, pkt.smac) := by
        obtain ⟨ge, -, hc⟩ := Option.bind_eq_some_iff.mp hentry
        exact key_of_search hc
      simp only [enter, hopen, hclient]
      exact finish_sameDatabase db hentry ((hcore _ _).trans hkey)

end Entering

/-! ### Joins and records -/

/-- What a message asks a handler to store. -/
inductive Item where
  | join (igmpv1 : Bool) (g : Ip)
  | record (type : RecordType) (rec : GroupRecord)

/-- The source that a record shows to the white list. -/
def shownSource (srcList : List Ip) : RecordType → Option Ip
  | .isInclude | .toInclude | .allow => singleSource srcList
  | .isExclude | .toExclude | .block => none

namespace Item

def group : Item → Ip
  | .join _ g => g
  | .record _ rec => rec.groupAddr

/-- Every handler but `rtk_igmp_processBlock` makes the entries it does not find. -/
def makes : Item → Bool
  | .record .block _ => false
  | _ => true

/-- The filter timer of a client that is made. -/
def timer (now : UInt32) : Item → UInt32
  | .record .isInclude _ | .record .allow _ => now
  | _ => 0

variable (r : Reporter) (v : IpVersion) (db : Db)

def process : Item → Db
  | .join igmpv1 g => (processJoin db r.dev r.pkt v igmpv1 r.clientAddr g).2
  | .record type rec => (handle r v rec db type).2

/-- The checks before anything is stored. -/
def check : Item → Nf × Db
  | .join _ g => checkJoin db r.dev r.pkt v r.clientAddr g
  | .record type rec => checkReport db r.dev r.pkt v r.clientAddr rec.groupAddr (shownSource rec.srcList type)

/-- The entry of a client with what the message says of it. -/
def told : Item → ClientEntry → ClientEntry
  | .join .. => id
  | .record .block _ => fun e => { e with igmpVersion := reportVersion v }
  | .record _ _ => .reported r.pkt v

/-- What the handler does to the client. -/
def core : Item → ClientEntry → List ℕ → Outcome
  | .join igmpv1 _ => joinCore db.clock.now r.pkt (joinVersion igmpv1 v) (r.dev.devConf v)
  | .record type rec => coreOf db.clock.now v (r.dev.devConf v) rec.srcList type

/-- The entries of the group and of the client. `none`: a pool is empty. -/
def entries (item : Item) : Option (ClientEntry × Tables) :=
  (openGroup db.tables r.pkt.moduleIndex v item.group).bind
    (openClient db.clock.now r.pkt v item.group r.clientAddr (item.timer db.clock.now))

/-- A pool runs out: the group or the client gets no entry, or a source of the client gets none. -/
def RunsOut (item : Item) : Prop :=
  (item.check r v db).1 = .cont ∧
    if item.makes then
      ∀ x ∈ item.entries r v db, (item.core r v db (item.told r v x.1) x.2.sourcePool).complete = false
    else
      ∃ e ∈ entryOf db r.pkt v item.group r.clientAddr,
        (item.core r v db (item.told r v (e.seen r.pkt)) db.tables.sourcePool).complete = false

instance (item : Item) : Decidable (item.RunsOut r v db) := inferInstanceAs (Decidable (_ ∧ ite _ _ _))

/-- The sources of the client need not be changed, as far as the handler comes; a join needs no entries for sources. -/
def Idle (item : Item) (e : ClientEntry) : Prop :=
  match item with
  | .join .. => True
  | .record type rec => Harmless db.clock.now v (r.dev.devConf v) rec.srcList e type

instance (item : Item) (e : ClientEntry) : Decidable (item.Idle r v db e) :=
  match item with
  | .join .. => inferInstanceAs (Decidable True)
  | .record .. => inferInstanceAs (Decidable (Harmless _ _ _ _ _ _))

/-- Nothing is stored before the pool turns out to be empty: it is the one for the first entry that is missing, and a
    client that is there has sent this before. -/
def Spared (item : Item) : Prop :=
  match searchGroupEntry db.tables r.pkt.moduleIndex v item.group, entryOf db r.pkt v item.group r.clientAddr with
  | none, _ => db.tables.groupPool = []
  | some _, none => db.tables.clientPool = []
  | some _, some e => db.tables.sourcePool = [] ∧ item.told r v (e.seen r.pkt) = e ∧ item.Idle r v db e

instance (item : Item) : Decidable (item.Spared r v db) := by
  unfold Spared
  exact match searchGroupEntry db.tables r.pkt.moduleIndex v item.group, entryOf db r.pkt v item.group r.clientAddr with
    | none, _ => inferInstance
    | some _, none => inferInstance
    | some _, some _ => inferInstance

variable {r v db} {item : Item}

theorem core_key (e : ClientEntry) (pool : List ℕ) :
    clientKey v (item.core r v db (item.told r v e) pool).client = clientKey v e := by
  cases item with
  | join igmpv1 g => rfl
  | record type rec => cases type <;> exact (works_coreOf _).key

theorem check_db : ∃ net, (item.check r v db).2 = { db with net := net } := by
  cases item with
  | join igmpv1 g =>
    obtain ⟨net, -, hdb, -⟩ := checkJoin_spec db r.dev r.pkt v r.clientAddr g
    exact ⟨net, hdb⟩
  | record type rec =>
    obtain ⟨net, -, hdb, -⟩ := checkReport_spec db r.dev r.pkt v r.clientAddr rec.groupAddr _
    exact ⟨net, hdb⟩

theorem handle_eq_learn {type : RecordType} {rec : GroupRecord} (hmakes : (record type rec).makes = true) :
    handle r v rec db type = learn db r.dev r.pkt v r.clientAddr rec.groupAddr (shownSource rec.srcList type)
      ((record type rec).timer db.clock.now) fun conf => coreOf db.clock.now v conf rec.srcList type := by
  cases type with
  | block => cases hmakes
  | isInclude | isExclude | toInclude | toExclude | allow => rfl

theorem told_eq_reported {type : RecordType} {rec : GroupRecord} (hmakes : (record type rec).makes = true) :
    (record type rec).told r v = .reported r.pkt v := by
  cases type with
  | block => cases hmakes
  | isInclude | isExclude | toInclude | toExclude | allow => rfl

theorem process_enter (hmakes : item.makes = true) (hcheck : (item.check r v db).1 = .cont) :
    item.process r v db = (enter (item.check r v db).2 r.pkt v r.clientAddr item.group (item.timer db.clock.now)
      fun e => item.core r v db (item.told r v e)).2 := by
  cases item with
  | join igmpv1 g =>
    obtain ⟨net, -, hdb, -⟩ := checkJoin_spec db r.dev r.pkt v r.clientAddr g
    have hpair : checkJoin db r.dev r.pkt v r.clientAddr g = (.cont, { db with net := net }) :=
      Prod.mk_inj.mpr ⟨hcheck, hdb⟩
    simp only [process, processJoin, check, hpair]
    rfl
  | record type rec =>
    rw [process, handle_eq_learn hmakes, learn_eq_enter, told_eq_reported hmakes]
    simp only [check] at hcheck ⊢
    split
    · next db' hpair =>
      rw [hpair]
      rfl
    · next ret db' hne hpair =>
      rw [hpair] at hcheck
      exact absurd hcheck hne

theorem process_finish {e : ClientEntry} (hmakes : item.makes = false) (hcheck : (item.check r v db).1 = .cont)
    (hentry : entryOf db r.pkt v item.group r.clientAddr = some e) :
    item.process r v db = (finish (item.check r v db).2 r.pkt v item.group
      (item.core r v db (item.told r v (e.seen r.pkt)) db.tables.sourcePool)).2 := by
  cases item with
  | join igmpv1 g => cases hmakes
  | record type rec =>
    cases type with
    | block =>
      obtain ⟨net, -, hdb, -⟩ := checkReport_spec db r.dev r.pkt v r.clientAddr rec.groupAddr none
      have hpair : checkReport db r.dev r.pkt v r.clientAddr rec.groupAddr none = (.cont, { db with net := net }) :=
        Prod.mk_inj.mpr ⟨hcheck, hdb⟩
      rw [entryOf, group] at hentry
      simp only [process, handle, processBlock, check, shownSource, hpair, hentry]
      rfl
    | isInclude | isExclude | toInclude | toExclude | allow => cases hmakes

/-- A loop that gives up leaves the client as it was if it is spared. -/
theorem core_content_iff {e : ClientEntry} {pool : List ℕ}
    (h : (item.core r v db (item.told r v (e.seen r.pkt)) pool).complete = false) :
    (item.core r v db (item.told r v (e.seen r.pkt)) pool).client.content = e.content ↔
      pool = [] ∧ item.told r v (e.seen r.pkt) = e ∧ item.Idle r v db e := by
  cases item with
  | join igmpv1 g => cases h
  | record type rec => cases type <;> exact coreOf_content_iff _ h rfl rfl

/-- A pool runs out while a join or a record is handled: the groups, their clients and the timers and sources of these
    are as before exactly if the message is spared. -/
theorem shortage_keeps_database_iff (h : item.RunsOut r v db) :
    SameDatabase db.tables (item.process r v db).tables ↔ item.Spared r v db := by
  obtain ⟨hcheck, hout⟩ := h
  obtain ⟨net, hdb⟩ := @check_db r v db item
  cases hmakes : item.makes with
  | true =>
    rw [if_pos hmakes] at hout
    rw [process_enter hmakes hcheck, hdb]
    refine (enter_sameDatabase { db with net := net } core_key).trans ?_
    unfold Spared
    cases hgroup : searchGroupEntry db.tables r.pkt.moduleIndex v item.group with
    | none => exact Iff.rfl
    | some ge =>
      cases hentry : entryOf db r.pkt v item.group r.clientAddr with
      | none =>
        rw [entryOf] at hentry
        simp only [entryOf, hentry]
      | some e =>
        rw [entryOf] at hentry
        simp only [entryOf, hentry]
        refine core_content_iff (hout (e.seen r.pkt, db.tables) ?_)
        have hopen : openGroup db.tables r.pkt.moduleIndex v item.group = some db.tables := openGroup_some hgroup
        rw [entries, hopen, Option.bind_some, openClient, hentry]
        rfl
  | false =>
    rw [if_neg (by rw [hmakes]; exact Bool.false_ne_true)] at hout
    obtain ⟨e, hentry, hout⟩ := hout
    obtain ⟨ge, hgroup, hc⟩ := Option.bind_eq_some_iff.mp hentry
    rw [process_finish hmakes hcheck hentry, hdb]
    have hkey : clientKey v e = (addr v r.clientAddr, r.pkt.smac) := key_of_search hc
    refine (finish_sameDatabase { db with net := net } hentry
      ((core_key (e.seen r.pkt) _).trans hkey)).trans ?_
    rw [Spared, hgroup, hentry]
    exact core_content_iff hout

/-- The sample host allows a source it is recorded with, in the same second, and another one: there is no entry. -/
theorem shortage_keeps_database_iff_sample :
    let r : Reporter := ⟨samplePort false, samplePkt, host 9⟩
    let db := (record .allow (sampleRec [host 1])).process r .v4 (Db.init (sampleNet false) 4 4 1 4)
    let item := record .allow (sampleRec [host 1, host 2])
    item.RunsOut r .v4 db ∧ SameDatabase db.tables (item.process r .v4 db).tables := by
  intro r db item
  have hout : item.RunsOut r .v4 db := by decide +kernel
  refine ⟨hout, (shortage_keeps_database_iff hout).mpr (by decide +kernel)⟩

/-- A join of a new group finds no client entry: the group stays linked, empty. A record that asks for two other
    sources finds an entry for one of them: the client has lost its source and is left with half of the record. -/
theorem shortage_leaves_traces :
    let g := (sampleRec []).groupAddr
    let r (fastLeave : Bool) : Reporter := ⟨samplePort fastLeave, samplePkt, host 9⟩
    let noClients := Db.init (sampleNet false) 4 0 8 4
    let oneSource := (record .isInclude (sampleRec [host 1])).process (r true) .v4 (Db.init (sampleNet true) 4 4 1 4)
    let joining := join false g
    let asking := record .isInclude (sampleRec [host 2, host 3])
    let sourcesOf (db : Db) : Option (List Ip) :=
      (entryOf db samplePkt .v4 g (host 9)).map fun e => e.sourceList.map (·.sourceAddr)
    (joining.RunsOut (r false) .v4 noClients ∧
      ¬ SameDatabase noClients.tables (joining.process (r false) .v4 noClients).tables ∧
      (searchGroupEntry (joining.process (r false) .v4 noClients).tables 0 .v4 g).map (·.clientList) = some []) ∧
    asking.RunsOut (r true) .v4 oneSource ∧ sourcesOf oneSource = some [host 1] ∧
      sourcesOf (asking.process (r true) .v4 oneSource) = some [host 2] := by
  intro g r noClients oneSource joining asking sourcesOf
  have hafter : (searchGroupEntry (joining.process (r false) .v4 noClients).tables 0 .v4 g).map (·.clientList) =
      some [] := by decide +kernel
  refine ⟨⟨by decide +kernel, fun hsame => ?_, hafter⟩, by decide +kernel, by decide +kernel, by decide +kernel⟩
  have hbefore : (searchGroupEntry noClients.tables 0 .v4 g).isNone := by decide +kernel
  have hcontent := hsame.group 0 .v4 g
  rw [Option.isNone_iff_eq_none.mp hbefore, Option.map_none, Option.map_eq_none_iff] at hcontent
  rw [hcontent] at hafter
  cases hafter

end Item

end PhoebusBsp.Igmp

import PhoebusBsp.Nat25.Chains

/-! What the operations of the database do to its entries. The chains are done with here: an operation
    returns, keeps them well formed, and changes what one entry holds, makes one, or (the sweeps) deals
    with each of them:

        insert k m      a entry of k:  mac and timer renewed        none:  a new one at `kmalloc`
        lookup k        a live entry:  one reference more           otherwise:  nothing
        expire          an entry that has run out:  one reference less, gone with the last one
        cleanup         every entry gone -/

namespace PhoebusBsp.Nat25
open Schemes Linked Function Option

/-- The frame with the station as its destination. -/
def setDestination (skb : Bytes) (m : Mac) : Bytes := Bytes.write skb 0 6 fun i => m.getD i 0

/-- A lookup without the frame: the result, the station found, if any, and the database. -/
def dbLookup (p : Ageing) (fuel : ℕ) (s : Priv) (networkAddr : NetworkAddr) : Option (Int × Option Mac × Priv) := do
  match ← findEntry s networkAddr fuel (s.nethash (networkHash s.hashSize networkAddr)) with
  | none => some (0, none, s)
  | some db =>
    let e ← s.heap db
    if hasExpired p s e then some (1, none, s)
    else
      let s ← s.modify db fun e => { e with useCount := e.useCount + 1 }
      some (1, some e.macAddr, s)

/-- The only change to the frame is its destination. -/
theorem dbNetworkLookupAndReplace_eq (p : Ageing) (fuel : ℕ) (s : Priv) (skb : Bytes) (networkAddr : NetworkAddr) :
    dbNetworkLookupAndReplace p fuel s skb networkAddr =
      (dbLookup p fuel s networkAddr).map fun x => (x.1, x.2.1.elim skb (setDestination skb), x.2.2) := by
  unfold dbNetworkLookupAndReplace dbLookup
  cases findEntry s networkAddr fuel (s.nethash (networkHash s.hashSize networkAddr)) with
  | none => rfl
  | some found =>
    cases found with
    | none => rfl
    | some db =>
      simp only [bind_eq_bind, bind_some]
      cases s.heap db with
      | none => rfl
      | some e =>
        simp only [bind_some]
        split_ifs
        · rfl
        · cases s.modify db fun e => { e with useCount := e.useCount + 1 } <;> rfl

section Operations

variable {s : Priv} {lists : ℕ → List ℕ} {fuel : ℕ} {q : ℕ}

/-- A new entry at the front of its chain. -/
theorem linkFresh_spec (hs : Chained s lists) (hfresh : s.heap q = none) (e : Entry)
    (hnew : ∀ a b, s.bodies a = some b → b.networkAddr ≠ e.networkAddr) :
    ∃ s', networkHashLink { s with heap := update s.heap q (some e) } q (networkHash s.hashSize e.networkAddr) =
        some s' ∧
      Chained s' (update lists (networkHash s.hashSize e.networkAddr)
        (q :: lists (networkHash s.hashSize e.networkAddr))) ∧
      s'.bodies = update s.bodies q (some e.body) ∧ s'.side = s.side := by
  set h := networkHash s.hashSize e.networkAddr with hh
  set s₁ : Priv := { s with heap := update s.heap q (some e) } with hs₁
  have hout : ∀ r, q ∉ lists r := by
    intro r hq
    obtain ⟨d, hd⟩ := hs.allocated hq
    cases hfresh.symm.trans hd
  have hheap : ∀ {b}, b ≠ q → s₁.heap b = s.heap b := fun hb => update_of_ne hb ..
  have hself : s₁.heap q = some e := update_self ..
  have hforest₁ : Forest some s₁.store lists := by
    refine hs.forest.congr (fun _ => rfl) fun r b hb => ?_
    have hne : b ≠ q := fun heq => hout r (heq ▸ hb)
    simp [Priv.store, hheap hne]
  have hhead : ∀ b, s₁.nethash h = some b → b ∈ lists h := by
    intro b hb
    have heq : s₁.nethash h = (lists h).head? := hforest₁.head_eq h
    exact List.mem_of_mem_head? (heq ▸ hb)
  obtain ⟨s', hs', hstore, hkept⟩ := networkHashLink_spec hself fun b hb => by
    obtain ⟨d, hd⟩ := hs.allocated (hhead b hb)
    exact ⟨d, (hheap fun heq => hout h (heq ▸ hhead b hb)).trans hd⟩
  have hforest : Forest some s'.store (update lists h (q :: lists h)) := by
    refine hforest₁.link hout ?_
    rw [hstore]
    exact linkedAt_push fun hq => hout h (hhead q hq)
  have hbodies : s'.bodies = update s.bodies q (some e.body) := hkept.bodies.trans (bodies_update _)
  -- an entry is the new one or an old one
  have hcases : ∀ {b d}, s'.bodies b = some d → b = q ∧ d = e.body ∨ b ≠ q ∧ s.bodies b = some d := by
    intro b d hd
    rw [hbodies] at hd
    by_cases hb : b = q
    · rw [hb, update_self] at hd
      exact Or.inl ⟨hb, (some.inj hd).symm⟩
    · rw [update_of_ne hb] at hd
      exact Or.inr ⟨hb, hd⟩
  refine ⟨s', hs', .of_bodies hforest (fun b d hd r => ?_) (fun b c d d' hd hd' haddr => ?_), hbodies, hkept.side⟩
  · have hsize : s'.hashSize = s.hashSize := hkept.size
    rw [hsize]
    rcases hcases hd with ⟨rfl, rfl⟩ | ⟨hne, hd⟩
    · by_cases hr : r = h
      · simp [hr, hh, Entry.body]
      · rw [update_of_ne hr]
        exact iff_of_false (hout r) hr
    · rw [← hs.mem_chain_iff hd]
      by_cases hr : r = h
      · rw [hr, update_self, List.mem_cons, or_iff_right hne]
      · rw [update_of_ne hr]
  · rcases hcases hd with ⟨rfl, rfl⟩ | ⟨-, hd⟩ <;> rcases hcases hd' with ⟨rfl, rfl⟩ | ⟨-, hd'⟩
    · rfl
    · exact absurd haddr.symm (hnew c d' hd')
    · exact absurd haddr (hnew b d hd)
    · exact hs.eq_of_addr hd hd' haddr

/-- What an insert does to the entries, with the memory that an allocation would get. -/
inductive Inserts (s : Priv) (kmalloc : Option ℕ) (macAddr : Mac) (networkAddr : NetworkAddr) :
    (ℕ → Option Body) → Prop where
  | renew {a : ℕ} {b : Body} (hb : s.bodies a = some b) (haddr : b.networkAddr = networkAddr) :
    Inserts s kmalloc macAddr networkAddr
      (update s.bodies a (some { b with macAddr := macAddr, ageingTimer := s.clock }))
  | make {q : ℕ} (hq : kmalloc = some q) (hfresh : s.bodies q = none)
    (hnone : ∀ a b, s.bodies a = some b → b.networkAddr ≠ networkAddr) :
    Inserts s kmalloc macAddr networkAddr
      (update s.bodies q (some ⟨networkAddr, macAddr, 1, s.clock⟩))
  | fail (hq : kmalloc = none) (hnone : ∀ a b, s.bodies a = some b → b.networkAddr ≠ networkAddr) :
    Inserts s kmalloc macAddr networkAddr s.bodies

variable (p : Ageing) (hs : Chained s lists) (hfuel : ∀ h, (lists h).length ≤ fuel)
include hs hfuel

theorem dbNetworkInsert_spec {kmalloc : Option ℕ}
    (hfresh : ∀ q, kmalloc = some q → s.heap q = none) (macAddr : Mac) (networkAddr : NetworkAddr) :
    ∃ s' lists', dbNetworkInsert fuel s kmalloc macAddr networkAddr = some s' ∧ Chained s' lists' ∧
      (∀ h, (lists' h).length ≤ (lists h).length + 1) ∧ s'.side = s.side ∧
      Inserts s kmalloc macAddr networkAddr s'.bodies := by
  obtain ⟨found, hfind, hsome, hnone⟩ := find_spec hs networkAddr hfuel
  cases found with
  | some a =>
    obtain ⟨e, he, haddr⟩ := hsome a rfl
    refine ⟨{ s with heap := update s.heap a (some { e with macAddr := macAddr, ageingTimer := s.clock }) },
      lists, ?_, hs.modify he rfl rfl rfl, fun h => Nat.le_succ _, rfl, ?_⟩
    · simp [dbNetworkInsert, hfind, modify_eq he]
    · rw [bodies_update]
      exact .renew (b := e.body) (bodies_of_heap he) haddr
  | none =>
    have hnew := hnone rfl
    cases kmalloc with
    | none =>
      refine ⟨s, lists, ?_, hs, fun h => Nat.le_succ _, rfl, .fail rfl hnew⟩
      simp [dbNetworkInsert, hfind]
    | some q =>
      obtain ⟨s', hs', hchained, hbodies, hside⟩ :=
        linkFresh_spec hs (hfresh q rfl) ⟨networkAddr, macAddr, 1, s.clock, none, none⟩ hnew
      refine ⟨s', _, ?_, hchained, fun h => ?_, hside, ?_⟩
      · simp only [dbNetworkInsert, hfind, bind_eq_bind, bind_some]
        exact hs'
      · by_cases hh : h = networkHash s.hashSize networkAddr
        · rw [hh, update_self, List.length_cons]
        · rw [update_of_ne hh]
          exact Nat.le_succ _
      · rw [hbodies]
        exact .make rfl (bodies_eq_none.mpr (hfresh q rfl)) hnew

/-- What a lookup returns, the station it finds and what it does to the entries. -/
inductive Finds (p : Ageing) (s : Priv) (networkAddr : NetworkAddr) :
    Int → Option Mac → (ℕ → Option Body) → Prop where
  | hit {a : ℕ} {b : Body} (hb : s.bodies a = some b) (haddr : b.networkAddr = networkAddr)
    (hlive : b.expired p s.jiffies = false) :
    Finds p s networkAddr 1 (some b.macAddr) (update s.bodies a (some { b with useCount := b.useCount + 1 }))
  | stale {a : ℕ} {b : Body} (hb : s.bodies a = some b) (haddr : b.networkAddr = networkAddr)
    (hout : b.expired p s.jiffies = true) : Finds p s networkAddr 1 none s.bodies
  | miss (hnone : ∀ a b, s.bodies a = some b → b.networkAddr ≠ networkAddr) :
    Finds p s networkAddr 0 none s.bodies

theorem dbLookup_spec (networkAddr : NetworkAddr) :
    ∃ ret m s', dbLookup p fuel s networkAddr = some (ret, m, s') ∧ Chained s' lists ∧ s'.side = s.side ∧
      Finds p s networkAddr ret m s'.bodies := by
  obtain ⟨found, hfind, hsome, hnone⟩ := find_spec hs networkAddr hfuel
  cases found with
  | none =>
    refine ⟨0, none, s, ?_, hs, rfl, .miss (hnone rfl)⟩
    simp [dbLookup, hfind]
  | some a =>
    obtain ⟨e, he, haddr⟩ := hsome a rfl
    cases hout : hasExpired p s e with
    | true =>
      refine ⟨1, none, s, ?_, hs, rfl, .stale (bodies_of_heap he) haddr hout⟩
      simp [dbLookup, hfind, he, hout]
    | false =>
      refine ⟨1, some e.macAddr,
        { s with heap := update s.heap a (some { e with useCount := e.useCount + 1 }) }, ?_,
        hs.modify he rfl rfl rfl, rfl, ?_⟩
      · simp only [dbLookup, hfind, he, hout, modify_eq he, bind_eq_bind, bind_some]
        rfl
      · rw [bodies_update]
        exact .hit (b := e.body) (bodies_of_heap he) haddr hout

theorem dbExpire_spec (henabled : s.nat25Disable = false) :
    ∃ s' lists', dbExpire p fuel s = some s' ∧ Chained s' lists' ∧ (∀ h, (lists' h).Sublist (lists h)) ∧
      s'.jiffies = s.jiffies ∧ s'.nat25Disable = false ∧ ∀ c, s'.bodies c = (s.bodies c).bind (aged p s.jiffies) := by
  obtain ⟨s', lists', hs', ⟨hj, hdisable⟩, hchained, hsub, hbodies⟩ :=
    sweepChains_spec (sweeps_expireEntry p s.jiffies false) ⟨rfl, henabled⟩ hs hfuel
  refine ⟨s', lists', ?_, hchained, hsub, hj, hdisable, hbodies⟩
  simp [dbExpire, henabled, hs']

theorem dbCleanup_spec :
    ∃ s' lists', dbCleanup fuel s = some s' ∧ Chained s' lists' ∧ (∀ h, (lists' h).Sublist (lists h)) ∧
      s'.jiffies = s.jiffies ∧ s'.nat25Disable = s.nat25Disable ∧ ∀ c, s'.bodies c = none := by
  obtain ⟨s', lists', hs', ⟨hj, hoff⟩, hchained, hsub, hbodies⟩ :=
    sweepChains_spec (sweeps_remove s.jiffies s.nat25Disable) ⟨rfl, rfl⟩ hs hfuel
  exact ⟨s', lists', hs', hchained, hsub, hj, hoff, fun c => (hbodies c).trans (bind_fun_none _)⟩

end Operations

/-! ### Entries by address

    An address has one entry at most, so the operations can be described by what they make of it, wherever it is
    in memory. -/

open Classical in
/-- What the database holds for an address. -/
noncomputable def Priv.entry (s : Priv) (k : NetworkAddr) : Option Body :=
  if h : ∃ b a, s.bodies a = some b ∧ b.networkAddr = k then some h.choose else none

/-- What an insert makes of the entry of its address. -/
def inserted (clock : UInt32) (allocated : Bool) (macAddr : Mac) (k : NetworkAddr) : Option Body → Option Body
  | some b => some { b with macAddr := macAddr, ageingTimer := clock }
  | none => if allocated then some ⟨k, macAddr, 1, clock⟩ else none

/-- What a lookup makes of the entry it finds. -/
def looked (p : Ageing) (j : ℕ) (b : Body) : Body :=
  if b.expired p j then b else { b with useCount := b.useCount + 1 }

/-- The result of a lookup and the station it finds. -/
def found (p : Ageing) (j : ℕ) : Option Body → Int × Option Mac
  | some b => (1, if b.expired p j then none else some b.macAddr)
  | none => (0, none)

section Entries

variable {s s' : Priv} {lists lists' : ℕ → List ℕ} {k : NetworkAddr} {b : Body} {p : Ageing}

theorem entry_eq_none : s.entry k = none ↔ ∀ a b, s.bodies a = some b → b.networkAddr ≠ k := by
  unfold Priv.entry
  split
  · next h =>
    obtain ⟨a, ha, hk⟩ := h.choose_spec
    exact iff_of_false nofun fun hnone => hnone a _ ha hk
  · next h => exact iff_of_true rfl fun a b hb haddr => h ⟨b, a, hb, haddr⟩

theorem Chained.entry_eq_some (hs : Chained s lists) :
    s.entry k = some b ↔ ∃ a, s.bodies a = some b ∧ b.networkAddr = k := by
  unfold Priv.entry
  split
  · next h =>
    obtain ⟨a, ha, hk⟩ := h.choose_spec
    rw [some.injEq]
    constructor
    · rintro rfl
      exact ⟨a, ha, hk⟩
    · rintro ⟨c, hc, hck⟩
      obtain rfl := hs.eq_of_addr ha hc (hk.trans hck.symm)
      exact some.inj (ha.symm.trans hc)
  · next h => exact iff_of_false nofun fun ⟨a, hab⟩ => h ⟨b, a, hab⟩

theorem Chained.entry_of_body (hs : Chained s lists) {a : ℕ} (hb : s.bodies a = some b) :
    s.entry b.networkAddr = some b := hs.entry_eq_some.mpr ⟨a, hb, rfl⟩

/-- The entry of one address has changed, or has been made. -/
theorem Chained.entry_update (hs : Chained s lists) (hs' : Chained s' lists') {a : ℕ} (haddr : b.networkAddr = k)
    (hold : ∀ c d, s.bodies c = some d → (c = a ↔ d.networkAddr = k))
    (hbodies : s'.bodies = update s.bodies a (some b)) : s'.entry = update s.entry k (some b) := by
  funext k'
  by_cases hk : k' = k
  · rw [hk, update_self]
    exact hs'.entry_eq_some.mpr ⟨a, by rw [hbodies, update_self], haddr⟩
  · rw [update_of_ne hk]
    ext d
    rw [hs'.entry_eq_some, hs.entry_eq_some]
    refine exists_congr fun c => and_congr_left ?_
    rintro rfl
    rw [hbodies]
    by_cases hc : c = a
    · rw [hc, update_self]
      refine iff_of_false (fun hd => hk ?_) fun hd => hk ((hold a d hd).mp rfl)
      rw [← some.inj hd, haddr]
    · rw [update_of_ne hc]

theorem Chained.at_iff (hs : Chained s lists) {a : ℕ} (hb : s.bodies a = some b) (haddr : b.networkAddr = k) (c : ℕ)
    (d : Body) (hd : s.bodies c = some d) : c = a ↔ d.networkAddr = k := by
  constructor
  · rintro rfl
    rw [← some.inj (hb.symm.trans hd), haddr]
  · exact fun hdk => hs.eq_of_addr hd hb (hdk.trans haddr.symm)

theorem entry_congr (h : s'.bodies = s.bodies) : s'.entry = s.entry := by
  unfold Priv.entry
  rw [h]

theorem Inserts.entry {kmalloc : Option ℕ} {macAddr : Mac} (h : Inserts s kmalloc macAddr k s'.bodies)
    (hs : Chained s lists) (hs' : Chained s' lists') :
    s'.entry = update s.entry k (inserted s.clock kmalloc.isSome macAddr k (s.entry k)) := by
  generalize hbodies : s'.bodies = bodies at h
  cases h with
  | @renew a b hb haddr =>
    rw [hs.entry_eq_some.mpr ⟨a, hb, haddr⟩]
    refine hs.entry_update hs' ?_ (hs.at_iff hb haddr) hbodies
    exact haddr
  | @make q hq hfresh hnone =>
    rw [entry_eq_none.mpr hnone, hq]
    refine hs.entry_update hs' (by rfl) (fun c d hd => ?_) hbodies
    refine iff_of_false ?_ (hnone c d hd)
    rintro rfl
    cases hfresh.symm.trans hd
  | fail hq hnone =>
    rw [hq, entry_congr hbodies]
    refine (update_eq_self_iff.mpr ?_).symm
    rw [entry_eq_none.mpr hnone]
    rfl

theorem Finds.entry {ret : Int} {m : Option Mac} (h : Finds p s k ret m s'.bodies) (hs : Chained s lists)
    (hs' : Chained s' lists') :
    (ret, m) = found p s.jiffies (s.entry k) ∧
      s'.entry = update s.entry k ((s.entry k).map (looked p s.jiffies)) := by
  generalize hbodies : s'.bodies = bodies at h
  cases h with
  | @hit a b hb haddr hlive =>
    rw [hs.entry_eq_some.mpr ⟨a, hb, haddr⟩]
    refine ⟨by simp [found, hlive], ?_⟩
    rw [map_some, looked, hlive]
    refine hs.entry_update hs' ?_ (hs.at_iff hb haddr) hbodies
    exact haddr
  | @stale a b hb haddr hout =>
    have hentry := hs.entry_eq_some.mpr ⟨a, hb, haddr⟩
    rw [hentry, entry_congr hbodies]
    refine ⟨by simp [found, hout], ?_⟩
    rw [map_some, looked, hout, if_pos rfl, ← hentry, update_eq_self]
  | miss hnone =>
    have hentry := entry_eq_none.mpr hnone
    rw [hentry, entry_congr hbodies]
    refine ⟨rfl, ?_⟩
    rw [map_none, ← hentry, update_eq_self]

/-- A live entry is found. -/
theorem dbLookup_live (hs : Chained s lists) {fuel : ℕ} (hfuel : ∀ h, (lists h).length ≤ fuel) {a : ℕ}
    (hb : s.bodies a = some b) (hlive : b.expired p s.jiffies = false) :
    ∃ s', dbLookup p fuel s b.networkAddr = some (1, some b.macAddr, s') := by
  obtain ⟨ret, m, s', hs', hchained, -, hfinds⟩ := dbLookup_spec p hs hfuel b.networkAddr
  have hfound := (hfinds.entry hs hchained).1
  rw [hs.entry_of_body hb] at hfound
  obtain ⟨rfl, rfl⟩ := Prod.mk.inj hfound
  exact ⟨s', by simpa [hlive] using hs'⟩

/-- Every entry has been dealt with. -/
theorem Chained.entry_bind (hs : Chained s lists) (hs' : Chained s' lists') {f : Body → Option Body}
    (haddr : ∀ {b b'}, f b = some b' → b'.networkAddr = b.networkAddr)
    (hbodies : ∀ c, s'.bodies c = (s.bodies c).bind f) (k : NetworkAddr) : s'.entry k = (s.entry k).bind f := by
  ext b'
  simp only [hs'.entry_eq_some, bind_eq_some_iff, hs.entry_eq_some, hbodies]
  constructor
  · rintro ⟨a, ⟨b, hb, hf⟩, rfl⟩
    exact ⟨b, ⟨a, hb, (haddr hf).symm⟩, hf⟩
  · rintro ⟨b, ⟨a, hb, rfl⟩, hf⟩
    exact ⟨a, ⟨b, hb, hf⟩, haddr hf⟩

theorem networkAddr_of_aged {j : ℕ} {b' : Body} (h : aged p j b = some b') : b'.networkAddr = b.networkAddr := by
  unfold aged at h
  split_ifs at h <;> obtain rfl := some.inj h <;> rfl

end Entries

/-! ### All operations -/

/-- A call, or time that passes. -/
inductive Event where
  | tick (n : ℕ)
  | insert (kmalloc : Option ℕ) (macAddr : Mac) (networkAddr : NetworkAddr)
  | lookup (skb : Bytes) (networkAddr : NetworkAddr)
  | expire
  | cleanup

def step (p : Ageing) (fuel : ℕ) (s : Priv) : Event → Option Priv
  | .tick n => some { s with jiffies := s.jiffies + n }
  | .insert kmalloc macAddr networkAddr => dbNetworkInsert fuel s kmalloc macAddr networkAddr
  | .lookup skb networkAddr => (dbNetworkLookupAndReplace p fuel s skb networkAddr).map (·.2.2)
  | .expire => dbExpire p fuel s
  | .cleanup => dbCleanup fuel s

namespace Event

variable (p : Ageing) (s : Priv)

/-- What becomes of the entry of address `k`. -/
def effect (k : NetworkAddr) (o : Option Body) : Event → Option Body
  | .tick _ => o
  | .insert kmalloc macAddr k' => if k = k' then inserted s.clock kmalloc.isSome macAddr k' o else o
  | .lookup _ k' => if k = k' then o.map (looked p s.jiffies) else o
  | .expire => if s.nat25Disable then o else o.bind (aged p s.jiffies)
  | .cleanup => none

def elapsed : Event → ℕ
  | .tick n => n
  | .insert .. | .lookup .. | .expire | .cleanup => 0

/-- An allocation gets memory that is not in use. -/
def Allocates : Event → Prop
  | .insert kmalloc _ _ => ∀ q, kmalloc = some q → s.heap q = none
  | .tick _ | .lookup .. | .expire | .cleanup => True

end Event

/-- Every call returns and changes the entries as described; no chain gets longer by more than one. -/
theorem step_spec {p : Ageing} {fuel n : ℕ} {s : Priv} {lists : ℕ → List ℕ} (ev : Event) (hs : Chained s lists)
    (hn : ∀ h, (lists h).length ≤ n) (hfuel : n ≤ fuel) (halloc : ev.Allocates s) :
    ∃ s' lists', step p fuel s ev = some s' ∧ Chained s' lists' ∧ (∀ h, (lists' h).length ≤ n + 1) ∧
      s'.jiffies = s.jiffies + ev.elapsed ∧ s'.nat25Disable = s.nat25Disable ∧
      ∀ k, s'.entry k = ev.effect p s k (s.entry k) := by
  have hlength : ∀ h, (lists h).length ≤ fuel := fun h => (hn h).trans hfuel
  have hshort : ∀ {lists' : ℕ → List ℕ}, (∀ h, (lists' h).Sublist (lists h)) →
      ∀ h, (lists' h).length ≤ n + 1 := fun hsub h => ((hsub h).length_le.trans (hn h)).trans (Nat.le_succ n)
  cases ev with
  | tick d =>
    exact ⟨_, lists, rfl, hs.congr rfl rfl fun _ => rfl, hshort fun _ => .refl _, rfl, rfl, fun _ => rfl⟩
  | insert kmalloc macAddr k' =>
    obtain ⟨s', lists', hs', hchained, hle, hside, hinserts⟩ := dbNetworkInsert_spec hs hlength halloc macAddr k'
    refine ⟨s', lists', hs', hchained, fun h => (hle h).trans (Nat.succ_le_succ (hn h)),
      congrArg (·.2.2.2) hside, congrArg (·.2.2.1) hside, fun k => ?_⟩
    rw [hinserts.entry hs hchained, update_apply, Event.effect]
    split <;> simp_all
  | lookup skb k' =>
    obtain ⟨ret, m, s', hs', hchained, hside, hfinds⟩ := dbLookup_spec p hs hlength k'
    refine ⟨s', lists, by simp [step, dbNetworkLookupAndReplace_eq, hs'], hchained, hshort fun _ => .refl _,
      congrArg (·.2.2.2) hside,
      congrArg (·.2.2.1) hside, fun k => ?_⟩
    rw [(hfinds.entry hs hchained).2, update_apply, Event.effect]
    split <;> simp_all
  | expire =>
    cases hdisable : s.nat25Disable with
    | true =>
      exact ⟨s, lists, by simp [step, dbExpire, hdisable], hs, hshort fun _ => .refl _, rfl, hdisable,
        fun k => by simp [Event.effect, hdisable]⟩
    | false =>
      obtain ⟨s', lists', hs', hchained, hsub, hj, hoff, hbodies⟩ := dbExpire_spec p hs hlength hdisable
      refine ⟨s', lists', hs', hchained, hshort hsub, hj, hoff, fun k => ?_⟩
      rw [hs.entry_bind hchained networkAddr_of_aged hbodies]
      simp [Event.effect, hdisable]
  | cleanup =>
    obtain ⟨s', lists', hs', hchained, hsub, hj, hoff, hgone⟩ := dbCleanup_spec hs hlength
    refine ⟨s', lists', hs', hchained, hshort hsub, hj, hoff, fun k => ?_⟩
    exact entry_eq_none.mpr fun a b hb => nomatch (hgone a).symm.trans hb

end PhoebusBsp.Nat25

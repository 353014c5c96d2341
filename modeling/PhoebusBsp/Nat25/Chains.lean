import PhoebusBsp.Nat25.Db

/-! The hash chains stay well formed. `Linked` says what lists the pointers make up; an operation is right
    when its writes are one of the two changes of lists described there, and when it leaves addresses,
    stations and timers of all entries alone. -/

namespace PhoebusBsp.Nat25
open Schemes Linked Function List Option

/-! ### The pointers as lists -/

/-- The pointers of the database. -/
def Priv.store (s : Priv) : Store ℕ ℕ (Option Place) where
  head := s.nethash
  next a := (s.heap a).bind Entry.nextHash
  back a := (s.heap a).bind Entry.pprevHash

/-- The chains are these lists: each entry is in the chain of its address, no memory is lost, and no
    address has two entries. -/
structure Chained (s : Priv) (lists : ℕ → List ℕ) : Prop where
  forest : Forest some s.store lists
  bucket : ∀ h, ∀ a ∈ lists h, ∀ e, s.heap a = some e → networkHash s.hashSize e.networkAddr = h
  owned : ∀ a e, s.heap a = some e → a ∈ lists (networkHash s.hashSize e.networkAddr)
  unique : ∀ a b e e', s.heap a = some e → s.heap b = some e' → e.networkAddr = e'.networkAddr → a = b

/-- An entry without its links. -/
structure Body where
  networkAddr : NetworkAddr
  macAddr : Mac
  useCount : UInt32
  ageingTimer : UInt32
  deriving DecidableEq

def Entry.body (e : Entry) : Body := ⟨e.networkAddr, e.macAddr, e.useCount, e.ageingTimer⟩

/-- The entry has run out at jiffies `j`. -/
def Body.expired (p : Ageing) (j : ℕ) (b : Body) : Bool :=
  timeBeforeEq b.ageingTimer (timeout p (UInt32.ofNat j))

/-- The entries without their links, by where they are. -/
def Priv.bodies (s : Priv) (a : ℕ) : Option Body := (s.heap a).map Entry.body

/-- All but the chains. -/
def Priv.side (s : Priv) : Mac × UInt32 × Bool × ℕ := (s.scdbMac, s.scdbIp, s.nat25Disable, s.jiffies)

section Chained

variable {s s' : Priv} {lists : ℕ → List ℕ} {h a : ℕ} {e : Entry} {b : Body}

theorem bodies_eq_some : s.bodies a = some b ↔ ∃ e, s.heap a = some e ∧ e.body = b :=
  map_eq_some_iff

theorem bodies_of_heap (he : s.heap a = some e) : s.bodies a = some e.body := congrArg (Option.map _) he

theorem bodies_eq_none : s.bodies a = none ↔ s.heap a = none := map_eq_none_iff

theorem Chained.allocated (hs : Chained s lists) (ha : a ∈ lists h) : ∃ e, s.heap a = some e := by
  obtain ⟨pre, post, hr⟩ := append_of_mem ha
  have hback := hs.forest.back_eq hr
  cases hheap : s.heap a with
  | none => simp [Priv.store, hheap] at hback
  | some e => exact ⟨e, rfl⟩

theorem Chained.mem_iff (hs : Chained s lists) :
    a ∈ lists h ↔ ∃ b, s.bodies a = some b ∧ networkHash s.hashSize b.networkAddr = h := by
  constructor
  · intro ha
    obtain ⟨e, he⟩ := hs.allocated ha
    exact ⟨e.body, bodies_of_heap he, hs.bucket h a ha e he⟩
  · rintro ⟨b, hb, rfl⟩
    obtain ⟨e, he, rfl⟩ := bodies_eq_some.mp hb
    exact hs.owned a e he

theorem Chained.mem_chain_iff (hs : Chained s lists) (hb : s.bodies a = some b) :
    a ∈ lists h ↔ h = networkHash s.hashSize b.networkAddr := by
  rw [hs.mem_iff]
  constructor
  · rintro ⟨b', hb', rfl⟩
    rw [some.inj (hb.symm.trans hb')]
  · exact fun hh => ⟨b, hb, hh.symm⟩

theorem Chained.nextHash_eq (hs : Chained s lists) {pre post : List ℕ} (hr : lists h = pre ++ a :: post)
    (he : s.heap a = some e) : e.nextHash = post.head? := by
  have hnext := hs.forest.next_eq hr
  simpa [Priv.store, he] using hnext

/-- No address has two entries. -/
theorem Chained.eq_of_addr (hs : Chained s lists) {c : ℕ} {b' : Body} (hb : s.bodies a = some b)
    (hc : s.bodies c = some b') (haddr : b.networkAddr = b'.networkAddr) : a = c := by
  obtain ⟨e, he, rfl⟩ := bodies_eq_some.mp hb
  obtain ⟨e', he', rfl⟩ := bodies_eq_some.mp hc
  exact hs.unique a c e e' he he' haddr

/-- The chains are well formed when the lists are, and hold each entry where its address belongs. -/
theorem Chained.of_bodies (hforest : Forest some s.store lists)
    (hmem : ∀ a b, s.bodies a = some b → ∀ h, a ∈ lists h ↔ h = networkHash s.hashSize b.networkAddr)
    (hunique : ∀ a c b b', s.bodies a = some b → s.bodies c = some b' → b.networkAddr = b'.networkAddr → a = c) :
    Chained s lists where
  forest := hforest
  bucket h a ha e he := ((hmem a e.body (bodies_of_heap he) h).mp ha).symm
  owned a e he := (hmem a e.body (bodies_of_heap he) _).mpr rfl
  unique a c e e' he he' := hunique a c e.body e'.body (bodies_of_heap he) (bodies_of_heap he')

/-- Nothing that the chains are about has changed. -/
theorem Chained.congr (hs : Chained s lists) (hsize : s'.hashSize = s.hashSize) (hstore : s'.store = s.store)
    (haddr : ∀ a, (s'.bodies a).map Body.networkAddr = (s.bodies a).map Body.networkAddr) : Chained s' lists := by
  have hback : ∀ {a b'}, s'.bodies a = some b' → ∃ b, s.bodies a = some b ∧ b.networkAddr = b'.networkAddr := by
    intro a b' hb'
    have ha := haddr a
    rw [hb', map_some] at ha
    exact map_eq_some_iff.mp ha.symm
  refine .of_bodies (hstore ▸ hs.forest) (fun a b' hb' h => ?_) (fun a c b b' hb hb' heq => ?_)
  · obtain ⟨b, hb, heq⟩ := hback hb'
    rw [hs.mem_chain_iff hb, heq, hsize]
  · obtain ⟨d, hd, hd'⟩ := hback hb
    obtain ⟨c', hc, hc'⟩ := hback hb'
    exact hs.eq_of_addr hd hc (hd'.trans (heq.trans hc'.symm))

end Chained

/-! ### Writes -/

section Writes

variable {s s' : Priv} {a : ℕ} {e e' : Entry}

/-- Nothing has changed but links. -/
structure Relinked (s s' : Priv) : Prop where
  size : s'.hashSize = s.hashSize
  bodies : s'.bodies = s.bodies
  side : s'.side = s.side

theorem Relinked.rfl : Relinked s s := ⟨Eq.refl _, Eq.refl _, Eq.refl _⟩

theorem Relinked.trans {t : Priv} (h : Relinked s s') (h' : Relinked s' t) : Relinked s t :=
  ⟨h'.size.trans h.size, h'.bodies.trans h.bodies, h'.side.trans h.side⟩

theorem store_update (e' : Entry) :
    Priv.store { s with heap := update s.heap a (some e') } =
      (s.store.set (.next a) e'.nextHash).setBack a e'.pprevHash := by
  have hfield : ∀ {α : Type} (g : Entry → Option α),
      (fun b => (update s.heap a (some e') b).bind g) =
        update (fun b => (s.heap b).bind g) a (g e') := by
    intro α g
    funext b
    by_cases hb : b = a
    · rw [hb, update_self, update_self, bind_some]
    · rw [update_of_ne hb, update_of_ne hb]
  simp only [Priv.store, hfield, Store.set, Store.setBack]

theorem bodies_update (x : Option Entry) :
    Priv.bodies { s with heap := update s.heap a x } = update s.bodies a (x.map Entry.body) := by
  funext b
  by_cases hb : b = a
  · simp [Priv.bodies, hb]
  · simp [Priv.bodies, update_of_ne hb]

theorem modify_eq (he : s.heap a = some e) (f : Entry → Entry) :
    s.modify a f = some { s with heap := update s.heap a (some (f e)) } := by
  simp [Priv.modify, he]

theorem relinked_update (he : s.heap a = some e) (hbody : e'.body = e.body) :
    Relinked s { s with heap := update s.heap a (some e') } := by
  refine ⟨Eq.refl _, ?_, Eq.refl _⟩
  rw [bodies_update, map_some, hbody, ← bodies_of_heap he, update_eq_self]

/-- A write that is not to a link. -/
theorem store_update_same (he : s.heap a = some e) (hnext : e'.nextHash = e.nextHash)
    (hpprev : e'.pprevHash = e.pprevHash) :
    Priv.store { s with heap := update s.heap a (some e') } = s.store := by
  have hn : s.store.next a = e'.nextHash := by simp [Priv.store, he, hnext]
  have hb : s.store.back a = e'.pprevHash := by simp [Priv.store, he, hpprev]
  rw [store_update, ← hn, ← hb]
  simp [Store.set, Store.setBack]

/-- A write to an entry that leaves its links and its address alone. -/
theorem Chained.modify {lists : ℕ → List ℕ} (hs : Chained s lists) (he : s.heap a = some e)
    (hnext : e'.nextHash = e.nextHash) (hpprev : e'.pprevHash = e.pprevHash)
    (haddr : e'.networkAddr = e.networkAddr) :
    Chained { s with heap := update s.heap a (some e') } lists := by
  refine hs.congr rfl (store_update_same he hnext hpprev) fun c => ?_
  rw [bodies_update]
  by_cases hc : c = a
  · rw [hc, update_self, bodies_of_heap he]
    exact congrArg some haddr
  · rw [update_of_ne hc]

theorem Relinked.allocated (h : Relinked s s') (he : s.heap a = some e) :
    ∃ e', s'.heap a = some e' ∧ e'.body = e.body := by
  have ha := congrFun h.bodies a
  rw [bodies_of_heap he] at ha
  exact bodies_eq_some.mp ha

/-- A write to one of the two links of an entry. -/
theorem modify_next (he : s.heap a = some e) (v : Option ℕ) :
    ∃ s', s.modify a (fun e => { e with nextHash := v }) = some s' ∧ s'.store = s.store.set (.next a) v ∧
      Relinked s s' := by
  refine ⟨_, modify_eq he _, ?_, relinked_update he (Eq.refl _)⟩
  have hb : s.store.back a = e.pprevHash := by simp [Priv.store, he]
  rw [store_update, ← hb]
  simp [Store.set, Store.setBack]

theorem modify_pprev (he : s.heap a = some e) (x : Option Place) :
    ∃ s', s.modify a (fun e => { e with pprevHash := x }) = some s' ∧ s'.store = s.store.setBack a x ∧
      Relinked s s' := by
  refine ⟨_, modify_eq he _, ?_, relinked_update he (Eq.refl _)⟩
  have hn : s.store.next a = e.nextHash := by simp [Priv.store, he]
  rw [store_update, ← hn]
  simp [Store.set, Store.setBack]

theorem setPprev_spec {b : Option ℕ} (hb : ∀ a, b = some a → ∃ e, s.heap a = some e) (x : Option Place) :
    ∃ s', s.setPprev b x = some s' ∧ s'.store = s.store.setBackOf b x ∧ Relinked s s' := by
  cases b with
  | none => exact ⟨s, Eq.refl _, Eq.refl _, .rfl⟩
  | some a =>
    obtain ⟨e, he⟩ := hb a (Eq.refl _)
    exact modify_pprev he x

theorem writePlace_spec {x : Place} (hx : ∀ a, x = .next a → ∃ e, s.heap a = some e) (v : Option ℕ) :
    ∃ s', s.writePlace x v = some s' ∧ s'.store = s.store.set x v ∧ Relinked s s' := by
  cases x with
  | head h => exact ⟨_, Eq.refl _, Eq.refl _, Eq.refl _, Eq.refl _, Eq.refl _⟩
  | next a =>
    obtain ⟨e, he⟩ := hx a (Eq.refl _)
    exact modify_next he v

end Writes

/-! ### Linking and unlinking -/

section Links

variable {s : Priv} {a h : ℕ} {e : Entry} {lists : ℕ → List ℕ}

theorem networkHashLink_spec (he : s.heap a = some e)
    (hfirst : ∀ b, s.nethash h = some b → ∃ e, s.heap b = some e) :
    ∃ s', networkHashLink s a h = some s' ∧ s'.store = s.store.push some h a ∧ Relinked s s' := by
  obtain ⟨s₁, hs₁, hstore₁, hkept₁⟩ := modify_next he (s.nethash h)
  have hhead : s₁.nethash h = s.nethash h := congrFun (congrArg Store.head hstore₁) h
  have hfirst₁ : ∀ b, s₁.nethash h = some b → ∃ e, s₁.heap b = some e := by
    intro b hb
    obtain ⟨d, hd⟩ := hfirst b (hhead ▸ hb)
    obtain ⟨d', hd', -⟩ := hkept₁.allocated hd
    exact ⟨d', hd'⟩
  obtain ⟨s₂, hs₂, hstore₂, hkept₂⟩ := setPprev_spec hfirst₁ (some (.next a))
  obtain ⟨e₂, he₂, -⟩ := (hkept₁.trans hkept₂).allocated he
  obtain ⟨s₃, hs₃, hstore₃, hkept₃⟩ :=
    modify_pprev (s := { s₂ with nethash := update s₂.nethash h (some a) }) he₂ (some (.head h))
  refine ⟨s₃, ?_, ?_, (hkept₁.trans hkept₂).trans ⟨hkept₃.size, hkept₃.bodies, hkept₃.side⟩⟩
  · simp [networkHashLink, hs₁, hs₂, hs₃]
  · have hset : Priv.store { s₂ with nethash := update s₂.nethash h (some a) } =
        s₂.store.set (.head h) (some a) := rfl
    rw [hstore₃, hset, hstore₂, hstore₁, hhead]
    rfl

/-- Unlinking the entry in the middle of a chain leads past it. -/
theorem networkHashUnlink_spec (hs : Chained s lists) {pre post : List ℕ}
    (hr : lists h = pre ++ a :: post) :
    ∃ s', networkHashUnlink s a = some s' ∧
      UnlinkedAt some s.store s'.store (endLoc (.head h) pre) a ∧ Relinked s s' := by
  have hnodup := hs.forest.nodup h
  rw [hr] at hnodup
  have hmem : ∀ b ∈ pre ++ a :: post, ∃ e, s.heap b = some e := fun b hb => hs.allocated (hr ▸ hb)
  obtain ⟨e, he⟩ := hmem a (mem_append_right _ mem_cons_self)
  have hpprev : e.pprevHash = some (endLoc (.head h) pre) := by
    have := hs.forest.back_eq hr
    simpa [Priv.store, he] using this
  have hnext := hs.nextHash_eq hr he
  have hplace : ∀ b, endLoc (.head h : Place) pre = .next b → b ∈ pre := by
    intro b hb
    rcases endLoc_eq (.head h : Place) pre with hend | ⟨d, hd, hend⟩
    · cases hb.symm.trans hend
    · exact Loc.next.inj (hb.symm.trans hend) ▸ hd
  have hapre : a ∉ pre := fun hin => (nodup_append.mp hnodup).2.2 a hin a mem_cons_self rfl
  have hapost : a ∉ post := (nodup_cons.mp (nodup_append.mp hnodup).2.1).1
  -- `*(ent->pprev_hash) = ent->next_hash`
  obtain ⟨s₁, hs₁, hstore₁, hkept₁⟩ := writePlace_spec (s := s) (x := endLoc (.head h) pre)
    (fun b hb => hmem b (mem_append_left _ (hplace b hb))) e.nextHash
  -- the entry itself is as before
  obtain ⟨e₁, he₁, -⟩ := hkept₁.allocated he
  have hne : (.next a : Place) ≠ endLoc (.head h) pre := endLoc_ne_next hapre
  have hnext₁ : e₁.nextHash = e.nextHash := by
    have hget : s₁.store.get (.next a) = s.store.get (.next a) := by
      rw [hstore₁, Store.get_set_of_ne _ hne]
    simpa [Priv.store, Store.get, he, he₁] using hget
  have hpprev₁ : e₁.pprevHash = e.pprevHash := by
    have hback : s₁.store.back a = s.store.back a := by rw [hstore₁, Store.back_set]
    simpa [Priv.store, he, he₁] using hback
  have hfirst : ∀ b, e₁.nextHash = some b → ∃ e, s₁.heap b = some e := by
    intro b hb
    rw [hnext₁, hnext] at hb
    obtain ⟨d, hd⟩ := hmem b (mem_append_right _ (mem_cons_of_mem _ (mem_of_mem_head? hb)))
    obtain ⟨d', hd', -⟩ := hkept₁.allocated hd
    exact ⟨d', hd'⟩
  obtain ⟨s₂, hs₂, hstore₂, hkept₂⟩ := setPprev_spec hfirst e₁.pprevHash
  obtain ⟨e₂, he₂, -⟩ := (hkept₁.trans hkept₂).allocated he
  have hstored : s₂.store = s.store.cut some (endLoc (.head h) pre) a := by
    have hsnext : s.store.next a = e.nextHash := by simp [Priv.store, he]
    rw [hstore₂, hstore₁, hnext₁, hpprev₁, hpprev, Store.cut, hsnext]
  let e₃ : Entry := { e₂ with nextHash := none, pprevHash := none }
  have hkept₃ := relinked_update (s := s₂) he₂ (rfl : e₃.body = e₂.body)
  refine ⟨_, ?_, ?_, (hkept₁.trans hkept₂).trans hkept₃⟩
  · simp only [networkHashUnlink, he, hpprev, hs₁, he₁, hs₂, modify_eq he₂, bind_eq_bind,
      bind_some]
    rfl
  · rw [store_update, hstored]
    refine (unlinkedAt_cut _ a).of_self hne.symm (fun hself => hapost ?_) none none
    rw [hs.forest.next_eq hr] at hself
    exact mem_of_mem_head? hself

/-- The entry and its memory are gone, the rest is as before. -/
theorem remove_spec (hs : Chained s lists) {pre post : List ℕ} (hr : lists h = pre ++ a :: post) :
    ∃ s', remove a s = some s' ∧ Chained s' (update lists h (pre ++ post)) ∧
      s'.bodies = update s.bodies a none ∧ s'.side = s.side := by
  obtain ⟨s₁, hs₁, hunlinked, hkept⟩ := networkHashUnlink_spec hs hr
  have hheap : ∀ b, b ≠ a → (s₁.kfree a).heap b = s₁.heap b := fun b hb => update_of_ne hb ..
  have hbodies : (s₁.kfree a).bodies = update s.bodies a none := by
    rw [← hkept.bodies]
    exact bodies_update none
  have hback : ∀ {b c}, (s₁.kfree a).bodies b = some c → b ≠ a ∧ s.bodies b = some c := by
    intro b c hc
    rw [hbodies] at hc
    by_cases hb : b = a
    · rw [hb, update_self] at hc
      cases hc
    · rw [update_of_ne hb] at hc
      exact ⟨hb, hc⟩
  have hrest : ∀ {q b}, b ∈ update lists h (pre ++ post) q ↔ b ∈ lists q ∧ b ≠ a := by
    intro q b
    by_cases hq : q = h
    · subst hq
      have hnodup := hs.forest.nodup q
      have herase : pre ++ post = (lists q).erase a := by
        rw [hr] at hnodup ⊢
        have hapre : a ∉ pre := fun hin => (nodup_append.mp hnodup).2.2 a hin a mem_cons_self rfl
        rw [erase_append_right _ hapre, erase_cons_head]
      rw [update_self, herase, hnodup.mem_erase_iff, and_comm]
    · rw [update_of_ne hq]
      refine ⟨fun hb => ⟨hb, ?_⟩, fun hb => hb.1⟩
      rintro rfl
      exact hq (hs.forest.apart q h b hb (hr ▸ mem_append_right _ mem_cons_self))
  refine ⟨s₁.kfree a, ?_, .of_bodies ?_ (fun b c hc q => ?_) (fun b d c c' hc hc' => ?_), hbodies, hkept.side⟩
  · simp [remove, hs₁]
  · refine (hs.forest.unlink hr hunlinked).congr (fun _ => rfl) fun q b hb => ?_
    have hne := (hrest.mp hb).2
    simp [Priv.store, hheap b hne]
  · obtain ⟨hne, hc⟩ := hback hc
    rw [hrest, hs.mem_chain_iff hc, and_iff_left hne, ← hkept.size]
    rfl
  · exact hs.eq_of_addr (hback hc).2 (hback hc').2

end Links

/-! ### The loops -/

section Loops

variable {s : Priv} {h : ℕ} {lists : ℕ → List ℕ} {fuel : ℕ}

/-- The entry has the address. -/
def matchesAddr (s : Priv) (networkAddr : NetworkAddr) (a : ℕ) : Bool :=
  (s.heap a).any fun e => e.networkAddr = networkAddr

/-- The search goes through the chain and stops at the first match. -/
theorem findEntry_spec (hs : Chained s lists) (networkAddr : NetworkAddr) (pre : List ℕ) {l : List ℕ}
    (hr : lists h = pre ++ l) (hfuel : l.length ≤ fuel) :
    findEntry s networkAddr fuel l.head? = some (l.find? (matchesAddr s networkAddr)) := by
  induction l generalizing pre fuel with
  | nil => cases fuel <;> rfl
  | cons a l ih =>
    cases fuel with
    | zero => exact absurd hfuel (Nat.not_succ_le_zero _)
    | succ fuel =>
      obtain ⟨e, he⟩ := hs.allocated (hr ▸ mem_append_right _ mem_cons_self)
      have hnext := hs.nextHash_eq hr he
      have hrest := ih (pre ++ [a]) (by simpa using hr) (Nat.le_of_succ_le_succ hfuel)
      by_cases haddr : e.networkAddr = networkAddr
      · simp [findEntry, matchesAddr, he, haddr]
      · have hno : matchesAddr s networkAddr a = false := by simp [matchesAddr, he, haddr]
        rw [List.head?_cons, List.find?_cons_of_neg (by simp [hno]), ← hrest, ← hnext]
        simp [findEntry, he, haddr]

/-- The search finds the entry of the address, if there is one. -/
theorem find_spec (hs : Chained s lists) (networkAddr : NetworkAddr)
    (hfuel : ∀ h, (lists h).length ≤ fuel) :
    ∃ found, findEntry s networkAddr fuel (s.nethash (networkHash s.hashSize networkAddr)) = some found ∧
      (∀ a, found = some a → ∃ e, s.heap a = some e ∧ e.networkAddr = networkAddr) ∧
      (found = none → ∀ a b, s.bodies a = some b → b.networkAddr ≠ networkAddr) := by
  have hhead : s.nethash (networkHash s.hashSize networkAddr) = (lists (networkHash s.hashSize networkAddr)).head? :=
    hs.forest.head_eq _
  have hfind := findEntry_spec hs networkAddr [] (h := networkHash s.hashSize networkAddr) rfl
    (hfuel (networkHash s.hashSize networkAddr))
  refine ⟨_, hhead ▸ hfind, fun a ha => ?_, fun hnone a b hb haddr => ?_⟩
  · have hmatch := List.find?_some ha
    unfold matchesAddr at hmatch
    cases hheap : s.heap a with
    | none => simp [hheap] at hmatch
    | some e => exact ⟨e, rfl, by simpa [hheap] using hmatch⟩
  · obtain ⟨e, he, rfl⟩ := bodies_eq_some.mp hb
    have haddr : e.networkAddr = networkAddr := haddr
    have hmem := hs.owned a e he
    rw [haddr] at hmem
    have hno := List.find?_eq_none.mp hnone a hmem
    simp [matchesAddr, he, haddr] at hno

end Loops

/-! ### Sweeps -/

section Sweeps

variable {σ : Type} (priv : σ → Priv) (Inv : σ → Prop) (f : Body → Option Body) (body : ℕ → σ → Option σ)

/-- The body changes what an entry holds, or takes the entry out, as `f` says. -/
structure Sweeps : Prop where
  step : ∀ {x lists h pre a post b}, Inv x → Chained (priv x) lists → lists h = pre ++ a :: post →
    (priv x).bodies a = some b →
    ∃ x', body a x = some x' ∧ Inv x' ∧
      Chained (priv x') (update lists h (pre ++ ((f b).elim [] (fun _ => [a]) ++ post))) ∧
      (priv x').bodies = update (priv x).bodies a (f b)

variable {priv Inv f body} {x : σ} {lists : ℕ → List ℕ} {h : ℕ} {fuel : ℕ}

/-- The entries of the rest of the chain are dealt with, the others are as they were. -/
theorem sweepChain_spec (hbody : Sweeps priv Inv f body) (hx : Inv x) (hs : Chained (priv x) lists) (pre : List ℕ)
    {l : List ℕ} (hr : lists h = pre ++ l) (hfuel : l.length ≤ fuel) :
    ∃ x' l', sweepChain priv body fuel l.head? x = some x' ∧ Inv x' ∧ l'.Sublist l ∧
      Chained (priv x') (update lists h (pre ++ l')) ∧
      ∀ c, (priv x').bodies c = if c ∈ l then ((priv x).bodies c).bind f else (priv x).bodies c := by
  induction l generalizing x lists pre fuel with
  | nil =>
    refine ⟨x, [], by cases fuel <;> rfl, hx, List.Sublist.refl _, ?_, fun c => by simp⟩
    rwa [← hr, update_eq_self]
  | cons a l ih =>
    cases fuel with
    | zero => exact absurd hfuel (Nat.not_succ_le_zero _)
    | succ fuel =>
      obtain ⟨e, he⟩ := hs.allocated (hr ▸ mem_append_right _ mem_cons_self)
      have hnext := hs.nextHash_eq hr he
      have hnodup := hs.forest.nodup h
      rw [hr] at hnodup
      have hal : a ∉ l := (nodup_cons.mp (nodup_append.mp hnodup).2.1).1
      obtain ⟨x₁, hx₁, hinv₁, hchained₁, hbodies₁⟩ := hbody.step hx hs hr (bodies_of_heap he)
      set kept : List ℕ := (f e.body).elim [] fun _ => [a] with hkept
      have hr₁ : update lists h (pre ++ (kept ++ l)) h = (pre ++ kept) ++ l := by
        rw [update_self, append_assoc]
      obtain ⟨x₂, l₂, hx₂, hinv₂, hsub, hchained₂, hbodies₂⟩ :=
        ih hinv₁ hchained₁ (pre ++ kept) hr₁ (Nat.le_of_succ_le_succ hfuel)
      rw [update_idem, append_assoc] at hchained₂
      refine ⟨x₂, kept ++ l₂, ?_, hinv₂, ?_, hchained₂, fun c => ?_⟩
      · simp [sweepChain, he, hx₁, hnext, hx₂]
      · rw [hkept]
        cases f e.body with
        | none => exact hsub.cons a
        | some b => exact hsub.cons_cons a
      · rw [hbodies₂, hbodies₁]
        by_cases hc : c = a
        · simp [hc, hal, bodies_of_heap he]
        · simp [hc]

/-- Every entry of the database is dealt with once. -/
theorem sweepChains_spec (hbody : Sweeps priv Inv f body) (hx : Inv x) (hs : Chained (priv x) lists)
    (hfuel : ∀ h, (lists h).length ≤ fuel) :
    ∃ x' lists', sweepChains priv body fuel x = some x' ∧ Inv x' ∧ Chained (priv x') lists' ∧
      (∀ h, (lists' h).Sublist (lists h)) ∧ ∀ c, (priv x').bodies c = ((priv x).bodies c).bind f := by
  suffices H : ∀ (is : List ℕ), is.Nodup → ∀ {x lists}, Inv x → Chained (priv x) lists →
      (∀ h, (lists h).length ≤ fuel) →
      ∃ x' lists', is.foldlM (fun x i => sweepChain priv body fuel ((priv x).nethash i) x) x = some x' ∧
        Inv x' ∧ Chained (priv x') lists' ∧ (∀ h, (lists' h).Sublist (lists h)) ∧
        ∀ c, (priv x').bodies c =
          if ∃ i ∈ is, c ∈ lists i then ((priv x).bodies c).bind f else (priv x).bodies c by
    obtain ⟨x', lists', hx', hinv, hchained, hsub, hbodies⟩ := H _ nodup_range hx hs hfuel
    refine ⟨x', lists', hx', hinv, hchained, hsub, fun c => (hbodies c).trans ?_⟩
    cases hb : (priv x).bodies c with
    | none => simp
    | some b =>
      have hin : c ∈ lists (networkHash (priv x).hashSize b.networkAddr) := hs.mem_iff.mpr ⟨b, hb, rfl⟩
      exact if_pos ⟨_, mem_range.mpr (networkHash_lt (priv x).hashPos _), hin⟩
  intro is
  induction is with
  | nil => exact fun _ x lists hx hs _ => ⟨x, lists, rfl, hx, hs, fun _ => List.Sublist.refl _, fun c => by simp⟩
  | cons i is ih =>
    intro hnodup x lists hx hs hfuel
    obtain ⟨hi, hnodup⟩ := nodup_cons.mp hnodup
    have hhead : (priv x).nethash i = (lists i).head? := hs.forest.head_eq i
    obtain ⟨x₁, l', hx₁, hinv₁, hsub, hchained₁, hbodies₁⟩ :=
      sweepChain_spec hbody hx hs [] (h := i) rfl (hfuel i)
    have hsub₁ : ∀ h, (update lists i ([] ++ l') h).Sublist (lists h) := by
      intro h
      by_cases hi : h = i
      · rw [hi, update_self]
        exact hsub
      · rw [update_of_ne hi]
    obtain ⟨x₂, lists₂, hx₂, hinv₂, hchained₂, hsub₂, hbodies₂⟩ :=
      ih hnodup hinv₁ hchained₁ fun h => (hsub₁ h).length_le.trans (hfuel h)
    refine ⟨x₂, lists₂, ?_, hinv₂, hchained₂, fun h => (hsub₂ h).trans (hsub₁ h), fun c => ?_⟩
    · simp [hhead, hx₁, hx₂]
    · have hother : (∃ j ∈ is, c ∈ update lists i ([] ++ l') j) ↔ ∃ j ∈ is, c ∈ lists j := by
        refine exists_congr fun j => and_congr_right fun hj => ?_
        have hne : j ≠ i := fun heq => hi (heq ▸ hj)
        rw [update_of_ne hne]
      rw [hbodies₂, hbodies₁, if_congr hother rfl rfl]
      by_cases hc : c ∈ lists i
      · -- no other chain has the entry
        have hno : ¬∃ j ∈ is, c ∈ lists j := by
          rintro ⟨j, hj, hcj⟩
          exact hi (hs.forest.apart j i c hcj hc ▸ hj)
        rw [if_neg hno, if_pos hc, if_pos ⟨i, mem_cons_self, hc⟩]
      · simp [hc]

/-- What a sweep at jiffies `j` makes of an entry. -/
def aged (p : Ageing) (j : ℕ) (b : Body) : Option Body :=
  if b.expired p j then
    if b.useCount - 1 = 0 then none else some { b with useCount := b.useCount - 1 }
  else some b

theorem sweeps_expireWith {withPriv : σ → Priv → σ} {drop : Entry → ℕ → σ → Option σ} (p : Ageing) {j : ℕ}
    (hclock : ∀ x, Inv x → (priv x).jiffies = j)
    (hput : ∀ x a e e', Inv x → (priv x).heap a = some e →
      let s := { priv x with heap := update (priv x).heap a (some e') }
      Inv (withPriv x s) ∧ priv (withPriv x s) = s)
    (hdrop : ∀ e, Sweeps priv Inv (fun _ => none) (drop e)) :
    Sweeps priv Inv (aged p j) (expireWith priv withPriv drop p) where
  step {x lists h pre a post b} hx hs hr hb := by
    obtain ⟨e, he, rfl⟩ := bodies_eq_some.mp hb
    have hrun : e.body.expired p j = hasExpired p (priv x) e := by
      rw [← hclock x hx]
      rfl
    have hstay : update lists h (pre ++ ([a] ++ post)) = lists := by
      rw [singleton_append, ← hr, update_eq_self]
    cases hout : hasExpired p (priv x) e with
    | false =>
      have haged : aged p j e.body = some e.body := by simp [aged, hrun, hout]
      refine ⟨x, by simp [expireWith, he, hout], hx, ?_, ?_⟩
      · rwa [haged, elim_some, hstay]
      · rw [haged, ← hb, update_eq_self]
    | true =>
      set s : Priv := { priv x with heap := update (priv x).heap a (some { e with useCount := e.useCount - 1 }) }
      obtain ⟨hinv, hpriv⟩ : Inv (withPriv x s) ∧ priv (withPriv x s) = s := hput x a e _ hx he
      have hmodify : (priv x).modify a (fun e => { e with useCount := e.useCount - 1 }) = some s := modify_eq he _
      have hchained : Chained (priv (withPriv x s)) lists := by
        rw [hpriv]
        exact hs.modify he rfl rfl rfl
      have hbodies : (priv (withPriv x s)).bodies =
          update (priv x).bodies a (some { e.body with useCount := e.useCount - 1 }) := by
        rw [hpriv]
        exact bodies_update _
      by_cases hlast : e.useCount - 1 = 0
      · have haged : aged p j e.body = none := by
          rw [aged, hrun, hout, if_pos rfl]
          exact if_pos hlast
        obtain ⟨x', hx', hinv', hchained', hbodies'⟩ :=
          (hdrop e).step hinv hchained hr (by rw [hbodies, update_self])
        refine ⟨x', by simp [expireWith, he, hout, hmodify, hlast, hx'], hinv', ?_, ?_⟩
        · rwa [haged]
        · rw [haged, hbodies', hbodies, update_idem]
      · have haged : aged p j e.body = some { e.body with useCount := e.useCount - 1 } := by
          rw [aged, hrun, hout, if_pos rfl]
          exact if_neg hlast
        refine ⟨_, by simp [expireWith, he, hout, hmodify, hlast], hinv, ?_, ?_⟩
        · rwa [haged, elim_some, hstay]
        · rw [haged, hbodies]

end Sweeps

/-! ### The two sweeps -/

theorem sweeps_remove (j : ℕ) (disable : Bool) :
    Sweeps id (fun s => s.jiffies = j ∧ s.nat25Disable = disable) (fun _ => none) remove where
  step {s lists h pre a post b} hinv hs hr hb := by
    obtain ⟨s', hs', hchained, hbodies, hside⟩ := remove_spec hs hr
    have hjiffies : s'.jiffies = s.jiffies := congrArg (·.2.2.2) hside
    have hdisable : s'.nat25Disable = s.nat25Disable := congrArg (·.2.2.1) hside
    exact ⟨s', hs', ⟨hjiffies.trans hinv.1, hdisable.trans hinv.2⟩, hchained, hbodies⟩

theorem sweeps_forget (e : Entry) (j : ℕ) (disable : Bool) :
    Sweeps id (fun s => s.jiffies = j ∧ s.nat25Disable = disable) (fun _ => none) (forget e) where
  step {s lists h pre a post b} hinv hs hr hb := by
    unfold forget
    split
    · exact (sweeps_remove j disable).step (x := { s with scdbMac := Vector.replicate 6 0, scdbIp := 0 }) hinv
        (hs.congr rfl rfl fun _ => rfl) hr hb
    · exact (sweeps_remove j disable).step hinv hs hr hb

theorem sweeps_expireEntry (p : Ageing) (j : ℕ) (disable : Bool) :
    Sweeps id (fun s => s.jiffies = j ∧ s.nat25Disable = disable) (aged p j) (expireEntry p) :=
  sweeps_expireWith p (fun _ hinv => hinv.1) (fun _ _ _ _ hinv _ => ⟨hinv, rfl⟩) fun e => sweeps_forget e j disable

end PhoebusBsp.Nat25

import PhoebusBsp.Nat25.Operations
import PhoebusBsp.Schemes.Machine

/-! The database as a map that forgets. For every address the map knows the station and the time of the
    latest insert since the last cleanup, and it answers with the station as long as that is less than the
    ageing time ago:

        insert k m      last k := (m, now)
        cleanup         last := nothing
        expire          -
        lookup k        last k = (m, t) and now - t < ageing time:  m
                        otherwise:                                  the frame as it is

    The database holds an entry for every address that the map would still answer. -/

namespace PhoebusBsp.Nat25
open Schemes Linked Option

structure AgeingMap where
  now : ℕ
  last : NetworkAddr → Option (Mac × ℕ)

def AgeingMap.step (m : AgeingMap) : Event → AgeingMap
  | .tick n => { m with now := m.now + n }
  | .insert _ macAddr networkAddr =>
    { m with last := Function.update m.last networkAddr (some (macAddr, m.now)) }
  | .cleanup => { m with last := fun _ => none }
  | .lookup .. | .expire => m

def AgeingMap.answer (p : Ageing) (m : AgeingMap) (networkAddr : NetworkAddr) (skb : Bytes) : Bytes :=
  match m.last networkAddr with
  | some (macAddr, t) => if m.now - t < p.jiffies then setDestination skb macAddr else skb
  | none => skb

/-- Less than half the range of the counter has passed since the last insert of the entry. -/
def Young (s : Priv) (m : AgeingMap) (networkAddr : NetworkAddr) : Prop :=
  ∀ a e, s.heap a = some e → e.networkAddr = networkAddr →
    ∀ macAddr t, m.last networkAddr = some (macAddr, t) → m.now < t + 2 ^ 31

/-- An allocation gets memory that is not in use, and no entry is used too late. -/
def Allowed (s : Priv) (m : AgeingMap) : Event → Prop
  | .insert kmalloc _ _ => ∃ q, kmalloc = some q ∧ s.heap q = none
  | .lookup _ networkAddr => Young s m networkAddr
  | .expire => ∀ networkAddr, Young s m networkAddr
  | .tick _ | .cleanup => True

/-! ### Time -/

theorem timeBeforeEq_timeout_iff (p : Ageing) {now t : ℕ} (hle : t ≤ now) (hlt : now < t + 2 ^ 31) :
    timeBeforeEq (UInt32.ofNat t) (timeout p (UInt32.ofNat now)) = true ↔ p.jiffies ≤ now - t := by
  have hfits : p.jiffies ≤ 2 ^ 31 := p.fits
  rw [timeBeforeEq, timeout, decide_eq_true_eq, UInt32.toNat_sub, UInt32.toNat_sub, UInt32.toNat_ofNat',
    UInt32.toNat_ofNat', UInt32.toNat_ofNat']
  omega

/-! ### The database follows the map -/

/-- The entries are what the map knows, and what the map would still answer has an entry. -/
structure Tracks (p : Ageing) (s : Priv) (m : AgeingMap) (lists : ℕ → List ℕ) : Prop where
  chained : Chained s lists
  now : s.jiffies = m.now
  said : ∀ a e, s.heap a = some e → ∃ t, m.last e.networkAddr = some (e.macAddr, t) ∧ t ≤ m.now ∧
    e.ageingTimer = UInt32.ofNat t
  known : ∀ networkAddr macAddr t, m.last networkAddr = some (macAddr, t) →
    (∃ a e, s.heap a = some e ∧ e.networkAddr = networkAddr) ∨ t + p.jiffies ≤ m.now

/-- What the database holds for an address, and what the map knows about it. -/
structure Agrees (p : Ageing) (now : ℕ) (o : Option Body) (known : Option (Mac × ℕ)) : Prop where
  said : ∀ {b}, o = some b → ∃ t, known = some (b.macAddr, t) ∧ t ≤ now ∧ b.ageingTimer = UInt32.ofNat t
  known : ∀ {macAddr t}, known = some (macAddr, t) → o.isSome ∨ t + p.jiffies ≤ now

section Tracks

variable {p : Ageing} {s s' : Priv} {m : AgeingMap} {lists : ℕ → List ℕ} {fuel now : ℕ} {o : Option Body}
  {known : Option (Mac × ℕ)} {k : NetworkAddr}

/-- The database follows the map when it does so at every address. -/
theorem tracks_iff : Tracks p s m lists ↔
    Chained s lists ∧ s.jiffies = m.now ∧ ∀ k, Agrees p m.now (s.entry k) (m.last k) := by
  constructor
  · refine fun hs => ⟨hs.chained, hs.now, fun k => ⟨fun hb => ?_, fun hlast => ?_⟩⟩
    · obtain ⟨a, hbody, rfl⟩ := hs.chained.entry_eq_some.mp hb
      obtain ⟨e, he, rfl⟩ := bodies_eq_some.mp hbody
      exact hs.said a e he
    · rcases hs.known k _ _ hlast with ⟨a, e, he, haddr⟩ | hold
      · rw [hs.chained.entry_eq_some.mpr ⟨a, bodies_of_heap he, haddr⟩]
        exact Or.inl rfl
      · exact Or.inr hold
  · rintro ⟨hchained, hnow, hagrees⟩
    refine ⟨hchained, hnow, fun a e he => ?_, fun k macAddr t hlast => ?_⟩
    · have hentry := hchained.entry_of_body (bodies_of_heap he)
      exact (hagrees e.networkAddr).said hentry
    · rcases (hagrees k).known hlast with hsome | hold
      · obtain ⟨b, hb⟩ := isSome_iff_exists.mp hsome
        obtain ⟨a, hb, haddr⟩ := hchained.entry_eq_some.mp hb
        obtain ⟨e, he, rfl⟩ := bodies_eq_some.mp hb
        exact Or.inl ⟨a, e, he, haddr⟩
      · exact Or.inr hold

theorem Young.last (h : Young s m k) (hs : Chained s lists) {b : Body} (hb : s.entry k = some b) {macAddr : Mac}
    {t : ℕ} (hlast : m.last k = some (macAddr, t)) : m.now < t + 2 ^ 31 := by
  obtain ⟨a, hb, haddr⟩ := hs.entry_eq_some.mp hb
  obtain ⟨e, he, rfl⟩ := bodies_eq_some.mp hb
  exact h a e he haddr macAddr t hlast

/-- Whether the code takes an entry for expired. -/
theorem Agrees.expired_iff {b : Body} (h : Agrees p now (some b) known)
    (hyoung : ∀ {macAddr t}, known = some (macAddr, t) → now < t + 2 ^ 31) :
    ∃ t, known = some (b.macAddr, t) ∧ t ≤ now ∧ (b.expired p now = true ↔ t + p.jiffies ≤ now) := by
  obtain ⟨t, hlast, hle, htimer⟩ := h.said rfl
  refine ⟨t, hlast, hle, ?_⟩
  rw [Body.expired, htimer, timeBeforeEq_timeout_iff p hle (hyoung hlast)]
  omega

/-- A lookup gives the answer of the map. -/
theorem Agrees.answer (h : Agrees p m.now o (m.last k))
    (hyoung : ∀ {b macAddr t}, o = some b → m.last k = some (macAddr, t) → m.now < t + 2 ^ 31) (skb : Bytes) :
    (found p m.now o).2.elim skb (setDestination skb) = m.answer p k skb := by
  cases o with
  | some b =>
    obtain ⟨t, hlast, hle, hiff⟩ := h.expired_iff (hyoung rfl)
    have hshort : m.now - t < p.jiffies ↔ ¬b.expired p m.now = true := by
      rw [hiff]
      omega
    by_cases hout : b.expired p m.now = true <;> simp [found, AgeingMap.answer, hlast, hshort, hout]
  | none =>
    cases hlast : m.last k with
    | none => simp [found, AgeingMap.answer, hlast]
    | some last =>
      rcases h.known hlast with hsome | hold
      · cases hsome
      · have hlong : ¬m.now - last.2 < p.jiffies := by omega
        simp [found, AgeingMap.answer, hlast, hlong]

/-! #### Steps -/

/-- What is left of an entry says what the entry said. -/
theorem Agrees.of_same (h : Agrees p now o known) {o' : Option Body}
    (hkept : ∀ {b'}, o' = some b' → ∃ b, o = some b ∧ b'.macAddr = b.macAddr ∧ b'.ageingTimer = b.ageingTimer)
    (hgone : ∀ {macAddr t}, known = some (macAddr, t) → o.isSome → o'.isSome ∨ t + p.jiffies ≤ now) :
    Agrees p now o' known where
  said hb' := by
    obtain ⟨b, hb, hmac, htimer⟩ := hkept hb'
    rw [hmac, htimer]
    exact h.said hb
  known hlast := (h.known hlast).elim (hgone hlast) Or.inr

theorem Agrees.looked (h : Agrees p now o known) (j : ℕ) : Agrees p now (o.map (looked p j)) known := by
  refine h.of_same (fun hb' => ?_) fun _ hsome => Or.inl (by rwa [isSome_map])
  obtain ⟨b, rfl, rfl⟩ := map_eq_some_iff.mp hb'
  refine ⟨b, rfl, ?_⟩
  unfold Nat25.looked
  split <;> exact ⟨rfl, rfl⟩

theorem Agrees.aged (h : Agrees p now o known)
    (hyoung : ∀ {b macAddr t}, o = some b → known = some (macAddr, t) → now < t + 2 ^ 31) :
    Agrees p now (o.bind (aged p now)) known := by
  refine h.of_same (fun {b'} hb' => ?_) fun {macAddr t} hlast hsome => ?_
  · obtain ⟨b, rfl, haged⟩ := bind_eq_some_iff.mp hb'
    unfold Nat25.aged at haged
    split_ifs at haged <;> obtain rfl := some.inj haged <;> exact ⟨b, rfl, rfl, rfl⟩
  · obtain ⟨b, rfl⟩ := isSome_iff_exists.mp hsome
    obtain ⟨t', hlast', -, hiff⟩ := h.expired_iff (hyoung rfl)
    obtain rfl : t' = t := congrArg Prod.snd (some.inj (hlast'.symm.trans hlast))
    by_cases hout : b.expired p now = true
    · exact Or.inr (hiff.mp hout)
    · exact Or.inl (by simp [Nat25.aged, hout])

/-- Every call returns, and the database goes on to follow the map. -/
theorem Tracks.step (hs : Tracks p s m lists) {n : ℕ} (hn : ∀ h, (lists h).length ≤ n) (hfuel : n ≤ fuel)
    (e : Event) (hallowed : Allowed s m e) :
    ∃ s', Nat25.step p fuel s e = some s' ∧
      ∃ lists', (∀ h, (lists' h).length ≤ n + 1) ∧ Tracks p s' (m.step e) lists' := by
  obtain ⟨hchained, hnow, hagrees⟩ := tracks_iff.mp hs
  have hfresh : e.Allocates s := by
    cases e with
    | insert kmalloc macAddr k' =>
      obtain ⟨q, rfl, hq⟩ := hallowed
      exact fun q' hq' => some.inj hq' ▸ hq
    | _ => trivial
  obtain ⟨s', lists', hs', hchained', hlength, hj, -, hentry⟩ := step_spec (p := p) e hchained hn hfuel hfresh
  refine ⟨s', hs', lists', hlength, tracks_iff.mpr ⟨hchained', ?_, fun k => ?_⟩⟩
  · rw [hj, hnow]
    cases e <;> rfl
  · rw [hentry k]
    cases e with
    | tick d =>
      refine ⟨fun hb => ?_, fun hlast => ((hagrees k).known hlast).imp_right Nat.le_add_right_of_le⟩
      obtain ⟨t, hlast, hle, htimer⟩ := (hagrees k).said hb
      exact ⟨t, hlast, Nat.le_add_right_of_le hle, htimer⟩
    | insert kmalloc macAddr k' =>
      obtain ⟨q, rfl, -⟩ := hallowed
      simp only [Event.effect, AgeingMap.step, Function.update_apply]
      split_ifs with hk
      · have hclock : s.clock = UInt32.ofNat m.now := by rw [Priv.clock, hnow]
        cases s.entry k <;> simp only [inserted, isSome_some, if_true] <;>
          refine ⟨fun hb => ?_, fun _ => Or.inl rfl⟩ <;> obtain rfl := some.inj hb <;>
          exact ⟨m.now, rfl, le_rfl, hclock⟩
      · exact hagrees k
    | lookup skb k' =>
      simp only [Event.effect]
      split_ifs
      · exact (hagrees k).looked s.jiffies
      · exact hagrees k
    | expire =>
      simp only [Event.effect, hnow]
      split_ifs
      · exact hagrees k
      · exact (hagrees k).aged fun hb => (hallowed k).last hchained hb
    | cleanup => exact ⟨fun h => (by cases h), fun h => (by cases h)⟩

end Tracks

/-! ### Runs -/

def calls (p : Ageing) (fuel : ℕ) (s : Priv) (es : List Event) : Option Priv := es.foldlM (step p fuel) s

/-- Every call is allowed in the state that it meets, after what `next` has made of the calls before. -/
def AllowedCalls {σ : Type} (p : Ageing) (fuel : ℕ) (allowed : Priv → σ → Event → Prop) (next : σ → Event → σ) :
    Priv → σ → List Event → Prop
  | _, _, [] => True
  | s, m, e :: es =>
    allowed s m e ∧ ∀ s', step p fuel s e = some s' → AllowedCalls p fuel allowed next s' (next m e) es

/-- No entries yet. -/
structure Priv.Fresh (s : Priv) : Prop where
  nethash : ∀ h, s.nethash h = none
  heap : ∀ a, s.heap a = none

def AgeingMap.empty (now : ℕ) : AgeingMap := ⟨now, fun _ => none⟩

theorem chained_fresh {s : Priv} (hs : s.Fresh) : Chained s fun _ => [] where
  forest := ⟨fun h => ⟨trivial, hs.nethash h⟩, fun _ _ _ ha => absurd ha List.not_mem_nil⟩
  bucket _ _ ha := absurd ha List.not_mem_nil
  owned a _ he := nomatch (hs.heap a).symm.trans he
  unique a _ _ _ he := nomatch (hs.heap a).symm.trans he

theorem tracks_fresh (p : Ageing) {s : Priv} (hs : s.Fresh) :
    Tracks p s (.empty s.jiffies) fun _ => [] where
  chained := chained_fresh hs
  now := rfl
  said a _ he := nomatch (hs.heap a).symm.trans he
  known _ _ _ hlast := nomatch hlast

/-- However the database is used, its chains are well formed and a lookup gives the answer of the map;
    as many turns as there were calls are enough for every loop. -/
theorem database_is_ageing_map (p : Ageing) (s₀ : Priv) (hfresh : s₀.Fresh) (es : List Event) (fuel : ℕ)
    (hfuel : es.length ≤ fuel) (hallowed : AllowedCalls p fuel Allowed AgeingMap.step s₀ (.empty s₀.jiffies) es) :
    ∃ s lists, calls p fuel s₀ es = some s ∧ Chained s lists ∧
      ∀ skb networkAddr, Young s (run AgeingMap.step (.empty s₀.jiffies) es) networkAddr →
        ∃ ret s', dbNetworkLookupAndReplace p fuel s skb networkAddr =
          some (ret, (run AgeingMap.step (.empty s₀.jiffies) es).answer p networkAddr skb, s') := by
  have hbound : 0 + es.length ≤ fuel := by rwa [Nat.zero_add]
  obtain ⟨s, hs, lists, hlength, htracks⟩ := foldlM_simulates
    (R := fun n s m => ∃ lists : ℕ → List ℕ, (∀ h, (lists h).length ≤ n) ∧ Tracks p s m lists)
    (fun e hle ⟨_, hn, ht⟩ hok => ht.step hn hle e hok) id es ⟨_, fun _ => le_rfl, tracks_fresh p hfresh⟩
      hallowed hbound
  obtain ⟨hchained, hnow, hagrees⟩ := tracks_iff.mp htracks
  refine ⟨s, lists, hs, hchained, fun skb networkAddr hyoung => ?_⟩
  obtain ⟨ret, mac, s', hs', hchained', -, hfinds⟩ :=
    dbLookup_spec p hchained (fun h => (hlength h).trans hbound) networkAddr
  have hfound : mac = (found p s.jiffies (s.entry networkAddr)).2 :=
    congrArg Prod.snd (hfinds.entry hchained hchained').1
  refine ⟨ret, s', ?_⟩
  rw [dbNetworkLookupAndReplace_eq, hs', map_some, hfound, hnow]
  simp only [(hagrees networkAddr).answer (fun hb => hyoung.last hchained hb) skb]

def sampleAgeing : Ageing := ⟨300, 100, by decide⟩

def samplePriv : Priv := emptyPriv 4294967290

/-- The counter wraps between the insert and the lookup. -/
def sampleCalls : List Event :=
  [.insert (some 0) (Vector.replicate 6 7) (Vector.replicate 17 1), .tick 10,
    .lookup (fun _ => 0) (Vector.replicate 17 1), .expire]

theorem sampleCalls_allowed :
    AllowedCalls sampleAgeing 4 Allowed AgeingMap.step samplePriv (.empty samplePriv.jiffies) sampleCalls := by
  have hyoung : ∀ (s : Priv) (k : NetworkAddr),
      Young s (run AgeingMap.step (.empty samplePriv.jiffies) (sampleCalls.take 2)) k := by
    intro s k a e _ _ macAddr t hlast
    have hlast' : Function.update (fun _ => none) (Vector.replicate 17 1)
        (some (Vector.replicate 6 7, samplePriv.jiffies)) k = some (macAddr, t) := hlast
    by_cases hk : k = Vector.replicate 17 1
    · rw [hk, Function.update_self] at hlast'
      obtain rfl := (Prod.mk.inj (some.inj hlast')).2
      decide
    · rw [Function.update_of_ne hk] at hlast'
      cases hlast'
  exact ⟨⟨0, rfl, rfl⟩, fun s _ => ⟨trivial, fun s _ => ⟨hyoung s _, fun s _ => ⟨hyoung s, fun _ _ => trivial⟩⟩⟩⟩

theorem database_is_ageing_map_sample :
    ∃ s lists, calls sampleAgeing 4 samplePriv sampleCalls = some s ∧ Chained s lists ∧
      ∀ skb networkAddr, Young s (run AgeingMap.step (.empty 4294967290) sampleCalls) networkAddr →
        ∃ ret s', dbNetworkLookupAndReplace sampleAgeing 4 s skb networkAddr =
          some (ret, (run AgeingMap.step (.empty 4294967290) sampleCalls).answer sampleAgeing networkAddr skb, s') :=
  database_is_ageing_map sampleAgeing samplePriv ⟨fun _ => rfl, fun _ => rfl⟩ sampleCalls 4 (by decide)
    sampleCalls_allowed

end PhoebusBsp.Nat25

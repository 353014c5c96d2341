import Mathlib.Data.Set.Card
import PhoebusBsp.Nat25.AgeingMap

/-! How long an entry outlives its ageing time.

    A lookup that hits gives the entry a reference, a sweep that meets it expired takes one away, and an
    insert renews the timer but leaves the references alone. An entry that has been hit `n` times is still
    there after `n` sweeps that met it expired:

        insert   lookup   lookup            sweep   sweep   sweep
          1        2        3    ... aged ...  2       1      gone

    The ledger has, for every address that has an entry, the time of the latest insert and the two counts. -/

namespace PhoebusBsp.Nat25
open Schemes Function List

/-! ### The ledger -/

/-- The history of an entry. -/
structure Record where
  /-- The time of the latest insert. -/
  inserted : ℕ
  /-- The lookups that have hit it. -/
  hits : ℕ
  /-- The sweeps that have met it expired. -/
  outlived : ℕ
  deriving DecidableEq

/-- The 32 bits of the counter make the entry look expired. -/
def Record.expired (p : Ageing) (now : ℕ) (r : Record) : Bool :=
  timeBeforeEq (UInt32.ofNat r.inserted) (timeout p (UInt32.ofNat now))

/-- What is left of the references are as many as there were sweeps to outlive. -/
def Record.spent (r : Record) : Prop := r.hits % 2 ^ 32 = r.outlived % 2 ^ 32

instance (r : Record) : Decidable r.spent := inferInstanceAs (Decidable (_ = _))

structure Ledger where
  now : ℕ
  record : NetworkAddr → Option Record
  /-- What was inserted, and when. -/
  log : List (NetworkAddr × ℕ)

def Record.renew (now : ℕ) (allocated : Bool) : Option Record → Option Record
  | some r => some { r with inserted := now }
  | none => if allocated then some ⟨now, 0, 0⟩ else none

def Record.looked (p : Ageing) (now : ℕ) (r : Record) : Record :=
  if r.expired p now then r else { r with hits := r.hits + 1 }

def Record.swept (p : Ageing) (now : ℕ) (r : Record) : Option Record :=
  if r.expired p now then if r.spent then none else some { r with outlived := r.outlived + 1 } else some r

def Ledger.step (p : Ageing) (m : Ledger) : Event → Ledger
  | .tick n => { m with now := m.now + n }
  | .insert kmalloc _ k =>
    { m with
      record := update m.record k (Record.renew m.now kmalloc.isSome (m.record k))
      log := (k, m.now) :: m.log }
  | .lookup _ k => { m with record := update m.record k ((m.record k).map (Record.looked p m.now)) }
  | .expire => { m with record := fun k => (m.record k).bind (Record.swept p m.now) }
  | .cleanup => { m with record := fun _ => none }

/-- The addresses inserted within the ageing time. -/
def Ledger.recent (p : Ageing) (m : Ledger) : Finset NetworkAddr :=
  ((m.log.filter fun x => m.now < x.2 + p.jiffies).map Prod.fst).toFinset

/-- A record is about the latest insert of its address. -/
structure Ledger.Logged (m : Ledger) : Prop where
  past : ∀ k t, (k, t) ∈ m.log → t ≤ m.now
  latest : ∀ k r, m.record k = some r → (k, r.inserted) ∈ m.log ∧ ∀ t, (k, t) ∈ m.log → t ≤ r.inserted

theorem Record.inserted_of_swept {p : Ageing} {now : ℕ} {r r' : Record} (h : r.swept p now = some r') :
    r'.inserted = r.inserted := by
  unfold Record.swept at h
  split_ifs at h <;> obtain rfl := Option.some.inj h <;> rfl

theorem Record.inserted_looked (p : Ageing) (now : ℕ) (r : Record) : (r.looked p now).inserted = r.inserted := by
  unfold Record.looked
  split <;> rfl

theorem Record.inserted_of_renew {now : ℕ} {allocated : Bool} {o : Option Record} {r : Record}
    (h : Record.renew now allocated o = some r) : r.inserted = now := by
  cases o with
  | some r' => obtain rfl := Option.some.inj h; rfl
  | none => cases allocated <;> simp [Record.renew] at h; rw [← h]

theorem Ledger.logged_step (p : Ageing) (m : Ledger) (e : Event) (hm : m.Logged) : (m.step p e).Logged := by
  cases e with
  | tick n => exact ⟨fun k t ht => Nat.le_add_right_of_le (hm.past k t ht), hm.latest⟩
  | insert kmalloc macAddr k' =>
    refine ⟨fun k t ht => ?_, fun k r hr => ?_⟩
    · rcases mem_cons.mp ht with heq | ht
      · exact (congrArg Prod.snd heq).le
      · exact hm.past k t ht
    · by_cases hk : k = k'
      · subst hk
        simp only [Ledger.step, update_self] at hr
        rw [Record.inserted_of_renew hr]
        refine ⟨mem_cons_self, fun t ht => ?_⟩
        rcases mem_cons.mp ht with heq | ht
        · exact (congrArg Prod.snd heq).le
        · exact hm.past k t ht
      · obtain ⟨hlog, hle⟩ := hm.latest k r ((update_of_ne hk ..).symm.trans hr)
        refine ⟨mem_cons_of_mem _ hlog, fun t ht => ?_⟩
        rcases mem_cons.mp ht with heq | ht
        · exact absurd (congrArg Prod.fst heq) hk
        · exact hle t ht
  | lookup skb k' =>
    refine ⟨hm.past, fun k r hr => ?_⟩
    by_cases hk : k = k'
    · subst hk
      simp only [Ledger.step, update_self] at hr
      obtain ⟨r', hr', rfl⟩ := Option.map_eq_some_iff.mp hr
      rw [Record.inserted_looked]
      exact hm.latest k r' hr'
    · exact hm.latest k r ((update_of_ne hk ..).symm.trans hr)
  | expire =>
    refine ⟨hm.past, fun k r hr => ?_⟩
    obtain ⟨r', hr', hswept⟩ := Option.bind_eq_some_iff.mp hr
    rw [Record.inserted_of_swept hswept]
    exact hm.latest k r' hr'
  | cleanup => exact ⟨hm.past, fun _ _ hr => nomatch hr⟩

theorem Ledger.Logged.recent_iff {m : Ledger} (hm : m.Logged) (p : Ageing) {k : NetworkAddr} {r : Record}
    (hr : m.record k = some r) : k ∈ m.recent p ↔ m.now < r.inserted + p.jiffies := by
  obtain ⟨hlog, hle⟩ := hm.latest k r hr
  simp only [Ledger.recent, mem_toFinset, mem_map, mem_filter, decide_eq_true_eq]
  constructor
  · rintro ⟨⟨_, t⟩, ⟨ht, hlt⟩, rfl⟩
    exact hlt.trans_le (Nat.add_le_add_right (hle t ht) _)
  · exact fun hlt => ⟨(k, r.inserted), ⟨hlog, hlt⟩, rfl⟩

/-! ### The database and the ledger -/

/-- The entry holds what the record says. -/
structure Fits (b : Body) (r : Record) : Prop where
  timer : b.ageingTimer = UInt32.ofNat r.inserted
  count : b.useCount = 1 + UInt32.ofNat r.hits - UInt32.ofNat r.outlived

/-- An address has an entry and a record, or neither. -/
inductive Paired (s : Priv) (m : Ledger) (k : NetworkAddr) : Prop where
  | unknown (hnone : ∀ a b, s.bodies a = some b → b.networkAddr ≠ k) (hrecord : m.record k = none)
  | known {a : ℕ} {b : Body} {r : Record} (hb : s.bodies a = some b) (haddr : b.networkAddr = k)
    (hrecord : m.record k = some r) (hfits : Fits b r)

structure Counted (s : Priv) (m : Ledger) (lists : ℕ → List ℕ) : Prop where
  chained : Chained s lists
  enabled : s.nat25Disable = false
  now : s.jiffies = m.now
  paired : ∀ k, Paired s m k

section Counted

variable {p : Ageing} {s s' : Priv} {m m' : Ledger} {lists lists' : ℕ → List ℕ} {fuel : ℕ} {a : ℕ} {b : Body}
  {r : Record} {k : NetworkAddr}

theorem Fits.expired (h : Fits b r) (p : Ageing) (now : ℕ) : b.expired p now = r.expired p now := by
  rw [Body.expired, h.timer, Record.expired]

theorem Fits.last_iff (h : Fits b r) : b.useCount - 1 = 0 ↔ r.spent := by
  have hzero : b.useCount - 1 = 0 ↔ UInt32.ofNat r.hits = UInt32.ofNat r.outlived := by
    rw [h.count]
    grind
  rw [hzero, Record.spent, ← UInt32.toNat_inj, UInt32.toNat_ofNat', UInt32.toNat_ofNat']

/-- A sweep does the same to both. -/
theorem Fits.swept (h : Fits b r) (p : Ageing) (now : ℕ) : Option.Rel Fits (aged p now b) (r.swept p now) := by
  simp only [aged, Record.swept, h.expired, h.last_iff]
  split_ifs
  · exact .none
  · refine .some ⟨h.timer, ?_⟩
    simp only [h.count, UInt32.ofNat_add]
    grind
  · exact .some h

theorem Fits.looked (h : Fits b r) (p : Ageing) (now : ℕ) : Fits (looked p now b) (r.looked p now) := by
  simp only [Nat25.looked, Record.looked, h.expired]
  split_ifs
  · exact h
  · refine ⟨h.timer, ?_⟩
    simp only [h.count, UInt32.ofNat_add]
    grind

theorem fits_inserted {o : Option Body} {o' : Option Record} (h : Option.Rel Fits o o') (now : ℕ) (allocated : Bool)
    (macAddr : Mac) (k : NetworkAddr) :
    Option.Rel Fits (inserted (UInt32.ofNat now) allocated macAddr k o) (Record.renew now allocated o') := by
  cases h with
  | some hfits => exact .some ⟨rfl, hfits.count⟩
  | none =>
    cases allocated with
    | false => exact .none
    | true => exact .some ⟨rfl, by simp⟩

theorem paired_iff (hs : Chained s lists) : Paired s m k ↔ Option.Rel Fits (s.entry k) (m.record k) := by
  constructor
  · rintro (⟨hnone, hrecord⟩ | ⟨hb, haddr, hrecord, hfits⟩)
    · rw [entry_eq_none.mpr hnone, hrecord]
      exact .none
    · rw [hs.entry_eq_some.mpr ⟨_, hb, haddr⟩, hrecord]
      exact .some hfits
  · generalize hentry : s.entry k = o
    generalize hrecord : m.record k = o'
    rintro (hfits | _)
    · obtain ⟨a, hb, haddr⟩ := hs.entry_eq_some.mp hentry
      exact .known hb haddr hrecord hfits
    · exact .unknown (entry_eq_none.mp hentry) hrecord

theorem Counted.fits (hs : Counted s m lists) (k : NetworkAddr) : Option.Rel Fits (s.entry k) (m.record k) :=
  (paired_iff hs.chained).mp (hs.paired k)

/-- Every call returns, and the ledger goes on to describe the database. -/
theorem Counted.step (hs : Counted s m lists) {n : ℕ} (hn : ∀ h, (lists h).length ≤ n) (hfuel : n ≤ fuel)
    (e : Event) (he : e.Allocates s) :
    ∃ s', Nat25.step p fuel s e = some s' ∧
      ∃ lists', (∀ h, (lists' h).length ≤ n + 1) ∧ Counted s' (m.step p e) lists' := by
  obtain ⟨s', lists', hs', hchained, hlength, hj, henabled, hentry⟩ := step_spec (p := p) e hs.chained hn hfuel he
  refine ⟨s', hs', lists', hlength, hchained, henabled.trans hs.enabled, ?_, fun k => ?_⟩
  · rw [hj, hs.now]
    cases e <;> rfl
  · rw [paired_iff hchained, hentry k]
    have hfits := hs.fits k
    generalize s.entry k = o at hfits ⊢
    cases e with
    | tick d => exact hfits
    | insert kmalloc macAddr k' =>
      simp only [Event.effect, Ledger.step, update_apply, Priv.clock, hs.now]
      split_ifs with hk
      · exact fits_inserted (hk ▸ hfits) m.now kmalloc.isSome macAddr k'
      · exact hfits
    | lookup skb k' =>
      simp only [Event.effect, Ledger.step, update_apply, hs.now]
      split_ifs with hk
      · rw [← hk]
        generalize m.record k = o' at hfits ⊢
        cases hfits with
        | some h => exact .some (h.looked p m.now)
        | none => exact .none
      · exact hfits
    | expire =>
      simp only [Event.effect, Ledger.step, hs.enabled, hs.now]
      generalize m.record k = o' at hfits ⊢
      cases hfits with
      | some h => exact h.swept p m.now
      | none => exact .none
    | cleanup => exact .none

end Counted

/-! ### Runs -/

def Ledger.empty (now : ℕ) : Ledger := ⟨now, fun _ => none, []⟩

theorem Ledger.logged_empty (now : ℕ) : (Ledger.empty now).Logged :=
  ⟨fun _ _ ht => absurd ht not_mem_nil, fun _ _ hr => nomatch hr⟩

theorem counted_fresh {s : Priv} (hs : s.Fresh) (henabled : s.nat25Disable = false) :
    Counted s (.empty s.jiffies) fun _ => [] where
  chained := chained_fresh hs
  enabled := henabled
  now := rfl
  paired _ := .unknown (fun a _ hb => nomatch (bodies_eq_none.mpr (hs.heap a)).symm.trans hb) rfl

/-! ### After a sweep -/

theorem Record.expired_iff (p : Ageing) {now : ℕ} {r : Record} (hold : r.inserted + p.jiffies ≤ now) :
    r.expired p now = true ↔ (now - (r.inserted + p.jiffies)) % 2 ^ 32 < 2 ^ 31 := by
  rw [Record.expired, timeBeforeEq, timeout, decide_eq_true_eq, UInt32.toNat_sub, UInt32.toNat_sub,
    UInt32.toNat_ofNat', UInt32.toNat_ofNat', UInt32.toNat_ofNat']
  omega

/-- Entries of recent addresses only are no more than there are recent addresses. -/
theorem ncard_entries_le {s : Priv} {lists : ℕ → List ℕ} (hs : Chained s lists) {t : Finset NetworkAddr}
    (hrecent : ∀ a e, s.heap a = some e → e.networkAddr ∈ t) : {a | (s.heap a).isSome}.ncard ≤ t.card := by
  rw [← Set.ncard_coe_finset]
  refine Set.ncard_le_ncard_of_injOn (fun a => ((s.heap a).map Entry.networkAddr).getD (Vector.replicate 17 0))
    (fun a ha => ?_) (fun a ha c hc heq => ?_) t.finite_toSet
  · obtain ⟨e, he⟩ := Option.isSome_iff_exists.mp ha
    simpa [he] using hrecent a e he
  · obtain ⟨e, he⟩ := Option.isSome_iff_exists.mp ha
    obtain ⟨e', he'⟩ := Option.isSome_iff_exists.mp hc
    have haddr : e.networkAddr = e'.networkAddr := by simpa [he, he'] using heq
    exact hs.unique a c e e' he he' haddr

/-- After any run, a sweep leaves entries of recent addresses only exactly if every entry that is older has
    been hit as often as it has outlived a sweep. -/
theorem sweep_empties_aged_iff (p : Ageing) (s₀ : Priv) (hfresh : s₀.Fresh) (henabled : s₀.nat25Disable = false)
    (es : List Event) (fuel : ℕ) (hfuel : es.length ≤ fuel)
    (hallocates : AllowedCalls p fuel (fun s _ e => e.Allocates s) (Ledger.step p) s₀ (.empty s₀.jiffies) es) :
    ∃ s s', calls p fuel s₀ es = some s ∧ dbExpire p fuel s = some s' ∧
      let m := run (Ledger.step p) (.empty s₀.jiffies) es
      ((∀ a e, s'.heap a = some e → e.networkAddr ∈ m.recent p) ∧
          {a | (s'.heap a).isSome}.ncard ≤ (m.recent p).card ↔
        ∀ k r, m.record k = some r → r.inserted + p.jiffies ≤ m.now →
          (m.now - (r.inserted + p.jiffies)) % 2 ^ 32 < 2 ^ 31 ∧ r.hits % 2 ^ 32 = r.outlived % 2 ^ 32) := by
  have hbound : 0 + es.length ≤ fuel := by rwa [Nat.zero_add]
  obtain ⟨s, hs, lists, hlength, hcounted⟩ := foldlM_simulates
    (R := fun n s m => ∃ lists : ℕ → List ℕ, (∀ h, (lists h).length ≤ n) ∧ Counted s m lists)
    (fun e hle ⟨_, hn, hc⟩ he => hc.step hn hle e he) id es ⟨_, fun _ => le_rfl, counted_fresh hfresh henabled⟩
    hallocates hbound
  obtain ⟨s', hs', lists', -, hswept⟩ := hcounted.step (p := p) hlength hbound .expire trivial
  refine ⟨s, s', hs, hs', ?_⟩
  intro m
  have hlogged : m.Logged :=
    run_always (Ledger.logged_step p) es _ (Ledger.logged_empty s₀.jiffies)
  -- an entry is left exactly where a record is
  have hleft : (∀ a e, s'.heap a = some e → e.networkAddr ∈ m.recent p) ↔
      ∀ k r, m.record k = some r → r.swept p m.now ≠ none → k ∈ m.recent p := by
    constructor
    · intro hrecent k r hr hstay
      obtain ⟨r', hr'⟩ := Option.ne_none_iff_exists'.mp hstay
      have hrecord : (m.step p .expire).record k = some r' := by simp [Ledger.step, hr, hr']
      rcases hswept.paired k with ⟨-, hunknown⟩ | ⟨hb, haddr, -, -⟩
      · cases hunknown.symm.trans hrecord
      · obtain ⟨e, he, rfl⟩ := bodies_eq_some.mp hb
        have haddr : e.networkAddr = k := haddr
        exact haddr ▸ hrecent _ e he
    · intro hrecent a e he
      have hfits := hswept.fits e.body.networkAddr
      rw [hswept.chained.entry_of_body (bodies_of_heap he)] at hfits
      simp only [Ledger.step] at hfits
      cases hr : m.record e.body.networkAddr with
      | none =>
        rw [hr] at hfits
        cases hfits
      | some r =>
        refine hrecent _ r hr fun hgone => ?_
        rw [hr, Option.bind_some, hgone] at hfits
        cases hfits
  have hgone : ∀ r : Record, r.swept p m.now = none ↔ r.expired p m.now = true ∧ r.spent := by
    intro r
    unfold Record.swept
    split_ifs <;> simp_all
  have hcond : (∀ k r, m.record k = some r → r.swept p m.now ≠ none → k ∈ m.recent p) ↔
      ∀ k r, m.record k = some r → r.inserted + p.jiffies ≤ m.now →
        (m.now - (r.inserted + p.jiffies)) % 2 ^ 32 < 2 ^ 31 ∧ r.hits % 2 ^ 32 = r.outlived % 2 ^ 32 := by
    refine forall₃_congr fun k r hr => ?_
    rw [hlogged.recent_iff p hr, not_imp_comm, not_lt]
    refine forall_congr' fun hold => ?_
    rw [hgone, Record.expired_iff p hold]
    rfl
  rw [← hcond, ← hleft]
  exact and_iff_left_of_imp (ncard_entries_le hswept.chained)

/-- An entry that no lookup has hit. -/
def idleCalls : List Event := [.insert (some 0) (Vector.replicate 6 7) (Vector.replicate 17 1), .tick 30000]

theorem sweep_empties_aged_idle :
    ∃ s s', calls sampleAgeing 2 samplePriv idleCalls = some s ∧ dbExpire sampleAgeing 2 s = some s' ∧
      let m := run (Ledger.step sampleAgeing) (.empty samplePriv.jiffies) idleCalls
      (∀ a e, s'.heap a = some e → e.networkAddr ∈ m.recent sampleAgeing) ∧
        {a | (s'.heap a).isSome}.ncard ≤ (m.recent sampleAgeing).card := by
  obtain ⟨s, s', hs, hs', hiff⟩ := sweep_empties_aged_iff sampleAgeing samplePriv ⟨fun _ => rfl, fun _ => rfl⟩ rfl
    idleCalls 2 (by decide) ⟨fun _ _ => rfl, fun _ _ => ⟨trivial, fun _ _ => trivial⟩⟩
  refine ⟨s, s', hs, hs', hiff.mpr fun k r hr _ => ?_⟩
  have hr : update (fun _ => none) (Vector.replicate 17 1)
      (some (⟨4294967290, 0, 0⟩ : Record)) k = some r := hr
  by_cases hk : k = Vector.replicate 17 1
  · rw [hk, update_self] at hr
    obtain rfl := Option.some.inj hr
    decide
  · rw [update_of_ne hk] at hr
    cases hr

/-- An entry that one lookup has hit. -/
def hitCalls : List Event :=
  [.insert (some 0) (Vector.replicate 6 7) (Vector.replicate 17 1), .lookup (fun _ => 0) (Vector.replicate 17 1),
    .tick 30000]

theorem hit_entry_outlives_sweep :
    ∃ s s' e, calls sampleAgeing 3 samplePriv hitCalls = some s ∧ dbExpire sampleAgeing 3 s = some s' ∧
      s'.heap 0 = some e ∧
      e.networkAddr ∉ (run (Ledger.step sampleAgeing) (.empty samplePriv.jiffies) hitCalls).recent sampleAgeing :=
  ⟨_, _, _, rfl, rfl, rfl, by decide⟩

end PhoebusBsp.Nat25

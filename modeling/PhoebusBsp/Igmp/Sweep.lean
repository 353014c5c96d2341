import PhoebusBsp.Igmp.View
import PhoebusBsp.Igmp.Admin

/-! Walks over all groups of a module, and what they make of them.

    The loops of the sweep, of the black list and of the device and bridge removals have one form: bucket
    after bucket, group after group, each turn working on its own group only. So a walk does to every
    group what one turn does to its group (`Visits.groups`), in one module after the other
    (`walked_modules`). -/

namespace PhoebusBsp.Igmp
open Schemes List

/-- No group has two clients with one address and MAC. -/
def Unique (t : Tables) : Prop := ∀ i v g, ((clientsAt t i v g).map (clientKey v)).Nodup

theorem Acts.unique {i : ℕ} {v : IpVersion} {g : Ip} {k : Ip × Mac} {t t' : Tables} (h : Acts i v g k t t')
    (hu : Unique t) : Unique t' := by
  intro j w g'
  by_cases hspot : spot j w g' = spot i v g
  · obtain ⟨rfl, rfl, hg⟩ := spot_inj.mp hspot
    rw [clientsAt_congr hg]
    exact h.only.nodup (hu j w g)
  · rw [h.frame.clientsAt hspot]
    exact hu j w g'

theorem hashAlgorithm_lt (v : IpVersion) (g : Ip) : hashAlgorithm v g < hashTblSize := by
  have hand : ∀ x : UInt32, (31 &&& x).toNat < 32 := by
    intro x
    have hle : (31 &&& x).toNat ≤ 31 := by
      rw [UInt32.toNat_and]
      exact Nat.and_le_left
    omega
  cases v <;> exact hand _

/-! ### One turn per group -/

/-- A turn on a group changes this group only, and makes `G` of it. `I` is what holds of the state
    throughout the walk. -/
structure Visits {σ : Type} (tab : σ → Tables) (I : σ → Prop) (i : ℕ) (v : IpVersion)
    (G : GroupEntry → Option GroupEntry) (visit : σ → GroupEntry → σ) : Prop where
  keeps : ∀ s e, I s → I (visit s e)
  frame : ∀ s e, I s → searchGroupEntry (tab s) i v e.groupAddr = some e →
    Frame (spot i v e.groupAddr) (tab s) (tab (visit s e))
  group : ∀ s e, I s → searchGroupEntry (tab s) i v e.groupAddr = some e →
    (e.clientList.map (clientKey v)).Nodup →
    searchGroupEntry (tab (visit s e)) i v e.groupAddr = G e

/-- Every group in the module of the version has become what `G` makes of it if `p` selects it, and all
    other groups stay. -/
def Swept (i : ℕ) (v : IpVersion) (G : GroupEntry → Option GroupEntry) (p : Ip → Prop)
    (t t' : Tables) : Prop :=
  (∀ g, p g → searchGroupEntry t' i v g = (searchGroupEntry t i v g).bind G) ∧
  (∀ j w g, ¬(j = i ∧ w = v ∧ p g) → searchGroupEntry t' j w g = searchGroupEntry t j w g)

/-- No client is doubled by `G`. -/
def KeepsUnique (v : IpVersion) (G : GroupEntry → Option GroupEntry) : Prop :=
  ∀ e e', G e = some e' → (e.clientList.map (clientKey v)).Nodup → (e'.clientList.map (clientKey v)).Nodup

theorem keepsUnique_bind {v : IpVersion} {G : GroupEntry → Option GroupEntry} (hG : KeepsUnique v G)
    {i : ℕ} {g : Ip} {t t' : Tables}
    (h : searchGroupEntry t' i v g = (searchGroupEntry t i v g).bind G)
    (hu : ((clientsAt t i v g).map (clientKey v)).Nodup) :
    ((clientsAt t' i v g).map (clientKey v)).Nodup := by
  unfold clientsAt
  rw [h]
  cases hsearch : searchGroupEntry t i v g with
  | none => exact nodup_nil
  | some e =>
    rw [clientsAt_of_search hsearch] at hu
    rw [Option.bind_some]
    cases hGe : G e with
    | none => exact nodup_nil
    | some e' => exact hG e e' hGe hu

section Walk

variable {σ : Type} {tab : σ → Tables} {I : σ → Prop} {i : ℕ} {v : IpVersion}
  {G : GroupEntry → Option GroupEntry} {visit : σ → GroupEntry → σ}

theorem Swept.unique {p : Ip → Prop} {t t' : Tables} (h : Swept i v G p t t') (hG : KeepsUnique v G)
    (hu : Unique t) : Unique t' := by
  intro j w g
  by_cases hsel : j = i ∧ w = v ∧ p g
  · obtain ⟨rfl, rfl, hp⟩ := hsel
    exact keepsUnique_bind hG (h.1 g hp) (hu j w g)
  · unfold clientsAt
    rw [h.2 j w g hsel]
    exact hu j w g

theorem Swept.trans {p q : Ip → Prop} {t t' t'' : Tables} (h : Swept i v G p t t')
    (h' : Swept i v G q t' t'') (hpq : ∀ g, ¬(p g ∧ q g)) :
    Swept i v G (fun g => p g ∨ q g) t t'' := by
  constructor
  · rintro g (hp | hq)
    · rw [h'.2 i v g fun hsel => hpq g ⟨hp, hsel.2.2⟩, h.1 g hp]
    · rw [h'.1 g hq, h.2 i v g fun hsel => hpq g ⟨hsel.2.2, hq⟩]
  · intro j w g hsel
    rw [h'.2 j w g fun hq => hsel ⟨hq.1, hq.2.1, Or.inr hq.2.2⟩,
      h.2 j w g fun hp => hsel ⟨hp.1, hp.2.1, Or.inl hp.2.2⟩]

/-- A selection may be widened by groups that are not there. -/
theorem Swept.congr {p q : Ip → Prop} {t t' : Tables} (h : Swept i v G p t t')
    (hpq : ∀ g, p g → q g) (hq : ∀ g, q g → ¬p g → searchGroupEntry t i v g = none) :
    Swept i v G q t t' := by
  constructor
  · intro g hg
    by_cases hp : p g
    · exact h.1 g hp
    · rw [h.2 i v g fun hsel => hp hsel.2.2, hq g hg hp, Option.bind_none]
  · intro j w g hsel
    exact h.2 j w g fun hp => hsel ⟨hp.1, hp.2.1, hpq g hp.2.2⟩

theorem Visits.keeps_buckets (hvisit : Visits tab I i v G visit) (hs : List ℕ) (s : σ) (hI : I s) :
    I (hs.foldl (fun s h => ((tab s).hashTable i v h).foldl visit s) s) :=
  List.foldlRecOn hs _ hI fun _ hI _ _ =>
    List.foldlRecOn _ visit hI fun s hI e _ => hvisit.keeps s e hI

/-- A walk along a list of groups with different addresses. -/
theorem Visits.chain (hvisit : Visits tab I i v G visit) (es : List GroupEntry) (s : σ) (hI : I s)
    (hes : ∀ e ∈ es, searchGroupEntry (tab s) i v e.groupAddr = some e)
    (hkeys : (es.map (groupKey v)).Nodup)
    (hclients : ∀ e ∈ es, (e.clientList.map (clientKey v)).Nodup) :
    Swept i v G (fun g => addr v g ∈ es.map (groupKey v)) (tab s) (tab (es.foldl visit s)) := by
  induction es generalizing s with
  | nil => exact ⟨fun g hg => absurd hg not_mem_nil, fun _ _ _ _ => rfl⟩
  | cons e es ih =>
    rw [map_cons, nodup_cons] at hkeys
    have he := hes e mem_cons_self
    have hframe := hvisit.frame s e hI he
    have hself := hvisit.group s e hI he (hclients e mem_cons_self)
    -- the groups still to come are as they were
    have hnext : ∀ e' ∈ es, searchGroupEntry (tab (visit s e)) i v e'.groupAddr = some e' := by
      intro e' he'
      rw [hframe i v e'.groupAddr fun hspot => ?_, hes e' (mem_cons_of_mem _ he')]
      have hkey : groupKey v e' = groupKey v e := (spot_inj.mp hspot).2.2
      exact hkeys.1 (hkey ▸ mem_map_of_mem he')
    have hrest := ih (visit s e) (hvisit.keeps s e hI) hnext hkeys.2 fun e' he' =>
      hclients e' (mem_cons_of_mem _ he')
    have hfirst : Swept i v G (fun g => addr v g = groupKey v e) (tab s) (tab (visit s e)) := by
      constructor
      · intro g hg
        rw [searchGroupEntry_congr hg, searchGroupEntry_congr hg, he]
        exact hself
      · intro j w g hsel
        refine hframe j w g fun hspot => hsel ?_
        obtain ⟨rfl, rfl, hg⟩ := spot_inj.mp hspot
        exact ⟨rfl, rfl, hg⟩
    refine (hfirst.trans hrest fun g hg => hkeys.1 (hg.1 ▸ hg.2)).imp (fun h g hg => ?_)
      fun h j w g hsel => ?_
    · exact h g (mem_cons.mp hg)
    · exact h j w g fun hg => hsel ⟨hg.1, hg.2.1, mem_cons.mpr hg.2.2⟩

/-- A group in a chain is the one that the search finds. -/
theorem searchGroupEntry_of_mem {t : Tables} {h : ℕ} {e : GroupEntry} (he : e ∈ t.hashTable i v h) :
    searchGroupEntry t i v e.groupAddr = some e := by
  unfold searchGroupEntry
  rw [(t.placed i v h e he).2]
  exact Chain.search_eq_some (t.distinct i v h) he

theorem mem_groupsOf {t : Tables} {e : GroupEntry} :
    e ∈ groupsOf t i v ↔ ∃ g, searchGroupEntry t i v g = some e := by
  constructor
  · intro h
    obtain ⟨b, -, he⟩ := mem_flatMap.mp h
    exact ⟨e.groupAddr, searchGroupEntry_of_mem he⟩
  · rintro ⟨g, he⟩
    exact mem_flatMap.mpr ⟨_, mem_range.mpr (hashAlgorithm_lt v g), Chain.mem_of_search he⟩

/-- A walk along one bucket. -/
theorem Visits.bucket (hvisit : Visits tab I i v G visit) (s : σ) (hI : I s) (hu : Unique (tab s))
    (h : ℕ) :
    Swept i v G (fun g => hashAlgorithm v g = h) (tab s)
      (tab (((tab s).hashTable i v h).foldl visit s)) := by
  have hsearch : ∀ e ∈ (tab s).hashTable i v h, searchGroupEntry (tab s) i v e.groupAddr = some e :=
    fun e he => searchGroupEntry_of_mem he
  have hchain := hvisit.chain _ s hI hsearch ((tab s).distinct i v h) fun e he => by
    have hclients := hu i v e.groupAddr
    rwa [clientsAt_of_search (hsearch e he)] at hclients
  refine hchain.congr (fun g hg => ?_) fun g hg hnot => ?_
  · obtain ⟨e, he, hkey⟩ := mem_map.mp hg
    rw [← ((tab s).placed i v h e he).2]
    exact hash_congr hkey.symm
  · unfold searchGroupEntry
    rw [hg]
    exact Chain.search_eq_none.mpr hnot

/-- A walk over all buckets. -/
theorem Visits.groups (hvisit : Visits tab I i v G visit) (hG : KeepsUnique v G) (s : σ) (hI : I s)
    (hu : Unique (tab s)) :
    Swept i v G (fun _ => True) (tab s)
      (tab ((List.range hashTblSize).foldl
        (fun s h => ((tab s).hashTable i v h).foldl visit s) s)) := by
  have hpart : ∀ n, Swept i v G (fun g => hashAlgorithm v g < n) (tab s)
      (tab ((List.range n).foldl (fun s h => ((tab s).hashTable i v h).foldl visit s) s)) := by
    intro n
    induction n with
    | zero => exact ⟨fun g hg => absurd hg (Nat.not_lt_zero _), fun _ _ _ _ => rfl⟩
    | succ n ih =>
      rw [range_succ, foldl_append, foldl_cons, foldl_nil]
      have hone := hvisit.bucket _ (hvisit.keeps_buckets _ s hI) (ih.unique hG hu) n
      refine (ih.trans hone fun g hg => absurd hg.2 hg.1.ne).imp (fun h g hg => ?_)
        fun h j w g hsel => ?_
      · exact h g (Nat.lt_succ_iff_lt_or_eq.mp hg)
      · exact h j w g fun hg => hsel ⟨hg.1, hg.2.1, Nat.lt_succ_iff_lt_or_eq.mpr hg.2.2⟩
  refine (hpart hashTblSize).imp (fun h g _ => h g (hashAlgorithm_lt v g)) fun h j w g hsel => ?_
  exact h j w g fun hg => hsel ⟨hg.1, hg.2.1, trivial⟩

end Walk

/-! ### Module after module -/

/-- The groups of the modules in `is` have become what `G` makes of them, all others stay. -/
structure Walked (G : IpVersion → GroupEntry → Option GroupEntry) (is : List ℕ) (t t' : Tables) :
    Prop where
  done : ∀ i ∈ is, ∀ v g, searchGroupEntry t' i v g = (searchGroupEntry t i v g).bind (G v)
  same : ∀ i, i ∉ is → ∀ v g, searchGroupEntry t' i v g = searchGroupEntry t i v g

section Modules

variable {G : IpVersion → GroupEntry → Option GroupEntry} {is js : List ℕ} {t t' t'' : Tables}

theorem Walked.unique (h : Walked G is t t') (hG : ∀ v, KeepsUnique v (G v)) (hu : Unique t) :
    Unique t' := by
  intro i v g
  by_cases hi : i ∈ is
  · exact keepsUnique_bind (hG v) (h.done i hi v g) (hu i v g)
  · unfold clientsAt
    rw [h.same i hi]
    exact hu i v g

theorem Walked.trans (h : Walked G is t t') (h' : Walked G js t' t'') (hapart : ∀ i ∈ is, i ∉ js) :
    Walked G (is ++ js) t t'' where
  done i hi v g := by
    rcases mem_append.mp hi with hi | hi
    · rw [h'.same i (hapart i hi), h.done i hi]
    · rw [h'.done i hi, h.same i fun hmem => hapart i hmem hi]
  same i hi v g := by
    rw [mem_append, not_or] at hi
    rw [h'.same i hi.2, h.same i hi.1]

/-- One version of a module, where the other version stays. -/
theorem walked_version {i : ℕ} {v : IpVersion} (h : Swept i v (G v) (fun _ => True) t t')
    (hother : ∀ w, w ≠ v → ∀ e, G w e = some e) : Walked G [i] t t' where
  done j hj w g := by
    obtain rfl := mem_singleton.mp hj
    by_cases hw : w = v
    · subst hw
      exact h.1 g trivial
    · rw [h.2 j w g fun hsel => hw hsel.2.1]
      cases searchGroupEntry t j w g with
      | none => rfl
      | some e => exact (hother w hw e).symm
  same j hj w g := by
    rw [mem_singleton] at hj
    exact h.2 j w g fun hsel => hj hsel.1

/-- Both versions of a module. -/
theorem walked_versions {i : ℕ} (h4 : Swept i .v4 (G .v4) (fun _ => True) t t')
    (h6 : Swept i .v6 (G .v6) (fun _ => True) t' t'') : Walked G [i] t t'' where
  done j hj v g := by
    obtain rfl := mem_singleton.mp hj
    cases v with
    | v4 => exact (h6.2 j .v4 g fun h => nomatch h.2.1).trans (h4.1 g trivial)
    | v6 =>
      rw [h6.1 g trivial, h4.2 j .v6 g]
      exact fun h => nomatch h.2.1
  same j hj v g := by
    rw [mem_singleton] at hj
    exact (h6.2 j v g fun h => hj h.1).trans (h4.2 j v g fun h => hj h.1)

/-- A loop over modules does what each of its turns does. -/
theorem walked_modules {σ : Type} {tab : σ → Tables} {I : σ → Prop} {visit : σ → ℕ → σ}
    (hvisit : ∀ s i, I s → Unique (tab s) → I (visit s i) ∧ Walked G [i] (tab s) (tab (visit s i)))
    (hG : ∀ v, KeepsUnique v (G v)) (is : List ℕ) (hnodup : is.Nodup) (s : σ) (hI : I s)
    (hu : Unique (tab s)) : I (is.foldl visit s) ∧ Walked G is (tab s) (tab (is.foldl visit s)) := by
  induction is generalizing s with
  | nil => exact ⟨hI, fun _ h => absurd h not_mem_nil, fun _ _ _ _ => rfl⟩
  | cons i is ih =>
    rw [nodup_cons] at hnodup
    obtain ⟨hI', hfirst⟩ := hvisit s i hI hu
    obtain ⟨hI'', hrest⟩ := ih hnodup.2 (visit s i) hI' (hfirst.unique hG hu)
    rw [foldl_cons, ← singleton_append]
    refine ⟨hI'', hfirst.trans hrest fun j hj => ?_⟩
    obtain rfl := mem_singleton.mp hj
    exact hnodup.1

/-- What a walk does to the clients. -/
theorem Walked.clientsAt {F : IpVersion → List ClientEntry → List ClientEntry} (h : Walked G is t t')
    (hF : ∀ v, F v [] = []) (hG : ∀ v e, (G v e).elim [] GroupEntry.clientList = F v e.clientList)
    {i : ℕ} (hi : i ∈ is) (v : IpVersion) (g : Ip) :
    clientsAt t' i v g = F v (clientsAt t i v g) := by
  unfold Igmp.clientsAt
  rw [h.done i hi]
  cases searchGroupEntry t i v g with
  | none => exact (hF v).symm
  | some e => exact hG v e

theorem Walked.clientsAt_same (h : Walked G is t t') {i : ℕ} (hi : i ∉ is) (v : IpVersion) (g : Ip) :
    Igmp.clientsAt t' i v g = Igmp.clientsAt t i v g := by
  unfold Igmp.clientsAt
  rw [h.same i hi]

end Modules

theorem validModules_nodup (net : Net) : (validModules net).Nodup := nodup_range.filter _

end PhoebusBsp.Igmp

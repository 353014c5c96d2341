import Mathlib.Data.List.Basic

/-! Chains of keyed entries: searched from the front, changed in place at the entry that is found,
    extended at the front, and swept of the entries that are not wanted. -/

namespace PhoebusBsp.Schemes.Chain
open List

variable {α κ : Type} [DecidableEq κ] (key : α → κ)

/-- The first entry with the key. -/
def search (k : κ) (l : List α) : Option α := l.find? fun a => key a = k

/-- Change the first entry with the key. -/
def update (k : κ) (f : α → α) : List α → List α
  | [] => []
  | a :: l => if key a = k then f a :: l else a :: update k f l

variable {key} {k k' : κ} {f : α → α} {l : List α} {a : α}

theorem search_cons : search key k (a :: l) = if key a = k then some a else search key k l := by
  unfold search
  split
  · next h => rw [List.find?_cons_of_pos (by simpa using h)]
  · next h => rw [List.find?_cons_of_neg (by simpa using h)]

theorem key_of_search (h : search key k l = some a) : key a = k := by
  simpa using List.find?_some h

theorem mem_of_search (h : search key k l = some a) : a ∈ l := mem_of_find?_eq_some h

theorem search_eq_none : search key k l = none ↔ k ∉ l.map key := by
  unfold search
  rw [List.find?_eq_none]
  simp [not_exists, not_and]

theorem search_isSome : (search key k l).isSome ↔ k ∈ l.map key := by
  rw [← not_iff_not, Bool.not_eq_true, Option.isSome_eq_false_iff, Option.isNone_iff_eq_none,
    search_eq_none]

/-- Where no key is repeated every entry is found under its key. -/
theorem search_eq_some (hl : (l.map key).Nodup) (ha : a ∈ l) : search key (key a) l = some a := by
  induction l with
  | nil => cases ha
  | cons b l ih =>
    rw [map_cons, nodup_cons] at hl
    rw [search_cons]
    rcases mem_cons.mp ha with rfl | ha
    · rw [if_pos rfl]
    · have hb : key b ≠ key a := fun hb => hl.1 (hb ▸ mem_map_of_mem ha)
      rw [if_neg hb]
      exact ih hl.2 ha

/-- Changing every entry, none in its key, changes what is found. -/
theorem search_map (hf : ∀ a, key (f a) = key a) :
    search key k (l.map f) = (search key k l).map f := by
  induction l with
  | nil => rfl
  | cons a l ih =>
    rw [map_cons, search_cons, search_cons, hf, ih]
    split <;> rfl

/-! ### Changing an entry -/

theorem keys_update (hf : ∀ a, key a = k → key (f a) = k) :
    (update key k f l).map key = l.map key := by
  induction l with
  | nil => rfl
  | cons a l ih =>
    rw [update]
    split
    · next h => rw [map_cons, map_cons, hf a h, h]
    · rw [map_cons, map_cons, ih]

theorem search_update_self (hf : ∀ a, key a = k → key (f a) = k) :
    search key k (update key k f l) = (search key k l).map f := by
  induction l with
  | nil => rfl
  | cons a l ih =>
    rw [update, search_cons]
    split
    · next h => rw [search_cons, if_pos (hf a h), Option.map_some]
    · next h => rw [search_cons, if_neg h, ih]

theorem search_update_of_ne (hf : ∀ a, key a = k → key (f a) = k) (hk : k' ≠ k) :
    search key k' (update key k f l) = search key k' l := by
  induction l with
  | nil => rfl
  | cons a l ih =>
    rw [update, search_cons]
    split
    · next h =>
      rw [search_cons, hf a h, if_neg hk.symm, if_neg (fun h' => hk (h'.symm.trans h))]
    · rw [search_cons, ih]

/-- A change that leaves the entry found as it is leaves the chain as it is. -/
theorem update_eq_self (h : search key k l = some a) (hf : f a = a) : update key k f l = l := by
  induction l with
  | nil => rfl
  | cons b l ih =>
    rw [search_cons] at h
    rw [update]
    split at h
    · next hb =>
      obtain rfl := Option.some.inj h
      rw [if_pos hb, hf]
    · next hb => rw [if_neg hb, ih h]

theorem mem_update {b : α} (h : b ∈ update key k f l) : b ∈ l ∨ ∃ a ∈ l, key a = k ∧ b = f a := by
  induction l with
  | nil => cases h
  | cons a l ih =>
    rw [update] at h
    split at h
    · next hk =>
      rcases mem_cons.mp h with rfl | h
      · exact Or.inr ⟨a, mem_cons_self, hk, rfl⟩
      · exact Or.inl (mem_cons_of_mem _ h)
    · rcases mem_cons.mp h with rfl | h
      · exact Or.inl mem_cons_self
      · rcases ih h with h | ⟨c, hc, h⟩
        · exact Or.inl (mem_cons_of_mem _ h)
        · exact Or.inr ⟨c, mem_cons_of_mem _ hc, h⟩

/-- Where no key is repeated, every entry but the one found stays. -/
theorem mem_update_of_nodup (hf : ∀ a, key a = k → key (f a) = k) (hl : (l.map key).Nodup) {b : α}
    (h : b ∈ update key k f l) :
    (∃ a, search key k l = some a ∧ b = f a) ∨ (key b ≠ k ∧ b ∈ l) := by
  have hfound : search key (key b) (update key k f l) = some b :=
    search_eq_some (by rwa [keys_update hf]) h
  by_cases hb : key b = k
  · rw [hb, search_update_self hf] at hfound
    obtain ⟨a, ha, rfl⟩ := Option.map_eq_some_iff.mp hfound
    exact Or.inl ⟨a, ha, rfl⟩
  · rw [search_update_of_ne hf hb] at hfound
    exact Or.inr ⟨hb, mem_of_search hfound⟩

/-- What the change leaves of the entry found, it leaves of all. -/
theorem map_update {β : Type} {φ : α → β} (hf : ∀ a, search key k l = some a → φ (f a) = φ a) :
    (update key k f l).map φ = l.map φ := by
  induction l with
  | nil => rfl
  | cons a l ih =>
    rw [update]
    by_cases ha : key a = k
    · rw [if_pos ha, map_cons, map_cons, hf a (by rw [search_cons, if_pos ha])]
    · have hrest : ∀ b, search key k l = some b → φ (f b) = φ b := fun b hb =>
        hf b (by rw [search_cons, if_neg ha, hb])
      rw [if_neg ha, map_cons, map_cons, ih hrest]

/-! ### Sweeping -/

/-- Where no key is repeated, sweeping takes away exactly what is not wanted. -/
theorem search_filter {p : α → Bool} (hl : (l.map key).Nodup) :
    search key k (l.filter p) = (search key k l).filter p := by
  induction l with
  | nil => rfl
  | cons a l ih =>
    rw [map_cons, nodup_cons] at hl
    have ih := ih hl.2
    rw [filter_cons, search_cons]
    by_cases hk : key a = k
    · -- the entry found: behind it there is none with the key
      have hnone : search key k l = none := search_eq_none.mpr (hk ▸ hl.1)
      rw [if_pos hk]
      by_cases hp : p a = true
      · rw [if_pos hp, search_cons, if_pos hk, Option.filter_some, if_pos hp]
      · rw [if_neg hp, ih, hnone, Option.filter_some, if_neg hp, Option.filter_none]
    · rw [if_neg hk]
      split
      · rw [search_cons, if_neg hk, ih]
      · exact ih

/-- Sweeping by key takes away what has the key. -/
theorem search_sweep_self : search key k (l.filter fun a => key a ≠ k) = none := by
  rw [search_eq_none, mem_map]
  rintro ⟨a, ha, hk⟩
  have hne : key a ≠ k := by simpa using of_mem_filter ha
  exact hne hk

theorem search_sweep_of_ne (hk : k' ≠ k) :
    search key k' (l.filter fun a => key a ≠ k) = search key k' l := by
  induction l with
  | nil => rfl
  | cons a l ih =>
    rw [filter_cons, search_cons]
    by_cases ha : key a = k
    · have hne : key a ≠ k' := fun h => hk (h.symm.trans ha)
      rw [if_neg (by simpa using ha), if_neg hne, ih]
    · rw [if_pos (by simpa using ha), search_cons, ih]

/-- Changing an entry leaves those with other keys where they are. -/
theorem sweep_update (hf : ∀ a, key a = k → key (f a) = k) :
    (update key k f l).filter (fun a => key a ≠ k) = l.filter fun a => key a ≠ k := by
  induction l with
  | nil => rfl
  | cons a l ih =>
    rw [update]
    by_cases ha : key a = k
    · rw [if_pos ha, filter_cons_of_neg (by simpa using hf a ha),
        filter_cons_of_neg (by simpa using ha)]
    · rw [if_neg ha, filter_cons_of_pos (by simpa using ha),
        filter_cons_of_pos (by simpa using ha), ih]

omit [DecidableEq κ] in
theorem keys_filter_nodup {p : α → Bool} (hl : (l.map key).Nodup) : ((l.filter p).map key).Nodup :=
  hl.sublist (filter_sublist.map key)

/-! ### A turn for every entry -/

variable (key) in
/-- An entry is taken away or replaced. -/
def turn (f : α → Option α) (l : List α) (a : α) : List α :=
  match f a with
  | none => l.filter fun b => key b ≠ key a
  | some b => update key (key a) (fun _ => b) l

theorem update_append_cons {done todo : List α} (hnew : key a ∉ done.map key) (b : α) :
    update key (key a) (fun _ => b) (done ++ a :: todo) = done ++ b :: todo := by
  induction done with
  | nil => rw [nil_append, update, if_pos rfl, nil_append]
  | cons c done ih =>
    rw [map_cons, mem_cons, not_or] at hnew
    rw [cons_append, update, if_neg fun h => hnew.1 h.symm, ih hnew.2, cons_append]

theorem sweep_eq_self (h : k ∉ l.map key) : (l.filter fun b => key b ≠ k) = l := by
  rw [filter_eq_self]
  intro b hb
  have hne : key b ≠ k := fun hk => h (hk ▸ mem_map_of_mem hb)
  simpa using hne

/-- Where no key is repeated, sweeping by the key of an entry takes away this one. -/
theorem sweep_split (hl : (l.map key).Nodup) (ha : a ∈ l) :
    ∃ pre post, l = pre ++ a :: post ∧ (l.filter fun b => key b ≠ key a) = pre ++ post := by
  obtain ⟨pre, post, rfl⟩ := append_of_mem ha
  rw [map_append, map_cons, nodup_append] at hl
  obtain ⟨-, hpost, hapart⟩ := hl
  have hpre : key a ∉ pre.map key := fun hmem => hapart _ hmem _ mem_cons_self rfl
  refine ⟨pre, post, rfl, ?_⟩
  rw [filter_append, filter_cons_of_neg (by simp), sweep_eq_self hpre,
    sweep_eq_self (nodup_cons.mp hpost).1]

/-- The same, seen through names that are not repeated either. -/
theorem map_sweep {β : Type} [DecidableEq β] {φ : α → β} (hl : (l.map key).Nodup) (hφ : (l.map φ).Nodup)
    (ha : a ∈ l) : (l.filter fun b => key b ≠ key a).map φ = (l.map φ).erase (φ a) := by
  obtain ⟨pre, post, rfl, hsweep⟩ := sweep_split hl ha
  rw [map_append, map_cons] at hφ
  have hpre : φ a ∉ pre.map φ := fun hpre =>
    (nodup_append.mp hφ).2.2 _ hpre _ mem_cons_self rfl
  rw [hsweep, map_append, map_append, map_cons, erase_append_right _ hpre,
    erase_cons_head]

/-- Where no key is repeated, a turn for every entry deals with each once. -/
theorem foldl_turn {f : α → Option α} (hf : ∀ a b, f a = some b → key b = key a)
    (hl : (l.map key).Nodup) : l.foldl (turn key f) l = l.filterMap f := by
  suffices H : ∀ todo done : List α, ((done ++ todo).map key).Nodup →
      todo.foldl (turn key f) (done.filterMap f ++ todo) = (done ++ todo).filterMap f from
    H l [] hl
  intro todo
  induction todo with
  | nil =>
    intro done _
    rw [foldl_nil, append_nil, append_nil]
  | cons a todo ih =>
    intro done hnodup
    have hnext := ih (done ++ [a]) (by rwa [append_assoc])
    rw [map_append, map_cons, nodup_append] at hnodup
    obtain ⟨-, htodo, hapart⟩ := hnodup
    have hdone : key a ∉ (done.filterMap f).map key := by
      rintro hmem
      obtain ⟨b, hb, hkey⟩ := mem_map.mp hmem
      obtain ⟨c, hc, hcb⟩ := mem_filterMap.mp hb
      exact hapart _ (mem_map_of_mem hc) _ mem_cons_self ((hf c b hcb).symm.trans hkey)
    have hrest : key a ∉ todo.map key := (nodup_cons.mp htodo).1
    have hturn : turn key f (done.filterMap f ++ a :: todo) a =
        (done ++ [a]).filterMap f ++ todo := by
      unfold turn
      rw [filterMap_append]
      cases hfa : f a with
      | none =>
        rw [filter_append, filter_cons_of_neg (by simp), sweep_eq_self hdone,
          sweep_eq_self hrest]
        simp [hfa]
      | some b =>
        simp only [update_append_cons hdone]
        simp [hfa]
    rw [foldl_cons, hturn, hnext, append_assoc]
    rfl

omit [DecidableEq κ] in
theorem keys_filterMap_nodup {f : α → Option α} (hf : ∀ a b, f a = some b → key b = key a)
    (hl : (l.map key).Nodup) : ((l.filterMap f).map key).Nodup := by
  induction l with
  | nil => exact nodup_nil
  | cons a l ih =>
    rw [map_cons, nodup_cons] at hl
    have ih := ih hl.2
    cases hfa : f a with
    | none => rwa [filterMap_cons_none hfa]
    | some b =>
      rw [filterMap_cons_some hfa, map_cons, nodup_cons]
      refine ⟨fun hmem => hl.1 ?_, ih⟩
      obtain ⟨c, hc, hkey⟩ := mem_map.mp hmem
      obtain ⟨d, hd, hdc⟩ := mem_filterMap.mp hc
      rw [← hf a b hfa, ← hkey, hf d c hdc]
      exact mem_map_of_mem hd

/-- An entry is found if it was there and has not been taken away. -/
theorem search_filterMap {f : α → Option α} (hf : ∀ a b, f a = some b → key b = key a)
    (hl : (l.map key).Nodup) : search key k (l.filterMap f) = (search key k l).bind f := by
  induction l with
  | nil => rfl
  | cons a l ih =>
    rw [map_cons, nodup_cons] at hl
    have ih := ih hl.2
    rw [search_cons]
    cases hfa : f a with
    | none =>
      rw [filterMap_cons_none hfa, ih]
      split
      · next hk => rw [search_eq_none.mpr (hk ▸ hl.1), Option.bind_none, Option.bind_some, hfa]
      · rfl
    | some b =>
      rw [filterMap_cons_some hfa, search_cons, hf a b hfa, ih]
      split
      · rw [Option.bind_some, hfa]
      · rfl

end PhoebusBsp.Schemes.Chain

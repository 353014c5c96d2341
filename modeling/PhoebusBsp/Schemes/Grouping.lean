import PhoebusBsp.Schemes.Machine
import Mathlib.Data.List.Nodup
import Mathlib.Data.List.Flatten

/-! Lists cut at separators and at heads, and lists grouped by a key.

        a a , b , , c                    fields between separators
        p p | h a a | h b | h c c        preamble and entries, each with a head in front
        x₁ y₁ x₂ z₁  ──▶  x: x₁ x₂       groups in the order in which their keys appear first
                          y: y₁
                          z: z₁ -/

namespace PhoebusBsp.Schemes.Grouping
open List

/-! ### Separators -/

section Separators

variable {α : Type} {x : α}

/-- A field has no separator, and nothing that the list has not. -/
theorem splitOn_field [DecidableEq α] (l : List α) : ∀ c ∈ l.splitOn x, x ∉ c ∧ c ⊆ l := by
  induction l with
  | nil =>
    intro c hc
    obtain rfl := mem_singleton.mp hc
    exact ⟨not_mem_nil, List.Subset.refl _⟩
  | cons y l ih =>
    rw [splitOn_cons_eq_if_modifyHead]
    split
    · intro c hc
      rcases mem_cons.mp hc with rfl | hc
      · exact ⟨not_mem_nil, nil_subset _⟩
      · exact ⟨(ih c hc).1, subset_cons_of_subset y (ih c hc).2⟩
    · next hy =>
      obtain ⟨d, ds, hsplit⟩ := exists_cons_of_ne_nil (splitOn_ne_nil x l)
      rw [hsplit] at ih
      rw [hsplit, modifyHead_cons]
      intro c hc
      rcases mem_cons.mp hc with rfl | hc
      · obtain ⟨hnot, hsub⟩ := ih d mem_cons_self
        rw [mem_cons, not_or]
        exact ⟨⟨fun hxy => hy (by rw [hxy]; exact beq_self_eq_true y), hnot⟩, cons_subset_cons y hsub⟩
      · obtain ⟨hnot, hsub⟩ := ih c (mem_cons_of_mem _ hc)
        exact ⟨hnot, subset_cons_of_subset y hsub⟩

/-- Between the fields there is nothing but the separator. -/
theorem mem_of_mem_intercalate {sep : List α} :
    ∀ {ls : List (List α)}, x ∈ sep.intercalate ls → x ∈ sep ∨ ∃ l ∈ ls, x ∈ l
  | [l], h => by
    rw [intercalate_singleton] at h
    exact Or.inr ⟨l, mem_singleton.mpr rfl, h⟩
  | l :: l' :: ls, h => by
    rw [List.intercalate_cons_cons, mem_append, mem_append] at h
    rcases h with (h | h) | h
    · exact Or.inr ⟨l, mem_cons_self, h⟩
    · exact Or.inl h
    · rcases mem_of_mem_intercalate h with h | ⟨l'', hl'', h⟩
      · exact Or.inl h
      · exact Or.inr ⟨l'', mem_cons_of_mem _ hl'', h⟩

end Separators

/-! ### Cutting -/

section Cut

variable {α : Type} {entries : List (List α)}

/-- What has been cut so far; `cur` is the entry that has begun. -/
structure Cut (α : Type) where
  preamble : List α
  entries : List (List α)
  cur : Option (List α)

variable (head : α → Bool)

def Cut.add (c : Cut α) (l : α) : Cut α :=
  if head l then { c with entries := c.entries ++ c.cur.toList, cur := some [l] }
  else
    match c.cur with
    | none => { c with preamble := c.preamble ++ [l] }
    | some ent => { c with cur := some (ent ++ [l]) }

/-- The preamble and the entries. -/
def cut (ls : List α) : List α × List (List α) :=
  let c := ls.foldl (Cut.add head) ⟨[], [], none⟩
  (c.preamble, c.entries ++ c.cur.toList)

/-- A head and what follows it up to the next head. -/
def IsEntry (ent : List α) : Prop := ∃ h rest, ent = h :: rest ∧ head h = true ∧ ∀ l ∈ rest, head l = false

structure WellCut (preamble : List α) (entries : List (List α)) : Prop where
  preamble : ∀ l ∈ preamble, head l = false
  entries : ∀ ent ∈ entries, IsEntry head ent

/-- What the cuts make up, and that nothing stands behind the preamble as long as no entry has begun. -/
structure Cuts (ls : List α) (c : Cut α) : Prop where
  whole : c.preamble ++ (c.entries ++ c.cur.toList).flatten = ls
  wellCut : WellCut head c.preamble (c.entries ++ c.cur.toList)
  first : c.cur = none → c.entries = []

variable {head}

theorem IsEntry.extend {ent : List α} (h : IsEntry head ent) {l : α} (hl : head l = false) :
    IsEntry head (ent ++ [l]) := by
  obtain ⟨first, rest, rfl, hfirst, hrest⟩ := h
  refine ⟨first, rest ++ [l], rfl, hfirst, fun x hx => ?_⟩
  rcases mem_append.mp hx with hx | hx
  · exact hrest x hx
  · exact mem_singleton.mp hx ▸ hl

theorem Cuts.add {ls : List α} {c : Cut α} (h : Cuts head ls c) (l : α) :
    Cuts head (ls ++ [l]) (c.add head l) := by
  obtain ⟨hwhole, hwell, hfirst⟩ := h
  unfold Cut.add
  cases hl : head l with
  | true =>
    rw [if_pos rfl]
    refine ⟨?_, ⟨hwell.preamble, fun ent hent => ?_⟩, nofun⟩
    · simp [← hwhole]
    · rcases mem_append.mp hent with hent | hent
      · exact hwell.entries ent hent
      · obtain rfl : ent = [l] := by simpa using hent
        exact ⟨l, [], rfl, hl, nofun⟩
  | false =>
    rw [if_neg Bool.false_ne_true]
    obtain ⟨preamble, entries, cur⟩ := c
    cases cur with
    | none =>
      obtain rfl : entries = [] := hfirst rfl
      refine ⟨?_, ⟨fun x hx => ?_, nofun⟩, fun _ => rfl⟩
      · simp [← hwhole]
      · rcases mem_append.mp hx with hx | hx
        · exact hwell.preamble x hx
        · exact mem_singleton.mp hx ▸ hl
    | some ent =>
      refine ⟨?_, ⟨hwell.preamble, fun x hx => ?_⟩, nofun⟩
      · simp [← hwhole]
      · rcases mem_append.mp hx with hx | hx
        · exact hwell.entries x (mem_append_left _ hx)
        · obtain rfl : x = ent ++ [l] := by simpa using hx
          exact (hwell.entries ent (by simp)).extend hl

theorem cuts_foldl (ls : List α) : Cuts head ls (ls.foldl (Cut.add head) ⟨[], [], none⟩) :=
  run_history (P := Cuts head) ⟨rfl, ⟨fun _ h => absurd h not_mem_nil, fun _ h => absurd h not_mem_nil⟩,
    fun _ => rfl⟩ (fun _ _ l h => h.add l) ls

theorem cut_wellCut (ls : List α) : WellCut head (cut head ls).1 (cut head ls).2 :=
  (cuts_foldl ls).wellCut

theorem cut_whole (ls : List α) : (cut head ls).1 ++ (cut head ls).2.flatten = ls :=
  (cuts_foldl ls).whole

theorem WellCut.head_notMem {preamble : List α} (h : WellCut head preamble entries) :
    (preamble ++ entries.flatten).takeWhile (fun l => !head l) = preamble := by
  rw [takeWhile_append_of_pos fun l hl => by rw [h.preamble l hl]; rfl]
  cases entries with
  | nil => simp
  | cons ent entries =>
    obtain ⟨first, rest, rfl, hfirst, -⟩ := h.entries ent mem_cons_self
    simp [hfirst]

/-- There is one way to cut. -/
theorem WellCut.unique : ∀ {preamble preamble' : List α} {entries' : List (List α)},
    WellCut head preamble entries → WellCut head preamble' entries' →
    preamble ++ entries.flatten = preamble' ++ entries'.flatten →
    preamble = preamble' ∧ entries = entries' := by
  induction entries with
  | nil =>
    intro preamble preamble' entries' h h' heq
    have hpre : preamble = preamble' := by rw [← h.head_notMem, heq, h'.head_notMem]
    refine ⟨hpre, ?_⟩
    rw [hpre, append_cancel_left_eq, flatten_nil] at heq
    cases entries' with
    | nil => rfl
    | cons ent entries' =>
      obtain ⟨first, rest, rfl, -, -⟩ := h'.entries ent mem_cons_self
      cases heq
  | cons ent entries ih =>
    intro preamble preamble' entries' h h' heq
    have hpre : preamble = preamble' := by rw [← h.head_notMem, heq, h'.head_notMem]
    refine ⟨hpre, ?_⟩
    rw [hpre, append_cancel_left_eq] at heq
    obtain ⟨first, rest, rfl, -, hrest⟩ := h.entries ent mem_cons_self
    cases entries' with
    | nil => cases heq
    | cons ent' entries' =>
      -- What follows a head is cut like what follows a preamble.
      obtain ⟨first', rest', rfl, -, hrest'⟩ := h'.entries ent' mem_cons_self
      rw [flatten_cons, flatten_cons, cons_append, cons_append] at heq
      obtain ⟨rfl, htail⟩ := List.cons.inj heq
      obtain ⟨rfl, rfl⟩ := ih ⟨hrest, fun e he => h.entries e (mem_cons_of_mem _ he)⟩
        ⟨hrest', fun e he => h'.entries e (mem_cons_of_mem _ he)⟩ htail
      rfl

theorem WellCut.cut_eq {preamble : List α} (h : WellCut head preamble entries) :
    cut head (preamble ++ entries.flatten) = (preamble, entries) := by
  obtain ⟨hpre, hent⟩ := WellCut.unique (cut_wellCut _) h (cut_whole _)
  exact Prod.ext hpre hent

end Cut

/-! ### Grouping -/

section Group

variable {α κ : Type} [DecidableEq κ] (key : α → κ) {xs : List α}

/-- The keys in the order of their first appearance, and the group of each. -/
structure Groups (α κ : Type) where
  order : List κ
  groups : κ → Option (List α)

def Groups.add (g : Groups α κ) (x : α) : Groups α κ :=
  let g := if g.groups (key x) = none then ⟨g.order ++ [key x], Function.update g.groups (key x) (some [])⟩ else g
  { g with groups := Function.update g.groups (key x) ((g.groups (key x)).map (· ++ [x])) }

def groupBy (xs : List α) : Groups α κ := xs.foldl (Groups.add key) ⟨[], fun _ => none⟩

/-- The elements with a key. -/
def groupOf (xs : List α) (k : κ) : List α := xs.filter fun x => key x = k

/-- The keys, each at its first place. -/
def keysOf (xs : List α) : List κ := (xs.map key).eraseDups

variable {key}

theorem mem_keysOf {k : κ} : k ∈ keysOf key xs ↔ ∃ x ∈ xs, key x = k := by
  rw [keysOf, mem_eraseDups, mem_map]

theorem groupOf_eq_nil {k : κ} (h : k ∉ keysOf key xs) : groupOf key xs k = [] := by
  rw [groupOf, filter_eq_nil_iff]
  intro x hx hk
  exact h (mem_keysOf.mpr ⟨x, hx, of_decide_eq_true hk⟩)

theorem keysOf_append_singleton (xs : List α) (x : α) :
    keysOf key (xs ++ [x]) = if key x ∈ keysOf key xs then keysOf key xs else keysOf key xs ++ [key x] := by
  rw [keysOf, map_append, eraseDups_append]
  split
  · next h =>
    have hmem : (xs.map key).contains (key x) = true := contains_iff_mem.mpr (mem_eraseDups.mp h)
    have hnew : [key x].removeAll (xs.map key) = [] := by
      simp only [List.removeAll, elem_eq_contains, filter_cons, hmem]
      rfl
    rw [map_cons, map_nil, hnew, eraseDups_nil, append_nil, keysOf]
  · next h =>
    have hmem : (xs.map key).contains (key x) = false := by
      rw [← Bool.not_eq_true, contains_iff_mem]
      exact fun hx => h (mem_eraseDups.mpr hx)
    have hnew : [key x].removeAll (xs.map key) = [key x] := by
      simp only [List.removeAll, elem_eq_contains, filter_cons, hmem]
      rfl
    rw [map_cons, map_nil, hnew, keysOf]
    rfl

theorem groupOf_append_singleton (xs : List α) (x : α) (k : κ) :
    groupOf key (xs ++ [x]) k = groupOf key xs k ++ if key x = k then [x] else [] := by
  rw [groupOf, filter_append, groupOf]
  split
  · next h => simp [h]
  · next h => simp [h]

/-- What the loop has made of a list. -/
theorem groupBy_spec (xs : List α) :
    (groupBy key xs).order = keysOf key xs ∧
    ∀ k, (groupBy key xs).groups k = if k ∈ keysOf key xs then some (groupOf key xs k) else none := by
  refine run_history (P := fun xs (g : Groups α κ) => g.order = keysOf key xs ∧
    ∀ k, g.groups k = if k ∈ keysOf key xs then some (groupOf key xs k) else none) ?_ ?_ xs
  · exact ⟨rfl, fun k => rfl⟩
  · rintro xs ⟨order, groups⟩ x ⟨horder, hgroups⟩
    dsimp only at horder hgroups
    have hnone : groups (key x) = none ↔ key x ∉ keysOf key xs := by
      rw [hgroups]
      split <;> simp_all
    simp only [keysOf_append_singleton, groupOf_append_singleton, Groups.add, hnone]
    by_cases hk : key x ∈ keysOf key xs
    · simp only [hk, not_true_eq_false, if_false, if_true]
      refine ⟨horder, fun k => ?_⟩
      by_cases hkx : k = key x
      · subst hkx
        simp [hgroups, hk]
      · simp [Function.update_of_ne hkx, hgroups, Ne.symm hkx]
    · simp only [hk, not_false_eq_true, if_true, if_false]
      refine ⟨congrArg (· ++ [key x]) horder, fun k => ?_⟩
      by_cases hkx : k = key x
      · subst hkx
        simp [groupOf_eq_nil hk]
      · simp [hgroups, hkx, Ne.symm hkx]

theorem groupBy_order (xs : List α) : (groupBy key xs).order = keysOf key xs := (groupBy_spec xs).1

theorem groupBy_group {k : κ} (h : k ∈ keysOf key xs) : (groupBy key xs).groups k = some (groupOf key xs k) :=
  ((groupBy_spec xs).2 k).trans (if_pos h)

/-! ### Keys and groups of a list with a first element -/

theorem keysOf_cons (x : α) (xs : List α) :
    keysOf key (x :: xs) = key x :: keysOf key (xs.filter fun y => key y ≠ key x) := by
  rw [keysOf, map_cons, eraseDups_cons, keysOf, filter_map]
  congr 4
  funext y
  by_cases hy : key y = key x
  · simp [hy]
  · simp [hy]

theorem groupOf_cons_self (x : α) (xs : List α) :
    groupOf key (x :: xs) (key x) = x :: groupOf key xs (key x) := by
  rw [groupOf, filter_cons_of_pos (by simp), groupOf]

/-- The first element says nothing about the other keys. -/
theorem groupOf_rest {x : α} {k : κ} (xs : List α) (h : k ≠ key x) :
    groupOf key (xs.filter fun y => key y ≠ key x) k = groupOf key (x :: xs) k := by
  rw [groupOf, filter_filter, groupOf, filter_cons_of_neg (by simpa using h.symm)]
  refine filter_congr fun y _ => ?_
  by_cases hy : key y = k
  · simp [hy, h]
  · simp [hy]

/-- Different keys are kept as they are. -/
theorem keysOf_of_nodup (h : (xs.map key).Nodup) : keysOf key xs = xs.map key := by
  induction xs with
  | nil => rfl
  | cons x xs ih =>
    rw [map_cons, nodup_cons] at h
    have hall : (xs.filter fun y => key y ≠ key x) = xs := by
      rw [filter_eq_self]
      intro y hy
      exact decide_eq_true fun hyx => h.1 (hyx ▸ mem_map_of_mem hy)
    rw [keysOf_cons, hall, ih h.2, map_cons]

theorem groupOf_of_nodup (h : (xs.map key).Nodup) {x : α} (hx : x ∈ xs) : groupOf key xs (key x) = [x] := by
  induction xs with
  | nil => cases hx
  | cons y xs ih =>
    rw [map_cons, nodup_cons] at h
    rcases mem_cons.mp hx with rfl | hx
    · have hnone : groupOf key xs (key x) = [] := groupOf_eq_nil fun hk => h.1 (mem_eraseDups.mp hk)
      rw [groupOf_cons_self, hnone]
    · have hne : key y ≠ key x := fun hyx => h.1 (hyx ▸ mem_map_of_mem hx)
      rw [groupOf, filter_cons_of_neg (by simpa using hne)]
      exact ih h.2 hx

/-- Elements that are alone in their groups come out in their order, whatever becomes of the groups with
    several. -/
theorem filter_sublist_keysOf {p : α → Bool} {f : κ → α} (xs : List α)
    (h : ∀ x ∈ xs, p x = true → groupOf key xs (key x) = [x] ∧ f (key x) = x) :
    (xs.filter p).Sublist ((keysOf key xs).map f) := by
  induction hn : xs.length using Nat.strongRecOn generalizing xs with
  | _ n ih =>
    cases xs with
    | nil => exact List.Sublist.slnil
    | cons x xs =>
      let rest := xs.filter fun y => key y ≠ key x
      have hlen : rest.length < n := by
        have hle : rest.length ≤ xs.length := length_filter_le _ xs
        simp only [length_cons] at hn
        omega
      -- An element that is alone does not have the key of the first one.
      have hother : ∀ y ∈ xs, p y = true → key y ≠ key x := by
        intro y hy hpy hyx
        have halone := (h y (mem_cons_of_mem _ hy) hpy).1
        rw [hyx, groupOf_cons_self] at halone
        have hmem : y ∈ groupOf key xs (key x) := mem_filter.mpr ⟨hy, decide_eq_true hyx⟩
        rw [(List.cons.inj halone).2] at hmem
        cases hmem
      have hfilter : xs.filter p = rest.filter p := by
        rw [filter_filter]
        refine filter_congr fun y hy => ?_
        cases hpy : p y with
        | false => rfl
        | true => simp [hother y hy hpy]
      have hrest : (rest.filter p).Sublist ((keysOf key rest).map f) := by
        refine ih _ hlen rest (fun y hy hpy => ?_) rfl
        obtain ⟨hyxs, hne⟩ := mem_filter.mp hy
        rw [groupOf_rest xs (of_decide_eq_true hne)]
        exact h y (mem_cons_of_mem _ hyxs) hpy
      rw [keysOf_cons, map_cons]
      cases hpx : p x with
      | true =>
        rw [filter_cons_of_pos hpx, hfilter, (h x mem_cons_self hpx).2]
        exact hrest.cons_cons x
      | false =>
        rw [filter_cons_of_neg (by simp [hpx]), hfilter]
        exact hrest.cons _

end Group

end PhoebusBsp.Schemes.Grouping

import PhoebusBsp.Schemes.Linked

/-! A fixed set of nodes in doubly linked lists, one of which holds the free nodes.

        pool   ──▶ d ⇄ e ⇄ f            allocate: the first of the pool
        list r ──▶ a ⇄ b                link:     in front of a list
        list q ──▶ c                    unlink:   from anywhere in a list
                                        free:     in front of the pool

    A node knows its successor and its predecessor; the first node of a list has no predecessor. `take` and
    `give` say what the routines do to the lists: a node goes from the front of the pool to the front of a
    list, or from a list to the front of the pool. -/

namespace PhoebusBsp.Schemes.Arena
open Linked Function List Option

variable {ρ π : Type}

/-- The predecessor of the node that a place points to. -/
def previous : Loc (Option ρ) π → Option π
  | .head _ => none
  | .next a => some a

/-- Heads and nodes; `none` is the pool. -/
abbrev Pooled (ρ π : Type) := Store (Option ρ) π (Option π)

/-! ### The routines -/

section Routines

variable [DecidableEq ρ] [DecidableEq π] (s : Pooled ρ π)

/-- No links. -/
def clear (a : π) : Pooled ρ π := (s.set (.next a) none).setBack a none

/-- The first free node. -/
def allocate : Option π × Pooled ρ π :=
  match s.head none with
  | none => (none, s)
  | some a => (some a, clear ((s.setBackOf (s.next a) none).set (.head none) (s.next a)) a)

/-- In front of a list. -/
def link (r : ρ) (a : π) : Pooled ρ π :=
  (((s.setBackOf (s.head (some r)) (some a)).set (.next a) (s.head (some r))).set (.head (some r))
    (some a)).setBack a none

/-- The predecessor, if there is one, leads past the node. -/
def bypass (a : π) : Pooled ρ π := (s.back a).elim s fun p => s.set (.next p) (s.next a)

/-- Out of a list. -/
def unlink (r : ρ) (a : π) : Pooled ρ π :=
  clear (if s.head (some r) = some a then
      let s := s.set (.head (some r)) (s.next a)
      s.setBackOf (s.head (some r)) none
    else
      let s := bypass s a
      s.setBackOf (s.next a) (s.back a)) a

/-- In front of the pool. -/
def free (a : π) : Pooled ρ π :=
  ((s.set (.next a) (s.head none)).setBackOf (s.head none) (some a)).set (.head none) (some a)

end Routines

/-! ### What they do to the fields -/

/-- The last node of a run that is not empty. -/
theorem endLoc_eq_next (loc : Loc (Option ρ) π) {pre : List π} (hpre : pre ≠ []) :
    ∃ p ∈ pre, endLoc loc pre = .next p := by
  cases pre with
  | nil => exact absurd rfl hpre
  | cons b pre =>
    rcases endLoc_eq (.next b : Loc (Option ρ) π) pre with h | ⟨p, hp, h⟩
    · exact ⟨b, mem_cons_self, h⟩
    · exact ⟨p, mem_cons_of_mem _ hp, h⟩

section Fields

variable [DecidableEq ρ] [DecidableEq π] {s : Pooled ρ π} {lists : Option ρ → List π} {r : ρ} {a : π}

theorem unlinkedAt_clear {s' : Pooled ρ π} {loc : Loc (Option ρ) π} (h : UnlinkedAt previous s s' loc a)
    (hloc : loc ≠ .next a) (hnext : s.next a ≠ some a) :
    UnlinkedAt previous s (clear s' a) loc a := h.of_self hloc hnext none none

theorem allocate_spec (h : Forest previous s lists) {pool : List π} (hpool : lists none = a :: pool) :
    (allocate s).1 = some a ∧ UnlinkedAt previous s (allocate s).2 (.head none) a := by
  have hhead : s.head none = some a := by rw [h.head_eq, hpool, List.head?_cons]
  have hnext : s.next a ≠ some a := h.next_ne (hpool.trans (nil_append (a :: pool)).symm)
  have hcut : UnlinkedAt previous s ((s.setBackOf (s.next a) none).set (.head none) (s.next a)) (.head none) a := by
    rw [Store.set_setBackOf]
    exact unlinkedAt_cut (.head none) a
  unfold allocate
  rw [hhead]
  exact ⟨rfl, unlinkedAt_clear hcut nofun hnext⟩

theorem link_spec (ha : s.head (some r) ≠ some a) : LinkedAt previous s (link s r a) (some r) a := by
  rw [link, Store.set_setBackOf]
  exact linkedAt_push ha

/-- A cleared node goes in front of the pool. -/
theorem free_spec (ha : s.head none ≠ some a) (hback : s.back a = none) :
    LinkedAt previous s (free s a) none a := by
  have hsame : (free s a).back a = none := by
    rw [free, Store.back_set, Store.back_setBackOf_of_ne _ ha, Store.back_set]
    exact hback
  rw [← Store.setBack_eq_self _ hsame]
  exact linkedAt_push ha

theorem unlink_spec (h : Forest previous s lists) {pre post : List π}
    (hr : lists (some r) = pre ++ a :: post) :
    UnlinkedAt previous s (unlink s r a) (endLoc (.head (some r)) pre) a := by
  have hnext := h.next_ne hr
  have hnodup := h.nodup (some r)
  rw [hr] at hnodup
  have hpre : ∀ b ∈ pre, b ≠ a := fun b hb =>
    (nodup_append.mp hnodup).2.2 b hb a mem_cons_self
  unfold unlink
  cases hfirst : pre with
  | nil =>
    have hhead : s.head (some r) = some a := by rw [h.head_eq, hr, hfirst]; rfl
    rw [if_pos hhead]
    refine unlinkedAt_clear ?_ nofun hnext
    have hget : (s.set (.head (some r)) (s.next a)).head (some r) = s.next a :=
      Store.get_set_self _ (.head (some r)) _
    dsimp only
    rw [hget]
    exact unlinkedAt_cut (.head (some r)) a
  | cons b pre' =>
    have hne : pre ≠ [] := hfirst ▸ cons_ne_nil b pre'
    obtain ⟨p, hp, hend⟩ := endLoc_eq_next (.head (some r)) hne
    have hpa := hpre p hp
    have hback : s.back a = some p := by rw [h.back_eq hr, hend]; rfl
    have hhead : s.head (some r) ≠ some a := by
      rw [h.head_eq, hr, hfirst]
      exact fun heq => hpre b (hfirst ▸ mem_cons_self) (some.inj heq)
    rw [if_neg hhead, ← hfirst, hend]
    refine unlinkedAt_clear ?_ (fun heq => hpa (Loc.next.inj heq)) hnext
    have hpast : bypass s a = s.set (.next p) (s.next a) := by rw [bypass, hback, elim_some]
    have hsame : (s.set (.next p) (s.next a)).next a = s.next a :=
      Store.get_set_of_ne _ (fun heq => hpa (Loc.next.inj heq).symm) _
    dsimp only
    rw [hpast, hsame, Store.back_set, hback]
    exact unlinkedAt_cut (.next p) a

end Fields

/-! ### What they do to the lists -/

section Lists

variable [DecidableEq ρ] (lists : Option ρ → List π)

/-- The first of the pool goes in front of list `r`. -/
def take (r : ρ) : Option ρ → List π :=
  match lists none with
  | [] => lists
  | a :: pool => update (update lists none pool) (some r) (a :: lists (some r))

/-- Node `a` goes from list `r` to the front of the pool. -/
def give [DecidableEq π] (r : ρ) (a : π) : Option ρ → List π :=
  update (update lists (some r) ((lists (some r)).erase a)) none (a :: lists none)

variable {lists} {s : Pooled ρ π} {r : ρ} {a : π} {pool : List π}

theorem take_eq (hpool : lists none = a :: pool) :
    take lists r = update (update lists none pool) (some r) (a :: lists (some r)) := by
  rw [take, hpool]

theorem take_none (hpool : lists none = a :: pool) : take lists r none = pool := by
  rw [take_eq hpool, update_of_ne (some_ne_none r).symm, update_self]

theorem take_self (hpool : lists none = a :: pool) : take lists r (some r) = a :: lists (some r) := by
  rw [take_eq hpool, update_self]

theorem take_other {q : ρ} (hq : q ≠ r) : take lists r (some q) = lists (some q) := by
  cases hpool : lists none with
  | nil => rw [take, hpool]
  | cons a pool =>
    rw [take_eq hpool, update_of_ne fun h => hq (some.inj h),
      update_of_ne (some_ne_none q)]

/-- A list keeps its nodes when one is taken. -/
theorem mem_take_of_mem {q : ρ} (h : a ∈ lists (some q)) : a ∈ take lists r (some q) := by
  by_cases hq : q = r
  · subst hq
    cases hpool : lists none with
    | nil => rwa [take, hpool]
    | cons b pool =>
      rw [take_self hpool]
      exact mem_cons_of_mem b h
  · rwa [take_other hq]

theorem mem_take (hpool : lists none = a :: pool) {b : π} :
    (∃ q, b ∈ take lists r q) ↔ ∃ q, b ∈ lists q := by
  constructor
  · rintro ⟨q, hq⟩
    cases q with
    | none =>
      rw [take_none hpool] at hq
      exact ⟨none, by rw [hpool]; exact mem_cons_of_mem a hq⟩
    | some q =>
      by_cases hqr : q = r
      · rw [hqr, take_self hpool] at hq
        rcases mem_cons.mp hq with rfl | hq
        · exact ⟨none, hpool ▸ mem_cons_self⟩
        · exact ⟨some r, hq⟩
      · rw [take_other hqr] at hq
        exact ⟨some q, hq⟩
  · rintro ⟨q, hq⟩
    cases q with
    | none =>
      rw [hpool] at hq
      rcases mem_cons.mp hq with rfl | hq
      · exact ⟨some r, by rw [take_self hpool]; exact mem_cons_self⟩
      · exact ⟨none, by rwa [take_none hpool]⟩
    | some q => exact ⟨some q, mem_take_of_mem hq⟩

variable [DecidableEq π]

theorem give_none : give lists r a none = a :: lists none := update_self ..

theorem give_self : give lists r a (some r) = (lists (some r)).erase a := by
  rw [give, update_of_ne (some_ne_none r), update_self]

theorem give_other {q : ρ} (hq : q ≠ r) : give lists r a (some q) = lists (some q) := by
  rw [give, update_of_ne (some_ne_none q),
    update_of_ne fun h => hq (some.inj h)]

theorem forest_take (h : Forest previous s lists) (hpool : lists none = a :: pool) :
    Forest previous (link (allocate s).2 r a) (take lists r) := by
  have hfront : lists none = [] ++ a :: pool := hpool
  have halloc : Forest previous (allocate s).2 (update lists none pool) :=
    h.unlink hfront (allocate_spec h hpool).2
  have hnew : ∀ q, a ∉ update lists none pool q := by
    intro q hq
    cases q with
    | none =>
      rw [update_self] at hq
      have hnodup := h.nodup none
      rw [hpool] at hnodup
      exact (nodup_cons.mp hnodup).1 hq
    | some q =>
      rw [update_of_ne (some_ne_none q)] at hq
      cases h.apart (some q) none a hq (hpool ▸ mem_cons_self)
  have hother : (allocate s).2.head (some r) ≠ some a := by
    rw [halloc.head_eq]
    exact fun heq => hnew (some r) (mem_of_mem_head? heq)
  have hlink := halloc.link hnew (link_spec hother)
  rw [update_of_ne (some_ne_none r)] at hlink
  rw [take_eq hpool]
  exact hlink

theorem forest_give (h : Forest previous s lists) (ha : a ∈ lists (some r)) :
    Forest previous (free (clear (unlink s r a) a) a) (give lists r a) := by
  obtain ⟨pre, post, hr⟩ := append_of_mem ha
  have hnodup := h.nodup (some r)
  rw [hr] at hnodup
  have hpre : a ∉ pre := fun hmem =>
    (nodup_append.mp hnodup).2.2 a hmem a mem_cons_self rfl
  have herase : (lists (some r)).erase a = pre ++ post := by
    rw [hr, erase_append_right _ hpre, erase_cons_head]
  have hunlink := h.unlink hr (unlink_spec h hr)
  rw [← herase] at hunlink
  have hgone : ∀ q, a ∉ update lists (some r) ((lists (some r)).erase a) q := by
    intro q hq
    by_cases hqr : q = some r
    · rw [hqr, update_self] at hq
      exact (h.nodup (some r)).not_mem_erase hq
    · rw [update_of_ne hqr] at hq
      exact hqr (h.apart q (some r) a hq ha)
  -- the node is in no list any more, so its fields are free to change
  have hclear : Forest previous (clear (unlink s r a) a)
      (update lists (some r) ((lists (some r)).erase a)) := by
    refine hunlink.congr (fun q => Store.get_setBack _ a _ (.head q)) fun q b hb => ?_
    have hba : b ≠ a := fun heq => hgone q (heq ▸ hb)
    refine ⟨?_, ?_⟩
    · exact (Store.get_setBack _ a _ (.next b)).trans
        (Store.get_set_of_ne _ (fun heq => hba (Loc.next.inj heq)) _)
    · rw [clear, Store.back_setBack_of_ne _ hba, Store.back_set]
  have hfront : (clear (unlink s r a) a).head none ≠ some a := by
    rw [hclear.head_eq]
    exact fun heq => hgone none (mem_of_mem_head? heq)
  have hfree := hclear.link hgone (free_spec hfront (Store.back_setBack_self ..))
  rw [update_of_ne (some_ne_none r).symm] at hfree
  exact hfree

/-- A list keeps its other nodes when one is given. -/
theorem mem_give_of_mem {q : ρ} {b : π} (h : b ∈ lists (some q)) (hba : b ≠ a) :
    b ∈ give lists r a (some q) := by
  by_cases hq : q = r
  · subst hq
    rw [give_self]
    exact (mem_erase_of_ne hba).mpr h
  · rwa [give_other hq]

theorem mem_give (ha : a ∈ lists (some r)) {b : π} :
    (∃ q, b ∈ give lists r a q) ↔ ∃ q, b ∈ lists q := by
  constructor
  · rintro ⟨q, hq⟩
    cases q with
    | none =>
      rw [give_none] at hq
      rcases mem_cons.mp hq with rfl | hq
      · exact ⟨some r, ha⟩
      · exact ⟨none, hq⟩
    | some q =>
      by_cases hqr : q = r
      · rw [hqr, give_self] at hq
        exact ⟨some r, mem_of_mem_erase hq⟩
      · rw [give_other hqr] at hq
        exact ⟨some q, hq⟩
  · rintro ⟨q, hq⟩
    by_cases hba : b = a
    · exact ⟨none, by rw [give_none, hba]; exact mem_cons_self⟩
    · cases q with
      | none => exact ⟨none, by rw [give_none]; exact mem_cons_of_mem a hq⟩
      | some q => exact ⟨some q, mem_give_of_mem hq hba⟩

end Lists

/-! ### Every node has its place -/

/-- The lists are linked in both directions, and every node is in one of them. -/
structure Tiles (nodes : π → Prop) (s : Pooled ρ π) (lists : Option ρ → List π) : Prop where
  forest : Forest previous s lists
  cover : ∀ a, nodes a ↔ ∃ r, a ∈ lists r

section Tiles

variable {nodes : π → Prop} {s : Pooled ρ π} {lists : Option ρ → List π} {r : ρ} {a : π} {pool : List π}

/-- It is there once, and nowhere else. -/
theorem Tiles.place (h : Tiles nodes s lists) (ha : nodes a) : ∃! r, a ∈ lists r := by
  obtain ⟨r, hr⟩ := (h.cover a).mp ha
  exact ⟨r, hr, fun q hq => h.forest.apart q r a hq hr⟩

/-- When all other lists are empty, the pool is full. -/
theorem Tiles.pool_full (h : Tiles nodes s lists) (hempty : ∀ r, lists (some r) = []) :
    (lists none).Nodup ∧ ∀ a, a ∈ lists none ↔ nodes a := by
  refine ⟨h.forest.nodup none, fun a => ⟨fun ha => (h.cover a).mpr ⟨none, ha⟩, fun ha => ?_⟩⟩
  obtain ⟨r, hr⟩ := (h.cover a).mp ha
  cases r with
  | none => exact hr
  | some r =>
    rw [hempty r] at hr
    cases hr

variable [DecidableEq ρ] [DecidableEq π]

theorem Tiles.take (h : Tiles nodes s lists) (hpool : lists none = a :: pool) :
    Tiles nodes (link (allocate s).2 r a) (take lists r) :=
  ⟨forest_take h.forest hpool, fun b => (h.cover b).trans (mem_take hpool).symm⟩

theorem Tiles.give (h : Tiles nodes s lists) (ha : a ∈ lists (some r)) :
    Tiles nodes (free (clear (unlink s r a) a) a) (give lists r a) :=
  ⟨forest_give h.forest ha, fun b => (h.cover b).trans (mem_give ha).symm⟩

/-- The head of an empty list is null already. -/
theorem Tiles.clear_head (h : Tiles nodes s lists) (hempty : lists (some r) = []) :
    Tiles nodes (s.set (.head (some r)) none) lists := by
  refine ⟨h.forest.congr (fun q => ?_) fun q b _ => ⟨rfl, rfl⟩, h.cover⟩
  by_cases hq : q = some r
  · rw [hq, h.forest.head_eq, hempty]
    exact Store.get_set_self _ (.head (some r)) _
  · exact Store.get_set_of_ne _ (fun heq => hq (Loc.head.inj heq)) _

end Tiles

/-! ### The start -/

section Fresh

/-- The nodes `0`, ..., `n - 1`, all free. -/
def fresh (n : ℕ) : Pooled ρ ℕ where
  head r := if r.isNone ∧ 0 < n then some 0 else none
  next a := if a + 1 < n then some (a + 1) else none
  back a := if a = 0 then none else some (a - 1)

/-- All in the pool. -/
def unused (n : ℕ) : Option ρ → List ℕ
  | none => List.range n
  | some _ => []

/-- Where the pointer to a node is kept at the start. -/
def seat : ℕ → Loc (Option ρ) ℕ
  | 0 => .head none
  | a + 1 => .next a

variable {n : ℕ}

theorem get_seat (a : ℕ) : (fresh n : Pooled ρ ℕ).get (seat a) = if a < n then some a else none := by
  cases a with
  | zero => simp [seat, Store.get, fresh]
  | succ a => rfl

theorem back_fresh (a : ℕ) : (fresh n : Pooled ρ ℕ).back a = previous (seat a : Loc (Option ρ) ℕ) := by
  cases a <;> rfl

theorem chain_fresh (m : ℕ) (a : ℕ) (h : a + m = n) :
    Chain previous (fresh n : Pooled ρ ℕ) (seat a) (List.range' a m) := by
  induction m generalizing a with
  | zero => exact ⟨trivial, (get_seat a).trans (if_neg (by omega))⟩
  | succ m ih =>
    rw [List.range'_succ]
    refine chain_cons.mpr ⟨(get_seat a).trans (if_pos (by omega)), back_fresh a, ?_⟩
    exact ih (a + 1) (by omega)

theorem tiles_fresh : Tiles (· < n) (fresh n : Pooled ρ ℕ) (unused n) where
  forest := by
    refine ⟨fun r => ?_, fun q r a hq hr => ?_⟩
    · cases r with
      | none =>
        have hchain := chain_fresh (ρ := ρ) n 0 (Nat.zero_add n)
        rw [← range_eq_range'] at hchain
        exact hchain
      | some r =>
        have hhead : (fresh n : Pooled ρ ℕ).head (some r) = none := by simp [fresh]
        exact ⟨trivial, hhead⟩
    · cases q with
      | some q => cases hq
      | none =>
        cases r with
        | some r => cases hr
        | none => rfl
  cover a := by
    constructor
    · exact fun ha => ⟨none, mem_range.mpr ha⟩
    · rintro ⟨r, hr⟩
      cases r with
      | none => exact mem_range.mp hr
      | some r => cases hr

/-- When all other lists are empty, all entries are in the pool. -/
theorem Tiles.pool_perm {s : Pooled ρ ℕ} {lists : Option ρ → List ℕ} (h : Tiles (· < n) s lists)
    (hempty : ∀ r, lists (some r) = []) : (lists none).Perm (List.range n) := by
  obtain ⟨hnodup, hmem⟩ := h.pool_full hempty
  exact (perm_ext_iff_of_nodup hnodup nodup_range).mpr fun a => (hmem a).trans mem_range.symm

end Fresh

end PhoebusBsp.Schemes.Arena

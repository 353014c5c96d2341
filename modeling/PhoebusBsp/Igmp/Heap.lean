import PhoebusBsp.Igmp.Table
import PhoebusBsp.Schemes.Arena

/-! The entries of groups, clients and sources as they lie in memory: three arrays, linked through `next`
    and `previous`. A group entry has the head of its clients, a client entry the head of its sources.

        groupEntryPool     hashTable[bucket]        ┐
        clientEntryPool    groupEntry->clientList   ├ heads of doubly linked lists
        sourceEntryPool    clientEntry->sourceList  ┘

    Entries are numbers, the places in their arrays. `Layout` says which entries hang where, and `Sound`
    that the pointers in memory say the same. The handlers change memory through six calls only, and each
    keeps this (`exec_sound`). -/

namespace PhoebusBsp.Igmp
open Schemes Arena

/-- The links of all entries. In `clients` the head of `g` is `clientList` of group entry `g`, in
    `sources` the head of `c` is `sourceList` of client entry `c`. -/
structure Heap where
  groups : Pooled Bucket ℕ
  clients : Pooled ℕ ℕ
  sources : Pooled ℕ ℕ

/-- `rtk_igmp_initGroupEntryPool`, `rtk_igmp_initClientEntryPool` and `rtk_igmp_initSourceEntryPool`. -/
def Heap.init (groupCount clientCount sourceCount : ℕ) : Heap where
  groups := fresh groupCount
  clients := fresh clientCount
  sources := fresh sourceCount

/-! ### Entries of groups -/

section Routines

variable (m : Heap)

/-- All of the new entry is zero, also the head of its clients. -/
def allocateGroupEntry : Option ℕ × Heap :=
  match allocate m.groups with
  | (none, groups) => (none, { m with groups := groups })
  | (some a, groups) =>
    (some a, { m with groups := groups, clients := m.clients.set (.head (some a)) none })

def linkGroupEntry (b : Bucket) (a : ℕ) : Heap := { m with groups := link m.groups b a }

def unlinkGroupEntry (b : Bucket) (a : ℕ) : Heap := { m with groups := unlink m.groups b a }

def clearGroupEntry (a : ℕ) : Heap :=
  { m with groups := clear m.groups a, clients := m.clients.set (.head (some a)) none }

def freeGroupEntry (a : ℕ) : Heap := { m with groups := free m.groups a }

/-! ### Entries of clients -/

def allocateClientEntry : Option ℕ × Heap :=
  match allocate m.clients with
  | (none, clients) => (none, { m with clients := clients })
  | (some a, clients) =>
    (some a, { m with clients := clients, sources := m.sources.set (.head (some a)) none })

def linkClientEntry (g a : ℕ) : Heap := { m with clients := link m.clients g a }

def unlinkClientEntry (g a : ℕ) : Heap := { m with clients := unlink m.clients g a }

def clearClientEntry (a : ℕ) : Heap :=
  { m with clients := clear m.clients a, sources := m.sources.set (.head (some a)) none }

def freeClientEntry (a : ℕ) : Heap := { m with clients := free m.clients a }

/-! ### Entries of sources -/

def allocateSourceEntry : Option ℕ × Heap :=
  ((allocate m.sources).1, { m with sources := (allocate m.sources).2 })

def linkSourceEntry (c a : ℕ) : Heap := { m with sources := link m.sources c a }

def unlinkSourceEntry (c a : ℕ) : Heap := { m with sources := unlink m.sources c a }

def clearSourceEntry (a : ℕ) : Heap := { m with sources := clear m.sources a }

def freeSourceEntry (a : ℕ) : Heap := { m with sources := free m.sources a }

end Routines

/-! ### Calls -/

def exec (m : Heap) : Call → Heap
  | .newGroup b =>
    match allocateGroupEntry m with
    | (none, m) => m
    | (some a, m) => linkGroupEntry m b a
  | .deleteGroup b a => freeGroupEntry (clearGroupEntry (unlinkGroupEntry m b a) a) a
  | .newClient g =>
    match allocateClientEntry m with
    | (none, m) => m
    | (some a, m) => linkClientEntry m g a
  | .deleteClient g a => freeClientEntry (clearClientEntry (unlinkClientEntry m g a) a) a
  | .newSource c =>
    match allocateSourceEntry m with
    | (none, m) => m
    | (some a, m) => linkSourceEntry m c a
  | .deleteSource c a => freeSourceEntry (clearSourceEntry (unlinkSourceEntry m c a) a) a

/-! ### Layouts -/

/-- Which entries hang where; `none` is the pool. -/
structure Layout where
  groups : Option Bucket → List ℕ
  clients : Option ℕ → List ℕ
  sources : Option ℕ → List ℕ

/-- What a call does to the lists. -/
def Layout.apply (L : Layout) : Call → Layout
  | .newGroup b => { L with groups := take L.groups b }
  | .deleteGroup b a => { L with groups := give L.groups b a }
  | .newClient g => { L with clients := take L.clients g }
  | .deleteClient g a => { L with clients := give L.clients g a }
  | .newSource c => { L with sources := take L.sources c }
  | .deleteSource c a => { L with sources := give L.sources c a }

/-- A call that a handler may make: there is a free entry, or the entry is where it is taken from and
    nothing hangs at it. -/
def Call.Legal (L : Layout) : Call → Prop
  | .newGroup _ => L.groups none ≠ []
  | .deleteGroup b a => a ∈ L.groups (some b) ∧ L.clients (some a) = []
  | .newClient g => L.clients none ≠ [] ∧ ∃ b, g ∈ L.groups (some b)
  | .deleteClient g a => a ∈ L.clients (some g) ∧ L.sources (some a) = []
  | .newSource c => L.sources none ≠ [] ∧ ∃ g, c ∈ L.clients (some g)
  | .deleteSource c a => a ∈ L.sources (some c)

/-- The pointers link the entries as the layout says; every entry is in one list; clients hang at groups
    that are linked, and sources at clients that are. -/
structure Sound (groupCount clientCount sourceCount : ℕ) (m : Heap) (L : Layout) : Prop where
  groups : Tiles (· < groupCount) m.groups L.groups
  clients : Tiles (· < clientCount) m.clients L.clients
  sources : Tiles (· < sourceCount) m.sources L.sources
  clientsAt : ∀ g, L.clients (some g) ≠ [] → ∃ b, g ∈ L.groups (some b)
  sourcesAt : ∀ c, L.sources (some c) ≠ [] → ∃ g, c ∈ L.clients (some g)

/-! What hangs at entries of another array keeps hanging at linked ones. -/

section Hanging

variable {α : Type} {upper : Option α → List ℕ} {lower : Option ℕ → List ℕ} {b : α} {x a : ℕ}
  (h : ∀ x, lower (some x) ≠ [] → ∃ b, x ∈ upper (some b))
include h

theorem hanging_take_upper [DecidableEq α] (hx : lower (some x) ≠ []) : ∃ b', x ∈ take upper b (some b') := by
  obtain ⟨b', hb'⟩ := h x hx
  exact ⟨b', mem_take_of_mem hb'⟩

theorem hanging_give_upper [DecidableEq α] (hempty : lower (some a) = []) (hx : lower (some x) ≠ []) :
    ∃ b', x ∈ give upper b a (some b') := by
  obtain ⟨b', hb'⟩ := h x hx
  exact ⟨b', mem_give_of_mem hb' fun hxa => hx (hxa ▸ hempty)⟩

theorem hanging_take_lower {y : ℕ} (hy : y ∈ upper (some b)) (hx : take lower y (some x) ≠ []) :
    ∃ b, x ∈ upper (some b) := by
  by_cases hxy : x = y
  · exact ⟨b, hxy ▸ hy⟩
  · exact h x fun hnil => hx ((take_other hxy).trans hnil)

theorem hanging_give_lower {y : ℕ} (ha : a ∈ lower (some y)) (hx : give lower y a (some x) ≠ []) :
    ∃ b, x ∈ upper (some b) := by
  by_cases hxy : x = y
  · exact h x (hxy ▸ List.ne_nil_of_mem ha)
  · exact h x fun hnil => hx ((give_other hxy).trans hnil)

/-- Nothing hangs at a free entry. -/
theorem hanging_free {count : ℕ} {m : Pooled α ℕ} (htiles : Tiles (· < count) m upper) (ha : a ∈ upper none) :
    lower (some a) = [] := by
  by_contra hne
  obtain ⟨b, hb⟩ := h a hne
  cases htiles.forest.apart (some b) none a hb ha

end Hanging

section Sound

variable {G C S : ℕ} {m : Heap} {L : Layout}

/-- Without clients the pools of clients and sources are full. -/
theorem Sound.clients_full (h : Sound G C S m L) (hempty : ∀ g, L.clients (some g) = []) :
    (L.clients none).Perm (List.range C) ∧ (L.sources none).Perm (List.range S) := by
  refine ⟨h.clients.pool_perm hempty, h.sources.pool_perm fun c => ?_⟩
  by_contra hne
  obtain ⟨g, hg⟩ := h.sourcesAt c hne
  exact List.not_mem_nil (hempty g ▸ hg)

theorem exec_sound (c : Call) (hc : c.Legal L) (h : Sound G C S m L) :
    Sound G C S (exec m c) (L.apply c) := by
  cases c with
  | newGroup b =>
    obtain ⟨a, pool, hpool⟩ := List.exists_cons_of_ne_nil hc
    have hfree : L.clients (some a) = [] := hanging_free h.clientsAt h.groups (hpool ▸ List.mem_cons_self)
    have halloc := (allocate_spec h.groups.forest hpool).1
    have hexec : exec m (.newGroup b) = { m with
        groups := link (allocate m.groups).2 b a, clients := m.clients.set (.head (some a)) none } := by
      unfold exec allocateGroupEntry
      rcases hgroups : allocate m.groups with ⟨p, groups⟩
      rw [hgroups] at halloc
      obtain rfl : p = some a := halloc
      rfl
    rw [hexec]
    exact ⟨h.groups.take hpool, h.clients.clear_head hfree, h.sources, fun _ => hanging_take_upper h.clientsAt,
      h.sourcesAt⟩
  | deleteGroup b a =>
    obtain ⟨ha, hempty⟩ := hc
    exact ⟨h.groups.give ha, h.clients.clear_head hempty, h.sources, fun _ => hanging_give_upper h.clientsAt hempty,
      h.sourcesAt⟩
  | newClient g =>
    obtain ⟨hne, b, hb⟩ := hc
    obtain ⟨a, pool, hpool⟩ := List.exists_cons_of_ne_nil hne
    have hfree : L.sources (some a) = [] := hanging_free h.sourcesAt h.clients (hpool ▸ List.mem_cons_self)
    have halloc := (allocate_spec h.clients.forest hpool).1
    have hexec : exec m (.newClient g) = { m with
        clients := link (allocate m.clients).2 g a, sources := m.sources.set (.head (some a)) none } := by
      unfold exec allocateClientEntry
      rcases hclients : allocate m.clients with ⟨p, clients⟩
      rw [hclients] at halloc
      obtain rfl : p = some a := halloc
      rfl
    rw [hexec]
    exact ⟨h.groups, h.clients.take hpool, h.sources.clear_head hfree, fun _ => hanging_take_lower h.clientsAt hb,
      fun _ => hanging_take_upper h.sourcesAt⟩
  | deleteClient g a =>
    obtain ⟨ha, hempty⟩ := hc
    exact ⟨h.groups, h.clients.give ha, h.sources.clear_head hempty, fun _ => hanging_give_lower h.clientsAt ha,
      fun _ => hanging_give_upper h.sourcesAt hempty⟩
  | newSource c =>
    obtain ⟨hne, g, hg⟩ := hc
    obtain ⟨a, pool, hpool⟩ := List.exists_cons_of_ne_nil hne
    have halloc := (allocate_spec h.sources.forest hpool).1
    have hexec : exec m (.newSource c) = { m with sources := link (allocate m.sources).2 c a } := by
      unfold exec allocateSourceEntry
      rw [halloc]
      rfl
    rw [hexec]
    exact ⟨h.groups, h.clients, h.sources.take hpool, h.clientsAt, fun _ => hanging_take_lower h.sourcesAt hg⟩
  | deleteSource c a =>
    exact ⟨h.groups, h.clients, h.sources.give hc, h.clientsAt, fun _ => hanging_give_lower h.sourcesAt hc⟩

/-- All entries are free at the start. -/
theorem sound_init : Sound G C S (.init G C S) ⟨unused G, unused C, unused S⟩ :=
  ⟨tiles_fresh, tiles_fresh, tiles_fresh, fun _ h => absurd rfl h, fun _ h => absurd rfl h⟩

end Sound

end PhoebusBsp.Igmp

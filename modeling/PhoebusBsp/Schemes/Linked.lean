import Mathlib.Data.List.Nodup
import Mathlib.Logic.Function.Basic

/-! Intrusive linked lists. A node holds the pointer to its successor and something that leads back to the
    place where the pointer to the node itself is kept, which is the head of its list or the successor
    field of another node:

        head r ──▶ a ──next a──▶ b ──next b──▶ c ──next c──▶ null
               ◀─back a─      ◀─back b─      ◀─back c─

    `mk` says how a node remembers such a place, so that `pprev` pointers and `previous` pointers are two
    cases of one theory. Changes are described by what they do to the fields, whatever the order of the
    writes. -/

namespace PhoebusBsp.Schemes.Linked
open Function List

/-- Where a pointer to a node is kept. -/
inductive Loc (ρ π : Type) where
  | head (r : ρ)
  | next (a : π)
  deriving DecidableEq

structure Store (ρ π β : Type) where
  head : ρ → Option π
  next : π → Option π
  back : π → β

variable {ρ π β : Type}

def Store.get (s : Store ρ π β) : Loc ρ π → Option π
  | .head r => s.head r
  | .next a => s.next a

section Writes

variable [DecidableEq π] (s : Store ρ π β)

def Store.setBack (a : π) (b : β) : Store ρ π β := { s with back := update s.back a b }

@[simp] theorem Store.get_setBack (a : π) (b : β) (x : Loc ρ π) : (s.setBack a b).get x = s.get x := by
  cases x <;> rfl

@[simp] theorem Store.back_setBack_self (a : π) (b : β) : (s.setBack a b).back a = b :=
  update_self ..

theorem Store.back_setBack_of_ne {a c : π} (h : c ≠ a) (b : β) : (s.setBack a b).back c = s.back c :=
  update_of_ne h ..

variable [DecidableEq ρ]

/-- Write a pointer. -/
def Store.set : Loc ρ π → Option π → Store ρ π β
  | .head r, v => { s with head := update s.head r v }
  | .next a, v => { s with next := update s.next a v }

@[simp] theorem Store.get_set_self (x : Loc ρ π) (v : Option π) : (s.set x v).get x = v := by
  cases x <;> exact update_self ..

theorem Store.get_set_of_ne {x y : Loc ρ π} (h : y ≠ x) (v : Option π) : (s.set x v).get y = s.get y := by
  cases x <;> cases y
  case head.head r q => exact update_of_ne (fun heq : q = r => h (congrArg Loc.head heq)) ..
  case next.next a b => exact update_of_ne (fun heq : b = a => h (congrArg Loc.next heq)) ..
  all_goals rfl

@[simp] theorem Store.get_head_set_next (a : π) (v : Option π) (r : ρ) :
    (s.set (.next a) v).get (.head r) = s.head r := rfl

@[simp] theorem Store.get_next_set_head (r : ρ) (v : Option π) (a : π) :
    (s.set (.head r) v).get (.next a) = s.next a := rfl

@[simp] theorem Store.back_set (x : Loc ρ π) (v : Option π) : (s.set x v).back = s.back := by
  cases x <;> rfl

end Writes

/-- Where the pointer behind a run of nodes is kept. -/
def endLoc : Loc ρ π → List π → Loc ρ π
  | loc, [] => loc
  | _, a :: l => endLoc (.next a) l

/-- The places that the pointers to a run of nodes are read from. -/
def locs : Loc ρ π → List π → List (Loc ρ π)
  | _, [] => []
  | loc, a :: l => loc :: locs (.next a) l

theorem endLoc_append (loc : Loc ρ π) (l l' : List π) :
    endLoc loc (l ++ l') = endLoc (endLoc loc l) l' := by
  induction l generalizing loc with
  | nil => rfl
  | cons a l ih => exact ih (.next a)

theorem endLoc_eq (loc : Loc ρ π) (l : List π) : endLoc loc l = loc ∨ ∃ a ∈ l, endLoc loc l = .next a := by
  induction l generalizing loc with
  | nil => exact Or.inl rfl
  | cons a l ih =>
    rcases ih (.next a) with h | ⟨b, hb, h⟩
    · exact Or.inr ⟨a, mem_cons_self, h⟩
    · exact Or.inr ⟨b, mem_cons_of_mem _ hb, h⟩

theorem endLoc_ne_next {r : ρ} {b : π} {l : List π} (h : b ∉ l) :
    (.next b : Loc ρ π) ≠ endLoc (.head r) l := by
  intro heq
  rcases endLoc_eq (.head r : Loc ρ π) l with hend | ⟨a, ha, hend⟩
  · cases heq.trans hend
  · exact h (Loc.next.inj (heq.trans hend) ▸ ha)

theorem endLoc_ne_head {q r : ρ} {l : List π} (h : q ≠ r) :
    (.head q : Loc ρ π) ≠ endLoc (.head r) l := by
  intro heq
  rcases endLoc_eq (.head r : Loc ρ π) l with hend | ⟨a, -, hend⟩
  · exact h (Loc.head.inj (heq.trans hend))
  · cases heq.trans hend

theorem eq_of_mem_locs {loc x : Loc ρ π} {l : List π} (h : x ∈ locs loc l) :
    x = loc ∨ ∃ a ∈ l, x = .next a := by
  induction l generalizing loc with
  | nil => exact absurd h not_mem_nil
  | cons a l ih =>
    rcases mem_cons.mp h with rfl | h
    · exact Or.inl rfl
    · rcases ih h with rfl | ⟨b, hb, rfl⟩
      · exact Or.inr ⟨a, mem_cons_self, rfl⟩
      · exact Or.inr ⟨b, mem_cons_of_mem _ hb, rfl⟩

/-- The pointer behind the run is not one of those that lead into it. -/
theorem endLoc_notMem_locs {loc : Loc ρ π} {l : List π} (hl : l.Nodup)
    (hloc : ∀ a ∈ l, loc ≠ .next a) : endLoc loc l ∉ locs loc l := by
  induction l generalizing loc with
  | nil => exact not_mem_nil
  | cons a l ih =>
    obtain ⟨ha, hl⟩ := nodup_cons.mp hl
    have hne : ∀ b ∈ l, (Loc.next a : Loc ρ π) ≠ .next b := by
      rintro b hb heq
      exact ha (Loc.next.inj heq ▸ hb)
    intro hmem
    rcases mem_cons.mp hmem with heq | hmem
    · rcases endLoc_eq (.next a : Loc ρ π) l with h | ⟨b, hb, h⟩
      · exact hloc a mem_cons_self (heq.symm.trans h)
      · exact hloc b (mem_cons_of_mem _ hb) (heq.symm.trans h)
    · exact ih hl hne hmem

section Chain

variable (mk : Loc ρ π → β)

/-- From `loc` on the nodes of `l` are linked in both directions. -/
def Links (s : Store ρ π β) : Loc ρ π → List π → Prop
  | _, [] => True
  | loc, a :: l => s.get loc = some a ∧ s.back a = mk loc ∧ Links s (.next a) l

/-- The whole list that starts at `loc`. -/
structure Chain (s : Store ρ π β) (loc : Loc ρ π) (l : List π) : Prop where
  links : Links mk s loc l
  ends : s.get (endLoc loc l) = none

variable {mk} {s s' : Store ρ π β} {loc : Loc ρ π} {l l' : List π}

theorem links_append : Links mk s loc (l ++ l') ↔ Links mk s loc l ∧ Links mk s (endLoc loc l) l' := by
  induction l generalizing loc with
  | nil => simp [Links, endLoc]
  | cons a l ih =>
    simp [Links, endLoc, ih, and_assoc]

theorem Links.congr (h : Links mk s loc l) (hget : ∀ x ∈ locs loc l, s'.get x = s.get x)
    (hback : ∀ a ∈ l, s'.back a = s.back a) : Links mk s' loc l := by
  induction l generalizing loc with
  | nil => trivial
  | cons a l ih =>
    obtain ⟨hfirst, hmk, hrest⟩ := h
    refine ⟨(hget loc mem_cons_self).trans hfirst, (hback a mem_cons_self).trans hmk, ?_⟩
    exact ih hrest (fun x hx => hget x (mem_cons_of_mem _ hx))
      fun b hb => hback b (mem_cons_of_mem _ hb)

theorem chain_append : Chain mk s loc (l ++ l') ↔ Links mk s loc l ∧ Chain mk s (endLoc loc l) l' := by
  constructor
  · rintro ⟨hlinks, hends⟩
    rw [endLoc_append] at hends
    exact ⟨(links_append.mp hlinks).1, (links_append.mp hlinks).2, hends⟩
  · rintro ⟨hlinks, hrest, hends⟩
    rw [← endLoc_append] at hends
    exact ⟨links_append.mpr ⟨hlinks, hrest⟩, hends⟩

theorem chain_cons {a : π} :
    Chain mk s loc (a :: l) ↔ s.get loc = some a ∧ s.back a = mk loc ∧ Chain mk s (.next a) l := by
  constructor
  · rintro ⟨⟨hget, hback, hlinks⟩, hends⟩
    exact ⟨hget, hback, hlinks, hends⟩
  · rintro ⟨hget, hback, hlinks, hends⟩
    exact ⟨⟨hget, hback, hlinks⟩, hends⟩

/-- A pointer leads to one list only. -/
theorem Chain.unique (h : Chain mk s loc l) (h' : Chain mk s loc l') : l = l' := by
  induction l generalizing loc l' with
  | nil =>
    cases l' with
    | nil => rfl
    | cons b l' => exact absurd (h.ends.symm.trans (chain_cons.mp h').1) nofun
  | cons a l ih =>
    obtain ⟨ha, -, hrest⟩ := chain_cons.mp h
    cases l' with
    | nil => exact absurd (ha.symm.trans h'.ends) nofun
    | cons b l' =>
      obtain ⟨hb, -, hrest'⟩ := chain_cons.mp h'
      obtain rfl : a = b := Option.some.inj (ha.symm.trans hb)
      rw [ih hrest hrest']

/-- No node is met twice: the list from its second place would be the one from its first. -/
theorem Chain.nodup (h : Chain mk s loc l) : l.Nodup := by
  induction l generalizing loc with
  | nil => exact nodup_nil
  | cons a l ih =>
    obtain ⟨-, -, hrest⟩ := chain_cons.mp h
    refine nodup_cons.mpr ⟨fun hmem => ?_, ih hrest⟩
    obtain ⟨p, q, rfl⟩ := append_of_mem hmem
    have hagain := (chain_cons.mp (chain_append.mp hrest).2).2.2
    have hlen := congrArg List.length (hrest.unique hagain)
    simp only [length_append, length_cons] at hlen
    omega

/-- Changes to other nodes do not matter. -/
theorem Chain.congr (h : Chain mk s loc l) (hloc : s'.get loc = s.get loc)
    (hnode : ∀ a ∈ l, s'.next a = s.next a ∧ s'.back a = s.back a) : Chain mk s' loc l := by
  have hget : ∀ x, x = loc ∨ (∃ a ∈ l, x = .next a) → s'.get x = s.get x := by
    rintro x (rfl | ⟨a, ha, rfl⟩)
    · exact hloc
    · exact (hnode a ha).1
  exact ⟨h.links.congr (fun x hx => hget x (eq_of_mem_locs hx)) fun a ha => (hnode a ha).2,
    (hget _ (endLoc_eq _ _)).trans h.ends⟩

theorem Chain.get_eq (h : Chain mk s loc l) : s.get loc = l.head? := by
  cases l with
  | nil => exact h.ends
  | cons a l => exact (chain_cons.mp h).1

end Chain

/-! ### Changes -/

section Changes

variable (mk : Loc ρ π → β) {post : List π}

/-- Node `a` is put in front of list `r`. -/
structure LinkedAt (s s' : Store ρ π β) (r : ρ) (a : π) : Prop where
  head_self : s'.head r = some a
  head_other : ∀ q, q ≠ r → s'.head q = s.head q
  next_self : s'.next a = s.head r
  next_other : ∀ b, b ≠ a → s'.next b = s.next b
  back_self : s'.back a = mk (.head r)
  back_first : ∀ b, s.head r = some b → s'.back b = mk (.next a)
  back_other : ∀ b, b ≠ a → s.head r ≠ some b → s'.back b = s.back b

/-- Node `a`, to which the pointer at `loc` leads, is taken out. -/
structure UnlinkedAt (s s' : Store ρ π β) (loc : Loc ρ π) (a : π) : Prop where
  get_self : s'.get loc = s.next a
  get_other : ∀ x, x ≠ loc → x ≠ .next a → s'.get x = s.get x
  back_next : ∀ b, s.next a = some b → s'.back b = mk loc
  back_other : ∀ b, b ≠ a → s.next a ≠ some b → s'.back b = s.back b

/-- Several lists without a common node. -/
structure Forest (s : Store ρ π β) (lists : ρ → List π) : Prop where
  chain : ∀ r, Chain mk s (.head r) (lists r)
  apart : ∀ q r a, a ∈ lists q → a ∈ lists r → q = r

section Code

variable [DecidableEq π] (s : Store ρ π β)

/-- The back reference of the node that a pointer leads to. -/
def Store.setBackOf (p : Option π) (b : β) : Store ρ π β := p.elim s fun a => s.setBack a b

@[simp] theorem Store.get_setBackOf (p : Option π) (b : β) (x : Loc ρ π) :
    (s.setBackOf p b).get x = s.get x := by
  cases p with
  | none => rfl
  | some a => exact s.get_setBack a b x

theorem Store.back_setBackOf_self (a : π) (b : β) : (s.setBackOf (some a) b).back a = b :=
  s.back_setBack_self a b

theorem Store.back_setBackOf_of_ne {p : Option π} {c : π} (h : p ≠ some c) (b : β) :
    (s.setBackOf p b).back c = s.back c := by
  cases p with
  | none => rfl
  | some a => exact s.back_setBack_of_ne (fun heq : c = a => h (congrArg some heq.symm)) b

theorem Store.setBack_eq_self {a : π} {b : β} (h : s.back a = b) : s.setBack a b = s := by
  rw [Store.setBack, update_eq_self_iff.mpr h.symm]

variable [DecidableEq ρ]

theorem Store.set_setBackOf (p : Option π) (b : β) (x : Loc ρ π) (v : Option π) :
    (s.setBackOf p b).set x v = (s.set x v).setBackOf p b := by
  cases p <;> cases x <;> rfl

/-- The writes that put a node in front. -/
def Store.push (r : ρ) (a : π) : Store ρ π β :=
  (((s.set (.next a) (s.head r)).setBackOf (s.head r) (mk (.next a))).set (.head r) (some a)).setBack a
    (mk (.head r))

/-- The writes that lead past a node. -/
def Store.cut (loc : Loc ρ π) (a : π) : Store ρ π β :=
  (s.set loc (s.next a)).setBackOf (s.next a) (mk loc)

variable {s mk}

theorem linkedAt_push {r : ρ} {a : π} (ha : s.head r ≠ some a) : LinkedAt mk s (s.push mk r a) r a where
  head_self := (Store.get_setBack _ a _ (.head r)).trans (Store.get_set_self _ _ _)
  head_other q hq := by
    have hne : (Loc.head q : Loc ρ π) ≠ .head r := fun h => hq (Loc.head.inj h)
    refine (Store.get_setBack _ a _ (.head q)).trans ?_
    rw [Store.get_set_of_ne _ hne, Store.get_setBackOf, Store.get_head_set_next]
  next_self := by
    refine (Store.get_setBack _ a _ (.next a)).trans ?_
    rw [Store.get_next_set_head]
    exact (Store.get_setBackOf _ _ _ (.next a)).trans (Store.get_set_self _ _ _)
  next_other b hb := by
    have hne : (Loc.next b : Loc ρ π) ≠ .next a := fun h => hb (Loc.next.inj h)
    refine (Store.get_setBack _ a _ (.next b)).trans ?_
    rw [Store.get_next_set_head]
    exact (Store.get_setBackOf _ _ _ (.next b)).trans (Store.get_set_of_ne _ hne _)
  back_self := Store.back_setBack_self ..
  back_first b hb := by
    have hba : b ≠ a := fun h => ha (h ▸ hb)
    rw [Store.push, Store.back_setBack_of_ne _ hba, Store.back_set, hb]
    exact Store.back_setBackOf_self ..
  back_other b hba hb := by
    rw [Store.push, Store.back_setBack_of_ne _ hba, Store.back_set, Store.back_setBackOf_of_ne _ hb,
      Store.back_set]

theorem unlinkedAt_cut (loc : Loc ρ π) (a : π) : UnlinkedAt mk s (s.cut mk loc a) loc a where
  get_self := by rw [Store.cut, Store.get_setBackOf, Store.get_set_self]
  get_other x hx _ := by rw [Store.cut, Store.get_setBackOf, Store.get_set_of_ne _ hx]
  back_next b hb := by
    rw [Store.cut, hb]
    exact Store.back_setBackOf_self ..
  back_other b _ hb := by rw [Store.cut, Store.back_setBackOf_of_ne _ hb, Store.back_set]

/-- What becomes of the node that was taken out does not matter. -/
theorem UnlinkedAt.of_self {s' : Store ρ π β} {loc : Loc ρ π} {a : π} (h : UnlinkedAt mk s s' loc a)
    (hloc : loc ≠ .next a) (hnext : s.next a ≠ some a) (v : Option π) (b : β) :
    UnlinkedAt mk s ((s'.set (.next a) v).setBack a b) loc a where
  get_self := by rw [Store.get_setBack, Store.get_set_of_ne _ hloc, h.get_self]
  get_other x hx hxa := by rw [Store.get_setBack, Store.get_set_of_ne _ hxa, h.get_other x hx hxa]
  back_next c hc := by
    have hca : c ≠ a := fun heq => hnext (heq ▸ hc)
    rw [Store.back_setBack_of_ne _ hca, Store.back_set, h.back_next c hc]
  back_other c hca hc := by rw [Store.back_setBack_of_ne _ hca, Store.back_set, h.back_other c hca hc]

end Code

variable {mk} {s s' : Store ρ π β} {lists : ρ → List π} {r : ρ} {a : π}

theorem Forest.congr (h : Forest mk s lists) (hhead : ∀ r, s'.head r = s.head r)
    (hnode : ∀ r, ∀ a ∈ lists r, s'.next a = s.next a ∧ s'.back a = s.back a) : Forest mk s' lists :=
  ⟨fun r => (h.chain r).congr (hhead r) (hnode r), h.apart⟩

theorem Forest.nodup (h : Forest mk s lists) (r : ρ) : (lists r).Nodup := (h.chain r).nodup

theorem Forest.head_eq (h : Forest mk s lists) (r : ρ) : s.head r = (lists r).head? := (h.chain r).get_eq

/-- A node knows where the pointer to it is kept. -/
theorem Forest.back_eq (h : Forest mk s lists) {pre : List π} (hr : lists r = pre ++ a :: post) :
    s.back a = mk (endLoc (.head r) pre) := by
  have hchain := h.chain r
  rw [hr] at hchain
  exact (chain_cons.mp (chain_append.mp hchain).2).2.1

theorem Forest.next_eq (h : Forest mk s lists) {pre : List π} (hr : lists r = pre ++ a :: post) :
    s.next a = post.head? := by
  have hchain := h.chain r
  rw [hr] at hchain
  exact (chain_cons.mp (chain_append.mp hchain).2).2.2.get_eq

theorem Forest.next_ne (h : Forest mk s lists) {pre : List π} (hr : lists r = pre ++ a :: post) :
    s.next a ≠ some a := by
  have hnodup := h.nodup r
  rw [hr] at hnodup
  have ha := (nodup_cons.mp (nodup_append.mp hnodup).2.1).1
  rw [h.next_eq hr]
  exact fun heq => ha (mem_of_mem_head? heq)

variable [DecidableEq ρ]

theorem Forest.link (h : Forest mk s lists) (ha : ∀ r, a ∉ lists r) (hl : LinkedAt mk s s' r a) :
    Forest mk s' (update lists r (a :: lists r)) where
  chain q := by
    have hnext : ∀ {q b}, b ∈ lists q → s'.next b = s.next b := by
      intro q b hb
      exact hl.next_other b fun heq => ha q (heq ▸ hb)
    have hback : ∀ {q b}, b ∈ lists q → (lists r).head? ≠ some b → s'.back b = s.back b := by
      intro q b hb hfirst
      refine hl.back_other b (fun heq => ha q (heq ▸ hb)) ?_
      rwa [h.head_eq]
    by_cases hqr : q = r
    · subst hqr
      rw [update_self]
      refine chain_cons.mpr ⟨hl.head_self, hl.back_self, ?_⟩
      have hchain := h.chain q
      cases hlist : lists q with
      | nil =>
        rw [hlist] at hchain
        exact ⟨trivial, hl.next_self.trans hchain.ends⟩
      | cons b l =>
        rw [hlist] at hchain hback
        obtain ⟨hb, -, hrest⟩ := chain_cons.mp hchain
        have hin : ∀ c ∈ b :: l, c ∈ lists q := fun c hc => hlist ▸ hc
        refine chain_cons.mpr ⟨hl.next_self.trans hb, hl.back_first b hb, ?_⟩
        refine hrest.congr (hnext (hin b mem_cons_self)) fun c hc => ?_
        have hc' := hin c (mem_cons_of_mem _ hc)
        refine ⟨hnext hc', hback hc' fun heq => ?_⟩
        obtain rfl : b = c := Option.some.inj heq
        exact (nodup_cons.mp hchain.nodup).1 hc
    · rw [update_of_ne hqr]
      refine (h.chain q).congr (hl.head_other q hqr) fun c hc => ⟨hnext hc, hback hc fun heq => ?_⟩
      exact hqr (h.apart q r c hc (mem_of_mem_head? heq))
  apart p q b hp hq := by
    have hcases : ∀ {p}, b ∈ update lists r (a :: lists r) p → (b = a ∧ p = r) ∨ b ∈ lists p := by
      intro p hp
      by_cases hpr : p = r
      · subst hpr
        rw [update_self] at hp
        rcases mem_cons.mp hp with rfl | hp
        · exact Or.inl ⟨rfl, rfl⟩
        · exact Or.inr hp
      · rw [update_of_ne hpr] at hp
        exact Or.inr hp
    rcases hcases hp with ⟨hba, hpr⟩ | hp <;> rcases hcases hq with ⟨hba', hqr⟩ | hq
    · rw [hpr, hqr]
    · exact absurd (hba ▸ hq) (ha q)
    · exact absurd (hba' ▸ hp) (ha p)
    · exact h.apart p q b hp hq

theorem Forest.unlink (h : Forest mk s lists) {pre : List π} (hr : lists r = pre ++ a :: post)
    (hu : UnlinkedAt mk s s' (endLoc (.head r) pre) a) :
    Forest mk s' (update lists r (pre ++ post)) where
  chain q := by
    have hnodup := h.nodup r
    rw [hr] at hnodup
    have hnext : s.next a = post.head? := h.next_eq hr
    have hloc : ∀ x : Loc ρ π, x = .head r ∨ (∃ b ∈ pre, x = .next b) → x ≠ .next a := by
      rintro x (rfl | ⟨b, hb, rfl⟩) heq
      · cases heq
      · obtain rfl : b = a := Loc.next.inj heq
        exact (nodup_append.mp hnodup).2.2 b hb b mem_cons_self rfl
    -- a node that is not the one behind `a` keeps its fields, unless it is the one before `a`
    have hback : ∀ b, b ≠ a → post.head? ≠ some b → s'.back b = s.back b := fun b hba hb =>
      hu.back_other b hba (hnext ▸ hb)
    by_cases hqr : q = r
    · subst hqr
      rw [update_self]
      have hchain := h.chain q
      rw [hr] at hchain
      obtain ⟨hlinks, hrest⟩ := chain_append.mp hchain
      obtain ⟨-, -, hpost⟩ := chain_cons.mp hrest
      have hend : endLoc (.head q : Loc ρ π) pre ∉ locs (.head q) pre :=
        endLoc_notMem_locs (nodup_append.mp hnodup).1 fun b _ h => nomatch h
      have hapart : ∀ b ∈ pre, ∀ c ∈ a :: post, b ≠ c := (nodup_append.mp hnodup).2.2
      refine chain_append.mpr ⟨hlinks.congr (fun x hx => ?_) fun b hb => ?_, ?_⟩
      · refine hu.get_other x (fun heq => ?_) (hloc x (eq_of_mem_locs hx))
        exact hend (heq ▸ hx)
      · refine hback b (hapart b hb a mem_cons_self) fun heq => ?_
        exact hapart b hb b (mem_cons_of_mem _ (mem_of_mem_head? heq)) rfl
      · cases post with
        | nil => exact ⟨trivial, hu.get_self.trans hnext⟩
        | cons c post =>
          obtain ⟨-, -, hpost⟩ := chain_cons.mp hpost
          have hac : a ∉ c :: post := (nodup_cons.mp (nodup_append.mp hnodup).2.1).1
          have hc : (c :: post).Nodup := (nodup_cons.mp (nodup_append.mp hnodup).2.1).2
          have hget : ∀ b ∈ c :: post, s'.get (.next b) = s.get (.next b) := by
            intro b hb
            refine hu.get_other _ (endLoc_ne_next fun hpre => ?_) fun heq => hac (Loc.next.inj heq ▸ hb)
            exact hapart b hpre b (mem_cons_of_mem _ hb) rfl
          refine chain_cons.mpr ⟨hu.get_self.trans hnext, hu.back_next c hnext, ?_⟩
          refine hpost.congr (hget c mem_cons_self) fun b hb => ?_
          refine ⟨hget b (mem_cons_of_mem _ hb), hback b ?_ fun heq => ?_⟩
          · exact fun heq => hac (heq ▸ mem_cons_of_mem _ hb)
          · obtain rfl : c = b := Option.some.inj heq
            exact (nodup_cons.mp hc).1 hb
    · rw [update_of_ne hqr]
      have hother : ∀ b ∈ lists q, b ∉ pre ++ a :: post := fun b hb hb' =>
        hqr (h.apart q r b hb (hr ▸ hb'))
      refine (h.chain q).congr (hu.get_other _ (endLoc_ne_head hqr) nofun) fun b hb => ?_
      have hne := hother b hb
      rw [mem_append, mem_cons, not_or, not_or] at hne
      obtain ⟨hpre, hba, hpost⟩ := hne
      refine ⟨hu.get_other (.next b) (endLoc_ne_next hpre) fun heq => hba (Loc.next.inj heq), ?_⟩
      exact hback b hba fun heq => hpost (mem_of_mem_head? heq)
  apart p q b hp hq := by
    have hcases : ∀ {p}, b ∈ update lists r (pre ++ post) p → b ∈ lists p := by
      intro p hp
      by_cases hpr : p = r
      · subst hpr
        rw [update_self] at hp
        rw [hr]
        rcases mem_append.mp hp with hp | hp
        · exact mem_append_left _ hp
        · exact mem_append_right _ (mem_cons_of_mem _ hp)
      · rwa [update_of_ne hpr] at hp
    exact h.apart p q b (hcases hp) (hcases hq)

end Changes

end PhoebusBsp.Schemes.Linked

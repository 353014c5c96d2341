import Mathlib.Data.Int.Notation
import Mathlib.Data.List.Nodup
import Mathlib.Data.List.TakeWhile
import PhoebusBsp.Schemes.Chain

/-! Rules that several users share. A rule is kept once, in the order of creation, with the number of the
    users that hold it; a user has the indices of its rules in order.

        rules    0:p ×2   3:q ×1   4:r ×2          next 7
        users    a: [0, 4]   b: [0, 3, 4]

    To look at the rules of a user both lists are walked once, side by side: the search for an index goes
    on behind the rule found last, and from the front again after the end. -/

namespace PhoebusBsp.Schemes.Shared
open List

structure Rule (π : Type) where
  idx : ℕ
  pattern : π
  refs : ℤ
  deriving DecidableEq

structure Registry (κ π : Type) where
  rules : List (Rule π)
  /-- The index of the next rule. -/
  next : ℕ
  users : List (κ × List ℕ)

variable {α κ π : Type}

/-! ### The two walks -/

/-- Look at the rules of a user until one is hit. The second answer: a rule was looked at. -/
def probe (idx : α → ℕ) (hit : α → Bool) (all : List α) : List ℕ → List α → Bool → Bool × Bool
  | [], _, looked => (false, looked)
  | i :: is, rest, looked =>
    match rest.dropWhile fun a => idx a != i with
    | [] => probe idx hit all is all looked
    | a :: rest => if hit a then (true, true) else probe idx hit all is rest true

/-- One user more. -/
def Rule.retained (r : Rule π) : Rule π := { r with refs := r.refs + 1 }

/-- One user less; a rule that nobody holds is gone. -/
def Rule.released (r : Rule π) : List (Rule π) := if r.refs - 1 = 0 then [] else [{ r with refs := r.refs - 1 }]

/-- Release the rules of a user that are hit, and keep the other indices. `past` are the rules up to the
    place from which the search goes on. -/
def sweepLoop (hit : π → Bool) : List ℕ → List (Rule π) → List (Rule π) → List ℕ × List (Rule π)
  | [], past, rest => ([], past ++ rest)
  | i :: is, past, rest =>
    match rest.dropWhile fun r => r.idx != i with
    | [] =>
      let (kept, rules) := sweepLoop hit is [] (past ++ rest)
      (i :: kept, rules)
    | r :: behind =>
      let passed := past ++ rest.takeWhile fun r => r.idx != i
      if hit r.pattern then sweepLoop hit is passed (r.released ++ behind)
      else
        let (kept, rules) := sweepLoop hit is (passed ++ [r]) behind
        (i :: kept, rules)

/-- Where an index belongs in the list of a user; nowhere when it is there already. -/
def place (i : ℕ) : List ℕ → Option (List ℕ)
  | [] => some [i]
  | j :: l =>
    if j = i then none
    else if i < j then some (i :: j :: l)
    else (place i l).map (j :: ·)

/-! ### Operations -/

section Operations

variable [DecidableEq κ] [DecidableEq π]

/-- The rules of a user, by their indices. -/
def Registry.listOf (reg : Registry κ π) (u : κ) : List ℕ := ((Chain.search Prod.fst u reg.users).map Prod.snd).getD []

def Registry.setList (reg : Registry κ π) (u : κ) (l : List ℕ) : List (κ × List ℕ) :=
  Chain.update Prod.fst u (fun x => (x.1, l)) reg.users

/-- The rule of a pattern, a new one at the end if there is none. Indices are below `width`. -/
def Registry.alloc (width : ℕ) (reg : Registry κ π) (p : π) : ℕ × Registry κ π :=
  match Chain.search Rule.pattern p reg.rules with
  | some r => (r.idx, reg)
  | none => (reg.next, { reg with rules := reg.rules ++ [⟨reg.next, p, 0⟩], next := (reg.next + 1) % width })

/-- A user gets a rule. -/
def Registry.add (width : ℕ) (reg : Registry κ π) (u : κ) (p : π) : ℕ × Registry κ π :=
  let (i, reg) := reg.alloc width p
  match place i (reg.listOf u) with
  | none => (i, reg)
  | some l => (i, { reg with
      rules := Chain.update Rule.pattern p Rule.retained reg.rules
      users := reg.setList u l })

/-- Release the first rule with the index. -/
def release (i : ℕ) : List (Rule π) → List (Rule π)
  | [] => []
  | r :: rules => if r.idx = i then r.released ++ rules else r :: release i rules

/-- A user gives up a rule that it holds. -/
def Registry.remove (reg : Registry κ π) (u : κ) (i : ℕ) : Registry κ π :=
  { reg with rules := release i reg.rules, users := reg.setList u ((reg.listOf u).erase i) }

/-- A user gives up its rules that are hit. -/
def Registry.sweep (reg : Registry κ π) (u : κ) (hit : π → Bool) : Registry κ π :=
  let (kept, rules) := sweepLoop hit (reg.listOf u) [] reg.rules
  { reg with rules := rules, users := reg.setList u kept }

/-- The list of a user is emptied, and the rules are not released. -/
def Registry.forget (reg : Registry κ π) (u : κ) : Registry κ π := { reg with users := reg.setList u [] }

end Operations

/-! ### Lists of indices -/

section Place

variable {i j : ℕ} {l l' : List ℕ}

theorem place_eq_none (hl : l.Pairwise (· < ·)) : place i l = none ↔ i ∈ l := by
  induction l with
  | nil => simp [place]
  | cons j l ih =>
    obtain ⟨hj, hl⟩ := pairwise_cons.mp hl
    rw [place, mem_cons]
    by_cases hij : j = i
    · simp [hij]
    · rw [if_neg hij]
      by_cases hlt : i < j
      · rw [if_pos hlt]
        have hnot : i ∉ l := fun hi => absurd (hj i hi) (Nat.lt_asymm hlt)
        simp [hnot, Ne.symm hij]
      · rw [if_neg hlt, Option.map_eq_none_iff, ih hl]
        simp [Ne.symm hij]

theorem mem_place (h : place i l = some l') : j ∈ l' ↔ j = i ∨ j ∈ l := by
  induction l generalizing l' with
  | nil =>
    obtain rfl := Option.some.inj h
    simp
  | cons k l ih =>
    rw [place] at h
    split at h
    · cases h
    · split at h
      · obtain rfl := Option.some.inj h
        exact mem_cons
      · obtain ⟨l'', hl'', rfl⟩ := Option.map_eq_some_iff.mp h
        rw [mem_cons, ih hl'', mem_cons]
        exact or_left_comm

theorem sorted_place (hl : l.Pairwise (· < ·)) (h : place i l = some l') : l'.Pairwise (· < ·) := by
  induction l generalizing l' with
  | nil =>
    obtain rfl := Option.some.inj h
    exact pairwise_singleton _ _
  | cons j l ih =>
    obtain ⟨hj, hl⟩ := pairwise_cons.mp hl
    rw [place] at h
    split at h
    · cases h
    · next hne =>
      split at h
      · next hlt =>
        obtain rfl := Option.some.inj h
        refine pairwise_cons.mpr ⟨fun k hk => ?_, pairwise_cons.mpr ⟨hj, hl⟩⟩
        rcases mem_cons.mp hk with rfl | hk
        · exact hlt
        · exact Nat.lt_trans hlt (hj k hk)
      · next hnot =>
        obtain ⟨l'', hl'', rfl⟩ := Option.map_eq_some_iff.mp h
        refine pairwise_cons.mpr ⟨fun k hk => ?_, ih hl hl''⟩
        rcases (mem_place hl'').mp hk with rfl | hk
        · omega
        · exact hj k hk

end Place

/-! ### What the walks find -/

section Walks

variable {idx : α → ℕ} {hit : α → Bool} {all rest : List α} {is : List ℕ} {i : ℕ}

/-- In a list in order the search for an index stops at its entry, behind the smaller ones. -/
theorem exists_split (hrest : (rest.map idx).Pairwise (· < ·)) (hi : ∃ a ∈ rest, idx a = i) :
    ∃ a behind, (rest.dropWhile fun a => idx a != i) = a :: behind ∧ idx a = i ∧
      rest = (rest.takeWhile fun a => idx a != i) ++ a :: behind ∧
      (∀ b ∈ rest.takeWhile fun a => idx a != i, idx b < i) ∧ ∀ b ∈ behind, i < idx b := by
  have hsplit := (takeWhile_append_dropWhile (p := fun a => idx a != i) (l := rest)).symm
  cases hdrop : rest.dropWhile fun a => idx a != i with
  | nil =>
    obtain ⟨a, ha, hidx⟩ := hi
    have hne := dropWhile_eq_nil_iff.mp hdrop a ha
    simp [hidx] at hne
  | cons a behind =>
    have ha : idx a = i := by
      have hhead := List.head?_dropWhile_not (fun a => idx a != i) rest
      simpa [hdrop] using hhead
    rw [hdrop] at hsplit
    rw [hsplit, map_append, map_cons, pairwise_append, pairwise_cons] at hrest
    obtain ⟨-, ⟨hbehind, -⟩, hbefore⟩ := hrest
    refine ⟨a, behind, rfl, ha, hsplit, fun b hb => ?_, fun b hb => ?_⟩
    · exact ha ▸ hbefore (idx b) (mem_map_of_mem hb) (idx a) mem_cons_self
    · exact ha ▸ hbehind (idx b) (mem_map_of_mem hb)

/-- The rules of the user, all behind one place: some rule is hit, and some rule was looked at. -/
theorem probe_sorted (hrest : (rest.map idx).Pairwise (· < ·)) (his : is.Pairwise (· < ·))
    (hknown : ∀ i ∈ is, ∃ a ∈ rest, idx a = i) (looked : Bool) :
    ((probe idx hit all is rest looked).1 = true ↔ ∃ a ∈ rest, idx a ∈ is ∧ hit a = true) ∧
      ((probe idx hit all is rest looked).2 = true ↔ looked = true ∨ is ≠ []) := by
  induction is generalizing rest looked with
  | nil => simp [probe]
  | cons i is ih =>
    obtain ⟨hi, his⟩ := pairwise_cons.mp his
    obtain ⟨a, behind, hdrop, ha, hsplit, hbefore, hbehind⟩ := exists_split hrest (hknown i mem_cons_self)
    -- the other indices are larger, so their rules are behind
    have hafter : ∀ b ∈ rest, idx b ∈ is → b ∈ behind := by
      intro b hb hmem
      have hlt := hi (idx b) hmem
      rw [hsplit, mem_append, mem_cons] at hb
      rcases hb with hb | rfl | hb
      · exact absurd (hbefore b hb) (Nat.lt_asymm hlt)
      · exact absurd ha (Nat.ne_of_gt hlt)
      · exact hb
    have hmem : a ∈ rest := by
      rw [hsplit]
      exact mem_append_right _ mem_cons_self
    have hsub : ∀ b ∈ behind, b ∈ rest := fun b hb => by
      rw [hsplit]
      exact mem_append_right _ (mem_cons_of_mem _ hb)
    rw [probe, hdrop]
    dsimp only
    cases hhit : hit a with
    | true =>
      rw [if_pos rfl]
      exact ⟨⟨fun _ => ⟨a, hmem, ha ▸ mem_cons_self, hhit⟩, fun _ => rfl⟩, by simp⟩
    | false =>
      have hsorted : (behind.map idx).Pairwise (· < ·) := by
        rw [hsplit, map_append, pairwise_append, map_cons, pairwise_cons] at hrest
        exact hrest.2.1.2
      have hrec := ih hsorted his (fun j hj => by
        obtain ⟨b, hb, rfl⟩ := hknown j (mem_cons_of_mem _ hj)
        exact ⟨b, hafter b hb hj, rfl⟩) true
      rw [if_neg Bool.false_ne_true, hrec.1, hrec.2]
      refine ⟨⟨?_, ?_⟩, by simp⟩
      · rintro ⟨b, hb, hbi, hbhit⟩
        exact ⟨b, hsub b hb, mem_cons_of_mem _ hbi, hbhit⟩
      · rintro ⟨b, hb, hbi, hbhit⟩
        rcases mem_cons.mp hbi with heq | hbi
        · have hbeq : b = a := by
            rw [hsplit, mem_append, mem_cons] at hb
            rcases hb with hb | rfl | hb
            · exact absurd heq (Nat.ne_of_lt (hbefore b hb))
            · rfl
            · exact absurd heq (Nat.ne_of_gt (hbehind b hb))
          rw [hbeq, hhit] at hbhit
          cases hbhit
        · exact ⟨b, hafter b hb hbi, hbi, hbhit⟩

end Walks

/-! ### Giving up rules -/

/-- Rules of which some are released. -/
def releaseAll (gone : Rule π → Bool) (rules : List (Rule π)) : List (Rule π) :=
  rules.flatMap fun r => if gone r then r.released else [r]

section Release

variable {gone gone' : Rule π → Bool} {rules past rest : List (Rule π)} {r : Rule π} {is : List ℕ} {hit : π → Bool}

theorem releaseAll_append : releaseAll gone (past ++ rest) = releaseAll gone past ++ releaseAll gone rest :=
  flatMap_append

theorem releaseAll_congr (h : ∀ r ∈ rules, gone r = gone' r) : releaseAll gone rules = releaseAll gone' rules :=
  flatMap_congr fun r hr => by rw [h r hr]

theorem releaseAll_eq_self (h : ∀ r ∈ rules, gone r = false) : releaseAll gone rules = rules := by
  have hnone : releaseAll gone rules = releaseAll (fun _ => false) rules := releaseAll_congr h
  rw [hnone, releaseAll]
  simp

theorem mem_released {r' : Rule π} : r' ∈ r.released ↔ r.refs - 1 ≠ 0 ∧ r' = { r with refs := r.refs - 1 } := by
  unfold Rule.released
  split <;> simp_all

/-- A rule that is left was there, with one user more if it has been released. -/
theorem mem_releaseAll {r' : Rule π} : r' ∈ releaseAll gone rules ↔ ∃ r ∈ rules,
    if gone r then r.refs - 1 ≠ 0 ∧ r' = { r with refs := r.refs - 1 } else r' = r := by
  unfold releaseAll
  rw [mem_flatMap]
  refine exists_congr fun r => and_congr_right fun _ => ?_
  split
  · exact mem_released
  · exact mem_singleton

/-- Indices and patterns of what is left come in the same order. -/
theorem releaseAll_sublist {β : Type} (f : Rule π → β) (hf : ∀ r refs, f { r with refs := refs } = f r) :
    ((releaseAll gone rules).map f).Sublist (rules.map f) := by
  induction rules with
  | nil => exact List.Sublist.refl _
  | cons r rules ih =>
    have hcons : releaseAll gone (r :: rules) = (if gone r then r.released else [r]) ++ releaseAll gone rules :=
      flatMap_cons
    rw [hcons, map_append, map_cons]
    split
    · unfold Rule.released
      split
      · exact ih.cons _
      · rw [map_singleton, hf]
        exact ih.cons_cons _
    · exact ih.cons_cons _

theorem release_eq {i : ℕ} (hrules : (rules.map Rule.idx).Pairwise (· < ·)) :
    release i rules = releaseAll (fun r => r.idx = i) rules := by
  induction rules with
  | nil => rfl
  | cons r rules ih =>
    obtain ⟨hr, hrules⟩ := pairwise_cons.mp (map_cons ▸ hrules)
    have hcons : releaseAll (fun r => r.idx = i) (r :: rules) =
        (if r.idx = i then r.released else [r]) ++ releaseAll (fun r => r.idx = i) rules := by
      simp [releaseAll]
    rw [release, hcons]
    split
    · next hidx =>
      rw [releaseAll_eq_self fun r' hr' => ?_]
      have hlt := hr r'.idx (mem_map_of_mem hr')
      simp only [decide_eq_false_iff_not]
      omega
    · rw [ih hrules]
      rfl

theorem any_append_of_ne {i : ℕ} (h : ∀ r ∈ past, r.idx ≠ i) :
    ((past ++ rest).any fun r => r.idx == i && hit r.pattern) = rest.any fun r => r.idx == i && hit r.pattern := by
  have hpast : (past.any fun r => r.idx == i && hit r.pattern) = false := by
    rw [any_eq_false]
    intro r hr
    simp [h r hr]
  rw [any_append, hpast, Bool.false_or]

/-- Rules in front that belong to smaller indices change nothing about what is kept. -/
theorem kept_append (h : ∀ i ∈ is, ∀ r ∈ past, r.idx < i) :
    (is.filter fun i => !(past ++ rest).any fun r => r.idx == i && hit r.pattern) =
      is.filter fun i => !rest.any fun r => r.idx == i && hit r.pattern := by
  refine filter_congr fun i hi => ?_
  rw [any_append_of_ne fun r hr => Nat.ne_of_lt (h i hi r hr)]

/-- Nor are they released. -/
theorem releaseAll_append_of_lt (h : ∀ i ∈ is, ∀ r ∈ past, r.idx < i) :
    releaseAll (fun r => is.contains r.idx && hit r.pattern) (past ++ rest) =
      past ++ releaseAll (fun r => is.contains r.idx && hit r.pattern) rest := by
  rw [releaseAll_append, releaseAll_eq_self]
  intro r hr
  have hnot : r.idx ∉ is := fun hmem => Nat.lt_irrefl _ (h r.idx hmem r hr)
  simp [hnot]

/-- Rules behind one with the index `i` are not concerned by it. -/
theorem releaseAll_cons_of_gt {i : ℕ} (hr : r.idx = i) (hi : ∀ r ∈ rest, i < r.idx) :
    releaseAll (fun r => (i :: is).contains r.idx && hit r.pattern) (r :: rest) =
      (if hit r.pattern then r.released else [r]) ++
        releaseAll (fun r => is.contains r.idx && hit r.pattern) rest := by
  have hrest : releaseAll (fun r => (i :: is).contains r.idx && hit r.pattern) rest =
      releaseAll (fun r => is.contains r.idx && hit r.pattern) rest := by
    refine releaseAll_congr fun r' hr' => ?_
    rw [contains_cons, beq_false_of_ne (Nat.ne_of_gt (hi r' hr')), Bool.false_or]
  have hcons : releaseAll (fun r => (i :: is).contains r.idx && hit r.pattern) (r :: rest) =
      (if (i :: is).contains r.idx && hit r.pattern then r.released else [r]) ++
        releaseAll (fun r => (i :: is).contains r.idx && hit r.pattern) rest := flatMap_cons
  rw [hcons, hrest, hr, contains_cons, beq_self_eq_true, Bool.true_or, Bool.true_and]

/-- The walk releases the rules of the user that are hit, and keeps the indices of the others. -/
theorem sweepLoop_sorted (hrest : (rest.map Rule.idx).Pairwise (· < ·)) (his : is.Pairwise (· < ·))
    (hknown : ∀ i ∈ is, ∃ r ∈ rest, r.idx = i) :
    sweepLoop hit is past rest =
      (is.filter fun i => !rest.any fun r => r.idx == i && hit r.pattern,
        past ++ releaseAll (fun r => is.contains r.idx && hit r.pattern) rest) := by
  induction is generalizing past rest with
  | nil => simp [sweepLoop, releaseAll]
  | cons i is ih =>
    obtain ⟨hi, his⟩ := pairwise_cons.mp his
    obtain ⟨r, behind, hdrop, hr, hsplit, hbefore, hbehind⟩ := exists_split hrest (hknown i mem_cons_self)
    rw [sweepLoop, hdrop]
    dsimp only
    generalize (rest.takeWhile fun r => r.idx != i) = before at hsplit hbefore ⊢
    subst hsplit
    rw [map_append, pairwise_append, map_cons, pairwise_cons] at hrest
    have hlater : ∀ j ∈ is, ∃ r ∈ behind, r.idx = j := by
      intro j hj
      obtain ⟨b, hb, rfl⟩ := hknown j (mem_cons_of_mem _ hj)
      have hlt := hi b.idx hj
      rw [mem_append, mem_cons] at hb
      rcases hb with hb | rfl | hb
      · exact absurd (hbefore b hb) (Nat.lt_asymm hlt)
      · exact absurd hr (Nat.ne_of_gt hlt)
      · exact ⟨b, hb, rfl⟩
    have hreleased : ∀ r' ∈ r.released, r'.idx = i := fun r' hr' => by rw [(mem_released.mp hr').2, ← hr]
    have hsmall : ∀ j ∈ is, ∀ r' ∈ r.released, r'.idx < j := fun j hj r' hr' => hreleased r' hr' ▸ hi j hj
    have hfront : ∀ j ∈ is, ∀ b ∈ before ++ [r], b.idx < j := by
      intro j hj b hb
      rcases mem_append.mp hb with hb | hb
      · exact Nat.lt_trans (hbefore b hb) (hi j hj)
      · rw [mem_singleton.mp hb, hr]
        exact hi j hj
    have hkept : (is.filter fun i => !(before ++ r :: behind).any fun r => r.idx == i && hit r.pattern) =
        is.filter fun i => !behind.any fun r => r.idx == i && hit r.pattern := by
      rw [append_cons]
      exact kept_append hfront
    have hself : ((before ++ r :: behind).any fun r => r.idx == i && hit r.pattern) = hit r.pattern := by
      have hnone : (behind.any fun r => r.idx == i && hit r.pattern) = false := by
        rw [any_eq_false]
        intro b hb
        simp [Nat.ne_of_gt (hbehind b hb)]
      rw [any_append_of_ne fun b hb => Nat.ne_of_lt (hbefore b hb), any_cons, hr, beq_self_eq_true,
        Bool.true_and, hnone, Bool.or_false]
    have hbig : ∀ j ∈ i :: is, ∀ b ∈ before, b.idx < j := by
      intro j hj b hb
      rcases mem_cons.mp hj with rfl | hj
      · exact hbefore b hb
      · exact Nat.lt_trans (hbefore b hb) (hi j hj)
    rw [filter_cons, hself, hkept, releaseAll_append_of_lt hbig, releaseAll_cons_of_gt hr hbehind]
    cases hhit : hit r.pattern with
    | true =>
      have hsorted : ((r.released ++ behind).map Rule.idx).Pairwise (· < ·) := by
        rw [map_append, pairwise_append]
        refine ⟨?_, hrest.2.1.2, fun a ha b hb => ?_⟩
        · unfold Rule.released
          split
          · exact List.Pairwise.nil
          · exact pairwise_singleton _ _
        · obtain ⟨r', hr', rfl⟩ := mem_map.mp ha
          obtain ⟨b', hb', rfl⟩ := mem_map.mp hb
          exact hreleased r' hr' ▸ hbehind b' hb'
      rw [if_pos rfl, ih hsorted his fun j hj => by
        obtain ⟨b, hb, hbj⟩ := hlater j hj
        exact ⟨b, mem_append_right _ hb, hbj⟩]
      rw [kept_append hsmall, releaseAll_append_of_lt hsmall]
      simp
    | false =>
      rw [if_neg Bool.false_ne_true, ih hrest.2.1.2 his hlater]
      simp

end Release

end PhoebusBsp.Schemes.Shared

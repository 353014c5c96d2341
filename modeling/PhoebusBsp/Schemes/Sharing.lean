import PhoebusBsp.Schemes.Shared

/-! What sharing keeps. In a consistent registry a rule has a reference for every user that holds it, at least
    one, and what a user holds is a rule. `spare` says how many references there may be besides: none, or any number
    when lists have been emptied without releasing the rules.

        add       the user holds one rule more
        remove    the user gives up one rule           giveUp
        sweep     the user gives up what is hit        giveUp
        forget    the user gives up everything, and the references stay

    `Holds` is what users see of it: the rules they have got and not given up. -/

namespace PhoebusBsp.Schemes.Shared
open Chain List

variable {α κ π : Type}

/-! ### Consistent registries -/

section Consistent

/-- Spare references: there may be none, and there are never too few. -/
class Spares (spare : ℤ → Prop) : Prop where
  zero : spare 0
  nonneg : ∀ n, spare n → 0 ≤ n

instance : Spares (· = 0) := ⟨rfl, fun _ h => Int.le_of_eq h.symm⟩

instance : Spares (0 ≤ ·) := ⟨Int.le_refl 0, fun _ => id⟩

variable [DecidableEq κ] {spare : ℤ → Prop} {fits : κ → π → Prop} {reg : Registry κ π} {u : κ} {p : π}
  {l : List ℕ} {r : Rule π} {width : ℕ} {rules : List (Rule π)}

/-- Rules and lists are in order, a rule has a pattern of its own and a reference for every user that holds it, and
    what a user holds is a rule that fits it. -/
structure Sound (spare : ℤ → Prop) (fits : κ → π → Prop) (reg : Registry κ π) : Prop where
  ordered : (reg.rules.map Rule.idx).Pairwise (· < ·)
  bounded : ∀ r ∈ reg.rules, r.idx < reg.next
  patterns : (reg.rules.map Rule.pattern).Nodup
  sorted : ∀ x ∈ reg.users, x.2.Pairwise (· < ·)
  known : ∀ x ∈ reg.users, ∀ i ∈ x.2, ∃ r ∈ reg.rules, r.idx = i ∧ fits x.1 r.pattern
  counted : ∀ r ∈ reg.rules, spare (r.refs - reg.users.countP fun x => x.2.contains r.idx)

/-- No rule is kept without a reference. -/
structure Consistent (spare : ℤ → Prop) (fits : κ → π → Prop) (reg : Registry κ π) : Prop
    extends Sound spare fits reg where
  live : ∀ r ∈ reg.rules, 1 ≤ r.refs

theorem listOf_of_search {x : κ × List ℕ} (h : search Prod.fst u reg.users = some x) : reg.listOf u = x.2 := by
  rw [Registry.listOf, h]
  rfl

section User

variable (hu : (search Prod.fst u reg.users).isSome)
include hu

/-- The user is there, with its list. -/
theorem exists_user :
    search Prod.fst u reg.users = some (u, reg.listOf u) := by
  obtain ⟨x, hx⟩ := Option.isSome_iff_exists.mp hu
  rw [listOf_of_search hx, hx, ← key_of_search hx]

theorem listOf_setList (u' : κ) :
    (((search Prod.fst u' (reg.setList u l)).map Prod.snd).getD []) =
      if u' = u then l else reg.listOf u' := by
  have hkey : ∀ x : κ × List ℕ, x.1 = u → (x.1, l).1 = u := fun _ => id
  unfold Registry.setList
  split
  · next h =>
    rw [h, search_update_self hkey, exists_user hu]
    rfl
  · next h =>
    rw [search_update_of_ne hkey h]
    rfl

/-- One user has another list. -/
theorem countP_setList (P : List ℕ → Bool) :
    (reg.setList u l).countP (fun x => P x.2) + (if P (reg.listOf u) then 1 else 0) =
      reg.users.countP (fun x => P x.2) + if P l then 1 else 0 := by
  have hfound := exists_user hu
  unfold Registry.setList
  clear hu
  generalize reg.listOf u = old at hfound ⊢
  generalize reg.users = users at hfound ⊢
  induction users with
  | nil => cases hfound
  | cons x users ih =>
    rw [search_cons] at hfound
    rw [update]
    split at hfound
    · next hx =>
      obtain rfl := Option.some.inj hfound
      rw [if_pos hx, countP_cons, countP_cons]
      dsimp only
      omega
    · next hx =>
      rw [if_neg hx, countP_cons, countP_cons]
      have hrest := ih hfound
      omega

end User

theorem mem_setList {x : κ × List ℕ} (h : x ∈ reg.setList u l) : x ∈ reg.users ∨ x = (u, l) := by
  rcases mem_update h with h | ⟨y, -, hy, rfl⟩
  · exact Or.inl h
  · exact Or.inr (by rw [hy])

/-- The users stay the same. -/
theorem search_setList (u' : κ) :
    (search Prod.fst u' (reg.setList u l)).isSome = (search Prod.fst u' reg.users).isSome := by
  have hkeys : (reg.setList u l).map Prod.fst = reg.users.map Prod.fst := keys_update fun _ => id
  rw [Bool.eq_iff_iff, search_isSome, search_isSome, hkeys]

/-- The user holds the rule with the index and the pattern. -/
def Holds (reg : Registry κ π) (u : κ) (i : ℕ) (p : π) : Prop :=
  i ∈ reg.listOf u ∧ ∃ r ∈ reg.rules, r.idx = i ∧ r.pattern = p

section Sound

variable (h : Sound spare fits reg)
include h

theorem Sound.list_sorted (u : κ) : (reg.listOf u).Pairwise (· < ·) := by
  unfold Registry.listOf
  cases hsearch : search Prod.fst u reg.users with
  | none => exact List.Pairwise.nil
  | some x => exact h.sorted x (mem_of_search hsearch)

theorem Sound.list_known {i : ℕ} (hi : i ∈ reg.listOf u) :
    ∃ r ∈ reg.rules, r.idx = i ∧ fits u r.pattern := by
  unfold Registry.listOf at hi
  cases hsearch : search Prod.fst u reg.users with
  | none =>
    rw [hsearch] at hi
    cases hi
  | some x =>
    rw [hsearch] at hi
    exact key_of_search hsearch ▸ h.known x (mem_of_search hsearch) i hi

omit [DecidableEq κ] in
/-- An index is that of one rule. -/
theorem Sound.idx_inj {r' : Rule π} (hr : r ∈ reg.rules) (hr' : r' ∈ reg.rules)
    (hidx : r.idx = r'.idx) : r = r' :=
  inj_on_of_nodup_map (h.ordered.imp Nat.ne_of_lt) hr hr' hidx

/-- Nobody holds an index that has not been given. -/
theorem Sound.next_notMem : reg.next ∉ reg.listOf u := by
  intro hmem
  obtain ⟨r, hr, hidx, -⟩ := h.list_known hmem
  exact absurd hidx (Nat.ne_of_lt (h.bounded r hr))

end Sound

/-! ### Getting a rule -/

section Getting

variable [DecidableEq π]

omit [DecidableEq κ] in
/-- A rule that is there, or a new one behind all others. -/
theorem alloc_cases (width : ℕ) (reg : Registry κ π) (p : π) :
    (∃ r ∈ reg.rules, r.pattern = p ∧ reg.alloc width p = (r.idx, reg)) ∨
      p ∉ reg.rules.map Rule.pattern ∧ reg.alloc width p =
        (reg.next, { reg with rules := reg.rules ++ [⟨reg.next, p, 0⟩], next := (reg.next + 1) % width }) := by
  unfold Registry.alloc
  cases hsearch : search Rule.pattern p reg.rules with
  | some r => exact Or.inl ⟨r, mem_of_search hsearch, key_of_search hsearch, rfl⟩
  | none => exact Or.inr ⟨search_eq_none.mp hsearch, rfl⟩

/-- There is an index left for another rule, or the pattern has one. -/
def Room (width : ℕ) (reg : Registry κ π) (p : π) : Prop :=
  p ∈ reg.rules.map Rule.pattern ∨ reg.next + 1 < width

omit [DecidableEq κ] in
theorem Sound.alloc [Spares spare] (h : Sound spare fits reg) (hroom : Room width reg p) :
    Sound spare fits (reg.alloc width p).2 ∧
      (∃ r ∈ (reg.alloc width p).2.rules, r.idx = (reg.alloc width p).1 ∧ r.pattern = p) := by
  rcases alloc_cases width reg p with ⟨r, hr, hp, heq⟩ | ⟨hnew, heq⟩
  · rw [heq]
    exact ⟨h, r, hr, rfl, hp⟩
  · have hnext : (reg.next + 1) % width = reg.next + 1 := Nat.mod_eq_of_lt (hroom.resolve_left hnew)
    rw [heq, hnext]
    refine ⟨⟨?_, fun r hr => ?_, ?_, h.sorted, fun x hx i hi => ?_, fun r hr => ?_⟩, _,
      mem_append_right _ mem_cons_self, rfl, rfl⟩
    · rw [map_append, pairwise_append]
      refine ⟨h.ordered, pairwise_singleton _ _, fun a ha b hb => ?_⟩
      obtain ⟨r, hr, rfl⟩ := mem_map.mp ha
      rw [mem_singleton.mp hb]
      exact h.bounded r hr
    · rcases mem_append.mp hr with hr | hr
      · exact Nat.lt_succ_of_lt (h.bounded r hr)
      · rw [mem_singleton.mp hr]
        exact Nat.lt_succ_self _
    · rw [map_append, nodup_append]
      refine ⟨h.patterns, nodup_singleton _, fun a ha b hb heq => ?_⟩
      rw [heq, mem_singleton.mp hb] at ha
      exact hnew ha
    · obtain ⟨r, hr, hidx, hfits⟩ := h.known x hx i hi
      exact ⟨r, mem_append_left _ hr, hidx, hfits⟩
    · rcases mem_append.mp hr with hr | hr
      · exact h.counted r hr
      · -- nobody holds an index that has not been given
        have hnone : (reg.users.countP fun x => x.2.contains reg.next) = 0 := by
          rw [countP_eq_zero]
          intro x hx hmem
          obtain ⟨r, hr, hidx, -⟩ := h.known x hx reg.next (contains_iff_mem.mp hmem)
          exact absurd hidx (Nat.ne_of_lt (h.bounded r hr))
        rw [mem_singleton.mp hr, hnone]
        exact Spares.zero

theorem add_fst (width : ℕ) (reg : Registry κ π) (u : κ) (p : π) : (reg.add width u p).1 = (reg.alloc width p).1 := by
  unfold Registry.add
  dsimp only
  split <;> rfl

/-- What an addition does: the user holds the rule already, or the rule is linked to it. -/
theorem add_cases [Spares spare] (h : Sound spare fits reg) (hroom : Room width reg p) :
    let i := (reg.alloc width p).1
    let reg' := (reg.alloc width p).2
    (i ∈ reg'.listOf u ∧ reg.add width u p = (i, reg')) ∨ i ∉ reg'.listOf u ∧ ∃ l,
      l.Pairwise (· < ·) ∧ (∀ j, j ∈ l ↔ j = i ∨ j ∈ reg'.listOf u) ∧ reg.add width u p = (i, { reg' with
        rules := update Rule.pattern p Rule.retained reg'.rules
        users := reg'.setList u l }) := by
  intro i reg'
  have hsorted : (reg'.listOf u).Pairwise (· < ·) := (h.alloc hroom).1.list_sorted u
  cases hplace : place i (reg'.listOf u) with
  | none => exact Or.inl ⟨(place_eq_none hsorted).mp hplace, by simp only [Registry.add, i, reg', hplace]⟩
  | some l =>
    refine Or.inr ⟨fun hmem => ?_, l, sorted_place hsorted hplace, fun j => mem_place hplace, ?_⟩
    · rw [(place_eq_none hsorted).mpr hmem] at hplace
      cases hplace
    · simp only [Registry.add, i, reg', hplace]

omit [DecidableEq κ] in
/-- After one more reference to the rule of a pattern. -/
theorem mem_bump (hnodup : (rules.map Rule.pattern).Nodup) {r' : Rule π}
    (h : r' ∈ update Rule.pattern p Rule.retained rules) :
    ∃ r ∈ rules, if r.pattern = p then r' = r.retained else r' = r := by
  have hkey : ∀ r : Rule π, r.pattern = p → r.retained.pattern = p := fun _ => id
  rcases mem_update_of_nodup hkey hnodup h with ⟨r, hr, rfl⟩ | ⟨hp, hr⟩
  · exact ⟨r, mem_of_search hr, by rw [if_pos (key_of_search hr)]⟩
  · exact ⟨r', hr, by rw [if_neg hp]⟩

omit [DecidableEq κ] in
theorem of_mem_bump (hnodup : (rules.map Rule.pattern).Nodup) {r' : Rule π}
    (h : r' ∈ update Rule.pattern p Rule.retained rules) :
    ∃ r ∈ rules, r'.idx = r.idx ∧ r'.pattern = r.pattern := by
  obtain ⟨r, hr, hbump⟩ := mem_bump hnodup h
  refine ⟨r, hr, ?_⟩
  split at hbump <;> rw [hbump] <;> exact ⟨rfl, rfl⟩

omit [DecidableEq κ] in
theorem bump_of_mem (hr : r ∈ rules) : ∃ r' ∈ update Rule.pattern p Rule.retained rules,
      r'.idx = r.idx ∧ r'.pattern = r.pattern := by
  have hmap : (update Rule.pattern p Rule.retained rules).map
      (fun r => (r.idx, r.pattern)) = rules.map fun r => (r.idx, r.pattern) := map_update fun _ _ => rfl
  have hmem : (r.idx, r.pattern) ∈ rules.map fun r => (r.idx, r.pattern) := mem_map_of_mem hr
  rw [← hmap] at hmem
  obtain ⟨r', hr', heq⟩ := mem_map.mp hmem
  exact ⟨r', hr', (Prod.mk.inj heq).1, (Prod.mk.inj heq).2⟩

/-- A rule that the user did not hold is linked to it. -/
theorem Sound.link (h : Sound spare fits reg) (hu : (search Prod.fst u reg.users).isSome)
    (hr : r ∈ reg.rules) (hp : r.pattern = p) (hfits : fits u p) (hnot : r.idx ∉ reg.listOf u)
    (hl : l.Pairwise (· < ·)) (hmem : ∀ j, j ∈ l ↔ j = r.idx ∨ j ∈ reg.listOf u) : Sound spare fits { reg with
      rules := update Rule.pattern p Rule.retained reg.rules
      users := reg.setList u l } := by
  have hidx : (update Rule.pattern p Rule.retained reg.rules).map Rule.idx =
      reg.rules.map Rule.idx := map_update fun _ _ => rfl
  refine ⟨hidx ▸ h.ordered, fun r' hr' => ?_, ?_, fun x hx => ?_, fun x hx i hi => ?_, fun r' hr' => ?_⟩
  · have hmem' : r'.idx ∈ reg.rules.map Rule.idx := hidx ▸ mem_map_of_mem hr'
    obtain ⟨r₀, hr₀, heq⟩ := mem_map.mp hmem'
    exact heq ▸ h.bounded r₀ hr₀
  · have hpatterns : (update Rule.pattern p Rule.retained reg.rules).map Rule.pattern =
        reg.rules.map Rule.pattern := map_update fun _ _ => rfl
    exact hpatterns ▸ h.patterns
  · rcases mem_setList hx with hx | rfl
    · exact h.sorted x hx
    · exact hl
  · have hold : ∃ r ∈ reg.rules, r.idx = i ∧ fits x.1 r.pattern := by
      rcases mem_setList hx with hx | rfl
      · exact h.known x hx i hi
      · rcases (hmem i).mp hi with rfl | hi
        · exact ⟨r, hr, rfl, hp ▸ hfits⟩
        · exact h.list_known hi
    obtain ⟨r₀, hr₀, rfl, hfits₀⟩ := hold
    obtain ⟨r', hr', hidx', hp'⟩ := bump_of_mem (p := p) hr₀
    exact ⟨r', hr', hidx', hp' ▸ hfits₀⟩
  · obtain ⟨r₀, hr₀, hbump⟩ := mem_bump h.patterns hr'
    have hcount := countP_setList (l := l) hu fun l => l.contains r₀.idx
    -- as many references more as lists more that have the index
    suffices hsame : r'.refs - (reg.setList u l).countP (fun x => x.2.contains r'.idx) =
        r₀.refs - reg.users.countP (fun x => x.2.contains r₀.idx) from hsame ▸ h.counted r₀ hr₀
    by_cases hself : r₀.pattern = p
    · -- the rule itself: the list of the user did not contain it
      have heq : r₀ = r := inj_on_of_nodup_map h.patterns hr₀ hr (hself.trans hp.symm)
      rw [if_pos hself] at hbump
      have hold : (reg.listOf u).contains r₀.idx = false := by
        rw [heq, ← Bool.not_eq_true, contains_iff_mem]
        exact hnot
      have hnew : l.contains r₀.idx = true := contains_iff_mem.mpr ((hmem _).mpr (Or.inl (by rw [heq])))
      rw [hold, hnew] at hcount
      simp only [Bool.false_eq_true, if_false, if_true, Nat.add_zero] at hcount
      rw [hbump]
      simp only [Rule.retained]
      omega
    · rw [if_neg hself] at hbump
      have hne : r₀.idx ≠ r.idx := fun heq => hself (by rw [h.idx_inj hr₀ hr heq, hp])
      have hsame : l.contains r₀.idx = (reg.listOf u).contains r₀.idx := by
        rw [Bool.eq_iff_iff, contains_iff_mem, contains_iff_mem, hmem, or_iff_right hne]
      rw [hsame] at hcount
      rw [hbump, Nat.add_right_cancel hcount]

/-- An addition finds the user with the rule, or links a rule of the pattern to it; the others have been there. -/
theorem add_spec [Spares spare] (h : Sound spare fits reg) (hroom : Room width reg p) :
    (∃ r ∈ reg.rules, r.pattern = p ∧ r.idx ∈ reg.listOf u ∧ reg.add width u p = (r.idx, reg)) ∨
    ∃ reg' : Registry κ π, Sound spare fits reg' ∧ reg'.users = reg.users ∧
      (∀ r ∈ reg.rules, r ∈ reg'.rules) ∧ (∀ r ∈ reg'.rules, r ∈ reg.rules ∨ r.pattern = p) ∧
      ∃ r ∈ reg'.rules, r.pattern = p ∧ r.idx ∉ reg.listOf u ∧ ∃ l,
        l.Pairwise (· < ·) ∧ (∀ j, j ∈ l ↔ j = r.idx ∨ j ∈ reg.listOf u) ∧
        reg.add width u p = (r.idx, { reg' with
          rules := update Rule.pattern p Rule.retained reg'.rules, users := reg'.setList u l }) := by
  have halloc := h.alloc hroom
  have hadd := add_cases (u := u) h hroom
  rcases alloc_cases width reg p with ⟨r, hr, hp, heq⟩ | ⟨-, heq⟩
  · simp only [heq] at hadd
    rcases hadd with ⟨hmem, hadd⟩ | ⟨hnot, l, hl, hmem, hadd⟩
    · exact Or.inl ⟨r, hr, hp, hmem, hadd⟩
    · exact Or.inr ⟨reg, h, rfl, fun _ => id, fun _ => Or.inl, r, hr, hp, hnot, l, hl, hmem, hadd⟩
  · rw [heq] at halloc
    simp only [heq] at hadd
    have hnot : reg.next ∉ reg.listOf u := h.next_notMem
    obtain ⟨-, l, hl, hmem, hadd⟩ := hadd.resolve_left fun hin => hnot hin.1
    refine Or.inr ⟨_, halloc.1, rfl, fun r hr => mem_append_left _ hr, fun r hr => ?_,
      ⟨reg.next, p, 0⟩, mem_append_right _ mem_cons_self, rfl, hnot, l, hl, hmem, hadd⟩
    rcases mem_append.mp hr with hr | hr
    · exact Or.inl hr
    · exact Or.inr (by rw [mem_singleton.mp hr])

theorem Consistent.add [Spares spare] (h : Consistent spare fits reg) (hu : (search Prod.fst u reg.users).isSome)
    (hfits : fits u p) (hroom : Room width reg p) : Consistent spare fits (reg.add width u p).2 := by
  rcases add_spec (u := u) h.toSound hroom with
    ⟨r, -, -, -, heq⟩ | ⟨reg', hsound, husers, -, hrules, r, hr, hp, hnot, l, hl, hmem, heq⟩
  · rw [heq]
    exact h
  · have hlist : reg'.listOf u = reg.listOf u := by rw [Registry.listOf, husers, Registry.listOf]
    rw [heq]
    rw [← husers] at hu
    rw [← hlist] at hnot hmem
    refine ⟨hsound.link hu hr hp hfits hnot hl hmem, fun r' hr' => ?_⟩
    obtain ⟨r₀, hr₀, hbump⟩ := mem_bump hsound.patterns hr'
    split at hbump
    · have hspare := Spares.nonneg _ (hsound.counted r₀ hr₀)
      rw [hbump]
      simp only [Rule.retained]
      omega
    · next hother =>
      rw [hbump]
      exact h.live r₀ ((hrules r₀ hr₀).resolve_right hother)

theorem search_add (width : ℕ) (u' : κ) : (search Prod.fst u' (reg.add width u p).2.users).isSome =
    (search Prod.fst u' reg.users).isSome := by
  have husers : (reg.alloc width p).2.users = reg.users := by
    rcases alloc_cases width reg p with ⟨r, -, -, heq⟩ | ⟨-, heq⟩ <;> rw [heq]
  rw [← husers]
  unfold Registry.add
  dsimp only
  split
  · rfl
  · exact search_setList u'

/-- The user holds the new rule, and nothing else has changed. -/
theorem holds_add [Spares spare] (h : Sound spare fits reg) (hu : (search Prod.fst u reg.users).isSome)
    (hroom : Room width reg p) (u' : κ) (j : ℕ) (q : π) : Holds (reg.add width u p).2 u' j q ↔
      Holds reg u' j q ∨ (u' = u ∧ j = (reg.add width u p).1 ∧ q = p) := by
  rcases add_spec (u := u) h hroom with
    ⟨r, hr, hp, hin, heq⟩ | ⟨reg', hsound, husers, hkeeps, hrules, r, hr, hp, -, l, -, hmem, heq⟩
  · rw [heq]
    refine ⟨Or.inl, fun hold => hold.elim id ?_⟩
    rintro ⟨rfl, rfl, rfl⟩
    exact ⟨hin, r, hr, rfl, hp⟩
  · have hlist : ∀ u, reg'.listOf u = reg.listOf u := fun u => by rw [Registry.listOf, husers, Registry.listOf]
    have hnew : Registry.listOf { reg' with
        rules := update Rule.pattern p Rule.retained reg'.rules, users := reg'.setList u l } u' =
        if u' = u then l else reg.listOf u' := by
      rw [← hlist]
      exact listOf_setList (husers ▸ hu) u'
    rw [heq]
    unfold Holds
    rw [hnew]
    -- a rule that was on a list is the rule from before
    have hold : ∀ u₁, ∀ r₀ ∈ reg'.rules, r₀.idx ∈ reg.listOf u₁ → r₀ ∈ reg.rules := by
      intro u₁ r₀ hr₀ hidx
      obtain ⟨r₁, hr₁, heq₁, -⟩ := h.list_known hidx
      exact hsound.idx_inj (hkeeps r₁ hr₁) hr₀ heq₁ ▸ hr₁
    constructor
    · rintro ⟨hj, r', hr', rfl, rfl⟩
      obtain ⟨r₀, hr₀, hidx, hpattern⟩ := of_mem_bump hsound.patterns hr'
      rw [hidx] at hj ⊢
      rw [hpattern]
      split at hj
      · next hself =>
        subst hself
        rcases (hmem _).mp hj with hnew | hin
        · exact Or.inr ⟨rfl, hnew, (hsound.idx_inj hr₀ hr hnew) ▸ hp⟩
        · exact Or.inl ⟨hin, r₀, hold _ r₀ hr₀ hin, rfl, rfl⟩
      · exact Or.inl ⟨hj, r₀, hold _ r₀ hr₀ hj, rfl, rfl⟩
    · rintro (⟨hj, r₀, hr₀, rfl, rfl⟩ | ⟨rfl, rfl, rfl⟩)
      · obtain ⟨r', hr', hidx, hpattern⟩ := bump_of_mem (p := p) (hkeeps r₀ hr₀)
        refine ⟨?_, r', hr', hidx, hpattern⟩
        split
        · next hself => exact (hmem _).mpr (Or.inr (hself ▸ hj))
        · exact hj
      · obtain ⟨r', hr', hidx, hpattern⟩ := bump_of_mem (p := q) hr
        exact ⟨by rw [if_pos rfl]; exact (hmem _).mpr (Or.inl rfl), r', hr', hidx, hpattern.trans hp⟩

end Getting

/-! ### Giving up rules of a user -/

/-- A user gives up the rules that `gone` picks by index and pattern. -/
def Registry.giveUp (reg : Registry κ π) (u : κ) (gone : ℕ → π → Bool) : Registry κ π :=
  { reg with
    rules := releaseAll (fun r => (reg.listOf u).contains r.idx && gone r.idx r.pattern) reg.rules
    users := reg.setList u ((reg.listOf u).filter fun i => !reg.rules.any fun r => r.idx == i && gone r.idx r.pattern) }

section Giving

variable (h : Sound spare fits reg)
include h

/-- What is kept of the list. -/
theorem Sound.mem_kept {gone : ℕ → π → Bool} (hr : r ∈ reg.rules) :
    (r.idx ∈ (reg.listOf u).filter fun i => !reg.rules.any fun r => r.idx == i && gone r.idx r.pattern) ↔
      r.idx ∈ reg.listOf u ∧ gone r.idx r.pattern = false := by
  rw [mem_filter]
  refine and_congr_right fun _ => ?_
  rw [Bool.not_eq_true', any_eq_false]
  constructor
  · intro hnone
    simpa using hnone r hr
  · intro hkeep r' hr'
    by_cases hidx : r'.idx = r.idx
    · rw [h.idx_inj hr' hr hidx]
      simp [hkeep]
    · simp [hidx]

theorem remove_eq {i : ℕ} (hi : i ∈ reg.listOf u) : reg.remove u i = reg.giveUp u fun j _ => j == i := by
  have hrules : release i reg.rules = releaseAll (fun r => (reg.listOf u).contains r.idx && r.idx == i) reg.rules := by
    rw [release_eq h.ordered]
    refine releaseAll_congr fun r _ => ?_
    by_cases hr : r.idx = i
    · simp [hr, hi]
    · simp [hr]
  have hlist : (reg.listOf u).erase i = (reg.listOf u).filter fun j => !reg.rules.any fun r =>
      r.idx == j && r.idx == i := by
    have hnodup : (reg.listOf u).Nodup := (h.list_sorted u).imp Nat.ne_of_lt
    rw [hnodup.erase_eq_filter]
    refine filter_congr fun j hj => ?_
    obtain ⟨r, hr, rfl, -⟩ := h.list_known hj
    have hany : (reg.rules.any fun r' => r'.idx == r.idx && r'.idx == i) = (r.idx == i) := by
      rw [Bool.eq_iff_iff, any_eq_true]
      constructor
      · rintro ⟨r', -, hboth⟩
        obtain ⟨hidx, hi⟩ : r'.idx = r.idx ∧ r'.idx = i := by simpa using hboth
        exact beq_iff_eq.mpr (hidx ▸ hi)
      · intro hri
        exact ⟨r, hr, by rw [beq_self_eq_true, hri]; rfl⟩
    rw [hany]
    rfl
  unfold Registry.remove Registry.giveUp
  rw [hrules, hlist]

theorem sweep_eq {hit : π → Bool} : reg.sweep u hit = reg.giveUp u fun _ => hit := by
  have hloop : sweepLoop hit (reg.listOf u) [] reg.rules = _ :=
    sweepLoop_sorted h.ordered (h.list_sorted u) fun i hi => by
    obtain ⟨r, hr, hidx, -⟩ := h.list_known hi
    exact ⟨r, hr, hidx⟩
  unfold Registry.sweep
  rw [hloop]
  rfl

/-- Looking at the rules of a user: whether one that it holds is hit, and whether it holds any. -/
theorem probe_iff (u : κ) (hit : π → Bool) :
    let verdict := probe Rule.idx (fun r => hit r.pattern) reg.rules (reg.listOf u) reg.rules false
    (verdict.1 = true ↔ ∃ i p, Holds reg u i p ∧ hit p = true) ∧ (verdict.2 = true ↔ ∃ i p, Holds reg u i p) := by
  intro verdict
  obtain ⟨hhit, hlooked⟩ := @probe_sorted _ Rule.idx (fun r : Rule π => hit r.pattern) reg.rules reg.rules
    (reg.listOf u) h.ordered (h.list_sorted u) (fun i hi => by
      obtain ⟨r, hr, hidx, -⟩ := h.list_known hi
      exact ⟨r, hr, hidx⟩) false
  refine ⟨hhit.trans ⟨?_, ?_⟩, hlooked.trans ⟨?_, ?_⟩⟩
  · rintro ⟨r, hr, hin, hr'⟩
    exact ⟨r.idx, r.pattern, ⟨hin, r, hr, rfl, rfl⟩, hr'⟩
  · rintro ⟨i, p, ⟨hin, r, hr, rfl, rfl⟩, hp⟩
    exact ⟨r, hr, hin, hp⟩
  · intro hne
    obtain ⟨i, hi⟩ := exists_mem_of_ne_nil _ (hne.resolve_left Bool.false_ne_true)
    obtain ⟨r, hr, hidx, -⟩ := h.list_known hi
    exact ⟨i, r.pattern, hi, r, hr, hidx, rfl⟩
  · rintro ⟨i, p, hi, -⟩
    exact Or.inr (ne_nil_of_mem hi)

variable (hu : (search Prod.fst u reg.users).isSome)
include hu

/-- The lists that have an index: one less if it was given up. -/
theorem Sound.count_giveUp (gone : ℕ → π → Bool) (hr : r ∈ reg.rules) :
    (((reg.giveUp u gone).users.countP fun x => x.2.contains r.idx : ℕ) : ℤ) =
      (reg.users.countP fun x => x.2.contains r.idx) -
        if (reg.listOf u).contains r.idx && gone r.idx r.pattern then 1 else 0 := by
  have hcount := countP_setList (l := (reg.listOf u).filter fun i =>
    !reg.rules.any fun r => r.idx == i && gone r.idx r.pattern) hu fun l => l.contains r.idx
  have hkept : ((reg.listOf u).filter fun i => !reg.rules.any fun r => r.idx == i && gone r.idx r.pattern).contains
      r.idx = ((reg.listOf u).contains r.idx && !gone r.idx r.pattern) := by
    rw [Bool.eq_iff_iff, contains_iff_mem, h.mem_kept hr]
    simp
  have husers : (reg.giveUp u gone).users = reg.setList u ((reg.listOf u).filter fun i =>
    !reg.rules.any fun r => r.idx == i && gone r.idx r.pattern) := rfl
  rw [husers]
  rw [hkept] at hcount
  cases hin : (reg.listOf u).contains r.idx <;> cases hgone : gone r.idx r.pattern <;>
    simp only [hin, hgone, Bool.and_true, Bool.and_false, Bool.not_true, Bool.not_false, Bool.false_eq_true, if_true,
      if_false] at hcount ⊢ <;> omega

/-- A rule that somebody holds afterwards is still there. -/
theorem Sound.rule_giveUp [Spares spare] (gone : ℕ → π → Bool) (hr : r ∈ reg.rules) {x : κ × List ℕ}
    (hx : x ∈ (reg.giveUp u gone).users) (hidx : r.idx ∈ x.2) :
    ∃ r' ∈ (reg.giveUp u gone).rules, r'.idx = r.idx ∧ r'.pattern = r.pattern := by
  have hcount := h.count_giveUp hu gone hr
  have hspare := Spares.nonneg _ (h.counted r hr)
  have hpos : 0 < (reg.giveUp u gone).users.countP fun x => x.2.contains r.idx :=
    countP_pos_iff.mpr ⟨x, hx, contains_iff_mem.mpr hidx⟩
  by_cases hgone : ((reg.listOf u).contains r.idx && gone r.idx r.pattern) = true
  · rw [if_pos hgone] at hcount
    refine ⟨{ r with refs := r.refs - 1 }, mem_releaseAll.mpr ⟨r, hr, ?_⟩, rfl, rfl⟩
    rw [if_pos hgone]
    exact ⟨by omega, rfl⟩
  · exact ⟨r, mem_releaseAll.mpr ⟨r, hr, by rw [if_neg hgone]⟩, rfl, rfl⟩

/-- The user holds the rest, and nothing else has changed. -/
theorem holds_giveUp [Spares spare] (gone : ℕ → π → Bool) (u' : κ) (j : ℕ) (q : π) :
    Holds (reg.giveUp u gone) u' j q ↔ Holds reg u' j q ∧ (u' = u → gone j q = false) := by
  have hlist : (reg.giveUp u gone).listOf u' = if u' = u then
      (reg.listOf u).filter fun i => !reg.rules.any fun r => r.idx == i && gone r.idx r.pattern
      else reg.listOf u' := listOf_setList hu u'
  unfold Holds
  rw [hlist]
  constructor
  · rintro ⟨hj, r', hr', rfl, rfl⟩
    obtain ⟨r, hr, hidx, hpattern⟩ : ∃ r ∈ reg.rules, r'.idx = r.idx ∧ r'.pattern = r.pattern := by
      obtain ⟨r, hr, hcase⟩ := mem_releaseAll.mp hr'
      refine ⟨r, hr, ?_⟩
      split at hcase
      · rw [hcase.2]
        exact ⟨rfl, rfl⟩
      · rw [hcase]
        exact ⟨rfl, rfl⟩
    rw [hidx] at hj ⊢
    rw [hpattern]
    split at hj
    · next hself =>
      subst hself
      obtain ⟨hin, hkeep⟩ := (h.mem_kept hr).mp hj
      exact ⟨⟨hin, r, hr, rfl, rfl⟩, fun _ => hkeep⟩
    · next hother => exact ⟨⟨hj, r, hr, rfl, rfl⟩, fun hself => absurd hself hother⟩
  · rintro ⟨⟨hj, r, hr, rfl, rfl⟩, hkeep⟩
    have hin : r.idx ∈ (reg.giveUp u gone).listOf u' := by
      rw [hlist]
      split
      · next hself =>
        subst hself
        exact (h.mem_kept hr).mpr ⟨hj, hkeep rfl⟩
      · exact hj
    refine ⟨hlist ▸ hin, ?_⟩
    cases hsearch : search Prod.fst u' (reg.giveUp u gone).users with
    | none =>
      rw [Registry.listOf, hsearch] at hin
      cases hin
    | some x =>
      rw [listOf_of_search hsearch] at hin
      exact h.rule_giveUp hu gone hr (mem_of_search hsearch) hin

end Giving

section User

variable (hu : (search Prod.fst u reg.users).isSome)
include hu

theorem Consistent.giveUp [Spares spare] (h : Consistent spare fits reg) (gone : ℕ → π → Bool) :
    Consistent spare fits (reg.giveUp u gone) := by
  have hmem : ∀ r' ∈ (reg.giveUp u gone).rules, ∃ r ∈ reg.rules, r'.idx = r.idx ∧
      r'.refs - (reg.giveUp u gone).users.countP (fun x => x.2.contains r'.idx) =
        r.refs - reg.users.countP (fun x => x.2.contains r.idx) ∧ 1 ≤ r'.refs := by
    intro r' hr'
    obtain ⟨r, hr, hcase⟩ := mem_releaseAll.mp hr'
    have hcount := h.toSound.count_giveUp hu gone hr
    have hlive := h.live r hr
    refine ⟨r, hr, ?_⟩
    split at hcase
    · next hgone =>
      rw [if_pos hgone] at hcount
      obtain ⟨hne, rfl⟩ := hcase
      dsimp only
      exact ⟨rfl, by omega, by omega⟩
    · next hgone =>
      rw [if_neg hgone] at hcount
      subst hcase
      exact ⟨rfl, by omega, hlive⟩
  refine ⟨⟨?_, fun r' hr' => ?_, ?_, fun x hx => ?_, fun x hx i hi => ?_, fun r' hr' => ?_⟩, fun r' hr' => ?_⟩
  · exact h.ordered.sublist (releaseAll_sublist Rule.idx fun _ _ => rfl)
  · obtain ⟨r, hr, hidx, -, -⟩ := hmem r' hr'
    exact hidx ▸ h.bounded r hr
  · exact h.patterns.sublist (releaseAll_sublist Rule.pattern fun _ _ => rfl)
  · rcases mem_setList hx with hx | rfl
    · exact h.sorted x hx
    · exact (h.toSound.list_sorted u).filter _
  · have hold : ∃ r ∈ reg.rules, r.idx = i ∧ fits x.1 r.pattern := by
      rcases mem_setList hx with hx | rfl
      · exact h.known x hx i hi
      · exact h.toSound.list_known (mem_of_mem_filter hi)
    obtain ⟨r, hr, rfl, hfits⟩ := hold
    obtain ⟨r', hr', hidx, hpattern⟩ := h.toSound.rule_giveUp hu gone hr hx hi
    exact ⟨r', hr', hidx, hpattern ▸ hfits⟩
  · obtain ⟨r, hr, -, hsame, -⟩ := hmem r' hr'
    rw [hsame]
    exact h.counted r hr
  · obtain ⟨-, -, -, -, hlive⟩ := hmem r' hr'
    exact hlive

/-- Nothing is lost with a list that is empty. -/
theorem forget_eq_self (hnil : reg.listOf u = []) :
    reg.forget u = reg := by
  have husers : reg.setList u [] = reg.users := by
    have hsame : (fun x : κ × List ℕ => (x.1, ([] : List ℕ))) (u, reg.listOf u) = (u, reg.listOf u) := by
      rw [hnil]
    exact update_eq_self (exists_user hu) hsame
  rw [Registry.forget, husers]

/-- A list is emptied: the references are spare ones now. -/
theorem Consistent.forget (h : Consistent (0 ≤ ·) fits reg) :
    Consistent (0 ≤ ·) fits (reg.forget u) := by
  refine ⟨⟨h.ordered, h.bounded, h.patterns, fun x hx => ?_, fun x hx i hi => ?_, fun r hr => ?_⟩, h.live⟩
  · rcases mem_setList hx with hx | rfl
    · exact h.sorted x hx
    · exact List.Pairwise.nil
  · rcases mem_setList hx with hx | rfl
    · exact h.known x hx i hi
    · cases hi
  · have hcount := countP_setList (l := []) hu fun l => l.contains r.idx
    have hspare := h.counted r hr
    have husers : (reg.forget u).users = reg.setList u [] := rfl
    rw [husers]
    simp only [contains_nil, Bool.false_eq_true, if_false] at hcount
    omega

theorem holds_forget {u' : κ} {j : ℕ} {q : π}
    (h : Holds (reg.forget u) u' j q) : Holds reg u' j q := by
  have hlist : (reg.forget u).listOf u' = if u' = u then [] else reg.listOf u' := listOf_setList hu u'
  obtain ⟨hj, hrule⟩ := h
  rw [hlist] at hj
  split at hj
  · cases hj
  · exact ⟨hj, hrule⟩

end User

end Consistent

end PhoebusBsp.Schemes.Shared

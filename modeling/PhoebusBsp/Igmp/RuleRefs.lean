import PhoebusBsp.Igmp.RuleLists

/-! Reference counts of the rules. A rule counts the lists that have its index; a reset of a device releases
    what its lists hold, as long as there is nothing on its black list.

        reset_devConfig    white list    every index released, then emptied
                           black list    no index released, then emptied

    The second loop of the reset is over the white list, which the first one has emptied. -/

namespace PhoebusBsp.Igmp
open Schemes Shared List

/-! ### Reset -/

section Reset

variable {spare : ℤ → Prop} [Spares spare] {s : RuleLists} {sets : RuleSets} {ifidx : UInt32}

/-- The first loop: of what the device was given, nothing is left that is on the list, and nothing is new. -/
theorem keeps_dels {given : Given WhitePattern} (hd : ifidx ∈ s.devices)
    (h : Keeps spare WhitePattern.ipVersion s.devices s.white given) (idxs : List ℕ) :
    let s' := idxs.foldl (fun s index => (s.whiteListDelByIdx ifidx index).2) s
    s'.devices = s.devices ∧ s'.black = s.black ∧ ∃ given',
      Keeps spare WhitePattern.ipVersion s.devices s'.white given' ∧
      ∀ v, ∀ x ∈ given' ifidx v, x ∈ given ifidx v ∧ x.1 ∉ idxs := by
  induction idxs generalizing s given with
  | nil => exact ⟨rfl, rfl, given, h, fun v x hx => ⟨hx, not_mem_nil⟩⟩
  | cons i idxs ih =>
    have hdel : (s.whiteListDelByIdx ifidx i).2 = { s with white := (s.white.delByIdx ifidx i).getD s.white } := by
      rw [whiteListDelByIdx_eq, if_neg (not_not.mpr hd)]
    have hdevs : (s.whiteListDelByIdx ifidx i).2.devices = s.devices := by rw [hdel]
    have hkept : Keeps spare WhitePattern.ipVersion (s.whiteListDelByIdx ifidx i).2.devices
      (s.whiteListDelByIdx ifidx i).2.white
        (given.without ifidx i) := by
      rw [hdel]
      exact h.delByIdx hd i
    obtain ⟨hdevices, hblack, given', hkeeps, hgiven⟩ := ih (hdevs ▸ hd) hkept
    refine ⟨hdevices.trans hdevs, hblack.trans (by rw [hdel]), given', hdevs ▸ hkeeps, fun v x hx => ?_⟩
    obtain ⟨⟨hin, hne⟩, hnot⟩ := hgiven v x hx
    exact ⟨hin, fun hmem => (mem_cons.mp hmem).elim (fun hi => hne ⟨rfl, hi⟩) hnot⟩

/-- Both lists of the device are empty, and the rules are released, when there was nothing on the black list. -/
theorem follow_reset {v : IpVersion} (h : Follow spare s sets) (hblack : s.black.listOf (ifidx, v) = []) :
    (∃ sets', Follow spare (s.resetDevConfig ifidx v) sets') ∧ (s.resetDevConfig ifidx v).white.listOf (ifidx, v) = [] ∧
      (s.resetDevConfig ifidx v).black.listOf (ifidx, v) = [] := by
  unfold RuleLists.resetDevConfig
  split
  · next hd =>
    refine ⟨⟨sets, h⟩, eq_nil_iff_forall_not_mem.mpr fun i hi => ?_, hblack⟩
    obtain ⟨p, hp⟩ := h.white.idx_mem.mp hi
    exact h.white.none hd v _ hp
  · next hd =>
    obtain ⟨hdevices, hsame, given', hkeeps, hgiven⟩ := keeps_dels (not_not.mp hd) h.white (s.white.listOf (ifidx, v))
    generalize (s.white.listOf (ifidx, v)).foldl (fun s index => (s.whiteListDelByIdx ifidx index).2) s = s' at *
    have hnil : s'.white.listOf (ifidx, v) = [] := by
      refine eq_nil_iff_forall_not_mem.mpr fun i hi => ?_
      obtain ⟨p, hp⟩ := hkeeps.idx_mem.mp hi
      obtain ⟨hin, hnot⟩ := hgiven v _ hp
      exact hnot (h.white.idx_mem.mpr ⟨p, hin⟩)
    have hwhite : s'.white.forget (ifidx, v) = s'.white :=
      forget_eq_self ((hkeeps.listed _ _).mpr (not_not.mp hd)) hnil
    have hforget : s.black.forget (ifidx, v) = s.black :=
      forget_eq_self ((h.black.listed _ _).mpr (not_not.mp hd)) hblack
    -- the second loop has nothing to do
    simp only [hnil, foldl_nil, hwhite, hsame, hforget]
    exact ⟨⟨⟨given', sets.black⟩, hdevices ▸ hkeeps, hdevices ▸ h.black⟩, trivial, hblack⟩

end Reset

/-! ### Counts -/

/-- A rule counts the lists that have its index, at least one, and every index on a list is that of one rule. -/
structure RefsMatch {π : Type} (reg : Rules π) : Prop where
  refs : ∀ r ∈ reg.rules, r.refs = (reg.users.countP fun x => x.2.contains r.idx) ∧ 1 ≤ r.refs
  known : ∀ x ∈ reg.users, ∀ i ∈ x.2, ∃! r, r ∈ reg.rules ∧ r.idx = i

theorem Keeps.refsMatch {π : Type} [DecidableEq π] {ver : π → IpVersion} {devices : List UInt32} {reg : Rules π}
    {given : Given π} (h : Keeps (· = 0) ver devices reg given) : RefsMatch reg := by
  refine ⟨fun r hr => ⟨Int.sub_eq_zero.mp (h.consistent.counted r hr), h.consistent.live r hr⟩, fun x hx i hi => ?_⟩
  obtain ⟨r, hr, hidx, -⟩ := h.consistent.known x hx i hi
  refine ⟨r, ⟨hr, hidx⟩, ?_⟩
  rintro r' ⟨hr', hidx'⟩
  exact h.consistent.idx_inj hr' hr (hidx'.trans hidx.symm)

/-- An index is left for every new rule, and a device that is reset has an empty black list. -/
def Releasing (s : RuleLists) : RuleCall → Prop
  | .reset ifidx v => s.black.listOf (ifidx, v) = []
  | call => Numbered s call

theorem exec_follow (s : RuleLists) (call : RuleCall) (h : ∃ sets, Follow (· = 0) s sets) (hok : Releasing s call) :
    ∃ sets, Follow (· = 0) (s.exec call).2 sets := by
  obtain ⟨sets, h⟩ := h
  cases call with
  | whiteAdd patten ifidx => exact ⟨_, follow_whiteAdd hok h⟩
  | whiteDel patten ifidx index => exact ⟨_, follow_whiteDel h⟩
  | blackAdd patten ifidx => exact ⟨_, follow_blackAdd hok h⟩
  | blackDel patten ifidx index => exact ⟨_, follow_blackDel h⟩
  | reset ifidx v => exact (follow_reset h hok).1

/-- In every sequence of additions, deletions and resets in which a device with an empty black list is reset and
    fewer than `2 ^ 31` rules of either kind are made, the counts match the lists; and a device that was reset
    last has nothing on its lists. -/
theorem refs_match_lists (devices : List UInt32) (calls : List RuleCall)
    (hlegal : Legal (fun s call => (RuleLists.exec s call).2) Releasing (RuleLists.init devices) calls) :
    let s := run (fun s call => (RuleLists.exec s call).2) (RuleLists.init devices) calls
    RefsMatch s.white ∧ RefsMatch s.black ∧
      ∀ ifidx v, calls.getLast? = some (.reset ifidx v) →
        s.white.listOf (ifidx, v) = [] ∧ s.black.listOf (ifidx, v) = [] := by
  intro s
  have hinit : ∃ sets, Follow (· = 0) (RuleLists.init devices) sets := ⟨⟨fun _ _ => ∅, fun _ _ => ∅⟩, .init, .init⟩
  obtain ⟨sets, hfollow⟩ := run_invariant exec_follow calls _ hinit hlegal
  refine ⟨hfollow.white.refsMatch, hfollow.black.refsMatch, fun ifidx v hlast => ?_⟩
  obtain ⟨before, rfl⟩ := List.getLast?_eq_some_iff.mp hlast
  obtain ⟨hlegal, hreset, -⟩ := legal_append.mp hlegal
  obtain ⟨sets', hbefore⟩ := run_invariant exec_follow before _ hinit hlegal
  have hs : s = (run (fun s call => (RuleLists.exec s call).2) (RuleLists.init devices)
    before).resetDevConfig ifidx v :=
    foldl_concat ..
  rw [hs]
  exact (follow_reset hbefore hreset).2

/-- Two devices share a white rule, and one of them is reset. -/
theorem refs_match_lists_sample :
    let ip : Ip := ⟨0, 0, 0, 0⟩
    let rule : WhitePattern := ⟨.v4, true, 1, 0xffffffffffff, false, ip, ip, false, ip, ip, false, false, ip, ip⟩
    let s := run (fun s call => (RuleLists.exec s call).2) (RuleLists.init [5, 6])
      [.whiteAdd rule 5, .whiteAdd rule 6, .blackAdd (stationRule 2) 6, .reset 5 .v4]
    RefsMatch s.white ∧ s.white.rules = [⟨0, rule, 1⟩] ∧ s.white.listOf (5, .v4) = [] := by
  intro ip rule s
  have hmatch := refs_match_lists [5, 6] [.whiteAdd rule 5, .whiteAdd rule 6, .blackAdd (stationRule 2) 6, .reset 5 .v4]
    ⟨Or.inr (by decide +kernel), Or.inr (by decide +kernel), Or.inr (by decide +kernel), rfl, trivial⟩
  exact ⟨hmatch.1, by decide +kernel, (hmatch.2.2 5 .v4 rfl).1⟩

/-- The black list of a device is emptied without releasing its rule, which nobody can delete any more. -/
theorem black_rule_left_by_reset :
    let s := run (fun s call => (RuleLists.exec s call).2) (RuleLists.init [5, 6])
      [.blackAdd (stationRule 1) 5, .reset 5 .v4]
    s.black.rules = [⟨0, stationRule 1, 1⟩] ∧ (∀ x ∈ s.black.users, x.2 = []) ∧ ¬ RefsMatch s.black := by
  intro s
  have hrules : s.black.rules = [⟨0, stationRule 1, 1⟩] := by decide +kernel
  have husers : ∀ x ∈ s.black.users, x.2 = [] := by decide +kernel
  refine ⟨hrules, husers, fun h => ?_⟩
  obtain ⟨hrefs, -⟩ := h.refs ⟨0, stationRule 1, 1⟩ (by rw [hrules]; exact mem_singleton_self _)
  have hnone : s.black.users.countP (fun x => x.2.contains 0) = 0 :=
    countP_eq_zero.mpr fun x hx => by simp [husers x hx]
  rw [hnone] at hrefs
  exact absurd hrefs (by decide)

end PhoebusBsp.Igmp

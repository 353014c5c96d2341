import PhoebusBsp.Igmp.Admin
import PhoebusBsp.Schemes.Machine
import PhoebusBsp.Schemes.Sharing

/-! White and black lists. Devices share their rules, which are kept once with a reference count; a device has
    a list of indices for each version.

        whiteListAdd, blackListAdd    the rule of the pattern, or a new one, linked to the device
        ...Del, by index              from the list of either version
        ...Del, by pattern            every rule of the device that the pattern covers
        reset_devConfig               the white rules of the device one by one; its black list is only emptied

    The verdicts are those of the rules that were added to the device and not deleted from it since, until the
    32 bits of the indices have been used up. -/

namespace PhoebusBsp.Igmp
open Schemes Shared List

/-! ### Patterns -/

/-- `rt_igmpHook_whiteList_t`. -/
structure WhitePattern where
  ipVersion : IpVersion
  smacChk : Bool
  smac : Mac
  smacMask : Mac
  gipChk : Bool
  wlGroupIpStart : Ip
  wlGroupIpEnd : Ip
  sipChk : Bool
  wlSipStart : Ip
  wlSipEnd : Ip
  mcSipChk : Bool
  mcSipChkIgnoreNonIgmpv3Mldv2 : Bool
  wlMcSip : Ip
  wlMcSipEnd : Ip
  deriving DecidableEq

/-- The pattern as an entry of `whiteListHead`. -/
def WhitePattern.entry (p : WhitePattern) (idx : ℕ) : WhiteEntry :=
  ⟨idx, p.smacChk, p.smac, p.smacMask, p.gipChk, p.wlGroupIpStart, p.wlGroupIpEnd, p.sipChk, p.wlSipStart,
    p.wlSipEnd, p.mcSipChk, p.mcSipChkIgnoreNonIgmpv3Mldv2, p.wlMcSip, p.wlMcSipEnd⟩

/-- All checks that are on find their datum and match it. -/
def WhitePattern.hit (p : WhitePattern) (v : IpVersion) (isV3 : Bool) (g c mcSource : Option Ip)
    (smac : Option Mac) : Bool :=
  (!p.smacChk || smac.any (macMatch p.smac p.smacMask)) &&
  (!p.gipChk || g.any (inRange v p.wlGroupIpStart p.wlGroupIpEnd)) &&
  (!p.sipChk || c.any (inRange v p.wlSipStart p.wlSipEnd)) &&
  (!p.mcSipChk || (p.mcSipChkIgnoreNonIgmpv3Mldv2 && !isV3) || mcSource.any (inRange v p.wlMcSip p.wlMcSipEnd))

/-- The check is on, and finds its datum and matches it, or it is off. -/
def BlackPattern.bars (p : BlackPattern) (smac : Option Mac) : Bool :=
  !p.smacChk || smac.any (macMatch p.smac p.smacMask)

/-- An IPv4 range whose end is in front of its start. -/
def badRange (start stop : Ip) : Bool := 0 < stop.w0 && stop.w0 < start.w0

/-- The error checking of `rtk_igmp_whiteListAdd`. -/
def WhitePattern.bad (p : WhitePattern) : Bool :=
  p.ipVersion == .v4 && (badRange p.wlSipStart p.wlSipEnd || badRange p.wlGroupIpStart p.wlGroupIpEnd ||
    badRange p.wlMcSip p.wlMcSipEnd)

/-- Deletion by a pattern: the rule has the checks that are on in the pattern, with the same values. -/
def WhitePattern.covers (q p : WhitePattern) : Bool :=
  q.ipVersion == p.ipVersion &&
  (!q.gipChk || (p.gipChk && p.wlGroupIpStart == q.wlGroupIpStart && p.wlGroupIpEnd == q.wlGroupIpEnd)) &&
  (!q.sipChk || (p.sipChk && p.wlSipStart == q.wlSipStart && p.wlSipEnd == q.wlSipEnd)) &&
  (!q.mcSipChk || (p.mcSipChk && p.wlMcSip == q.wlMcSip && p.wlMcSipEnd == q.wlMcSipEnd)) &&
  (!q.smacChk || (p.smacChk && p.smac == q.smac && p.smacMask == q.smacMask))

def BlackPattern.covers (q p : BlackPattern) : Bool :=
  q.ipVersion == p.ipVersion && (!q.smacChk || (p.smacChk && p.smac == q.smac && p.smacMask == q.smacMask))

/-! ### The lists -/

/-- The rules of one kind, and the lists of every device for both versions. -/
abbrev Rules (π : Type) := Registry (UInt32 × IpVersion) π

/-- `whiteListHead` and `blackListHead`, with the lists of the devices. -/
structure RuleLists where
  devices : List UInt32
  white : Rules WhitePattern
  black : Rules BlackPattern

/-- No rules yet. -/
def Rules.init (π : Type) (devices : List UInt32) : Rules π :=
  ⟨[], 0, devices.flatMap fun d => [((d, .v4), []), ((d, .v6), [])]⟩

def RuleLists.init (devices : List UInt32) : RuleLists :=
  ⟨devices, Rules.init _ devices, Rules.init _ devices⟩

/-- `whiteLisIcrIdx` and `blackLisIcrIdx` are 32 bits wide. -/
def idxWidth : ℕ := 2 ^ 32

/-- From the list of either version. -/
def Rules.delByIdx {π : Type} (reg : Rules π) (d : UInt32) (index : ℕ) : Option (Rules π) :=
  if index ∈ reg.listOf (d, .v4) then some (reg.remove (d, .v4) index)
  else if index ∈ reg.listOf (d, .v6) then some (reg.remove (d, .v6) index)
  else none

namespace RuleLists

variable (s : RuleLists)

/-- `rtk_igmp_whiteListAdd`, with the index that it hands out. -/
def whiteListAdd (patten : WhitePattern) (ifidx : UInt32) : Option ℕ × RuleLists :=
  if ifidx ∉ s.devices then (none, s)
  else if patten.bad then (none, s)
  else
    let (index, white) := s.white.add idxWidth (ifidx, patten.ipVersion) patten
    (some index, { s with white := white })

/-- The lists of `rtk_igmp_blackListAdd`. -/
def blackListAdd (patten : BlackPattern) (ifidx : UInt32) : Option ℕ × RuleLists :=
  if ifidx ∉ s.devices then (none, s)
  else
    let (index, black) := s.black.add idxWidth (ifidx, patten.ipVersion) patten
    (some index, { s with black := black })

/-- `rtk_igmp_whiteListDel_byIdx`. -/
def whiteListDelByIdx (ifidx : UInt32) (index : ℕ) : Bool × RuleLists :=
  if ifidx ∉ s.devices then (false, s)
  else
    match s.white.delByIdx ifidx index with
    | none => (false, s)
    | some white => (true, { s with white := white })

/-- `rtk_igmp_blackListDel_byIdx`. -/
def blackListDelByIdx (ifidx : UInt32) (index : ℕ) : Bool × RuleLists :=
  if ifidx ∉ s.devices then (false, s)
  else
    match s.black.delByIdx ifidx index with
    | none => (false, s)
    | some black => (true, { s with black := black })

/-- `rtk_igmp_whiteListDel`: by index when there is no pattern. -/
def whiteListDel (patten : Option WhitePattern) (ifidx : UInt32) (index : ℕ) : Bool × RuleLists :=
  match patten with
  | none => s.whiteListDelByIdx ifidx index
  | some q =>
    if ifidx ∉ s.devices then (false, s)
    else (true, { s with white := s.white.sweep (ifidx, q.ipVersion) q.covers })

/-- `rtk_igmp_blackListDel`. -/
def blackListDel (patten : Option BlackPattern) (ifidx : UInt32) (index : ℕ) : Bool × RuleLists :=
  match patten with
  | none => s.blackListDelByIdx ifidx index
  | some q =>
    if ifidx ∉ s.devices then (false, s)
    else (true, { s with black := s.black.sweep (ifidx, q.ipVersion) q.covers })

/-- The lists of `rtk_igmp_reset_devConfig`. The second loop is over the white list again, and deletes from the
    black one. -/
def resetDevConfig (ifidx : UInt32) (v : IpVersion) : RuleLists :=
  if ifidx ∉ s.devices then s
  else
    let s := (s.white.listOf (ifidx, v)).foldl (fun s index => (s.whiteListDelByIdx ifidx index).2) s
    let s := (s.white.listOf (ifidx, v)).foldl (fun s index => (s.blackListDelByIdx ifidx index).2) s
    { s with white := s.white.forget (ifidx, v), black := s.black.forget (ifidx, v) }

/-- An address of zeros stands for an unknown one. -/
def knownMac (saMac : Option Mac) : Option Mac := saMac.filter fun m => m ≠ 0

/-- `rtk_igmp_filterWhiteListCheck`: a rule is hit, or none was looked at. -/
def filterWhiteListCheck (ifidx : UInt32) (v : IpVersion) (isV3 : Bool) (g c mcSource : Option Ip)
    (saMac : Option Mac) : Bool :=
  let (hit, enable) := probe Rule.idx (fun r => r.pattern.hit v isV3 g c mcSource (knownMac saMac)) s.white.rules
    (s.white.listOf (ifidx, v)) s.white.rules false
  hit || !enable

/-- `rtk_igmp_filterblackListCheck`. -/
def filterblackListCheck (ifidx : UInt32) (v : IpVersion) (saMac : Option Mac) : Bool :=
  (probe Rule.idx (fun r => r.pattern.bars (knownMac saMac)) s.black.rules (s.black.listOf (ifidx, v)) s.black.rules
    false).1

end RuleLists

/-! ### The white list that reports are checked against -/

theorem whiteLoop_map {hit : WhiteEntry → Bool} {f : Rule WhitePattern → WhiteEntry}
    (hf : ∀ r, (f r).whiteListIdx = r.idx)
    (all : List (Rule WhitePattern)) (idxs : List ℕ) (rest : List (Rule WhitePattern)) (enable : Bool) :
    whiteLoop hit (all.map f) idxs (rest.map f) enable =
      ((probe Rule.idx (hit ∘ f) all idxs rest enable).1 || !(probe Rule.idx (hit ∘ f) all idxs rest enable).2) := by
  induction idxs generalizing rest enable with
  | nil => rfl
  | cons i idxs ih =>
    have hdrop : (rest.map f).dropWhile (fun e => e.whiteListIdx != i) =
        (rest.dropWhile fun r => r.idx != i).map f := by
      rw [dropWhile_map]
      simp only [Function.comp_def, hf]
    rw [whiteLoop, probe, hdrop]
    cases rest.dropWhile fun r => r.idx != i with
    | nil => exact ih all enable
    | cons r behind =>
      by_cases hr : hit (f r) = true
      · simp [hr]
      · simpa [hr] using ih behind true

/-- The check of a report reads the lists that the calls maintain. -/
theorem filterWhiteListCheck_lists {s : RuleLists} {net : Net} {dev : DevInfo} {v : IpVersion}
    (hrules : net.whiteList = s.white.rules.map fun r => r.pattern.entry r.idx)
    (hlist : (dev.devConf v).white = s.white.listOf (dev.ifindex, v)) (isV3 : Bool) (g c : Ip) (mcSource : Option Ip)
    (saMac : Mac) : filterWhiteListCheck net dev v isV3 g c mcSource saMac =
      s.filterWhiteListCheck dev.ifindex v isV3 (some g) (some c) mcSource (some saMac) := by
  have hmac : (if saMac = 0 then none else some saMac) = RuleLists.knownMac (some saMac) := by
    by_cases h : saMac = 0
    · rw [if_pos h, h]
      rfl
    · rw [if_neg h]
      exact (if_pos (decide_eq_true h)).symm
  unfold filterWhiteListCheck RuleLists.filterWhiteListCheck
  rw [hrules, hlist, hmac]
  exact whiteLoop_map (fun _ => rfl) ..

/-! ### The rules that were added and not deleted -/

/-- What devices have been given, with the indices that were handed out. -/
abbrev Given (π : Type) := UInt32 → IpVersion → Set (ℕ × π)

section Given

variable {π : Type}

def Given.added (given : Given π) (d : UInt32) (v : IpVersion) (i : ℕ) (p : π) : Given π :=
  fun d' v' => { x | x ∈ given d' v' ∨ ((d', v') = (d, v) ∧ x = (i, p)) }

/-- The rule with the index is deleted from the device. -/
def Given.without (given : Given π) (d : UInt32) (i : ℕ) : Given π :=
  fun d' v' => { x | x ∈ given d' v' ∧ ¬ (d' = d ∧ x.1 = i) }

/-- The rules that are covered are deleted from the device. -/
def Given.uncovered (given : Given π) (d : UInt32) (v : IpVersion) (covers : π → Bool) : Given π :=
  fun d' v' => { x | x ∈ given d' v' ∧ ¬ ((d', v') = (d, v) ∧ covers x.2 = true) }

/-- The lists are consistent, belong to the devices, and hold what was given. -/
structure Keeps (spare : ℤ → Prop) (ver : π → IpVersion) (devices : List UInt32) (reg : Rules π)
    (given : Given π) : Prop where
  consistent : Consistent spare (fun u p => u.2 = ver p) reg
  listed : ∀ d v, (Chain.search Prod.fst (d, v) reg.users).isSome = true ↔ d ∈ devices
  given : ∀ d v i p, (i, p) ∈ given d v ↔ Holds reg (d, v) i p

variable {spare : ℤ → Prop} {ver : π → IpVersion} {devices : List UInt32} {reg : Rules π}
  {given : Given π} {d : UInt32}

theorem Keeps.init : Keeps spare ver devices (Rules.init π devices) fun _ _ => ∅ := by
  have husers : ∀ x ∈ (Rules.init π devices).users, x.2 = [] := by
    intro x hx
    obtain ⟨d, -, hx⟩ := mem_flatMap.mp hx
    rcases mem_cons.mp hx with rfl | hx
    · rfl
    · rw [mem_singleton.mp hx]
  have hnone : ∀ r, r ∉ (Rules.init π devices).rules := fun _ => not_mem_nil
  refine ⟨⟨⟨List.Pairwise.nil, fun r hr => absurd hr (hnone r), nodup_nil, fun x hx => ?_, fun x hx i hi => ?_,
    fun r hr => absurd hr (hnone r)⟩, fun r hr => absurd hr (hnone r)⟩, fun d v => ?_, fun d v i p => ?_⟩
  · rw [husers x hx]
    exact List.Pairwise.nil
  · rw [husers x hx] at hi
    exact absurd hi not_mem_nil
  · rw [Chain.search_isSome]
    have hkeys : (Rules.init π devices).users.map Prod.fst = devices.flatMap fun d => [(d, .v4), (d, .v6)] := by
      simp [Rules.init, map_flatMap]
    rw [hkeys, mem_flatMap]
    cases v <;> simp
  · refine ⟨fun h => absurd h (Set.notMem_empty _), ?_⟩
    rintro ⟨-, r, hr, -⟩
    exact absurd hr (hnone r)

section Keeps

variable (h : Keeps spare ver devices reg given)
include h

theorem Keeps.congr {given' : Given π} (hgiven : ∀ d v x, x ∈ given' d v ↔ x ∈ given d v) :
    Keeps spare ver devices reg given' :=
  ⟨h.consistent, h.listed, fun d v i p => (hgiven d v (i, p)).trans (h.given d v i p)⟩

/-- What is not a device has been given nothing. -/
theorem Keeps.none (hd : d ∉ devices) (v : IpVersion) (x : ℕ × π) : x ∉ given d v := by
  intro hx
  obtain ⟨hin, -⟩ := (h.given d v x.1 x.2).mp hx
  rw [← h.listed d v, Bool.not_eq_true, Option.isSome_eq_false_iff, Option.isNone_iff_eq_none] at hd
  rw [Registry.listOf, hd] at hin
  exact absurd hin not_mem_nil

/-- An index is on the list of one version at most. -/
theorem Keeps.version {d' : UInt32} {v v' : IpVersion} {i : ℕ}
    (hi : i ∈ reg.listOf (d, v)) (hi' : i ∈ reg.listOf (d', v')) : v = v' := by
  obtain ⟨r, hr, hidx, hv⟩ := h.consistent.toSound.list_known hi
  obtain ⟨r', hr', hidx', hv'⟩ := h.consistent.toSound.list_known hi'
  have heq : r = r' := h.consistent.toSound.idx_inj hr hr' (hidx.trans hidx'.symm)
  exact hv.trans (heq ▸ hv'.symm)

theorem Keeps.idx_mem {v : IpVersion} {i : ℕ} :
    i ∈ reg.listOf (d, v) ↔ ∃ p, (i, p) ∈ given d v := by
  constructor
  · intro hi
    obtain ⟨r, hr, hidx, -⟩ := h.consistent.toSound.list_known hi
    exact ⟨r.pattern, (h.given d v i _).mpr ⟨hi, r, hr, hidx, rfl⟩⟩
  · rintro ⟨p, hp⟩
    exact ((h.given d v i p).mp hp).1

/-- Nothing is deleted from what is not a device. -/
theorem Keeps.without_other (hd : d ∉ devices) (i : ℕ) :
    Keeps spare ver devices reg (given.without d i) := by
  refine h.congr fun d' v' x => and_iff_left_of_imp fun hx => ?_
  rintro ⟨rfl, -⟩
  exact h.none hd v' x hx

theorem Keeps.uncovered_other (hd : d ∉ devices) (v : IpVersion)
    (covers : π → Bool) : Keeps spare ver devices reg (given.uncovered d v covers) := by
  refine h.congr fun d' v' x => and_iff_left_of_imp fun hx => ?_
  rintro ⟨heq, -⟩
  exact h.none ((Prod.mk.inj heq).1 ▸ hd) v' x hx

variable [Spares spare] (hd : d ∈ devices)
include hd

theorem Keeps.add [DecidableEq π] {p : π} (hroom : Room idxWidth reg p) :
    Keeps spare ver devices (reg.add idxWidth (d, ver p) p).2
      (given.added d (ver p) (reg.add idxWidth (d, ver p) p).1 p) := by
  have hu : (Chain.search Prod.fst (d, ver p) reg.users).isSome := (h.listed d _).mpr hd
  refine ⟨h.consistent.add hu rfl hroom, fun d' v' => ?_, fun d' v' i q => ?_⟩
  · rw [← h.listed d' v', search_add]
  · rw [holds_add h.consistent.toSound hu hroom, ← h.given]
    exact or_congr_right (and_congr_right fun _ => Prod.mk_inj)

theorem Keeps.giveUp (v : IpVersion) (gone : ℕ → π → Bool) :
    Keeps spare ver devices (reg.giveUp (d, v) gone)
      fun d' v' => { x | x ∈ given d' v' ∧ ((d', v') = (d, v) → gone x.1 x.2 = false) } := by
  have hu : (Chain.search Prod.fst (d, v) reg.users).isSome := (h.listed d v).mpr hd
  refine ⟨h.consistent.giveUp hu gone, fun d' v' => ?_, fun d' v' i q => ?_⟩
  · rw [← h.listed d' v']
    exact Bool.eq_iff_iff.mp (search_setList (d', v'))
  · rw [holds_giveUp h.consistent.toSound hu, ← h.given]
    rfl

/-- The rule is removed from the list that has it, so from the device. -/
theorem Keeps.remove {v : IpVersion} {i : ℕ}
    (hi : i ∈ reg.listOf (d, v)) : Keeps spare ver devices (reg.remove (d, v) i) (given.without d i) := by
  rw [remove_eq h.consistent.toSound hi]
  refine (h.giveUp hd v _).congr fun d' v' x => and_congr_right fun hx => ?_
  have hin : x.1 ∈ reg.listOf (d', v') := ((h.given d' v' x.1 x.2).mp hx).1
  constructor
  · rintro hnot heq
    obtain ⟨rfl, rfl⟩ := Prod.mk.inj heq
    exact beq_false_of_ne fun hxi => hnot ⟨rfl, hxi⟩
  · rintro hkeep ⟨rfl, rfl⟩
    have hv : v = v' := h.version hi hin
    exact absurd (hkeep (by rw [hv])) (by simp)

theorem Keeps.delByIdx (i : ℕ) :
    Keeps spare ver devices ((reg.delByIdx d i).getD reg) (given.without d i) := by
  unfold Rules.delByIdx
  split
  · next hi => exact h.remove hd hi
  · next h4 =>
    split
    · next hi => exact h.remove hd hi
    · next h6 =>
      refine h.congr fun d' v' x => and_iff_left_of_imp fun hx => ?_
      rintro ⟨rfl, rfl⟩
      have hin : x.1 ∈ reg.listOf (d', v') := h.idx_mem.mpr ⟨x.2, hx⟩
      cases v' with
      | v4 => exact h4 hin
      | v6 => exact h6 hin

theorem Keeps.sweep (v : IpVersion) (covers : π → Bool) :
    Keeps spare ver devices (reg.sweep (d, v) covers) (given.uncovered d v covers) := by
  rw [sweep_eq h.consistent.toSound]
  refine (h.giveUp hd v _).congr fun d' v' x => and_congr_right fun _ => ?_
  rw [not_and, Bool.not_eq_true]

end Keeps

/-- A list is emptied without releasing its rules. -/
theorem Keeps.forget (h : Keeps (0 ≤ ·) ver devices reg given) (hd : d ∈ devices) (v : IpVersion) :
    ∃ given', Keeps (0 ≤ ·) ver devices (reg.forget (d, v)) given' ∧ ∀ d' v', given' d' v' ⊆ given d' v' := by
  have hu : (Chain.search Prod.fst (d, v) reg.users).isSome := (h.listed d v).mpr hd
  refine ⟨fun d' v' => { x | Holds (reg.forget (d, v)) (d', v') x.1 x.2 },
    ⟨h.consistent.forget hu, fun d' v' => ?_, fun d' v' i p => Iff.rfl⟩, fun d' v' x hx => ?_⟩
  · rw [← h.listed d' v']
    exact Bool.eq_iff_iff.mp (search_setList (d', v'))
  · exact (h.given d' v' x.1 x.2).mpr (holds_forget hu hx)

end Given

/-! ### Calls -/

inductive RuleCall
  | whiteAdd (patten : WhitePattern) (ifidx : UInt32)
  | whiteDel (patten : Option WhitePattern) (ifidx : UInt32) (index : ℕ)
  | blackAdd (patten : BlackPattern) (ifidx : UInt32)
  | blackDel (patten : Option BlackPattern) (ifidx : UInt32) (index : ℕ)
  | reset (ifidx : UInt32) (v : IpVersion)

/-- The lists after a call, and the index that an addition hands out. -/
def RuleLists.exec (s : RuleLists) : RuleCall → Option ℕ × RuleLists
  | .whiteAdd patten ifidx => s.whiteListAdd patten ifidx
  | .whiteDel patten ifidx index => (none, (s.whiteListDel patten ifidx index).2)
  | .blackAdd patten ifidx => s.blackListAdd patten ifidx
  | .blackDel patten ifidx index => (none, (s.blackListDel patten ifidx index).2)
  | .reset ifidx v => (none, s.resetDevConfig ifidx v)

/-- What the devices have been given of both kinds. -/
structure RuleSets where
  white : Given WhitePattern
  black : Given BlackPattern

/-- What a call asks for: an addition that was taken adds, a deletion deletes. -/
def RuleSets.record (sets : RuleSets) (index : Option ℕ) : RuleCall → RuleSets
  | .whiteAdd patten ifidx =>
    match index with
    | some i => { sets with white := sets.white.added ifidx patten.ipVersion i patten }
    | none => sets
  | .whiteDel none ifidx i => { sets with white := sets.white.without ifidx i }
  | .whiteDel (some q) ifidx _ => { sets with white := sets.white.uncovered ifidx q.ipVersion q.covers }
  | .blackAdd patten ifidx =>
    match index with
    | some i => { sets with black := sets.black.added ifidx patten.ipVersion i patten }
    | none => sets
  | .blackDel none ifidx i => { sets with black := sets.black.without ifidx i }
  | .blackDel (some q) ifidx _ => { sets with black := sets.black.uncovered ifidx q.ipVersion q.covers }
  | .reset .. => sets

/-- The lists, with a record of what was asked for. -/
def RuleLists.note (x : RuleLists × RuleSets) (call : RuleCall) : RuleLists × RuleSets :=
  ((x.1.exec call).2, x.2.record (x.1.exec call).1 call)

/-- Fewer than `2 ^ 31` rules have been made, unless the rule is there. -/
def Fresh {π : Type} [DecidableEq π] (reg : Rules π) (p : π) : Prop :=
  p ∈ reg.rules.map Rule.pattern ∨ reg.next < 2 ^ 31

/-- Additions and deletions, with an index left for every new rule. -/
def Numbered (s : RuleLists) : RuleCall → Prop
  | .whiteAdd patten _ => Fresh s.white patten
  | .blackAdd patten _ => Fresh s.black patten
  | .whiteDel .. | .blackDel .. => True
  | .reset .. => False

section Calls

variable {spare : ℤ → Prop} {s : RuleLists} {sets : RuleSets} {ifidx : UInt32}

/-- The lists hold what was asked for. -/
structure Follow (spare : ℤ → Prop) (s : RuleLists) (sets : RuleSets) : Prop where
  white : Keeps spare WhitePattern.ipVersion s.devices s.white sets.white
  black : Keeps spare BlackPattern.ipVersion s.devices s.black sets.black

theorem Fresh.room {π : Type} [DecidableEq π] {reg : Rules π} {p : π} (h : Fresh reg p) : Room idxWidth reg p :=
  h.imp_right fun hlt => by
    unfold idxWidth
    omega

theorem follow_whiteAdd [Spares spare] {patten : WhitePattern} (hfresh : Fresh s.white patten)
    (h : Follow spare s sets) :
    Follow spare (s.exec (.whiteAdd patten ifidx)).2
      (sets.record (s.exec (.whiteAdd patten ifidx)).1 (.whiteAdd patten ifidx)) := by
  have hexec : s.exec (.whiteAdd patten ifidx) = s.whiteListAdd patten ifidx := rfl
  rw [hexec]
  unfold RuleLists.whiteListAdd
  split
  · exact h
  · next hd =>
    split
    · exact h
    · exact ⟨h.white.add (not_not.mp hd) hfresh.room, h.black⟩

theorem follow_blackAdd [Spares spare] {patten : BlackPattern} (hfresh : Fresh s.black patten)
    (h : Follow spare s sets) :
    Follow spare (s.exec (.blackAdd patten ifidx)).2
      (sets.record (s.exec (.blackAdd patten ifidx)).1 (.blackAdd patten ifidx)) := by
  have hexec : s.exec (.blackAdd patten ifidx) = s.blackListAdd patten ifidx := rfl
  rw [hexec]
  unfold RuleLists.blackListAdd
  split
  · exact h
  · next hd => exact ⟨h.white, h.black.add (not_not.mp hd) hfresh.room⟩

/-- Deletion by index, whether it finds the rule or not. -/
theorem whiteListDelByIdx_eq (ifidx : UInt32) (index : ℕ) : (s.whiteListDelByIdx ifidx index).2 =
    if ifidx ∉ s.devices then s else { s with white := (s.white.delByIdx ifidx index).getD s.white } := by
  unfold RuleLists.whiteListDelByIdx
  split
  · rfl
  · cases s.white.delByIdx ifidx index <;> rfl

theorem blackListDelByIdx_eq (ifidx : UInt32) (index : ℕ) : (s.blackListDelByIdx ifidx index).2 =
    if ifidx ∉ s.devices then s else { s with black := (s.black.delByIdx ifidx index).getD s.black } := by
  unfold RuleLists.blackListDelByIdx
  split
  · rfl
  · cases s.black.delByIdx ifidx index <;> rfl

theorem follow_whiteDel [Spares spare] {patten : Option WhitePattern} {index : ℕ} (h : Follow spare s sets) :
    Follow spare (s.exec (.whiteDel patten ifidx index)).2 (sets.record none (.whiteDel patten ifidx index)) := by
  cases patten with
  | none =>
    rw [RuleLists.exec, RuleLists.whiteListDel, whiteListDelByIdx_eq]
    split
    · next hd => exact ⟨h.white.without_other hd index, h.black⟩
    · next hd => exact ⟨h.white.delByIdx (not_not.mp hd) index, h.black⟩
  | some q =>
    rw [RuleLists.exec, RuleLists.whiteListDel]
    split
    · next hd => exact ⟨h.white.uncovered_other hd q.ipVersion q.covers, h.black⟩
    · next hd => exact ⟨h.white.sweep (not_not.mp hd) q.ipVersion q.covers, h.black⟩

theorem follow_blackDel [Spares spare] {patten : Option BlackPattern} {index : ℕ} (h : Follow spare s sets) :
    Follow spare (s.exec (.blackDel patten ifidx index)).2 (sets.record none (.blackDel patten ifidx index)) := by
  cases patten with
  | none =>
    rw [RuleLists.exec, RuleLists.blackListDel, blackListDelByIdx_eq]
    split
    · next hd => exact ⟨h.white, h.black.without_other hd index⟩
    · next hd => exact ⟨h.white, h.black.delByIdx (not_not.mp hd) index⟩
  | some q =>
    rw [RuleLists.exec, RuleLists.blackListDel]
    split
    · next hd => exact ⟨h.white, h.black.uncovered_other hd q.ipVersion q.covers⟩
    · next hd => exact ⟨h.white, h.black.sweep (not_not.mp hd) q.ipVersion q.covers⟩

theorem note_follow [Spares spare] (x : RuleLists × RuleSets) (call : RuleCall) (h : Follow spare x.1 x.2)
    (hok : Numbered x.1 call) :
    Follow spare (RuleLists.note x call).1 (RuleLists.note x call).2 := by
  cases call with
  | whiteAdd patten ifidx => exact follow_whiteAdd hok h
  | whiteDel patten ifidx index => exact follow_whiteDel h
  | blackAdd patten ifidx => exact follow_blackAdd hok h
  | blackDel patten ifidx index => exact follow_blackDel h
  | reset ifidx v => exact hok.elim

end Calls

/-- In every sequence of additions and deletions that makes fewer than `2 ^ 31` rules of either kind, the verdicts
    are those of the rules that were added to the device and not deleted from it since. -/
theorem rule_verdicts (devices : List UInt32) (calls : List RuleCall)
    (hlegal : Legal RuleLists.note (fun x => Numbered x.1)
      (RuleLists.init devices, ⟨fun _ _ => ∅, fun _ _ => ∅⟩) calls) :
    let x := run RuleLists.note (RuleLists.init devices, ⟨fun _ _ => ∅, fun _ _ => ∅⟩) calls
    ∀ ifidx v (saMac : Option Mac),
      (∀ isV3 g c mcSource, x.1.filterWhiteListCheck ifidx v isV3 g c mcSource saMac = true ↔
        x.2.white ifidx v = ∅ ∨ ∃ rule ∈ x.2.white ifidx v,
          rule.2.hit v isV3 g c mcSource (RuleLists.knownMac saMac) = true) ∧
      (x.1.filterblackListCheck ifidx v saMac = true ↔
        ∃ rule ∈ x.2.black ifidx v, rule.2.bars (RuleLists.knownMac saMac) = true) := by
  intro x ifidx v saMac
  have hinit : Follow (· = 0) (RuleLists.init devices) ⟨fun _ _ => ∅, fun _ _ => ∅⟩ := ⟨.init, .init⟩
  have hfollow : Follow (· = 0) x.1 x.2 := run_invariant note_follow calls
    (RuleLists.init devices, ⟨fun _ _ => ∅, fun _ _ => ∅⟩) hinit hlegal
  refine ⟨fun isV3 g c mcSource => ?_, ?_⟩
  · obtain ⟨hhit, hlooked⟩ := probe_iff hfollow.white.consistent.toSound (ifidx, v) fun p =>
      p.hit v isV3 g c mcSource (RuleLists.knownMac saMac)
    unfold RuleLists.filterWhiteListCheck
    rw [Bool.or_eq_true, or_comm, Bool.not_eq_true', ← Bool.not_eq_true, hhit, hlooked, Set.eq_empty_iff_forall_notMem]
    simp [hfollow.white.given, not_exists]
  · obtain ⟨hhit, -⟩ := probe_iff hfollow.black.consistent.toSound (ifidx, v) fun p =>
      p.bars (RuleLists.knownMac saMac)
    unfold RuleLists.filterblackListCheck
    rw [hhit]
    simp [hfollow.black.given]

/-- A black rule for one station. -/
def stationRule (smac : Mac) : BlackPattern := ⟨.v4, true, smac, 0xffffffffffff⟩

/-- A station is barred on one device and not on another; then the rule is deleted by a pattern without checks. -/
theorem rule_verdicts_sample :
    let calls := [.blackAdd (stationRule 1) 5, .blackAdd (stationRule 2) 5, .blackAdd (stationRule 2) 6,
      .blackDel (some ⟨.v4, false, 0, 0⟩) 5 0]
    let x := run RuleLists.note (RuleLists.init [5, 6], ⟨fun _ _ => ∅, fun _ _ => ∅⟩) calls
    x.1.filterblackListCheck 6 .v4 (some 2) = true ↔
      ∃ rule ∈ x.2.black 6 .v4, rule.2.bars (RuleLists.knownMac (some 2)) = true := by
  intro calls x
  refine (rule_verdicts [5, 6] calls ⟨Or.inr ?_, Or.inr ?_, Or.inl ?_, trivial, trivial⟩ 6 .v4 (some 2)).2
  · decide +kernel
  · decide +kernel
  · decide +kernel

/-! ### Indices that come again -/

/-- A rule is added to another device and deleted again, so many times. -/
def rounds : ℕ → List RuleCall
  | 0 => []
  | n + 1 => .blackAdd (stationRule 3) 6 :: .blackDel (some (stationRule 3)) 6 0 :: rounds n

/-- Device 5 has the rule with index 0, and the next index is `k`. -/
def worn (k : ℕ) : RuleLists where
  devices := [5, 6]
  white := Rules.init _ [5, 6]
  black := ⟨[⟨0, stationRule 1, 1⟩], k, [((5, .v4), [0]), ((5, .v6), []), ((6, .v4), []), ((6, .v6), [])]⟩

theorem worn_round {k : ℕ} (hk : 0 < k) :
    (((worn k).exec (.blackAdd (stationRule 3) 6)).2.exec (.blackDel (some (stationRule 3)) 6 0)).2 =
      worn ((k + 1) % idxWidth) := by
  let swept := sweepLoop (stationRule 3).covers [k] [] [⟨0, stationRule 1, 1⟩, ⟨k, stationRule 3, 1⟩]
  have hswept : swept = ([], [⟨0, stationRule 1, 1⟩]) := by
    simp [swept, sweepLoop, Nat.ne_of_lt hk, Rule.released]
    decide
  calc
    _ = { worn k with black := ⟨swept.2, (k + 1) % idxWidth,
            [((5, .v4), [0]), ((5, .v6), []), ((6, .v4), swept.1), ((6, .v6), [])]⟩ } := rfl
    _ = _ := by
      rw [hswept]
      rfl

theorem run_note_fst (x : RuleLists × RuleSets) (calls : List RuleCall) :
    (run RuleLists.note x calls).1 = run (fun s call => (s.exec call).2) x.1 calls := by
  induction calls generalizing x with
  | nil => rfl
  | cons call calls ih => exact ih (RuleLists.note x call)

theorem worn_rounds {k n : ℕ} (hk : 0 < k) (hn : k + n ≤ idxWidth) :
    run (fun s call => (RuleLists.exec s call).2) (worn (k % idxWidth)) (rounds n) = worn ((k + n) % idxWidth) := by
  induction n generalizing k with
  | zero => rfl
  | succ n ih =>
    have hmod : k % idxWidth = k := Nat.mod_eq_of_lt (by omega)
    have hround : run (fun s call => (RuleLists.exec s call).2) (worn k) (rounds (n + 1)) =
        run (fun s call => (RuleLists.exec s call).2) (worn ((k + 1) % idxWidth)) (rounds n) :=
      congrArg (fun s => run (fun s call => (RuleLists.exec s call).2) s (rounds n)) (worn_round hk)
    rw [hmod, hround, ih (Nat.succ_pos k) (by omega)]
    congr 2
    omega

/-- Device 5 gets a rule, the next indices are used up, and device 5 gets another rule. -/
def wearOut (n : ℕ) : List RuleCall := .blackAdd (stationRule 1) 5 :: rounds n ++ [.blackAdd (stationRule 2) 5]

/-- When index 0 is handed out again, the rule that it stands for never reaches the list of the device. -/
theorem wearOut_lost {n : ℕ} (hn : 1 + n = idxWidth) :
    let x := run RuleLists.note (RuleLists.init [5, 6], ⟨fun _ _ => ∅, fun _ _ => ∅⟩) (wearOut n)
    x.1.filterblackListCheck 5 .v4 (some 2) = false ∧
      ∃ rule ∈ x.2.black 5 .v4, rule.2.bars (RuleLists.knownMac (some 2)) = true := by
  intro x
  obtain ⟨before, hbefore, hx⟩ : ∃ before : RuleLists × RuleSets, before.1 = worn 0 ∧
      x = RuleLists.note before (.blackAdd (stationRule 2) 5) := by
    refine ⟨run RuleLists.note (RuleLists.init [5, 6], ⟨fun _ _ => ∅, fun _ _ => ∅⟩)
      (.blackAdd (stationRule 1) 5 :: rounds n), ?_, foldl_concat ..⟩
    have hrounds := worn_rounds Nat.one_pos hn.le
    rw [hn, Nat.mod_self] at hrounds
    rw [run_note_fst, ← hrounds]
    rfl
  have hexec : before.1.exec (.blackAdd (stationRule 2) 5) = (worn 0).exec (.blackAdd (stationRule 2) 5) := by
    rw [hbefore]
  have hverdict : ((worn 0).exec (.blackAdd (stationRule 2) 5)).2.filterblackListCheck 5 .v4 (some 2) = false := by
    decide +kernel
  rw [hx, RuleLists.note, hexec]
  exact ⟨hverdict, (0, stationRule 2), Or.inr ⟨rfl, rfl⟩, by decide⟩

/-- After `2 ^ 32` rules a rule is taken whose index is on the list already. -/
theorem rule_lost_at_wrap : ∃ calls : List RuleCall, (∀ ifidx v, .reset ifidx v ∉ calls) ∧
    let x := run RuleLists.note (RuleLists.init [5, 6], ⟨fun _ _ => ∅, fun _ _ => ∅⟩) calls
    x.1.filterblackListCheck 5 .v4 (some 2) = false ∧
      ∃ rule ∈ x.2.black 5 .v4, rule.2.bars (RuleLists.knownMac (some 2)) = true := by
  have hrounds : ∀ n ifidx v, .reset ifidx v ∉ rounds n := by
    intro n ifidx v
    induction n with
    | zero => exact not_mem_nil
    | succ n ih => simp [rounds, ih]
  obtain ⟨n, hn⟩ : ∃ n, 1 + n = idxWidth := ⟨2 ^ 32 - 1, by simp [idxWidth]⟩
  refine ⟨wearOut n, fun ifidx v => ?_, wearOut_lost hn⟩
  simp [wearOut, hrounds]

end PhoebusBsp.Igmp

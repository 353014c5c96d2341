import Mathlib.Algebra.Order.Group.Abs
import Mathlib.Algebra.Order.Ring.Int
import PhoebusBsp.Schemes.Machine

/-! The clock of the snooping module.

    A call adds the whole seconds since the last call and moves `lastjiffies` up to the present, so
    the rest of the division is never counted:

        call          call              call
        ├──────────────┼─────────────────┼─────▶ jiffies
         d₁ = q₁·hz+r₁   d₂ = q₂·hz+r₂            clock: q₁ + q₂     lost: r₁ + r₂

    When the jiffies have wrapped since the last call, one jiffy more is lost. -/

namespace PhoebusBsp.Igmp
open Schemes

/-- `CONFIG_HZ`, of which the kernel has no choice below two. -/
structure ConfigHz where
  hz : ℕ
  one_lt : 1 < hz

/-- `jiffies`, `lastjiffies` and `lastTimer`. -/
structure SysTimer where
  jiffies : UInt32
  lastjiffies : UInt32
  lastTimer : UInt32
  deriving DecidableEq

/-- `rtk_igmp_getTimeSec`. -/
def getTimeSec (c : ConfigHz) (s : SysTimer) : UInt32 × SysTimer :=
  let diff := if s.lastjiffies < s.jiffies then s.jiffies - s.lastjiffies
    else 0xffffffff - (s.lastjiffies - s.jiffies)
  -- `int32`, and a division that goes towards zero
  let jiffiesDiff : ℤ := diff.toBitVec.toInt
  let lastTimer := s.lastTimer + UInt32.ofInt (jiffiesDiff.tdiv c.hz)
  (lastTimer, { s with lastjiffies := s.jiffies, lastTimer := lastTimer })

/-- `rtk_igmp_multicastSysTimerInit`; it leaves `lastTimer` as it was. -/
def multicastSysTimerInit (s : SysTimer) : SysTimer := { s with lastjiffies := s.jiffies }

/-- The timer when the module is loaded. -/
def SysTimer.load (jiffies : UInt32) : SysTimer := ⟨jiffies, 0, 0⟩

def SysTimer.elapse (s : SysTimer) (d : ℕ) : SysTimer := { s with jiffies := s.jiffies + UInt32.ofNat d }

/-- A call `d` jiffies later. -/
def callAfter (c : ConfigHz) (s : SysTimer) (d : ℕ) : SysTimer := (getTimeSec c (s.elapse d)).2

/-- The jiffies of an advance by `d` that a call does not count. -/
def uncountedAt (c : ConfigHz) (jiffies : UInt32) (d : ℕ) : ℕ :=
  if jiffies.toNat + d < 2 ^ 32 then d % c.hz else (d - 1) % c.hz + 1

/-- The jiffies that the calls after these advances do not count. -/
def uncounted (c : ConfigHz) : UInt32 → List ℕ → ℕ
  | _, [] => 0
  | jiffies, d :: ds => uncountedAt c jiffies d + uncounted c (jiffies + UInt32.ofNat d) ds

/-! ### One call -/

theorem toInt_ofNat {n : ℕ} (h : n < 2 ^ 31) : (UInt32.ofNat n).toBitVec.toInt = n := by
  rw [BitVec.toInt_eq_toNat_of_lt] <;> rw [UInt32.toNat_toBitVec, UInt32.toNat_ofNat'] <;> omega

theorem ofInt_natCast (n : ℕ) : UInt32.ofInt n = UInt32.ofNat n := by
  apply UInt32.toNat_inj.mp
  rw [UInt32.ofInt, UInt32.toNat_ofNat', UInt32.toNat_ofNat']
  omega

/-- A call that takes `n` jiffies to have gone by. -/
theorem getTimeSec_counts (c : ConfigHz) {s : SysTimer} {n : ℕ} (hn : n < 2 ^ 31)
    (hdiff : (if s.lastjiffies < s.jiffies then s.jiffies - s.lastjiffies
      else 0xffffffff - (s.lastjiffies - s.jiffies)) = UInt32.ofNat n) :
    getTimeSec c s = (s.lastTimer + UInt32.ofNat (n / c.hz),
      ⟨s.jiffies, s.jiffies, s.lastTimer + UInt32.ofNat (n / c.hz)⟩) := by
  have hquot : UInt32.ofInt ((n : ℤ).tdiv c.hz) = UInt32.ofNat (n / c.hz) := by
    rw [← Int.ofNat_tdiv, ofInt_natCast]
  simp only [getTimeSec, hdiff, toInt_ofNat hn, hquot]

/-- A second call within the same jiffy takes minus one jiffy to have gone by. -/
theorem getTimeSec_again (c : ConfigHz) {s : SysTimer} (hs : s.lastjiffies = s.jiffies) :
    getTimeSec c s = (s.lastTimer, s) := by
  have hone : ((-1 : ℤ).tdiv c.hz) = 0 := by
    rw [Int.neg_tdiv, Int.tdiv_eq_zero_of_lt (by decide) (by exact_mod_cast c.one_lt), Int.neg_zero]
  have hdiff : ((0xffffffff : UInt32) - 0).toBitVec.toInt = -1 := by decide
  obtain ⟨jiffies, lastjiffies, lastTimer⟩ := s
  obtain rfl : lastjiffies = jiffies := hs
  simp only [getTimeSec, UInt32.lt_irrefl, if_false, UInt32.sub_self, hdiff, hone]
  simp [UInt32.ofInt]

/-- What a call adds to the counter, and what it leaves out. -/
theorem callAfter_spec (c : ConfigHz) {s : SysTimer} (hs : s.lastjiffies = s.jiffies) {d : ℕ} (hd : d < 2 ^ 31) :
    ∃ q : ℕ, getTimeSec c (s.elapse d) = (s.lastTimer + UInt32.ofNat q,
        ⟨s.jiffies + UInt32.ofNat d, s.jiffies + UInt32.ofNat d, s.lastTimer + UInt32.ofNat q⟩) ∧
      d = q * c.hz + uncountedAt c s.jiffies d := by
  have hbound : s.jiffies.toNat < 2 ^ 32 := s.jiffies.toNat_lt
  have hsum : (s.jiffies + UInt32.ofNat d).toNat = (s.jiffies.toNat + d) % 2 ^ 32 := by
    rw [UInt32.toNat_add, UInt32.toNat_ofNat', Nat.add_mod_mod]
  rcases Nat.eq_zero_or_pos d with rfl | hpos
  · have hself : s.elapse 0 = s := by
      simp [SysTimer.elapse]
    refine ⟨0, ?_, ?_⟩
    · rw [hself, getTimeSec_again c hs]
      obtain ⟨jiffies, lastjiffies, lastTimer⟩ := s
      obtain rfl : lastjiffies = jiffies := hs
      simp
    · rw [uncountedAt, if_pos (show s.jiffies.toNat + 0 < 2 ^ 32 from hbound), Nat.zero_mod, Nat.zero_mul]
  · by_cases hwrap : s.jiffies.toNat + d < 2 ^ 32
    · refine ⟨d / c.hz, getTimeSec_counts (s := s.elapse d) c hd ?_, ?_⟩
      · have hlt : s.jiffies < s.jiffies + UInt32.ofNat d := by
          rw [UInt32.lt_iff_toNat_lt, hsum, Nat.mod_eq_of_lt hwrap]
          omega
        simp only [SysTimer.elapse, hs, if_pos hlt]
        rw [UInt32.add_comm, UInt32.add_sub_cancel]
      · rw [uncountedAt, if_pos hwrap, Nat.div_add_mod']
    · refine ⟨(d - 1) / c.hz, getTimeSec_counts (s := s.elapse d) c (by omega) ?_, ?_⟩
      · have hle : ¬ s.jiffies < s.jiffies + UInt32.ofNat d := by
          rw [UInt32.lt_iff_toNat_lt, hsum]
          omega
        simp only [SysTimer.elapse, hs, if_neg hle]
        apply UInt32.toNat_inj.mp
        simp only [UInt32.toNat_sub, hsum, UInt32.toNat_ofNat', UInt32.reduceToNat]
        omega
      · have hdiv := Nat.div_add_mod' (d - 1) c.hz
        rw [uncountedAt, if_neg hwrap]
        omega

/-! ### All calls -/

/-- The time that has gone by is what was counted and what was lost. -/
theorem run_callAfter (c : ConfigHz) (ds : List ℕ) {s : SysTimer} (hs : s.lastjiffies = s.jiffies)
    (hds : ∀ d ∈ ds, d < 2 ^ 31) :
    ∃ q : ℕ, (run (callAfter c) s ds).lastTimer = s.lastTimer + UInt32.ofNat q ∧
      (run (callAfter c) s ds).lastjiffies = (run (callAfter c) s ds).jiffies ∧
      ds.sum = q * c.hz + uncounted c s.jiffies ds := by
  induction ds generalizing s with
  | nil => exact ⟨0, (UInt32.add_zero _).symm, hs, by simp [uncounted]⟩
  | cons d ds ih =>
    obtain ⟨q, hcall, hd⟩ := callAfter_spec c hs (hds d List.mem_cons_self)
    have hstep : callAfter c s d =
        ⟨s.jiffies + UInt32.ofNat d, s.jiffies + UInt32.ofNat d, s.lastTimer + UInt32.ofNat q⟩ :=
      congrArg Prod.snd hcall
    obtain ⟨q', hlast, hnow, hsum⟩ := ih (s := callAfter c s d) (by rw [hstep])
      fun x hx => hds x (List.mem_cons_of_mem d hx)
    have hsum : ds.sum = q' * c.hz + uncounted c (s.jiffies + UInt32.ofNat d) ds := by rwa [hstep] at hsum
    refine ⟨q + q', hlast.trans ?_, hnow, ?_⟩
    · rw [hstep, UInt32.ofNat_add, UInt32.add_assoc]
    · rw [List.sum_cons, uncounted, hsum, Nat.add_mul]
      omega

/-- A counter of 32 bits that has counted `q` of the seconds in `q * hz + l` jiffies. -/
theorem counter_close_iff {hz : ℕ} (hpos : 0 < hz) (q l : ℕ) :
    |((q % 2 ^ 32 : ℕ) : ℤ) - ((q * hz + l) / hz : ℕ)| ≤ 1 ↔ l < 2 * hz ∧ q * hz + l < l + 2 ^ 32 * hz := by
  have hdiv : (q * hz + l) / hz = q + l / hz := by
    rw [Nat.add_comm, Nat.add_mul_div_right l q hpos, Nat.add_comm]
  have hlost : l < 2 * hz ↔ l / hz < 2 := (Nat.div_lt_iff_lt_mul hpos).symm
  have hcount : q * hz + l < l + 2 ^ 32 * hz ↔ q < 2 ^ 32 := by
    rw [Nat.add_comm, Nat.add_lt_add_iff_left]
    exact Nat.mul_lt_mul_right hpos
  rw [hdiv, hlost, hcount, abs_le]
  generalize l / hz = k
  omega

/-- The clock is within a second of the time that has gone by as long as less than two seconds were
    lost in all, and the seconds fit the counter. -/
theorem clock_keeps_time_iff (c : ConfigHz) (jiffies : UInt32) (ds : List ℕ) (d : ℕ)
    (hds : ∀ x ∈ ds ++ [d], x < 2 ^ 31) :
    let s := run (callAfter c) (multicastSysTimerInit (.load jiffies)) ds
    let elapsed := (ds ++ [d]).sum
    |((getTimeSec c (s.elapse d)).1.toNat : ℤ) - (elapsed / c.hz : ℕ)| ≤ 1 ↔
      uncounted c jiffies (ds ++ [d]) < 2 * c.hz ∧ elapsed < uncounted c jiffies (ds ++ [d]) + 2 ^ 32 * c.hz := by
  intro s elapsed
  obtain ⟨q, hlast, -, hsum⟩ :=
    run_callAfter c (ds ++ [d]) (s := multicastSysTimerInit (.load jiffies)) rfl hds
  have hret : (getTimeSec c (s.elapse d)).1 = UInt32.ofNat q := by
    rw [run, List.foldl_append] at hlast
    exact hlast.trans (UInt32.zero_add _)
  have helapsed : elapsed = q * c.hz + uncounted c jiffies (ds ++ [d]) := hsum
  rw [hret, UInt32.toNat_ofNat', helapsed]
  exact counter_close_iff (Nat.zero_lt_of_lt c.one_lt) q _

def hundredHz : ConfigHz := ⟨100, by decide⟩

/-- Two calls that are late by three jiffies each; the jiffies wrap before the second. -/
theorem clock_keeps_time_late :
    let s := run (callAfter hundredHz) (multicastSysTimerInit (.load 4294967000)) [203]
    |((getTimeSec hundredHz (s.elapse 203)).1.toNat : ℤ) - 4| ≤ 1 :=
  (clock_keeps_time_iff hundredHz 4294967000 [203] 203 (by decide)).mpr (by decide)

/-- With a call every half second the clock stands still. -/
theorem clock_stands_still :
    let s := run (callAfter hundredHz) (multicastSysTimerInit (.load 0)) [50, 50, 50]
    (getTimeSec hundredHz (s.elapse 50)).1 = 0 ∧
      ¬ |((getTimeSec hundredHz (s.elapse 50)).1.toNat : ℤ) - (([50, 50, 50] ++ [50]).sum / hundredHz.hz : ℕ)| ≤ 1 := by
  decide

end PhoebusBsp.Igmp

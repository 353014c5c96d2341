import Mathlib.Data.List.Chain
import Mathlib.Data.List.Pairwise
import PhoebusBsp.Igmp.Setup
import PhoebusBsp.Schemes.Cycles

/-! The rate limit on reports.

    The limiter counts the packets of a cycle. The boundary jiffy belongs to the old cycle, and a new
    one starts a whole number of durations behind the old one:

        start          start + d        start + 2d       start + 3d
        ├────────────────┤────────────────┤────────────────┤─────────▶ jiffies
          old cycle      ╵ still old      no packet        ╵ new cycle from here

    When the jiffies have wrapped since the start, the time gone by is taken one too short, so the old
    cycle lasts a jiffy longer and the new one starts a jiffy later.

    Packets come at times that do not wrap, and the limiter sees them modulo `2 ^ 32`. `startOf` is the
    time at which the cycle started as the limiter can make it out at a packet. -/

namespace PhoebusBsp.Igmp
open Schemes List

/-- The time since the start of the cycle, as it is computed. -/
def sinceCycleStart (jiffies : UInt32) (r : RateLimit) : UInt32 :=
  if jiffies < r.cycleStartTime then (0xffffffff - r.cycleStartTime) + jiffies
  else jiffies - r.cycleStartTime

/-- The packet starts a new cycle. -/
def startsCycle (jiffies cycleDuration : UInt32) (r : RateLimit) : Bool :=
  cycleDuration < sinceCycleStart jiffies r

/-- `check_rate_limit`; `false` drops the packet. It does for `ratelimit` what `check_rate_limit_umc`
    does for `ratelimit_unkMc`, for the version of the only IP header the packet has. -/
def checkRateLimit (jiffies cycleDuration : UInt32) (iph ip6h : Bool) (ratelimit : IpVersion → RateLimit) :
    Bool × (IpVersion → RateLimit) :=
  match iph, ip6h with
  | true, false =>
    let (ok, r) := checkRateLimitUmc jiffies cycleDuration (ratelimit .v4)
    (ok, Function.update ratelimit .v4 r)
  | false, true =>
    let (ok, r) := checkRateLimitUmc jiffies cycleDuration (ratelimit .v6)
    (ok, Function.update ratelimit .v6 r)
  | true, true => (true, ratelimit)
  | false, false => (true, ratelimit)

/-- A packet that has arrived: when, in which cycle, and whether it was accepted. -/
structure Arrival where
  cycle : ℕ
  time : ℕ
  accepted : Bool
  deriving DecidableEq

/-- Packets of one version arrive at the given times; `cycle` counts the cycles so far. -/
def arrivals (cycleDuration : UInt32) (v : IpVersion) :
    ℕ → (IpVersion → RateLimit) → List ℕ → List Arrival
  | _, _, [] => []
  | cycle, ratelimit, t :: ts =>
    let jiffies := UInt32.ofNat t
    let cycle := if startsCycle jiffies cycleDuration (ratelimit v) then cycle + 1 else cycle
    let (ok, ratelimit) := checkRateLimit jiffies cycleDuration (v = .v4) (v = .v6) ratelimit
    ⟨cycle, t, ok⟩ :: arrivals cycleDuration v cycle ratelimit ts

/-! ### One packet -/

section Packet

variable {dur : UInt32} {r : RateLimit} {v : IpVersion} {conf : IpVersion → RateLimit} {t p : ℕ} {σ : ℤ}

/-- What the limiter makes of a packet that starts a cycle, and of one that does not. -/
theorem checkRateLimitUmc_cases (jiffies dur : UInt32) (r : RateLimit) :
    checkRateLimitUmc jiffies dur r =
      if startsCycle jiffies dur r then
        (true, { r with cycleStartTime := jiffies - sinceCycleStart jiffies r % dur, counter := 1 })
      else if r.counter < r.rate then (true, { r with counter := r.counter + 1 })
      else (false, r) := by
  unfold checkRateLimitUmc startsCycle
  simp only [decide_eq_true_eq]
  rfl

/-- Packets of a version are checked against the limit of that version. -/
theorem checkRateLimit_own (jiffies dur : UInt32) (v : IpVersion) (conf : IpVersion → RateLimit) :
    checkRateLimit jiffies dur (v = .v4) (v = .v6) conf =
      ((checkRateLimitUmc jiffies dur (conf v)).1,
        Function.update conf v (checkRateLimitUmc jiffies dur (conf v)).2) := by
  cases v <;> rfl

/-- One jiffy is lost after a wrap. -/
def lost (jiffies : UInt32) (r : RateLimit) : ℕ := if jiffies < r.cycleStartTime then 1 else 0

theorem lost_le_one (jiffies : UInt32) (r : RateLimit) : lost jiffies r ≤ 1 := by
  unfold lost
  split <;> omega

theorem sinceCycleStart_toNat (jiffies : UInt32) (r : RateLimit) :
    (sinceCycleStart jiffies r).toNat + lost jiffies r = (jiffies - r.cycleStartTime).toNat := by
  have hj := jiffies.toNat_lt
  have hs := r.cycleStartTime.toNat_lt
  unfold sinceCycleStart lost
  split
  · next h =>
    rw [UInt32.lt_iff_toNat_lt] at h
    rw [UInt32.toNat_add, UInt32.toNat_sub, UInt32.toNat_sub]
    have hmax : (0xffffffff : UInt32).toNat = 4294967295 := rfl
    omega
  · rfl

/-- The start of the cycle as it looks at time `t`. -/
def startOf (t : ℕ) (r : RateLimit) : ℤ := t - (UInt32.ofNat t - r.cycleStartTime).toNat

theorem startOf_le : startOf t r ≤ t := by
  unfold startOf
  omega

theorem startOf_emod : startOf t r % 2 ^ 32 = r.cycleStartTime.toNat := by
  have hs := r.cycleStartTime.toNat_lt
  unfold startOf
  rw [UInt32.toNat_sub, UInt32.toNat_ofNat']
  omega

theorem lt_startOf : (t : ℤ) < startOf t r + 2 ^ 32 := by
  have h := (UInt32.ofNat t - r.cycleStartTime).toNat_lt
  unfold startOf
  omega

/-- The limiter looks at the cycle from `σ` on; the packet at `p` was the last one of it so far. -/
structure Running (dur : UInt32) (r : RateLimit) (p : ℕ) (σ : ℤ) : Prop where
  start : σ % 2 ^ 32 = r.cycleStartTime.toNat
  le : σ ≤ p
  last : p ≤ σ + dur.toNat + lost (.ofNat p) r

/-- The next packet may take the start for a later one, by whole wraps. -/
theorem Running.startOf (h : Running dur r p σ) (hpt : p ≤ t) :
    Igmp.startOf t r = σ ∨ σ + 2 ^ 32 ≤ Igmp.startOf t r := by
  have hstart := h.start
  have hle := h.le
  have hmod := startOf_emod (t := t) (r := r)
  have hlt := lt_startOf (t := t) (r := r)
  omega

/-- Whether the jiffies have wrapped does not change back. -/
theorem lost_mono (hσ : σ % 2 ^ 32 = r.cycleStartTime.toNat) (hσp : σ ≤ p) (hpt : p ≤ t) (ht : t < σ + 2 ^ 32) :
    lost (.ofNat p) r ≤ lost (.ofNat t) r := by
  have hs := r.cycleStartTime.toNat_lt
  unfold lost
  simp only [UInt32.lt_iff_toNat_lt, UInt32.toNat_ofNat']
  split <;> split <;> omega

/-- A packet of the same cycle. -/
theorem running_same (hold : startsCycle (.ofNat t) dur r = false) : Running dur r t (startOf t r) where
  start := startOf_emod
  le := startOf_le
  last := by
    have hsince := sinceCycleStart_toNat (.ofNat t) r
    have hle : (sinceCycleStart (.ofNat t) r).toNat ≤ dur.toNat := by
      rw [startsCycle, decide_eq_false_iff_not, UInt32.not_lt, UInt32.le_iff_toNat_le] at hold
      exact hold
    unfold startOf
    omega

end Packet

/-! ### All packets -/

section Packets

variable {dur : UInt32} {v : IpVersion} {conf : IpVersion → RateLimit} {c t p : ℕ} {ts : List ℕ} {σ : ℤ} {x : Arrival}

/-- The limit after a packet at time `t`. -/
def afterPacket (dur : UInt32) (v : IpVersion) (conf : IpVersion → RateLimit) (t : ℕ) : IpVersion → RateLimit :=
  Function.update conf v (checkRateLimitUmc (.ofNat t) dur (conf v)).2

/-- The cycle of a packet. -/
def cycleAt (dur : UInt32) (v : IpVersion) (conf : IpVersion → RateLimit) (c t : ℕ) : ℕ :=
  if startsCycle (.ofNat t) dur (conf v) then c + 1 else c

theorem arrivals_cons : arrivals dur v c conf (t :: ts) =
    ⟨cycleAt dur v conf c t, t, (checkRateLimitUmc (.ofNat t) dur (conf v)).1⟩ ::
      arrivals dur v (cycleAt dur v conf c t) (afterPacket dur v conf t) ts := by
  rw [arrivals, checkRateLimit_own]
  rfl

theorem arrivals_new (hnew : startsCycle (.ofNat t) dur (conf v) = true) :
    arrivals dur v c conf (t :: ts) = ⟨c + 1, t, true⟩ :: arrivals dur v (c + 1) (afterPacket dur v conf t) ts := by
  rw [arrivals_cons, cycleAt, checkRateLimitUmc_cases, if_pos hnew, if_pos hnew]

theorem arrivals_same (hold : startsCycle (.ofNat t) dur (conf v) = false) :
    arrivals dur v c conf (t :: ts) =
      ⟨c, t, (conf v).counter < (conf v).rate⟩ :: arrivals dur v c (afterPacket dur v conf t) ts := by
  rw [arrivals_cons, cycleAt, checkRateLimitUmc_cases, hold]
  by_cases h : (conf v).counter < (conf v).rate <;> simp [h]

theorem afterPacket_new (hnew : startsCycle (.ofNat t) dur (conf v) = true) :
    afterPacket dur v conf t v =
      { conf v with cycleStartTime := .ofNat t - sinceCycleStart (.ofNat t) (conf v) % dur, counter := 1 } := by
  simp [afterPacket, checkRateLimitUmc_cases, hnew]

/-- A packet that starts a cycle, a duration or more behind the start it saw. -/
theorem running_new (hdur : dur ≠ 0) (hnew : startsCycle (.ofNat t) dur (conf v) = true) :
    ∃ σ' : ℤ, Running dur (afterPacket dur v conf t v) t σ' ∧
      startOf t (conf v) + dur.toNat + lost (.ofNat t) (conf v) ≤ σ' := by
  rw [afterPacket_new hnew]
  generalize conf v = r at hnew ⊢
  have hsince := sinceCycleStart_toNat (.ofNat t) r
  have hlt : dur.toNat < (sinceCycleStart (.ofNat t) r).toNat := by
    rw [startsCycle, decide_eq_true_eq, UInt32.lt_iff_toNat_lt] at hnew
    exact hnew
  have hpos : 0 < dur.toNat := Nat.pos_of_ne_zero fun h => hdur (UInt32.toNat_inj.mp h)
  have hrest : (sinceCycleStart (.ofNat t) r % dur).toNat ≤ (sinceCycleStart (.ofNat t) r).toNat - dur.toNat := by
    rw [UInt32.toNat_mod, Nat.mod_eq_sub_mod hlt.le]
    exact Nat.mod_le _ _
  have hshort : (sinceCycleStart (.ofNat t) r % dur).toNat < dur.toNat := by
    rw [UInt32.toNat_mod]
    exact Nat.mod_lt _ hpos
  refine ⟨t - (sinceCycleStart (.ofNat t) r % dur).toNat, ⟨?_, by omega, by omega⟩, ?_⟩
  · have hbound := (sinceCycleStart (.ofNat t) r % dur).toNat_lt
    rw [UInt32.toNat_sub, UInt32.toNat_ofNat']
    omega
  · unfold startOf
    omega

theorem afterPacket_same (hold : startsCycle (.ofNat t) dur (conf v) = false) :
    afterPacket dur v conf t v =
      if (conf v).counter < (conf v).rate then { conf v with counter := (conf v).counter + 1 } else conf v := by
  simp only [afterPacket, Function.update_self, checkRateLimitUmc_cases, hold, Bool.false_eq_true, if_false]
  split <;> rfl

theorem afterPacket_rate (dur : UInt32) (conf : IpVersion → RateLimit) (t : ℕ) :
    (afterPacket dur v conf t v).rate = (conf v).rate := by
  rw [afterPacket, Function.update_self]
  exact checkRateLimitUmc_rate

theorem afterPacket_counts (hold : startsCycle (.ofNat t) dur (conf v) = false)
    (hcounter : (conf v).counter.toNat ≤ (conf v).rate.toNat) :
    (afterPacket dur v conf t v).counter.toNat = min ((conf v).counter.toNat + 1) (conf v).rate.toNat := by
  have hbound := (conf v).rate.toNat_lt
  rw [afterPacket_same hold]
  split_ifs with hroom <;> rw [UInt32.lt_iff_toNat_lt] at hroom
  · show ((conf v).counter + 1).toNat = _
    rw [UInt32.toNat_add, UInt32.toNat_one]
    omega
  · omega

/-- A packet of the same cycle leaves the start of the cycle. -/
theorem Running.afterPacket (h : Running dur (conf v) p σ) (hold : startsCycle (.ofNat t) dur (conf v) = false) :
    Running dur (afterPacket dur v conf t v) p σ := by
  rw [afterPacket_same hold]
  split
  · exact ⟨h.start, h.le, h.last⟩
  · exact h

theorem running_afterPacket (hdur : dur ≠ 0) (v : IpVersion) (conf : IpVersion → RateLimit) (t : ℕ) :
    ∃ σ', Running dur (afterPacket dur v conf t v) t σ' := by
  cases hcycle : startsCycle (.ofNat t) dur (conf v) with
  | true =>
    obtain ⟨σ', hrunning, -⟩ := running_new hdur hcycle
    exact ⟨σ', hrunning⟩
  | false => exact ⟨_, (running_same hcycle).afterPacket hcycle⟩

theorem mem_arrivals (hx : x ∈ arrivals dur v c conf ts) : c ≤ x.cycle ∧ x.time ∈ ts := by
  induction ts generalizing c conf with
  | nil => cases hx
  | cons t ts ih =>
    have hc : c ≤ cycleAt dur v conf c t := by
      unfold cycleAt
      split <;> omega
    rw [arrivals_cons] at hx
    rcases mem_cons.mp hx with rfl | hx
    · exact ⟨hc, mem_cons_self⟩
    · obtain ⟨hc', hmem⟩ := ih hx
      exact ⟨hc.trans hc', mem_cons_of_mem t hmem⟩

/-- The packets of later cycles come more than a duration after the start of this one. -/
theorem later_cycle (h : Running dur (conf v) p σ) (hts : (p :: ts).Pairwise (· ≤ ·))
    (hx : x ∈ arrivals dur v c conf ts) (hc : c + 1 ≤ x.cycle) : σ + dur.toNat < x.time := by
  induction ts generalizing c conf p σ with
  | nil => cases hx
  | cons t ts ih =>
    rw [pairwise_cons] at hts
    have hpt : p ≤ t := hts.1 t mem_cons_self
    have hstart : σ ≤ startOf t (conf v) := by
      rcases h.startOf hpt with hsame | hlater <;> omega
    cases hcycle : startsCycle (.ofNat t) dur (conf v) with
    | true =>
      have hdur : startOf t (conf v) + dur.toNat < t := by
        have hsince := sinceCycleStart_toNat (.ofNat t) (conf v)
        rw [startsCycle, decide_eq_true_eq, UInt32.lt_iff_toNat_lt] at hcycle
        unfold startOf
        omega
      have htime : t ≤ x.time := by
        rcases mem_cons.mp (mem_arrivals hx).2 with heq | hmem
        · exact heq.ge
        · exact (pairwise_cons.mp hts.2).1 x.time hmem
      omega
    | false =>
      rw [arrivals_same hcycle] at hx
      rcases mem_cons.mp hx with rfl | hx
      · exact absurd hc (Nat.not_succ_le_self c)
      · have hnext := ih ((running_same hcycle).afterPacket hcycle) hts.2 hx hc
        omega

/-- The packets of the next but one cycle come more than a duration after the last packet of this one. -/
theorem next_but_one_cycle (hdur : dur ≠ 0) (h : Running dur (conf v) p σ) (hts : (p :: ts).Pairwise (· ≤ ·))
    (hx : x ∈ arrivals dur v c conf ts) (hc : c + 2 ≤ x.cycle) : p + dur.toNat < x.time := by
  induction ts generalizing c conf p σ with
  | nil => cases hx
  | cons t ts ih =>
    rw [pairwise_cons] at hts
    have hpt : p ≤ t := hts.1 t mem_cons_self
    cases hcycle : startsCycle (.ofNat t) dur (conf v) with
    | true =>
      rw [arrivals_new hcycle] at hx
      rcases mem_cons.mp hx with rfl | hx
      · exact absurd hc (Nat.not_succ_le_self (c + 1))
      · obtain ⟨σ', hrunning, hbehind⟩ := running_new hdur hcycle
        have hlater := later_cycle hrunning hts.2 hx hc
        -- the new cycle starts behind the last packet of the old one
        have hlast : (p : ℤ) ≤ σ' := by
          have hp := h.last
          rcases h.startOf hpt with hsame | hwrap
          · have hlost := lost_mono h.start h.le hpt (hsame ▸ lt_startOf (t := t))
            omega
          · have hone := lost_le_one (.ofNat p) (conf v)
            have hbound := dur.toNat_lt
            omega
        omega
    | false =>
      rw [arrivals_same hcycle] at hx
      rcases mem_cons.mp hx with rfl | hx
      · exact absurd hc (Nat.not_le.mpr (Nat.lt_add_of_pos_right Nat.two_pos))
      · have hnext := ih ((running_same hcycle).afterPacket hcycle) hts.2 hx hc
        omega

/-- The cycles are in order, and packets two cycles apart are more than a duration apart. -/
theorem cycles_apart (hdur : dur ≠ 0) (hts : ts.Pairwise (· ≤ ·)) : (arrivals dur v c conf ts).Pairwise fun x y =>
    x.cycle ≤ y.cycle ∧ (x.cycle + 2 ≤ y.cycle → x.time + dur.toNat ≤ y.time) := by
  induction ts generalizing c conf with
  | nil => exact .nil
  | cons t ts ih =>
    obtain ⟨σ', hrunning⟩ := running_afterPacket hdur v conf t
    rw [arrivals_cons]
    refine .cons (fun y hy => ⟨(mem_arrivals hy).1, fun hc => ?_⟩) (ih (pairwise_cons.mp hts).2)
    exact (next_but_one_cycle hdur hrunning hts hy hc).le

/-! ### Counting -/

/-- The accepted packets of a cycle. -/
def acceptedIn (c : ℕ) (log : List Arrival) : List Arrival :=
  (log.filter Arrival.accepted).filter fun x => x.cycle = c

theorem acceptedIn_cons (y : Arrival) (log : List Arrival) :
    (acceptedIn c (y :: log)).length = (if y.accepted ∧ y.cycle = c then 1 else 0) + (acceptedIn c log).length := by
  unfold acceptedIn
  by_cases ha : y.accepted = true <;> by_cases hc : y.cycle = c <;> simp [ha, hc, Nat.add_comm]

/-- No packet of an earlier cycle. -/
theorem acceptedIn_earlier {c' : ℕ} (hc : c < c') : acceptedIn c (arrivals dur v c' conf ts) = [] := by
  unfold acceptedIn
  rw [filter_eq_nil_iff]
  intro x hx
  have hle := (mem_arrivals (mem_of_mem_filter hx)).1
  rw [decide_eq_true_eq]
  omega

/-- The counter makes room for no more than the rate. -/
theorem acceptedIn_le (dur : UInt32) (ts : List ℕ) (conf : IpVersion → RateLimit) (c : ℕ)
    (hrate : 0 < (conf v).rate.toNat) (hcounter : (conf v).counter.toNat ≤ (conf v).rate.toNat) :
    (acceptedIn c (arrivals dur v c conf ts)).length + (conf v).counter.toNat ≤ (conf v).rate.toNat ∧
      ∀ c', c < c' → (acceptedIn c' (arrivals dur v c conf ts)).length ≤ (conf v).rate.toNat := by
  induction ts generalizing c conf with
  | nil => exact ⟨by simpa [arrivals, acceptedIn] using hcounter, fun _ _ => Nat.zero_le _⟩
  | cons t ts ih =>
    have hsame := afterPacket_rate (v := v) dur conf t
    cases hcycle : startsCycle (.ofNat t) dur (conf v) with
    | true =>
      have hone : (afterPacket dur v conf t v).counter.toNat = 1 := by
        rw [afterPacket_new hcycle]
        rfl
      obtain ⟨hown, hlater⟩ := ih (afterPacket dur v conf t) (c + 1) (by rw [hsame]; exact hrate)
        (by rw [hsame, hone]; exact hrate)
      rw [hsame] at hown hlater
      rw [arrivals_new hcycle]
      refine ⟨?_, fun c' hc' => ?_⟩
      · rw [acceptedIn_cons, acceptedIn_earlier (Nat.lt_succ_self c)]
        simpa using hcounter
      · rw [acceptedIn_cons]
        rcases Nat.lt_or_eq_of_le (Nat.succ_le_of_lt hc') with hc' | rfl
        · have hne : c + 1 ≠ c' := hc'.ne
          simpa [hne] using hlater c' hc'
        · rw [Nat.succ_eq_add_one, if_pos ⟨rfl, rfl⟩]
          omega
    | false =>
      have hafter := afterPacket_counts hcycle hcounter
      obtain ⟨hown, hlater⟩ := ih (afterPacket dur v conf t) c (by rw [hsame]; exact hrate)
        (by rw [hsame]; omega)
      rw [hsame] at hown hlater
      rw [arrivals_same hcycle]
      refine ⟨?_, fun c' hc' => ?_⟩
      · rw [acceptedIn_cons]
        simp only [decide_eq_true_eq, and_true, UInt32.lt_iff_toNat_lt]
        split <;> omega
      · have hne : c ≠ c' := hc'.ne
        rw [acceptedIn_cons]
        simpa [hne] using hlater c' hc'

/-! ### Sparse streams -/

/-- No more than `n` packets in every interval of `m` jiffies. -/
def Sparse (m n : ℕ) (ts : List ℕ) : Prop := ∀ a, (ts.filter fun t => a ≤ t ∧ t < a + m).length ≤ n

theorem Sparse.sublist {m n : ℕ} {ts' : List ℕ} (h : Sparse m n ts) (hsub : ts'.Sublist ts) : Sparse m n ts' :=
  fun a => (hsub.filter _).length_le.trans (h a)

/-- Packets that lie in one interval are no more than `n`. -/
theorem Sparse.length_le {m n : ℕ} (h : Sparse m n ts) (hσ : ∀ t ∈ ts, σ ≤ t ∧ (t : ℤ) < σ + m) : ts.length ≤ n := by
  have hall : ts.filter (fun t => σ.toNat ≤ t ∧ t < σ.toNat + m) = ts := by
    rw [filter_eq_self]
    intro t ht
    obtain ⟨hlow, hhigh⟩ := hσ t ht
    rw [decide_eq_true_eq]
    omega
  exact hall ▸ h σ.toNat

/-- The next packet is near enough for the limiter to know that the cycle is over. -/
def Near (dur : UInt32) (t t' : ℕ) : Prop := t' < t + (2 ^ 32 - 1 - dur.toNat)

instance (dur : UInt32) (t t' : ℕ) : Decidable (Near dur t t') := inferInstanceAs (Decidable (_ < _))

/-- The start of the cycle has not wrapped away. -/
theorem Running.startOf_near {r : RateLimit} (h : Running dur r p σ) (hpt : p ≤ t) (hnear : Near dur p t) :
    Igmp.startOf t r = σ := by
  have hlast := h.last
  have hlost := lost_le_one (.ofNat p) r
  have hgap : t < p + (2 ^ 32 - 1 - dur.toNat) := hnear
  have hle := startOf_le (t := t) (r := r)
  rcases h.startOf hpt with hsame | hwrap
  · exact hsame
  · omega

/-- With `cur` the packets of this cycle, all of them accepted, all packets of a sparse stream are. -/
theorem accepts_sparse (hdur : dur ≠ 0) (conf : IpVersion → RateLimit) (c : ℕ) (σ : ℤ) (cur : List ℕ)
    (hrate : 0 < (conf v).rate.toNat) (hcounter : (conf v).counter.toNat = cur.length)
    (hstart : ∀ t ∈ ts.head?, startOf t (conf v) = σ) (hcur : ∀ x ∈ cur, σ ≤ x)
    (hts : (cur ++ ts).Pairwise (· ≤ ·)) (hnear : ts.IsChain (Near dur))
    (hsparse : Sparse (2 * dur.toNat + 1) (conf v).rate.toNat (cur ++ ts)) :
    ∀ x ∈ arrivals dur v c conf ts, x.accepted = true := by
  induction ts generalizing c conf σ cur with
  | nil => exact fun _ hx => nomatch hx
  | cons t ts ih =>
    obtain ⟨-, hrest, hbefore⟩ := pairwise_append.mp hts
    rw [isChain_cons] at hnear
    have hsame := afterPacket_rate (v := v) dur conf t
    have hrate' : 0 < (afterPacket dur v conf t v).rate.toNat := hsame ▸ hrate
    have hnext {σ' : ℤ} (h : Running dur (afterPacket dur v conf t v) t σ') :
        ∀ t' ∈ ts.head?, startOf t' (afterPacket dur v conf t v) = σ' := fun t' ht' =>
      h.startOf_near ((pairwise_cons.mp hrest).1 t' (mem_of_mem_head? ht')) (hnear.1 t' ht')
    cases hcycle : startsCycle (.ofNat t) dur (conf v) with
    | true =>
      obtain ⟨σ', hrunning, -⟩ := running_new hdur hcycle
      rw [arrivals_new hcycle]
      refine forall_mem_cons.mpr ⟨rfl, ih _ _ σ' [t] hrate' ?_ (hnext hrunning) ?_ hrest hnear.2 ?_⟩
      · rw [afterPacket_new hcycle]
        rfl
      · exact forall_mem_singleton.mpr hrunning.le
      · rw [hsame]
        exact hsparse.sublist (sublist_append_right cur (t :: ts))
    | false =>
      have hrunning := (running_same hcycle).afterPacket hcycle
      rw [hstart t rfl] at hrunning
      have hcur' : ∀ x ∈ cur ++ [t], σ ≤ x := by
        intro x hx
        rcases mem_append.mp hx with hx | hx
        · exact hcur x hx
        · obtain rfl := mem_singleton.mp hx
          exact hrunning.le
      have hin : ∀ x ∈ cur ++ [t], σ ≤ x ∧ (x : ℤ) < σ + (2 * dur.toNat + 1 : ℕ) := by
        have hpos : 0 < dur.toNat := Nat.pos_of_ne_zero fun h => hdur (UInt32.toNat_inj.mp h)
        have hlast := (running_same hcycle).last
        rw [hstart t rfl] at hlast
        have hlost := lost_le_one (.ofNat t) (conf v)
        intro x hx
        have hxt : x ≤ t := by
          rcases mem_append.mp hx with hx | hx
          · exact hbefore x hx t mem_cons_self
          · exact (mem_singleton.mp hx).le
        exact ⟨hcur' x hx, by omega⟩
      have hwhole : cur ++ t :: ts = cur ++ [t] ++ ts := by rw [append_assoc, singleton_append]
      rw [hwhole] at hsparse hts
      have hroom : (cur ++ [t]).length ≤ (conf v).rate.toNat :=
        (hsparse.sublist (sublist_append_left (cur ++ [t]) ts)).length_le hin
      rw [length_append, length_singleton, ← hcounter] at hroom
      have hlt : (conf v).counter < (conf v).rate := UInt32.lt_iff_toNat_lt.mpr hroom
      rw [arrivals_same hcycle]
      refine forall_mem_cons.mpr ⟨decide_eq_true hlt,
        ih _ _ σ (cur ++ [t]) hrate' ?_ (hnext hrunning) hcur' hts hnear.2 ?_⟩
      · rw [afterPacket_counts hcycle (by omega), Nat.min_eq_left hroom, length_append,
          length_singleton, hcounter]
      · rw [hsame]
        exact hsparse

/-- The cycle starts where the first packet takes it to. -/
theorem accepts_sparse_start (hdur : dur ≠ 0) (hrate : 0 < (conf v).rate.toNat) (hcounter : (conf v).counter = 0)
    (hts : ts.Pairwise (· ≤ ·)) (hnear : ts.IsChain (Near dur))
    (hsparse : Sparse (2 * dur.toNat + 1) (conf v).rate.toNat ts) :
    ∀ x ∈ arrivals dur v c conf ts, x.accepted = true := by
  cases ts with
  | nil => exact fun _ hx => nomatch hx
  | cons t ts =>
    refine accepts_sparse hdur conf c (startOf t (conf v)) [] hrate ?_ ?_ nofun hts hnear hsparse
    · rw [hcounter]
      rfl
    · rintro _ ⟨rfl⟩
      rfl

end Packets

/-! ### The limiter -/

/-- The limiter accepts at most `rate` packets in each cycle and at most `2 * rate` in any interval as long
    as a cycle. It accepts every packet of a stream with at most `rate` packets in every interval of two
    cycles and a jiffy, when packets are less than `2 ^ 32 - 1 - cycleDuration` jiffies apart. -/
theorem rate_limit_bounds (cycleDuration : UInt32) (hdur : cycleDuration ≠ 0) (v : IpVersion)
    (ratelimit : IpVersion → RateLimit) (hrate : (ratelimit v).rate ≠ 0) (hcounter : (ratelimit v).counter = 0)
    (ts : List ℕ) (hts : ts.Pairwise (· ≤ ·)) :
    let rate := (ratelimit v).rate.toNat
    let log := arrivals cycleDuration v 0 ratelimit ts
    let accepted := log.filter Arrival.accepted
    (∀ c, (accepted.filter fun x => x.cycle = c).length ≤ rate) ∧
    (∀ a, (accepted.filter fun x => a ≤ x.time ∧ x.time < a + cycleDuration.toNat).length ≤ 2 * rate) ∧
    (ts.IsChain (Near cycleDuration) → Sparse (2 * cycleDuration.toNat + 1) rate ts →
      ∀ x ∈ log, x.accepted = true) := by
  intro rate log accepted
  have hpos : 0 < rate := Nat.pos_of_ne_zero fun h => hrate (UInt32.toNat_inj.mp h)
  have hzero : (ratelimit v).counter.toNat = 0 := by
    rw [hcounter]
    rfl
  have hcycles : ∀ c, (accepted.filter fun x => x.cycle = c).length ≤ rate := by
    intro c
    obtain ⟨hfirst, hlater⟩ := acceptedIn_le cycleDuration ts ratelimit 0 hpos (by omega)
    rcases Nat.eq_zero_or_pos c with rfl | hc
    · exact Nat.le_of_add_right_le hfirst
    · exact hlater c hc
  refine ⟨hcycles, length_interval_le hcycles ?_, accepts_sparse_start hdur hpos hcounter hts⟩
  -- both orders of two packets at once
  let Apart (x y : Arrival) : Prop := (x.cycle + 2 ≤ y.cycle → x.time + cycleDuration.toNat ≤ y.time) ∧
    (y.cycle + 2 ≤ x.cycle → y.time + cycleDuration.toNat ≤ x.time)
  have hsymm : Std.Symm Apart := ⟨fun _ _ h => ⟨h.2, h.1⟩⟩
  have hself : ∀ x ∈ log, Apart x x := fun x _ => ⟨fun h => by omega, fun h => by omega⟩
  have hboth : log.Pairwise Apart := (cycles_apart hdur hts).imp fun hxy => ⟨hxy.2, fun hyx => by omega⟩
  intro x hx y hy
  exact (hboth.forall_of_forall hself (mem_of_mem_filter hx) (mem_of_mem_filter hy)).1

/-- Three packets at one moment with a rate of two. -/
theorem rate_limit_bounds_burst :
    ((arrivals 100 .v4 0 (fun _ => ⟨2, 0, 0⟩) [7, 7, 7]).filter Arrival.accepted).length = 2 ∧
    ∀ c, (((arrivals 100 .v4 0 (fun _ => ⟨2, 0, 0⟩) [7, 7, 7]).filter Arrival.accepted).filter
      fun x => x.cycle = c).length ≤ 2 :=
  ⟨by decide +kernel, (rate_limit_bounds 100 (by decide) .v4 (fun _ => ⟨2, 0, 0⟩) (by decide) rfl [7, 7, 7]
    (by decide)).1⟩

/-- Two packets `2 ^ 32 - 2` jiffies apart: the second is taken for one of the cycle of the first, and dropped. -/
theorem rate_limit_drops_distant :
    let ts := [100, 100 + (2 ^ 32 - 2)]
    ts.IsChain (fun t t' => t ≤ t' ∧ t' - t < 2 ^ 32 - 1) ∧ Sparse (2 * 100 + 1) 1 ts ∧
      ∃ x ∈ arrivals 100 .v4 0 (fun _ => ⟨1, 0, 0⟩) ts, x.accepted = false := by
  intro ts
  refine ⟨by decide, fun a => ?_, ⟨0, 100 + (2 ^ 32 - 2), false⟩, by decide +kernel, rfl⟩
  by_cases hfirst : a ≤ 100 ∧ 100 < a + (2 * 100 + 1)
  · have hsecond : ¬(a ≤ 100 + (2 ^ 32 - 2) ∧ 100 + (2 ^ 32 - 2) < a + (2 * 100 + 1)) := by omega
    simp only [ts, filter_cons, decide_eq_true_eq, if_pos hfirst, if_neg hsecond, filter_nil]
    rfl
  · simp only [ts, filter_cons, decide_eq_true_eq, if_neg hfirst, filter_nil]
    split <;> simp

end PhoebusBsp.Igmp

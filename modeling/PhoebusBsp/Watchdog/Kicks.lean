import Mathlib.Data.Nat.Basic
import PhoebusBsp.Schemes.Machine

/-! The watchdog is kicked by CPU 0 when all other CPUs have touched it: `luna_watchdog.c`.

        CPU c     set_bit(c)                              set_bit(c)
        CPU 0               test(1) .. test(n)  clear(0) .. clear(n)  kick

    The tests, the clears and the touches interleave as they like. A touch pays for one kick: its bit is cleared
    for it. But a bit that is set again between its clear and the kick is good for the next kick too. -/

namespace PhoebusBsp.Watchdog
open Schemes List

/-- Where CPU 0 is in `CHECK_CPUS_AND_KICK`, with the CPUs that a loop has still to come to. -/
inductive Pc where
  | idle
  | test (rest : List ℕ)
  | clear (rest : List ℕ)

structure State where
  wtdCount : ℕ → Bool
  pc : Pc
  kicks : ℕ

def State.init : State := ⟨fun _ => false, .idle, 0⟩

/-- `touch_wtd_count` on a CPU. -/
def touchWtdCount (cpu : ℕ) (s : State) : State := { s with wtdCount := Function.update s.wtdCount cpu true }

/-- One step of `CHECK_CPUS_AND_KICK`. -/
def checkCpusAndKick (cpus : ℕ) (s : State) : State :=
  match s.pc with
  | .idle => { s with pc := .test (List.range cpus) }
  | .test (cpu :: rest) =>
    if cpu = 0 then { s with pc := .test rest }
    else if !s.wtdCount cpu then { s with pc := .idle }
    else { s with pc := .test rest }
  | .test [] => { s with pc := .clear (List.range cpus) }
  | .clear (cpu :: rest) => { s with wtdCount := Function.update s.wtdCount cpu false, pc := .clear rest }
  | .clear [] => { s with pc := .idle, kicks := s.kicks + 1 }

inductive Event where
  | touch (cpu : ℕ)
  | check
  deriving DecidableEq

def step (cpus : ℕ) (s : State) : Event → State
  | .touch cpu => touchWtdCount cpu s
  | .check => checkCpusAndKick cpus s

/-! ### What a touch is good for -/

/-- The bit has been cleared for a kick that is still to come. -/
def Pc.cleared (c : ℕ) : Pc → Bool
  | .clear rest => c ∉ rest
  | _ => false

/-- The kicks that the touches of a CPU have paid for: those that were, one that is under way, and one for its bit. -/
def State.due (s : State) (c : ℕ) : ℕ := s.kicks + (s.pc.cleared c).toNat + (s.wtdCount c).toNat

/-- A bit stays set from its test to its clear. -/
def Tested (c : ℕ) (s : State) : Prop :=
  match s.pc with
  | .idle => True
  | .test rest => c ∉ rest → s.wtdCount c = true
  | .clear rest => rest.Nodup ∧ (c ∈ rest → s.wtdCount c = true)

variable {cpus c : ℕ} {s : State}

theorem touch_step (hs : Tested c s) (cpu : ℕ) :
    Tested c (touchWtdCount cpu s) ∧
      (touchWtdCount cpu s).due c ≤ s.due c + if cpu = c then 1 else 0 := by
  by_cases hcpu : cpu = c
  · subst hcpu
    have hset : (touchWtdCount cpu s).wtdCount cpu = true := Function.update_self ..
    have hpc : (touchWtdCount cpu s).pc = s.pc := rfl
    constructor
    · rw [Tested, hset, hpc]
      cases hat : s.pc with
      | idle => trivial
      | test rest => exact fun _ => rfl
      | clear rest =>
        rw [Tested, hat] at hs
        exact ⟨hs.1, fun _ => rfl⟩
    · rw [State.due, hset, hpc, State.due, if_pos rfl, Bool.toNat_true]
      exact Nat.add_le_add_right (Nat.le_add_right _ _) 1
  · have hsame : (touchWtdCount cpu s).wtdCount c = s.wtdCount c := Function.update_of_ne (Ne.symm hcpu) ..
    have hdue : (touchWtdCount cpu s).due c = s.due c := by rw [State.due, hsame]; rfl
    refine ⟨?_, by rw [hdue]; exact Nat.le_add_right _ _⟩
    rw [Tested, hsame]
    exact hs

theorem check_step (hc : 0 < c) (hlt : c < cpus) (hs : Tested c s) :
    Tested c (checkCpusAndKick cpus s) ∧ (checkCpusAndKick cpus s).due c ≤ s.due c := by
  obtain ⟨bits, pc, kicks⟩ := s
  cases pc with
  | idle => exact ⟨fun hnot => absurd (mem_range.mpr hlt) hnot, le_rfl⟩
  | test rest =>
    cases rest with
    | nil =>
      have hset : bits c = true := hs not_mem_nil
      have hmem : c ∈ List.range cpus := mem_range.mpr hlt
      refine ⟨⟨nodup_range, fun _ => hset⟩, ?_⟩
      simp [checkCpusAndKick, State.due, Pc.cleared, hmem]
    | cons cpu rest =>
      have hpass : (cpu = 0 ∨ bits cpu = true) → Tested c ⟨bits, .test rest, kicks⟩ := by
        intro hcpu hrest
        by_cases heq : c = cpu
        · subst heq
          exact hcpu.resolve_left (by omega)
        · exact hs fun hmem => (mem_cons.mp hmem).elim heq hrest
      simp only [checkCpusAndKick]
      split_ifs with hzero hbit
      · exact ⟨hpass (Or.inl hzero), le_rfl⟩
      · exact ⟨trivial, le_rfl⟩
      · exact ⟨hpass (Or.inr (by simpa using hbit)), le_rfl⟩
  | clear rest =>
    cases rest with
    | nil =>
      refine ⟨trivial, ?_⟩
      simp [checkCpusAndKick, State.due, Pc.cleared]
    | cons cpu rest =>
      obtain ⟨hnodup, hset⟩ := hs
      obtain ⟨hnot, hrest⟩ := nodup_cons.mp hnodup
      by_cases heq : c = cpu
      · -- the bit pays for the kick of this round
        subst heq
        have hset : bits c = true := hset mem_cons_self
        refine ⟨⟨hrest, fun hmem => absurd hmem hnot⟩, ?_⟩
        simp [checkCpusAndKick, State.due, Pc.cleared, hnot, hset]
      · refine ⟨⟨hrest, fun hmem => ?_⟩, ?_⟩
        · exact (Function.update_of_ne heq ..).trans (hset (mem_cons_of_mem cpu hmem))
        · simp [checkCpusAndKick, State.due, Pc.cleared, heq]

theorem run_due (hc : 0 < c) (hlt : c < cpus) (hs : Tested c s) (es : List Event) :
    Tested c (run (step cpus) s es) ∧ (run (step cpus) s es).due c ≤ s.due c + es.count (.touch c) := by
  refine run_history (P := fun es s' => Tested c s' ∧ s'.due c ≤ s.due c + es.count (.touch c)) ⟨hs, le_rfl⟩ ?_ es
  rintro es s' e ⟨htested, hdue⟩
  cases e with
  | touch cpu =>
    obtain ⟨htested', hdue'⟩ := touch_step htested cpu
    refine ⟨htested', le_trans hdue' ?_⟩
    simp only [count_append, count_singleton, beq_iff_eq, Event.touch.injEq]
    omega
  | check =>
    obtain ⟨htested', hdue'⟩ := check_step hc hlt htested
    exact ⟨htested', le_trans hdue' (by simpa [count_append] using hdue)⟩

/-- For any number of CPUs and any interleaving there are never more kicks than touches of any one CPU from 1 on; and
    after any moment there are at most two kicks more than the CPU has touched since. -/
theorem kicks_le_touches (cpus c : ℕ) (hc : 0 < c) (hlt : c < cpus) (es es' : List Event) :
    (run (step cpus) .init es).kicks ≤ es.count (.touch c) ∧
      (run (step cpus) .init (es ++ es')).kicks ≤ (run (step cpus) .init es).kicks + es'.count (.touch c) + 2 := by
  obtain ⟨htested, hdue⟩ := run_due hc hlt (s := .init) trivial es
  obtain ⟨-, hmore⟩ := run_due hc hlt htested es'
  have hpaid : ∀ s : State, s.kicks ≤ s.due c ∧ s.due c ≤ s.kicks + 2 := by
    intro s
    have := Bool.toNat_le (s.pc.cleared c)
    have := Bool.toNat_le (s.wtdCount c)
    rw [State.due]
    omega
  have hinit : State.init.due c = 0 := rfl
  have hsplit : run (step cpus) .init (es ++ es') = run (step cpus) (run (step cpus) .init es) es' :=
    foldl_append ..
  rw [hsplit]
  have := hpaid (run (step cpus) .init es)
  have := hpaid (run (step cpus) (run (step cpus) .init es) es')
  omega

theorem kicks_le_touches_sample :
    (run (step 2) .init (.touch 1 :: List.replicate 8 .check)).kicks = 1 ∧
      1 ≤ (Event.touch 1 :: List.replicate 8 .check).count (.touch 1) := by
  have hone : (run (step 2) .init (.touch 1 :: List.replicate 8 .check)).kicks = 1 := by decide
  exact ⟨hone, hone ▸ (kicks_le_touches 2 1 (by decide) (by decide) _ []).1⟩

/-- CPU 1 touches again after its bit has been cleared, and then no more: two kicks follow. -/
theorem two_kicks_after_last_touch :
    let es : List Event := .touch 1 :: List.replicate 6 .check ++ [.touch 1]
    let es' : List Event := List.replicate 8 .check
    es'.count (.touch 1) = 0 ∧ (run (step 2) .init es).kicks = 0 ∧ (run (step 2) .init (es ++ es')).kicks = 2 := by
  decide

end PhoebusBsp.Watchdog

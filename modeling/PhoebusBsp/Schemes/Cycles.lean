import Mathlib.Data.List.Basic
import Mathlib.Data.Nat.Basic

/-! Events that are counted in cycles. When no cycle has more than `r` events, and an event that is two
    cycles later comes at least `d` later, an interval of length `d` meets two cycles at most and has
    at most `2 * r` events. -/

namespace PhoebusBsp.Schemes
open List

variable {α : Type} {cycle time : α → ℕ} {log : List α} {r d : ℕ}

theorem length_filter_le_two_cycles (c : ℕ) {p : α → Bool}
    (hcount : ∀ c, (log.filter fun x => cycle x = c).length ≤ r)
    (hp : ∀ x ∈ log, p x → cycle x = c ∨ cycle x = c + 1) : (log.filter p).length ≤ 2 * r := by
  have hsub : (log.filter p).length ≤
      (log.filter fun x => cycle x = c).length + (log.filter fun x => cycle x = c + 1).length := by
    clear hcount
    induction log with
    | nil => exact Nat.zero_le _
    | cons x log ih =>
      have hrest := ih fun y hy => hp y (mem_cons_of_mem x hy)
      have hx := hp x mem_cons_self
      simp only [filter_cons]
      by_cases hpx : p x = true
      · rcases hx hpx with h | h <;> simp [hpx, h] <;> omega
      · rw [if_neg hpx]
        split <;> split <;> grind
  have h := hcount c
  have h' := hcount (c + 1)
  omega

theorem length_interval_le (hcount : ∀ c, (log.filter fun x => cycle x = c).length ≤ r)
    (hapart : ∀ x ∈ log, ∀ y ∈ log, cycle x + 2 ≤ cycle y → time x + d ≤ time y) (a : ℕ) :
    (log.filter fun x => a ≤ time x ∧ time x < a + d).length ≤ 2 * r := by
  let inside := log.filter fun x => a ≤ time x ∧ time x < a + d
  -- the first of the cycles that the interval meets
  cases hmin : (inside.map cycle).min? with
  | none =>
    have hnil : inside = [] := map_eq_nil_iff.mp (List.min?_eq_none_iff.mp hmin)
    show inside.length ≤ 2 * r
    rw [hnil]
    exact Nat.zero_le _
  | some c =>
    obtain ⟨hmem, hle⟩ := List.min?_eq_some_iff.mp hmin
    obtain ⟨x, hx, rfl⟩ := mem_map.mp hmem
    obtain ⟨hxlog, hxin⟩ := mem_filter.mp hx
    have hxin : a ≤ time x ∧ time x < a + d := by simpa using hxin
    refine length_filter_le_two_cycles (cycle x) hcount fun y hy hin => ?_
    have hfirst := hle (cycle y) (mem_map_of_mem (mem_filter.mpr ⟨hy, hin⟩))
    have hyin : a ≤ time y ∧ time y < a + d := by simpa using hin
    by_contra hother
    rw [not_or] at hother
    have hlater := hapart x hxlog y hy (by omega)
    omega

end PhoebusBsp.Schemes

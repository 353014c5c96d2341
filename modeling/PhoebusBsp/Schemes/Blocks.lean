import Mathlib.Data.List.Basic
import Mathlib.Data.Nat.Basic

/-! A list cut into blocks of `n` elements. A list of length `L` has `L / n + 1` blocks, counted from
    zero: all but the last are full, and the last is short, possibly empty. -/

namespace PhoebusBsp.Schemes

variable {α : Type}

/-- Block `i` of a list. -/
def block (n : ℕ) (l : List α) (i : ℕ) : List α := (l.drop (i * n)).take n

/-- The number of the short block. -/
def lastBlock (n : ℕ) (l : List α) : ℕ := l.length / n

theorem length_block (n : ℕ) (l : List α) (i : ℕ) :
    (block n l i).length = min n (l.length - i * n) := by
  rw [block, List.length_take, List.length_drop]

theorem block_length_le (n : ℕ) (l : List α) (i : ℕ) : (block n l i).length ≤ n := by
  rw [length_block]
  exact min_le_left _ _

/-- The block that is not full is the last one. -/
theorem block_short_iff {n : ℕ} (hn : 0 < n) (l : List α) {i : ℕ} (hi : i ≤ lastBlock n l) :
    (block n l i).length < n ↔ i = lastBlock n l := by
  have hle : i * n ≤ l.length := (Nat.le_div_iff_mul_le hn).mp hi
  rw [length_block]
  constructor
  · intro h
    refine le_antisymm hi (Nat.lt_succ_iff.mp ((Nat.div_lt_iff_lt_mul hn).mpr ?_))
    rw [Nat.succ_mul]
    omega
  · intro h
    have hlt : l.length / n < i + 1 := h ▸ Nat.lt_succ_self _
    have hlen := (Nat.div_lt_iff_lt_mul hn).mp hlt
    rw [Nat.succ_mul] at hlen
    omega

/-- One more block is one more piece of the list. -/
theorem take_succ_mul (n : ℕ) (l : List α) (i : ℕ) :
    l.take ((i + 1) * n) = l.take (i * n) ++ block n l i := by
  rw [Nat.succ_mul, List.take_add, block]

/-- The first blocks, one after the other, are the beginning of the list. -/
theorem flatMap_block (n : ℕ) (l : List α) (r : ℕ) :
    (List.range r).flatMap (block n l) = l.take (r * n) := by
  induction r with
  | zero => simp
  | succ r ih => rw [List.range_succ, List.flatMap_append, ih, take_succ_mul]; simp

theorem take_all {n : ℕ} (hn : 0 < n) (l : List α) : l.take ((lastBlock n l + 1) * n) = l := by
  have := (Nat.div_lt_iff_lt_mul hn).mp (Nat.lt_succ_self (l.length / n))
  exact List.take_of_length_le (le_of_lt this)

end PhoebusBsp.Schemes

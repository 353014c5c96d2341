import Mathlib.Data.Nat.Basic
import Mathlib.Data.UInt

/-! Byte stores. A buffer is read as a function from offsets to bytes; `write` replaces one run of
    bytes and `memset`, `memcpy` are the two C calls expressed with it. The lemmas say what a read
    inside or outside a written run returns, and how two runs that touch combine. -/

namespace PhoebusBsp.Schemes

/-- The contents of a buffer, by offset. -/
abbrev Bytes := ℕ → UInt8

namespace Bytes

/-- Overwrite the `n` bytes from offset `off` on: byte `i` of the run becomes `f i`. -/
def write (b : Bytes) (off n : ℕ) (f : ℕ → UInt8) : Bytes :=
  fun j => if off ≤ j ∧ j < off + n then f (j - off) else b j

/-- `memset(b + off, v, n)`. -/
def memset (b : Bytes) (off : ℕ) (v : UInt8) (n : ℕ) : Bytes := write b off n fun _ => v

/-- `memcpy(dst + d, src + s, n)`. -/
def memcpy (dst : Bytes) (d : ℕ) (src : Bytes) (s n : ℕ) : Bytes := write dst d n fun i => src (s + i)

theorem write_of_mem (b : Bytes) {off n j : ℕ} (f : ℕ → UInt8) (h : off ≤ j ∧ j < off + n) :
    write b off n f j = f (j - off) := if_pos h

theorem write_of_notMem (b : Bytes) {off n j : ℕ} (f : ℕ → UInt8) (h : j < off ∨ off + n ≤ j) :
    write b off n f j = b j := if_neg (by omega)

theorem write_zero (b : Bytes) (off : ℕ) (f : ℕ → UInt8) : write b off 0 f = b := by
  funext j
  exact write_of_notMem b f (by omega)

theorem write_congr {b : Bytes} {off n : ℕ} {f g : ℕ → UInt8} (h : ∀ i < n, f i = g i) :
    write b off n f = write b off n g := by
  funext j
  simp only [write]
  split
  · next hj => exact h _ (by omega)
  · rfl

/-- One byte of two buffers after the same write. -/
theorem write_congr_at {b b' : Bytes} {off n j : ℕ} {f g : ℕ → UInt8}
    (hin : off ≤ j → j < off + n → f (j - off) = g (j - off)) (hout : j < off ∨ off + n ≤ j → b j = b' j) :
    write b off n f j = write b' off n g j := by
  simp only [write]
  split
  · next hj => exact hin hj.1 hj.2
  · next hj => exact hout (by omega)

/-- Two runs that touch are one longer run. -/
theorem write_write_adjacent (b : Bytes) (off n m : ℕ) (f : ℕ → UInt8) :
    write (write b off n f) (off + n) m (fun i => f (n + i)) = write b off (n + m) f := by
  funext j
  simp only [write]
  by_cases h1 : off + n ≤ j ∧ j < off + n + m
  · rw [if_pos h1, if_pos (by omega)]
    congr 1; omega
  · rw [if_neg h1]
    by_cases h2 : off ≤ j ∧ j < off + n
    · rw [if_pos h2, if_pos (by omega)]
    · rw [if_neg h2, if_neg (by omega)]

end Bytes

end PhoebusBsp.Schemes

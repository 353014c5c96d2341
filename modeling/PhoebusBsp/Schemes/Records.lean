import PhoebusBsp.Schemes.Bytes
import Mathlib.Data.List.Range

/-! Records of different sizes one behind the other in a buffer. The head of a record tells its size, so
    that the place of each one depends on the heads of all those before it:

        first ─▶ [head|body] [head|body......] [head] ...
                 start 0     start 1           start 2  -/

namespace PhoebusBsp.Schemes

/-- Big-endian numbers. -/
def Bytes.be16 (b : Bytes) (off : ℕ) : ℕ := (b off).toNat * 256 + (b (off + 1)).toNat

def Bytes.be32 (b : Bytes) (off : ℕ) : UInt32 :=
  UInt32.ofNat (b.be16 off * 65536 + b.be16 (off + 2))

/-- The head is read off the first `head` bytes, and every record has room for it. -/
structure RecordFormat where
  head : ℕ
  size : Bytes → ℕ → ℕ
  head_pos : 0 < head
  head_le : ∀ b off, head ≤ size b off
  size_congr : ∀ {b b' : Bytes} {off : ℕ}, (∀ i < head, b (off + i) = b' (off + i)) →
    size b off = size b' off

namespace RecordFormat

variable (f : RecordFormat) (b : Bytes) (first : ℕ)

/-- Where a record starts: behind the sizes of those before it. -/
def start : ℕ → ℕ
  | 0 => first
  | i + 1 => start i + f.size b (start i)

theorem start_add_head_le {i j : ℕ} (h : i < j) : f.start b first i + f.head ≤ f.start b first j := by
  induction j with
  | zero => exact absurd h (Nat.not_lt_zero i)
  | succ j ih =>
    have hsize := f.head_le b (f.start b first j)
    rw [start]
    rcases Nat.lt_succ_iff_lt_or_eq.mp h with hlt | rfl
    · have := ih hlt
      omega
    · omega

theorem start_mono {i j : ℕ} (h : i ≤ j) : f.start b first i ≤ f.start b first j := by
  rcases Nat.lt_or_eq_of_le h with hlt | rfl
  · exact (Nat.le_add_right _ _).trans (f.start_add_head_le b first hlt)
  · exact Nat.le_refl _

theorem first_le_start (i : ℕ) : first ≤ f.start b first i := f.start_mono b first (Nat.zero_le i)

variable {b} {b' : Bytes} {first} {len : ℕ}

/-- Two buffers that agree up to `len` have the same records there. -/
theorem start_congr (hb : ∀ i < len, b i = b' i) {n : ℕ}
    (h : ∀ i < n, f.start b first i + f.head ≤ len) : f.start b' first n = f.start b first n := by
  induction n with
  | zero => rfl
  | succ n ih =>
    have hn := h n (Nat.lt_succ_self n)
    have hsize : f.size b' (f.start b first n) = f.size b (f.start b first n) :=
      (f.size_congr fun i hi => hb _ (by omega)).symm
    rw [start, start, ih fun i hi => h i (Nat.lt_succ_of_lt hi), hsize]

end RecordFormat

theorem Bytes.be16_congr {b b' : Bytes} {off : ℕ} (h : ∀ i < 2, b (off + i) = b' (off + i)) :
    b.be16 off = b'.be16 off := by
  have h0 := h 0 (by decide)
  have h1 := h 1 (by decide)
  rw [Nat.add_zero] at h0
  rw [Bytes.be16, Bytes.be16, h0, h1]

theorem Bytes.be32_congr {b b' : Bytes} {off : ℕ} (h : ∀ i < 4, b (off + i) = b' (off + i)) :
    b.be32 off = b'.be32 off := by
  have h0 : b.be16 off = b'.be16 off := be16_congr fun i hi => h i (by omega)
  have h2 : b.be16 (off + 2) = b'.be16 (off + 2) := by
    refine be16_congr fun i hi => ?_
    rw [Nat.add_assoc]
    exact h (2 + i) (by omega)
  rw [Bytes.be32, Bytes.be32, h0, h2]

end PhoebusBsp.Schemes

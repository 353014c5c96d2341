import PhoebusBsp.Schemes.Records

/-! Lists of bytes at places of a buffer.

        b   ┄┄┄│x₀│x₁│x₂│┄┄┄       b.Holds off [x₀, x₁, x₂]
               off

    A write beside a list leaves it alone, and a copy that covers it takes it along. -/

namespace PhoebusBsp.Schemes.Bytes

def Holds (b : Bytes) (off : ℕ) (l : List UInt8) : Prop := ∀ i x, l[i]? = some x → b (off + i) = x

variable {b b' src : Bytes} {off d s k n : ℕ} {x y : UInt8} {l l' : List UInt8}

theorem holds_nil : b.Holds off [] := fun _ _ h => nomatch h

theorem holds_append : b.Holds off (l ++ l') ↔ b.Holds off l ∧ b.Holds (off + l.length) l' := by
  constructor
  · intro h
    refine ⟨fun i x hi => h i x ?_, fun i x hi => ?_⟩
    · rw [List.getElem?_append_left (List.getElem?_eq_some_iff.mp hi).1, hi]
    · rw [Nat.add_assoc]
      refine h (l.length + i) x ?_
      rw [List.getElem?_append_right (Nat.le_add_right ..), Nat.add_sub_cancel_left, hi]
  · rintro ⟨hl, hl'⟩ i x hi
    rcases Nat.lt_or_ge i l.length with hlt | hge
    · exact hl i x (by rwa [List.getElem?_append_left hlt] at hi)
    · rw [List.getElem?_append_right hge] at hi
      have := hl' (i - l.length) x hi
      rwa [Nat.add_assoc, Nat.add_sub_cancel' hge] at this

theorem holds_cons : b.Holds off (x :: l) ↔ b off = x ∧ b.Holds (off + 1) l := by
  rw [← List.singleton_append, holds_append]
  refine and_congr_left fun _ => ⟨fun h => h 0 x rfl, fun h i y hi => ?_⟩
  cases i with
  | zero => exact h.trans (Option.some.inj hi)
  | succ i => cases hi

theorem Holds.congr (h : b.Holds off l) (hb : ∀ i, off ≤ i → i < off + l.length → b' i = b i) :
    b'.Holds off l := by
  intro i x hi
  have hlt := (List.getElem?_eq_some_iff.mp hi).1
  rw [hb _ (Nat.le_add_right ..) (Nat.add_lt_add_left hlt off)]
  exact h i x hi

/-- A write beside the list. -/
theorem Holds.write (h : b.Holds off l) {p : ℕ} (f : ℕ → UInt8) (hp : off + l.length ≤ p ∨ p + n ≤ off) :
    (b.write p n f).Holds off l :=
  h.congr fun i hi hlt => write_of_notMem b f (by omega)

theorem memcpy_of_notMem (b src : Bytes) (s : ℕ) {j : ℕ} (h : j < d ∨ d + n ≤ j) :
    b.memcpy d src s n j = b j := write_of_notMem b _ h

theorem memcpy_congr_at {src' : Bytes} {j : ℕ} (hin : d ≤ j → j < d + n → src (s + (j - d)) = src' (s + (j - d)))
    (hout : j < d ∨ d + n ≤ j → b j = b' j) : b.memcpy d src s n j = b'.memcpy d src' s n j :=
  write_congr_at hin hout

theorem Holds.memcpy (h : b.Holds off l) (src : Bytes) (s : ℕ) (hd : off + l.length ≤ d ∨ d + n ≤ off) :
    (b.memcpy d src s n).Holds off l := h.write _ hd

/-- A copy that covers the list. -/
theorem Holds.copied (h : src.Holds (s + k) l) (dst : Bytes) (hk : k + l.length ≤ n) :
    (dst.memcpy d src s n).Holds (d + k) l := by
  intro i x hi
  have hlt := (List.getElem?_eq_some_iff.mp hi).1
  rw [Bytes.memcpy, write_of_mem _ _ (by omega), ← h i x hi]
  congr 1
  omega

theorem holds_write_self (b : Bytes) (off : ℕ) (l : List UInt8) :
    (b.write off l.length fun i => l.getD i 0).Holds off l := by
  intro i x hi
  have hlt := (List.getElem?_eq_some_iff.mp hi).1
  rw [write_of_mem _ _ (by omega), Nat.add_sub_cancel_left, List.getD_eq_getElem?_getD, hi, Option.getD_some]

/-! ### Numbers of two bytes -/

/-- The two low bytes of a number, the higher one first. -/
def be16Bytes (n : ℕ) : List UInt8 := [UInt8.ofNat (n / 256), UInt8.ofNat n]

@[simp] theorem length_be16Bytes (n : ℕ) : (be16Bytes n).length = 2 := rfl

/-- `htons` into a buffer. -/
def putBe16 (b : Bytes) (off n : ℕ) : Bytes := b.write off 2 fun i => (be16Bytes n).getD i 0

theorem holds_putBe16 (b : Bytes) (off n : ℕ) : (b.putBe16 off n).Holds off (be16Bytes n) :=
  holds_write_self b off (be16Bytes n)

theorem putBe16_of_notMem (b : Bytes) {off j : ℕ} (n : ℕ) (h : j < off ∨ off + 2 ≤ j) :
    b.putBe16 off n j = b j := write_of_notMem b _ h

theorem putBe16_congr_at {j : ℕ} (hout : j < off ∨ off + 2 ≤ j → b j = b' j) :
    b.putBe16 off n j = b'.putBe16 off n j :=
  write_congr_at (fun _ _ => rfl) hout

theorem Holds.putBe16 (h : b.Holds off l) {p : ℕ} (n : ℕ) (hp : off + l.length ≤ p ∨ p + 2 ≤ off) :
    (b.putBe16 p n).Holds off l := h.write _ hp

theorem Holds.be16_eq (h : b.Holds off [x, y]) : b.be16 off = x.toNat * 256 + y.toNat := by
  rw [be16, (holds_cons.mp h).1, (holds_cons.mp (holds_cons.mp h).2).1]

theorem Holds.be16 (h : b.Holds off (be16Bytes n)) : b.be16 off = n % 65536 := by
  rw [Holds.be16_eq h, UInt8.toNat_ofNat', UInt8.toNat_ofNat']
  omega

theorem be16_putBe16 (b : Bytes) (off n : ℕ) : (b.putBe16 off n).be16 off = n % 65536 :=
  (holds_putBe16 b off n).be16

theorem be16_putBe16_of_ne (b : Bytes) {off p : ℕ} (n : ℕ) (h : p + 2 ≤ off ∨ off + 2 ≤ p) :
    (b.putBe16 off n).be16 p = b.be16 p :=
  be16_congr fun i hi => putBe16_of_notMem b n (by omega)

theorem be16_lt (b : Bytes) (off : ℕ) : b.be16 off < 65536 := by
  have h₀ := (b off).toNat_lt
  have h₁ := (b (off + 1)).toNat_lt
  rw [Bytes.be16]
  omega

end PhoebusBsp.Schemes.Bytes

import PhoebusBsp.Schemes.Spans

/-! The Internet checksum. Bytes are added as big-endian words of 16 bits, with a zero behind an odd last one;
    the sum is folded into 16 bits by adding the carries, and its complement makes the whole sum up to
    `0xffff`:

        fold (sum of the other words + check) = 0xffff  -/

namespace PhoebusBsp.Schemes

/-- The words of `n` bytes. -/
def wordSum (b : Bytes) (off : ℕ) : ℕ → ℕ
  | 0 => 0
  | n + 1 => wordSum b off n + (b (off + n)).toNat * (if n % 2 = 0 then 256 else 1)

/-- A sum with all carries added. -/
def fold (s : ℕ) : ℕ := if s = 0 then 0 else (s - 1) % 65535 + 1

/-- The complement of the folded sum. -/
def inetCheck (s : ℕ) : ℕ := 65535 - fold s

theorem fold_add_inetCheck (s : ℕ) : fold (s + inetCheck s) = 65535 := by
  unfold inetCheck fold
  split_ifs <;> omega

/-- The sum is right if it is a multiple of 65535, and of something. -/
theorem fold_eq_iff {s : ℕ} (hs : 0 < s) : fold s = 65535 ↔ 65535 ∣ s := by
  unfold fold
  split_ifs <;> omega

theorem inetCheck_lt (s : ℕ) : inetCheck s < 65536 := by
  unfold inetCheck
  omega

/-- The sum of something is not folded to zero, so that only multiples of 65535 have no complement. -/
theorem inetCheck_eq_zero {s : ℕ} (hs : 0 < s) : inetCheck s = 0 ↔ 65535 ∣ s := by
  unfold inetCheck fold
  split_ifs <;> omega

section WordSum

variable {b b' : Bytes} {off : ℕ}

theorem wordSum_congr {off' n : ℕ} (h : ∀ i < n, b (off + i) = b' (off' + i)) :
    wordSum b off n = wordSum b' off' n := by
  induction n with
  | zero => rfl
  | succ n ih => rw [wordSum, wordSum, ih fun i hi => h i (Nat.lt_succ_of_lt hi), h n (Nat.lt_succ_self n)]

/-- Behind an even number of bytes the words start anew. -/
theorem wordSum_add {m : ℕ} (hm : m % 2 = 0) (k : ℕ) :
    wordSum b off (m + k) = wordSum b off m + wordSum b (off + m) k := by
  induction k with
  | zero => rfl
  | succ k ih =>
    have hparity : (m + k) % 2 = k % 2 := by omega
    rw [← Nat.add_assoc, wordSum, ih, wordSum, hparity, Nat.add_assoc off, Nat.add_assoc]

theorem wordSum_two (b : Bytes) (off : ℕ) : wordSum b off 2 = b.be16 off := by
  simp [wordSum, Bytes.be16]

/-- One word more in front. -/
theorem wordSum_word (k : ℕ) : wordSum b off (2 + k) = b.be16 off + wordSum b (off + 2) k := by
  rw [wordSum_add rfl, wordSum_two]

/-- A word that is written takes the place of another one. -/
theorem wordSum_putBe16 {m n c : ℕ} (hm : m % 2 = 0) (hn : m + 2 ≤ n) (hc : c < 65536) :
    wordSum (b.putBe16 (off + m) c) off n + b.be16 (off + m) = wordSum b off n + c := by
  obtain ⟨k, rfl⟩ := Nat.exists_eq_add_of_le hn
  have hbefore : wordSum (b.putBe16 (off + m) c) off m = wordSum b off m :=
    wordSum_congr fun i hi => Bytes.putBe16_of_notMem b c (by omega)
  have hbehind : wordSum (b.putBe16 (off + m) c) (off + m + 2) k = wordSum b (off + m + 2) k :=
    wordSum_congr fun i hi => Bytes.putBe16_of_notMem b c (by omega)
  rw [Nat.add_assoc, wordSum_add hm, wordSum_add hm, wordSum_word, wordSum_word, hbefore, hbehind,
    Bytes.be16_putBe16, Nat.mod_eq_of_lt hc]
  omega

/-- A word that is written where there was zero. -/
theorem wordSum_putBe16_zero {m n c : ℕ} (hm : m % 2 = 0) (hn : m + 2 ≤ n) (hc : c < 65536)
    (hzero : b.be16 (off + m) = 0) : wordSum (b.putBe16 (off + m) c) off n = wordSum b off n + c := by
  have hsum : wordSum (b.putBe16 (off + m) c) off n + b.be16 (off + m) = _ := wordSum_putBe16 hm hn hc
  rwa [hzero, Nat.add_zero] at hsum

/-- The words of a list. -/
def listSum (l : List UInt8) : ℕ := wordSum (fun i => l.getD i 0) 0 l.length

theorem wordSum_of_holds {l : List UInt8} (h : b.Holds off l) : wordSum b off l.length = listSum l := by
  refine wordSum_congr fun i hi => ?_
  rw [Nat.zero_add, List.getD_eq_getElem?_getD, List.getElem?_eq_getElem hi, Option.getD_some]
  exact h i _ (List.getElem?_eq_getElem hi)

end WordSum

end PhoebusBsp.Schemes

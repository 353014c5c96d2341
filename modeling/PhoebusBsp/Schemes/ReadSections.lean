import Mathlib.Data.List.Nodup

/-! Read-side sections and grace periods. Sections are numbered as they begin; a grace period that is asked
    for when `began` sections have begun is over once none of them is open any more. -/

namespace PhoebusBsp.Schemes

structure ReadSections where
  began : ℕ
  inside : List ℕ
  nodup : inside.Nodup
  lt_began : ∀ n ∈ inside, n < began

namespace ReadSections

variable (r : ReadSections)

/-- No section is open. -/
def quiet : ReadSections := ⟨0, [], List.nodup_nil, fun _ h => absurd h List.not_mem_nil⟩

/-- A section begins; its number is `r.began`. -/
def enter : ReadSections where
  began := r.began + 1
  inside := r.began :: r.inside
  nodup := List.nodup_cons.mpr ⟨fun h => Nat.lt_irrefl _ (r.lt_began _ h), r.nodup⟩
  lt_began n hn := by
    rcases List.mem_cons.mp hn with rfl | hn
    · exact Nat.lt_succ_self _
    · exact Nat.lt_succ_of_lt (r.lt_began n hn)

/-- A section ends. -/
def leave (n : ℕ) : ReadSections where
  began := r.began
  inside := r.inside.erase n
  nodup := r.nodup.erase n
  lt_began k hk := r.lt_began k (List.mem_of_mem_erase hk)

/-- The first `n` sections are over. -/
def Elapsed (n : ℕ) : Prop := ∀ k ∈ r.inside, n ≤ k

instance (n : ℕ) : Decidable (r.Elapsed n) := inferInstanceAs (Decidable (∀ k ∈ r.inside, n ≤ k))

@[simp] theorem mem_leave {n k : ℕ} : k ∈ (r.leave n).inside ↔ k ≠ n ∧ k ∈ r.inside :=
  r.nodup.mem_erase_iff

variable {r}

theorem Elapsed.not_mem {n k : ℕ} (h : r.Elapsed n) (hk : k < n) : k ∉ r.inside := fun hmem =>
  absurd (h k hmem) (Nat.not_le.mpr hk)

end ReadSections

end PhoebusBsp.Schemes

import Mathlib.Data.List.Basic
import Mathlib.Data.List.Range
import Mathlib.Data.List.Perm.Subperm

/-! Walking an unordered collection by index: ask for the least index from a bound on, take the next
    bound one above it, ask again.

        low ──next──▶ e₁ ──idx e₁ + 1──▶ e₂ ──idx e₂ + 1──▶ ... ──▶ none

    `scan` answers one question in one pass that lowers its upper bound as it goes; `exists_walk` says
    that the answers are the wanted members, each once and in the order of their indices. -/

namespace PhoebusBsp.Schemes.NextIndex
open List

variable {α : Type} (idx : α → ℕ)

/-- The answer to "what comes next from `low` on": the member with the least index, if there is one. -/
def IsNext (P : α → Prop) (low : ℕ) : Option α → Prop
  | none => ∀ a, P a → idx a < low
  | some a => P a ∧ low ≤ idx a ∧ ∀ b, P b → low ≤ idx b → idx a ≤ idx b

/-- The state of a pass: indices above `bound` are of no interest any more. -/
structure Scan (α : Type) where
  bound : ℕ
  hit : Option α

/-- One element. -/
def visit (wanted : α → Bool) (low : ℕ) (s : Scan α) (a : α) : Scan α :=
  if low ≤ idx a ∧ idx a ≤ s.bound ∧ wanted a then ⟨idx a, some a⟩ else s

/-- One pass over the collection. -/
def scan (wanted : α → Bool) (low bound : ℕ) (l : List α) : Option α :=
  (l.foldl (visit idx wanted low) ⟨bound, none⟩).hit

/-- The list of the answers from `low` on. -/
def Walk (next : ℕ → Option α) : ℕ → List α → Prop
  | low, [] => next low = none
  | low, a :: l => next low = some a ∧ Walk next (idx a + 1) l

variable {idx} {wanted : α → Bool} {low bound : ℕ} {l : List α} {P : α → Prop} {next : ℕ → Option α}

/-- What a pass knows after some of the elements. -/
def Knows (idx : α → ℕ) (wanted : α → Bool) (low bound : ℕ) (seen : List α) (s : Scan α) : Prop :=
  match s.hit with
  | none => s.bound = bound ∧ ∀ a ∈ seen, wanted a → idx a ≤ bound → idx a < low
  | some a => s.bound = idx a ∧ a ∈ seen ∧ wanted a ∧ low ≤ idx a ∧ idx a ≤ bound ∧
      ∀ b ∈ seen, wanted b → low ≤ idx b → idx a ≤ idx b

theorem knows_visit {seen : List α} {s : Scan α} (h : Knows idx wanted low bound seen s) (a : α) :
    Knows idx wanted low bound (seen ++ [a]) (visit idx wanted low s a) := by
  rcases s with ⟨b, hit⟩
  unfold visit
  cases hit with
  | none =>
    obtain ⟨rfl, hnone⟩ := h
    split
    · next hnew =>
      refine ⟨rfl, mem_append_right seen (mem_singleton_self a), hnew.2.2, hnew.1, hnew.2.1, ?_⟩
      grind
    · next hold =>
      refine ⟨rfl, ?_⟩
      grind
  | some a' =>
    obtain ⟨rfl, hmem, hwanted, hlow, hbound, hleast⟩ := h
    split
    · next hnew =>
      refine ⟨rfl, mem_append_right seen (mem_singleton_self a), hnew.2.2, hnew.1,
        hnew.2.1.trans hbound, ?_⟩
      grind
    · next hold =>
      refine ⟨rfl, mem_append_left [a] hmem, hwanted, hlow, hbound, ?_⟩
      grind

theorem scan_isNext (hbound : ∀ a ∈ l, idx a ≤ bound) :
    IsNext idx (fun a => a ∈ l ∧ wanted a) low (scan idx wanted low bound l) := by
  have hknows : ∀ l, Knows idx wanted low bound l (l.foldl (visit idx wanted low) ⟨bound, none⟩) := by
    intro l
    induction l using List.reverseRecOn with
    | nil => exact ⟨rfl, fun _ ha => absurd ha not_mem_nil⟩
    | append_singleton l a ih =>
      rw [foldl_append, foldl_cons, foldl_nil]
      exact knows_visit ih a
  have h := hknows l
  unfold scan
  generalize l.foldl (visit idx wanted low) ⟨bound, none⟩ = s at h ⊢
  rcases s with ⟨b, hit⟩
  cases hit with
  | none =>
    rintro a ⟨ha, hwanted⟩
    exact h.2 a ha hwanted (hbound a ha)
  | some a =>
    obtain ⟨-, hmem, hwanted, hlow, -, hleast⟩ := h
    exact ⟨⟨hmem, hwanted⟩, hlow, fun b hb => hleast b hb.1 hb.2⟩

/-- Of members that differ in their indices there is one answer. -/
theorem IsNext.unique (hinj : ∀ a b, P a → P b → idx a = idx b → a = b) {o o' : Option α}
    (h : IsNext idx P low o) (h' : IsNext idx P low o') : o = o' := by
  cases o with
  | none =>
    cases o' with
    | none => rfl
    | some b => exact absurd (h b h'.1) (Nat.not_lt.mpr h'.2.1)
  | some a =>
    cases o' with
    | none => exact absurd (h' a h.1) (Nat.not_lt.mpr h.2.1)
    | some b =>
      have hle := h.2.2 b h'.1 h'.2.1
      have hge := h'.2.2 a h.1 h.2.1
      rw [hinj a b h.1 h'.1 (Nat.le_antisymm hle hge)]

/-- The answers are the members from `low` on, each once, in the order of their indices. -/
theorem exists_walk (hnext : ∀ low, IsNext idx P low (next low)) (hbound : ∀ a, P a → idx a ≤ bound)
    (hinj : ∀ a b, P a → P b → idx a = idx b → a = b) (low : ℕ) :
    ∃ l, Walk idx next low l ∧ l.Pairwise (fun a b => idx a < idx b) ∧
      ∀ a, a ∈ l ↔ P a ∧ low ≤ idx a := by
  -- the bound comes nearer with every answer
  induction hn : bound + 1 - low using Nat.strong_induction_on generalizing low with
  | _ n ih =>
    have h := hnext low
    cases hlow : next low with
    | none =>
      rw [hlow] at h
      refine ⟨[], hlow, List.Pairwise.nil, fun a => ⟨fun ha => absurd ha not_mem_nil, ?_⟩⟩
      rintro ⟨ha, hle⟩
      exact absurd (h a ha) (Nat.not_lt.mpr hle)
    | some a =>
      rw [hlow] at h
      obtain ⟨ha, hle, hleast⟩ := h
      have hbelow := hbound a ha
      obtain ⟨l, hwalk, hsorted, hmem⟩ := ih (bound + 1 - (idx a + 1)) (by omega) (idx a + 1) rfl
      refine ⟨a :: l, ⟨hlow, hwalk⟩, pairwise_cons.mpr ⟨fun b hb => ((hmem b).mp hb).2, hsorted⟩, ?_⟩
      intro b
      rw [mem_cons, hmem]
      constructor
      · rintro (rfl | ⟨hb, hidx⟩)
        · exact ⟨ha, hle⟩
        · exact ⟨hb, by omega⟩
      · rintro ⟨hb, hidx⟩
        rcases Nat.eq_or_lt_of_le (hleast b hb hidx) with heq | hlt
        · exact Or.inl (hinj a b ha hb heq).symm
        · exact Or.inr ⟨hb, hlt⟩

/-- There are no more answers than indices. -/
theorem length_le_of_sorted (hsorted : l.Pairwise fun a b => idx a < idx b) (hbound : ∀ a ∈ l, idx a ≤ bound) :
    l.length ≤ bound + 1 := by
  have hnodup : (l.map idx).Nodup := pairwise_map.mpr (hsorted.imp Nat.ne_of_lt)
  have hsub : l.map idx ⊆ List.range (bound + 1) := by
    intro n hn
    obtain ⟨a, ha, rfl⟩ := mem_map.mp hn
    exact mem_range.mpr (Nat.lt_succ_of_le (hbound a ha))
  have hlen := (hnodup.subperm hsub).length_le
  rwa [length_map, length_range] at hlen

end PhoebusBsp.Schemes.NextIndex

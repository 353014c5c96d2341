import Mathlib.Data.List.Induction
import Mathlib.Data.List.Nodup
import Mathlib.Data.List.Perm.Subperm

/-! A set kept in an array of slots: an element takes the first free slot unless it has one, and is left
    out when all are taken. As long as the set fits, the array has each of its elements once. -/

namespace PhoebusBsp.Schemes.Slots
open List

variable {α : Type} [DecidableEq α]

/-- Give the element a slot. -/
def put (max : ℕ) (l : List α) (a : α) : List α :=
  if a ∈ l then l
  else if l.length < max then l ++ [a]
  else l

/-- Give slots to all of them, one after the other. -/
def fill (max : ℕ) (l xs : List α) : List α := xs.foldl (put max) l

variable {max : ℕ} {l xs ys : List α} {a : α}

theorem fill_append : fill max l (xs ++ ys) = fill max (fill max l xs) ys := foldl_append ..

/-- A loop that gives a slot to what its turns want. -/
theorem foldl_eq_fill {β : Type} {want : β → Option α} {step : List α → β → List α}
    (hstep : ∀ l x, step l x = (want x).elim l (put max l)) (ys : List β) (l : List α) :
    ys.foldl step l = fill max l (ys.filterMap want) := by
  induction ys generalizing l with
  | nil => rfl
  | cons y ys ih =>
    rw [foldl_cons, hstep, ih]
    cases hy : want y with
    | none => rw [Option.elim_none, filterMap_cons_none hy]
    | some a =>
      rw [Option.elim_some, filterMap_cons_some hy]
      rfl

theorem eraseDups_concat : (xs ++ [a]).eraseDups = if a ∈ xs then xs.eraseDups else xs.eraseDups ++ [a] := by
  rw [eraseDups_append, List.removeAll]
  split_ifs with h <;> simp [h, eraseDups_cons]

theorem nodup_eraseDups (xs : List α) : xs.eraseDups.Nodup := by
  induction xs using List.reverseRecOn with
  | nil => exact nodup_nil
  | append_singleton xs a ih =>
    rw [eraseDups_concat]
    split_ifs with h
    · exact ih
    · rw [← concat_eq_append]
      exact ih.concat fun ha => h (mem_eraseDups.mp ha)

/-- The slots go to the elements in the order they come. -/
theorem take_eraseDups_concat : (xs ++ [a]).eraseDups.take max = put max (xs.eraseDups.take max) a := by
  rw [put, eraseDups_concat]
  by_cases hroom : xs.eraseDups.length < max
  · have hall : xs.eraseDups.take max = xs.eraseDups := take_of_length_le (Nat.le_of_lt hroom)
    simp only [hall, if_pos hroom, mem_eraseDups]
    split_ifs
    · exact hall
    · exact take_of_length_le (by rw [length_append]; exact hroom)
  · have hfull : ¬(xs.eraseDups.take max).length < max := by
      rw [length_take]
      omega
    rw [if_neg hfull, ite_self]
    split_ifs
    · rfl
    · exact take_append_of_le_length (Nat.le_of_not_lt hroom)

theorem fill_eq (xs : List α) : fill max [] xs = xs.eraseDups.take max := by
  induction xs using List.reverseRecOn with
  | nil => exact take_nil.symm
  | append_singleton xs a ih => rw [take_eraseDups_concat, ← ih, fill_append, fill, foldl_cons, foldl_nil]

/-- Only what is wanted gets a slot. -/
theorem mem_of_mem_fill (h : a ∈ fill max [] xs) : a ∈ xs :=
  mem_eraseDups.mp (mem_of_mem_take (fill_eq xs ▸ h))

theorem nodup_fill : (fill max [] xs).Nodup := by
  rw [fill_eq]
  exact (nodup_eraseDups xs).sublist (take_sublist max _)

/-- With slots for all of `U` every element of it gets one. -/
theorem mem_fill {U : List α} (hU : U.length ≤ max) (hxs : xs ⊆ U) : a ∈ fill max [] xs ↔ a ∈ xs := by
  have hsub : xs.eraseDups ⊆ U := fun a ha => hxs (mem_eraseDups.mp ha)
  have hlen := ((nodup_eraseDups xs).subperm hsub).length_le
  rw [fill_eq, take_of_length_le (Nat.le_trans hlen hU), mem_eraseDups]

end PhoebusBsp.Schemes.Slots

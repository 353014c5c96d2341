import Mathlib.Data.List.Basic

/-! Nested brackets in a list, and its outermost blocks.

        a ( b ( c ) d ) e        list
        0 1 1 2 2 1 1 0 0        depth behind each element
        a [( b ( c ) d  )] e     parts: elements outside, and blocks with their last bracket

    `scan` goes through the list once. Of a balanced list its parts are proper blocks that make up the
    list; and what is made up of proper parts is scanned into these parts. -/

namespace PhoebusBsp.Schemes.Nesting
open List

inductive Mark where
  | opens
  | closes
  | plain
  deriving DecidableEq

/-- An element outside all blocks, or a block: its elements up to the last bracket, and that bracket. -/
inductive Segment (α : Type) where
  | line (l : α)
  | block (body : List α) (last : α)
  deriving DecidableEq

def Segment.lines {α : Type} : Segment α → List α
  | .line l => [l]
  | .block body last => body ++ [last]

section Nesting

variable {α : Type} (mark : α → Mark)

/-- The depth behind a list that begins at some depth; `none` if a bracket closes nothing. -/
def depth : ℕ → List α → Option ℕ
  | d, [] => some d
  | d, l :: ls =>
    match mark l, d with
    | .opens, d => depth (d + 1) ls
    | .closes, 0 => none
    | .closes, d + 1 => depth d ls
    | .plain, d => depth d ls

def Balanced (ls : List α) : Prop := depth mark 0 ls = some 0

instance (ls : List α) : Decidable (Balanced mark ls) := inferInstanceAs (Decidable (_ = _))

/-- The parts of a list. The state is the block that has begun and the depth in it; a block that does not
    end is given a last element. -/
def scan (dflt : α) : Option (List α × ℕ) → List α → List (Segment α)
  | none, [] => []
  | some (body, _), [] => [.block body dflt]
  | none, l :: ls =>
    match mark l with
    | .opens => scan dflt (some ([l], 1)) ls
    | _ => .line l :: scan dflt none ls
  | some (body, d), l :: ls =>
    match mark l with
    | .opens => scan dflt (some (body ++ [l], d + 1)) ls
    | .closes =>
      if d = 1 then .block body l :: scan dflt none ls else scan dflt (some (body ++ [l], d - 1)) ls
    | .plain => scan dflt (some (body ++ [l], d)) ls

/-- What is outside is no bracket, and a block is balanced between its first and its last element. -/
inductive Segment.Proper : Segment α → Prop
  | line {l : α} (hl : mark l = .plain) : Proper (.line l)
  | block {c : α} {inner : List α} {last : α} (hc : mark c = .opens) (hinner : Balanced mark inner)
      (hlast : mark last = .closes) : Proper (.block (c :: inner) last)

variable {mark}

/-! ### Depth -/

theorem depth_opens {l : α} (h : mark l = .opens) (d : ℕ) (ls : List α) :
    depth mark d (l :: ls) = depth mark (d + 1) ls := by
  simp only [depth, h]

theorem depth_closes {l : α} (h : mark l = .closes) (d : ℕ) (ls : List α) :
    depth mark (d + 1) (l :: ls) = depth mark d ls := by
  simp only [depth, h]

theorem depth_closes_zero {l : α} (h : mark l = .closes) (ls : List α) :
    depth mark 0 (l :: ls) = none := by
  simp only [depth, h]

theorem depth_plain {l : α} (h : mark l = .plain) (d : ℕ) (ls : List α) :
    depth mark d (l :: ls) = depth mark d ls := by
  simp only [depth, h]

/-- Only the brackets count. -/
theorem depth_filter (ls : List α) (d : ℕ) :
    depth mark d (ls.filter fun l => mark l ≠ .plain) = depth mark d ls := by
  induction ls generalizing d with
  | nil => rfl
  | cons l ls ih =>
    cases hl : mark l with
    | opens => rw [filter_cons_of_pos (by simp [hl]), depth_opens hl, depth_opens hl, ih]
    | closes =>
      rw [filter_cons_of_pos (by simp [hl])]
      cases d with
      | zero => rw [depth_closes_zero hl, depth_closes_zero hl]
      | succ d => rw [depth_closes hl, depth_closes hl, ih]
    | plain => rw [filter_cons_of_neg (by simp [hl]), depth_plain hl, ih]

theorem balanced_of_filter_eq {a b : List α}
    (h : (a.filter fun l => mark l ≠ .plain) = b.filter fun l => mark l ≠ .plain)
    (ha : Balanced mark a) : Balanced mark b := by
  unfold Balanced at ha ⊢
  rw [← depth_filter, ← h, depth_filter, ha]

/-- The bracket that closes a block that is open. -/
theorem exists_close {ls : List α} {d k : ℕ} (h : depth mark (d + k + 1) ls = some 0) :
    ∃ inner last rest, ls = inner ++ last :: rest ∧ depth mark k inner = some 0 ∧
      mark last = .closes ∧ depth mark d rest = some 0 := by
  induction ls generalizing k with
  | nil => simp [depth] at h
  | cons l ls ih =>
    cases hl : mark l with
    | opens =>
      rw [depth_opens hl] at h
      obtain ⟨inner, last, rest, rfl, hinner, hlast, hrest⟩ := ih (k := k + 1) h
      exact ⟨l :: inner, last, rest, rfl, by rw [depth_opens hl, hinner], hlast, hrest⟩
    | closes =>
      rw [depth_closes hl] at h
      cases k with
      | zero => exact ⟨[], l, ls, rfl, rfl, hl, h⟩
      | succ k =>
        obtain ⟨inner, last, rest, rfl, hinner, hlast, hrest⟩ := ih h
        exact ⟨l :: inner, last, rest, rfl, by rw [depth_closes hl, hinner], hlast, hrest⟩
    | plain =>
      rw [depth_plain hl] at h
      obtain ⟨inner, last, rest, rfl, hinner, hlast, hrest⟩ := ih h
      exact ⟨l :: inner, last, rest, rfl, by rw [depth_plain hl, hinner], hlast, hrest⟩

/-! ### Scanning -/

/-- The scan stays in its block as long as the depth stays. -/
theorem scan_inside (dflt : α) {inner : List α} {d e : ℕ} (h : depth mark d inner = some e)
    (body rest : List α) :
    scan mark dflt (some (body, d + 1)) (inner ++ rest) =
      scan mark dflt (some (body ++ inner, e + 1)) rest := by
  induction inner generalizing d body with
  | nil =>
    obtain rfl : d = e := Option.some.inj h
    rw [append_nil, nil_append]
  | cons l inner ih =>
    rw [append_cons body l inner, cons_append]
    cases hl : mark l with
    | opens =>
      rw [depth_opens hl] at h
      simp only [scan, hl]
      exact ih h _
    | closes =>
      cases d with
      | zero => simp [depth_closes_zero hl] at h
      | succ d =>
        rw [depth_closes hl] at h
        simp only [scan, hl]
        rw [if_neg (by omega)]
        exact ih h _
    | plain =>
      rw [depth_plain hl] at h
      simp only [scan, hl]
      exact ih h _

theorem scan_part (dflt : α) {p : Segment α} (hp : p.Proper mark) (rest : List α) :
    scan mark dflt none (p.lines ++ rest) = p :: scan mark dflt none rest := by
  cases hp with
  | line hl => simp only [Segment.lines, cons_append, nil_append, scan, hl]
  | @block c inner last hc hinner hlast =>
    have hlines : (Segment.block (c :: inner) last).lines ++ rest = c :: (inner ++ last :: rest) := by
      simp [Segment.lines]
    have hin := scan_inside dflt hinner [c] (last :: rest)
    rw [hlines]
    simp only [scan, hc]
    rw [hin]
    simp [scan, hlast]

/-- What is made up of proper parts is scanned into them. -/
theorem scan_lines (dflt : α) {parts : List (Segment α)} (h : ∀ p ∈ parts, p.Proper mark) :
    scan mark dflt none (parts.flatMap Segment.lines) = parts := by
  induction parts with
  | nil => rfl
  | cons p parts ih =>
    rw [flatMap_cons, scan_part dflt (h p mem_cons_self),
      ih fun q hq => h q (mem_cons_of_mem _ hq)]

theorem exists_parts (ls : List α) (h : Balanced mark ls) :
    ∃ parts : List (Segment α), (∀ p ∈ parts, p.Proper mark) ∧ ls = parts.flatMap Segment.lines := by
  match ls, h with
  | [], _ => exact ⟨[], nofun, rfl⟩
  | l :: ls, h =>
    unfold Balanced at h
    cases hl : mark l with
    | opens =>
      rw [depth_opens hl] at h
      obtain ⟨inner, last, rest, rfl, hinner, hlast, hrest⟩ := exists_close (d := 0) (k := 0) h
      obtain ⟨parts, hparts, rfl⟩ := exists_parts rest hrest
      refine ⟨.block (l :: inner) last :: parts, ?_, by simp [Segment.lines]⟩
      rintro p (_ | ⟨_, hp⟩)
      · exact .block hl hinner hlast
      · exact hparts p hp
    | closes => simp [depth_closes_zero hl] at h
    | plain =>
      rw [depth_plain hl] at h
      obtain ⟨parts, hparts, rfl⟩ := exists_parts ls h
      refine ⟨.line l :: parts, ?_, rfl⟩
      rintro p (_ | ⟨_, hp⟩)
      · exact .line hl
      · exact hparts p hp
termination_by ls.length

/-- A balanced list is made up of the parts it is scanned into, and they are proper. -/
theorem scan_balanced (dflt : α) {ls : List α} (h : Balanced mark ls) :
    (∀ p ∈ scan mark dflt none ls, p.Proper mark) ∧ (scan mark dflt none ls).flatMap Segment.lines = ls := by
  obtain ⟨parts, hparts, rfl⟩ := exists_parts ls h
  rw [scan_lines dflt hparts]
  exact ⟨hparts, rfl⟩

end Nesting

end PhoebusBsp.Schemes.Nesting

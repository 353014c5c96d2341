import Mathlib.Data.List.Basic
import Mathlib.Data.List.Induction

/-! Loops that count their turns and read a list through a cursor which the body moves on or leaves
    where it is:

        for (j = 0; j < n; j++) { ... *p ...;  advance: p++  |  stay  |  stop: return }

    When the body leaves the cursor and would do the same again, the loop spends its other turns there. -/

namespace PhoebusBsp.Schemes
open List

/-- What a turn of the loop does with the cursor. -/
inductive Turn
  | advance
  | stay
  | stop
  deriving DecidableEq

section

variable {α σ : Type} (body : α → σ → Turn × σ) {P : List α → σ → Prop}

/-- `n` turns with the cursor at the head of the list; `false` when the body stopped the loop. -/
def sweep : ℕ → List α → σ → Bool × σ
  | 0, _, s => (true, s)
  | _ + 1, [], s => (true, s)
  | n + 1, a :: l, s =>
    match body a s with
    | (.advance, s') => sweep n l s'
    | (.stay, s') => sweep n (a :: l) s'
    | (.stop, s') => (false, s')

variable {body} {n : ℕ} {a : α} {l : List α} {s s' : σ}

theorem sweep_advance (h : body a s = (.advance, s')) :
    sweep body (n + 1) (a :: l) s = sweep body n l s' := by
  rw [sweep, h]

theorem sweep_stay (h : body a s = (.stay, s')) :
    sweep body (n + 1) (a :: l) s = sweep body n (a :: l) s' := by
  rw [sweep, h]

/-- What every turn preserves, without stopping, holds at the end. -/
theorem sweep_invariant {P : σ → Prop}
    (step : ∀ a ∈ l, ∀ s, P s → (body a s).1 ≠ .stop ∧ P (body a s).2) (n : ℕ) (h : P s) :
    ∃ s', P s' ∧ sweep body n l s = (true, s') := by
  induction n generalizing l s with
  | zero => exact ⟨s, h, rfl⟩
  | succ n ih =>
    cases l with
    | nil => exact ⟨s, h, rfl⟩
    | cons a l =>
      obtain ⟨hturn, hP⟩ := step a mem_cons_self s h
      rcases hbody : body a s with ⟨turn, s₁⟩
      rw [hbody] at hturn hP
      cases turn with
      | advance =>
        rw [sweep_advance hbody]
        exact ih (fun b hb => step b (mem_cons_of_mem _ hb)) hP
      | stay =>
        rw [sweep_stay hbody]
        exact ih step hP
      | stop => exact absurd rfl hturn

/-- What every turn preserves holds at the end, also when the body stops the loop. -/
theorem sweep_keeps {P : σ → Prop} (step : ∀ a ∈ l, ∀ s, P s → P (body a s).2) (n : ℕ) (h : P s) :
    P (sweep body n l s).2 := by
  induction n generalizing l s with
  | zero => exact h
  | succ n ih =>
    cases l with
    | nil => exact h
    | cons a l =>
      have hP := step a mem_cons_self s h
      rcases hbody : body a s with ⟨turn, s'⟩
      rw [hbody] at hP
      rw [sweep, hbody]
      cases turn with
      | advance => exact ih (fun b hb => step b (mem_cons_of_mem _ hb)) hP
      | stay => exact ih step hP
      | stop => exact hP

/-- The loop stalls where the body leaves the cursor and the state. -/
theorem sweep_stalled (h : body a s = (.stay, s)) (n : ℕ) :
    sweep body n (a :: l) s = (true, s) := by
  induction n with
  | zero => rfl
  | succ n ih => rw [sweep_stay h, ih]

/-- The loop passes a part of the list on which the body always advances. `P done s` is what holds
    when `done` has been passed. -/
theorem sweep_passes {pre : List α} (h0 : P [] s) (step : ∀ done a rest s, pre = done ++ a :: rest → P done s →
      ∃ s', body a s = (.advance, s') ∧ P (done ++ [a]) s') (n : ℕ) (l : List α) :
    ∃ s', P pre s' ∧ sweep body (pre.length + n) (pre ++ l) s = sweep body n l s' := by
  -- induction on what is still to be passed
  suffices H : ∀ rest done s, pre = done ++ rest → P done s →
      ∃ s', P pre s' ∧ sweep body (rest.length + n) (rest ++ l) s = sweep body n l s' from
    H pre [] s rfl h0
  intro rest
  induction rest with
  | nil =>
    intro done s hpre hP
    rw [append_nil] at hpre
    exact ⟨s, hpre ▸ hP, by simp⟩
  | cons a rest ih =>
    intro done s hpre hP
    obtain ⟨s₁, hbody, hP₁⟩ := step done a rest s hpre hP
    obtain ⟨s₂, hP₂, hrun⟩ := ih (done ++ [a]) s₁ (by simp [hpre]) hP₁
    refine ⟨s₂, hP₂, ?_⟩
    rw [length_cons, Nat.add_right_comm, cons_append, sweep_advance hbody, hrun]

/-- A body that always advances deals with the whole list. -/
theorem sweep_all (h0 : P [] s) (step : ∀ done a rest s, l = done ++ a :: rest → P done s →
      ∃ s', body a s = (.advance, s') ∧ P (done ++ [a]) s') :
    ∃ s', P l s' ∧ sweep body l.length l s = (true, s') := by
  obtain ⟨s', hP, hrun⟩ := sweep_passes h0 step 0 []
  refine ⟨s', hP, ?_⟩
  rw [append_nil, Nat.add_zero] at hrun
  rw [hrun, sweep]

/-! ### Loops that stall -/

/-- Every element of the part is one to move on from, given those before it. -/
def Passed (Q : List α → α → Prop) (part : List α) : Prop :=
  ∀ done a rest, part = done ++ a :: rest → Q done a

variable {Q : List α → α → Prop} {pre post : List α}

theorem Passed.nil : Passed Q [] := by
  intro done a rest h
  exact absurd h.symm (append_ne_nil_of_right_ne_nil _ (cons_ne_nil _ _))

theorem Passed.left (h : Passed Q (pre ++ post)) : Passed Q pre := by
  intro done a rest hpre
  exact h done a (rest ++ post) (by rw [hpre, append_assoc, cons_append])

theorem Passed.concat (h : Passed Q pre) (ha : Q pre a) : Passed Q (pre ++ [a]) := by
  intro done b rest hpre
  rcases eq_nil_or_concat rest with rfl | ⟨rest, c, rfl⟩
  · obtain ⟨rfl, hb⟩ := append_inj' hpre rfl
    obtain rfl := singleton_inj.mp hb
    exact ha
  · rw [concat_eq_append, ← cons_append, ← append_assoc] at hpre
    obtain ⟨hpre, -⟩ := append_inj' hpre rfl
    exact h done b rest hpre

theorem passed_iff_forall {p : α → Prop} : Passed (fun _ a => p a) pre ↔ ∀ a ∈ pre, p a := by
  constructor
  · intro h a ha
    obtain ⟨done, rest, hpre⟩ := append_of_mem ha
    exact h done a rest hpre
  · rintro h done a rest rfl
    exact h a (mem_append_right _ mem_cons_self)

/-- The whole list is passed, or there is a first element to stay at. -/
theorem passed_or_stalls (Q : List α → α → Prop) (l : List α) :
    Passed Q l ∨ ∃ pre a post, l = pre ++ a :: post ∧ Passed Q pre ∧ ¬Q pre a := by
  induction l using List.reverseRecOn with
  | nil => exact .inl .nil
  | append_singleton l a ih =>
    rcases ih with h | ⟨pre, b, post, rfl, hpre, hb⟩
    · by_cases ha : Q l a
      · exact .inl (h.concat ha)
      · exact .inr ⟨l, a, [], rfl, h, ha⟩
    · exact .inr ⟨pre, b, post ++ [a], by rw [append_assoc, cons_append], hpre, hb⟩

/-- Where the loop stays at `a`, it has reached the elements before and `a` itself. -/
theorem mem_reached {b : α} (hpre : Passed Q pre) (ha : ¬Q pre a) :
    b ∈ pre ++ [a] ↔ ∃ done rest, pre ++ a :: post = done ++ b :: rest ∧ Passed Q done := by
  constructor
  · intro hb
    rcases mem_append.mp hb with hb | hb
    · obtain ⟨done, rest, rfl⟩ := append_of_mem hb
      exact ⟨done, rest ++ a :: post, by rw [append_assoc, cons_append], hpre.left⟩
    · obtain rfl := mem_singleton.mp hb
      exact ⟨pre, post, rfl, hpre⟩
  · rintro ⟨done, rest, hl, hdone⟩
    rcases append_eq_append_iff.mp hl with ⟨part, hdone', hpart⟩ | ⟨part, hpre', hpart⟩
    · cases part with
      | nil =>
        obtain ⟨rfl, -⟩ := List.cons.inj hpart
        exact mem_append_right _ mem_cons_self
      | cons c part =>
        -- the loop would have moved on from `a`
        obtain ⟨rfl, -⟩ := List.cons.inj hpart
        exact absurd (hdone _ _ _ hdone') ha
    · cases part with
      | nil =>
        obtain ⟨rfl, -⟩ := List.cons.inj hpart
        exact mem_append_right _ mem_cons_self
      | cons c part =>
        obtain ⟨rfl, -⟩ := List.cons.inj hpart
        exact mem_append_left _ (hpre' ▸ mem_append_right _ mem_cons_self)

/-- A loop that moves on while `Q` holds and otherwise stalls after one turn: it reaches the elements
    that have only elements to move on from before them. -/
theorem sweep_reaches (h0 : P [] s) (pass : ∀ done a rest s, l = done ++ a :: rest → P done s → Q done a →
      ∃ s', body a s = (.advance, s') ∧ P (done ++ [a]) s')
    (stall : ∀ done a rest s, l = done ++ a :: rest → P done s → ¬Q done a →
      ∃ s', body a s = (.stay, s') ∧ body a s' = (.stay, s') ∧ P (done ++ [a]) s') :
    ∃ reached s', (∀ b, b ∈ reached ↔ ∃ done rest, l = done ++ b :: rest ∧ Passed Q done) ∧
      P reached s' ∧ sweep body l.length l s = (true, s') := by
  rcases passed_or_stalls Q l with h | ⟨pre, a, post, rfl, hpre, ha⟩
  · obtain ⟨s', hP, hrun⟩ := sweep_all h0 fun done a rest s hl hP =>
      pass done a rest s hl hP (h done a rest hl)
    refine ⟨l, s', fun b => ⟨fun hb => ?_, ?_⟩, hP, hrun⟩
    · obtain ⟨done, rest, rfl⟩ := append_of_mem hb
      exact ⟨done, rest, rfl, h.left⟩
    · rintro ⟨done, rest, rfl, -⟩
      exact mem_append_right _ mem_cons_self
  · obtain ⟨s₁, hP₁, hrun⟩ := sweep_passes h0 (fun done b rest s (hdone : pre = done ++ b :: rest) hP =>
      pass done b (rest ++ a :: post) s (by rw [hdone, append_assoc, cons_append]) hP
        (hpre done b rest hdone)) (a :: post).length (a :: post)
    obtain ⟨s₂, hbody, hagain, hP₂⟩ := stall pre a post s₁ rfl hP₁ ha
    refine ⟨pre ++ [a], s₂, fun b => mem_reached hpre ha, hP₂, ?_⟩
    rw [length_append, hrun, length_cons, sweep_stay hbody, sweep_stalled hagain]

end

end PhoebusBsp.Schemes

import Mathlib.Data.Nat.Basic

/-! State-passing programs and the two ways the development reasons about them.

    `Prog σ α` runs on a state and returns a result and the next state. `Emits` says what a program
    appends to a log it keeps in its state, from the states of a precondition; `Runs` says
    what a program returns and what it leaves of the part of the state that a view shows. Both come
    with the rule for sequencing, which is all a straight-line function needs; a loop supplies its
    own induction and uses the rules for its body. -/

namespace PhoebusBsp.Schemes

variable {σ τ ε α β : Type}

/-- A program on states `σ` with result `α`. -/
def Prog (σ α : Type) : Type := σ → α × σ

namespace Prog

instance : Monad (Prog σ) where
  pure a := fun s => (a, s)
  bind m k := fun s => k (m s).1 (m s).2

/-- Read something off the state. -/
def read (f : σ → α) : Prog σ α := fun s => (f s, s)

/-- Change the state. -/
def modify (f : σ → σ) : Prog σ Unit := fun s => ((), f s)

@[simp] theorem pure_run (a : α) (s : σ) : (pure a : Prog σ α) s = (a, s) := rfl

@[simp] theorem bind_run (m : Prog σ α) (k : α → Prog σ β) (s : σ) :
    (m >>= k) s = k (m s).1 (m s).2 := rfl

@[simp] theorem read_run (f : σ → α) (s : σ) : read f s = (f s, s) := rfl

@[simp] theorem modify_run (f : σ → σ) (s : σ) : modify f s = ((), f s) := rfl

theorem ite_run (c : Prop) [Decidable c] (m m' : Prog σ α) (s : σ) :
    (if c then m else m') s = if c then m s else m' s := by
  split <;> rfl

theorem bind_assoc {γ : Type} (m : Prog σ α) (f : α → Prog σ β) (k : β → Prog σ γ) :
    ((m >>= f) >>= k) = m >>= fun a => f a >>= k := rfl

theorem pure_bind (a : α) (k : α → Prog σ β) : (pure a >>= k) = k a := rfl

/-! ### Programs that log -/

/-- From every state of `P`, the program appends some events `t` to the log and ends with a result,
    a state and events related by `Q`. -/
def Emits (log : σ → List ε) (P : σ → Prop) (m : Prog σ α) (Q : α → σ → List ε → Prop) : Prop :=
  ∀ s, P s → ∃ t, log (m s).2 = log s ++ t ∧ Q (m s).1 (m s).2 t

variable {log : σ → List ε} {P : σ → Prop} {Q : α → σ → List ε → Prop}

theorem Emits.pure (a : α) (h : ∀ s, P s → Q a s []) : Emits log P (Pure.pure a) Q :=
  fun s hs => ⟨[], (List.append_nil _).symm, h s hs⟩

theorem Emits.read (f : σ → α) (h : ∀ s, P s → Q (f s) s []) : Emits log P (Prog.read f) Q :=
  fun s hs => ⟨[], (List.append_nil _).symm, h s hs⟩

/-- A change of the state that leaves the log alone. -/
theorem Emits.modify {Q : Unit → σ → List ε → Prop} {f : σ → σ}
    (hlog : ∀ s, log (f s) = log s) (h : ∀ s, P s → Q () (f s) []) : Emits log P (Prog.modify f) Q :=
  fun s hs => ⟨[], by rw [List.append_nil]; exact hlog s, h s hs⟩

variable {m : Prog σ α}

/-- Sequencing: the second program starts where the first may end, and the events add up. -/
theorem Emits.bind {R : α → σ → List ε → Prop}
    {Q : β → σ → List ε → Prop} {k : α → Prog σ β} (hm : Emits log P m R)
    (hk : ∀ a t, Emits log (fun s => R a s t) (k a) fun b s u => Q b s (t ++ u)) : Emits log P (m >>= k) Q := by
  intro s hs
  obtain ⟨t, ht, hR⟩ := hm s hs
  obtain ⟨u, hu, hQ⟩ := hk _ t _ hR
  exact ⟨t ++ u, by rw [bind_run, hu, ht, List.append_assoc], hQ⟩

theorem Emits.ite {c : Prop}
    [Decidable c] {m' : Prog σ α} (h : c → Emits log P m Q) (h' : ¬c → Emits log P m' Q) :
    Emits log P (if c then m else m') Q := by
  split
  · exact h ‹c›
  · exact h' ‹¬c›

theorem Emits.weaken {P' : σ → Prop} {Q' : α → σ → List ε → Prop} (hm : Emits log P m Q) (hP : ∀ s, P' s → P s)
    (hQ : ∀ a s t, Q a s t → Q' a s t) : Emits log P' m Q' := by
  intro s hs
  obtain ⟨t, ht, h⟩ := hm s (hP s hs)
  exact ⟨t, ht, hQ _ _ _ h⟩

/-! ### Runs seen through a view -/

/-- From every state that looks like `v`, the program returns `a` and ends in a state that looks
    like `v'`. -/
def Runs (view : σ → τ) (m : Prog σ α) (v : τ) (a : α) (v' : τ) : Prop :=
  ∀ s, view s = v → (m s).1 = a ∧ view (m s).2 = v'

theorem Runs.pure {view : σ → τ} {v : τ} (a : α) : Runs view (Pure.pure a) v a v :=
  fun _ hs => ⟨rfl, hs⟩

theorem Runs.read {view : σ → τ} {v : τ} {f : σ → α} {a : α} (h : ∀ s, view s = v → f s = a) :
    Runs view (Prog.read f) v a v :=
  fun s hs => ⟨h s hs, hs⟩

theorem Runs.bind {view : σ → τ} {k : α → Prog σ β} {v v' v'' : τ} {a : α} {b : β}
    (hm : Runs view m v a v') (hk : Runs view (k a) v' b v'') : Runs view (m >>= k) v b v'' := by
  intro s hs
  obtain ⟨ha, hv⟩ := hm s hs
  rw [bind_run, ha]
  exact hk _ hv

/-- Sequencing, where only the result of what follows matters. -/
theorem Runs.leads {view : σ → τ} {k : α → Prog σ β} {v v' : τ} {a : α} {b : β} (hm : Runs view m v a v')
    (hk : ∀ s, view s = v' → (k a s).1 = b) (s : σ) (hs : view s = v) : ((m >>= k) s).1 = b := by
  obtain ⟨ha, hv⟩ := hm s hs
  rw [bind_run, ha]
  exact hk _ hv

end Prog

end PhoebusBsp.Schemes

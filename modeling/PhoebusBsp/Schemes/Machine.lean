import Mathlib.Data.List.Basic

/-! Machines driven by a list of events. An environment chooses the events; `Legal` says that each
    of them was allowed in the state it met. What every allowed step keeps, every legal run keeps. -/

namespace PhoebusBsp.Schemes

variable {σ ε : Type} {step : σ → ε → σ}

/-- The state after a list of events. -/
def run (step : σ → ε → σ) (s : σ) (es : List ε) : σ := es.foldl step s

/-- Every event is allowed in the state it meets. -/
def Legal (step : σ → ε → σ) (ok : σ → ε → Prop) : σ → List ε → Prop
  | _, [] => True
  | s, e :: es => ok s e ∧ Legal step ok (step s e) es

instance Legal.decidable (step : σ → ε → σ) (ok : σ → ε → Prop) [∀ s e, Decidable (ok s e)] :
    ∀ (s : σ) (es : List ε), Decidable (Legal step ok s es)
  | _, [] => .isTrue trivial
  | s, e :: es =>
    have := Legal.decidable step ok (step s e) es
    inferInstanceAs (Decidable (ok s e ∧ Legal step ok (step s e) es))

theorem legal_append {ok : σ → ε → Prop} {es es' : List ε} :
    ∀ {s : σ}, Legal step ok s (es ++ es') ↔ Legal step ok s es ∧ Legal step ok (run step s es) es' := by
  induction es with
  | nil => exact iff_of_eq (true_and _).symm
  | cons e es ih => exact (and_congr_right fun _ => ih).trans and_assoc.symm

/-- The invariant rule. -/
theorem run_invariant {ok : σ → ε → Prop} {Inv : σ → Prop} (hstep : ∀ s e, Inv s → ok s e → Inv (step s e)) :
    ∀ (es : List ε) (s : σ), Inv s → Legal step ok s es → Inv (run step s es)
  | [], _, hs, _ => hs
  | e :: es, s, hs, hl => run_invariant hstep es (step s e) (hstep s e hs hl.1) hl.2

/-- The invariant rule for a machine that takes every event. -/
theorem run_always {Inv : σ → Prop} (hstep : ∀ s e, Inv s → Inv (step s e)) :
    ∀ (es : List ε) (s : σ), Inv s → Inv (run step s es)
  | [], _, hs => hs
  | e :: es, s, hs => run_always hstep es (step s e) (hstep s e hs)

/-- What relates the events so far to the state. -/
theorem run_history {P : List ε → σ → Prop} {s : σ} (hs : P [] s)
    (hstep : ∀ es s e, P es s → P (es ++ [e]) (step s e)) (es : List ε) : P es (run step s es) := by
  suffices H : ∀ (es past : List ε) (s : σ), P past s → P (past ++ es) (run step s es) by
    exact H es [] s hs
  intro es
  induction es with
  | nil => intro past s h; rwa [List.append_nil]
  | cons e es ih =>
    intro past s h
    rw [List.append_cons]
    exact ih _ _ (hstep past s e h)

/-- A machine whose steps can fail keeps up with one whose steps cannot: as long as the events are allowed it goes
    on, and the two stay related, by a relation that may depend on the number of steps. -/
theorem foldlM_simulates {τ : Type} {step : σ → ε → Option σ} {abs : τ → ε → τ} {ok : σ → τ → ε → Prop}
    {A : σ → τ → List ε → Prop} {R : ℕ → σ → τ → Prop} {bound : ℕ}
    (hstep : ∀ {n s t} e, n ≤ bound → R n s t → ok s t e → ∃ s', step s e = some s' ∧ R (n + 1) s' (abs t e))
    (hok : ∀ {s t e es}, A s t (e :: es) → ok s t e ∧ ∀ s', step s e = some s' → A s' (abs t e) es)
    (es : List ε) {n : ℕ} {s : σ} {t : τ} (h : R n s t) (hes : A s t es) (hn : n + es.length ≤ bound) :
    ∃ s', es.foldlM step s = some s' ∧ R (n + es.length) s' (run abs t es) := by
  induction es generalizing n s t with
  | nil => exact ⟨s, rfl, h⟩
  | cons e es ih =>
    obtain ⟨he, hrest⟩ := hok hes
    obtain ⟨s₁, hs₁, h₁⟩ := hstep e (Nat.le_of_add_right_le hn) h he
    have hlength : n + (es.length + 1) = n + 1 + es.length := Nat.add_right_comm n es.length 1
    rw [List.length_cons, hlength] at hn ⊢
    obtain ⟨s', hs', h'⟩ := ih h₁ (hrest s₁ hs₁) hn
    refine ⟨s', ?_, h'⟩
    rw [List.foldlM_cons, hs₁]
    exact hs'

end PhoebusBsp.Schemes

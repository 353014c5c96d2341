import PhoebusBsp.Schemes.Chain

/-! A chain in which entries are changed one key after another. Every change goes to the first entry with the
    key, and a second change to it does nothing more, so the chain can be described entry by entry:

        keys b c b     a:1  b:2  c:3  b:4   ──▶   a:1  b:f 2  c:f 3  b:4 -/

namespace PhoebusBsp.Schemes.Chain
open List

variable {α β κ : Type} [DecidableEq κ] {key : α → κ} {f g : α → α} {k : κ} {ks : List κ} {l l' : List α}

/-- Change the first entry of each of the keys. -/
def retouch (key : α → κ) (f : α → α) : List κ → List α → List α
  | _, [] => []
  | ks, a :: l => (if key a ∈ ks then f a else a) :: retouch key f (ks.filter fun k => k ≠ key a) l

/-- What holds of the first entries of the keys, and of the others. -/
def Firsts (key : α → κ) (P Q : α → Prop) : List κ → List α → Prop
  | _, [] => True
  | ks, a :: l => (if key a ∈ ks then P a else Q a) ∧ Firsts key P Q (ks.filter fun k => k ≠ key a) l

instance Firsts.decidable {key : α → κ} {P Q : α → Prop} [DecidablePred P] [DecidablePred Q] :
    ∀ ks l, Decidable (Firsts key P Q ks l)
  | _, [] => .isTrue trivial
  | ks, a :: l =>
    have := @Firsts.decidable key P Q _ _ (ks.filter fun k => k ≠ key a) l
    inferInstanceAs (Decidable (_ ∧ _))

theorem update_cons {a : α} :
    update key k f (a :: l) = if key a = k then f a :: l else a :: update key k f l := by
  rfl

theorem length_update : (update key k f l).length = l.length := by
  induction l with
  | nil => rfl
  | cons a l ih =>
    rw [update_cons]
    split
    · rfl
    · rw [length_cons, length_cons, ih]

theorem foldl_update_cons (hkey : ∀ a, key (f a) = key a) (hidem : ∀ a, f (f a) = f a) (ks : List κ) (a : α)
    (l : List α) :
    ks.foldl (fun l k => update key k f l) (a :: l) = (if key a ∈ ks then f a else a) ::
      (ks.filter fun k => k ≠ key a).foldl (fun l k => update key k f l) l := by
  induction ks generalizing a l with
  | nil => simp
  | cons k ks ih =>
    rw [foldl_cons, update_cons]
    by_cases h : key a = k
    · rw [if_pos h, ih, hkey, hidem]
      simp [h]
    · rw [if_neg h, ih]
      simp [h, Ne.symm h]

/-- Changing entries one key after another. -/
theorem foldl_update_eq (hkey : ∀ a, key (f a) = key a) (hidem : ∀ a, f (f a) = f a) (ks : List κ) (l : List α) :
    ks.foldl (fun l k => update key k f l) l = retouch key f ks l := by
  induction l generalizing ks with
  | nil => exact List.foldlRecOn (motive := fun l => l = []) _ _ rfl fun l hl k _ => by rw [hl]; rfl
  | cons a l ih => rw [foldl_update_cons hkey hidem, ih, retouch]

/-- When the change cannot be seen. -/
theorem map_retouch_iff {φ : α → β} (hg : ∀ a, key (g a) = key a) (ks : List κ) (l : List α) :
    (retouch key f ks (l.map g)).map φ = l.map φ ↔
      Firsts key (fun a => φ (f (g a)) = φ a) (fun a => φ (g a) = φ a) ks l := by
  induction l generalizing ks with
  | nil => exact iff_of_true rfl trivial
  | cons a l ih =>
    rw [map_cons, retouch, hg, map_cons, map_cons, List.cons.injEq, ih, Firsts]
    refine and_congr_left fun _ => ?_
    split <;> rfl

theorem firsts_congr {P P' Q Q' : α → Prop} (hP : ∀ a, P a ↔ P' a) (hQ : ∀ a, Q a ↔ Q' a) :
    Firsts key P Q ks l ↔ Firsts key P' Q' ks l := by
  induction l generalizing ks with
  | nil => exact Iff.rfl
  | cons a l ih =>
    refine and_congr ?_ ih
    split
    · exact hP a
    · exact hQ a

/-- Chains that look the same have the same first entries. -/
theorem search_congr {φ : α → β} (hkey : ∀ a b, φ a = φ b → key a = key b) (h : l.map φ = l'.map φ) :
    (search key k l).map φ = (search key k l').map φ := by
  induction l generalizing l' with
  | nil =>
    rw [map_nil, eq_comm, map_eq_nil_iff] at h
    rw [h]
  | cons a l ih =>
    cases l' with
    | nil => cases h
    | cons b l' =>
      obtain ⟨hab, hl⟩ := List.cons.inj h
      rw [search_cons, search_cons, hkey a b hab]
      split
      · exact congrArg some hab
      · exact ih hl

end PhoebusBsp.Schemes.Chain

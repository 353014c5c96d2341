import Mathlib.Data.List.TakeWhile
import PhoebusBsp.Kconfig.Meaning

/-! The shape of lines: what stripping and the patterns see of a line that is put together from
    leading space, a keyword, a text and trailing space. -/

namespace PhoebusBsp.Kconfig
open Schemes BoolExpr List

/-- Only white space. -/
def Spaces (ws : Line) : Prop := ∀ c ∈ ws, isSpace c = true

/-- The first character is no white space. -/
def Starts (l : Line) : Prop := ∃ c ∈ l.head?, isSpace c = false

/-- The last character is no white space. -/
def Ends (l : Line) : Prop := ∃ c ∈ l.getLast?, isSpace c = false

theorem spaces_nil : Spaces [] := fun _ h => absurd h not_mem_nil

/-! ### Stripping -/

variable {l : Line}

theorem lstrip_append {ws : Line} (hws : Spaces ws) (hl : Starts l) : lstrip (ws ++ l) = l := by
  induction ws with
  | nil =>
    obtain ⟨c, hc, hs⟩ := hl
    cases l with
    | nil => cases hc
    | cons d ds =>
      obtain rfl : d = c := by simpa using hc
      simp [lstrip, hs]
  | cons c ws ih =>
    rw [cons_append, lstrip, dropWhile_cons_of_pos (hws c mem_cons_self)]
    exact ih fun d hd => hws d (mem_cons_of_mem _ hd)

theorem lstrip_starts (hl : Starts l) : lstrip l = l :=
  lstrip_append spaces_nil hl

theorem Ends.reverse_starts (h : Ends l) : Starts l.reverse := by
  obtain ⟨c, hc, hs⟩ := h
  exact ⟨c, by rwa [List.head?_reverse], hs⟩

/-- Space at the end of a text that ends in something else is what `rstrip` removes. -/
theorem rstrip_append {trail : Line} (hl : Ends l) (ht : Spaces trail) :
    rstrip (l ++ trail) = l := by
  have hdrop : (trail.reverse ++ l.reverse).dropWhile isSpace = l.reverse :=
    lstrip_append (fun c hc => ht c (mem_reverse.mp hc)) hl.reverse_starts
  rw [rstrip, reverse_append, hdrop, reverse_reverse]

theorem Ends.append (h : Ends l) (a : Line) : Ends (a ++ l) := by
  obtain ⟨c, hc, hs⟩ := h
  exact ⟨c, by rw [Option.mem_def, List.getLast?_append, Option.mem_def.mp hc]; rfl, hs⟩

theorem Starts.append (h : Starts l) (a : Line) : Starts (l ++ a) := by
  obtain ⟨c, hc, hs⟩ := h
  cases l with
  | nil => cases hc
  | cons d ds => exact ⟨c, hc, hs⟩

/-- Stripped of the space around it, a text is itself. -/
theorem strip_append {ws trail : Line} (hws : Spaces ws) (hs : Starts l) (he : Ends l)
    (ht : Spaces trail) : strip (ws ++ l ++ trail) = l := by
  rw [strip, append_assoc, lstrip_append hws (hs.append trail), rstrip_append he ht]

/-- What is left of a text after stripping starts and ends with something. -/
theorem lstrip_starts_of_ne (h : lstrip l ≠ []) : Starts (lstrip l) := by
  cases hl : lstrip l with
  | nil => exact absurd hl h
  | cons c cs =>
    refine ⟨c, rfl, ?_⟩
    have hne : l.dropWhile isSpace ≠ [] := h
    have hdrop : l.dropWhile isSpace = c :: cs := hl
    have hhead := head_dropWhile_not isSpace hne
    simpa [hdrop] using hhead

/-- Every text is its stripped end and some space. -/
theorem rstrip_spec (l : Line) : ∃ trail, Spaces trail ∧ l = rstrip l ++ trail := by
  refine ⟨(l.reverse.takeWhile isSpace).reverse, fun c hc => ?_, ?_⟩
  · exact mem_takeWhile_imp (mem_reverse.mp hc)
  · rw [rstrip, ← reverse_append, takeWhile_append_dropWhile, reverse_reverse]

theorem rstrip_ends_of_ne (h : rstrip l ≠ []) : Ends (rstrip l) := by
  have hne : lstrip l.reverse ≠ [] := by
    intro h0
    have hdrop : l.reverse.dropWhile isSpace = [] := h0
    apply h
    rw [rstrip, hdrop]
    rfl
  obtain ⟨c, hc, hs⟩ := lstrip_starts_of_ne hne
  exact ⟨c, by rw [rstrip, List.getLast?_reverse]; exact hc, hs⟩

/-- `rstrip` does not reach over a text that ends in something. -/
theorem rstrip_append_of_ends {a : Line} (ha : Ends a) (b : Line) :
    rstrip (a ++ b) = a ++ rstrip b := by
  obtain ⟨trail, ht, hb⟩ := rstrip_spec b
  have hends : Ends (a ++ rstrip b) := by
    by_cases h : rstrip b = []
    · rwa [h, append_nil]
    · exact (rstrip_ends_of_ne h).append a
  nth_rewrite 1 [hb]
  rw [← append_assoc, rstrip_append hends ht]

theorem strip_trimmed (h : strip l ≠ []) : Starts (strip l) ∧ Ends (strip l) := by
  refine ⟨?_, rstrip_ends_of_ne h⟩
  have hne : lstrip l ≠ [] := by
    intro h0
    exact h (by rw [strip, h0]; rfl)
  obtain ⟨trail, _, heq⟩ := rstrip_spec (lstrip l)
  obtain ⟨c, hc, hs⟩ := lstrip_starts_of_ne hne
  refine ⟨c, ?_, hs⟩
  cases hr : rstrip (lstrip l) with
  | nil => exact absurd hr h
  | cons d ds =>
    rw [hr] at heq
    rw [heq] at hc
    rw [strip, hr]
    exact hc

/-! ### Keywords -/

theorem startsWith_iff {p : Line} : startsWith p l = true ↔ ∃ r, l = p ++ r := by
  rw [startsWith, isPrefixOf_iff_prefix]
  exact ⟨fun ⟨r, h⟩ => ⟨r, h.symm⟩, fun ⟨r, h⟩ => ⟨r, h.symm⟩⟩

theorem afterWord_append {ws word r : Line} {c : Char} (hws : Spaces ws) (hword : Starts word)
    (hc : isSpace c = true) : afterWord word (ws ++ (word ++ c :: r)) = some (lstrip r) := by
  simp only [afterWord]
  rw [lstrip_append hws (hword.append _), if_pos (startsWith_iff.mpr ⟨_, rfl⟩),
    drop_left]
  simp [hc]

/-- What the pattern sees, the line has. -/
theorem afterWord_eq_some {word r : Line} (h : afterWord word l = some r) :
    ∃ c r', lstrip l = word ++ c :: r' ∧ isSpace c = true ∧ r = lstrip r' := by
  simp only [afterWord] at h
  split at h
  · next hs =>
    obtain ⟨x, hx⟩ := startsWith_iff.mp hs
    rw [hx, drop_left] at h
    match x, hx with
    | [], _ => cases h
    | c :: r', hx =>
      simp only at h
      split at h
      · next hc => exact ⟨c, r', hx, hc, (Option.some.inj h).symm⟩
      · cases h
  · cases h

theorem afterWord_eq_none {a b : Char} {w r : Line} (hl : lstrip l = a :: r) (hab : a ≠ b) :
    afterWord (b :: w) l = none := by
  by_contra hne
  obtain ⟨x, hx⟩ := Option.ne_none_iff_exists'.mp hne
  obtain ⟨c', r', hl', -, -⟩ := afterWord_eq_some hx
  rw [hl] at hl'
  exact hab (List.cons.inj hl').1

/-- A line has one keyword. -/
theorem afterWord_exclusive {a b : Char} {v w : Line} (hab : a ≠ b)
    (h : (afterWord (a :: v) l).isSome = true) : afterWord (b :: w) l = none := by
  obtain ⟨r, hr⟩ := Option.isSome_iff_exists.mp h
  obtain ⟨c, r', hl, -, -⟩ := afterWord_eq_some hr
  exact afterWord_eq_none hl hab

theorem dependsMatch_select (h : isSelect l = true) : dependsMatch l = none :=
  afterWord_exclusive (a := 's') (b := 'd') (by decide) h

theorem configMatch_word {word : Char → Bool} {sym : Line} (h : configMatch word l = some sym) :
    (afterWord "config".toList l).isSome = true := by
  unfold configMatch at h
  split at h
  · cases h
  · next hr => rw [hr]; rfl

theorem dependsMatch_config {word : Char → Bool} {sym : Line} (h : configMatch word l = some sym) :
    dependsMatch l = none :=
  afterWord_exclusive (a := 'c') (b := 'd') (by decide) (configMatch_word h)

theorem isSelect_config {word : Char → Bool} {sym : Line} (h : configMatch word l = some sym) : isSelect l = false := by
  have hnone : afterWord "select".toList l = none :=
    afterWord_exclusive (a := 'c') (b := 's') (by decide) (configMatch_word h)
  rw [isSelect, hnone]
  rfl

theorem lstrip_spec (l : Line) : ∃ ws, Spaces ws ∧ l = ws ++ lstrip l :=
  ⟨l.takeWhile isSpace, fun _ hc => mem_takeWhile_imp hc,
    takeWhile_append_dropWhile.symm⟩

/-- A `select` line keeps its keyword when it is guarded. -/
theorem lstrip_guarded {ln : Line} (hs : isSelect ln = true) (guard : Option Line) :
    ∃ r, lstrip (guarded guard ln) = 's' :: r := by
  obtain ⟨r, hr⟩ := Option.isSome_iff_exists.mp hs
  obtain ⟨c, r', hl, -, -⟩ := afterWord_eq_some hr
  unfold guarded
  split
  · exact ⟨_, hl⟩
  split
  · exact ⟨_, hl⟩
  · obtain ⟨ws, hws, hln⟩ := lstrip_spec ln
    rw [hl, ← append_assoc] at hln
    have hends : Ends (ws ++ "select".toList) := Ends.append ⟨'t', rfl, by decide⟩ ws
    rw [hln, rstrip_append_of_ends hends, append_assoc, append_assoc, append_assoc]
    exact ⟨_, lstrip_append hws ⟨'s', rfl, by decide⟩⟩

/-- A guarded `select` is no `depends on` line. -/
theorem dependsMatch_guarded {ln : Line} (hs : isSelect ln = true) (guard : Option Line) :
    dependsMatch (guarded guard ln) = none := by
  obtain ⟨r, hr⟩ := lstrip_guarded hs guard
  exact afterWord_eq_none hr (by decide)

end PhoebusBsp.Kconfig

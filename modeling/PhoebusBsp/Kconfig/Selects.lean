import Mathlib.Data.List.Infix
import PhoebusBsp.Kconfig.Visibility

/-! What the merged entry of a group selects.

    A `select` without a condition gets the guard of its entry. One that has a condition keeps it, and
    the guard is lost:

        depends on A            select S if C     (A)
        select S if C    ──▶    select T if (A)
        select T

    So a conditional `select` takes effect in the merged entry wherever its own condition holds. Whether
    there is a condition is decided by looking for `" if "`, though Kconfig takes any blanks. -/

namespace PhoebusBsp.Kconfig
open Schemes BoolExpr List

/-! ### The two forms of a line -/

def IsSymbol (w : Line) : Prop := w ≠ [] ∧ ∀ c ∈ w, isSymChar c = true

/-- `select S` or `select S if C`, with the symbol and what is behind `if`, if there is a condition. -/
inductive SelectLine : Line → Line → Option Line → Prop
  | plain {ws gap sym trail : Line} (hws : Spaces ws) (hgap : Spaces gap) (hne : gap ≠ [])
      (hsym : IsSymbol sym) (ht : Spaces trail) :
      SelectLine (ws ++ ("select".toList ++ (gap ++ sym)) ++ trail) sym none
  | cond {ws gap sym gap' text trail : Line} (hws : Spaces ws) (hgap : Spaces gap) (hne : gap ≠ [])
      (hsym : IsSymbol sym) (hgap' : Spaces gap') (hne' : gap' ≠ []) (hif : text.head?.any isSymChar = false)
      (htext : Ends text) (ht : Spaces trail) :
      SelectLine (ws ++ ("select".toList ++ (gap ++ (sym ++ (gap' ++ ("if".toList ++ text))))) ++ trail)
        sym (some text)

theorem space_of_symChar {c : Char} (h : isSymChar c = true) : isSpace c = false := by
  have hn : c.toNat = 45 ∨ (48 ≤ c.toNat ∧ c.toNat ≤ 57) ∨ (65 ≤ c.toNat ∧ c.toNat ≤ 90) ∨
      c.toNat = 95 ∨ (97 ≤ c.toNat ∧ c.toNat ≤ 122) := by
    have hupper : c.isUpper = decide (c.val ≥ 65 ∧ c.val ≤ 90) := rfl
    have hlower : c.isLower = (decide (c.val ≥ 97) && decide (c.val ≤ 122)) := rfl
    have halpha : c.isAlpha = (c.isUpper || c.isLower) := rfl
    simp only [isSymChar, Char.isAlphanum, halpha, hupper, hlower, Char.isDigit,
      Bool.or_eq_true, Bool.and_eq_true, decide_eq_true_eq, beq_iff_eq, ge_iff_le,
      UInt32.le_iff_toNat_le] at h
    rcases h with (((h | h) | h) | rfl) | rfl
    · exact Or.inr (Or.inr (Or.inl h))
    · exact Or.inr (Or.inr (Or.inr (Or.inr h)))
    · exact Or.inr (Or.inl h)
    · exact Or.inr (Or.inr (Or.inr (Or.inl rfl)))
    · exact Or.inl rfl
  simp only [isSpace, Bool.or_eq_false_iff, Bool.and_eq_false_iff, decide_eq_false_iff_not,
    beq_eq_false_iff_ne]
  omega

theorem IsSymbol.starts {w : Line} (h : IsSymbol w) : Starts w := by
  obtain ⟨hne, hall⟩ := h
  cases w with
  | nil => exact absurd rfl hne
  | cons c cs => exact ⟨c, rfl, space_of_symChar (hall c mem_cons_self)⟩

theorem IsSymbol.ends {w : Line} (h : IsSymbol w) : Ends w :=
  ⟨w.getLast h.1, List.getLast?_eq_some_getLast h.1,
    space_of_symChar (h.2 _ (getLast_mem h.1))⟩

/-- The symbol is what `selectOf` cuts off first. -/
theorem IsSymbol.span {w tail : Line} (h : IsSymbol w) (ht : tail.head?.any isSymChar = false) :
    (w ++ tail).takeWhile isSymChar = w ∧ (w ++ tail).dropWhile isSymChar = tail := by
  have htail : tail.takeWhile isSymChar = [] ∧ tail.dropWhile isSymChar = tail := by
    cases tail with
    | nil => exact ⟨rfl, rfl⟩
    | cons c cs => simp_all
  rw [takeWhile_append_of_pos h.2, dropWhile_append_of_pos h.2, htail.1, htail.2,
    append_nil]
  exact ⟨rfl, rfl⟩

/-! ### How they are read -/

/-- `selectOf` sees a line without the space around it. -/
theorem selectOf_congr {l l' : Line} (h : strip l = strip l') : selectOf l = selectOf l' := by
  rw [selectOf, selectOf, h]

theorem afterWord_gap {word gap r : Line} (hword : Starts word) (hgap : Spaces gap)
    (hne : gap ≠ []) (hr : Starts r) : afterWord word (word ++ (gap ++ r)) = some r := by
  obtain ⟨c, cs, rfl⟩ := exists_cons_of_ne_nil hne
  have h := afterWord_append (c := c) (r := cs ++ r) spaces_nil hword (hgap c mem_cons_self)
  rw [lstrip_append (fun d hd => hgap d (mem_cons_of_mem _ hd)) hr] at h
  exact h

section Reading

variable {l sym : Line} {c : Option Line}

/-- The line without the space around it. -/
theorem SelectLine.strip (h : SelectLine l sym c) :
    ∃ gap tail, Spaces gap ∧ gap ≠ [] ∧ IsSymbol sym ∧
      Kconfig.strip l = "select".toList ++ (gap ++ (sym ++ tail)) ∧
      match c with
      | none => tail = []
      | some text => text.head?.any isSymChar = false ∧
          ∃ gap', Spaces gap' ∧ gap' ≠ [] ∧ tail = gap' ++ ("if".toList ++ text) := by
  have hs : ∀ r, Starts ("select".toList ++ r) := fun r => Starts.append ⟨'s', rfl, by decide⟩ r
  cases h with
  | plain hws hgap hne hsym ht =>
    refine ⟨_, [], hgap, hne, hsym, ?_, rfl⟩
    rw [append_nil, strip_append hws (hs _) ((hsym.ends.append _).append _) ht]
  | cond hws hgap hne hsym hgap' hne' hif htext ht =>
    refine ⟨_, _, hgap, hne, hsym, ?_, hif, _, hgap', hne', rfl⟩
    exact strip_append hws (hs _)
      (((((htext.append _).append _).append _).append _).append _) ht

/-- The symbol and the condition of a line are what `selectOf` reads. -/
theorem SelectLine.selectOf (h : SelectLine l sym c) :
    Kconfig.selectOf l = some (sym, c) := by
  obtain ⟨gap, tail, hgap, hne, hsym, hstrip, htail⟩ := h.strip
  have hword : afterWord "select".toList (Kconfig.strip l) = some (sym ++ tail) := by
    rw [hstrip]
    exact afterWord_gap ⟨'s', rfl, by decide⟩ hgap hne (hsym.starts.append tail)
  cases c with
  | none =>
    obtain rfl : tail = [] := htail
    obtain ⟨htake, hdrop⟩ := @IsSymbol.span sym [] hsym rfl
    simp only [Kconfig.selectOf, hword, htake, hdrop, if_neg hsym.1]
    rfl
  | some text =>
    obtain ⟨hif, gap', hgap', hne', rfl⟩ := htail
    have hhead : (gap' ++ ("if".toList ++ text)).head?.any isSymChar = false := by
      obtain ⟨d, ds, rfl⟩ := exists_cons_of_ne_nil hne'
      by_contra hd
      have := space_of_symChar (c := d) (by simpa using hd)
      simp [hgap' d mem_cons_self] at this
    obtain ⟨htake, hdrop⟩ := hsym.span hhead
    have hrest : lstrip (gap' ++ ("if".toList ++ text)) = "if".toList ++ text :=
      lstrip_append hgap' ⟨'i', rfl, by decide⟩
    simp only [Kconfig.selectOf, hword, htake, hdrop, hrest, if_neg hsym.1]
    show (if (!text.head?.any isSymChar) = true then some (sym, some text) else none) = some (sym, some text)
    rw [hif]
    rfl

/-- The space between `if` and the guard does not matter. -/
theorem holds_guard (ρ : Line → Bool) (c guard : Option Line) :
    (∀ t ∈ c.or (guard.map (' ' :: ·)), Holds ρ t) ↔ ∀ t ∈ c.or guard, Holds ρ t := by
  have hlex : ∀ text, Holds ρ (' ' :: text) ↔ Holds ρ text := fun text => by
    rw [Holds, Holds, Kconfig.cond, Kconfig.cond, lex_cons, if_pos (by decide)]
  cases c <;> cases guard <;> simp [hlex]

end Reading

/-- Only a `select` line is read as one. -/
theorem isSelect_of_selectOf {l : Line} (h : selectOf l ≠ none) : isSelect l = true := by
  have hstrip : ∃ r, afterWord "select".toList (strip l) = some r := by
    refine Option.ne_none_iff_exists'.mp fun hno => h ?_
    rw [selectOf, hno]
  obtain ⟨r, hr⟩ := hstrip
  obtain ⟨c, r', hl, hc, -⟩ := afterWord_eq_some hr
  have hne : strip l ≠ [] := by
    intro h0
    rw [h0] at hl
    cases hl
  rw [lstrip_starts (strip_trimmed hne).1] at hl
  obtain ⟨ws, hws, hlead⟩ := lstrip_spec l
  obtain ⟨trail, -, htrail⟩ := rstrip_spec (lstrip l)
  have hline : l = ws ++ ("select".toList ++ c :: (r' ++ trail)) := by
    rw [hlead, htrail, show rstrip (lstrip l) = _ from hl, append_assoc]
    rfl
  rw [hline, isSelect, afterWord_append hws ⟨'s', rfl, by decide⟩ hc]
  rfl

/-! ### Guarding -/

theorem contains_iff {p l : Line} : contains p l = true ↔ p <:+: l := by
  rw [contains, any_eq_true, infix_iff_prefix_suffix]
  simp only [mem_tails, startsWith, isPrefixOf_iff_prefix]
  constructor
  · rintro ⟨t, hs, hp⟩
    exact ⟨t, hp, hs⟩
  · rintro ⟨t, hp, hs⟩
    exact ⟨t, hs, hp⟩

theorem space_mem_lstrip (a b : Line) : ' ' ∈ lstrip (a ++ (" if ".toList ++ b)) := by
  induction a with
  | nil => exact mem_cons_of_mem 'i' (mem_cons_of_mem 'f' mem_cons_self)
  | cons c cs ih =>
    rw [cons_append, lstrip, dropWhile_cons]
    split
    · exact ih
    · exact mem_cons_of_mem _ (mem_append_right _ mem_cons_self)

/-- A text with `" if "` in it has a space after its first two words. -/
theorem space_mem_third (a b : Line) :
    ' ' ∈ lstrip ((a ++ (" if ".toList ++ b)).dropWhile fun c => !isSpace c) := by
  induction a with
  | nil => exact space_mem_lstrip [] b
  | cons c cs ih =>
    rw [cons_append, dropWhile_cons]
    split
    · exact ih
    · exact space_mem_lstrip (c :: cs) b

/-- `select S` has no third word. -/
theorem contains_if_plain {gap sym : Line} (hgap : Spaces gap) (hne : gap ≠ [])
    (hsym : IsSymbol sym) : contains " if ".toList ("select".toList ++ (gap ++ sym)) = false := by
  by_contra hc
  obtain ⟨a, b, hab⟩ := contains_iff.mp (Bool.not_eq_false _ ▸ hc)
  have hmem := space_mem_third a b
  rw [← append_assoc, hab] at hmem
  have hdrop : ("select".toList ++ (gap ++ sym)).dropWhile (fun c => !isSpace c) = gap ++ sym := by
    obtain ⟨c, cs, rfl⟩ := exists_cons_of_ne_nil hne
    rw [dropWhile_append_of_pos (by simp [isSpace]), cons_append, dropWhile_cons_of_neg]
    simp [hgap c mem_cons_self]
  rw [hdrop, lstrip_append hgap hsym.starts] at hmem
  exact absurd (hsym.2 _ hmem) (by decide)

/-- A `select` keeps its own condition, if the code sees it; without one it gets the guard. -/
theorem SelectLine.guarded {l sym : Line} {c guard : Option Line} (h : SelectLine l sym c)
    (hseen : c ≠ none → contains " if ".toList (Kconfig.strip l) = true) (hguard : ∀ e ∈ guard, Ends e) :
    SelectLine (Kconfig.guarded guard l) sym (c.or (guard.map (' ' :: ·))) := by
  cases guard with
  | none => simpa [Kconfig.guarded] using h
  | some e =>
    cases h with
    | @plain ws gap sym trail hws hgap hne hsym ht =>
      have hs : Starts ("select".toList ++ (gap ++ sym)) := Starts.append ⟨'s', rfl, by decide⟩ _
      have he : Ends ("select".toList ++ (gap ++ sym)) := (hsym.ends.append _).append _
      have hno := contains_if_plain hgap hne hsym
      have hblank : Spaces [' '] := by simp [Spaces, isSpace]
      have hline := SelectLine.cond hws hgap hne hsym hblank (by simp)
        (rfl : (' ' :: e).head?.any isSymChar = false) ((hguard e rfl).append [' ']) spaces_nil
      simp only [Kconfig.guarded, strip_append hws hs he ht, rstrip_append (he.append ws) ht, hno]
      simpa using hline
    | cond hws hgap hne hsym hgap' hne' hif htext ht =>
      simp only [Kconfig.guarded, hseen (by simp), if_true]
      exact .cond hws hgap hne hsym hgap' hne' hif htext ht

/-! ### What is selected -/

/-- Every `select` line of the group has one of the two forms. -/
def SelectsWellFormed (entries : List (List Line)) : Prop :=
  ∀ ent ∈ entries, ∀ l ∈ ent, isSelect l = true → ∃ sym c, SelectLine l sym c

/-- The code sees every condition: there is `" if "` in the line. -/
def ConditionsSeen (entries : List (List Line)) : Prop :=
  ∀ ent ∈ entries, ∀ l ∈ ent, ∀ sym text, SelectLine l sym (some text) → contains " if ".toList (strip l) = true

section Selects

variable {sym : Line} {entries : List (List Line)}

theorem selects_iff (hsel : SelectsWellFormed entries) {ent : List Line} (hent : ent ∈ entries)
    (ρ : Line → Bool) (s : Line) :
    Selects ρ ent s ↔ ∃ l ∈ ent, ∃ c, SelectLine l s c ∧ ∀ t ∈ c, Holds ρ t := by
  constructor
  · rintro ⟨l, hl, c, hof, hc⟩
    obtain ⟨s', c', hline⟩ := hsel ent hent l hl (isSelect_of_selectOf (by simp [hof]))
    rw [hline.selectOf, Option.some.injEq, Prod.mk.injEq] at hof
    obtain ⟨rfl, rfl⟩ := hof
    exact ⟨l, hl, c', hline, hc⟩
  · rintro ⟨l, hl, c, hline, hc⟩
    exact ⟨l, hl, _, hline.selectOf, hc⟩

theorem ownExpr_ends {ent : List Line} : ∀ e ∈ ownExpr ent, Ends e := by
  intro e he
  unfold ownExpr at he
  split at he
  · cases he
  · next hne =>
    obtain rfl := Option.some.inj he
    refine (intercalate_trimmed (by simpa using hne) fun l hl => ?_).2
    obtain ⟨d, -, rfl⟩ := mem_map.mp hl
    exact paren_trimmed d

theorem isSelect_dependsLine {config l : Line} {ds : List Line} (h : l ∈ dependsLine config ds) :
    isSelect l = false := by
  unfold dependsLine at h
  split at h
  · cases h
  · rw [mem_singleton.mp h, append_assoc]
    have hws : Spaces (config.takeWhile isSpace) := fun _ hc => mem_takeWhile_imp hc
    have hl := lstrip_append (l := "depends on ".toList ++ joinDepends ds) hws ⟨'d', rfl, by decide⟩
    have hno : afterWord "select".toList _ = none := afterWord_eq_none hl (by decide)
    rw [isSelect, hno]
    rfl

/-- The merged entry selects by the lines of all entries, each under its own condition or else
    under the guard of its entry. -/
theorem Group.selects_merged (hg : Group sym entries) (hsel : SelectsWellFormed entries)
    (hseen : ConditionsSeen entries) :
    ∃ merged, mergeGroup entries = some merged ∧ ∀ ρ s, Selects ρ merged s ↔
      ∃ ent ∈ entries, ∃ l ∈ ent, ∃ c, SelectLine l s c ∧ ∀ t ∈ c.or (ownExpr ent), Holds ρ t := by
  obtain ⟨config, body, hm, hlines⟩ := hg.merged
  have hkept : ∀ {ent l s c}, ent ∈ entries → l ∈ ent → SelectLine l s c →
      selectOf (guarded (ownExpr ent) l) = some (s, c.or ((ownExpr ent).map (' ' :: ·))) := by
    intro ent l s c hent hl hline
    refine (hline.guarded (fun hc => ?_) ownExpr_ends).selectOf
    obtain ⟨text, rfl⟩ := Option.ne_none_iff_exists'.mp hc
    exact hseen ent hent l hl s text hline
  refine ⟨_, hm, fun ρ s => ⟨?_, ?_⟩⟩
  · rintro ⟨l, hl, c, hof, hc⟩
    have hs : isSelect l = true := isSelect_of_selectOf (by simp [hof])
    -- a `select` line of the merged entry is none of the others
    have hmem : l ∈ (collect entries).selects := by
      rcases mem_cons.mp hl with rfl | hl
      · rw [(hlines l mem_cons_self).2] at hs
        cases hs
      rcases mem_append.mp hl with hl | hl
      · rcases mem_append.mp hl with hl | hl
        · rw [isSelect_dependsLine hl] at hs
          cases hs
        · rw [(hlines l (mem_cons_of_mem _ hl)).2] at hs
          cases hs
      · exact hl
    obtain ⟨ent, hent, ln, hln, hsln, rfl⟩ := mem_selects hmem
    obtain ⟨s', c', hline⟩ := hsel ent hent ln hln hsln
    rw [hkept hent hln hline, Option.some.injEq, Prod.mk.injEq] at hof
    obtain ⟨rfl, rfl⟩ := hof
    exact ⟨ent, hent, ln, hln, c', hline, (holds_guard ρ _ _).mp hc⟩
  · rintro ⟨ent, hent, ln, hln, c, hline, hc⟩
    have hs : isSelect ln = true := isSelect_of_selectOf (by simp [hline.selectOf])
    -- its text may have been there already: then a line with the same text stands for it
    obtain ⟨it, hit, rfl, hguard⟩ := exists_item hent hln
    have hseen := (collect_collected entries).complete it hit hs
    rw [(collect_collected entries).seen] at hseen
    obtain ⟨l, hl, hstrip⟩ := mem_map.mp hseen
    rw [hguard] at hstrip
    have hof := (selectOf_congr hstrip).trans (hkept hent hln hline)
    exact ⟨l, mem_cons_of_mem _ (mem_append_right _ hl), _, hof, (holds_guard ρ _ _).mpr hc⟩

/-- A conditional `select` whose condition holds is for a symbol that a visible entry selects. -/
def ConditionsGuarded (ρ : Line → Bool) (entries : List (List Line)) : Prop :=
  ∀ ent ∈ entries, ∀ l ∈ ent, ∀ s text, SelectLine l s (some text) → Holds ρ text →
    ∃ ent' ∈ entries, Visible ρ ent' ∧ Selects ρ ent' s

end Selects

/-- The first entry has a conditional `select`. -/
def conditional : List (List Line) :=
  [["config X".toList, "depends on A".toList, "select S if C".toList],
    ["config X".toList, "depends on B".toList]]

theorem conditional_group : Group "X".toList conditional where
  several := by decide
  config := by
    intro ent hent
    simp only [conditional, mem_cons, not_mem_nil, or_false] at hent
    rcases hent with rfl | rfl
    · exact ⟨_, _, rfl, by decide⟩
    · exact ⟨_, _, rfl, by decide⟩

theorem conditional_wellFormed : ∀ ent ∈ conditional, ∀ d ∈ own ent, WellFormed d := by
  intro ent hent d hd
  have hmem : d ∈ conditional.flatMap own := mem_flatMap.mpr ⟨ent, hent, hd⟩
  have hown : conditional.flatMap own = [['A'], ['B']] := by decide
  rw [hown] at hmem
  simp only [mem_cons, not_mem_nil, or_false] at hmem
  rcases hmem with rfl | rfl
  · exact wellFormed_symbol _ (by decide)
  · exact wellFormed_symbol _ (by decide)

theorem conditional_select {ent : List Line} (hent : ent ∈ conditional) {l : Line} (hl : l ∈ ent)
    (hs : isSelect l = true) : l = "select S if C".toList := by
  have hmem : l ∈ (conditional.flatten).filter isSelect :=
    mem_filter.mpr ⟨mem_flatten.mpr ⟨ent, hent, hl⟩, hs⟩
  have hlines : (conditional.flatten).filter isSelect = ["select S if C".toList] := by decide
  rwa [hlines, mem_singleton] at hmem

theorem conditional_selects : SelectsWellFormed conditional := by
  intro ent hent l hl hs
  have hblank : Spaces [' '] := by simp [Spaces, isSpace]
  have hline : SelectLine "select S if C".toList ['S'] (some [' ', 'C']) :=
    @SelectLine.cond [] [' '] ['S'] [' '] [' ', 'C'] [] spaces_nil hblank (by simp)
      ⟨by simp, forall_mem_singleton.mpr rfl⟩ hblank (by simp) rfl ⟨'C', rfl, by decide⟩ spaces_nil
  exact ⟨['S'], some [' ', 'C'], conditional_select hent hl hs ▸ hline⟩

theorem conditional_seen : ConditionsSeen conditional := by
  intro ent hent l hl sym text hline
  rw [conditional_select hent hl (isSelect_of_selectOf (by simp [hline.selectOf]))]
  decide

end PhoebusBsp.Kconfig

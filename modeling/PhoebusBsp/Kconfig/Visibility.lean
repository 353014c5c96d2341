import PhoebusBsp.Kconfig.Lines
import PhoebusBsp.Schemes.Machine

/-! When the merged entry of a group is visible.

    `merge_group` ORs all `depends on` lines of all entries. That is the visibility of the group when
    each entry has one such line. With several lines in an entry, one of them is enough to make the
    merged entry visible; with an entry that has none beside one that has some, the merged entry is
    hidden where no line holds. -/

namespace PhoebusBsp.Kconfig
open Schemes BoolExpr List

/-! ### What the loops collect -/

/-- One turn of the inner loop: the line, whether it is in the first entry, and the guard of its
    entry. -/
structure Item where
  first : Bool
  guard : Option Line
  ln : Line

def itemsOf (first : Bool) (ent : List Line) : List Item := ent.map fun ln => ⟨first, ownExpr ent, ln⟩

def items : List (List Line) → List Item
  | [] => []
  | ent :: rest => itemsOf true ent ++ rest.flatMap (itemsOf false)

def addItem (acc : Acc) (it : Item) : Acc := addLine it.first it.guard acc it.ln

theorem addEntry_eq (first : Bool) (acc : Acc) (ent : List Line) :
    addEntry first acc ent = run addItem acc (itemsOf first ent) := by
  rw [addEntry, run, itemsOf, foldl_map]
  rfl

theorem collect_eq (entries : List (List Line)) :
    collect entries = run addItem ⟨[], [], [], []⟩ (items entries) := by
  have hrest : ∀ (rest : List (List Line)) (acc : Acc),
      rest.foldl (addEntry false) acc = run addItem acc (rest.flatMap (itemsOf false)) := by
    intro rest
    induction rest with
    | nil => intro acc; rfl
    | cons ent rest ih =>
      intro acc
      rw [foldl_cons, ih, addEntry_eq, flatMap_cons, run, run, run, ← foldl_append]
  cases entries with
  | nil => rfl
  | cons ent rest =>
    rw [collect, hrest, addEntry_eq, items, run, run, run, ← foldl_append]

/-- A line that stays in the body of the merged entry. -/
def isBody (ln : Line) : Bool := (dependsMatch ln).isNone && !isSelect ln

/-- What the four collections hold after some turns. -/
structure Collected (its : List Item) (acc : Acc) : Prop where
  out : acc.out = (its.filter fun it => it.first && isBody it.ln).map Item.ln
  depends : ∀ d, d ∈ acc.depends ↔ d ≠ [] ∧ ∃ it ∈ its, (dependsMatch it.ln).map strip = some d
  seen : acc.seenSelect = acc.selects.map strip
  sound : ∀ l ∈ acc.selects, ∃ it ∈ its, isSelect it.ln = true ∧ l = guarded it.guard it.ln
  complete : ∀ it ∈ its, isSelect it.ln = true → strip (guarded it.guard it.ln) ∈ acc.seenSelect

section Step

variable {its : List Item} {acc : Acc} {it : Item}

/-- A `depends on` line adds its expression, unless it is there already. -/
theorem Collected.dependsTurn (h : Collected its acc) {m : Line}
    (hm : dependsMatch it.ln = some m) : Collected (its ++ [it]) (addItem acc it) := by
  have hsel : isSelect it.ln = false := by
    by_contra hs
    rw [dependsMatch_select (by simpa using hs)] at hm
    cases hm
  have hbody : isBody it.ln = false := by simp [isBody, hm]
  -- only the list of expressions may change
  have hacc : addItem acc it =
      { acc with
        depends := if strip m ≠ [] ∧ strip m ∉ acc.depends then acc.depends ++ [strip m]
          else acc.depends } := by
    simp only [addItem, addLine, hm]
    split <;> rfl
  rw [hacc]
  refine ⟨?_, fun d => ?_, h.seen, ?_, ?_⟩
  · simp [h.out, hbody]
  · have hiff := h.depends d
    simp only [mem_append, mem_singleton, or_and_right, exists_or, exists_eq_left, hm,
      Option.map_some, Option.some.injEq]
    split
    · next hnew =>
      rw [mem_append, mem_singleton, hiff]
      constructor
      · rintro (⟨hd, hex⟩ | rfl)
        · exact ⟨hd, Or.inl hex⟩
        · exact ⟨hnew.1, Or.inr rfl⟩
      · rintro ⟨hd, hex | rfl⟩
        · exact Or.inl ⟨hd, hex⟩
        · exact Or.inr rfl
    · next hold =>
      rw [hiff]
      constructor
      · rintro ⟨hd, hex⟩
        exact ⟨hd, Or.inl hex⟩
      · rintro ⟨hd, hex | rfl⟩
        · exact ⟨hd, hex⟩
        · exact hiff.mp (by_contra fun hno => hold ⟨hd, hno⟩)
  · intro l hl
    obtain ⟨it', hit', hx⟩ := h.sound l hl
    exact ⟨it', mem_append_left _ hit', hx⟩
  · intro it' hit' hs
    rcases mem_append.mp hit' with hit' | hit'
    · exact h.complete it' hit' hs
    · rw [mem_singleton.mp hit', hsel] at hs
      cases hs

/-- A `select` line is kept, guarded, unless its text is there already. -/
theorem Collected.selectTurn (h : Collected its acc) (hs : isSelect it.ln = true) :
    Collected (its ++ [it]) (addItem acc it) := by
  have hm := dependsMatch_select hs
  have hbody : isBody it.ln = false := by simp [isBody, hs]
  have hacc : addItem acc it =
      if strip (guarded it.guard it.ln) ∈ acc.seenSelect then acc
      else { acc with
        seenSelect := acc.seenSelect ++ [strip (guarded it.guard it.ln)]
        selects := acc.selects ++ [guarded it.guard it.ln] } := by
    simp [addItem, addLine, hm, hs]
  have hdep : ∀ d, d ∈ acc.depends ↔
      d ≠ [] ∧ ∃ it' ∈ its ++ [it], (dependsMatch it'.ln).map strip = some d := by
    intro d
    rw [h.depends d]
    simp [or_and_right, exists_or, hm]
  rw [hacc]
  split
  · next hseen =>
    refine ⟨?_, hdep, h.seen, fun l hl => ?_, fun it' hit' hs' => ?_⟩
    · simp [h.out, hbody]
    · obtain ⟨it', hit', hx⟩ := h.sound l hl
      exact ⟨it', mem_append_left _ hit', hx⟩
    · rcases mem_append.mp hit' with hit' | hit'
      · exact h.complete it' hit' hs'
      · rw [mem_singleton.mp hit']
        exact hseen
  · refine ⟨?_, hdep, ?_, fun l hl => ?_, fun it' hit' hs' => ?_⟩
    · simp [h.out, hbody]
    · simp [h.seen]
    · rcases mem_append.mp hl with hl | hl
      · obtain ⟨it', hit', hx⟩ := h.sound l hl
        exact ⟨it', mem_append_left _ hit', hx⟩
      · exact ⟨it, by simp, hs, mem_singleton.mp hl⟩
    · rcases mem_append.mp hit' with hit' | hit'
      · exact mem_append_left _ (h.complete it' hit' hs')
      · rw [mem_singleton.mp hit']
        exact mem_append_right _ (mem_singleton.mpr rfl)

/-- Any other line is kept from the first entry and dropped from the others. -/
theorem Collected.bodyTurn (h : Collected its acc) (hm : dependsMatch it.ln = none)
    (hs : isSelect it.ln = false) : Collected (its ++ [it]) (addItem acc it) := by
  have hbody : isBody it.ln = true := by simp [isBody, hm, hs]
  have hacc : addItem acc it =
      { acc with out := if it.first then acc.out ++ [it.ln] else acc.out } := by
    simp only [addItem, addLine, hm, hs]
    cases it.first <;> rfl
  rw [hacc]
  refine ⟨?_, fun d => ?_, h.seen, fun l hl => ?_, fun it' hit' hs' => ?_⟩
  · cases hf : it.first <;> simp [h.out, hbody, hf]
  · rw [h.depends d]
    simp [or_and_right, exists_or, hm]
  · obtain ⟨it', hit', hx⟩ := h.sound l hl
    exact ⟨it', mem_append_left _ hit', hx⟩
  · rcases mem_append.mp hit' with hit' | hit'
    · exact h.complete it' hit' hs'
    · rw [mem_singleton.mp hit', hs] at hs'
      cases hs'

end Step

theorem collect_collected (entries : List (List Line)) :
    Collected (items entries) (collect entries) := by
  rw [collect_eq]
  refine run_history ?_ (fun its acc it h => ?_) (items entries)
  · exact ⟨rfl, by simp, rfl, by simp, by simp⟩
  · cases hm : dependsMatch it.ln with
    | some m => exact h.dependsTurn hm
    | none =>
      cases hs : isSelect it.ln with
      | true => exact h.selectTurn hs
      | false => exact h.bodyTurn hm hs

/-! ### The merged entry -/

variable {entries : List (List Line)}

theorem mem_items {it : Item} (h : it ∈ items entries) :
    ∃ ent ∈ entries, it.ln ∈ ent ∧ it.guard = ownExpr ent := by
  have hof : ∀ {first ent}, it ∈ itemsOf first ent → it.ln ∈ ent ∧ it.guard = ownExpr ent := by
    intro first ent hit
    obtain ⟨ln, hln, rfl⟩ := mem_map.mp hit
    exact ⟨hln, rfl⟩
  cases entries with
  | nil => cases h
  | cons ent rest =>
    rcases mem_append.mp h with h | h
    · exact ⟨ent, mem_cons_self, hof h⟩
    · obtain ⟨ent', hent', h⟩ := mem_flatMap.mp h
      exact ⟨ent', mem_cons_of_mem _ hent', hof h⟩

theorem exists_item {ent : List Line} (hent : ent ∈ entries)
    {ln : Line} (hln : ln ∈ ent) : ∃ it ∈ items entries, it.ln = ln ∧ it.guard = ownExpr ent := by
  cases entries with
  | nil => cases hent
  | cons ent' rest =>
    rcases mem_cons.mp hent with rfl | hent
    · exact ⟨_, mem_append_left _ (mem_map.mpr ⟨ln, hln, rfl⟩), rfl, rfl⟩
    · exact ⟨_, mem_append_right _
        (mem_flatMap.mpr ⟨ent, hent, mem_map.mpr ⟨ln, hln, rfl⟩⟩), rfl, rfl⟩

theorem mem_own {ent : List Line} {d : Line} :
    d ∈ own ent ↔ ∃ ln ∈ ent, (dependsMatch ln).map strip = some d :=
  mem_filterMap

/-- The collected expressions are those of the entries. -/
theorem mem_depends {d : Line} : d ∈ (collect entries).depends ↔ d ≠ [] ∧ ∃ ent ∈ entries, d ∈ own ent := by
  rw [(collect_collected entries).depends]
  refine and_congr_right fun _ => ⟨?_, ?_⟩
  · rintro ⟨it, hit, hm⟩
    obtain ⟨ent, hent, hln, -⟩ := mem_items hit
    exact ⟨ent, hent, mem_own.mpr ⟨it.ln, hln, hm⟩⟩
  · rintro ⟨ent, hent, hd⟩
    obtain ⟨ln, hln, hm⟩ := mem_own.mp hd
    obtain ⟨it, hit, rfl, -⟩ := exists_item hent hln
    exact ⟨it, hit, hm⟩

theorem mem_selects {l : Line} (h : l ∈ (collect entries).selects) :
    ∃ ent ∈ entries, ∃ ln ∈ ent, isSelect ln = true ∧ l = guarded (ownExpr ent) ln := by
  obtain ⟨it, hit, hs, rfl⟩ := (collect_collected entries).sound l h
  obtain ⟨ent, hent, hln, hg⟩ := mem_items hit
  exact ⟨ent, hent, it.ln, hln, hs, by rw [hg]⟩

/-- What `merge_group` returns for a group: the `config` line, the joined expressions, the other
    lines of the first entry and the guarded `select`s. -/
theorem Group.merged {sym : Line} (hg : Group sym entries) : ∃ config body,
      mergeGroup entries = some (config :: (dependsLine config (collect entries).depends ++ body ++
        (collect entries).selects)) ∧
      ∀ l ∈ config :: body, dependsMatch l = none ∧ isSelect l = false := by
  match entries, hg with
  | [], hg => exact absurd hg.several (by simp)
  | [_], hg => exact absurd hg.several (by simp)
  | ent :: ent' :: rest, hg =>
    obtain ⟨config, lines, rfl, hc⟩ := hg.config ent mem_cons_self
    have hout := (collect_collected ((config :: lines) :: ent' :: rest)).out
    have hbody : isBody config = true := by
      simp [isBody, dependsMatch_config hc, isSelect_config hc]
    have hall : ∀ l ∈ (collect ((config :: lines) :: ent' :: rest)).out,
        dependsMatch l = none ∧ isSelect l = false := by
      intro l hl
      rw [hout] at hl
      obtain ⟨it, hit, rfl⟩ := mem_map.mp hl
      have hb := (mem_filter.mp hit).2
      simp only [isBody, Bool.and_eq_true, Option.isNone_iff_eq_none, Bool.not_eq_true'] at hb
      exact hb.2
    cases hcol : (collect ((config :: lines) :: ent' :: rest)).out with
    | nil =>
      rw [hout] at hcol
      simp [items, itemsOf, hbody] at hcol
    | cons l body =>
      refine ⟨l, body, ?_, hcol ▸ hall⟩
      rw [mergeGroup, hcol]
      simp

/-! ### Its condition -/

/-- The text is not empty and has no space around it. -/
def Trimmed (l : Line) : Prop := Starts l ∧ Ends l

theorem paren_trimmed (d : Line) : Trimmed (paren d) :=
  ⟨⟨'(', rfl, by decide⟩, Ends.append (l := [')']) ⟨')', rfl, by decide⟩ ('(' :: d)⟩

theorem intercalate_trimmed {sep : Line} :
    ∀ {ls : List Line}, ls ≠ [] → (∀ l ∈ ls, Trimmed l) → Trimmed (List.intercalate sep ls)
  | [l], _, h => by simpa [List.intercalate] using h l
  | l :: l' :: ls, _, h => by
    have ih := @intercalate_trimmed sep (l' :: ls) (by simp)
      fun x hx => h x (mem_cons_of_mem _ hx)
    rw [intercalate_cons_cons]
    exact ⟨((h l mem_cons_self).1.append _).append _, ih.2.append _⟩

theorem joinDepends_trimmed {ds : List Line} (hne : ds ≠ []) (h : ∀ d ∈ ds, Trimmed d) :
    Trimmed (joinDepends ds) := by
  refine intercalate_trimmed (by simpa using hne) fun l hl => ?_
  obtain ⟨d, hd, rfl⟩ := mem_map.mp hl
  split
  · exact h d hd
  · exact paren_trimmed d

theorem depends_trimmed {d : Line} (hd : d ∈ (collect entries).depends) : Trimmed d := by
  obtain ⟨hne, ent, -, hown⟩ := mem_depends.mp hd
  obtain ⟨ln, -, hm⟩ := mem_own.mp hown
  obtain ⟨m, -, rfl⟩ := Option.map_eq_some_iff.mp hm
  exact strip_trimmed hne

theorem own_dependsLine (config : Line) {ds : List Line} (h : ∀ d ∈ ds, Trimmed d) :
    own (dependsLine config ds) = if ds = [] then [] else [joinDepends ds] := by
  unfold dependsLine
  split
  · rfl
  · next hne =>
    obtain ⟨hs, he⟩ := joinDepends_trimmed hne h
    have hws : Spaces (config.takeWhile isSpace) := fun _ hc => mem_takeWhile_imp hc
    have hm : dependsMatch (config.takeWhile isSpace ++ "depends on ".toList ++ joinDepends ds) =
        some (joinDepends ds) := by
      have h := @afterWord_append _ "depends on".toList (joinDepends ds) ' ' hws
        ⟨'d', rfl, by decide⟩ (by decide)
      rw [lstrip_starts hs] at h
      rw [dependsMatch, append_assoc]
      exact h
    have hstrip : strip (joinDepends ds) = joinDepends ds := by
      simpa using strip_append spaces_nil hs he spaces_nil
    rw [own, filterMap_cons, hm, Option.map_some, hstrip]
    rfl

theorem own_nil_of {ls : List Line} (h : ∀ l ∈ ls, dependsMatch l = none) : own ls = [] :=
  filterMap_eq_nil_iff.mpr fun l hl => by rw [h l hl]; rfl

/-- The merged entry has one expression, the joined one, or none. -/
theorem Group.own_merged {sym : Line} (hg : Group sym entries) : ∃ merged, mergeGroup entries = some merged ∧
      own merged = if (collect entries).depends = [] then []
        else [joinDepends (collect entries).depends] := by
  obtain ⟨config, body, hm, hlines⟩ := hg.merged
  refine ⟨_, hm, ?_⟩
  have hsel : own (collect entries).selects = [] := by
    refine own_nil_of fun l hl => ?_
    obtain ⟨ent, -, ln, -, hs, rfl⟩ := mem_selects hl
    exact dependsMatch_guarded hs _
  have hhead : own [config] = [] := own_nil_of fun l hl => (hlines l (by simp_all)).1
  have hbody : own body = [] := own_nil_of fun l hl => (hlines l (mem_cons_of_mem _ hl)).1
  have hcat : ∀ a b, own (a ++ b) = own a ++ own b := fun a b => filterMap_append
  rw [← singleton_append, hcat, hcat, hcat, hhead, hbody, hsel,
    own_dependsLine config fun d hd => depends_trimmed hd]
  simp

theorem WellFormed.ne_nil {d : Line} (h : WellFormed d) : d ≠ [] := by
  rintro rfl
  obtain ⟨e, ts, hlex, hs⟩ := h
  obtain rfl : [] = ts := by simpa [lex] using hlex
  -- the value of a spelled expression is defined, that of no tokens is not
  have hval := hs.value fun _ => true
  cases hval

section Visibility

variable {sym : Line} {entries : List (List Line)}

/-- The merged entry is visible where one of all the lines holds, or where there is none. -/
theorem Group.visible_merged (hg : Group sym entries)
    (hwf : ∀ ent ∈ entries, ∀ d ∈ own ent, WellFormed d) :
    ∃ merged, mergeGroup entries = some merged ∧ ∀ ρ, Visible ρ merged ↔
      (∀ ent ∈ entries, own ent = []) ∨ ∃ ent ∈ entries, ∃ d ∈ own ent, Holds ρ d := by
  obtain ⟨merged, hm, hown⟩ := hg.own_merged
  refine ⟨merged, hm, fun ρ => ?_⟩
  have hmem : ∀ d, d ∈ (collect entries).depends ↔ ∃ ent ∈ entries, d ∈ own ent := fun d =>
    mem_depends.trans
      ⟨And.right, fun ⟨ent, hent, hd⟩ => ⟨(hwf ent hent d hd).ne_nil, ent, hent, hd⟩⟩
  rw [Visible, hown]
  split
  · next hnil =>
    refine iff_of_true (by simp) (Or.inl fun ent hent => ?_)
    refine eq_nil_iff_forall_not_mem.mpr fun d hd => ?_
    have := (hmem d).mpr ⟨ent, hent, hd⟩
    rw [hnil] at this
    cases this
  · next hne =>
    obtain ⟨e, hspell, hval⟩ := joinDepends_spelled hne fun d hd => by
      obtain ⟨ent, hent, hd⟩ := (hmem d).mp hd
      exact hwf ent hent d hd
    have hsome : ¬∀ ent ∈ entries, own ent = [] := by
      obtain ⟨d, hd⟩ := exists_mem_of_ne_nil _ hne
      obtain ⟨ent, hent, hd⟩ := (hmem d).mp hd
      intro h
      rw [h ent hent] at hd
      cases hd
    rw [forall_mem_singleton, hspell.holds_iff, hval, or_iff_right hsome]
    constructor
    · rintro ⟨d, hd, hh⟩
      obtain ⟨ent, hent, hd⟩ := (hmem d).mp hd
      exact ⟨ent, hent, d, hd, hh⟩
    · rintro ⟨ent, hent, d, hd, hh⟩
      exact ⟨d, (hmem d).mpr ⟨ent, hent, hd⟩, hh⟩

/-- Where ORing the lines is right: a line holds only where some entry is visible, and where an
    entry has no line, none has, or one of the lines holds. -/
structure Separable (ρ : Line → Bool) (entries : List (List Line)) : Prop where
  lines : ∀ ent ∈ entries, ∀ d ∈ own ent, Holds ρ d → ∃ ent' ∈ entries, Visible ρ ent'
  none : (∃ ent ∈ entries, own ent = []) →
    (∀ ent ∈ entries, own ent = []) ∨ ∃ ent ∈ entries, ∃ d ∈ own ent, Holds ρ d

/-- The merged entry is visible exactly where one of the entries is, if and only if the lines are
    separable there. -/
theorem merge_preserves_visibility (hg : Group sym entries)
    (hwf : ∀ ent ∈ entries, ∀ d ∈ own ent, WellFormed d) :
    ∃ merged, mergeGroup entries = some merged ∧ ∀ ρ,
      ((Visible ρ merged ↔ ∃ ent ∈ entries, Visible ρ ent) ↔ Separable ρ entries) := by
  obtain ⟨merged, hm, hvis⟩ := hg.visible_merged hwf
  refine ⟨merged, hm, fun ρ => ?_⟩
  rw [hvis]
  -- an entry without lines is visible
  have hempty : ∀ ent, own ent = [] → Visible ρ ent := fun ent h d hd => by rw [h] at hd; cases hd
  constructor
  · intro h
    refine ⟨fun ent hent d hd hh => h.mp (Or.inr ⟨ent, hent, d, hd, hh⟩), ?_⟩
    rintro ⟨ent, hent, hnil⟩
    exact h.mpr ⟨ent, hent, hempty ent hnil⟩
  · intro h
    constructor
    · rintro (hall | ⟨ent, hent, d, hd, hh⟩)
      · have hpos : 0 < entries.length := Nat.lt_of_lt_of_le Nat.two_pos hg.several
        obtain ⟨ent, hent⟩ := exists_mem_of_length_pos hpos
        exact ⟨ent, hent, hempty ent (hall ent hent)⟩
      · exact h.lines ent hent d hd hh
    · rintro ⟨ent, hent, hv⟩
      cases hown : own ent with
      | nil => exact h.none ⟨ent, hent, hown⟩
      | cons d ds => exact Or.inr ⟨ent, hent, d, by simp [hown], hv d (by simp [hown])⟩

end Visibility

theorem wellFormed_symbol (c : Char) (h : isSymChar c = true) : WellFormed [c] :=
  ⟨.sym [c], [.sym [c]], by simp [lex, blank_of_symChar h, h, addChar],
    .ofConj (.ofUnary (.sym [c]))⟩

/-- The first entry has two lines. -/
def twoLines : List (List Line) :=
  [["config X".toList, "depends on A".toList, "depends on B".toList],
    ["config X".toList, "depends on C".toList]]

theorem twoLines_group : Group "X".toList twoLines where
  several := by decide
  config := by
    intro ent hent
    simp only [twoLines, mem_cons, not_mem_nil, or_false] at hent
    rcases hent with rfl | rfl
    · exact ⟨_, _, rfl, by decide⟩
    · exact ⟨_, _, rfl, by decide⟩

theorem twoLines_wellFormed : ∀ ent ∈ twoLines, ∀ d ∈ own ent, WellFormed d := by
  have hown : twoLines.map own = [[['A'], ['B']], [['C']]] := by decide
  intro ent hent d hd
  have : own ent ∈ twoLines.map own := mem_map_of_mem hent
  rw [hown] at this
  simp only [mem_cons, not_mem_nil, or_false] at this
  rcases this with h | h <;> rw [h] at hd
  · simp only [mem_cons, not_mem_nil, or_false] at hd
    rcases hd with rfl | rfl
    · exact wellFormed_symbol _ (by decide)
    · exact wellFormed_symbol _ (by decide)
  · rw [mem_singleton.mp hd]
    exact wellFormed_symbol _ (by decide)

/-- Where only `A` holds no entry is visible, but `(A) || (B) || (C)` holds. -/
theorem merge_shows_hidden :
    Group "X".toList twoLines ∧ (∀ ent ∈ twoLines, ∀ d ∈ own ent, WellFormed d) ∧
      ∃ merged, mergeGroup twoLines = some merged ∧
        Visible (· == ['A']) merged ∧ ¬∃ ent ∈ twoLines, Visible (· == ['A']) ent :=
  ⟨twoLines_group, twoLines_wellFormed, _, rfl, by decide +kernel, by decide +kernel⟩

theorem merge_preserves_visibility_twoLines :
    ∃ merged, mergeGroup twoLines = some merged ∧ ∀ ρ,
      ((Visible ρ merged ↔ ∃ ent ∈ twoLines, Visible ρ ent) ↔ Separable ρ twoLines) :=
  merge_preserves_visibility twoLines_group twoLines_wellFormed

end PhoebusBsp.Kconfig

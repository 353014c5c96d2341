import PhoebusBsp.Kconfig.Process
import PhoebusBsp.Schemes.Slots
import Mathlib.Algebra.GroupWithZero.Nat

/-! What `process` keeps of a file.

        parts of the file  ── rewritten ──▶  parts of the new file
              │                                    │
              └── lines ──▶ file      new file ◀── lines

    Each part is rewritten on its own. Rewriting keeps the preamble and the last line of a block and the
    entries of symbols that occur once, and leaves one entry for each symbol; a block with different symbols
    is left alone. The new file is read as the rewritten parts only if their brackets still match: of an
    entry that is merged into an earlier one the lines `choice` and `endchoice` are dropped. -/

namespace PhoebusBsp.Kconfig
open Schemes Nesting Grouping List

section Rewrite

variable {word : Char → Bool} {l : Line} {entries : List (List Line)}

/-! ### Kinds of lines -/

theorem keyword_eq_false {kw : Line} (h : ∀ r, lstrip l ≠ kw ++ r) : keyword word kw l = false := by
  rw [← Bool.not_eq_true]
  intro hkw
  obtain ⟨r, hr⟩ := startsWith_iff.mp (Bool.and_eq_true_iff.mp hkw).1
  exact h r hr

theorem mark_eq_plain (hc : ∀ r, lstrip l ≠ "choice".toList ++ r)
    (he : ∀ r, lstrip l ≠ "endchoice".toList ++ r) : mark word l = .plain := by
  rw [mark, choiceMatch, endchoiceMatch, keyword_eq_false hc, keyword_eq_false he]
  rfl

/-- A line is known by its first letter. -/
theorem plain_of_lstrip {r : Line} {a : Char} (hl : lstrip l = a :: r) (hc : a ≠ 'c') (he : a ≠ 'e') :
    mark word l = .plain ∧ isConfig word l = false := by
  have hconfig : afterWord "config".toList l = none := afterWord_eq_none hl hc
  refine ⟨mark_eq_plain (fun r' hr' => ?_) fun r' hr' => ?_, ?_⟩
  · exact hc (List.cons.inj (hl.symm.trans hr')).1
  · exact he (List.cons.inj (hl.symm.trans hr')).1
  · rw [isConfig, configMatch, hconfig]
    rfl

theorem isConfig_word (h : isConfig word l = true) : (afterWord "config".toList l).isSome = true := by
  obtain ⟨sym, hsym⟩ := Option.isSome_iff_exists.mp h
  exact configMatch_word hsym

theorem isConfig_plain (h : isConfig word l = true) : mark word l = .plain := by
  obtain ⟨r, hr⟩ := Option.isSome_iff_exists.mp (isConfig_word h)
  obtain ⟨c, r', hl, -, -⟩ := afterWord_eq_some hr
  refine mark_eq_plain (fun r'' hr'' => ?_) fun r'' hr'' => ?_
  · -- The second letters differ.
    have hletters := (List.cons.inj (hl.symm.trans hr'')).2
    exact absurd (List.cons.inj hletters).1 (by decide)
  · exact absurd (List.cons.inj (hl.symm.trans hr'')).1 (by decide)

theorem isConfig_isBody (h : isConfig word l = true) : isBody l = true := by
  have hdep : dependsMatch l = none := afterWord_exclusive (a := 'c') (b := 'd') (by decide) (isConfig_word h)
  have hsel : afterWord "select".toList l = none :=
    afterWord_exclusive (a := 'c') (b := 's') (by decide) (isConfig_word h)
  rw [isBody, isSelect, hdep, hsel]
  rfl

/-- The lines that are moved when entries are merged are neither brackets nor heads. -/
theorem plain_of_not_isBody (h : isBody l = false) : mark word l = .plain ∧ isConfig word l = false := by
  have hcases : (dependsMatch l).isSome = true ∨ isSelect l = true := by
    cases hm : dependsMatch l with
    | some m => exact Or.inl rfl
    | none =>
      right
      simpa [isBody, hm] using h
  rcases hcases with hw | hw
  · obtain ⟨r, hr⟩ := Option.isSome_iff_exists.mp hw
    obtain ⟨c, r', hl, -, -⟩ := afterWord_eq_some hr
    exact plain_of_lstrip (a := 'd') hl (by decide) (by decide)
  · obtain ⟨r, hr⟩ := Option.isSome_iff_exists.mp hw
    obtain ⟨c, r', hl, -, -⟩ := afterWord_eq_some hr
    exact plain_of_lstrip (a := 's') hl (by decide) (by decide)

theorem plain_of_dependsLine {config : Line} {ds : List Line} (h : l ∈ dependsLine config ds) :
    mark word l = .plain ∧ isConfig word l = false := by
  unfold dependsLine at h
  split at h
  · cases h
  · obtain rfl := mem_singleton.mp h
    rw [append_assoc]
    refine plain_of_lstrip (a := 'd') (lstrip_append (fun c hc => mem_takeWhile_imp hc) ?_)
      (by decide) (by decide)
    exact ⟨'d', rfl, by decide⟩

theorem plain_of_selects (h : l ∈ (collect entries).selects) :
    mark word l = .plain ∧ isConfig word l = false := by
  obtain ⟨ent, -, ln, -, hs, rfl⟩ := mem_selects h
  obtain ⟨r, hr⟩ := lstrip_guarded hs (ownExpr ent)
  exact plain_of_lstrip hr (by decide) (by decide)

/-! ### Merged entries -/

/-- The brackets among some lines. -/
def brackets (word : Char → Bool) (ls : List Line) : List Line := ls.filter fun l => mark word l ≠ .plain

theorem brackets_append (a b : List Line) : brackets word (a ++ b) = brackets word a ++ brackets word b :=
  filter_append ..

theorem brackets_eq_nil {ls : List Line} (h : ∀ l ∈ ls, mark word l = .plain) : brackets word ls = [] := by
  rw [brackets, filter_eq_nil_iff]
  intro l hl
  simp [h l hl]

/-- What is kept of the first entry has all its brackets. -/
theorem brackets_filter_isBody (ls : List Line) : brackets word (ls.filter isBody) = brackets word ls := by
  rw [brackets, filter_filter, brackets]
  refine filter_congr fun l _ => ?_
  cases hb : isBody l with
  | true => simp
  | false =>
    have hplain : mark word l = .plain := (plain_of_not_isBody hb).1
    simp [hplain]

theorem collect_out (ent : List Line) (rest : List (List Line)) :
    (collect (ent :: rest)).out = ent.filter isBody := by
  have hrest : (rest.flatMap (itemsOf false)).filter (fun it => it.first && isBody it.ln) = [] := by
    rw [filter_eq_nil_iff]
    intro it hit
    obtain ⟨ent', -, hit⟩ := mem_flatMap.mp hit
    obtain ⟨ln, -, rfl⟩ := mem_map.mp hit
    simp
  rw [(collect_collected (ent :: rest)).out, items, filter_append, hrest, append_nil, itemsOf,
    filter_map, map_map]
  simp [Function.comp_def]

/-- What becomes of a group whose entries start with `config` lines. -/
structure Merged (word : Char → Bool) (first merged : List Line) : Prop where
  isEntry : IsEntry (isConfig word) merged
  symbol : symbolOf word merged = symbolOf word first
  brackets : brackets word merged = brackets word first

theorem mergeGroup_several {config : Line} {lines : List Line} {rest : List (List Line)}
    (hentries : entries = (config :: lines) :: rest) (hrest : rest ≠ []) (hconfig : isConfig word config = true) :
    mergeGroup entries = some (config ::
      (dependsLine config (collect entries).depends ++ lines.filter isBody ++ (collect entries).selects)) := by
  have hout : (collect entries).out = config :: lines.filter isBody := by
    rw [hentries, collect_out, filter_cons_of_pos (isConfig_isBody hconfig)]
  obtain ⟨second, rest', rfl⟩ := exists_cons_of_ne_nil hrest
  rw [hentries] at hout ⊢
  simp only [mergeGroup, hout]

theorem mergeGroup_merged {first : List Line} (rest : List (List Line)) (h : IsEntry (isConfig word) first) :
    ∃ merged, mergeGroup (first :: rest) = some merged ∧ Merged word first merged := by
  cases hrest : rest with
  | nil => exact ⟨first, rfl, h, rfl, rfl⟩
  | cons second others =>
    obtain ⟨config, lines, rfl, hconfig, hlines⟩ := h
    obtain ⟨entries, hentries⟩ : ∃ entries, entries = (config :: lines) :: second :: others := ⟨_, rfl⟩
    have hdep : brackets word (dependsLine config (collect entries).depends) = [] :=
      brackets_eq_nil fun l hl => (plain_of_dependsLine hl).1
    have hsel : brackets word (collect entries).selects = [] :=
      brackets_eq_nil fun l hl => (plain_of_selects hl).1
    have hcons : ∀ ls, brackets word (config :: ls) = brackets word ls := fun ls =>
      filter_cons_of_neg (by simp [isConfig_plain hconfig])
    rw [← hentries]
    refine ⟨_, mergeGroup_several hentries (cons_ne_nil _ _) hconfig,
      ⟨config, _, rfl, hconfig, fun l hl => ?_⟩, rfl, ?_⟩
    · rcases mem_append.mp hl with hl | hl
      · rcases mem_append.mp hl with hl | hl
        · exact (plain_of_dependsLine hl).2
        · exact hlines l (mem_filter.mp hl).1
      · exact (plain_of_selects hl).2
    · rw [hcons, hcons, brackets_append, brackets_append, hdep, hsel, brackets_filter_isBody, nil_append,
        append_nil]

theorem Clean.paren {d : Line} (hd : Clean d) : Clean (paren d) :=
  Clean.append (a := ['(']) (by decide) (hd.append (by decide))

theorem own_clean {ent : List Line} (hent : ∀ l ∈ ent, Clean l) {d : Line} (hd : d ∈ own ent) : Clean d := by
  obtain ⟨l, hl, hm⟩ := mem_own.mp hd
  obtain ⟨m, hword, rfl⟩ := Option.map_eq_some_iff.mp hm
  exact (hent l hl).subset (List.Subset.trans (strip_subset m) (afterWord_subset hword))

theorem dependsLine_clean {config : Line} {ds : List Line} (hconfig : Clean config) (hds : ∀ d ∈ ds, Clean d) :
    ∀ l ∈ dependsLine config ds, Clean l := by
  intro l hl
  unfold dependsLine at hl
  split at hl
  · cases hl
  · obtain rfl := mem_singleton.mp hl
    have hjoin : Clean (joinDepends ds) := by
      refine Clean.intercalate (by decide) fun l hl => ?_
      obtain ⟨d, hd, rfl⟩ := mem_map.mp hl
      split
      · exact hds d hd
      · exact (hds d hd).paren
    exact ((hconfig.subset (takeWhile_sublist _).subset).append (by decide)).append hjoin

theorem guarded_clean {ent : List Line} (hent : ∀ l ∈ ent, Clean l) {ln : Line} (hln : ln ∈ ent) :
    Clean (guarded (ownExpr ent) ln) := by
  unfold guarded ownExpr
  split
  · exact hent ln hln
  · next e he =>
    split
    · exact hent ln hln
    · split at he
      · cases he
      · obtain rfl := Option.some.inj he
        have hguard : Clean (List.intercalate " && ".toList ((own ent).map paren)) := by
          refine Clean.intercalate (by decide) fun l hl => ?_
          obtain ⟨d, hd, rfl⟩ := mem_map.mp hl
          exact (own_clean hent hd).paren
        exact (((hent ln hln).subset (rstrip_subset ln)).append (by decide)).append hguard

theorem mergeGroup_clean {merged : List Line} (h : mergeGroup entries = some merged)
    (hclean : ∀ ent ∈ entries, ∀ l ∈ ent, Clean l) : ∀ l ∈ merged, Clean l := by
  have hout : ∀ l ∈ (collect entries).out, Clean l := by
    intro l hl
    rw [(collect_collected entries).out] at hl
    obtain ⟨it, hit, rfl⟩ := mem_map.mp hl
    obtain ⟨ent, hent, hln, -⟩ := mem_items (mem_filter.mp hit).1
    exact hclean ent hent it.ln hln
  unfold mergeGroup at h
  split at h
  · next ent =>
    obtain rfl := Option.some.inj h
    exact hclean ent mem_cons_self
  · simp only at h
    split at h
    · cases h
    · next config body hcb =>
      obtain rfl := Option.some.inj h
      rw [hcb] at hout
      have hds : ∀ d ∈ (collect entries).depends, Clean d := by
        intro d hd
        obtain ⟨-, ent, hent, hown⟩ := mem_depends.mp hd
        exact own_clean (hclean ent hent) hown
      intro l hl
      rcases mem_cons.mp hl with rfl | hl
      · exact hout l mem_cons_self
      rcases mem_append.mp hl with hl | hl
      · rcases mem_append.mp hl with hl | hl
        · exact dependsLine_clean (hout config mem_cons_self) hds l hl
        · exact hout l (mem_cons_of_mem _ hl)
      · obtain ⟨ent, hent, ln, hln, -, rfl⟩ := mem_selects hl
        exact guarded_clean (hclean ent hent) hln

/-! ### Rewritten parts -/

/-- The entry that a group becomes. -/
def mergedEntry (entries : List (List Line)) : List Line := (mergeGroup entries).getD []

section Block

variable (word)

def preambleOf (block : List Line) : List Line := (cut (isConfig word) block).1

def entriesOf (block : List Line) : List (List Line) := (cut (isConfig word) block).2

def symbolsIn (block : List Line) : List (Option Line) := keysOf (symbolOf word) (entriesOf word block)

/-- The entries of one symbol. -/
def entriesWith (block : List Line) (sym : Option Line) : List (List Line) :=
  groupOf (symbolOf word) (entriesOf word block) sym

/-- The entries that are written. -/
def rewrittenEntries (block : List Line) : List (List Line) :=
  (symbolsIn word block).map fun sym => mergedEntry (entriesWith word block sym)

def rewritten : Segment Line → Segment Line
  | .line l => .line l
  | .block block endline => .block (preambleOf word block ++ (rewrittenEntries word block).flatten) endline

/-- How many symbols of a part have several entries. -/
def repeated : Segment Line → ℕ
  | .line _ => 0
  | .block block _ => (symbolsIn word block).countP fun sym => 1 < (entriesWith word block sym).length

/-- The first entry of each symbol. -/
def firstEntries (block : List Line) : List (List Line) :=
  (symbolsIn word block).map fun sym => (entriesWith word block sym).headD []

/-- No symbol has several entries. -/
def Distinct : Segment Line → Prop
  | .line _ => True
  | .block block _ => ((entriesOf word block).map (symbolOf word)).Nodup

/-- Between the first line of a block and its last, the brackets match without the later entries of each
    symbol. -/
def KeepsBrackets : Segment Line → Prop
  | .line _ => True
  | .block block _ => Balanced (mark word) (preambleOf word block ++ (firstEntries word block).flatten).tail

instance (p : Segment Line) : Decidable (KeepsBrackets word p) :=
  match p with
  | .line _ => .isTrue trivial
  | .block block _ =>
    inferInstanceAs (Decidable (Balanced (mark word) (preambleOf word block ++ (firstEntries word block).flatten).tail))

end Block

variable {block : List Line} {sym : Option Line}

theorem entriesOf_isEntry {ent : List Line} (h : ent ∈ entriesOf word block) : IsEntry (isConfig word) ent :=
  (cut_wellCut block).entries ent h

theorem entriesWith_eq_cons (h : sym ∈ symbolsIn word block) :
    ∃ first rest, entriesWith word block sym = first :: rest ∧ first ∈ entriesOf word block ∧
      symbolOf word first = sym := by
  obtain ⟨ent, hent, hsym⟩ := mem_keysOf.mp h
  have hmem : ent ∈ entriesWith word block sym := mem_filter.mpr ⟨hent, decide_eq_true hsym⟩
  obtain ⟨first, rest, heq⟩ := exists_cons_of_ne_nil (ne_nil_of_mem hmem)
  have hfirst : first ∈ entriesWith word block sym := heq ▸ mem_cons_self
  obtain ⟨hin, hkey⟩ := mem_filter.mp hfirst
  exact ⟨first, rest, heq, hin, of_decide_eq_true hkey⟩

/-- Every group of a block is merged. -/
theorem mergedEntry_spec (h : sym ∈ symbolsIn word block) :
    mergeGroup (entriesWith word block sym) = some (mergedEntry (entriesWith word block sym)) ∧
    Merged word ((entriesWith word block sym).headD []) (mergedEntry (entriesWith word block sym)) ∧
    symbolOf word (mergedEntry (entriesWith word block sym)) = sym := by
  obtain ⟨first, rest, heq, hin, hsym⟩ := entriesWith_eq_cons h
  obtain ⟨merged, hmerge, hmerged⟩ := mergeGroup_merged rest (entriesOf_isEntry hin)
  have hentry : mergedEntry (first :: rest) = merged := by rw [mergedEntry, hmerge, Option.getD_some]
  rw [heq, hentry]
  exact ⟨hmerge, hmerged, hmerged.symbol.trans hsym⟩

/-! ### What is written -/

theorem emitGroups_eq {groups : Option Line → Option (List (List Line))}
    {entries : Option Line → List (List Line)} {order : List (Option Line)}
    (h : ∀ sym ∈ order, groups sym = some (entries sym) ∧
      mergeGroup (entries sym) = some (mergedEntry (entries sym))) :
    emitGroups groups order = some ((order.map fun sym => mergedEntry (entries sym)).flatten,
      order.countP fun sym => 1 < (entries sym).length) := by
  induction order with
  | nil => rfl
  | cons sym order ih =>
    obtain ⟨hgroup, hmerge⟩ := h sym mem_cons_self
    have hrest := ih fun s hs => h s (mem_cons_of_mem _ hs)
    simp only [emitGroups, hgroup, hmerge, hrest, map_cons, flatten_cons, countP_cons,
      Nat.add_comm, decide_eq_true_eq]

theorem emit_eq (p : Segment Line) : emit word p = some ((rewritten word p).lines, repeated word p) := by
  cases p with
  | line l => rfl
  | block block endline =>
    have horder : (groupBy (symbolOf word) (entriesOf word block)).order = symbolsIn word block := groupBy_order _
    have hemit : emitGroups (groupBy (symbolOf word) (entriesOf word block)).groups (symbolsIn word block) =
        some ((rewrittenEntries word block).flatten, repeated word (.block block endline)) :=
      emitGroups_eq fun sym hsym => ⟨groupBy_group hsym, (mergedEntry_spec hsym).1⟩
    unfold emit
    simp only
    rw [← preambleOf, ← entriesOf, horder, hemit]
    rfl

theorem emitAll_eq (parts : List (Segment Line)) :
    emitAll word parts = some ((parts.map (rewritten word)).flatMap Segment.lines,
      (parts.map (repeated word)).sum) := by
  induction parts with
  | nil => rfl
  | cons p parts ih =>
    simp [emitAll, emit_eq, ih]

theorem process_eq (text : Text) :
    process word text = some (['\n'].intercalate (((partsOf word text).map (rewritten word)).flatMap Segment.lines),
      ((partsOf word text).map (repeated word)).sum) := by
  rw [process, emitAll_eq]

/-! ### Rewriting once and twice -/

theorem rewritten_wellCut (block : List Line) :
    WellCut (isConfig word) (preambleOf word block) (rewrittenEntries word block) := by
  refine ⟨(cut_wellCut block).preamble, fun ent hent => ?_⟩
  obtain ⟨sym, hsym, rfl⟩ := mem_map.mp hent
  exact (mergedEntry_spec hsym).2.1.isEntry

theorem rewritten_symbols (block : List Line) :
    (rewrittenEntries word block).map (symbolOf word) = symbolsIn word block := by
  rw [rewrittenEntries, map_map]
  refine (map_congr_left fun sym hsym => ?_).trans (map_id _)
  exact (mergedEntry_spec hsym).2.2

theorem rewritten_distinct (p : Segment Line) : Distinct word (rewritten word p) := by
  cases p with
  | line l => trivial
  | block block endline =>
    have hcut : cut (isConfig word) _ = _ := (rewritten_wellCut block).cut_eq
    simp only [Distinct, rewritten, entriesOf]
    rw [hcut, rewritten_symbols]
    exact Slots.nodup_eraseDups _

theorem rewritten_eq_self {p : Segment Line} (h : Distinct word p) : rewritten word p = p ∧ repeated word p = 0 := by
  cases p with
  | line l => exact ⟨rfl, rfl⟩
  | block block endline =>
    have hkeys : symbolsIn word block = (entriesOf word block).map (symbolOf word) := keysOf_of_nodup h
    have halone : ∀ ent ∈ entriesOf word block, entriesWith word block (symbolOf word ent) = [ent] :=
      fun ent hent => groupOf_of_nodup h hent
    have hentries : rewrittenEntries word block = entriesOf word block := by
      rw [rewrittenEntries, hkeys, map_map]
      refine (map_congr_left fun ent hent => ?_).trans (map_id _)
      rw [Function.comp_apply, halone ent hent]
      rfl
    have hwhole : preambleOf word block ++ (entriesOf word block).flatten = block := cut_whole block
    refine ⟨?_, ?_⟩
    · rw [rewritten, hentries, hwhole]
    · rw [repeated, countP_eq_zero, hkeys]
      intro sym hsym
      obtain ⟨ent, hent, rfl⟩ := mem_map.mp hsym
      simp [halone ent hent]

/-! ### Brackets -/

theorem brackets_flatten_congr {f g : Option Line → List Line} {order : List (Option Line)}
    (h : ∀ sym ∈ order, brackets word (f sym) = brackets word (g sym)) :
    brackets word (order.map f).flatten = brackets word (order.map g).flatten := by
  induction order with
  | nil => rfl
  | cons sym order ih =>
    simp only [map_cons, flatten_cons, brackets_append]
    rw [h sym mem_cons_self, ih fun s hs => h s (mem_cons_of_mem _ hs)]

/-- If its brackets match, a rewritten part is one again. -/
theorem rewritten_proper {p : Segment Line} (hp : p.Proper (mark word)) (hk : KeepsBrackets word p) :
    (rewritten word p).Proper (mark word) := by
  cases hp with
  | line hl => exact .line hl
  | @block c inner endline hc hinner hend =>
    -- The first line is no `config` line, so it stays in front.
    have hhead : isConfig word c = false := by
      rw [← Bool.not_eq_true]
      intro hconfig
      rw [isConfig_plain hconfig] at hc
      cases hc
    have hwhole : preambleOf word (c :: inner) ++ (entriesOf word (c :: inner)).flatten = c :: inner :=
      cut_whole _
    obtain ⟨pre, hpre⟩ : ∃ pre, preambleOf word (c :: inner) = c :: pre := by
      cases hpre : preambleOf word (c :: inner) with
      | nil =>
        rw [hpre, nil_append] at hwhole
        cases hentries : entriesOf word (c :: inner) with
        | nil => rw [hentries] at hwhole; cases hwhole
        | cons ent ents =>
          obtain ⟨first, rest, rfl, hfirst, -⟩ := entriesOf_isEntry (hentries ▸ mem_cons_self)
          rw [hentries, flatten_cons, cons_append] at hwhole
          rw [(List.cons.inj hwhole).1, hhead] at hfirst
          cases hfirst
      | cons d pre =>
        rw [hpre, cons_append] at hwhole
        exact ⟨pre, by rw [(List.cons.inj hwhole).1]⟩
    have hbrackets : brackets word (firstEntries word (c :: inner)).flatten =
        brackets word (rewrittenEntries word (c :: inner)).flatten :=
      brackets_flatten_congr fun sym hsym => (mergedEntry_spec hsym).2.1.brackets.symm
    simp only [KeepsBrackets, hpre, cons_append, tail_cons] at hk
    simp only [rewritten, hpre, cons_append]
    refine .block hc (balanced_of_filter_eq ?_ hk) hend
    show brackets word _ = brackets word _
    rw [brackets_append, brackets_append, hbrackets]

/-! ### Lines and pieces -/

theorem rewritten_lines_ne_nil (p : Segment Line) : (rewritten word p).lines ≠ [] := by
  cases p with
  | line l => exact cons_ne_nil _ _
  | block block endline => exact append_ne_nil_of_right_ne_nil _ (cons_ne_nil _ _)

theorem rewritten_clean {p : Segment Line} (h : ∀ l ∈ p.lines, Clean l) :
    ∀ l ∈ (rewritten word p).lines, Clean l := by
  cases p with
  | line l => exact h
  | block block endline =>
    have hblock : ∀ l ∈ block, Clean l := fun l hl => h l (mem_append_left _ hl)
    have hwhole : preambleOf word block ++ (entriesOf word block).flatten = block := cut_whole block
    rw [← hwhole] at hblock
    intro l hl
    rcases mem_append.mp hl with hl | hl
    · rcases mem_append.mp hl with hl | hl
      · exact hblock l (mem_append_left _ hl)
      · obtain ⟨ent, hent, hl⟩ := mem_flatten.mp hl
        obtain ⟨sym, hsym, rfl⟩ := mem_map.mp hent
        refine mergeGroup_clean (mergedEntry_spec hsym).1 (fun ent hent l hl => ?_) l hl
        refine hblock l (mem_append_right _ (mem_flatten.mpr ⟨ent, ?_, hl⟩))
        exact (mem_filter.mp hent).1
    · exact h l (mem_append_right _ hl)

section Pieces

variable (word)

/-- What is to be found again: a line outside, or the preamble of a block, its entries whose symbol occurs
    once, and its last line. -/
def conserved : Segment Line → List (List Line)
  | .line l => [[l]]
  | .block block endline =>
    preambleOf word block ::
      ((entriesOf word block).filter fun ent => (entriesWith word block (symbolOf word ent)).length = 1) ++
      [[endline]]

/-- What is written. -/
def pieces : Segment Line → List (List Line)
  | .line l => [[l]]
  | .block block endline => preambleOf word block :: rewrittenEntries word block ++ [[endline]]

end Pieces

theorem pieces_flatten (p : Segment Line) : (pieces word p).flatten = (rewritten word p).lines := by
  cases p with
  | line l => rfl
  | block block endline => simp [pieces, rewritten, Segment.lines]

theorem conserved_sublist (p : Segment Line) : (conserved word p).Sublist (pieces word p) := by
  cases p with
  | line l => exact List.Sublist.refl _
  | block block endline =>
    refine ((List.Sublist.cons_cons _ ?_).append (List.Sublist.refl _))
    refine filter_sublist_keysOf _ fun ent hent honce => ?_
    obtain ⟨x, hx⟩ := length_eq_one_iff.mp (of_decide_eq_true honce)
    have hmem : ent ∈ entriesWith word block (symbolOf word ent) :=
      mem_filter.mpr ⟨hent, decide_eq_true rfl⟩
    have hentx : ent = x := by
      rw [hx] at hmem
      exact mem_singleton.mp hmem
    subst hentx
    refine ⟨hx, ?_⟩
    rw [hx]
    rfl

end Rewrite

variable {word : Char → Bool}

theorem partsOf_lines {text : Text} (hb : Balanced (mark word) (readLines text)) :
    (∀ p ∈ partsOf word text, p.Proper (mark word)) ∧ (partsOf word text).flatMap Segment.lines = readLines text :=
  scan_balanced _ hb

/-- The new file is read as the lines that were written. -/
theorem readLines_process {text : Text} (hb : Balanced (mark word) (readLines text)) :
    readLines (['\n'].intercalate (((partsOf word text).map (rewritten word)).flatMap Segment.lines)) =
      ((partsOf word text).map (rewritten word)).flatMap Segment.lines := by
  obtain ⟨-, hlines⟩ := partsOf_lines hb
  refine readLines_intercalate (fun hnil => ?_) fun l hl => ?_
  · -- A file has at least one line, so it has a part.
    obtain ⟨l, ls, hne⟩ := exists_cons_of_ne_nil (splitOn_ne_nil '\n' (universalNewlines text))
    have hparts : partsOf word text ≠ [] := by
      intro hempty
      rw [hempty, flatMap_nil, readLines, hne] at hlines
      cases hlines
    obtain ⟨p, parts, hp⟩ := exists_cons_of_ne_nil hparts
    rw [hp, map_cons, flatMap_cons] at hnil
    exact rewritten_lines_ne_nil p (append_eq_nil_iff.mp hnil).1
  · obtain ⟨q, hq, hl⟩ := mem_flatMap.mp hl
    obtain ⟨p, hp, rfl⟩ := mem_map.mp hq
    have hclean : ∀ l ∈ p.lines, Clean l := by
      intro l hl
      have hmem : l ∈ readLines text := hlines ▸ mem_flatMap.mpr ⟨p, hp, hl⟩
      exact readLines_clean hmem
    exact rewritten_clean hclean l hl

theorem flatten_pieces (parts : List (Segment Line)) :
    (parts.flatMap (pieces word)).flatten = (parts.map (rewritten word)).flatMap Segment.lines := by
  induction parts with
  | nil => rfl
  | cons p parts ih =>
    rw [flatMap_cons, flatten_append, pieces_flatten, ih, map_cons, flatMap_cons]

theorem map_rewritten_eq_self {parts : List (Segment Line)} (h : ∀ p ∈ parts, Distinct word p) :
    parts.map (rewritten word) = parts ∧ (parts.map (repeated word)).sum = 0 := by
  have hparts : parts.map (rewritten word) = parts.map id :=
    map_congr_left fun p hp => (rewritten_eq_self (h p hp)).1
  have hcounts : parts.map (repeated word) = parts.map fun _ => 0 :=
    map_congr_left fun p hp => (rewritten_eq_self (h p hp)).2
  rw [hparts, hcounts]
  exact ⟨map_id _, by simp⟩

/-- The parts of the new file. -/
theorem partsOf_process {text : Text} (hb : Balanced (mark word) (readLines text))
    (hk : ∀ p ∈ partsOf word text, KeepsBrackets word p) :
    partsOf word (['\n'].intercalate (((partsOf word text).map (rewritten word)).flatMap Segment.lines)) =
      (partsOf word text).map (rewritten word) := by
  rw [partsOf, readLines_process hb]
  refine scan_lines _ fun q hq => ?_
  obtain ⟨p, hp, rfl⟩ := mem_map.mp hq
  exact rewritten_proper ((partsOf_lines hb).1 p hp) (hk p hp)

/-- Conservative and idempotent. Of every file with balanced brackets the lines outside the choices, the
    preambles, the entries of symbols that occur once and the last lines are found again in their order; a
    file without repeated symbols keeps its lines, up to their line ends. If the brackets match also without
    the later entries of each symbol, no symbol is repeated in the new file, and it is a fixed point. -/
theorem process_conservative (word : Char → Bool) (text : Text) (hb : Balanced (mark word) (readLines text)) :
    ∃ out n, process word text = some (out, n) ∧
      (∃ ps : List (List Line), readLines out = ps.flatten ∧
        ((partsOf word text).flatMap (conserved word)).Sublist ps) ∧
      ((∀ p ∈ partsOf word text, Distinct word p) → out = universalNewlines text ∧ n = 0) ∧
      ((∀ p ∈ partsOf word text, KeepsBrackets word p) →
        (∀ p ∈ partsOf word out, Distinct word p) ∧ process word out = some (out, 0)) := by
  refine ⟨_, _, process_eq text, ⟨(partsOf word text).flatMap (pieces word), ?_, ?_⟩, fun hd => ?_, fun hk => ?_⟩
  · rw [readLines_process hb, flatten_pieces]
  · exact List.Sublist.flatMap_right _ fun p _ => conserved_sublist p
  · obtain ⟨hself, hzero⟩ := map_rewritten_eq_self hd
    refine ⟨?_, hzero⟩
    rw [hself, (partsOf_lines hb).2]
    exact intercalate_splitOn '\n'
  · have hparts := partsOf_process hb hk
    have hdistinct : ∀ p ∈ (partsOf word text).map (rewritten word), Distinct word p := by
      intro q hq
      obtain ⟨p, -, rfl⟩ := mem_map.mp hq
      exact rewritten_distinct p
    obtain ⟨hself, hzero⟩ := map_rewritten_eq_self hdistinct
    refine ⟨?_, ?_⟩
    · rw [hparts]
      exact hdistinct
    · rw [process_eq, hparts, hself, hzero]

/-- A choice with one symbol twice. -/
def repeatedChoice : Text :=
  "if N\nchoice\nconfig A\ndepends on P\nconfig B\nconfig A\ndepends on Q\nendchoice\nendif".toList

theorem process_conservative_repeated :
    Balanced (mark isWordChar) (readLines repeatedChoice) ∧
    (∀ p ∈ partsOf isWordChar repeatedChoice, KeepsBrackets isWordChar p) ∧
    ∃ out, process isWordChar repeatedChoice = some (out, 1) ∧ process isWordChar out = some (out, 0) := by
  have hb : Balanced (mark isWordChar) (readLines repeatedChoice) := by decide +kernel
  have hk : ∀ p ∈ partsOf isWordChar repeatedChoice, KeepsBrackets isWordChar p := by decide +kernel
  have hone : (process isWordChar repeatedChoice).map Prod.snd = some 1 := by decide +kernel
  obtain ⟨out, n, hrun, -, -, hagain⟩ := process_conservative isWordChar repeatedChoice hb
  obtain rfl : n = 1 := by simpa [hrun] using hone
  exact ⟨hb, hk, out, hrun, (hagain hk).2⟩

/-- A choice in a choice: the second entry of `A` ends the inner one. -/
def choiceInChoice : Text := "choice\nconfig A\nchoice\nconfig B\nconfig A\nendchoice\nendchoice".toList

/-- The `endchoice` behind the second entry of `A` is dropped with it, and the next run adds one at the end.
    A carriage return is not written back. -/
theorem process_drops_endchoice :
    Balanced (mark isWordChar) (readLines choiceInChoice) ∧
    ∃ out n, process isWordChar choiceInChoice = some (out, n) ∧
      process isWordChar out = some (out ++ "\nendchoice".toList, 0) ∧
      Balanced (mark isWordChar) (readLines ['\r']) ∧ process isWordChar ['\r'] = some (['\n'], 0) := by
  refine ⟨by decide +kernel, "choice\nconfig A\nchoice\nconfig B\nendchoice".toList, 1, ?_, ?_, ?_, ?_⟩
  · decide +kernel
  · decide +kernel
  · decide +kernel
  · decide +kernel

end PhoebusBsp.Kconfig

import PhoebusBsp.Kconfig.Visibility
import PhoebusBsp.Schemes.Nesting
import PhoebusBsp.Schemes.Grouping

/-! `process` of `fix-kconfig-choices.py`: a whole file.

        line                 line
        choice               choice            preamble
          prompt "P"    ──▶    prompt "P"
        config X             config X          one entry for each symbol, in the order
        config Y             config Y          in which the symbols appear first
        config X             endchoice
        endchoice            line
        line

    A block reaches to the `endchoice` of its depth, so a choice in a choice belongs to the outer block, and
    its first and last lines to the entries they stand behind. -/

namespace PhoebusBsp.Kconfig
open Schemes Nesting Grouping List

abbrev Text := List Char

/-! ### Reading -/

/-- The line ends of text mode. The flag says that the character before was a carriage return. -/
def newlines : Bool → Text → Text
  | _, [] => []
  | cr, c :: t =>
    if c = '\n' ∧ cr then newlines false t
    else if c = '\r' then '\n' :: newlines true t
    else c :: newlines false t

/-- What `read` makes of a file. -/
def universalNewlines (text : Text) : Text := newlines false text

def readLines (text : Text) : List Line := (universalNewlines text).splitOn '\n'

section Process

-- The characters of `\w`.
variable (word : Char → Bool)

/-! ### Patterns -/

/-- A keyword after leading space, up to the end of a word. -/
def keyword (kw l : Line) : Bool :=
  let l := lstrip l
  startsWith kw l && (l.drop kw.length).head?.all fun c => !word c

/-- `CHOICE_RE.match`. -/
def choiceMatch (l : Line) : Bool := keyword word "choice".toList l

/-- `ENDCHOICE_RE.match`. -/
def endchoiceMatch (l : Line) : Bool := keyword word "endchoice".toList l

def mark (l : Line) : Mark :=
  if choiceMatch word l then .opens else if endchoiceMatch word l then .closes else .plain

def isConfig (l : Line) : Bool := (configMatch word l).isSome

/-- `sym` of an entry. -/
def symbolOf (ent : List Line) : Option Line := ent.head?.bind (configMatch word)

/-! ### Writing -/

/-- The loop over the symbols: the lines, and how many groups had several entries. -/
def emitGroups (groups : Option Line → Option (List (List Line))) :
    List (Option Line) → Option (List Line × ℕ)
  | [] => some ([], 0)
  | sym :: order =>
    match groups sym with
    | none => none
    | some entries =>
      match mergeGroup entries, emitGroups groups order with
      | some merged, some (out, n) => some (merged ++ out, (if 1 < entries.length then 1 else 0) + n)
      | _, _ => none

/-- What is written for a line outside the blocks, or for a block. -/
def emit : Segment Line → Option (List Line × ℕ)
  | .line l => some ([l], 0)
  | .block block endline =>
    let (preamble, entries) := cut (isConfig word) block
    let g := groupBy (symbolOf word) entries
    match emitGroups g.groups g.order with
    | none => none
    | some (out, n) => some (preamble ++ out ++ [endline], n)

def emitAll : List (Segment Line) → Option (List Line × ℕ)
  | [] => some ([], 0)
  | p :: parts =>
    match emit word p, emitAll parts with
    | some (out, n), some (out', n') => some (out ++ out', n + n')
    | _, _ => none

/-- The outermost blocks of a file. One that does not end is given a last line. -/
def partsOf (text : Text) : List (Segment Line) := scan (mark word) "endchoice".toList none (readLines text)

/-- The new text and `merged_total`; `none` is an exception. -/
def process (text : Text) : Option (Text × ℕ) :=
  match emitAll word (partsOf word text) with
  | none => none
  | some (out, n) => some (['\n'].intercalate out, n)

end Process

/-! ### Clean lines -/

/-- A text without line ends. -/
def Clean (l : Line) : Prop := ∀ c ∈ l, c ≠ '\n' ∧ c ≠ '\r'

instance (l : Line) : Decidable (Clean l) := List.decidableBAll (fun c => c ≠ '\n' ∧ c ≠ '\r') l

theorem Clean.subset {a b : Line} (hb : Clean b) (h : a ⊆ b) : Clean a := fun c hc => hb c (h hc)

theorem Clean.append {a b : Line} (ha : Clean a) (hb : Clean b) : Clean (a ++ b) := by
  intro c hc
  rcases mem_append.mp hc with hc | hc
  · exact ha c hc
  · exact hb c hc

theorem Clean.intercalate {sep : Line} {ls : List Line} (hsep : Clean sep) (h : ∀ l ∈ ls, Clean l) :
    Clean (sep.intercalate ls) := by
  intro c hc
  rcases mem_of_mem_intercalate hc with hc | ⟨l, hl, hc⟩
  · exact hsep c hc
  · exact h l hl c hc

theorem lstrip_subset (l : Line) : lstrip l ⊆ l := (dropWhile_sublist _).subset

theorem rstrip_subset (l : Line) : rstrip l ⊆ l := by
  intro c hc
  have hdrop := (dropWhile_sublist isSpace).subset (mem_reverse.mp hc)
  exact mem_reverse.mp hdrop

theorem strip_subset (l : Line) : strip l ⊆ l := List.Subset.trans (rstrip_subset _) (lstrip_subset l)

theorem afterWord_subset {kw l r : Line} (h : afterWord kw l = some r) : r ⊆ l := by
  obtain ⟨c, r', hl, -, rfl⟩ := afterWord_eq_some h
  refine List.Subset.trans (lstrip_subset r') fun x hx => lstrip_subset l ?_
  rw [hl]
  exact mem_append_right _ (mem_cons_of_mem _ hx)

/-! ### Reading back -/

theorem newlines_clean (text : Text) (cr : Bool) : '\r' ∉ newlines cr text := by
  induction text generalizing cr with
  | nil => exact not_mem_nil
  | cons c t ih =>
    rw [newlines]
    split
    · exact ih false
    · split
      · rw [mem_cons, not_or]
        exact ⟨by decide, ih true⟩
      · next hc =>
        rw [mem_cons, not_or]
        exact ⟨Ne.symm hc, ih false⟩

theorem universalNewlines_eq_self {text : Text} (h : '\r' ∉ text) : universalNewlines text = text := by
  unfold universalNewlines
  induction text with
  | nil => rfl
  | cons c t ih =>
    rw [mem_cons, not_or] at h
    rw [newlines, if_neg (by simp), if_neg (Ne.symm h.1), ih h.2]

theorem readLines_clean {text : Text} {l : Line} (hl : l ∈ readLines text) : Clean l := by
  obtain ⟨hend, hsub⟩ := splitOn_field _ l hl
  intro c hc
  refine ⟨?_, ?_⟩
  · rintro rfl
    exact hend hc
  · rintro rfl
    exact newlines_clean text false (hsub hc)

/-- Clean lines are read as they were written. -/
theorem readLines_intercalate {ls : List Line} (hne : ls ≠ []) (h : ∀ l ∈ ls, Clean l) :
    readLines (['\n'].intercalate ls) = ls := by
  have hcr : '\r' ∉ ['\n'].intercalate ls := by
    intro hmem
    rcases mem_of_mem_intercalate hmem with hsep | ⟨l, hl, hc⟩
    · exact absurd hsep (by decide)
    · exact (h l hl '\r' hc).2 rfl
  rw [readLines, universalNewlines_eq_self hcr]
  exact splitOn_intercalate '\n' (fun l hl hc => (h l hl '\n' hc).1 rfl) hne

end PhoebusBsp.Kconfig

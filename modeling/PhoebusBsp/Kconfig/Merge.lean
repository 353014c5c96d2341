import Mathlib.Data.List.Basic

/-! `merge_group` of `fix-kconfig-choices.py`: the entries of one choice value become one entry.

    Lines are texts, as in the source: expressions are joined as texts, duplicates are found by
    comparing texts, and whether a `select` has its own condition is decided by looking for `" if "`.

        config X                config X
        depends on A            depends on (A) || (B)
        select S         ──▶    ...
        config X                select S if (A)
        depends on B -/

namespace PhoebusBsp.Kconfig

/-- A line without its line end. -/
abbrev Line := List Char

/-! ### Python's texts -/

/-- `str.isspace`, which is also `\s` of the patterns. -/
def isSpace (c : Char) : Bool :=
  let n := c.toNat
  (9 ≤ n && n ≤ 13) || (28 ≤ n && n ≤ 32) || n == 0x85 || n == 0xa0 || n == 0x1680 ||
    (0x2000 ≤ n && n ≤ 0x200a) || n == 0x2028 || n == 0x2029 || n == 0x202f || n == 0x205f ||
    n == 0x3000

def lstrip (l : Line) : Line := l.dropWhile isSpace
def rstrip (l : Line) : Line := (l.reverse.dropWhile isSpace).reverse
def strip (l : Line) : Line := rstrip (lstrip l)

def startsWith (p l : Line) : Bool := p.isPrefixOf l

/-- `p in l`. -/
def contains (p l : Line) : Bool := l.tails.any (startsWith p)

/-- What follows a word and at least one space, after leading space. -/
def afterWord (word l : Line) : Option Line :=
  let l := lstrip l
  if startsWith word l then
    match l.drop word.length with
    | c :: r => if isSpace c then some (lstrip r) else none
    | [] => none
  else none

/-- Group 2 of `DEPENDS_RE.match`. -/
def dependsMatch (l : Line) : Option Line := afterWord "depends on".toList l

/-- `SELECT_RE.match`. -/
def isSelect (l : Line) : Bool := (afterWord "select".toList l).isSome

/-- `\w`. -/
def isWordChar (c : Char) : Bool := c.isAlphanum || c == '_'

/-- Group 1 of `CONFIG_RE.match`, for what `\w` matches. -/
def configMatch (word : Char → Bool) (l : Line) : Option Line :=
  match afterWord "config".toList l with
  | none => none
  | some r =>
    let sym := r.takeWhile word
    if sym ≠ [] ∧ lstrip (r.dropWhile word) = [] then some sym else none

/-! ### Merging -/

def paren (d : Line) : Line := '(' :: (d ++ [')'])

/-- The expressions of an entry's `depends on` lines. -/
def own (ent : List Line) : List Line := ent.filterMap fun l => (dependsMatch l).map strip

/-- `own_expr`: the entry's guard, if it has one. -/
def ownExpr (ent : List Line) : Option Line :=
  if own ent = [] then none
  else some (List.intercalate " && ".toList ((own ent).map paren))

/-- A `select` without a condition of its own gets the guard of its entry. -/
def guarded (guard : Option Line) (ln : Line) : Line :=
  match guard with
  | none => ln
  | some e =>
    if contains " if ".toList (strip ln) then ln else rstrip ln ++ " if ".toList ++ e

/-- The four collections `merge_group` fills. -/
structure Acc where
  out : List Line
  depends : List Line
  selects : List Line
  seenSelect : List Line
  deriving DecidableEq

/-- The body of the inner loop; `first` is `i == 0`. -/
def addLine (first : Bool) (guard : Option Line) (acc : Acc) (ln : Line) : Acc :=
  match dependsMatch ln with
  | some m =>
    let expr := strip m
    if expr ≠ [] ∧ expr ∉ acc.depends then { acc with depends := acc.depends ++ [expr] } else acc
  | none =>
    if isSelect ln then
      let ln := guarded guard ln
      let key := strip ln
      if key ∈ acc.seenSelect then acc
      else { acc with
        seenSelect := acc.seenSelect ++ [key]
        selects := acc.selects ++ [ln] }
    else if first then { acc with out := acc.out ++ [ln] }
    else acc

def addEntry (first : Bool) (acc : Acc) (ent : List Line) : Acc :=
  ent.foldl (addLine first (ownExpr ent)) acc

/-- The two nested loops. -/
def collect : List (List Line) → Acc
  | [] => ⟨[], [], [], []⟩
  | ent :: rest => rest.foldl (addEntry false) (addEntry true ⟨[], [], [], []⟩ ent)

/-- `joined`. -/
def joinDepends (depends : List Line) : Line :=
  List.intercalate " || ".toList
    (depends.map fun d => if startsWith ['('] d then d else paren d)

def dependsLine (config : Line) (depends : List Line) : List Line :=
  if depends = [] then []
  else [config.takeWhile isSpace ++ "depends on ".toList ++ joinDepends depends]

/-- `none` is the `IndexError` of `out[0]`. -/
def mergeGroup (entries : List (List Line)) : Option (List Line) :=
  match entries with
  | [ent] => some ent
  | _ =>
    let acc := collect entries
    match acc.out with
    | [] => none
    | config :: body => some (config :: (dependsLine config acc.depends ++ body ++ acc.selects))

/-- A group of duplicates: several entries, each starting with the `config` line of one symbol. -/
structure Group (sym : Line) (entries : List (List Line)) : Prop where
  several : 2 ≤ entries.length
  config : ∀ ent ∈ entries, ∃ l rest, ent = l :: rest ∧ configMatch isWordChar l = some sym

end PhoebusBsp.Kconfig

import PhoebusBsp.Kconfig.Merge
import PhoebusBsp.Schemes.BoolExpr

/-! How Kconfig reads the lines of an entry: the condition of a `depends on` line, the symbol and the
    condition of a `select` line. Conditions are texts over symbols, `!`, `&&`, `||` and parentheses;
    `lex` cuts a text into tokens, which `BoolExpr` reads.

    The lemmas say what the texts mean that `merge_group` puts together. -/

namespace PhoebusBsp.Kconfig
open Schemes BoolExpr List

/-! ### Reading -/

def isBlank (c : Char) : Bool := c == ' ' || c == '\t'

/-- A character of a symbol. -/
def isSymChar (c : Char) : Bool := c.isAlphanum || c == '_' || c == '-'

/-- Put a character in front of the first token, which it belongs to if a symbol character
    follows it. -/
def addChar (c : Char) (follows : Bool) : List (Token Line) → List (Token Line)
  | .sym w :: ts => if follows then .sym (c :: w) :: ts else .sym [c] :: .sym w :: ts
  | ts => .sym [c] :: ts

def lex : Line → Option (List (Token Line))
  | [] => some []
  | c :: cs =>
    if isBlank c then lex cs
    else if isSymChar c then (lex cs).map (addChar c (cs.head?.any isSymChar))
    else if c = '!' then (lex cs).map (.not :: ·)
    else if c = '(' then (lex cs).map (.lpar :: ·)
    else if c = ')' then (lex cs).map (.rpar :: ·)
    else if c = '&' then
      match cs with
      | d :: cs => if d = '&' then (lex cs).map (.and :: ·) else none
      | [] => none
    else if c = '|' then
      match cs with
      | d :: cs => if d = '|' then (lex cs).map (.or :: ·) else none
      | [] => none
    else none

/-- The truth value of a condition, unless it is malformed. -/
def cond (ρ : Line → Bool) (text : Line) : Option Bool := (lex text).bind (value ρ)

def Holds (ρ : Line → Bool) (text : Line) : Prop := cond ρ text = some true

instance (ρ : Line → Bool) (text : Line) : Decidable (Holds ρ text) :=
  inferInstanceAs (Decidable (_ = _))

/-- An entry is visible when all its `depends on` lines hold. -/
def Visible (ρ : Line → Bool) (ent : List Line) : Prop := ∀ d ∈ own ent, Holds ρ d

instance (ρ : Line → Bool) (ent : List Line) : Decidable (Visible ρ ent) :=
  inferInstanceAs (Decidable (∀ d ∈ own ent, Holds ρ d))

/-- The symbol of a `select` line and its condition, if it has one. -/
def selectOf (l : Line) : Option (Line × Option Line) :=
  match afterWord "select".toList (strip l) with
  | none => none
  | some r =>
    let sym := r.takeWhile isSymChar
    let rest := lstrip (r.dropWhile isSymChar)
    if sym = [] then none
    else if rest = [] then some (sym, none)
    else if startsWith "if".toList rest && !(rest.drop 2).head?.any isSymChar then
      some (sym, some (rest.drop 2))
    else none

/-- The entry's lines select the symbol. -/
def Selects (ρ : Line → Bool) (ent : List Line) (sym : Line) : Prop :=
  ∃ l ∈ ent, ∃ c, selectOf l = some (sym, c) ∧ ∀ t ∈ c, Holds ρ t

instance (ρ : Line → Bool) (ent : List Line) (sym : Line) : Decidable (Selects ρ ent sym) :=
  decidable_of_iff (∃ l ∈ ent, ∃ p ∈ selectOf l, p.1 = sym ∧ ∀ t ∈ p.2, Holds ρ t) <| by
    refine exists_congr fun l => and_congr_right fun _ => ⟨?_, ?_⟩
    · rintro ⟨⟨s, c⟩, hp, rfl, hc⟩
      exact ⟨c, hp, hc⟩
    · rintro ⟨c, hp, hc⟩
      exact ⟨(sym, c), hp, rfl, hc⟩

/-! ### Well-formed conditions -/

/-- The text spells an expression. -/
def Spelled (text : Line) (e : Expr Line) : Prop := ∃ ts, lex text = some ts ∧ Spells .disj ts e

def WellFormed (text : Line) : Prop := ∃ e, Spelled text e

theorem Spelled.cond {text : Line} {e : Expr Line} (h : Spelled text e) (ρ : Line → Bool) :
    cond ρ text = some (e.eval ρ) := by
  obtain ⟨ts, hlex, hs⟩ := h
  rw [Kconfig.cond, hlex]
  exact hs.value ρ

theorem Spelled.holds_iff {text : Line} {e : Expr Line} (h : Spelled text e) (ρ : Line → Bool) :
    Holds ρ text ↔ e.eval ρ = true := by
  rw [Holds, h.cond]
  exact Option.some_inj

/-! ### Tokens of texts put together -/

variable {ts us : List (Token Line)}

theorem addChar_append (c : Char) (f : Bool)
    (h : ts = [] → f = false ∨ us = []) : addChar c f (ts ++ us) = addChar c f ts ++ us := by
  match ts, us with
  | [], [] => rfl
  | [], .sym w :: us =>
    have : f = false := by simpa using h rfl
    simp [addChar, this]
  | [], .not :: us => rfl
  | [], .and :: us => rfl
  | [], .or :: us => rfl
  | [], .lpar :: us => rfl
  | [], .rpar :: us => rfl
  | .sym w :: ts, us =>
    simp only [cons_append, addChar]
    split <;> rfl
  | .not :: ts, us => rfl
  | .and :: ts, us => rfl
  | .or :: ts, us => rfl
  | .lpar :: ts, us => rfl
  | .rpar :: ts, us => rfl

theorem blank_of_symChar {c : Char} (h : isSymChar c = true) : isBlank c = false := by
  by_contra hb
  simp only [isBlank, Bool.not_eq_false, Bool.or_eq_true, beq_iff_eq] at hb
  rcases hb with rfl | rfl <;> exact absurd h (by decide)

theorem lex_cons (c : Char) (cs : Line) :
    lex (c :: cs) =
      if isBlank c then lex cs
      else if isSymChar c then (lex cs).map (addChar c (cs.head?.any isSymChar))
      else if c = '!' then (lex cs).map (.not :: ·)
      else if c = '(' then (lex cs).map (.lpar :: ·)
      else if c = ')' then (lex cs).map (.rpar :: ·)
      else if c = '&' then
        match cs with
        | d :: cs => if d = '&' then (lex cs).map (.and :: ·) else none
        | [] => none
      else if c = '|' then
        match cs with
        | d :: cs => if d = '|' then (lex cs).map (.or :: ·) else none
        | [] => none
      else none :=
  lex.eq_def (c :: cs)

/-- A symbol character starts a token. -/
theorem lex_ne_nil {c : Char} {cs : Line} (h : isSymChar c = true) : lex (c :: cs) ≠ some [] := by
  rw [lex_cons, if_neg (by simp [blank_of_symChar h]), if_pos h]
  cases lex cs with
  | none => simp
  | some ts =>
    match ts with
    | .sym w :: ts => simp only [Option.map_some, addChar]; split <;> simp
    | [] | .not :: ts | .and :: ts | .or :: ts | .lpar :: ts | .rpar :: ts => simp [addChar]

/-- Texts may be read one after the other where no symbol continues over the seam. -/
theorem lex_append {b : Line} (hb : b.head?.any isSymChar = false) :
    ∀ {a : Line} {ts}, lex a = some ts → lex (a ++ b) = (lex b).map (ts ++ ·)
  | [], ts, h => by
    obtain rfl : [] = ts := by simpa [lex] using h
    simp
  | c :: cs, ts, h => by
    -- every branch but a symbol character's puts one fixed token in front
    have hcons : ∀ (t : Token Line) (cs' : Line), (lex cs').map (t :: ·) = some ts →
        (∀ {us}, lex cs' = some us → lex (cs' ++ b) = (lex b).map (us ++ ·)) →
        (lex (cs' ++ b)).map (t :: ·) = (lex b).map (ts ++ ·) := by
      intro t cs' h ih
      obtain ⟨us, hus, rfl⟩ := Option.map_eq_some_iff.mp h
      rw [ih hus, Option.map_map]
      rfl
    rw [cons_append, lex_cons]
    rw [lex_cons] at h
    split
    · next hc =>
      rw [if_pos hc] at h
      exact lex_append hb h
    · next hc =>
      rw [if_neg hc] at h
      split
      · next hs =>
        rw [if_pos hs] at h
        obtain ⟨us, hus, rfl⟩ := Option.map_eq_some_iff.mp h
        have hhead : (cs ++ b).head?.any isSymChar = cs.head?.any isSymChar := by
          cases cs <;> simp [hb]
        rw [lex_append hb hus, Option.map_map, hhead]
        refine congrArg (fun f => Option.map f (lex b)) (funext fun vs => ?_)
        refine addChar_append c _ fun hnil => Or.inl ?_
        cases cs with
        | nil => rfl
        | cons d ds =>
          by_contra hd
          exact lex_ne_nil (by simpa using hd) (hus.trans (congrArg some hnil))
      · next hs =>
        rw [if_neg hs] at h
        split_ifs at h ⊢ with h1 h2 h3 h4 h5
        · exact hcons _ cs h fun hus => lex_append hb hus
        · exact hcons _ cs h fun hus => lex_append hb hus
        · exact hcons _ cs h fun hus => lex_append hb hus
        · match cs, h with
          | d :: ds, h =>
            simp only [cons_append] at h ⊢
            split_ifs at h ⊢
            exact hcons _ ds h fun hus => lex_append hb hus
        · match cs, h with
          | d :: ds, h =>
            simp only [cons_append] at h ⊢
            split_ifs at h ⊢
            exact hcons _ ds h fun hus => lex_append hb hus

theorem lex_paren {d : Line} (h : lex d = some ts) : lex (paren d) = some (.lpar :: (ts ++ [.rpar])) := by
  have hd : lex (d ++ [')']) = some (ts ++ [.rpar]) := by
    rw [lex_append rfl h]
    rfl
  rw [paren, lex_cons, if_neg (by decide), if_neg (by decide), if_neg (by decide), if_pos rfl, hd]
  rfl

theorem lex_or {a b : Line} (ha : lex a = some ts)
    (hb : lex b = some us) : lex (a ++ " || ".toList ++ b) = some (ts ++ .or :: us) := by
  have hsep : lex (" || ".toList ++ b) = some (.or :: us) := by
    simp [lex_cons, isBlank, isSymChar, hb]
  rw [append_assoc, lex_append rfl ha, hsep]
  rfl

theorem lex_and {a b : Line} (ha : lex a = some ts)
    (hb : lex b = some us) : lex (a ++ " && ".toList ++ b) = some (ts ++ .and :: us) := by
  have hsep : lex (" && ".toList ++ b) = some (.and :: us) := by
    simp [lex_cons, isBlank, isSymChar, hb]
  rw [append_assoc, lex_append rfl ha, hsep]
  rfl

theorem intercalate_cons_cons {α : Type} (sep x y : List α) (l : List (List α)) :
    List.intercalate sep (x :: y :: l) = x ++ sep ++ List.intercalate sep (y :: l) := by
  simp [List.intercalate]

/-! ### The texts `merge_group` puts together -/

theorem Spelled.paren {d : Line} {e : Expr Line} (h : Spelled d e) :
    ∃ ts, lex (paren d) = some ts ∧ Spells .unary ts e := by
  obtain ⟨ts, hlex, hs⟩ := h
  exact ⟨_, lex_paren hlex, hs.paren⟩

/-- One alternative of `joined`. -/
theorem Spelled.alternative {d : Line} {e : Expr Line} (h : Spelled d e) :
    Spelled (if startsWith ['('] d then d else Kconfig.paren d) e := by
  split
  · exact h
  · obtain ⟨ts, hlex, hs⟩ := h.paren
    exact ⟨ts, hlex, .ofConj (.ofUnary hs)⟩

/-- `joined` holds exactly when one of the expressions does. -/
theorem joinDepends_spelled : ∀ {ds : List Line}, ds ≠ [] → (∀ d ∈ ds, WellFormed d) →
    ∃ e, Spelled (joinDepends ds) e ∧ ∀ ρ, e.eval ρ = true ↔ ∃ d ∈ ds, Holds ρ d
  | [d], _, hwf => by
    obtain ⟨e, he⟩ := hwf d mem_cons_self
    refine ⟨e, ?_, fun ρ => ?_⟩
    · simpa [joinDepends, List.intercalate] using he.alternative
    · rw [← he.holds_iff]
      simp
  | d :: d' :: ds, _, hwf => by
    obtain ⟨a, ha⟩ := hwf d mem_cons_self
    obtain ⟨b, ⟨us, hus, hb⟩, hval⟩ := @joinDepends_spelled (d' :: ds) (by simp)
      fun x hx => hwf x (mem_cons_of_mem _ hx)
    obtain ⟨ts, hts, has⟩ := ha.alternative
    obtain ⟨e, hes, hev⟩ := has.joinOr hb
    refine ⟨e, ⟨_, ?_, hes⟩, fun ρ => ?_⟩
    · rw [joinDepends, map_cons, map_cons, intercalate_cons_cons]
      exact lex_or hts hus
    · rw [hev, Bool.or_eq_true, hval, ← ha.holds_iff]
      simp

/-- The guard of an entry holds exactly when all its expressions do. -/
theorem guard_spelled : ∀ {ds : List Line}, ds ≠ [] → (∀ d ∈ ds, WellFormed d) →
    ∃ ts e, lex (List.intercalate " && ".toList (ds.map paren)) = some ts ∧ Spells .conj ts e ∧
      ∀ ρ, e.eval ρ = true ↔ ∀ d ∈ ds, Holds ρ d
  | [d], _, hwf => by
    obtain ⟨e, he⟩ := hwf d mem_cons_self
    obtain ⟨ts, hlex, hs⟩ := he.paren
    refine ⟨ts, e, by simpa [List.intercalate] using hlex, .ofUnary hs, fun ρ => ?_⟩
    rw [← he.holds_iff]
    simp
  | d :: d' :: ds, _, hwf => by
    obtain ⟨a, ha⟩ := hwf d mem_cons_self
    obtain ⟨us, b, hus, hb, hval⟩ := @guard_spelled (d' :: ds) (by simp)
      fun x hx => hwf x (mem_cons_of_mem _ hx)
    obtain ⟨ts, hts, has⟩ := ha.paren
    obtain ⟨e, hes, hev⟩ := (Spells.ofUnary has).joinAnd hb
    refine ⟨_, e, ?_, hes, fun ρ => ?_⟩
    · rw [map_cons, map_cons, intercalate_cons_cons]
      exact lex_and hts hus
    · rw [hev, Bool.and_eq_true, hval, ← ha.holds_iff]
      simp

theorem ownExpr_holds {ent : List Line} {guard : Line} (h : ownExpr ent = some guard)
    (hwf : ∀ d ∈ own ent, WellFormed d) (ρ : Line → Bool) : Holds ρ guard ↔ Visible ρ ent := by
  unfold ownExpr at h
  split at h
  · cases h
  · next hne =>
    obtain ⟨ts, e, hlex, hs, hval⟩ := guard_spelled hne hwf
    rw [← Option.some.inj h, Spelled.holds_iff ⟨ts, hlex, .ofConj hs⟩]
    exact hval ρ

end PhoebusBsp.Kconfig

import Mathlib.Data.List.Basic

/-! Boolean expressions as token lists. The grammar has the usual precedences,

        disj  ::= conj | disj "||" conj
        conj  ::= unary | conj "&&" unary
        unary ::= symbol | "!" unary | "(" disj ")"

    `Spells` is that grammar with the expression a token list spells; `value` reads a token list from
    left to right and needs no tree. The two agree, so a token list has at most one value, and the
    value of tokens put together from well-formed parts can be computed from the parts. -/

namespace PhoebusBsp.Schemes.BoolExpr

variable {S : Type}

inductive Token (S : Type) where
  | sym (s : S)
  | not
  | and
  | or
  | lpar
  | rpar
  deriving DecidableEq, Repr

inductive Expr (S : Type) where
  | sym (s : S)
  | not (e : Expr S)
  | and (a b : Expr S)
  | or (a b : Expr S)

/-- The truth value under an assignment. -/
def Expr.eval (ρ : S → Bool) : Expr S → Bool
  | .sym s => ρ s
  | .not e => !e.eval ρ
  | .and a b => a.eval ρ && b.eval ρ
  | .or a b => a.eval ρ || b.eval ρ

inductive Level where
  | unary
  | conj
  | disj

/-- The grammar. -/
inductive Spells : Level → List (Token S) → Expr S → Prop
  | sym (s : S) : Spells .unary [.sym s] (.sym s)
  | not {ts e} (h : Spells .unary ts e) : Spells .unary (.not :: ts) (.not e)
  | paren {ts e} (h : Spells .disj ts e) : Spells .unary (.lpar :: (ts ++ [.rpar])) e
  | ofUnary {ts e} (h : Spells .unary ts e) : Spells .conj ts e
  | and {ts us a b} (ha : Spells .conj ts a) (hb : Spells .unary us b) :
      Spells .conj (ts ++ .and :: us) (.and a b)
  | ofConj {ts e} (h : Spells .conj ts e) : Spells .disj ts e
  | or {ts us a b} (ha : Spells .disj ts a) (hb : Spells .conj us b) :
      Spells .disj (ts ++ .or :: us) (.or a b)

/-! ### Reading from left to right -/

/-- An open parenthesis: the alternatives read so far, the factors of the current one, and whether
    the next factor is negated. -/
structure Frame where
  disj : Bool
  conj : Bool
  neg : Bool

def Frame.fresh : Frame := ⟨false, true, false⟩

def Frame.result (f : Frame) : Bool := f.disj || f.conj

/-- The next factor has this value. -/
def Frame.factor (f : Frame) (v : Bool) : Frame := ⟨f.disj, f.conj && (v != f.neg), false⟩

/-- `operand`: a factor must come next. -/
structure Reader where
  operand : Bool
  top : Frame
  stack : List Frame

/-- One token more; `none` is an error of the reading. -/
def Reader.next (ρ : S → Bool) (r : Reader) : Token S → Option Reader
  | .sym s => if r.operand then some ⟨false, r.top.factor (ρ s), r.stack⟩ else none
  | .not => if r.operand then some { r with top := { r.top with neg := !r.top.neg } } else none
  | .lpar => if r.operand then some ⟨true, .fresh, r.top :: r.stack⟩ else none
  | .and => if r.operand then none else some { r with operand := true }
  | .or => if r.operand then none else some ⟨true, ⟨r.top.result, true, false⟩, r.stack⟩
  | .rpar =>
    match r.operand, r.stack with
    | false, f :: stack => some ⟨false, f.factor r.top.result, stack⟩
    | _, _ => none

def Reader.read (ρ : S → Bool) (r : Reader) : List (Token S) → Option Reader
  | [] => some r
  | t :: ts => (r.next ρ t).bind fun r => r.read ρ ts

/-- The value of a token list, unless it is malformed. -/
def value (ρ : S → Bool) (ts : List (Token S)) : Option Bool :=
  match Reader.read ρ ⟨true, .fresh, []⟩ ts with
  | some ⟨false, top, []⟩ => some top.result
  | _ => none

theorem Reader.read_append (ρ : S → Bool) (r : Reader) (ts us : List (Token S)) :
    r.read ρ (ts ++ us) = (r.read ρ ts).bind fun r => r.read ρ us := by
  induction ts generalizing r with
  | nil => rfl
  | cons t ts ih =>
    simp only [List.cons_append, Reader.read]
    cases r.next ρ t with
    | none => rfl
    | some r' => exact ih r'

/-- What reading a part of each level does to the reader. -/
def Reads (ρ : S → Bool) : Level → List (Token S) → Expr S → Prop
  | .unary, ts, e => ∀ (f : Frame) (stack : List Frame),
      Reader.read ρ ⟨true, f, stack⟩ ts = some ⟨false, f.factor (e.eval ρ), stack⟩
  | .conj, ts, e => ∀ (d c : Bool) (stack : List Frame),
      Reader.read ρ ⟨true, ⟨d, c, false⟩, stack⟩ ts = some ⟨false, ⟨d, c && e.eval ρ, false⟩, stack⟩
  | .disj, ts, e => ∀ (d : Bool) (stack : List Frame), ∃ d' c',
      Reader.read ρ ⟨true, ⟨d, true, false⟩, stack⟩ ts = some ⟨false, ⟨d', c', false⟩, stack⟩ ∧
        (d' || c') = (d || e.eval ρ)

theorem Spells.reads (ρ : S → Bool) {l : Level} {ts : List (Token S)} {e : Expr S}
    (h : Spells l ts e) : Reads ρ l ts e := by
  induction h with
  | sym s => intro f stack; rfl
  | not _ ih =>
    intro f stack
    simp only [Reader.read, Reader.next, if_true, Option.bind_some]
    rw [ih]
    simp [Frame.factor, Expr.eval]
  | paren _ ih =>
    intro f stack
    obtain ⟨d, c, hr, hv⟩ := ih false (f :: stack)
    simp only [Reader.read, Reader.next, if_true, Option.bind_some, Reader.read_append]
    rw [show Frame.fresh = ⟨false, true, false⟩ from rfl, hr]
    simpa [Reader.read, Reader.next, Frame.result] using congrArg f.factor hv
  | ofUnary _ ih =>
    intro d c stack
    rw [ih]
    simp [Frame.factor]
  | and _ _ iha ihb =>
    intro d c stack
    rw [Reader.read_append, iha]
    simp only [Option.bind_some, Reader.read, Reader.next]
    rw [if_neg (by decide), Option.bind_some, ihb]
    simp [Frame.factor, Expr.eval, Bool.and_assoc]
  | ofConj _ ih =>
    intro d stack
    exact ⟨d, _, ih d true stack, by rw [Bool.true_and]⟩
  | @or _ _ _ b _ _ iha ihb =>
    intro d stack
    obtain ⟨d', c', hr, hv⟩ := iha d stack
    refine ⟨d' || c', true && b.eval ρ, ?_, ?_⟩
    · rw [Reader.read_append, hr]
      simp only [Option.bind_some, Reader.read, Reader.next]
      rw [if_neg (by decide), Option.bind_some]
      exact ihb (d' || c') true stack
    · rw [hv, Bool.true_and, Bool.or_assoc]
      rfl

/-- Reading gives the value of the expression spelled. -/
theorem Spells.value {ts : List (Token S)} {e : Expr S} (h : Spells .disj ts e) (ρ : S → Bool) :
    value ρ ts = some (e.eval ρ) := by
  obtain ⟨d, c, hr, hv⟩ := h.reads ρ false []
  simp only [BoolExpr.value, Frame.fresh]
  rw [hr]
  simpa [Frame.result] using hv

/-! ### Putting token lists together -/

/-- Alternatives may be joined without parentheses. -/
theorem Spells.joinOr {ts us : List (Token S)} {a : Expr S} (ha : Spells .disj ts a) :
    ∀ {b : Expr S}, Spells .disj us b →
      ∃ e, Spells .disj (ts ++ .or :: us) e ∧ ∀ ρ, e.eval ρ = (a.eval ρ || b.eval ρ)
  | _, .ofConj hb => ⟨_, ha.or hb, fun _ => rfl⟩
  | _, .or hb hc => by
    obtain ⟨e, he, hv⟩ := ha.joinOr hb
    refine ⟨_, by simpa using he.or hc, fun ρ => ?_⟩
    simp [Expr.eval, hv, Bool.or_assoc]

/-- So may factors. -/
theorem Spells.joinAnd {ts us : List (Token S)} {a : Expr S} (ha : Spells .conj ts a) :
    ∀ {b : Expr S}, Spells .conj us b →
      ∃ e, Spells .conj (ts ++ .and :: us) e ∧ ∀ ρ, e.eval ρ = (a.eval ρ && b.eval ρ)
  | _, .ofUnary hb => ⟨_, ha.and hb, fun _ => rfl⟩
  | _, .and hb hc => by
    obtain ⟨e, he, hv⟩ := ha.joinAnd hb
    refine ⟨_, by simpa using he.and hc, fun ρ => ?_⟩
    simp [Expr.eval, hv, Bool.and_assoc]

end PhoebusBsp.Schemes.BoolExpr

import PhoebusBsp.Schemes.Grouping
import Mathlib.Data.List.Infix
import Mathlib.Data.List.TakeWhile

/-! Paths with slashes, as texts and as lists of components.

        text          "/a/b/c"            join, basename, normalise, prefix of texts
        components    ["a", "b", "c"]     append, last, resolve,   prefix of lists

    `normPath`, `joinPath` and `baseName` are the functions of POSIX systems on texts. On normal
    absolute paths (`render` of plain components) they do what the right column says. -/

namespace PhoebusBsp.Schemes.Paths
open List

abbrev Name := List Char

def dot : Name := ['.']

def dotdot : Name := ['.', '.']

/-! ### Functions on texts -/

/-- An absolute second path replaces the first. -/
def joinPath (a b : Name) : Name :=
  if b.head? = some '/' then b
  else if a = [] ∨ a.getLast? = some '/' then a ++ b
  else a ++ '/' :: b

/-- What stands behind the last slash. -/
def baseName (p : Name) : Name := (p.reverse.takeWhile fun c => c ≠ '/').reverse

/-- Two slashes at the front are kept, three or more are one. -/
def initialSlashes (p : Name) : ℕ :=
  if ['/'].isPrefixOf p then
    if ['/', '/'].isPrefixOf p && !(['/', '/', '/'].isPrefixOf p) then 2 else 1
  else 0

/-- One component: nothing for an empty one and for a dot, one step up for two dots. -/
def normComp (rooted : Bool) (comps : List Name) (comp : Name) : List Name :=
  if comp = [] ∨ comp = dot then comps
  else if comp ≠ dotdot ∨ (rooted = false ∧ comps = []) ∨ comps.getLast? = some dotdot then comps ++ [comp]
  else comps.dropLast

def normPath (p : Name) : Name :=
  if p = [] then dot
  else
    let slashes := initialSlashes p
    let comps := (p.splitOn '/').foldl (normComp (slashes ≠ 0)) []
    let path := List.replicate slashes '/' ++ ['/'].intercalate comps
    if path = [] then dot else path

/-! ### Components -/

/-- A component that stands for itself. -/
structure Plain (comp : Name) : Prop where
  nonempty : comp ≠ []
  ne_dot : comp ≠ dot
  ne_dotdot : comp ≠ dotdot
  noSlash : '/' ∉ comp

instance (comp : Name) : Decidable (Plain comp) :=
  decidable_of_iff (comp ≠ [] ∧ comp ≠ dot ∧ comp ≠ dotdot ∧ '/' ∉ comp)
    ⟨fun h => ⟨h.1, h.2.1, h.2.2.1, h.2.2.2⟩, fun h => ⟨h.1, h.2, h.3, h.4⟩⟩

/-- The absolute path of some components. -/
def render (comps : List Name) : Name := '/' :: ['/'].intercalate comps

/-- Where a relative path leads. -/
def resolve (comps : List Name) (rel : List Name) : List Name := rel.foldl (normComp true) comps

section Components

variable {comps comps' rel : List Name} {comp b : Name}

theorem splitOn_render (h : ∀ c ∈ comps, Plain c) (hne : comps ≠ []) :
    (render comps).splitOn '/' = [] :: comps := by
  have hcons : render comps = [] ++ '/' :: ['/'].intercalate comps := rfl
  rw [hcons, splitOn_append_cons_self,
    splitOn_intercalate '/' (fun c hc => (h c hc).noSlash) hne]
  rfl

/-- A normal path has no component of two dots. -/
theorem dotdot_notMem_render (h : ∀ c ∈ comps, Plain c) : dotdot ∉ (render comps).splitOn '/' := by
  cases comps with
  | nil => decide
  | cons c cs =>
    rw [splitOn_render h (cons_ne_nil c cs), mem_cons, not_or]
    exact ⟨nofun, fun hmem => (h dotdot hmem).ne_dotdot rfl⟩

/-- The first component gives the first character. -/
theorem head_intercalate (h : ∀ c ∈ comps, Plain c) (hne : comps ≠ []) :
    ∃ x rest, ['/'].intercalate comps = x :: rest ∧ x ≠ '/' := by
  cases comps with
  | nil => exact absurd rfl hne
  | cons c cs =>
    have hc := h c mem_cons_self
    obtain ⟨x, xs, rfl⟩ := exists_cons_of_ne_nil hc.nonempty
    have hx : x ≠ '/' := fun hx => hc.noSlash (hx ▸ mem_cons_self)
    cases cs with
    | nil => exact ⟨x, xs ++ [], rfl, hx⟩
    | cons d ds => exact ⟨x, _, rfl, hx⟩

theorem getLast_render (h : ∀ c ∈ comps, Plain c) (hne : comps ≠ []) :
    (render comps).getLast? ≠ some '/' := by
  intro hlast
  obtain ⟨front, hfront⟩ := List.getLast?_eq_some_iff.mp hlast
  -- a slash at the end would make an empty last component
  have hsplit := splitOn_render h hne
  rw [hfront, splitOn_append_cons_self, splitOn_nil] at hsplit
  have hempty : (([] : Name) :: comps).getLast? = some [] := by
    rw [← hsplit, List.getLast?_append, List.getLast?_singleton, Option.some_or]
  rw [List.getLast?_cons, List.getLast?_eq_some_getLast hne, Option.getD_some] at hempty
  exact (h _ (getLast_mem hne)).nonempty (Option.some.inj hempty)

/-- A text with one slash at its front has one. -/
theorem initialSlashes_cons (hb : b.head? ≠ some '/') : initialSlashes ('/' :: b) = 1 := by
  cases b with
  | nil => rfl
  | cons x xs =>
    have hx : ¬( '/' = x) := fun hx => hb (hx ▸ rfl)
    simp [initialSlashes, hx]

theorem normPath_cons (hb : b.head? ≠ some '/') :
    normPath ('/' :: b) = render (resolve [] (b.splitOn '/')) := by
  have hcons : '/' :: b = [] ++ '/' :: b := rfl
  have hsplit : ('/' :: b).splitOn '/' = [] :: b.splitOn '/' := by
    rw [hcons, splitOn_append_cons_self]
    rfl
  have hskip : normComp true [] [] = [] := rfl
  have hnonempty : List.replicate 1 '/' ++ ['/'].intercalate ((b.splitOn '/').foldl (normComp true) []) ≠ [] :=
    nofun
  unfold normPath
  rw [if_neg (cons_ne_nil '/' b)]
  simp only [initialSlashes_cons hb, hsplit, foldl_cons, ne_eq, Nat.one_ne_zero, not_false_eq_true,
    decide_true, hskip, if_neg hnonempty]
  rfl

theorem resolve_append (rel rel' : List Name) : resolve comps (rel ++ rel') = resolve (resolve comps rel) rel' :=
  foldl_append

/-- Plain components are taken as they are. -/
theorem resolve_plain (h : ∀ c ∈ rel, Plain c) : resolve comps rel = comps ++ rel := by
  induction rel generalizing comps with
  | nil => exact (append_nil comps).symm
  | cons c rel ih =>
    have hc := h c mem_cons_self
    have hstep : normComp true comps c = comps ++ [c] := by
      unfold normComp
      rw [if_neg (not_or.mpr ⟨hc.nonempty, hc.ne_dot⟩), if_pos (Or.inl hc.ne_dotdot)]
    have hrest : resolve (comps ++ [c]) rel = comps ++ [c] ++ rel :=
      ih fun c hc => h c (mem_cons_of_mem _ hc)
    rw [append_cons, ← hrest, resolve, foldl_cons, hstep, resolve]

/-- Under a root no component of two dots is left. -/
theorem plain_normComp (h : ∀ c ∈ comps, Plain c) (hcomp : '/' ∉ comp) :
    ∀ c ∈ normComp true comps comp, Plain c := by
  have hlast : comps.getLast? ≠ some dotdot := fun hlast =>
    (h dotdot (mem_of_getLast? hlast)).ne_dotdot rfl
  unfold normComp
  split
  · exact h
  · next hskip =>
    rw [not_or] at hskip
    split
    · next hkeep =>
      have hne : comp ≠ dotdot := by
        rcases hkeep with hne | ⟨hroot, -⟩ | hdots
        · exact hne
        · cases hroot
        · exact absurd hdots hlast
      intro c hc
      rcases mem_append.mp hc with hc | hc
      · exact h c hc
      · obtain rfl := mem_singleton.mp hc
        exact ⟨hskip.1, hskip.2, hne, hcomp⟩
    · exact fun c hc => h c (mem_of_mem_dropLast hc)

theorem plain_resolve (h : ∀ c ∈ comps, Plain c) (hrel : ∀ c ∈ rel, '/' ∉ c) :
    ∀ c ∈ resolve comps rel, Plain c := by
  induction rel generalizing comps with
  | nil => exact h
  | cons comp rel ih =>
    exact ih (plain_normComp h (hrel comp mem_cons_self)) fun c hc =>
      hrel c (mem_cons_of_mem _ hc)

/-- Joining a normal path with a relative one and normalising resolves the second under the first. -/
theorem normPath_joinPath (h : ∀ c ∈ comps, Plain c) (hb : b.head? ≠ some '/') :
    normPath (joinPath (render comps) b) = render (resolve comps (b.splitOn '/')) := by
  cases comps with
  | nil =>
    have hjoin : joinPath (render []) b = '/' :: b := by
      unfold joinPath
      rw [if_neg hb]
      rfl
    rw [hjoin, normPath_cons hb]
  | cons c cs =>
    have hne := cons_ne_nil c cs
    have hjoin : joinPath (render (c :: cs)) b = '/' :: (['/'].intercalate (c :: cs) ++ '/' :: b) := by
      unfold joinPath
      have hlast : ¬(render (c :: cs) = [] ∨ (render (c :: cs)).getLast? = some '/') :=
        not_or.mpr ⟨nofun, getLast_render h hne⟩
      rw [if_neg hb, if_neg hlast]
      rfl
    obtain ⟨x, rest, hhead, hx⟩ := head_intercalate h hne
    have hfirst : (['/'].intercalate (c :: cs) ++ '/' :: b).head? ≠ some '/' := by
      rw [hhead]
      exact fun hx' => hx (Option.some.inj hx')
    rw [hjoin, normPath_cons hfirst, splitOn_append_cons_self,
      splitOn_intercalate '/' (fun c hc => (h c hc).noSlash) hne, resolve_append, resolve_plain h]
    rfl

theorem splitOn_noSlash (p : Name) : ∀ c ∈ p.splitOn '/', '/' ∉ c := fun c hc =>
  (Grouping.splitOn_field p c hc).1

/-- A path in whose text another one and a slash come first leads on from it. -/
theorem inside_of_isPrefix (h : ∀ c ∈ comps, Plain c) (h' : ∀ c ∈ comps', Plain c)
    (hpre : render comps ++ ['/'] <+: render comps') : ∃ rest, rest ≠ [] ∧ comps' = comps ++ rest := by
  obtain ⟨tail, htail⟩ := hpre
  rw [append_assoc, singleton_append] at htail
  have hne' : comps' ≠ [] := by
    rintro rfl
    have hlength := congrArg List.length htail
    simp [render] at hlength
  cases comps with
  | nil =>
    -- the text starts with two slashes, so the first component would be empty
    obtain ⟨x, rest, hhead, hx⟩ := head_intercalate h' hne'
    rw [render, render, hhead] at htail
    exact absurd (List.cons.inj (List.cons.inj htail).2).1.symm hx
  | cons c cs =>
    have hsplit := splitOn_render h' hne'
    rw [← htail, splitOn_append_cons_self, splitOn_render h (cons_ne_nil c cs),
      cons_append] at hsplit
    exact ⟨tail.splitOn '/', splitOn_ne_nil '/' tail, (List.cons.inj hsplit).2.symm⟩

/-- What leads on from a path other than the root has its text and a slash first. -/
theorem isPrefix_render {rest : List Name} (hne : comps ≠ []) (hrest : rest ≠ []) :
    render comps ++ ['/'] <+: render (comps ++ rest) := by
  obtain ⟨r, rs, rfl⟩ := exists_cons_of_ne_nil hrest
  refine ⟨['/'].intercalate (r :: rs), ?_⟩
  have hjoin : ∀ cs : List Name, cs ≠ [] → ['/'].intercalate (cs ++ r :: rs) =
      ['/'].intercalate cs ++ '/' :: ['/'].intercalate (r :: rs) := by
    intro cs hcs
    induction cs with
    | nil => exact absurd rfl hcs
    | cons c cs ih =>
      cases cs with
      | nil => simp [List.intercalate]
      | cons d ds =>
        have hds := ih (cons_ne_nil d ds)
        simp only [List.intercalate, cons_append, intersperse_cons_cons, flatten_cons,
          append_assoc] at hds ⊢
        rw [hds]
  rw [render, render, hjoin comps hne]
  simp

/-- The name behind the last slash. -/
theorem baseName_noSlash (p : Name) : '/' ∉ baseName p := by
  unfold baseName
  rw [mem_reverse]
  intro hmem
  have hne := mem_takeWhile_imp hmem
  exact absurd hne (by decide)

theorem baseName_eq_self {p : Name} (h : '/' ∉ p) : baseName p = p := by
  unfold baseName
  rw [takeWhile_eq_self_iff.mpr, reverse_reverse]
  intro c hc
  have hne : c ≠ '/' := fun hslash => h (hslash ▸ mem_reverse.mp hc)
  exact decide_eq_true hne

/-- One name under a path: the path itself, the one above, or one below. -/
theorem resolve_singleton (h : ∀ c ∈ comps, Plain c) (hcomp : '/' ∉ comp) :
    resolve comps [comp] = comps ∨ resolve comps [comp] = comps.dropLast ∨
      (Plain comp ∧ resolve comps [comp] = comps ++ [comp]) := by
  have hlast : comps.getLast? ≠ some dotdot := fun hlast =>
    (h dotdot (mem_of_getLast? hlast)).ne_dotdot rfl
  by_cases hskip : comp = [] ∨ comp = dot
  · exact Or.inl (if_pos hskip)
  · by_cases hdots : comp = dotdot
    · subst hdots
      have hup : normComp true comps dotdot = comps.dropLast := by
        unfold normComp
        rw [if_neg hskip, if_neg (by simp [hlast])]
      exact Or.inr (Or.inl hup)
    · rw [not_or] at hskip
      have hplain : Plain comp := ⟨hskip.1, hskip.2, hdots, hcomp⟩
      exact Or.inr (Or.inr ⟨hplain, resolve_plain fun c hc => mem_singleton.mp hc ▸ hplain⟩)

end Components

end PhoebusBsp.Schemes.Paths

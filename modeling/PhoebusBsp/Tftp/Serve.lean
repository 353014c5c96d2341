import PhoebusBsp.Tftp.Request
import PhoebusBsp.Schemes.Paths

/-! Which file `tftpd.py` opens for a request (`serve_file`).

        join(root, filename without leading slashes), normalised
          under root, or root itself        that path
          anywhere else                     join(root, basename(filename)), normalised

    The second path is not checked again. It is the root, the directory above it or a name directly under
    it, and the first two are no files. -/

namespace PhoebusBsp.Tftp
open Schemes Paths List

/-- What the program asks the system: `os.path.realpath` and `os.path.isfile`. -/
structure System where
  realpath : Text → Text
  isfile : Text → Bool

/-- `safe` in `serve_file`. -/
def safePath (sys : System) (root filename : Text) : Text :=
  let safe := normPath (joinPath root (filename.dropWhile fun c => c = '/'))
  if ¬(sys.realpath root ++ ['/']).isPrefixOf safe ∧ safe ≠ sys.realpath root then
    normPath (joinPath (sys.realpath root) (baseName filename))
  else safe

/-- The path that `serve_file` opens. -/
def openedPath (sys : System) (root filename : Text) : Option Text :=
  let safe := safePath sys root filename
  if sys.isfile safe then some safe else none

/-- A root as `main` passes it: a real path, so normal and absolute. Neither it nor a directory above it is
    a file. -/
structure Root (sys : System) where
  comps : List Name
  plain : ∀ c ∈ comps, Plain c
  real : sys.realpath (render comps) = render comps
  noFile : ∀ k, sys.isfile (render (comps.take k)) = false

section Serve

variable {sys : System} (root : Root sys) {filename p : Text}

theorem Root.noFile_self : sys.isfile (render root.comps) = false := by
  have hself := root.noFile root.comps.length
  rwa [take_length] at hself

theorem Root.noFile_above : sys.isfile (render root.comps.dropLast) = false := by
  rw [dropLast_eq_take]
  exact root.noFile _

/-- The first try: whatever the name, a normal path, and under the root if it is not tried again. -/
theorem safePath_cases (filename : Text) :
    safePath sys (render root.comps) filename = render root.comps ∨
      (∃ rest, rest ≠ [] ∧ (∀ c ∈ root.comps ++ rest, Plain c) ∧
        safePath sys (render root.comps) filename = render (root.comps ++ rest)) ∨
      safePath sys (render root.comps) filename = render (resolve root.comps [baseName filename]) := by
  have hrel : (filename.dropWhile fun c => c = '/').head? ≠ some '/' := by
    intro hhead
    have hstop := List.head?_dropWhile_not (fun c : Char => decide (c = '/')) filename
    rw [hhead] at hstop
    simp at hstop
  have hbase : (baseName filename).head? ≠ some '/' := fun hhead =>
    baseName_noSlash filename (mem_of_mem_head? hhead)
  have hfirst := normPath_joinPath root.plain hrel
  have hsecond := normPath_joinPath root.plain hbase
  have hplain := plain_resolve root.plain (splitOn_noSlash (filename.dropWhile fun c => c = '/'))
  rw [splitOn_eq_singleton (baseName_noSlash filename)] at hsecond
  unfold safePath
  simp only [root.real, hfirst, hsecond]
  split
  · exact Or.inr (Or.inr rfl)
  · next hcheck =>
    rw [not_and_or, not_not, not_not, isPrefixOf_iff_prefix] at hcheck
    rcases hcheck with hunder | hself
    · obtain ⟨rest, hne, heq⟩ := inside_of_isPrefix root.plain hplain hunder
      exact Or.inr (Or.inl ⟨rest, hne, heq ▸ hplain, congrArg render heq⟩)
    · exact Or.inl hself

/-- Every file that is opened lies strictly under the root. -/
theorem openedPath_inside (h : openedPath sys (render root.comps) filename = some p) :
    ∃ rest, rest ≠ [] ∧ (∀ c ∈ root.comps ++ rest, Plain c) ∧ p = render (root.comps ++ rest) := by
  unfold openedPath at h
  simp only at h
  split at h
  · next hfile =>
    obtain rfl := Option.some.inj h
    rcases safePath_cases root filename with hself | hunder | hbase
    · rw [hself, root.noFile_self] at hfile
      cases hfile
    · exact hunder
    · rw [hbase] at hfile ⊢
      rcases resolve_singleton root.plain (baseName_noSlash filename) with hself | habove | ⟨hplain, hname⟩
      · rw [hself, root.noFile_self] at hfile
        cases hfile
      · rw [habove, root.noFile_above] at hfile
        cases hfile
      · refine ⟨[baseName filename], cons_ne_nil _ _, fun c hc => ?_, congrArg render hname⟩
        rcases mem_append.mp hc with hc | hc
        · exact root.plain c hc
        · exact mem_singleton.mp hc ▸ hplain
  · cases h

end Serve

/-- Whatever the name in the request, a file that is opened lies strictly under the root: its components
    are those of the root and at least one more, and none is made of two dots. Its text has the root and a
    slash first unless the root is the root of the system, whose text ends in a slash itself. -/
theorem serve_file_confined (sys : System) (root : Root sys) (filename p : Text)
    (h : openedPath sys (render root.comps) filename = some p) :
    (∃ rest, rest ≠ [] ∧ (∀ c ∈ rest, Plain c) ∧ p = render (root.comps ++ rest)) ∧
    dotdot ∉ p.splitOn '/' ∧ (render root.comps ≠ ['/'] → render root.comps ++ ['/'] <+: p) := by
  obtain ⟨rest, hne, hplain, rfl⟩ := openedPath_inside root h
  refine ⟨⟨rest, hne, fun c hc => hplain c (mem_append_right _ hc), rfl⟩,
    dotdot_notMem_render hplain, fun hroot => ?_⟩
  refine isPrefix_render (fun hempty => hroot ?_) hne
  rw [hempty]
  rfl

/-- A system with one file. -/
def oneFile (file : Text) : System := ⟨id, fun p => p = file⟩

/-- The request for ../etc/f with the root /srv is answered with /srv/f. -/
theorem serve_file_confined_up :
    let file := render [['s', 'r', 'v'], ['f']]
    let filename := ['.', '.', '/', 'e', 't', 'c', '/', 'f']
    openedPath (oneFile file) (render [['s', 'r', 'v']]) filename = some file ∧
      dotdot ∉ file.splitOn '/' ∧ render [['s', 'r', 'v']] ++ ['/'] <+: file := by
  intro file filename
  have hno : ∀ k, (oneFile file).isfile (render ([['s', 'r', 'v']].take k)) = false := by
    rintro (_ | k)
    · decide
    · rw [take_succ_cons, take_nil]
      decide
  have hroot : render [['s', 'r', 'v']] ≠ ['/'] := by decide
  have hopen : openedPath (oneFile file) (render [['s', 'r', 'v']]) filename = some file := by decide
  have hconfined := serve_file_confined (oneFile file) ⟨[['s', 'r', 'v']], by decide, rfl, hno⟩ filename
    file hopen
  exact ⟨hopen, hconfined.2.1, hconfined.2.2 hroot⟩

/-- With the root of the system as the root, /f is opened, whose text does not start with two slashes. -/
theorem serve_file_system_root :
    let file := render [['f']]
    (oneFile file).realpath ['/'] = ['/'] ∧ (oneFile file).isfile ['/'] = false ∧
      openedPath (oneFile file) ['/'] ['f'] = some file ∧ ¬['/'] ++ ['/'] <+: file := by
  decide

end PhoebusBsp.Tftp

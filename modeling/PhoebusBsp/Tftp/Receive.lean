import PhoebusBsp.Tftp.Request
import PhoebusBsp.Schemes.Paths

/-! What `tftp-recv.py` does to the files of its machine (`main`, `recv_file`).

        idle ── write request ──▶ name? ─▶ exists? ─▶ options ─▶ open(path, "wb") ──▶ uploading
          ▲                        │          │          │            │                   │
          └────────────────────────┴──────────┴──────────┴────────────┘                   │
          └── last block, error from the client, sixth timeout, exception ────────────────┘

    One upload runs at a time: while it runs the main socket is not read. A file that is there is never
    opened, so an upload writes to a path that was free when it began. -/

namespace PhoebusBsp.Tftp
open Schemes Paths Option

/-! ### Files -/

inductive Node where
  | dir
  | file (content : Datagram)
  deriving DecidableEq

/-- What is at each path. There are no symbolic links. -/
abbrev Files := Text → Option Node

def Files.write (fs : Files) (path : Text) (content : Datagram) : Files :=
  fun p => if p = path then some (.file content) else fs p

/-- What Python and the system decide: `int(x)` (`none`: ValueError), whether `float` and `settimeout` take
    a number, `str.encode`, and whether `open(path, "wb")` succeeds. -/
structure Host where
  int : Text → Option Int
  canWait : Int → Bool
  encode : Text → Datagram
  canOpen : Text → Bool

/-! ### Requests -/

def opWrq : ℕ := 2

/-- The file name and the options of a write request that is not malformed. -/
def writeRequest (data : Datagram) : Option (Text × Options) :=
  match data with
  | a :: b :: payload =>
    if a.toNat * 256 + b.toNat ≠ opWrq then none
    else
      match parseRq payload with
      | (some filename, _, opts) => some (filename, opts)
      | _ => none
  | _ => none

/-- The name under which a file is stored. -/
def acceptName (filename : Text) : Option Text :=
  let name := baseName filename
  if name = [] ∨ name.head? = some '.' ∨ ('/' ∈ filename ∧ filename ≠ name) then none else some name

def kBlksize : Text := ['b', 'l', 'k', 's', 'i', 'z', 'e']

def kTimeout : Text := ['t', 'i', 'm', 'e', 'o', 'u', 't']

def kTsize : Text := ['t', 's', 'i', 'z', 'e']

/-- The number that an option stands for; the outer `none` is an exception. -/
def Host.option (host : Host) (opts : Options) (k : Text) : Option (Option Int) :=
  match opts.get k with
  | none => some none
  | some x => (host.int x).map some

/-- The block size and the options that are acknowledged. -/
def negotiate (host : Host) (opts : Options) : Option (ℕ × Ack) :=
  match host.option opts kBlksize, host.option opts kTimeout, host.option opts kTsize with
  | some blksize, some timeout, some _ =>
    if host.canWait (timeout.getD 5) then
      let echo k := (opts.get k).elim [] fun x => [(host.encode k, host.encode x)]
      some (blksizeOf blksize,
        (blksize.elim [] fun _ =>
          [(host.encode kBlksize, host.encode (Nat.toDigits 10 (blksizeOf blksize)))]) ++
        echo kTimeout ++ echo kTsize)
    else none
  | _, _, _ => none

/-! ### Uploads -/

/-- A transfer that is going on. -/
structure Upload where
  path : Text
  blksize : ℕ
  rcv : Receiver

/-- `recv_file` up to `open`. `none`: an error is sent, or there is an exception. -/
def beginUpload (host : Host) (destdir : Text) (fs : Files) (filename : Text) (opts : Options) :
    Option Upload :=
  match acceptName filename with
  | none => none
  | some name =>
    let path := joinPath destdir name
    if (fs path).isSome then none
    else
      match negotiate host opts with
      | none => none
      | some (blksize, ack) => if host.canOpen path then some ⟨path, blksize, recvFile ack⟩ else none

structure Store where
  fs : Files
  upload : Option Upload

/-- A datagram at the main socket; a datagram or a timeout at the socket of the transfer; or an exception,
    which leaves some content. -/
inductive Incident where
  | request (data : Datagram)
  | packet (fromPeer : Bool) (data : Datagram)
  | timeout
  | exception (content : Datagram)

/-- The transfer has moved on. -/
def Store.moves (s : Store) (u : Upload) (r : Receiver) : Store where
  fs := s.fs.write u.path r.fh
  upload := if r.status = .running then some { u with rcv := r } else none

def Store.step (host : Host) (destdir : Text) (s : Store) (e : Incident) : Store :=
  match s.upload, e with
  | none, .request data =>
    match writeRequest data with
    | none => s
    | some (filename, opts) =>
      match beginUpload host destdir s.fs filename opts with
      | none => s
      | some u => ⟨s.fs.write u.path [], some u⟩
  | some u, .packet fromPeer data => s.moves u (u.rcv.recv u.blksize fromPeer data).1
  | some u, .timeout => s.moves u u.rcv.timeout.1
  | some u, .exception content => ⟨s.fs.write u.path content, none⟩
  | _, _ => s

/-! ### What a step writes -/

/-- A name without a directory, not empty and not hidden. -/
structure Stored (name : Text) : Prop where
  nonempty : name ≠ []
  noSlash : '/' ∉ name
  notHidden : name.head? ≠ some '.'

section Steps

variable {host : Host} {destdir filename name p : Text} {opts : Options} {fs : Files} {s : Store} {u : Upload}

theorem acceptName_eq_some : acceptName filename = some name ↔ name = filename ∧ Stored name := by
  unfold acceptName
  simp only
  constructor
  · intro h
    split at h
    · cases h
    · next hok =>
      obtain rfl := some.inj h
      simp only [not_or, not_and, not_not] at hok
      have hname : filename = baseName filename := by
        by_cases hslash : '/' ∈ filename
        · exact hok.2.2 hslash
        · exact (baseName_eq_self hslash).symm
      exact ⟨hname.symm, hok.1, baseName_noSlash filename, hok.2.1⟩
  · rintro ⟨rfl, hname⟩
    rw [baseName_eq_self hname.noSlash, if_neg]
    simp [hname.nonempty, hname.notHidden]

/-- An upload begins at a free path directly under the directory. -/
theorem beginUpload_spec (h : beginUpload host destdir fs filename opts = some u) :
    fs u.path = none ∧ Stored filename ∧ u.path = joinPath destdir filename := by
  unfold beginUpload at h
  split at h
  · cases h
  · next name hname =>
    obtain ⟨rfl, hstored⟩ := acceptName_eq_some.mp hname
    simp only at h
    split at h
    · cases h
    · next hfree =>
      rw [Bool.not_eq_true, isSome_eq_false_iff, isNone_iff_eq_none] at hfree
      split at h
      · cases h
      · split at h
        · obtain rfl := some.inj h
          exact ⟨hfree, hstored, rfl⟩
        · cases h

/-- What can happen in a step: nothing, an upload begins, or the upload writes to its path. -/
theorem Store.step_cases (host : Host) (destdir : Text) (s : Store) (e : Incident) :
    s.step host destdir e = s ∨
    (∃ u filename, s.upload = none ∧ s.fs u.path = none ∧ Stored filename ∧
      u.path = joinPath destdir filename ∧
      s.step host destdir e = ⟨s.fs.write u.path [], some u⟩) ∨
    ∃ u content next, s.upload = some u ∧ (∀ u' ∈ next, u'.path = u.path) ∧
      s.step host destdir e = ⟨s.fs.write u.path content, next⟩ := by
  obtain ⟨fs, upload⟩ := s
  have hmoves : ∀ (u : Upload) (r : Receiver), ∀ u' ∈ (Store.moves ⟨fs, some u⟩ u r).upload,
      u'.path = u.path := by
    intro u r u' hu'
    unfold Store.moves at hu'
    simp only at hu'
    split at hu'
    · obtain rfl := some.inj hu'
      rfl
    · cases hu'
  cases upload with
  | none =>
    cases e with
    | request data =>
      unfold Store.step
      simp only
      split
      · exact Or.inl rfl
      · next filename opts _ =>
        split
        · exact Or.inl rfl
        · next u hbegin =>
          obtain ⟨hfree, hstored, hpath⟩ := beginUpload_spec hbegin
          exact Or.inr (Or.inl ⟨u, filename, trivial, hfree, hstored, hpath, rfl⟩)
    | packet fromPeer data => exact Or.inl rfl
    | timeout => exact Or.inl rfl
    | exception content => exact Or.inl rfl
  | some u =>
    cases e with
    | request data => exact Or.inl rfl
    | packet fromPeer data => exact Or.inr (Or.inr ⟨u, _, _, rfl, hmoves u _, rfl⟩)
    | timeout => exact Or.inr (Or.inr ⟨u, _, _, rfl, hmoves u _, rfl⟩)
    | exception content => exact Or.inr (Or.inr ⟨u, content, none, rfl, nofun, rfl⟩)

/-! ### What every run keeps -/

/-- The path holds this, and no upload is writing there. -/
def Settled (p : Text) (x : Node) (s : Store) : Prop :=
  s.fs p = some x ∧ ∀ u ∈ s.upload, u.path ≠ p

theorem step_settled {x : Node} (e : Incident) (h : Settled p x s) :
    Settled p x (s.step host destdir e) := by
  obtain ⟨hp, hother⟩ := h
  rcases s.step_cases host destdir e with heq | ⟨u, _, _, hfree, _, _, heq⟩ | ⟨u, content, next, hu, hnext, heq⟩
  · rw [heq]
    exact ⟨hp, hother⟩
  · -- The new path was free, and something is at `p`.
    have hne : p ≠ u.path := by
      rintro rfl
      rw [hfree] at hp
      cases hp
    rw [heq]
    refine ⟨?_, ?_⟩
    · simp only [Files.write, if_neg hne, hp]
    · rintro u' hu'
      obtain rfl := some.inj hu'
      exact hne.symm
  · have hne : p ≠ u.path := (hother u hu).symm
    rw [heq]
    refine ⟨?_, fun u' hu' => ?_⟩
    · simp only [Files.write, if_neg hne, hp]
    · rw [hnext u' hu']
      exact hne.symm

/-- Whatever was not there at the start, and where an upload writes, is one name under the directory. -/
def UnderDir (destdir : Text) (fs₀ : Files) (s : Store) : Prop :=
  (∀ p, fs₀ p = none → s.fs p ≠ none → ∃ name, Stored name ∧ p = joinPath destdir name) ∧
  ∀ u ∈ s.upload, ∃ name, Stored name ∧ u.path = joinPath destdir name

theorem step_underDir {fs₀ : Files} (e : Incident) (h : UnderDir destdir fs₀ s) :
    UnderDir destdir fs₀ (s.step host destdir e) := by
  obtain ⟨hnew, hupload⟩ := h
  -- A write at such a path adds nothing else.
  have hwrite : ∀ (u : Upload) (content : Datagram) (name : Text), Stored name →
      u.path = joinPath destdir name → ∀ p, fs₀ p = none → s.fs.write u.path content p ≠ none →
      ∃ name, Stored name ∧ p = joinPath destdir name := by
    intro u content name hname hpath p hp hnone
    by_cases hpu : p = u.path
    · exact ⟨name, hname, hpu.trans hpath⟩
    · rw [Files.write, if_neg hpu] at hnone
      exact hnew p hp hnone
  rcases s.step_cases host destdir e with
    heq | ⟨u, name, _, _, hname, hpath, heq⟩ | ⟨u, content, next, hu, hnext, heq⟩
  · rw [heq]
    exact ⟨hnew, hupload⟩
  · rw [heq]
    refine ⟨hwrite u [] name hname hpath, ?_⟩
    rintro u' hu'
    obtain rfl := some.inj hu'
    exact ⟨name, hname, hpath⟩
  · obtain ⟨name, hname, hpath⟩ := hupload u hu
    rw [heq]
    refine ⟨hwrite u content name hname hpath, fun u' hu' => ?_⟩
    exact ⟨name, hname, (hnext u' hu').trans hpath⟩

/-- A request for a name with a slash or a dot in front changes nothing. -/
theorem step_refused {data : Datagram} (hreq : writeRequest data = some (filename, opts))
    (hbad : '/' ∈ filename ∨ filename.head? = some '.') :
    s.step host destdir (.request data) = s := by
  obtain ⟨fs, upload⟩ := s
  cases upload with
  | some u => rfl
  | none =>
    have hnone : beginUpload host destdir fs filename opts = none := by
      by_contra hne
      obtain ⟨u, hu⟩ := ne_none_iff_exists'.mp hne
      obtain ⟨_, hstored, _⟩ := beginUpload_spec hu
      rcases hbad with hslash | hdot
      · exact hstored.noSlash hslash
      · exact hstored.notHidden hdot
    simp only [Store.step, hreq, hnone]

end Steps

/-- The receiver never clobbers. In every run, from any files: what was there at the start stays; what is
    at a path where no upload is writing any more stays whatever comes next; what is new is one name under
    the directory that is not hidden; and a name with a slash or with a dot in front creates nothing. -/
theorem uploads_never_clobber (host : Host) (destdir : Text) (fs₀ : Files) (es : List Incident) :
    let s := run (Store.step host destdir) ⟨fs₀, none⟩ es
    (∀ p x, fs₀ p = some x → s.fs p = some x) ∧
    (∀ p x, s.fs p = some x → (∀ u ∈ s.upload, u.path ≠ p) →
      ∀ later, (run (Store.step host destdir) s later).fs p = some x) ∧
    (∀ p, fs₀ p = none → s.fs p ≠ none →
      ∃ name, name ≠ [] ∧ '/' ∉ name ∧ name.head? ≠ some '.' ∧ p = joinPath destdir name) ∧
    ∀ data filename opts, writeRequest data = some (filename, opts) →
      '/' ∈ filename ∨ filename.head? = some '.' → s.step host destdir (.request data) = s := by
  intro s
  have hkeep : ∀ (p : Text) (x : Node) (s : Store) (es : List Incident), Settled p x s →
      Settled p x (run (Store.step host destdir) s es) :=
    fun p x s es hs => run_always (fun s e => step_settled e) es s hs
  have hunder : UnderDir destdir fs₀ s := by
    have hstep : ∀ (s : Store) (e : Incident), UnderDir destdir fs₀ s →
        UnderDir destdir fs₀ (s.step host destdir e) := fun s e => step_underDir e
    refine run_always hstep es ⟨fs₀, none⟩ ⟨fun p hp hne => ?_, nofun⟩
    exact absurd hp hne
  refine ⟨fun p x hp => ?_, fun p x hp hother later => ?_, fun p hp hne => ?_, ?_⟩
  · exact (hkeep p x ⟨fs₀, none⟩ es ⟨hp, nofun⟩).1
  · exact (hkeep p x s later ⟨hp, hother⟩).1
  · obtain ⟨name, hname, hpath⟩ := hunder.1 p hp hne
    exact ⟨name, hname.nonempty, hname.noSlash, hname.notHidden, hpath⟩
  · intro data filename opts hreq hbad
    exact step_refused hreq hbad

end PhoebusBsp.Tftp

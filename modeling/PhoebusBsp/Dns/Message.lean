import PhoebusBsp.Schemes.Spans

/-! DNS messages as a receiver reads them.

        │id│flags│qdcount│ancount│nscount│arcount│ questions │ answers │ authority │ additional │
         0  2     4       6       8       10      12

    A name is a row of labels that ends with a zero or goes on at an earlier name; `b` are the bytes from the
    header on, `len` is their number. A message is read to its last byte. -/

namespace PhoebusBsp.Dns
open Schemes Bytes Option

abbrev Label := List UInt8

/-- The name asked for, `QTYPE` and `QCLASS`. -/
structure Question where
  name : List Label
  type : ℕ
  qclass : ℕ
  deriving DecidableEq

/-- A resource record. -/
structure Record where
  name : List Label
  type : ℕ
  rclass : ℕ
  ttl : ℕ
  data : List UInt8
  deriving DecidableEq

/-- The header without its counts, and the four sections. -/
structure Message where
  id : ℕ
  flags : ℕ
  questions : List Question
  answers : List Record
  authority : List Record
  additional : List Record
  deriving DecidableEq

/-- The `n` bytes from `off` on. -/
def span (b : Bytes) (off n : ℕ) : List UInt8 := (List.range n).map fun i => b (off + i)

/-- The labels in a row from `pos` on, where the name goes on if it ends with a pointer, and the next offset. -/
def labelsAt (b : Bytes) (len : ℕ) : ℕ → ℕ → Option (List Label × Option ℕ × ℕ)
  | 0, _ => none
  | fuel + 1, pos =>
    let c := (b pos).toNat
    if len ≤ pos then none
    else if c = 0 then some ([], none, pos + 1)
    else if 192 ≤ c then
      if len ≤ pos + 1 then none else some ([], some ((c - 192) * 256 + (b (pos + 1)).toNat), pos + 2)
    else if 64 ≤ c then none
    else (labelsAt b len fuel (pos + 1 + c)).map fun x => (span b (pos + 1) c :: x.1, x.2)

/-- A pointer leads to a name before the one that it is in. -/
def nameAt (b : Bytes) (len : ℕ) : ℕ → ℕ → Option (List Label × ℕ)
  | 0, _ => none
  | fuel + 1, pos => do
    let (labels, pointer, next) ← labelsAt b len len pos
    match pointer with
    | none => some (labels, next)
    | some p =>
      if 12 ≤ p ∧ p < pos then
        let (rest, _) ← nameAt b len fuel p
        some (labels ++ rest, next)
      else none

/-- A question, and where it ends. -/
def parseQuestion (b : Bytes) (len pos : ℕ) : Option (Question × ℕ) := do
  let (name, pos) ← nameAt b len len pos
  if pos + 4 ≤ len then some (⟨name, b.be16 pos, b.be16 (pos + 2)⟩, pos + 4) else none

/-- A record, and where it ends: `RDLENGTH` bytes of data behind the ten of its header. -/
def parseRecord (b : Bytes) (len pos : ℕ) : Option (Record × ℕ) := do
  let (name, pos) ← nameAt b len len pos
  let n := b.be16 (pos + 8)
  if pos + 10 + n ≤ len then
    let ttl := b.be16 (pos + 4) * 65536 + b.be16 (pos + 6)
    some (⟨name, b.be16 pos, b.be16 (pos + 2), ttl, span b (pos + 10) n⟩, pos + 10 + n)
  else none

/-- So many of them one behind the other. -/
def parseMany {α : Type} (parse : ℕ → Option (α × ℕ)) : ℕ → ℕ → Option (List α × ℕ)
  | 0, pos => some ([], pos)
  | n + 1, pos => do
    let (x, pos) ← parse pos
    let (xs, pos) ← parseMany parse n pos
    some (x :: xs, pos)

/-- As many questions and records as the counts of the header say. -/
def parseMessage (b : Bytes) (len : ℕ) : Option Message := do
  let (questions, pos) ← parseMany (parseQuestion b len) (b.be16 4) 12
  let (answers, pos) ← parseMany (parseRecord b len) (b.be16 6) pos
  let (authority, pos) ← parseMany (parseRecord b len) (b.be16 8) pos
  let (additional, pos) ← parseMany (parseRecord b len) (b.be16 10) pos
  if pos = len then some ⟨b.be16 0, b.be16 2, questions, answers, authority, additional⟩ else none

/-! ### Spans -/

section Names

variable {b b' : Bytes} {len len' fuel fuel' pos next next' : ℕ} {labels : List Label} {pointer : Option ℕ}

theorem span_congr {off n : ℕ} (h : ∀ i < n, b' (off + i) = b (off + i)) : span b' off n = span b off n :=
  List.map_congr_left fun i hi => h i (List.mem_range.mp hi)

@[simp] theorem length_span (b : Bytes) (off n : ℕ) : (span b off n).length = n := by simp [span]

theorem span_of_holds {off : ℕ} {l : List UInt8} (h : b.Holds off l) : span b off l.length = l := by
  refine List.ext_getElem (by simp) fun i hi hi' => ?_
  simp only [span, List.getElem_map, List.getElem_range]
  exact h i _ (List.getElem?_eq_getElem hi')

/-! ### Names -/

/-- One step of reading labels. -/
theorem labelsAt_cases (h : labelsAt b len (fuel + 1) pos = some (labels, pointer, next)) :
    pos < len ∧
      (((b pos).toNat = 0 ∧ labels = [] ∧ pointer = none ∧ next = pos + 1) ∨
        (192 ≤ (b pos).toNat ∧ pos + 1 < len ∧ labels = [] ∧
          pointer = some (((b pos).toNat - 192) * 256 + (b (pos + 1)).toNat) ∧ next = pos + 2) ∨
        (0 < (b pos).toNat ∧ (b pos).toNat < 64 ∧ ∃ rest,
          labelsAt b len fuel (pos + 1 + (b pos).toNat) = some (rest, pointer, next) ∧
            labels = span b (pos + 1) (b pos).toNat :: rest)) := by
  rw [labelsAt] at h
  split_ifs at h with hpos hzero hptr hend hbig
  · simp only [some.injEq, Prod.mk.injEq] at h
    exact ⟨Nat.not_le.mp hpos, Or.inl ⟨hzero, h.1.symm, h.2.1.symm, h.2.2.symm⟩⟩
  · simp only [some.injEq, Prod.mk.injEq] at h
    exact ⟨Nat.not_le.mp hpos, Or.inr (Or.inl ⟨hptr, Nat.not_le.mp hend, h.1.symm, h.2.1.symm, h.2.2.symm⟩)⟩
  · obtain ⟨⟨rest, p, e⟩, hrest, heq⟩ := map_eq_some_iff.mp h
    simp only [Prod.mk.injEq] at heq
    obtain ⟨rfl, rfl, rfl⟩ := heq
    exact ⟨Nat.not_le.mp hpos, Or.inr (Or.inr ⟨Nat.pos_of_ne_zero hzero, Nat.not_le.mp hbig, rest, hrest, rfl⟩)⟩

theorem labelsAt_bounds (h : labelsAt b len fuel pos = some (labels, pointer, next)) : pos < next ∧ next ≤ len := by
  induction fuel generalizing pos labels with
  | zero => cases h
  | succ fuel ih =>
    obtain ⟨hpos, ⟨-, -, -, rfl⟩ | ⟨-, hend, -, -, rfl⟩ | ⟨-, -, rest, hrest, -⟩⟩ := labelsAt_cases h
    · exact ⟨Nat.lt_succ_self _, hpos⟩
    · exact ⟨by omega, hend⟩
    · obtain ⟨hlt, hle⟩ := ih hrest
      exact ⟨by omega, hle⟩

/-- Only the bytes of the name matter, and more bytes behind it do not. -/
theorem labelsAt_congr (h : labelsAt b len fuel pos = some (labels, pointer, next)) (hfuel : fuel ≤ fuel')
    (hlen : next ≤ len') (hb : ∀ i, pos ≤ i → i < next → b' i = b i) :
    labelsAt b' len' fuel' pos = some (labels, pointer, next) := by
  induction fuel generalizing pos labels fuel' with
  | zero => cases h
  | succ fuel ih =>
    obtain ⟨fuel', rfl⟩ := Nat.exists_eq_add_of_le' hfuel
    have hbounds := labelsAt_bounds h
    have hfirst : b' pos = b pos := hb pos le_rfl hbounds.1
    have hpos' : ¬len' ≤ pos := by omega
    rw [← Nat.add_assoc, labelsAt]
    simp only [hfirst, if_neg hpos']
    obtain ⟨-, ⟨hzero, rfl, rfl, rfl⟩ | ⟨hptr, -, rfl, rfl, rfl⟩ | ⟨hlow, hhigh, rest, hrest, rfl⟩⟩ := labelsAt_cases h
    · rw [if_pos hzero]
    · have hne : ¬(b pos).toNat = 0 := by omega
      have hend : ¬len' ≤ pos + 1 := by omega
      rw [if_neg hne, if_pos hptr, if_neg hend, hb (pos + 1) (by omega) (by omega)]
    · have hne : ¬(b pos).toNat = 0 := by omega
      have hsmall : ¬192 ≤ (b pos).toNat := by omega
      have hbounds' := labelsAt_bounds hrest
      have hlabel : span b' (pos + 1) (b pos).toNat = span b (pos + 1) (b pos).toNat :=
        span_congr fun i hi => hb _ (by omega) (by omega)
      rw [if_neg hne, if_neg hsmall, if_neg (Nat.not_le.mpr hhigh), hlabel,
        ih hrest (Nat.le_of_add_le_add_right (b := 1) (by omega)) fun i hi hlt => hb i (by omega) hlt]
      rfl

/-- The bytes of labels before a pointer. -/
theorem labelsAt_pointer {p : ℕ} (h : labelsAt b len fuel pos = some (labels, some p, next)) :
    pos + 2 ≤ next ∧ 192 ≤ (b (next - 2)).toNat ∧
      p = ((b (next - 2)).toNat - 192) * 256 + (b (next - 1)).toNat ∧ (labels = [] → next = pos + 2) := by
  induction fuel generalizing pos labels with
  | zero => cases h
  | succ fuel ih =>
    obtain ⟨-, ⟨-, -, hnone, -⟩ | ⟨hptr, -, rfl, heq, rfl⟩ | ⟨-, -, rest, hrest, rfl⟩⟩ := labelsAt_cases h
    · cases hnone
    · exact ⟨le_rfl, hptr, some.inj heq, fun _ => rfl⟩
    · obtain ⟨hle, hhigh, heq, -⟩ := ih hrest
      exact ⟨by omega, hhigh, heq, fun hnil => nomatch hnil⟩

/-- A row of labels without a pointer ends with a zero. -/
theorem labelsAt_zero (h : labelsAt b len fuel pos = some (labels, none, next)) :
    pos + 1 ≤ next ∧ (b (next - 1)).toNat = 0 := by
  induction fuel generalizing pos labels with
  | zero => cases h
  | succ fuel ih =>
    obtain ⟨-, ⟨hzero, -, -, rfl⟩ | ⟨-, -, -, hsome, -⟩ | ⟨-, -, rest, hrest, -⟩⟩ := labelsAt_cases h
    · exact ⟨le_rfl, hzero⟩
    · cases hsome
    · obtain ⟨hle, hzero⟩ := ih hrest
      exact ⟨by omega, hzero⟩

/-- The first name of a message has no pointer. -/
theorem nameAt_first (h : nameAt b len fuel 12 = some (labels, next)) :
    labelsAt b len len 12 = some (labels, none, next) := by
  cases fuel with
  | zero => cases h
  | succ fuel =>
    rw [nameAt] at h
    cases hlabels : labelsAt b len len 12 with
    | none => rw [hlabels] at h; cases h
    | some x =>
      obtain ⟨ls, pointer, e⟩ := x
      rw [hlabels] at h
      cases pointer with
      | none =>
        simp only [bind_eq_bind, bind_some, some.injEq, Prod.mk.injEq] at h
        rw [h.1, h.2]
      | some p =>
        have hno : ¬(12 ≤ p ∧ p < 12) := by omega
        simp only [bind_eq_bind, bind_some, if_neg hno] at h
        cases h

theorem nameAt_of_labels (h : labelsAt b len len pos = some (labels, none, next)) (hfuel : 0 < fuel) :
    nameAt b len fuel pos = some (labels, next) := by
  obtain ⟨fuel, rfl⟩ := Nat.exists_eq_succ_of_ne_zero (Nat.ne_of_gt hfuel)
  simp [nameAt, h]

/-- A name that is a row of labels before a pointer. -/
theorem nameAt_pointer {p : ℕ} {labels' : List Label} (hlabels : labelsAt b len len pos = some (labels, some p, next))
    (h : nameAt b len fuel pos = some (labels', next')) :
    next' = next ∧ ∃ fuel' rest, (nameAt b len fuel' p).map Prod.fst = some rest ∧ labels' = labels ++ rest := by
  cases fuel with
  | zero => cases h
  | succ fuel =>
    simp only [nameAt, hlabels, bind_eq_bind, bind_some] at h
    split_ifs at h with hp
    obtain ⟨⟨rest, e⟩, hrest, heq⟩ := bind_eq_some_iff.mp h
    simp only [some.injEq, Prod.mk.injEq] at heq
    exact ⟨heq.2.symm, fuel, rest, by rw [hrest, map_some], heq.1.symm⟩

end Names

/-! ### Questions and records -/

section Parse

variable {b b' : Bytes} {len len' pos next : ℕ} {question : Question} {record : Record}

/-- The first question of a message. -/
theorem parseQuestion_first : parseQuestion b len 12 = some (question, next) ↔
    ∃ e, labelsAt b len len 12 = some (question.name, none, e) ∧ e + 4 ≤ len ∧ next = e + 4 ∧
      question.type = b.be16 e ∧ question.qclass = b.be16 (e + 2) := by
  constructor
  · intro h
    obtain ⟨⟨name, e⟩, hname, h⟩ := bind_eq_some_iff.mp h
    simp only [] at h
    split_ifs at h with hle
    obtain ⟨rfl, rfl⟩ := Prod.mk.inj (some.inj h)
    exact ⟨e, nameAt_first hname, hle, rfl, rfl, rfl⟩
  · rintro ⟨e, hlabels, hle, rfl, htype, hclass⟩
    have hbounds := labelsAt_bounds hlabels
    rw [parseQuestion, nameAt_of_labels hlabels (by omega)]
    simp only [bind_eq_bind, bind_some, if_pos hle]
    rw [← htype, ← hclass]

/-- The question does not depend on what is behind it. -/
theorem parseQuestion_congr (h : parseQuestion b len 12 = some (question, next)) (hlen : len ≤ len')
    (hb : ∀ i, 12 ≤ i → i < len → b' i = b i) : parseQuestion b' len' 12 = some (question, next) := by
  obtain ⟨e, hlabels, hle, rfl, htype, hclass⟩ := parseQuestion_first.mp h
  have hbounds := labelsAt_bounds hlabels
  refine parseQuestion_first.mpr ⟨e, ?_, by omega, rfl, ?_, ?_⟩
  · exact labelsAt_congr hlabels hlen (by omega) fun i hi hlt => hb i hi (by omega)
  · rw [htype]
    exact be16_congr fun i hi => (hb _ (by omega) (by omega)).symm
  · rw [hclass]
    exact be16_congr fun i hi => (hb _ (by omega) (by omega)).symm

theorem parseRecord_eq (h : parseRecord b len pos = some (record, next)) :
    ∃ e, nameAt b len len pos = some (record.name, e) ∧ next = e + 10 + record.data.length ∧ next ≤ len ∧
      record.type = b.be16 e ∧ record.data = span b (e + 10) record.data.length := by
  obtain ⟨⟨name, e⟩, hname, h⟩ := bind_eq_some_iff.mp h
  simp only [] at h
  split_ifs at h with hle
  obtain ⟨rfl, rfl⟩ := Prod.mk.inj (some.inj h)
  refine ⟨e, hname, ?_, hle, rfl, ?_⟩
  · rw [length_span]
  · rw [length_span]

/-- A message of one question and one record. -/
theorem parseMessage_one {id flags : ℕ} (hquestions : b.be16 4 = 1) (hanswers : b.be16 6 = 1)
    (hauthority : b.be16 8 = 0) (hadditional : b.be16 10 = 0) (hq : parseQuestion b len 12 = some (question, pos)) :
    parseMessage b len = some ⟨id, flags, [question], [record], [], []⟩ ↔
      parseRecord b len pos = some (record, len) ∧ b.be16 0 = id ∧ b.be16 2 = flags := by
  have hparse : parseMessage b len = (parseRecord b len pos).bind fun x =>
      if x.2 = len then some ⟨b.be16 0, b.be16 2, [question], [x.1], [], []⟩ else none := by
    rw [parseMessage, hquestions, hanswers, hauthority, hadditional]
    simp only [parseMany, hq, bind_eq_bind, bind_some]
    cases parseRecord b len pos <;> rfl
  rw [hparse]
  constructor
  · intro h
    obtain ⟨⟨r, e⟩, hr, h⟩ := bind_eq_some_iff.mp h
    simp only [] at h
    split_ifs at h with he
    simp only [some.injEq, Message.mk.injEq, List.cons.injEq, and_true] at h
    obtain ⟨hid, hflags, -, rfl⟩ := h
    exact ⟨by rw [hr, he], hid, hflags⟩
  · rintro ⟨hr, rfl, rfl⟩
    rw [hr, bind_some, if_pos rfl]

end Parse

end PhoebusBsp.Dns

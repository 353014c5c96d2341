import PhoebusBsp.Nand.Driver

/-! Poisoning is final. A timeout sets `n->poisoned`, and the engine may then still be writing to
    the buffer, so nothing may be started afterwards.

    An operation that starts unpoisoned issues accesses while the flag is clear; if the flag is set
    on the way, the only access left is the release of the chip select, and the operation returns
    `-ETIMEDOUT`. An operation that starts poisoned is refused before its first access. -/

namespace PhoebusBsp.Nand
open Schemes

/-- No access was issued after poisoning. -/
def Clean (t : List Event) : Prop := ∀ e ∈ t, e.poisoned = false

/-- The release of the chip select by a poisoned transaction. -/
def csRelease : Event := ⟨true, .wr .snCs 1⟩

/-- The accesses of a program that ends with the flag `poisoned`: no access after poisoning, or
    only the release of the chip select where `release` allows for one. -/
def Stopped (release poisoned : Bool) (t : List Event) : Prop :=
  Clean t ∨ (release = true ∧ poisoned = true ∧ ∃ c, Clean c ∧ t = c ++ [csRelease])

theorem Clean.append {t u : List Event} (ht : Clean t) (hu : Clean u) : Clean (t ++ u) := by
  intro e he
  rcases List.mem_append.mp he with h | h
  · exact ht e h
  · exact hu e h

theorem Clean.stopped {t u : List Event} {r p : Bool} (ht : Clean t) (hu : Stopped r p u) :
    Stopped r p (t ++ u) := by
  rcases hu with hu | ⟨hr, hp, c, hc, rfl⟩
  · exact Or.inl (ht.append hu)
  · exact Or.inr ⟨hr, hp, t ++ c, ht.append hc, (List.append_assoc _ _ _).symm⟩

theorem Stopped.clean {t : List Event} {r : Bool} (h : Stopped r false t) : Clean t := by
  rcases h with h | ⟨_, hp, _⟩
  · exact h
  · exact absurd hp (by decide)

section Halting

variable {σ α β : Type} (hw : Hw σ)
  {failed : α → Prop} {r : Bool} {m : Prog (St σ) α} {g : β → Prop} {k : α → Prog (St σ) β} {ret : Int} {s : St σ}

/-- Started unpoisoned, the program stops once poisoned and then ends with a result in `failed`. -/
def Halts (release : Bool) (failed : α → Prop) (m : Prog (St σ) α) : Prop :=
  Prog.Emits St.log (fun s => s.n.poisoned = false) m fun a s t =>
    Stopped release s.n.poisoned t ∧ (s.n.poisoned = true → failed a)

/-- Started poisoned, the program does nothing and ends with a result in `failed`. -/
def Refuses (failed : α → Prop) (m : Prog (St σ) α) : Prop :=
  ∀ s : St σ, s.n.poisoned = true →
    (m s).2.log = s.log ∧ (m s).2.n.poisoned = true ∧ failed (m s).1

/-! ### Rules -/

theorem Refuses.pure {a : α} (h : failed a) : Refuses (σ := σ) failed (Pure.pure a) :=
  fun _ hs => ⟨rfl, hs, h⟩

theorem Halts.pure (a : α) : Halts (σ := σ) r failed (Pure.pure a) :=
  Prog.Emits.pure a fun s hs => ⟨Or.inl (by simp [Clean]), fun hp => by simp [hs] at hp⟩

theorem Halts.read (f : St σ → α) : Halts r failed (Prog.read f) :=
  Prog.Emits.read f fun s hs => ⟨Or.inl (by simp [Clean]), fun hp => by simp [hs] at hp⟩

theorem Halts.modify {failed : Unit → Prop} {f : St σ → St σ}
    (hlog : ∀ s, (f s).log = s.log) (hf : ∀ s, s.n.poisoned = false → (f s).n.poisoned = false) :
    Halts r failed (Prog.modify f) :=
  Prog.Emits.modify hlog fun s hs =>
    ⟨Or.inl (by simp [Clean]), fun hp => by simp [hf s hs] at hp⟩

theorem Halts.ite {c : Prop} [Decidable c] {m' : Prog (St σ) α}
    (h : Halts r failed m) (h' : Halts r failed m') : Halts r failed (if c then m else m') :=
  Prog.Emits.ite (fun _ => h) fun _ => h'

/-- Sequencing: while unpoisoned the second program goes on, once poisoned it must refuse. -/
theorem Halts.bind {f : α → Prop} (hm : Halts r f m) (hk : ∀ a, Halts r g (k a))
    (href : ∀ a, f a → Refuses g (k a)) : Halts r g (m >>= k) := by
  refine Prog.Emits.bind hm fun a t s hs => ?_
  obtain ⟨hst, hf⟩ := hs
  cases hp : s.n.poisoned with
  | false =>
    rw [hp] at hst
    obtain ⟨u, hu, hsu, hg⟩ := hk a s hp
    exact ⟨u, hu, hst.clean.stopped hsu, hg⟩
  | true =>
    obtain ⟨hlog, hp', hg⟩ := href a (hf hp) s hp
    refine ⟨[], by rw [hlog, List.append_nil], ?_, fun _ => hg⟩
    rw [List.append_nil, hp', ← hp]
    exact hst

/-- Sequencing after a program that does not poison. -/
theorem Halts.then (hm : Halts r (fun _ => False) m) (hk : ∀ a, Halts r g (k a)) : Halts r g (m >>= k) :=
  hm.bind hk fun _ h => h.elim

/-- The same, knowing what the first program can return. -/
theorem Halts.thenOf {V : α → Prop} (hm : Halts r (fun _ => False) m) (hV : ∀ s, V (m s).1)
    (hk : ∀ a, V a → Halts r g (k a)) : Halts r g (m >>= k) := by
  intro s hs
  have hmV : Halts r (fun _ => False) (fun s => (⟨(m s).1, hV s⟩, (m s).2) : Prog _ {a // V a}) := hm
  exact hmV.then (k := fun a => k a.1) (fun a => hk a.1 a.2) s hs

theorem rd_halts {failed : UInt32 → Prop} (reg : Reg) : Halts r failed (rd hw reg) := by
  intro s hs
  refine ⟨[⟨s.n.poisoned, .rd reg _⟩], rfl, Or.inl ?_, fun hp => ?_⟩
  · simp [Clean, hs]
  · simp [rd, hs] at hp

theorem wr_halts {failed : Unit → Prop} (reg : Reg) (v : UInt32) : Halts r failed (wr hw reg v) := by
  intro s hs
  refine ⟨[⟨s.n.poisoned, .wr reg v⟩], rfl, Or.inl ?_, fun hp => ?_⟩
  · simp [Clean, hs]
  · simp [wr, hs] at hp

theorem upd_halts {failed : Unit → Prop} {f : PhoebusNand → PhoebusNand}
    (hf : ∀ n, n.poisoned = false → (f n).poisoned = false) : Halts (σ := σ) r failed (upd f) :=
  Halts.modify (fun _ => rfl) fun s => hf s.n

theorem upd_then {g : α → Prop} {f : PhoebusNand → PhoebusNand}
    {k : Unit → Prog (St σ) α} (hf : ∀ n, n.poisoned = false → (f n).poisoned = false)
    (hk : ∀ u, Halts r g (k u)) : Halts r g (upd f >>= k) :=
  (upd_halts hf).then hk

/-- Poisoning with a failing result. -/
theorem setPoisoned_halts {a : α} (h : failed a) : Halts (σ := σ) r failed (do upd setPoisoned; pure a) :=
  fun s _ => ⟨[], by simp [upd], Or.inl (by simp [Clean]), fun _ => h⟩

/-- A transaction: the release of the chip select is the one access that may follow poisoning. -/
theorem transaction_halts {f : α → Prop} {body : Prog (St σ) α}
    (hbody : Halts false f body) (hk : ∀ a, Halts true g (k a)) (href : ∀ a, f a → Refuses g (k a)) :
    Halts true g (do wr hw .snCs 0; let a ← body; wr hw .snCs 1; k a) := by
  refine (wr_halts hw _ _).then fun _ => ?_
  refine Prog.Emits.bind hbody fun a t s hs => ?_
  obtain ⟨hst, hf⟩ := hs
  have ht : Clean t := by
    rcases hst with h | ⟨hr, _⟩
    · exact h
    · exact absurd hr (by decide)
  cases hp : s.n.poisoned with
  | false =>
    obtain ⟨u, hu, hsu, hg⟩ := (wr_halts hw .snCs 1).then (fun _ => hk a) s hp
    exact ⟨u, hu, ht.stopped hsu, hg⟩
  | true =>
    obtain ⟨hlog, hp', hg⟩ := href a (hf hp) (wr hw .snCs 1 s).2 hp
    refine ⟨[csRelease], ?_, Or.inr ⟨rfl, hp', t, ht, rfl⟩, fun _ => hg⟩
    exact hlog.trans (by simp [wr, hp, csRelease])

/-! ### The helpers -/

def TimedOut (ret : Int) : Prop := ret = -etimedout

theorem TimedOut.ne_zero (h : TimedOut ret) : ret ≠ 0 := by
  rw [h]; decide

theorem TimedOut.lt_zero (h : TimedOut ret) : ret < 0 := by
  rw [h]; decide

theorem TimedOut.ne_ebadmsg (h : TimedOut ret) : ret ≠ -ebadmsg := by
  rw [h]; decide

/-- Code that only goes on when `ret` is zero refuses a result that timed out. -/
theorem refuses_of_ne_zero {a : α}
    (h : TimedOut ret) (ha : failed a) : Refuses failed (if ret ≠ 0 then pure a else m) := by
  rw [if_pos h.ne_zero]
  exact Refuses.pure ha

theorem ifOk_refuses {m : Prog (St σ) Int} (h : TimedOut ret) : Refuses TimedOut (ifOk ret m) := by
  rw [ifOk, if_neg h.ne_zero]
  exact Refuses.pure h

theorem ifOk_halts {m : Prog (St σ) Int} (h : Halts r TimedOut m) : Halts r TimedOut (ifOk ret m) :=
  .ite h (.pure _)

theorem pollLoop_halts {failed : UInt32 → Prop} (reg : Reg) (done : UInt32 → Bool) :
    ∀ k, Halts r failed (pollLoop hw reg done k)
  | 0 => rd_halts hw reg
  | k + 1 => (rd_halts hw reg).then fun _ => .ite (.pure _) (pollLoop_halts reg done k)

theorem readPollTimeout_halts {failed : Int × UInt32 → Prop} (reg : Reg)
    (done : UInt32 → Bool) : Halts r failed (readPollTimeout hw reg done) :=
  (Halts.read _).then fun _ => (pollLoop_halts hw reg done _).then fun _ => .pure _

/-- Success or a timeout. -/
def PollRet (x : Int × UInt32) : Prop := x.1 = 0 ∨ TimedOut x.1

theorem readPollTimeout_ret (reg : Reg) (done : UInt32 → Bool) (s : St σ) :
    PollRet (readPollTimeout hw reg done s).1 := by
  simp only [PollRet, readPollTimeout, Prog.bind_run, Prog.read_run, Prog.pure_run]
  split
  · exact Or.inl rfl
  · exact Or.inr rfl

theorem snWait_halts : Halts r TimedOut (snWait hw) := by
  refine (readPollTimeout_halts hw _ _).thenOf (readPollTimeout_ret hw _ _) fun x hx => ?_
  refine Prog.Emits.ite (fun h => setPoisoned_halts (hx.resolve_left h)) fun _ => Halts.pure _

theorem snTx_halts (word : UInt32) (len : ℕ) : Halts r TimedOut (snTx hw word len) := by
  refine (snWait_halts hw).bind (fun ret => .ite (.pure _) ?_) fun ret h => refuses_of_ne_zero h h
  exact (wr_halts hw _ _).then fun _ => (wr_halts hw _ _).then fun _ => snWait_halts hw

theorem store_halts {failed : Unit → Prop} (p : Ptr) (word : UInt32) (chunk : ℕ) :
    Halts (σ := σ) r failed (store p word chunk) := by
  cases p with
  | buf off => exact upd_halts fun _ h => h
  | stk off => exact Halts.modify (fun _ => rfl) fun _ h => h

theorem snRx_halts (p : Ptr) (len : ℕ) : Halts r TimedOut (snRx hw p len) := by
  induction len using Nat.strong_induction_on generalizing p with
  | _ len ih =>
    unfold snRx
    split
    · exact .pure _
    · refine (wr_halts hw _ _).then fun _ => (snWait_halts hw).bind (fun ret => ?_)
        fun ret h => refuses_of_ne_zero h h
      refine .ite (.pure _) ((rd_halts hw _).then fun word => ?_)
      exact (store_halts p word _).then fun _ => ih _ (by omega) _

/-- A transaction that receives the answer to its command. -/
theorem txRx_halts (word : UInt32) (txLen : ℕ) (p : Ptr) (rxLen : ℕ)
    {k : Int → Prog (St σ) β} (hk : ∀ ret, Halts true g (k ret))
    (href : ∀ ret, TimedOut ret → Refuses g (k ret)) : Halts true g (do
      wr hw .snCs 0
      let ret ← snTx hw word txLen
      let ret ← ifOk ret (snRx hw p rxLen)
      wr hw .snCs 1
      k ret) := by
  have hbody : Halts false TimedOut (do
      let ret ← snTx hw word txLen
      ifOk ret (snRx hw p rxLen)) :=
    (snTx_halts hw word txLen).bind (fun _ => ifOk_halts (snRx_halts hw p rxLen))
      fun _ => ifOk_refuses
  exact transaction_halts (k := k) hw hbody hk href

theorem snFeature_halts (addr : UInt32) (p : Ptr) : Halts true TimedOut (snFeature hw addr p) :=
  txRx_halts hw _ 2 p 1 (fun _ => .pure _) fun _ => Refuses.pure

theorem loadPoll_halts : ∀ tries, Halts true TimedOut (loadPoll hw tries)
  | 0 => setPoisoned_halts rfl
  | tries + 1 => by
    refine (snFeature_halts hw _ _).bind (fun ret => .ite (.pure _) ?_)
      fun ret h => refuses_of_ne_zero h h
    exact (Halts.read _).then fun status => .ite (.pure _) (loadPoll_halts tries)

theorem snLoadPage_halts (page : UInt32) : Halts true TimedOut (snLoadPage hw page) := by
  refine (Halts.read _).then fun poisoned => .ite (.pure _) ?_
  refine upd_then (fun _ h => h) fun _ => ?_
  exact transaction_halts hw (snTx_halts hw _ 4) (fun ret => .ite (.pure _) (loadPoll_halts hw 200))
    fun ret h => refuses_of_ne_zero h h

theorem snCacheRead_halts (column : UInt32) (p : Ptr) (len : ℕ) :
    Halts true TimedOut (snCacheRead hw column p len) :=
  txRx_halts hw _ 4 p len (fun _ => .pure _) fun _ => Refuses.pure

theorem snPage_halts (page : UInt32) : Halts true TimedOut (snPage hw page) := by
  refine (snLoadPage_halts hw page).bind (fun ret => ?_) fun ret h => ?_
  · refine (ifOk_halts (snCacheRead_halts hw _ _ _)).bind (fun ret => ?_) fun ret h => ?_
    · exact .ite (upd_then (fun _ h => h) fun _ => .pure _) (.pure _)
    · rw [if_neg h.ne_zero]
      exact Refuses.pure h
  · rw [ifOk, if_neg h.ne_zero, Prog.pure_bind, if_neg h.ne_zero]
    exact Refuses.pure h

/-! ### The engine -/

theorem runEngine_halts {failed : Int × UInt32 → Prop} (sector : ℕ) : Halts r failed (runEngine hw sector) := by
  refine (rd_halts hw _).then fun cfg => (wr_halts hw _ _).then fun _ => ?_
  refine (wr_halts hw _ _).then fun _ => (Halts.read _).then fun dma => ?_
  refine (wr_halts hw _ _).then fun _ => (wr_halts hw _ _).then fun _ => ?_
  refine upd_then (fun _ h => h) fun _ => (wr_halts hw _ _).then fun _ => ?_
  refine (readPollTimeout_halts hw _ _).then fun x => ?_
  exact upd_then (fun _ h => h) fun _ => .pure _

theorem runEngine_ret (sector : ℕ) (s : St σ) :
    PollRet (runEngine hw sector s).1 :=
  readPollTimeout_ret hw _ _ _

theorem finishSector_halts {failed : SectorRet → Prop} (sector : ℕ) (status : UInt32) :
    Halts (σ := σ) r failed (finishSector sector status) := by
  refine .ite ?_ (.ite ?_ ?_)
  · exact upd_then (fun _ h => h) fun _ => .pure _
  · exact upd_then (fun _ h => h) fun _ => .pure _
  · exact upd_then (fun _ h => h) fun _ => upd_then (fun _ h => h) fun _ => .pure _

theorem bchSector_halts (sector : ℕ) : Halts r (fun x => x = .stop (-etimedout)) (bchSector hw sector) := by
  refine upd_then (fun _ h => h) fun _ => (Halts.read _).then fun ret => .ite ?_ ?_
  · exact upd_then (fun _ h => h) fun _ => upd_then (fun _ h => h) fun _ => .pure _
  · refine (runEngine_halts hw sector).thenOf (runEngine_ret hw sector) fun x hx => ?_
    refine Prog.Emits.ite (fun h => ?_) fun _ => finishSector_halts sector _
    exact setPoisoned_halts (congrArg SectorRet.stop (hx.resolve_left h))

theorem bchLoop_halts : ∀ l maxBits eccError, Halts r TimedOut (bchLoop hw l maxBits eccError)
  | [], _, _ => .pure _
  | sector :: rest, maxBits, eccError => by
    refine (bchSector_halts hw sector).bind (fun x => ?_) ?_
    · cases x with
      | stop ret => exact .pure _
      | bad => exact bchLoop_halts rest _ _
      | good bits => exact bchLoop_halts rest _ _
    · rintro _ rfl
      exact Refuses.pure rfl

theorem bchDecode_halts : Halts r TimedOut (bchDecode hw) := bchLoop_halts hw _ _ _

/-! ### The operations, started unpoisoned -/

theorem readPage_halts (mode : Mode) (page : ℕ) : Halts true TimedOut (readPage hw mode page) := by
  refine (snPage_halts hw _).bind (fun ret => ?_) fun ret h => refuses_of_ne_zero h h
  refine .ite (.pure _) (.ite (bchDecode_halts hw) ?_)
  exact upd_then (fun _ h => h) fun _ => .pure _

theorem readLoop_halts (page dataLeft oobLeft off oobOff : ℕ) (maxBits : Int) (eccError : Bool)
    (ops : OobOps) :
    Halts true (fun x => TimedOut x.1)
      (readLoop hw page dataLeft oobLeft off oobOff maxBits eccError ops) := by
  fun_induction readLoop hw page dataLeft oobLeft off oobOff maxBits eccError ops with
  | case1 => exact .pure _
  | case2 => exact .pure _
  | case3 page _ _ _ _ _ _ ops _ _ ih =>
    refine (readPage_halts hw ops.mode page).bind (fun ret => ?_) fun ret h => ?_
    · exact .ite (.pure _) ((Halts.read _).then fun buf => ih ret buf)
    · -- a timeout is not mistaken for an uncorrectable page
      rw [if_neg h.ne_ebadmsg, if_pos h.lt_zero]
      exact Refuses.pure h

theorem nandReadOob_halts (f : ℕ) (ops : OobOps) :
    Halts true (fun x => TimedOut x.1) (nandReadOob hw f ops) :=
  .ite (.pure _) (.ite (.pure _) (readLoop_halts hw _ _ _ _ _ _ _ _))

theorem nandIsbad_halts (pos : ℕ) : Halts true TimedOut (nandIsbad hw pos) := by
  refine upd_then (fun _ h => h) fun _ => (snLoadPage_halts hw _).bind (fun ret => ?_) ?_
  · refine (ifOk_halts (snCacheRead_halts hw _ _ _)).bind (fun ret => .ite (.pure _) ?_)
      fun ret h => refuses_of_ne_zero h h
    refine upd_then (fun _ h => h) fun _ => (Halts.read _).then fun b => .ite (.pure _) ?_
    refine (snPage_halts hw _).bind (fun ret => ?_) fun ret h => ?_
    · refine (ifOk_halts (bchDecode_halts hw)).bind (fun ret => ?_) fun ret h => ?_
      · exact .ite (.pure _) (.ite (.read _) (.pure _))
      · rw [if_neg h.ne_ebadmsg, if_neg (not_le.mpr h.lt_zero)]
        exact Refuses.pure h
    · rw [ifOk, if_neg h.ne_zero, Prog.pure_bind, if_neg h.ne_ebadmsg,
        if_neg (not_le.mpr h.lt_zero)]
      exact Refuses.pure h
  · intro ret h
    rw [ifOk, if_neg h.ne_zero, Prog.pure_bind]
    exact refuses_of_ne_zero h h

theorem exec_halts : ∀ o : Op, Halts true (fun _ => True) (exec hw o)
  | .readOob f ops =>
    (nandReadOob_halts hw f ops).bind (fun _ => .pure _) fun _ _ => Refuses.pure trivial
  | .isbad pos => (nandIsbad_halts hw pos).weaken (fun _ h => h) fun _ _ _ h => ⟨h.1, fun _ => trivial⟩
  | .erase => .pure _

/-! ### The operations, started poisoned -/

/-- Nothing but the count of bad-block queries differs. -/
def Frozen (s s' : St σ) : Prop :=
  s'.log = s.log ∧ s'.n = { s.n with badQueries := s'.n.badQueries }

theorem Frozen.refl (s : St σ) : Frozen s s := ⟨rfl, rfl⟩

theorem Frozen.trans {s' s'' : St σ} (h : Frozen s s') (h' : Frozen s' s'') : Frozen s s'' := by
  refine ⟨h'.1.trans h.1, ?_⟩
  rw [h'.2, h.2]

theorem Frozen.poisoned {s' : St σ} (h : Frozen s s') : s'.n.poisoned = s.n.poisoned := by
  rw [h.2]

theorem snLoadPage_poisoned (hs : s.n.poisoned = true) (page : UInt32) : snLoadPage hw page s = (-eio, s) := by
  simp [snLoadPage, hs]

theorem readPage_poisoned (hs : s.n.poisoned = true) (mode : Mode) (page : ℕ) :
    readPage hw mode page s = (-eio, s) := by
  simp [readPage, snPage, snLoadPage_poisoned hw hs, ifOk, eio]

/-- A poisoned read that asks for something fails with the buffers as they were. -/
theorem readLoop_poisoned (hs : s.n.poisoned = true) {dataLeft oobLeft : ℕ}
    (hleft : ¬(dataLeft = 0 ∧ oobLeft = 0)) (page off oobOff : ℕ) (maxBits : Int)
    (eccError : Bool) (ops : OobOps) :
    let x := readLoop hw page dataLeft oobLeft off oobOff maxBits eccError ops s
    x.1.1 < 0 ∧ x.1.2 = ops ∧ x.2 = s := by
  unfold readLoop
  rw [if_neg hleft]
  split
  · simp [einval]
  · simp [readPage_poisoned hw hs, eio, ebadmsg]

theorem nandReadOob_poisoned (hs : s.n.poisoned = true) (f : ℕ) {ops : OobOps}
    (hlen : ¬(ops.len = 0 ∧ ops.ooblen = 0)) : let x := nandReadOob hw f ops s
    x.1.1 < 0 ∧ x.1.2.datbuf = ops.datbuf ∧ x.1.2.oobbuf = ops.oobbuf ∧ x.2 = s := by
  unfold nandReadOob
  split
  · simp [einval]
  split
  · simp [einval]
  · obtain ⟨h1, h2, h3⟩ := readLoop_poisoned hw hs hlen (f / pageBytes % 2 ^ 32) (f % pageBytes)
      ops.ooboffs 0 false { ops with retlen := 0, oobretlen := 0 }
    exact ⟨h1, by rw [h2], by rw [h2], h3⟩

/-- An empty read has nothing to do, poisoned or not. -/
theorem nandReadOob_empty (s : St σ) (f : ℕ) {ops : OobOps} (hlen : ops.len = 0 ∧ ops.ooblen = 0) :
    (nandReadOob hw f ops s).2 = s := by
  unfold nandReadOob
  split
  · rfl
  split
  · rfl
  · unfold readLoop
    rw [if_pos hlen]
    rfl

theorem nandIsbad_poisoned (hs : s.n.poisoned = true) (pos : ℕ) :
    nandIsbad hw pos s = (-eio, { s with n := { s.n with badQueries := s.n.badQueries + 1 } }) := by
  have hload := fun page => snLoadPage_poisoned hw
    (s := { s with n := { s.n with badQueries := s.n.badQueries + 1 } }) hs page
  simp [nandIsbad, upd, hload, ifOk, eio]

theorem exec_poisoned (hs : s.n.poisoned = true) : ∀ o : Op, Frozen s (exec hw o s).2
  | .readOob f ops => by
    have : (exec hw (.readOob f ops) s).2 = s := by
      by_cases hlen : ops.len = 0 ∧ ops.ooblen = 0
      · exact nandReadOob_empty hw s f hlen
      · exact (nandReadOob_poisoned hw hs f hlen).2.2.2
    rw [this]
    exact Frozen.refl s
  | .isbad pos => by
    rw [exec, nandIsbad_poisoned hw hs pos]
    exact ⟨rfl, rfl⟩
  | .erase => Frozen.refl s

theorem execAll_poisoned : ∀ (l : List Op) {s : St σ}, s.n.poisoned = true →
    Frozen s (execAll hw l s).2
  | [], s, _ => Frozen.refl s
  | o :: rest, s, hs => by
    have h := exec_poisoned hw hs o
    exact h.trans (execAll_poisoned rest (h.poisoned.trans hs))

/-! ### Whole sessions -/

theorem execAll_refuses (l : List Op) : Refuses (fun _ => True) (execAll hw l) := fun _ hs =>
  have h := execAll_poisoned hw l hs
  ⟨h.1, h.poisoned.trans hs, trivial⟩

theorem execAll_halts : ∀ l : List Op, Halts true (fun _ => True) (execAll hw l)
  | [] => .pure _
  | o :: rest => (exec_halts hw o).bind (fun _ => execAll_halts rest)
      fun _ _ => execAll_refuses hw rest

theorem probeId_halts : Halts true TimedOut (probeId hw) := by
  refine (rd_halts hw _).then fun cfg => (wr_halts hw _ _).then fun _ => ?_
  refine txRx_halts hw _ 2 _ 3 (fun ret => .ite (.pure _) ?_) fun ret h => refuses_of_ne_zero h h
  refine (rd_halts hw _).then fun _ => (rd_halts hw _).then fun _ => ?_
  refine (Halts.read _).then fun id => .ite (.pure _) ?_
  refine (snFeature_halts hw _ _).bind (fun ret => .ite (.pure _) ?_)
    fun ret h => refuses_of_ne_zero h h
  exact (Halts.read _).then fun config => .ite (.pure _) (.pure _)

theorem probeRegister_halts (env : ProbeEnv) : Halts true (fun _ => True) (probeRegister hw env) := by
  refine (execAll_halts hw env.scan).bind (fun _ => ?_) fun _ _ => ?_
  · exact .ite (upd_then (fun n h => by simp [h]) fun _ => .pure _) (.pure _)
  · intro s hs
    split <;> simp [upd, hs]

theorem phoebusNandProbe_halts (env : ProbeEnv) :
    Halts true (fun _ => True) (phoebusNandProbe hw env) := by
  refine .ite (.pure _) (.ite (.pure _) (.ite (.pure _) ?_))
  refine upd_then (fun _ _ => rfl) fun _ => (probeId_halts hw).bind (fun ret => ?_)
    fun ret h => refuses_of_ne_zero h trivial
  refine .ite (.pure _) (.ite (.pure _) ?_)
  split
  · exact .pure _
  · exact upd_then (fun _ h => h) fun _ => probeRegister_halts hw env

/-- A device's life: its probe, then calls of the MTD core. -/
def session (env : ProbeEnv) (ops : List Op) : Prog (St σ) Unit := do
  let _ ← phoebusNandProbe hw env
  execAll hw ops

theorem session_halts (env : ProbeEnv) (ops : List Op) :
    Halts true (fun _ => True) (session hw env ops) :=
  (phoebusNandProbe_halts hw env).bind (fun _ => execAll_halts hw ops)
    fun _ _ => execAll_refuses hw ops

/-- Over every session with every controller: nothing is issued once the device is poisoned but at
    most one release of the chip select, the flag stays set, and all later calls leave the log, the
    buffer and the statistics alone; reads of something and bad-block queries then fail. -/
theorem poison_is_final (env : ProbeEnv) (ops : List Op) (stk : Bytes) (h₀ : σ) :
    let s₁ := (session hw env ops (boot stk h₀)).2
    (Clean s₁.log ∨ s₁.n.poisoned = true ∧ ∃ c, Clean c ∧ s₁.log = c ++ [csRelease]) ∧
    (s₁.n.poisoned = true →
      (∀ later, let s₂ := (execAll hw later s₁).2
        s₂.n.poisoned = true ∧ s₂.log = s₁.log ∧ s₂.n.buf = s₁.n.buf ∧
        s₂.n.eccStatsCorrected = s₁.n.eccStatsCorrected ∧
        s₂.n.eccStatsFailed = s₁.n.eccStatsFailed) ∧
      (∀ f rq, rq.len ≠ 0 ∨ rq.ooblen ≠ 0 → let x := nandReadOob hw f rq s₁
        x.1.1 < 0 ∧ x.1.2.datbuf = rq.datbuf ∧ x.1.2.oobbuf = rq.oobbuf ∧ x.2 = s₁) ∧
      (∀ pos, let x := nandIsbad hw pos s₁
        x.1 < 0 ∧ x.2.log = s₁.log ∧
        x.2.n = { s₁.n with badQueries := s₁.n.badQueries + 1 })) := by
  intro s₁
  obtain ⟨t, ht, hst, -⟩ := session_halts hw env ops (boot stk h₀) rfl
  refine ⟨?_, fun hp => ⟨fun later => ?_, fun f rq hrq => ?_, fun pos => ?_⟩⟩
  · rw [ht]
    exact hst.imp id fun h => h.2
  · have hz := execAll_poisoned hw later hp
    refine ⟨hz.poisoned.trans hp, hz.1, ?_, ?_, ?_⟩ <;> rw [hz.2]
  · exact nandReadOob_poisoned hw hp f (by omega)
  · rw [nandIsbad_poisoned hw hp pos]
    exact ⟨show -eio < 0 by decide, rfl, rfl⟩

end Halting

/-- A controller whose status register always reads busy. -/
def stuckHw : Hw Unit := ⟨fun s b _ => (0xffffffff, s, b), fun s b _ _ => (s, b), fun _ => 0⟩

theorem poison_is_final_stuck :
    let env : ProbeEnv := ⟨true, 0, 0, 0, none, [], 0⟩
    let s₁ := (session stuckHw env [] (boot (fun _ => 0) ())).2
    s₁.n.poisoned = true ∧ (nandIsbad stuckHw 0 s₁).1 < 0 := by
  intro env s₁
  have hp : s₁.n.poisoned = true := by decide
  exact ⟨hp, ((poison_is_final stuckHw env [] (fun _ => 0) ()).2 hp).2.2 0 |>.1⟩

end PhoebusBsp.Nand

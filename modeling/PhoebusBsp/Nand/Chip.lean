import Mathlib.Tactic.IntervalCases
import PhoebusBsp.Nand.Driver

/-! A chip, a controller and an engine that work, and what the driver's helpers do on them.

    The chip holds the raw pages; the engine is any function of a sector's 512 data bytes and 16 tag
    and parity bytes. How long anything is busy is arbitrary, as long as no poll of the driver runs
    out of time (`Chip.Prompt`). Time and the log do not matter for what is read, so the helpers are
    described on a `View` of the state without them. -/

namespace PhoebusBsp.Nand
open Schemes

/-! ### The machine -/

/-- What a run of the engine leaves behind. -/
structure Decoded where
  data : Bytes
  tag : Bytes
  status : UInt32

structure Chip where
  /-- The 2112 raw bytes of each page. -/
  page : ℕ → Bytes
  /-- The engine, on data bytes and on tag and parity bytes. -/
  bch : (Fin 512 → UInt8) → (Fin 16 → UInt8) → Decoded
  /-- `SN_STATUS` as read by the `t`-th access. -/
  snStat : ℕ → UInt32
  /-- `ECC_STATUS` as read by the `t`-th access, as long as a busy bit is set in it. -/
  eccWait : ℕ → UInt32
  /-- The status byte after the given load, at the given poll. -/
  feature : ℕ → ℕ → UInt8
  /-- Any other register, as read by the `t`-th access. -/
  cfg : ℕ → UInt32
  /-- The bus address of the driver's buffer. -/
  dma : UInt32
  /-- How many unsuccessful reads fit into a poll. -/
  budget : ℕ

/-- The transaction in progress: the bytes the chip shifts out and how many it has shifted. -/
structure Io where
  wlen : UInt32
  reply : Bytes
  pos : ℕ
  rlen : UInt32

def Io.idle : Io := ⟨0, fun _ => 0xff, 0, 0⟩

structure Core where
  io : Io
  cache : ℕ
  loads : ℕ
  polls : ℕ
  eccData : UInt32
  eccTag : UInt32
  eccStatus : UInt32

structure Dev where
  t : ℕ
  core : Core

/-- Four bytes, most significant first. -/
def packWord (f : ℕ → UInt8) : UInt32 :=
  UInt32.ofNat ((f 0).toNat * 2 ^ 24 + (f 1).toNat * 2 ^ 16 + (f 2).toNat * 2 ^ 8 + (f 3).toNat)

def readIdReply : Bytes := fun i => if i = 0 then 0xc8 else if i = 1 then 0x01 else 0x7f

namespace Chip

variable (c : Chip)

/-- The chip has received the `wlen + 1` bytes of a command word. -/
def command (core : Core) (word : UInt32) : Core :=
  let op := word >>> 24
  if op = 0x13 ∧ core.io.wlen = 3 then
    { core with cache := (word &&& 0xffffff).toNat, loads := core.loads + 1, polls := 0 }
  else if op = 0x0f ∧ core.io.wlen = 1 then
    { core with
      io := { core.io with reply := fun _ => c.feature core.loads core.polls }
      polls := core.polls + 1 }
  else if op = 0x03 ∧ core.io.wlen = 3 then
    let column := (word >>> 8 &&& 0xffff).toNat
    { core with io := { core.io with reply := fun i => c.page core.cache (column + i) } }
  else if op = 0x9f ∧ core.io.wlen = 1 then
    { core with io := { core.io with reply := readIdReply } }
  else core

/-- The engine decodes in place, at the two addresses it was given. -/
def decode (core : Core) (b : Bytes) : Core × Bytes :=
  let data := (core.eccData - c.dma).toNat
  let tag := (core.eccTag - c.dma).toNat
  let out := c.bch (fun i => b (data + i)) (fun i => b (tag + i))
  ({ core with eccStatus := out.status &&& ~~~ 3 },
    Bytes.write (Bytes.write b data 512 out.data) tag 16 out.tag)

def wrCore (core : Core) (b : Bytes) (r : Reg) (v : UInt32) : Core × Bytes :=
  match r with
  | .snCs => ({ core with io := .idle }, b)
  | .snWcmd => ({ core with io := { core.io with wlen := v } }, b)
  | .snWdata => (c.command core v, b)
  | .snRcmd => ({ core with io := { core.io with rlen := v } }, b)
  | .eccData => ({ core with eccData := v }, b)
  | .eccTag => ({ core with eccTag := v }, b)
  | .eccTrig => c.decode core b
  | _ => (core, b)

/-- `SN_RDATA` shifts in the `rlen + 1` bytes that were asked for; a busy engine hides its
    status. -/
def rdCore (core : Core) (t : ℕ) (r : Reg) : UInt32 × Core :=
  match r with
  | .snRdata =>
    (packWord fun i => core.io.reply (core.io.pos + i),
      { core with io := { core.io with pos := core.io.pos + core.io.rlen.toNat + 1 } })
  | .snStatus => (c.snStat t, core)
  | .eccStatus => (if eccIdle (c.eccWait t) then core.eccStatus else c.eccWait t, core)
  | _ => (c.cfg t, core)

def hw : Hw Dev where
  rd d b r := ((c.rdCore d.core d.t r).1, ⟨d.t + 1, (c.rdCore d.core d.t r).2⟩, b)
  wr d b r v := (⟨d.t + 1, (c.wrCore d.core b r v).1⟩, (c.wrCore d.core b r v).2)
  budget _ := c.budget

/-- No poll of the engine times out. -/
def EccPrompt : Prop := ∀ t, ∃ k ≤ c.budget + 1, eccIdle (c.eccWait (t + k)) = true

/-- No poll of the driver times out. -/
structure Prompt : Prop where
  sn : ∀ t, ∃ k ≤ c.budget + 1, snIdle (c.snStat (t + k)) = true
  ecc : ∀ t, ∃ k ≤ c.budget + 1, eccIdle (c.eccWait (t + k)) = true
  load : ∀ l, ∃ k < 200, c.feature l k &&& 1 = 0

end Chip

theorem wordByte_packWord (f : ℕ → UInt8) {i : ℕ} (hi : i < 4) : wordByte (packWord f) i = f i := by
  have h0 := (f 0).toNat_lt
  have h1 := (f 1).toNat_lt
  have h2 := (f 2).toNat_lt
  have h3 := (f 3).toNat_lt
  apply UInt8.toNat_inj.mp
  interval_cases i <;>
    simp only [wordByte, packWord, UInt32.toNat_toUInt8, UInt32.toNat_shiftRight,
      UInt32.toNat_ofNat', Nat.shiftRight_eq_div_pow] <;>
    norm_num <;> omega

/-! ### Views -/

/-- The state without time and log. -/
structure View where
  n : PhoebusNand
  stk : Bytes
  core : Core

def view (s : St Dev) : View := ⟨s.n, s.stk, s.hw.core⟩

/-- Byte `i` of what is received next goes to `p + i`. -/
def View.put (v : View) (p : Ptr) (len : ℕ) (f : ℕ → UInt8) : View :=
  match p with
  | .buf off => { v with n := { v.n with buf := Bytes.write v.n.buf off len f } }
  | .stk off => { v with stk := Bytes.write v.stk off len f }

section Helpers

variable {c : Chip}

theorem wr_runs {r : Reg} {x : UInt32} {v : View} (core : Core)
    (h : c.wrCore v.core v.n.buf r x = (core, v.n.buf)) :
    Prog.Runs view (wr c.hw r x) v () { v with core := core } := by
  rintro s rfl
  refine ⟨rfl, ?_⟩
  show (⟨{ s.n with buf := (c.wrCore s.hw.core s.n.buf r x).2 }, s.stk,
    (c.wrCore s.hw.core s.n.buf r x).1⟩ : View) = _
  rw [show c.wrCore s.hw.core s.n.buf r x = (core, s.n.buf) from h]
  rfl

theorem upd_runs (f : PhoebusNand → PhoebusNand) (v : View) :
    Prog.Runs view (upd f) v () { v with n := f v.n } := by
  rintro s rfl
  exact ⟨rfl, rfl⟩

/-- A poll of a register whose reads change nothing ends as soon as one of them is `done`. -/
theorem pollLoop_ends {r : Reg} {done : UInt32 → Bool} (hr : ∀ core t, (c.rdCore core t r).2 = core) :
    ∀ (K : ℕ) (s : St Dev), (∃ k ≤ K, done (c.rdCore s.hw.core (s.hw.t + k) r).1 = true) →
      (∃ t, (pollLoop c.hw r done K s).1 = (c.rdCore s.hw.core t r).1) ∧
      done (pollLoop c.hw r done K s).1 = true ∧ view (pollLoop c.hw r done K s).2 = view s
  | 0, s, ⟨k, hk, hd⟩ => by
    obtain rfl : k = 0 := by omega
    refine ⟨⟨_, rfl⟩, hd, ?_⟩
    simp [pollLoop, rd, view, Chip.hw, hr]
  | K + 1, s, ⟨k, hk, hd⟩ => by
    simp only [pollLoop, Prog.bind_run, Prog.ite_run]
    have hv : view (rd c.hw r s).2 = view s := by simp [rd, view, Chip.hw, hr]
    have hcore : (rd c.hw r s).2.hw.core = s.hw.core := congrArg View.core hv
    split
    · next h => exact ⟨⟨_, rfl⟩, h, hv⟩
    · next h =>
      -- the first read was not done, so a later one is
      have hne : k ≠ 0 := by
        rintro rfl
        exact h hd
      obtain ⟨⟨t, ht⟩, hdone, hview⟩ := pollLoop_ends hr K (rd c.hw r s).2
        ⟨k - 1, by omega, by
          rw [hcore, show (rd c.hw r s).2.hw.t + (k - 1) = s.hw.t + k from ?_]
          · exact hd
          · show s.hw.t + 1 + (k - 1) = s.hw.t + k
            omega⟩
      exact ⟨⟨t, by rw [ht, hcore]⟩, hdone, hview.trans hv⟩

theorem readPollTimeout_ends (r : Reg) (done : UInt32 → Bool)
    (hr : ∀ core t, (c.rdCore core t r).2 = core) (s : St Dev)
    (h : ∃ k ≤ c.budget + 1, done (c.rdCore s.hw.core (s.hw.t + k) r).1 = true) :
    ∃ t, readPollTimeout c.hw r done s =
        ((0, (c.rdCore s.hw.core t r).1), (readPollTimeout c.hw r done s).2) ∧
      done (c.rdCore s.hw.core t r).1 = true ∧ view (readPollTimeout c.hw r done s).2 = view s := by
  obtain ⟨⟨t, ht⟩, hd, hv⟩ := pollLoop_ends hr (c.budget + 1) s h
  rw [ht] at hd
  refine ⟨t, ?_, hd, hv⟩
  simp only [readPollTimeout, Prog.bind_run, Prog.read_run, Prog.pure_run, Prod.mk.injEq, and_true]
  rw [show c.hw.budget s.hw = c.budget from rfl, ht, if_pos hd]
  exact ⟨rfl, rfl⟩

theorem snWait_runs (hc : c.Prompt) (v : View) : Prog.Runs view (snWait c.hw) v 0 v := by
  rintro s rfl
  obtain ⟨t, hrun, -, hv⟩ := readPollTimeout_ends .snStatus snIdle (fun _ _ => rfl) s
    (hc.sn s.hw.t)
  simp only [snWait, Prog.bind_run]
  rw [hrun]
  exact ⟨rfl, hv⟩

/-- The engine's poll returns the status the engine left, its busy bits clear. -/
theorem eccWait_runs (hc : c.EccPrompt) (v : View) (hv : eccIdle v.core.eccStatus = true) :
    Prog.Runs view (readPollTimeout c.hw .eccStatus eccIdle) v (0, v.core.eccStatus) v := by
  rintro s rfl
  have hdone : ∃ k ≤ c.budget + 1,
      eccIdle (c.rdCore s.hw.core (s.hw.t + k) .eccStatus).1 = true := by
    obtain ⟨k, hk, hi⟩ := hc s.hw.t
    refine ⟨k, hk, ?_⟩
    simp only [Chip.rdCore, hi, if_true]
    exact hv
  obtain ⟨t, hrun, hd, hview⟩ := readPollTimeout_ends .eccStatus eccIdle (fun _ _ => rfl) s hdone
  rw [hrun]
  refine ⟨?_, hview⟩
  simp only [Chip.rdCore, Prod.mk.injEq, true_and] at hd ⊢
  split at hd
  · next h => rw [if_pos h]; rfl
  · next h => exact absurd hd h

theorem snTx_runs (hc : c.Prompt) (word : UInt32) (len : ℕ) (v : View) :
    Prog.Runs view (snTx c.hw word len) v 0
      { v with
        core := c.command
          { v.core with io := { v.core.io with wlen := UInt32.ofNat (len - 1) } } word } := by
  refine (snWait_runs hc v).bind ?_
  rw [if_neg (by decide)]
  exact (wr_runs { v.core with io := { v.core.io with wlen := UInt32.ofNat (len - 1) } } rfl).bind
    ((wr_runs _ rfl).bind (snWait_runs hc _))

theorem store_runs (p : Ptr) (word : UInt32) (chunk : ℕ) (v : View) :
    Prog.Runs view (store p word chunk) v () (v.put p chunk (wordByte word)) := by
  rintro s rfl
  cases p <;> exact ⟨rfl, rfl⟩

/-- What the transaction shifts in, `len` bytes of it, four at a time. -/
def View.receive (v : View) (p : Ptr) (len : ℕ) : View :=
  { v.put p len fun i => v.core.io.reply (v.core.io.pos + i) with
    core := { v.core with
      io := { v.core.io with
        pos := v.core.io.pos + len
        rlen := if len = 0 then v.core.io.rlen else UInt32.ofNat ((len - 1) % 4) } } }

theorem put_congr {v : View} {p : Ptr} {n : ℕ} {f g : ℕ → UInt8} (h : ∀ i < n, f i = g i) :
    v.put p n f = v.put p n g := by
  cases p <;> simp only [View.put, Bytes.write_congr h]

theorem put_zero (v : View) (p : Ptr) (f : ℕ → UInt8) : v.put p 0 f = v := by
  cases p <;> simp only [View.put, Bytes.write_zero]

theorem rdata_runs (v : View) :
    Prog.Runs view (rd c.hw .snRdata) v (packWord fun i => v.core.io.reply (v.core.io.pos + i))
      { v with
        core := { v.core with
          io := { v.core.io with pos := v.core.io.pos + v.core.io.rlen.toNat + 1 } } } := by
  rintro s rfl
  exact ⟨rfl, rfl⟩

theorem receive_zero (v : View) (p : Ptr) : v.receive p 0 = v := by
  simp [View.receive, put_zero]

/-- Receiving a chunk and then the rest is receiving the whole. -/
theorem receive_receive (v : View) (p : Ptr) {k len : ℕ} (hk : 0 < k) (hlen : k ≤ len)
    (h4 : k = len ∨ k = 4) : (v.receive p k).receive (p.add k) (len - k) = v.receive p len := by
  have hk0 : k ≠ 0 := by omega
  have hlen0 : len ≠ 0 := by omega
  have hadd : k + (len - k) = len := by omega
  have hpos : v.core.io.pos + k + (len - k) = v.core.io.pos + len := by omega
  have hrlen : (if len - k = 0 then UInt32.ofNat ((k - 1) % 4)
      else UInt32.ofNat ((len - k - 1) % 4)) = UInt32.ofNat ((len - 1) % 4) := by
    split
    · congr 2; omega
    · congr 1; omega
  cases p with
  | buf off =>
    simp only [View.receive, View.put, Ptr.add, if_neg hk0, if_neg hlen0, hpos, hrlen,
      Nat.add_assoc v.core.io.pos k,
      Bytes.write_write_adjacent v.n.buf off k (len - k) fun i => v.core.io.reply (v.core.io.pos + i),
      hadd]
  | stk off =>
    simp only [View.receive, View.put, Ptr.add, if_neg hk0, if_neg hlen0, hpos, hrlen,
      Nat.add_assoc v.core.io.pos k,
      Bytes.write_write_adjacent v.stk off k (len - k) fun i => v.core.io.reply (v.core.io.pos + i),
      hadd]

/-- One round of `sn_rx`: ask for a chunk, take the word, store its bytes. -/
theorem put_receive (v : View) (p : Ptr) {k : ℕ} (hk : 0 < k) (h4 : k ≤ 4) :
    View.put { v with
      core := { v.core with
        io := { v.core.io with
          rlen := UInt32.ofNat (k - 1)
          pos := v.core.io.pos + (UInt32.ofNat (k - 1)).toNat + 1 } } } p k
      (wordByte (packWord fun i => v.core.io.reply (v.core.io.pos + i))) = v.receive p k := by
  have hrlen : (UInt32.ofNat (k - 1)).toNat = k - 1 := by
    rw [UInt32.toNat_ofNat']; omega
  have hpos : v.core.io.pos + (k - 1) + 1 = v.core.io.pos + k := by omega
  have hmod : (k - 1) % 4 = k - 1 := by omega
  have hk0 : k ≠ 0 := by omega
  rw [put_congr fun i hi => wordByte_packWord _ (lt_of_lt_of_le hi h4), hrlen, hpos]
  cases p <;> simp only [View.put, View.receive, if_neg hk0, hmod]

theorem snRx_runs (hc : c.Prompt) (p : Ptr) (len : ℕ) (v : View) :
    Prog.Runs view (snRx c.hw p len) v 0 (v.receive p len) := by
  induction len using Nat.strong_induction_on generalizing p v with
  | _ len ih =>
    unfold snRx
    split
    · next h => subst h; rw [receive_zero]; exact Prog.Runs.pure 0
    · next h =>
      have hk : 0 < min len 4 := by omega
      refine (wr_runs { v.core with
        io := { v.core.io with rlen := UInt32.ofNat (min len 4 - 1) } } rfl).bind
        ((snWait_runs hc _).bind ?_)
      rw [if_neg (by decide)]
      refine (rdata_runs _).bind ((store_runs p _ _ _).bind ?_)
      have hrest := ih (len - min len 4) (by omega) (p.add (min len 4)) (v.receive p (min len 4))
      rw [receive_receive v p hk (Nat.min_le_left len 4) (by omega),
        ← put_receive v p hk (Nat.min_le_right len 4)] at hrest
      exact hrest

/-! ### Transactions -/

/-- The chip after a command sent in a fresh transaction. -/
def Chip.issue (c : Chip) (core : Core) (len : ℕ) (word : UInt32) : Core :=
  c.command { core with io := { Io.idle with wlen := UInt32.ofNat (len - 1) } } word

theorem cs_runs (x : UInt32) (v : View) :
    Prog.Runs view (wr c.hw .snCs x) v () { v with core := { v.core with io := .idle } } :=
  wr_runs _ rfl

theorem ifOk_runs {m : Prog (St Dev) Int} {v v' : View} {ret : Int} (h : Prog.Runs view m v ret v') :
    Prog.Runs view (ifOk 0 m) v ret v' := by
  rw [ifOk, if_pos rfl]
  exact h

/-- A transaction stores the chip's answer to its command and leaves the bus idle. -/
theorem txRx_runs (hc : c.Prompt) (word : UInt32) (txLen : ℕ) (p : Ptr) (rxLen : ℕ) (v : View)
    {core : Core} (hcore : c.issue v.core txLen word = core) (hpos : core.io.pos = 0) :
    Prog.Runs view (do
        wr c.hw .snCs 0
        let ret ← snTx c.hw word txLen
        let ret ← ifOk ret (snRx c.hw p rxLen)
        wr c.hw .snCs 1
        pure ret) v 0
      { v.put p rxLen core.io.reply with core := { core with io := .idle } } := by
  refine (cs_runs 0 v).bind ((snTx_runs hc word txLen _).bind ?_)
  rw [show c.command _ word = core from hcore]
  refine (ifOk_runs (snRx_runs hc p rxLen _)).bind ?_
  have hput : View.receive { v with core := core } p rxLen =
      { v.put p rxLen core.io.reply with
        core := (View.receive { v with core := core } p rxLen).core } := by
    cases p <;> simp [View.receive, View.put, hpos]
  rw [hput]
  refine (cs_runs 1 _).bind ?_
  exact Prog.Runs.pure 0

theorem issue_feature (core : Core) :
    c.issue core 2 (featureWord 0xc0) =
      { core with
        io := ⟨1, fun _ => c.feature core.loads core.polls, 0, 0⟩
        polls := core.polls + 1 } := by
  simp only [Chip.issue, Chip.command]
  rw [if_neg (by decide), if_pos (by decide)]
  rfl

theorem issue_cache (core : Core) {page : ℕ} (h : core.cache = page) {column : UInt32}
    (hop : cacheWord column >>> 24 = 0x03) {k : ℕ}
    (hcolumn : (cacheWord column >>> 8 &&& 0xffff).toNat = k) :
    c.issue core 4 (cacheWord column) =
      { core with io := ⟨3, fun i => c.page page (k + i), 0, 0⟩ } := by
  simp only [Chip.issue, Chip.command]
  rw [hop, if_neg (by decide), if_neg (by decide), if_pos ⟨rfl, rfl⟩, hcolumn, h]
  rfl

theorem issue_load (core : Core) {page : ℕ} (h : page < chipBytes / pageBytes) :
    c.issue core 4 (loadWord (UInt32.ofNat page)) =
      { core with
        io := ⟨3, fun _ => 0xff, 0, 0⟩, cache := page, loads := core.loads + 1, polls := 0 } := by
  simp only [Chip.issue, Chip.command]
  rw [if_pos ⟨loadWord_opcode h, rfl⟩, loadWord_row h]
  rfl

/-- After a poll of the status byte. -/
def View.polled (v : View) (c : Chip) : View :=
  { v with
    stk := Bytes.write v.stk 0 1 fun _ => c.feature v.core.loads v.core.polls
    core := { v.core with io := .idle, polls := v.core.polls + 1 } }

theorem snFeature_runs (hc : c.Prompt) (v : View) :
    Prog.Runs view (snFeature c.hw 0xc0 (.stk 0)) v 0 (v.polled c) :=
  txRx_runs hc (featureWord 0xc0) 2 (.stk 0) 1 v (issue_feature v.core) rfl

/-- One round of the status poll. -/
theorem loadPoll_succ_runs (hc : c.Prompt) {tries : ℕ} {v v' : View}
    (h : Prog.Runs view
      (if c.feature v.core.loads v.core.polls &&& 1 = 0 then pure 0 else loadPoll c.hw tries)
      (v.polled c) 0 v') :
    Prog.Runs view (loadPoll c.hw (tries + 1)) v 0 v' := by
  refine (snFeature_runs hc v).bind ?_
  rw [if_neg (by decide)]
  refine Prog.Runs.bind (Prog.Runs.read (a := c.feature v.core.loads v.core.polls) ?_) h
  intro s hs
  exact congrFun (congrArg View.stk hs) 0

/-! ### Pages -/

/-- What matters between transactions: the driver's record and the page in the cache. -/
def between (s : St Dev) : PhoebusNand × ℕ := (s.n, s.hw.core.cache)

theorem runs_between {α : Type} {m : Prog (St Dev) α} {x : PhoebusNand × ℕ} {a : α}
    {x' : PhoebusNand × ℕ}
    (h : ∀ v : View, (v.n, v.core.cache) = x →
      ∃ v', (v'.n, v'.core.cache) = x' ∧ Prog.Runs view m v a v') :
    Prog.Runs between m x a x' := by
  intro s hs
  obtain ⟨v', hv', hrun⟩ := h (view s) hs
  obtain ⟨ha, hview⟩ := hrun s rfl
  refine ⟨ha, ?_⟩
  rw [← hv', ← hview]
  rfl

/-- The status poll ends when the chip reports the load done. -/
theorem loadPoll_runs (hc : c.Prompt) : ∀ (tries : ℕ) (v : View),
    (∃ k, v.core.polls ≤ k ∧ k < v.core.polls + tries ∧ c.feature v.core.loads k &&& 1 = 0) →
    ∃ v', (v'.n, v'.core.cache) = (v.n, v.core.cache) ∧ Prog.Runs view (loadPoll c.hw tries) v 0 v'
  | 0, _, ⟨_, _, _, _⟩ => by omega
  | tries + 1, v, ⟨k, hk, hlt, hdone⟩ => by
    by_cases hnow : c.feature v.core.loads v.core.polls &&& 1 = 0
    · refine ⟨v.polled c, rfl, loadPoll_succ_runs hc ?_⟩
      rw [if_pos hnow]
      exact Prog.Runs.pure 0
    · -- the poll in progress is not the one that succeeds
      have hne : k ≠ v.core.polls := by
        rintro rfl
        exact hnow hdone
      have hpolls : (v.polled c).core.polls = v.core.polls + 1 := rfl
      obtain ⟨v', hv', hrun⟩ := loadPoll_runs hc tries (v.polled c)
        ⟨k, by omega, by omega, hdone⟩
      refine ⟨v', hv', loadPoll_succ_runs hc ?_⟩
      rw [if_neg hnow]
      exact hrun

theorem snLoadPage_runs (hc : c.Prompt) {n : PhoebusNand} (hn : n.poisoned = false) {page : ℕ}
    (hpage : page < chipBytes / pageBytes) (cached : ℕ) :
    Prog.Runs between (snLoadPage c.hw (UInt32.ofNat page)) (n, cached) 0
      ({ n with lastPage := UInt32.ofNat page }, page) := by
  refine runs_between fun v hv => ?_
  obtain ⟨rfl, -⟩ := Prod.mk.inj hv
  obtain ⟨k, hk, hdone⟩ := hc.load (v.core.loads + 1)
  obtain ⟨v', hv', hrun⟩ := loadPoll_runs hc 200
    { v with
      n := { v.n with lastPage := UInt32.ofNat page }
      core := { v.core with io := .idle, cache := page, loads := v.core.loads + 1, polls := 0 } }
    ⟨k, Nat.zero_le _, by simpa using hk, hdone⟩
  refine ⟨v', hv', Prog.Runs.bind (Prog.Runs.read (a := false) fun s hs => ?_) ?_⟩
  · exact (congrArg (fun w => w.n.poisoned) hs).trans hn
  · rw [if_neg (by decide)]
    refine (upd_runs _ v).bind ((cs_runs 0 _).bind ((snTx_runs hc _ 4 _).bind ?_))
    rw [show c.command _ _ = _ from issue_load (c := c) v.core hpage]
    refine (cs_runs 1 _).bind ?_
    rw [if_neg (by decide)]
    exact hrun

theorem snCacheRead_runs (hc : c.Prompt) (n : PhoebusNand) (page off len : ℕ) {column : UInt32}
    (hop : cacheWord column >>> 24 = 0x03) {k : ℕ}
    (hcolumn : (cacheWord column >>> 8 &&& 0xffff).toNat = k) :
    Prog.Runs between (snCacheRead c.hw column (.buf off) len) (n, page) 0
      ({ n with buf := Bytes.write n.buf off len fun i => c.page page (k + i) }, page) := by
  refine runs_between fun v hv => ?_
  obtain ⟨rfl, hcache⟩ := Prod.mk.inj hv
  refine ⟨_, ?_, txRx_runs hc (cacheWord column) 4 (.buf off) len v
    (issue_cache v.core hcache hop hcolumn) rfl⟩
  rw [← hcache]
  rfl

theorem upd_runs_between (f : PhoebusNand → PhoebusNand) (n : PhoebusNand) (page : ℕ) :
    Prog.Runs between (upd f) (n, page) () (f n, page) := by
  rintro s hs
  obtain ⟨rfl, rfl⟩ := Prod.mk.inj hs
  exact ⟨rfl, rfl⟩

/-- The record after a page has been read into the buffer. -/
def loaded (c : Chip) (page : ℕ) (n : PhoebusNand) : PhoebusNand :=
  { n with
    lastPage := UInt32.ofNat page
    buf := Bytes.write n.buf 0 (pageBytes + oobBytes) (c.page page)
    pages := n.pages + 1 }

theorem snPage_runs (hc : c.Prompt) {n : PhoebusNand} (hn : n.poisoned = false) {page : ℕ}
    (hpage : page < chipBytes / pageBytes) (cached : ℕ) :
    Prog.Runs between (snPage c.hw (UInt32.ofNat page)) (n, cached) 0 (loaded c page n, page) := by
  refine (snLoadPage_runs hc hn hpage cached).bind ?_
  rw [ifOk, if_pos rfl]
  refine (snCacheRead_runs hc _ page 0 _ (k := 0) (by decide) (by decide)).bind ?_
  rw [if_pos rfl]
  simp only [Nat.zero_add]
  exact (upd_runs_between _ _ _).bind (Prog.Runs.pure 0)

end Helpers

end PhoebusBsp.Nand

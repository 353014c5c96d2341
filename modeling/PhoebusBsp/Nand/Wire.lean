import PhoebusBsp.Nand.Driver

/-! The wire protocol of the SPI-NAND driver: whatever the controller answers and wherever a poll
    times out, the writes to `SN_CS`, `SN_WCMD` and `SN_WDATA` form complete transactions, each of
    them `CS ← 0`, at most one command, `CS ← 1`, and every command is one of the four read-only
    opcodes.

        CS ← 0 ──▶ [WCMD ← len - 1 ──▶ WDATA ← word] ──▶ CS ← 1 -/

namespace PhoebusBsp.Nand
open Schemes

/-- The accesses that drive the bus. -/
def Access.onWire : Access → Bool
  | .wr .snCs _ | .wr .snWcmd _ | .wr .snWdata _ => true
  | _ => false

/-- The bus side of a log. -/
def wire (l : List Event) : List Access := (l.map Event.access).filter Access.onWire

/-- The byte of a command word that is sent first. -/
def opcode (word : UInt32) : UInt32 := word >>> 24

/-- `READ_ID`, `GET_FEATURE`, `PAGE_READ` and `READ_FROM_CACHE`. -/
def readOpcodes : List UInt32 := [0x9f, 0x0f, 0x13, 0x03]

/-- One complete bus transaction. -/
inductive Frame : List Access → Prop
  | idle : Frame [.wr .snCs 0, .wr .snCs 1]
  | cmd (len word : UInt32) (h : opcode word ∈ readOpcodes) :
      Frame [.wr .snCs 0, .wr .snWcmd len, .wr .snWdata word, .wr .snCs 1]

/-- A bus log made of complete transactions. -/
inductive Framed : List Access → Prop
  | nil : Framed []
  | cons {f l : List Access} (hf : Frame f) (hl : Framed l) : Framed (f ++ l)

/-- The value last written to `SN_CS`, if any. -/
def lastCs (l : List Event) : Option UInt32 :=
  (wire l).foldl (fun o a => match a with | .wr .snCs v => some v | _ => o) none

/-- A call into the driver: the probe, or an MTD operation on the registered device. -/
inductive Call where
  | probe (env : ProbeEnv)
  | op (o : Op)

/-- The offsets the MTD core passes lie inside the chip. `nand_read_oob` checks its pages itself;
    `nand_isbad` relies on the core. -/
def Op.InChip : Op → Prop
  | .isbad pos => pos < chipBytes
  | _ => True

def Call.InChip : Call → Prop
  | .probe env => ∀ o ∈ env.scan, o.InChip
  | .op o => o.InChip

section Calls

variable {σ : Type} (hw : Hw σ)

def Call.run : Call → Prog (St σ) Int
  | .probe env => phoebusNandProbe hw env
  | .op o => exec hw o

def runCalls : List Call → Prog (St σ) Unit
  | [] => pure ()
  | c :: rest => do
    let _ ← c.run hw
    runCalls rest

end Calls

/-! ### Transactions -/

theorem wire_append (a b : List Event) : wire (a ++ b) = wire a ++ wire b := by
  simp [wire]

theorem Framed.append {a b : List Access} (ha : Framed a) (hb : Framed b) : Framed (a ++ b) := by
  induction ha with
  | nil => exact hb
  | cons hf _ ih => rw [List.append_assoc]; exact .cons hf ih

/-- Complete transactions leave the chip released. -/
theorem Framed.lastCs {l : List Event} (h : Framed (wire l)) :
    lastCs l = none ∨ lastCs l = some 1 := by
  suffices H : ∀ a, Framed a → ∀ o : Option UInt32, o = none ∨ o = some 1 →
      let r := a.foldl (fun o a => match a with | .wr .snCs v => some v | _ => o) o
      r = none ∨ r = some 1 by
    exact H _ h none (Or.inl rfl)
  intro a ha
  induction ha with
  | nil => intro o ho; exact ho
  | cons hf _ ih =>
    intro o _
    simp only [List.foldl_append]
    refine ih _ (Or.inr ?_)
    cases hf <;> rfl

/-! ### What the helpers put on the wire -/

section Helpers

variable {σ : Type} (hw : Hw σ) {α β : Type} {Q : List Access → Prop} {m : Prog (St σ) α} {k : α → Prog (St σ) β}

/-- What the program drives on the bus is described by `Q`. -/
def OnWire {α : Type} (Q : List Access → Prop) (m : Prog (St σ) α) : Prop :=
  Prog.Emits St.log (fun _ => True) m fun _ _ t => Q (wire t)

/-- The program drives nothing on the bus. -/
abbrev Silent {α : Type} (m : Prog (St σ) α) : Prop := OnWire (fun l => l = []) m

/-- The program performs complete transactions. -/
abbrev Framing {α : Type} (m : Prog (St σ) α) : Prop := OnWire Framed m

theorem OnWire.ite {c : Prop} [Decidable c]
    {m' : Prog (St σ) α} (h : OnWire Q m) (h' : OnWire Q m') : OnWire Q (if c then m else m') :=
  Prog.Emits.ite (fun _ => h) fun _ => h'

/-- Sequencing, for any way the two parts combine. -/
theorem OnWire.bind {R S : List Access → Prop} (hm : OnWire R m) (hk : ∀ a, OnWire S (k a))
    (h : ∀ l l', R l → S l' → Q (l ++ l')) : OnWire Q (m >>= k) := by
  refine Prog.Emits.bind hm fun a t s ht => ?_
  obtain ⟨u, hu, hS⟩ := hk a s trivial
  exact ⟨u, hu, (congrArg Q (wire_append t u)).mpr (h _ _ ht hS)⟩

theorem Silent.pure (a : α) : Silent (σ := σ) (Pure.pure a) :=
  Prog.Emits.pure a fun _ _ => rfl

theorem Silent.read (f : St σ → α) : Silent (Prog.read f) :=
  Prog.Emits.read f fun _ _ => rfl

theorem Silent.modify {f : St σ → St σ} (h : ∀ s, (f s).log = s.log) : Silent (Prog.modify f) :=
  Prog.Emits.modify h fun _ _ => rfl

theorem Silent.upd (f : PhoebusNand → PhoebusNand) : Silent (σ := σ) (upd f) :=
  Silent.modify fun _ => rfl

/-- After a silent program the wire is as the rest of the program leaves it. -/
theorem Silent.then (hm : Silent m) (hk : ∀ a, OnWire Q (k a)) : OnWire Q (m >>= k) :=
  hm.bind hk fun _ _ h h' => by rw [h]; exact h'

theorem Silent.framing (h : Silent m) : Framing m :=
  h.weaken (fun _ h => h) fun _ _ t (ht : wire t = []) =>
    show Framed (wire t) by rw [ht]; exact .nil

theorem Framing.then (hm : Framing m) (hk : ∀ a, Framing (k a)) : Framing (m >>= k) :=
  hm.bind hk fun _ _ h h' => h.append h'

theorem ifOk_framing {m : Prog (St σ) Int} (h : Framing m) (ret : Int) : Framing (ifOk ret m) :=
  .ite h (Silent.pure _).framing

theorem rd_silent (r : Reg) : Silent (rd hw r) :=
  fun _ _ => ⟨_, rfl, rfl⟩

theorem wr_silent {r : Reg} {v : UInt32} (h : (Access.wr r v).onWire = false) :
    Silent (wr hw r v) :=
  fun s _ => ⟨[⟨s.n.poisoned, .wr r v⟩], rfl, by simp [wire, h]⟩

theorem pollLoop_silent (r : Reg) (done : UInt32 → Bool) : ∀ k, Silent (pollLoop hw r done k)
  | 0 => rd_silent hw r
  | k + 1 => (rd_silent hw r).then fun _ => .ite (Silent.pure _) (pollLoop_silent r done k)

theorem readPollTimeout_silent (r : Reg) (done : UInt32 → Bool) :
    Silent (readPollTimeout hw r done) :=
  (Silent.read _).then fun _ => (pollLoop_silent hw r done _).then fun _ => Silent.pure _

theorem snWait_silent : Silent (snWait hw) :=
  (readPollTimeout_silent hw _ _).then fun _ =>
    .ite ((Silent.upd _).then fun _ => Silent.pure _) (Silent.pure _)

theorem store_silent (p : Ptr) (word : UInt32) (chunk : ℕ) :
    Silent (σ := σ) (store p word chunk) := by
  cases p with
  | buf off => exact Silent.upd _
  | stk off => exact Silent.modify fun _ => rfl

theorem snRx_silent (p : Ptr) (len : ℕ) : Silent (snRx hw p len) := by
  induction len using Nat.strong_induction_on generalizing p with
  | _ len ih =>
    unfold snRx
    split
    · exact Silent.pure _
    · refine (wr_silent hw rfl).then fun _ => (snWait_silent hw).then fun ret => ?_
      refine .ite (Silent.pure _) ((rd_silent hw _).then fun word => ?_)
      exact (store_silent p word _).then fun _ => ih _ (by omega) _

/-! ### Transactions of the driver -/

/-- Inside a transaction: nothing, or one command with this word. -/
def Body (word : UInt32) (l : List Access) : Prop :=
  l = [] ∨ ∃ len, l = [.wr .snWcmd len, .wr .snWdata word]

theorem snTx_body (word : UInt32) (len : ℕ) : OnWire (Body word) (snTx hw word len) := by
  refine (snWait_silent hw).then fun ret => ?_
  refine .ite ((Silent.pure ret).weaken (fun _ h => h) fun _ _ _ h => Or.inl h) ?_
  -- the two command writes, then a silent wait
  have hcmd : ∀ v, OnWire (fun l => l = [.wr .snWcmd v]) (wr hw .snWcmd v) :=
    fun _ _ _ => ⟨_, rfl, rfl⟩
  have hdata : OnWire (fun l => l = [.wr .snWdata word]) (wr hw .snWdata word) :=
    fun _ _ => ⟨_, rfl, rfl⟩
  refine (hcmd _).bind (fun _ => hdata.bind (fun _ => snWait_silent hw) fun l l' h h' => ?_)
    fun l l' h (h' : l' = [.wr .snWdata word]) => ?_
  · rw [h, h']; rfl
  · rw [h, h']; exact Or.inr ⟨_, rfl⟩

/-- The bracket every command of the driver is sent in: `body` sends the command, `k` follows. -/
theorem transaction {word : UInt32} {body : Prog (St σ) α}
    (hword : opcode word ∈ readOpcodes) (hbody : OnWire (Body word) body) (hk : ∀ a, Framing (k a)) :
    Framing (do wr hw .snCs 0; let a ← body; wr hw .snCs 1; k a) := by
  have hcs : ∀ v, OnWire (fun l => l = [.wr .snCs v]) (wr hw .snCs v) := fun _ _ _ => ⟨_, rfl, rfl⟩
  have hclose : ∀ a, OnWire (fun l => ∃ u, l = .wr .snCs 1 :: u ∧ Framed u)
      (do wr hw .snCs 1; k a) :=
    fun a => (hcs 1).bind (fun _ => hk a) fun _ u h hu => ⟨u, by rw [h]; rfl, hu⟩
  have hrest : OnWire (fun l => ∃ b u, l = b ++ .wr .snCs 1 :: u ∧ Body word b ∧ Framed u)
      (do let a ← body; wr hw .snCs 1; k a) := by
    refine hbody.bind hclose ?_
    rintro b _ hb ⟨u, rfl, hu⟩
    exact ⟨b, u, rfl, hb, hu⟩
  refine (hcs 0).bind (fun _ => hrest) ?_
  rintro _ _ rfl ⟨b, u, rfl, hb, hu⟩
  rcases hb with rfl | ⟨len, rfl⟩
  · exact Framed.cons (f := [_, _]) .idle hu
  · exact Framed.cons (f := [_, _, _, _]) (.cmd len word hword) hu

/-- A transaction that receives the answer to its command. -/
theorem txRx_transaction {β : Type} {word : UInt32} (hword : opcode word ∈ readOpcodes) (txLen : ℕ)
    (p : Ptr) (rxLen : ℕ) {k : Int → Prog (St σ) β} (hk : ∀ ret, Framing (k ret)) :
    Framing (do
      wr hw .snCs 0
      let ret ← snTx hw word txLen
      let ret ← ifOk ret (snRx hw p rxLen)
      wr hw .snCs 1
      k ret) := by
  have hbody : OnWire (Body word) (do
      let ret ← snTx hw word txLen
      ifOk ret (snRx hw p rxLen)) :=
    (snTx_body hw word txLen).bind (fun _ => .ite (snRx_silent hw p rxLen) (Silent.pure _))
      fun l l' h (h' : l' = []) => by rw [h', List.append_nil]; exact h
  exact transaction (k := k) hw hword hbody hk

theorem snFeature_framing {addr : UInt32} (h : opcode (featureWord addr) ∈ readOpcodes) (p : Ptr) :
    Framing (snFeature hw addr p) :=
  txRx_transaction hw h 2 p 1 fun _ => (Silent.pure _).framing

theorem loadPoll_framing : ∀ tries, Framing (loadPoll hw tries)
  | 0 => (Silent.upd _).then fun _ => (Silent.pure _).framing
  | tries + 1 => by
    refine (snFeature_framing hw (by decide) _).then fun ret => .ite (Silent.pure _).framing ?_
    exact (Silent.read _).then fun status =>
      .ite (Silent.pure _).framing (loadPoll_framing tries)

theorem snLoadPage_framing {page : UInt32} (h : opcode (loadWord page) ∈ readOpcodes) :
    Framing (snLoadPage hw page) := by
  refine (Silent.read _).then fun poisoned => .ite (Silent.pure _).framing ?_
  refine (Silent.upd _).then fun _ => transaction hw h (snTx_body hw _ 4) fun ret => ?_
  exact .ite (Silent.pure _).framing (loadPoll_framing hw 200)

theorem snCacheRead_framing {column : UInt32} (h : opcode (cacheWord column) ∈ readOpcodes)
    (p : Ptr) (len : ℕ) : Framing (snCacheRead hw column p len) :=
  txRx_transaction hw h 4 p len fun _ => (Silent.pure _).framing

theorem snPage_framing {page : UInt32} (h : opcode (loadWord page) ∈ readOpcodes) :
    Framing (snPage hw page) := by
  refine (snLoadPage_framing hw h).then fun ret => Framing.then (ifOk_framing ?_ _) fun ret => .ite ?_ ?_
  · exact snCacheRead_framing hw (by decide) _ _
  · exact (Silent.upd _).then fun _ => (Silent.pure _).framing
  · exact (Silent.pure _).framing

/-! ### The engine never touches the bus -/

theorem runEngine_silent (sector : ℕ) : Silent (runEngine hw sector) := by
  refine (rd_silent hw _).then fun cfg => (wr_silent hw rfl).then fun _ => ?_
  refine (wr_silent hw rfl).then fun _ => (Silent.read _).then fun dma => ?_
  refine (wr_silent hw rfl).then fun _ => (wr_silent hw rfl).then fun _ => ?_
  refine (Silent.upd _).then fun _ => (wr_silent hw rfl).then fun _ => ?_
  exact (readPollTimeout_silent hw _ _).then fun x => (Silent.upd _).then fun _ => Silent.pure _

theorem finishSector_silent (sector : ℕ) (status : UInt32) :
    Silent (σ := σ) (finishSector sector status) := by
  refine .ite ?_ (.ite ?_ ?_)
  · exact (Silent.upd _).then fun _ => Silent.pure _
  · exact (Silent.upd _).then fun _ => Silent.pure _
  · exact (Silent.upd _).then fun _ => (Silent.upd _).then fun _ => Silent.pure _

theorem bchSector_silent (sector : ℕ) : Silent (bchSector hw sector) := by
  refine (Silent.upd _).then fun _ => (Silent.read _).then fun ret => .ite ?_ ?_
  · exact (Silent.upd _).then fun _ => (Silent.upd _).then fun _ => Silent.pure _
  · refine (runEngine_silent hw sector).then fun x => .ite ?_ (finishSector_silent sector _)
    exact (Silent.upd _).then fun _ => Silent.pure _

theorem bchLoop_silent : ∀ l maxBits eccError, Silent (bchLoop hw l maxBits eccError)
  | [], _, _ => Silent.pure _
  | sector :: rest, _, _ => (bchSector_silent hw sector).then fun r => by
    cases r with
    | stop ret => exact Silent.pure _
    | bad => exact bchLoop_silent rest _ _
    | good bits => exact bchLoop_silent rest _ _

theorem bchDecode_silent : Silent (bchDecode hw) := bchLoop_silent hw _ _ _

/-! ### The operations -/

theorem opcode_loadWord {page : ℕ} (h : page < chipBytes / pageBytes) :
    opcode (loadWord (UInt32.ofNat page)) ∈ readOpcodes := by
  rw [opcode, loadWord_opcode h]
  decide

theorem readPage_framing (mode : Mode) {page : ℕ} (h : page < chipBytes / pageBytes) :
    Framing (readPage hw mode page) := by
  refine (snPage_framing hw (opcode_loadWord h)).then fun ret => ?_
  refine .ite (Silent.pure _).framing (.ite (bchDecode_silent hw).framing ?_)
  exact (Silent.upd _).then fun _ => (Silent.pure _).framing

theorem readLoop_framing (page dataLeft oobLeft off oobOff : ℕ) (maxBits : Int) (eccError : Bool)
    (ops : OobOps) :
    Framing (readLoop hw page dataLeft oobLeft off oobOff maxBits eccError ops) := by
  fun_induction readLoop hw page dataLeft oobLeft off oobOff maxBits eccError ops with
  | case1 => exact (Silent.pure _).framing
  | case2 => exact (Silent.pure _).framing
  | case3 page _ _ _ _ _ _ ops _ hpage ih =>
    refine (readPage_framing hw ops.mode (not_le.mp hpage)).then fun ret => ?_
    refine .ite (Silent.pure _).framing ((Silent.read _).then fun buf => ?_)
    exact ih ret buf

theorem nandReadOob_framing (f : ℕ) (ops : OobOps) : Framing (nandReadOob hw f ops) :=
  .ite (Silent.pure _).framing (.ite (Silent.pure _).framing (readLoop_framing hw _ _ _ _ _ _ _ _))

theorem nandIsbad_framing {pos : ℕ} (h : pos < chipBytes) : Framing (nandIsbad hw pos) := by
  have hpos : pos < 134217728 := h
  have hpage : opcode (loadWord (UInt32.ofNat (pos / blockBytes * 64))) ∈ readOpcodes := by
    refine opcode_loadWord (show pos / 131072 * 64 < 65536 from ?_)
    omega
  refine (Silent.upd _).then fun _ => (snLoadPage_framing hw hpage).then fun ret => ?_
  refine (ifOk_framing (snCacheRead_framing hw (by decide) _ _) _).then fun ret => ?_
  refine .ite (Silent.pure _).framing ((Silent.upd _).then fun _ => (Silent.read _).then fun b => ?_)
  refine .ite (Silent.pure _).framing ((snPage_framing hw hpage).then fun ret => ?_)
  refine (ifOk_framing (bchDecode_silent hw).framing _).then fun ret => ?_
  exact .ite (Silent.pure _).framing (.ite (Silent.read _).framing (Silent.pure _).framing)

theorem exec_framing {o : Op} (h : o.InChip) : Framing (exec hw o) := by
  cases o with
  | readOob f ops => exact (nandReadOob_framing hw f ops).then fun _ => (Silent.pure _).framing
  | isbad pos => exact nandIsbad_framing hw h
  | erase => exact (Silent.pure _).framing

theorem execAll_framing : ∀ l : List Op, (∀ o ∈ l, o.InChip) → Framing (execAll hw l)
  | [], _ => (Silent.pure _).framing
  | o :: rest, h => (exec_framing hw (h o List.mem_cons_self)).then fun _ =>
      execAll_framing rest fun o ho => h o (List.mem_cons_of_mem _ ho)

theorem probeId_framing : Framing (probeId hw) := by
  refine (rd_silent hw _).then fun cfg => (wr_silent hw rfl).then fun _ => ?_
  refine txRx_transaction hw (by decide) 2 (.stk 0) 3 fun ret => ?_
  refine .ite (Silent.pure _).framing ((rd_silent hw _).then fun _ => ?_)
  refine (rd_silent hw _).then fun _ => ?_
  refine (Silent.read _).then fun id => .ite (Silent.pure _).framing ?_
  refine (snFeature_framing hw (by decide) _).then fun ret => .ite (Silent.pure _).framing ?_
  exact (Silent.read _).then fun config => .ite (Silent.pure _).framing (Silent.pure _).framing

theorem phoebusNandProbe_framing {env : ProbeEnv} (h : ∀ o ∈ env.scan, o.InChip) :
    Framing (phoebusNandProbe hw env) := by
  have hret : ∀ ret : Int, Framing (σ := σ) (pure ret) := fun ret => (Silent.pure ret).framing
  refine .ite (hret _) (.ite (hret _) (.ite (hret _) ((Silent.upd _).then fun _ => ?_)))
  refine (probeId_framing hw).then fun ret => .ite (hret _) (.ite (hret _) ?_)
  split
  · exact hret _
  · refine (Silent.upd _).then fun _ => (execAll_framing hw _ h).then fun _ => ?_
    exact .ite ((Silent.upd _).then fun _ => hret _) (hret _)

theorem runCalls_framing : ∀ calls : List Call, (∀ c ∈ calls, c.InChip) → Framing (runCalls hw calls)
  | [], _ => (Silent.pure _).framing
  | c :: rest, h => by
    have hc : Framing (c.run hw) := by
      have hin := h c List.mem_cons_self
      cases c with
      | probe env => exact phoebusNandProbe_framing hw hin
      | op o => exact exec_framing hw hin
    exact hc.then fun _ => runCalls_framing rest fun c hc => h c (List.mem_cons_of_mem _ hc)

/-- Whatever calls are made and whatever the controller answers, the bus has seen only complete
    transactions with read-only opcodes when the last call returns, and the chip is released. -/
theorem wire_protocol (calls : List Call) (hin : ∀ c ∈ calls, c.InChip) (stk : Bytes) (h₀ : σ) :
    let log := (runCalls hw calls (boot stk h₀)).2.log
    Framed (wire log) ∧ (lastCs log = none ∨ lastCs log = some 1) := by
  intro log
  obtain ⟨t, ht, hf⟩ := runCalls_framing hw calls hin (boot stk h₀) trivial
  rw [show log = t from ht]
  exact ⟨hf, hf.lastCs⟩

end Helpers

/-- A controller that answers every read with zero. -/
def zeroHw : Hw Unit := ⟨fun s b _ => (0, s, b), fun s b _ _ => (s, b), fun _ => 0⟩

theorem wire_protocol_isbad :
    let calls := [Call.op (.isbad 0), .op .erase]
    (∀ c ∈ calls, c.InChip) ∧
      Framed (wire (runCalls zeroHw calls (boot (fun _ => 0) ())).2.log) :=
  have hin : ∀ c ∈ [Call.op (.isbad 0), .op .erase], c.InChip := by
    simp [Call.InChip, Op.InChip, chipBytes]
  ⟨hin, (wire_protocol zeroHw _ hin _ _).1⟩

end PhoebusBsp.Nand

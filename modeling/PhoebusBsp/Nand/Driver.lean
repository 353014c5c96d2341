import PhoebusBsp.Schemes.Bytes
import PhoebusBsp.Schemes.Prog

/-! The read-only SPI-NAND driver `rtl9607c-spinand-ro.c`.

    The driver talks to two register blocks, the SPI controller (`SN_*`) and the BCH engine
    (`ECC_*`), and shares one DMA buffer with the engine. `Hw σ` is any such hardware: it answers
    reads, reacts to writes and may change the buffer at either. Every access is logged together
    with the value `n->poisoned` had when it was issued, so that statements about the wire and about
    the time after poisoning are statements about the log.

        nand_read_oob ──▶ sn_page ──▶ sn_load_page ──▶ sn_tx, sn_feature
              │              └─────▶ sn_cache_read ──▶ sn_tx, sn_rx ──▶ sn_wait
              └─────────▶ bch_decode ──▶ erased_sector -/

namespace PhoebusBsp.Nand
open Schemes

/-! ### Constants -/

def pageBytes : ℕ := 2048
def oobBytes : ℕ := 64
def blockBytes : ℕ := pageBytes * 64
def chipBytes : ℕ := 128 * 1024 * 1024
def scratchOff : ℕ := 2176

def eio : Int := 5
def enomem : Int := 12
def enodev : Int := 19
def einval : Int := 22
def erofs : Int := 30
def erange : Int := 34
def ebadmsg : Int := 77
def eopnotsupp : Int := 122
def etimedout : Int := 145

/-! ### Hardware -/

/-- The registers of the SPI controller and of the BCH engine. -/
inductive Reg where
  | snCfg | snCs | snWcmd | snRcmd | snRdata | snWdata | snStatus
  | eccCfg | eccTrig | eccData | eccTag | eccStatus | eccIrq
  deriving DecidableEq, Repr

/-- Any controller hardware with states `σ`. Reads and writes may move the hardware and, through
    DMA, change the buffer; `budget` is how many unsuccessful reads fit into a poll's 2000 µs. -/
structure Hw (σ : Type) where
  rd : σ → Bytes → Reg → UInt32 × σ × Bytes
  wr : σ → Bytes → Reg → UInt32 → σ × Bytes
  budget : σ → ℕ

inductive Access where
  | rd (r : Reg) (v : UInt32)
  | wr (r : Reg) (v : UInt32)
  deriving DecidableEq, Repr

/-- One register access, with `n->poisoned` as it was when the access was issued. -/
structure Event where
  poisoned : Bool
  access : Access
  deriving DecidableEq, Repr

/-- `struct phoebus_nand`: the DMA buffer, the counters (`ecc_stats` of the `mtd_info` included)
    and the poison flag. `mapped` is whether the DMA buffer is allocated. -/
structure PhoebusNand where
  buf : Bytes
  dma : UInt32
  mapped : Bool
  pages : ℕ
  rawPages : ℕ
  corrected : ℕ
  failed : ℕ
  timeouts : ℕ
  badQueries : ℕ
  markerReads : ℕ
  bchSectors : ℕ
  eccStatsCorrected : ℕ
  eccStatsFailed : ℕ
  lastPage : UInt32
  lastEcc : UInt32
  lastEccPage : UInt32
  poisoned : Bool

/-- `devm_kzalloc`. -/
def PhoebusNand.zero : PhoebusNand :=
  ⟨fun _ => 0, 0, false, 0, 0, 0, 0, 0, 0, 0, 0, 0, 0, 0, 0, 0, false⟩

/-- The driver's state, the hardware's, and the accesses made so far. `stk` holds the few bytes
    the driver keeps in local variables (`status`, `id`, `config`). -/
structure St (σ : Type) where
  n : PhoebusNand
  stk : Bytes
  hw : σ
  log : List Event

/-- Before the probe: no device, nothing accessed, whatever the stack and the hardware hold. -/
def boot {σ : Type} (stk : Bytes) (hw : σ) : St σ := ⟨.zero, stk, hw, []⟩

/-- Where `sn_rx` stores what it receives. -/
inductive Ptr where
  | buf (off : ℕ)
  | stk (off : ℕ)

section Driver

variable {σ : Type} (hw : Hw σ)

def rd (r : Reg) : Prog (St σ) UInt32 := fun s =>
  let x := hw.rd s.hw s.n.buf r
  (x.1, { s with
    n := { s.n with buf := x.2.2 }, hw := x.2.1, log := s.log ++ [⟨s.n.poisoned, .rd r x.1⟩] })

def wr (r : Reg) (v : UInt32) : Prog (St σ) Unit := fun s =>
  let x := hw.wr s.hw s.n.buf r v
  ((), { s with
    n := { s.n with buf := x.2 }, hw := x.1, log := s.log ++ [⟨s.n.poisoned, .wr r v⟩] })

/-- Change the driver's own state. -/
def upd (f : PhoebusNand → PhoebusNand) : Prog (St σ) Unit :=
  Prog.modify fun s => { s with n := f s.n }

/-- The reads of one poll: up to `k` unsuccessful ones, then a last one when the time is up. -/
def pollLoop (r : Reg) (done : UInt32 → Bool) : ℕ → Prog (St σ) UInt32
  | 0 => rd hw r
  | k + 1 => do
    let v ← rd hw r
    if done v then pure v else pollLoop r done k

/-- `read_poll_timeout(rd, v, done(v), 1, 2000, false, base, r)`. -/
def readPollTimeout (r : Reg) (done : UInt32 → Bool) : Prog (St σ) (Int × UInt32) := do
  let k ← Prog.read fun s => hw.budget s.hw
  let v ← pollLoop hw r done (k + 1)
  pure (if done v then 0 else -etimedout, v)

def setPoisoned (n : PhoebusNand) : PhoebusNand :=
  { n with timeouts := n.timeouts + 1, poisoned := true }

def snIdle (v : UInt32) : Bool := v &&& 8 == 0

def snWait : Prog (St σ) Int := do
  let x ← readPollTimeout hw .snStatus snIdle
  if x.1 ≠ 0 then do
    upd setPoisoned
    pure x.1
  else pure x.1

def snTx (word : UInt32) (len : ℕ) : Prog (St σ) Int := do
  let ret ← snWait hw
  if ret ≠ 0 then pure ret
  else do
    wr hw .snWcmd (UInt32.ofNat (len - 1))
    wr hw .snWdata word
    snWait hw

/-- Byte `i` of a received word, most significant first. -/
def wordByte (word : UInt32) (i : ℕ) : UInt8 := (word >>> UInt32.ofNat (24 - i * 8)).toUInt8

/-- The `for` loop of `sn_rx` that stores the first `chunk` bytes of a word. -/
def store (p : Ptr) (word : UInt32) (chunk : ℕ) : Prog (St σ) Unit :=
  match p with
  | .buf off => upd fun n => { n with buf := Bytes.write n.buf off chunk (wordByte word) }
  | .stk off => Prog.modify fun s => { s with stk := Bytes.write s.stk off chunk (wordByte word) }

def Ptr.add : Ptr → ℕ → Ptr
  | .buf off, k => .buf (off + k)
  | .stk off, k => .stk (off + k)

def snRx (p : Ptr) (len : ℕ) : Prog (St σ) Int :=
  if _h : len = 0 then pure 0
  else do
    let chunk := min len 4
    wr hw .snRcmd (UInt32.ofNat (chunk - 1))
    let ret ← snWait hw
    if ret ≠ 0 then pure ret
    else do
      let word ← rd hw .snRdata
      store p word chunk
      snRx (p.add chunk) (len - chunk)
termination_by len

/-- `if (!ret) ret = m;` -/
def ifOk (ret : Int) (m : Prog (St σ) Int) : Prog (St σ) Int := if ret = 0 then m else pure ret

def featureWord (addr : UInt32) : UInt32 := (0x0f : UInt32) <<< 24 ||| addr <<< 16

def snFeature (addr : UInt32) (p : Ptr) : Prog (St σ) Int := do
  wr hw .snCs 0
  let ret ← snTx hw (featureWord addr) 2
  let ret ← ifOk ret (snRx hw p 1)
  wr hw .snCs 1
  pure ret

/-- The status poll of `sn_load_page`, with `tries` polls left. -/
def loadPoll : ℕ → Prog (St σ) Int
  | 0 => do
    upd setPoisoned
    pure (-etimedout)
  | tries + 1 => do
    let ret ← snFeature hw 0xc0 (.stk 0)
    if ret ≠ 0 then pure ret
    else do
      let status ← Prog.read fun s => s.stk 0
      if status &&& 1 = 0 then pure 0 else loadPoll tries

def loadWord (page : UInt32) : UInt32 := (0x13 : UInt32) <<< 24 ||| page

/-- A page of the chip leaves the opcode byte of the command alone. -/
theorem loadWord_opcode {page : ℕ} (h : page < chipBytes / pageBytes) :
    loadWord (UInt32.ofNat page) >>> 24 = 0x13 := by
  have hpage : page < 65536 := h
  apply UInt32.toNat_inj.mp
  simp only [loadWord, UInt32.toNat_shiftRight, UInt32.toNat_or, UInt32.toNat_ofNat']
  have hshift : (24 : UInt32).toNat % 32 = 24 := rfl
  rw [hshift, Nat.shiftRight_or_distrib,
    Nat.mod_eq_of_lt (by omega), Nat.shiftRight_eq_div_pow page, Nat.div_eq_of_lt (by omega)]
  rfl

theorem loadWord_row {page : ℕ} (h : page < chipBytes / pageBytes) :
    (loadWord (UInt32.ofNat page) &&& 0xffffff).toNat = page := by
  have hpage : page < 65536 := h
  simp only [loadWord, UInt32.toNat_and, UInt32.toNat_or, UInt32.toNat_ofNat']
  have hmask : (0xffffff : UInt32).toNat = 2 ^ 24 - 1 := rfl
  have hword : page < 2 ^ 32 := by omega
  have hrow : page < 2 ^ 24 := by omega
  rw [hmask, Nat.and_two_pow_sub_one_eq_mod, Nat.or_mod_two_pow, Nat.mod_eq_of_lt hword,
    Nat.mod_eq_of_lt hrow]
  exact Nat.zero_or page

def snLoadPage (page : UInt32) : Prog (St σ) Int := do
  let poisoned ← Prog.read fun s => s.n.poisoned
  if poisoned then pure (-eio)
  else do
    upd fun n => { n with lastPage := page }
    wr hw .snCs 0
    let ret ← snTx hw (loadWord page) 4
    wr hw .snCs 1
    if ret ≠ 0 then pure ret else loadPoll hw 200

def cacheWord (column : UInt32) : UInt32 := (0x03000000 : UInt32) ||| column <<< 8

def snCacheRead (column : UInt32) (p : Ptr) (len : ℕ) : Prog (St σ) Int := do
  wr hw .snCs 0
  let ret ← snTx hw (cacheWord column) 4
  let ret ← ifOk ret (snRx hw p len)
  wr hw .snCs 1
  pure ret

def snPage (page : UInt32) : Prog (St σ) Int := do
  let ret ← snLoadPage hw page
  let ret ← ifOk ret (snCacheRead hw 0 (.buf 0) (pageBytes + oobBytes))
  if ret = 0 then do
    upd fun n => { n with pages := n.pages + 1 }
    pure ret
  else pure ret

/-! ### BCH -/

/-- Number of one bits. -/
def hweight8 (v : UInt8) : ℕ := ((List.range 8).filter fun i => v.toNat.testBit i).length

/-- The zero bits of the first `k` bytes of `b`. -/
def flips (b : Bytes) (k : ℕ) : ℕ := ((List.range k).map fun i => hweight8 (~~~ b i)).sum

def erasedSector (data tag : Bytes) : Int :=
  let f := flips data 512 + flips tag 16
  if f ≤ 4 then f else -1

/-- How one sector of `bch_decode` ends. -/
inductive SectorRet where
  | stop (ret : Int)
  | bad
  | good (bits : ℕ)

/-- The offsets of the six tag bytes and of the ten parity bytes of a sector. -/
def tagOff (sector : ℕ) : ℕ := pageBytes + sector * 6
def parityOff (sector : ℕ) : ℕ := pageBytes + 24 + sector * 10

/-- The two `memcpy`s that gather a sector's tag and parity bytes in the scratch area. -/
def gather (sector : ℕ) (b : Bytes) : Bytes :=
  let b := Bytes.memcpy b scratchOff b (tagOff sector) 6
  Bytes.memcpy b (scratchOff + 6) b (parityOff sector) 10

/-- The three `memset`s on an erased sector. -/
def blank (sector : ℕ) (b : Bytes) : Bytes :=
  let b := Bytes.memset b (sector * 512) 0xff 512
  let b := Bytes.memset b (tagOff sector) 0xff 6
  Bytes.memset b (parityOff sector) 0xff 10

def addCorrected (bits : ℕ) (n : PhoebusNand) : PhoebusNand :=
  { n with eccStatsCorrected := n.eccStatsCorrected + bits, corrected := n.corrected + bits }

def addFailed (n : PhoebusNand) : PhoebusNand :=
  { n with eccStatsFailed := n.eccStatsFailed + 1, failed := n.failed + 1 }

def eccIdle (v : UInt32) : Bool := v &&& 3 == 0

/-- `(status >> 12) & 0xff`. -/
def statusBits (status : UInt32) : ℕ := (status >>> 12 &&& 0xff).toNat

/-- What `bch_decode` makes of the status word of a decode that has ended. -/
def finishSector (sector : ℕ) (status : UInt32) : Prog (St σ) SectorRet :=
  if status &&& 0x100 ≠ 0 then do
    upd addFailed
    pure .bad
  else if statusBits status > 6 then do
    upd addFailed
    pure .bad
  else do
    upd (addCorrected (statusBits status))
    upd fun n => { n with buf := Bytes.memcpy n.buf (tagOff sector) n.buf scratchOff 6 }
    pure (.good (statusBits status))

/-- Start the engine on a sector and wait for it. -/
def runEngine (sector : ℕ) : Prog (St σ) (Int × UInt32) := do
  let cfg ← rd hw .eccCfg
  wr hw .eccCfg (cfg &&& ~~~ 0x30000000 ||| 0x00100000)
  wr hw .eccIrq 1
  let dma ← Prog.read fun s => s.n.dma
  wr hw .eccTag (dma + UInt32.ofNat scratchOff)
  wr hw .eccData (dma + UInt32.ofNat (sector * 512))
  upd fun n => { n with bchSectors := n.bchSectors + 1, lastEccPage := n.lastPage }
  wr hw .eccTrig 0
  let x ← readPollTimeout hw .eccStatus eccIdle
  upd fun n => { n with lastEcc := x.2 }
  pure x

/-- The body of the sector loop of `bch_decode`. -/
def bchSector (sector : ℕ) : Prog (St σ) SectorRet := do
  upd fun n => { n with buf := gather sector n.buf }
  let ret ← Prog.read fun s =>
    erasedSector (fun i => s.n.buf (sector * 512 + i)) (fun i => s.n.buf (scratchOff + i))
  if ret ≥ 0 then do
    upd fun n => { n with buf := blank sector n.buf }
    upd (addCorrected ret.toNat)
    pure (.good ret.toNat)
  else do
    let x ← runEngine hw sector
    if x.1 ≠ 0 then do
      upd setPoisoned
      pure (.stop x.1)
    else finishSector sector x.2

/-- The sector loop over the sectors that are left. -/
def bchLoop : List ℕ → ℕ → Bool → Prog (St σ) Int
  | [], maxBits, eccError => pure (if eccError then -ebadmsg else maxBits)
  | sector :: rest, maxBits, eccError => do
    match ← bchSector hw sector with
    | .stop ret => pure ret
    | .bad => bchLoop rest maxBits true
    | .good bits => bchLoop rest (max maxBits bits) eccError

def bchDecode : Prog (St σ) Int := bchLoop hw [0, 1, 2, 3] 0 false

/-! ### MTD operations -/

/-- The `MTD_OPS_*` modes; any other number is refused. -/
inductive Mode where
  | placeOob
  | autoOob
  | raw
  | other (mode : ℕ)
  deriving DecidableEq

/-- `struct mtd_oob_ops`. -/
structure OobOps where
  mode : Mode
  len : ℕ
  retlen : ℕ
  ooblen : ℕ
  oobretlen : ℕ
  ooboffs : ℕ
  datbuf : Bytes
  oobbuf : Bytes

/-- OOB bytes of a page that a mode offers. -/
def avail (mode : Mode) : ℕ := if mode = .autoOob then 20 else oobBytes

/-- Where in the OOB area the offered bytes start. -/
def oobBase (mode : Mode) : ℕ := if mode = .autoOob then 2 else 0

/-- The two `memcpy`s of one round of `nand_read_oob`. -/
def copyOut (buf : Bytes) (off dataChunk oobOff oobChunk : ℕ) (ops : OobOps) : OobOps :=
  { ops with
    datbuf := Bytes.memcpy ops.datbuf ops.retlen buf off dataChunk
    retlen := ops.retlen + dataChunk
    oobbuf := Bytes.memcpy ops.oobbuf ops.oobretlen buf (pageBytes + oobOff + oobBase ops.mode) oobChunk
    oobretlen := ops.oobretlen + oobChunk }

/-- Read and decode one page into the buffer. -/
def readPage (mode : Mode) (page : ℕ) : Prog (St σ) Int := do
  let ret ← snPage hw (UInt32.ofNat page)
  if ret ≠ 0 then pure ret
  else if mode ≠ .raw then bchDecode hw
  else do
    upd fun n => { n with rawPages := n.rawPages + 1 }
    pure ret

/-- The `while` loop of `nand_read_oob`. -/
def readLoop (page dataLeft oobLeft off oobOff : ℕ) (maxBits : Int) (eccError : Bool)
    (ops : OobOps) : Prog (St σ) (Int × OobOps) :=
  if dataLeft = 0 ∧ oobLeft = 0 then pure (if eccError then -ebadmsg else maxBits, ops)
  else if _h : page ≥ chipBytes / pageBytes then pure (-einval, ops)
  else do
    let ret ← readPage hw ops.mode page
    let eccError := eccError || ret == -ebadmsg
    let ret := if ret = -ebadmsg then 0 else ret
    if ret < 0 then pure (ret, ops)
    else do
      let buf ← Prog.read fun s => s.n.buf
      let dataChunk := min dataLeft (pageBytes - off)
      let oobChunk := min oobLeft (avail ops.mode - oobOff)
      readLoop (page + 1) (dataLeft - dataChunk) (oobLeft - oobChunk) 0 0 (max maxBits ret)
        eccError (copyOut buf off dataChunk oobOff oobChunk ops)
termination_by chipBytes / pageBytes - page

def nandReadOob («from» : ℕ) (ops : OobOps) : Prog (St σ) (Int × OobOps) :=
  if ops.mode ≠ .raw ∧ ops.mode ≠ .placeOob ∧ ops.mode ≠ .autoOob then pure (-einval, ops)
  else if ops.ooblen ≠ 0 ∧ ops.ooboffs ≥ avail ops.mode then pure (-einval, ops)
  else
    readLoop hw («from» / pageBytes % 2 ^ 32) ops.len ops.ooblen («from» % pageBytes) ops.ooboffs 0
      false { ops with retlen := 0, oobretlen := 0 }

def nandEraseDenied : Prog (St σ) Int := pure (-erofs)

/-- `n->buf[PAGE_BYTES] != 0xff`, as C reads a comparison. -/
def markerBad (b : Bytes) : Int := if b pageBytes ≠ 0xff then 1 else 0

def nandIsbad (pos : ℕ) : Prog (St σ) Int := do
  let page := UInt32.ofNat (pos / blockBytes * 64)
  upd fun n => { n with badQueries := n.badQueries + 1 }
  let ret ← snLoadPage hw page
  let ret ← ifOk ret (snCacheRead hw (UInt32.ofNat pageBytes) (.buf pageBytes) 1)
  if ret ≠ 0 then pure ret
  else do
    upd fun n => { n with markerReads := n.markerReads + 1 }
    let b ← Prog.read fun s => s.n.buf
    if b pageBytes = 0xff then pure (markerBad b)
    else do
      let ret ← snPage hw page
      let ret ← ifOk ret (bchDecode hw)
      if ret = -ebadmsg then pure 1
      else if ret ≥ 0 then Prog.read fun s => markerBad s.n.buf
      else pure ret

/-- `struct mtd_oob_region`. -/
structure OobRegion where
  offset : ℕ
  length : ℕ

def oobFree (section' : ℕ) : Except Int OobRegion :=
  if section' ≠ 0 then .error (-erange) else .ok ⟨2, 20⟩

def oobEcc (section' : ℕ) : Except Int OobRegion :=
  if section' ≠ 0 then .error (-erange) else .ok ⟨24, 40⟩

/-- The calls the MTD core makes once the device is registered. -/
inductive Op where
  | readOob («from» : ℕ) (ops : OobOps)
  | isbad (pos : ℕ)
  | erase

def exec : Op → Prog (St σ) Int
  | .readOob f ops => do
    let x ← nandReadOob hw f ops
    pure x.1
  | .isbad pos => nandIsbad hw pos
  | .erase => nandEraseDenied

/-- A sequence of calls. -/
def execAll : List Op → Prog (St σ) Unit
  | [] => pure ()
  | op :: rest => do
    let _ ← exec hw op
    execAll rest

/-- What the kernel answers to the calls `phoebus_nand_probe` makes of it; `scan` are the calls
    `mtd_device_register` makes back into the driver before it returns `register`. -/
structure ProbeEnv where
  alloc : Bool
  snRes : Int
  eccRes : Int
  dmaMask : Int
  buf : Option (Bytes × UInt32)
  scan : List Op
  register : Int

/-- `READ_ID` and the check of the two id bytes and of the on-die ECC bit. -/
def probeId : Prog (St σ) Int := do
  let cfg ← rd hw .snCfg
  wr hw .snCfg (cfg &&& ~~~ 0x00100000)
  wr hw .snCs 0
  let ret ← snTx hw 0x9f000000 2
  let ret ← ifOk ret (snRx hw (.stk 0) 3)
  wr hw .snCs 1
  if ret ≠ 0 then pure ret
  else do
    let _ ← rd hw .snCfg
    let _ ← rd hw .eccCfg
    let id ← Prog.read fun s => s.stk
    if id 0 ≠ 0xc8 ∨ id 1 ≠ 0x01 then pure (-enodev)
    else do
      let ret ← snFeature hw 0xb0 (.stk 3)
      if ret ≠ 0 then pure ret
      else do
        let config ← Prog.read fun s => s.stk 3
        if config &&& 0x10 ≠ 0 then pure (-eopnotsupp) else pure 0

/-- Registration with the MTD core; a poisoned buffer is kept when it fails. -/
def probeRegister (env : ProbeEnv) : Prog (St σ) Int := do
  execAll hw env.scan
  if env.register ≠ 0 then do
    upd fun n => if n.poisoned then n else { n with mapped := false }
    pure env.register
  else pure 0

def phoebusNandProbe (env : ProbeEnv) : Prog (St σ) Int :=
  if !env.alloc then pure (-enomem)
  else if env.snRes ≠ 0 then pure env.snRes
  else if env.eccRes ≠ 0 then pure env.eccRes
  else do
    upd fun _ => .zero
    let ret ← probeId hw
    if ret ≠ 0 then pure ret
    else if env.dmaMask ≠ 0 then pure env.dmaMask
    else match env.buf with
      | none => pure (-enomem)
      | some (b, dma) => do
        upd fun n => { n with buf := b, dma := dma, mapped := true }
        probeRegister hw env

end Driver

end PhoebusBsp.Nand

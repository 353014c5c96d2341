import Mathlib.Data.UInt
import PhoebusBsp.Schemes.Blocks
import PhoebusBsp.Schemes.Machine

/-! A file sent by `tftpd.py` (`serve_file`, `send_await`) to `tftp-recv.py` (`recv_file`).

    Both parties run their loops on their own timeouts. The network keeps every datagram ever sent
    and may deliver any of them, any number of times, in any order, or never; each datagram carries
    the unbounded number of its block as a ghost, which no party reads.

        sender                          receiver
        DATA k ────────▶ toRcv ────────▶ write, expected += 1
        k += 1 ◀──────── toSnd ◀──────── ACK k -/

namespace PhoebusBsp.Tftp
open Schemes

abbrev Datagram := List UInt8

/-! ### Datagrams -/

def opData : ℕ := 3
def opAck : ℕ := 4
def opError : ℕ := 5
def opOack : ℕ := 6

def be16 (n : ℕ) : Datagram := [UInt8.ofNat (n / 256), UInt8.ofNat n]

/-- `struct.pack("!HH", op, blk)`. -/
def packHH (op blk : ℕ) : Datagram := be16 op ++ be16 blk

/-- `struct.unpack("!HH", data[:4])`, unless there are fewer than four bytes. -/
def unpackHH : Datagram → Option (ℕ × ℕ)
  | a :: b :: c :: d :: _ => some (a.toNat * 256 + b.toNat, c.toNat * 256 + d.toNat)
  | _ => none

/-- The options that a party acknowledges, by name and value. -/
abbrev Ack := List (Datagram × Datagram)

def oackPkt (ack : Ack) : Datagram :=
  be16 opOack ++ ack.flatMap fun kv => kv.1 ++ [0] ++ kv.2 ++ [0]

def dataPkt (block : ℕ) (data : Datagram) : Datagram := packHH opData (block % 65536) ++ data

/-- The block size for the value of the `blksize` option, if the client asks for one. -/
def blksizeOf : Option Int → ℕ
  | none => 512
  | some want => (max 8 (min want 65464)).toNat

def retries : ℕ := 6

/-! ### The sender -/

/-- Where `serve_file` stands: waiting for the ACK of its OACK or of a block, or at its end. -/
inductive Phase where
  | oack
  | data
  | done
  | aborted
  deriving DecidableEq, Repr

/-- `attempt` counts the times `send_await` has sent `pkt`; `fh` is the unread part of the file;
    `block` is zero while the OACK is awaited. -/
structure Sender where
  phase : Phase
  block : ℕ
  pkt : Datagram
  data : Datagram
  fh : Datagram
  attempt : ℕ
  deriving DecidableEq, Repr

/-- Read the next block and send it. -/
def nextBlock (blksize block : ℕ) (fh : Datagram) : Sender :=
  let data := fh.take blksize
  ⟨.data, block, dataPkt block data, data, fh.drop blksize, 1⟩

def serveFile (blksize : ℕ) (ack : Ack) (file : Datagram) : Sender :=
  if ack = [] then nextBlock blksize 1 file else ⟨.oack, 0, oackPkt ack, [], file, 1⟩

namespace Sender

def waiting (s : Sender) : Bool := s.phase = .oack ∨ s.phase = .data

/-- `socket.timeout`: send again, or give up after the last attempt. -/
def timeout (s : Sender) : Sender × List Datagram :=
  if !s.waiting then (s, [])
  else if s.attempt < retries then ({ s with attempt := s.attempt + 1 }, [s.pkt])
  else ({ s with phase := .aborted }, [])

/-- `send_await` returned `True`. -/
def acked (blksize : ℕ) (s : Sender) : Sender × List Datagram :=
  if s.phase = .oack then
    let s' := nextBlock blksize 1 s.fh
    (s', [s'.pkt])
  else if s.data.length < blksize then ({ s with phase := .done }, [])
  else
    let s' := nextBlock blksize (s.block + 1) s.fh
    (s', [s'.pkt])

/-- One turn of the inner loop of `send_await`. -/
def recv (blksize : ℕ) (s : Sender) (fromPeer : Bool) (reply : Datagram) : Sender × List Datagram :=
  if !s.waiting || !fromPeer then (s, [])
  else match unpackHH (reply.take 1024) with
    | none => (s, [])
    | some (op, blk) =>
      if op = opError then ({ s with phase := .aborted }, [])
      else if op = opAck ∧ blk = s.block % 65536 then s.acked blksize
      else (s, [])

end Sender

/-! ### The receiver -/

inductive Status where
  | running
  | done
  | stopped
  deriving DecidableEq, Repr

/-- `fh` is what has been written; `pkt` is what is sent again on a timeout or a duplicate. -/
structure Receiver where
  status : Status
  expectedBlock : ℕ
  fh : Datagram
  pkt : Datagram
  retries : ℕ
  deriving DecidableEq, Repr

def recvFile (ack : Ack) : Receiver :=
  ⟨.running, 1, [], if ack = [] then packHH opAck 0 else oackPkt ack, 0⟩

namespace Receiver

def timeout (r : Receiver) : Receiver × List Datagram :=
  if r.status ≠ .running then (r, [])
  else if r.retries + 1 ≥ Tftp.retries then
    ({ r with retries := r.retries + 1, status := .stopped }, [])
  else ({ r with retries := r.retries + 1 }, [r.pkt])

/-- The expected block arrived. -/
def accept (blksize : ℕ) (r : Receiver) (blk : ℕ) (body : Datagram) : Receiver × List Datagram :=
  ({ r with
    retries := 0
    fh := r.fh ++ body
    pkt := packHH opAck blk
    expectedBlock := r.expectedBlock + 1
    status := if body.length < blksize then .done else .running }, [packHH opAck blk])

/-- One turn of the loop of `recv_file`. -/
def recv (blksize : ℕ) (r : Receiver) (fromPeer : Bool) (data : Datagram) :
    Receiver × List Datagram :=
  if r.status ≠ .running ∨ fromPeer = false then (r, [])
  else match unpackHH (data.take (blksize + 4)) with
    | none => (r, [])
    | some (op, blk) =>
      if op = opError then ({ r with status := .stopped }, [])
      else if op ≠ opData then (r, [])
      else if blk = r.expectedBlock % 65536 then
        r.accept blksize blk ((data.take (blksize + 4)).drop 4)
      else ({ r with retries := 0 }, [r.pkt])

end Receiver

/-! ### The two parties and the network -/

/-- Every datagram ever sent, with the number of its block. -/
structure State where
  snd : Sender
  rcv : Receiver
  toRcv : List (ℕ × Datagram)
  toSnd : List (ℕ × Datagram)
  deriving DecidableEq, Repr

/-- How many blocks the receiver has accepted. -/
def State.transferred (s : State) : ℕ := s.rcv.expectedBlock - 1

/-- Both parties have started and sent their first datagram. -/
def start (blksize : ℕ) (sndAck rcvAck : Ack) (file : Datagram) : State :=
  let snd := serveFile blksize sndAck file
  let rcv := recvFile rcvAck
  ⟨snd, rcv, [(snd.block, snd.pkt)], [(0, rcv.pkt)]⟩

/-- A timeout of either party, the delivery of a datagram that was sent, or a datagram from some
    other host. -/
inductive Event where
  | sndTimeout
  | rcvTimeout
  | deliverRcv (i : ℕ)
  | deliverSnd (i : ℕ)
  | strayRcv (d : Datagram)
  | straySnd (d : Datagram)

/-- The sender moves; what it sends belongs to its current block. -/
def State.sndMoves (s : State) (x : Sender × List Datagram) : State :=
  { s with snd := x.1, toRcv := s.toRcv ++ x.2.map fun d => (x.1.block, d) }

/-- The receiver moves; what it sends acknowledges the blocks accepted so far. -/
def State.rcvMoves (s : State) (x : Receiver × List Datagram) : State :=
  { s with rcv := x.1, toSnd := s.toSnd ++ x.2.map fun d => (x.1.expectedBlock - 1, d) }

def step (blksize : ℕ) (s : State) : Event → State
  | .sndTimeout => s.sndMoves s.snd.timeout
  | .rcvTimeout => s.rcvMoves s.rcv.timeout
  | .deliverRcv i =>
    match s.toRcv[i]? with
    | none => s
    | some (_, d) => s.rcvMoves (s.rcv.recv blksize true d)
  | .deliverSnd i =>
    match s.toSnd[i]? with
    | none => s
    | some (_, d) => s.sndMoves (s.snd.recv blksize true d)
  | .strayRcv d => s.rcvMoves (s.rcv.recv blksize false d)
  | .straySnd d => s.sndMoves (s.snd.recv blksize false d)

/-- A datagram is not delivered once 65535 newer blocks have been transferred. -/
def Fresh (s : State) : Option (ℕ × Datagram) → Prop
  | none => True
  | some (b, _) => s.transferred - b < 65535

instance (s : State) : ∀ m, Decidable (Fresh s m)
  | none => inferInstanceAs (Decidable True)
  | some (_, _) => inferInstanceAs (Decidable (_ < _))

def Event.Ok (s : State) : Event → Prop
  | .deliverRcv i => Fresh s s.toRcv[i]?
  | .deliverSnd i => Fresh s s.toSnd[i]?
  | _ => True

instance (s : State) : ∀ e, Decidable (Event.Ok s e)
  | .deliverRcv i => inferInstanceAs (Decidable (Fresh s s.toRcv[i]?))
  | .deliverSnd i => inferInstanceAs (Decidable (Fresh s s.toSnd[i]?))
  | .sndTimeout | .rcvTimeout | .strayRcv _ | .straySnd _ => inferInstanceAs (Decidable True)

end PhoebusBsp.Tftp

import PhoebusBsp.Tftp.Transfer

/-! Transfer integrity: over every run of sender, receiver and network in which no datagram is
    delivered 65535 blocks late, what the receiver has written is the beginning of the file in whole
    blocks, and all of it when the receiver is done.

    The invariant ties the parties together: with `r` blocks accepted the sender is at block `r` or
    `r + 1`, every DATA in the network is a block up to the sender's, every ACK one up to `r`. A block
    number that matches modulo 2¹⁶ then matches exactly, because it lies less than 65536 behind. -/

namespace PhoebusBsp.Tftp
open Schemes List

/-! ### Reading datagrams -/

theorem be16_value {n : ℕ} (h : n < 65536) :
    (UInt8.ofNat (n / 256)).toNat * 256 + (UInt8.ofNat n).toNat = n := by
  simp only [UInt8.toNat_ofNat']
  omega

theorem unpackHH_packHH {op blk : ℕ} (hop : op < 65536) (hblk : blk < 65536) (d : Datagram) :
    unpackHH (packHH op blk ++ d) = some (op, blk) := by
  show some (_, _) = some (op, blk)
  rw [be16_value hop, be16_value hblk]

theorem packHH_take (op blk n : ℕ) (d : Datagram) :
    (packHH op blk ++ d).take (n + 4) = packHH op blk ++ d.take n := by
  simp [packHH, be16]

theorem unpackHH_data (b n : ℕ) (d : Datagram) :
    unpackHH ((dataPkt b d).take (n + 4)) = some (opData, b % 65536) := by
  rw [dataPkt, packHH_take]
  exact unpackHH_packHH (by decide) (Nat.mod_lt _ (by decide)) _

/-- An OACK is neither an error nor a DATA or an ACK. -/
theorem unpackHH_oack (ack : Ack) (n : ℕ) :
    unpackHH ((oackPkt ack).take (n + 4)) = none ∨
      ∃ blk, unpackHH ((oackPkt ack).take (n + 4)) = some (opOack, blk) := by
  unfold oackPkt
  generalize ack.flatMap (fun kv => kv.1 ++ [0] ++ kv.2 ++ [0]) = o
  match o with
  | [] => exact Or.inl rfl
  | [_] => exact Or.inl rfl
  | a :: b :: o =>
    refine Or.inr ⟨a.toNat * 256 + b.toNat, ?_⟩
    simp [be16, unpackHH, opOack]

/-! ### One turn of a loop -/

section Turns

variable {blksize : ℕ}

theorem Receiver.recv_oack (r : Receiver) (ack : Ack) : r.recv blksize true (oackPkt ack) = (r, []) := by
  unfold Receiver.recv
  split
  · rfl
  · rcases unpackHH_oack ack blksize with h | ⟨blk, h⟩
    · rw [h]
    · rw [h]; simp [opOack, opError, opData]

theorem Receiver.recv_ended {r : Receiver} (h : r.status ≠ .running) (fromPeer : Bool) (d : Datagram) :
    r.recv blksize fromPeer d = (r, []) :=
  if_pos (Or.inl h)

theorem Receiver.recv_stray (r : Receiver) (d : Datagram) : r.recv blksize false d = (r, []) :=
  if_pos (Or.inr rfl)

/-- A DATA is accepted when its number matches, otherwise the last acknowledgement is repeated. -/
theorem Receiver.recv_data {r : Receiver} (hr : r.status = .running) (b : ℕ) {body : Datagram}
    (hbody : body.length ≤ blksize) :
    r.recv blksize true (dataPkt b body) =
      if b % 65536 = r.expectedBlock % 65536 then r.accept blksize (b % 65536) body
      else ({ r with retries := 0 }, [r.pkt]) := by
  have hdrop : ((dataPkt b body).take (blksize + 4)).drop 4 = body := by
    rw [dataPkt, packHH_take, take_of_length_le hbody]
    rfl
  simp only [Receiver.recv, hr, unpackHH_data, hdrop]
  simp [opData, opError]

theorem Sender.recv_oack (s : Sender) (ack : Ack) : s.recv blksize true (oackPkt ack) = (s, []) := by
  unfold Sender.recv
  split
  · rfl
  · rcases unpackHH_oack ack 1020 with h | ⟨blk, h⟩
    · rw [h]
    · rw [h]; simp [opOack, opError, opAck]

theorem Sender.recv_ended {s : Sender} (h : s.waiting = false) (fromPeer : Bool) (d : Datagram) :
    s.recv blksize fromPeer d = (s, []) := by
  simp [Sender.recv, h]

theorem Sender.recv_stray (s : Sender) (d : Datagram) : s.recv blksize false d = (s, []) := by
  simp [Sender.recv]

/-- An ACK moves the sender on when its number matches, and is otherwise ignored. -/
theorem Sender.recv_ack {s : Sender} (hs : s.waiting = true) (a : ℕ) :
    s.recv blksize true (packHH opAck (a % 65536)) =
      if a % 65536 = s.block % 65536 then s.acked blksize else (s, []) := by
  have hun : unpackHH ((packHH opAck (a % 65536)).take 1024) = some (opAck, a % 65536) := by
    have hop : opAck < 65536 := by decide
    have hblk : a % 65536 < 65536 := Nat.mod_lt a (by decide)
    have hpack := unpackHH_packHH hop hblk []
    rwa [append_nil] at hpack
  simp only [Sender.recv, hs, hun]
  simp [opAck, opError]

end Turns

/-! ### The invariant -/

/-- What the sender may have put on the network. -/
def IsData (blksize : ℕ) (file : Datagram) (m : ℕ × Datagram) : Prop :=
  (∃ ack, m.2 = oackPkt ack) ∨ (1 ≤ m.1 ∧ m.2 = dataPkt m.1 (block blksize file (m.1 - 1)))

/-- What the receiver may have put on the network. -/
def IsAck (m : ℕ × Datagram) : Prop :=
  (∃ ack, m.2 = oackPkt ack) ∨ m.2 = packHH opAck (m.1 % 65536)

/-- The sender's side, as long as it waits: it holds the block it is at. -/
structure Holds (blksize : ℕ) (file : Datagram) (s : Sender) : Prop where
  pkt : IsData blksize file (s.block, s.pkt)
  fh : s.fh = file.drop (s.block * blksize)
  oack : s.phase = .oack → s.block = 0
  data : s.phase = .data → 1 ≤ s.block ∧ s.data = block blksize file (s.block - 1)

structure Inv (blksize : ℕ) (file : Datagram) (s : State) : Prop where
  expected : 1 ≤ s.rcv.expectedBlock
  written : s.rcv.fh = file.take (s.transferred * blksize)
  running : s.rcv.status = .running → s.transferred ≤ lastBlock blksize file
  finished : s.rcv.status = .done → s.transferred = lastBlock blksize file + 1
  bound : s.transferred ≤ lastBlock blksize file + 1
  ahead : s.snd.block = s.transferred ∨ s.snd.block = s.transferred + 1
  inFile : s.snd.block ≤ lastBlock blksize file + 1
  holds : s.snd.waiting = true → Holds blksize file s.snd
  pkt : IsAck (s.transferred, s.rcv.pkt)
  toRcv : ∀ m ∈ s.toRcv, IsData blksize file m ∧ m.1 ≤ s.snd.block
  toSnd : ∀ m ∈ s.toSnd, IsAck m ∧ m.1 ≤ s.transferred

section Steps

variable {blksize : ℕ} {file : Datagram} {s : State}

theorem start_inv (sndAck rcvAck : Ack) : Inv blksize file (start blksize sndAck rcvAck file) := by
  have hack : IsAck (0, (recvFile rcvAck).pkt) := by
    unfold recvFile IsAck
    split
    · exact Or.inr rfl
    · exact Or.inl ⟨rcvAck, rfl⟩
  have hsnd : (serveFile blksize sndAck file).block ≤ 1 ∧
      Holds blksize file (serveFile blksize sndAck file) := by
    unfold serveFile
    split
    · refine ⟨le_refl _, Or.inr ⟨le_refl _, ?_⟩, ?_, ?_, fun _ => ⟨le_refl _, ?_⟩⟩
      · simp [nextBlock, block]
      · simp [nextBlock]
      · simp [nextBlock]
      · simp [nextBlock, block]
    · refine ⟨Nat.zero_le _, Or.inl ⟨sndAck, rfl⟩, ?_, fun _ => rfl, ?_⟩ <;> simp
  refine ⟨le_refl _, ?_, fun _ => Nat.zero_le _, ?_, Nat.zero_le _, ?_, ?_, fun _ => hsnd.2, hack,
    ?_, ?_⟩
  · simp [start, recvFile, State.transferred]
  · simp [start, recvFile]
  · show (serveFile blksize sndAck file).block = 0 ∨ (serveFile blksize sndAck file).block = 0 + 1
    omega
  · exact le_trans hsnd.1 (Nat.le_add_left _ _)
  · intro m hm
    rw [mem_singleton.mp hm]
    exact ⟨hsnd.2.pkt, le_refl _⟩
  · intro m hm
    rw [mem_singleton.mp hm]
    exact ⟨hack, le_refl _⟩

variable (h : Inv blksize file s)
include h

/-- The receiver stays where it is, at most repeating its last datagram. -/
theorem Inv.rcvStays {r : Receiver} {out : List Datagram}
    (hblock : r.expectedBlock = s.rcv.expectedBlock) (hfh : r.fh = s.rcv.fh)
    (hpkt : r.pkt = s.rcv.pkt) (hst : r.status = s.rcv.status ∨ r.status = .stopped)
    (hout : ∀ d ∈ out, d = s.rcv.pkt) : Inv blksize file (s.rcvMoves (r, out)) := by
  have htr : (s.rcvMoves (r, out)).transferred = s.transferred := by
    simp only [State.transferred, State.rcvMoves, hblock]
  refine ⟨?_, ?_, ?_, ?_, ?_, ?_, h.inFile, h.holds, ?_, h.toRcv, ?_⟩
  · exact hblock ▸ h.expected
  · rw [htr]; exact hfh.trans h.written
  · intro hr
    rcases hst with hst | hst
    · rw [htr]; exact h.running (hst ▸ hr)
    · exact absurd (hst.symm.trans hr) (by decide)
  · intro hr
    rcases hst with hst | hst
    · rw [htr]; exact h.finished (hst ▸ hr)
    · exact absurd (hst.symm.trans hr) (by decide)
  · rw [htr]; exact h.bound
  · rw [htr]; exact h.ahead
  · rw [htr]; exact (show (s.rcvMoves (r, out)).rcv.pkt = s.rcv.pkt from hpkt) ▸ h.pkt
  · intro m hm
    rw [htr]
    rcases mem_append.mp hm with hm | hm
    · exact h.toSnd m hm
    · obtain ⟨d, hd, rfl⟩ := mem_map.mp hm
      rw [hout d hd, show r.expectedBlock - 1 = s.transferred by rw [hblock]; rfl]
      exact ⟨h.pkt, le_refl _⟩

/-- The sender stays at its block, at most repeating its datagram. -/
theorem Inv.sndStays {x : Sender} {out : List Datagram}
    (hblock : x.block = s.snd.block) (hpkt : x.pkt = s.snd.pkt) (hfh : x.fh = s.snd.fh)
    (hdata : x.data = s.snd.data) (hph : x.phase = s.snd.phase ∨ x.waiting = false)
    (hout : ∀ d ∈ out, s.snd.waiting = true ∧ d = s.snd.pkt) :
    Inv blksize file (s.sndMoves (x, out)) := by
  refine ⟨h.expected, h.written, h.running, h.finished, h.bound, ?_, ?_, ?_, h.pkt, ?_, h.toSnd⟩
  · show x.block = _ ∨ x.block = _
    rw [hblock]; exact h.ahead
  · exact hblock ▸ h.inFile
  · intro hw
    rcases hph with hph | hph
    · have hwait : s.snd.waiting = true := by
        simpa [Sender.waiting, State.sndMoves, hph] using hw
      obtain ⟨h1, h2, h3, h4⟩ := h.holds hwait
      refine ⟨?_, ?_, ?_, ?_⟩ <;> simp only [State.sndMoves, hblock, hpkt, hfh, hdata, hph]
      exacts [h1, h2, h3, h4]
    · exact absurd (hph.symm.trans hw) (by decide)
  · intro m hm
    show _ ∧ m.1 ≤ x.block
    rw [hblock]
    rcases mem_append.mp hm with hm | hm
    · exact h.toRcv m hm
    · obtain ⟨d, hd, rfl⟩ := mem_map.mp hm
      obtain ⟨hw, rfl⟩ := hout d hd
      exact ⟨hblock ▸ (h.holds hw).pkt, hblock.le⟩

/-- The sender reads and sends the block after the one that was acknowledged. -/
theorem Inv.sends (hw : s.snd.waiting = true)
    (hblock : s.snd.block = s.transferred) (hfile : s.snd.block ≤ lastBlock blksize file) :
    let x := nextBlock blksize (s.snd.block + 1) s.snd.fh
    Inv blksize file (s.sndMoves (x, [x.pkt])) := by
  intro x
  have hdata : x.data = block blksize file s.snd.block := by
    show s.snd.fh.take blksize = _
    rw [(h.holds hw).fh, block]
  have hpkt : IsData blksize file (s.snd.block + 1, x.pkt) := by
    refine Or.inr ⟨Nat.le_add_left _ _, ?_⟩
    show dataPkt _ x.data = _
    rw [hdata, Nat.add_sub_cancel]
  refine ⟨h.expected, h.written, h.running, h.finished, h.bound, ?_, ?_, ?_, h.pkt, ?_, h.toSnd⟩
  · exact Or.inr (congrArg (· + 1) hblock)
  · exact Nat.succ_le_succ hfile
  · intro _
    refine ⟨hpkt, ?_, fun hph => ?_, fun _ => ⟨Nat.le_add_left _ _, hdata⟩⟩
    · show s.snd.fh.drop blksize = file.drop ((s.snd.block + 1) * blksize)
      rw [(h.holds hw).fh, drop_drop, Nat.succ_mul]
    · exact absurd (show Phase.data = .oack from hph) (by decide)
  · intro m hm
    rcases mem_append.mp hm with hm | hm
    · exact ⟨(h.toRcv m hm).1, le_trans (h.toRcv m hm).2 (Nat.le_succ _)⟩
    · rw [map_singleton, mem_singleton] at hm
      rw [hm]
      exact ⟨hpkt, le_refl _⟩

/-- Nobody moves. -/
theorem Inv.rcvIdle : Inv blksize file (s.rcvMoves (s.rcv, [])) :=
  h.rcvStays rfl rfl rfl (Or.inl rfl) (by simp)

theorem Inv.sndIdle : Inv blksize file (s.sndMoves (s.snd, [])) :=
  h.sndStays rfl rfl rfl rfl (Or.inl rfl) (by simp)

theorem Inv.rcvTimeout : Inv blksize file (s.rcvMoves s.rcv.timeout) := by
  unfold Receiver.timeout
  split
  · exact h.rcvIdle
  split
  · exact h.rcvStays rfl rfl rfl (Or.inr rfl) (by simp)
  · exact h.rcvStays rfl rfl rfl (Or.inl rfl) (by simp)

theorem Inv.sndTimeout : Inv blksize file (s.sndMoves s.snd.timeout) := by
  unfold Sender.timeout
  split
  · exact h.sndIdle
  · next hw =>
    split
    · exact h.sndStays rfl rfl rfl rfl (Or.inl rfl) (by simpa using hw)
    · exact h.sndStays rfl rfl rfl rfl (Or.inr (by simp [Sender.waiting])) (by simp)

variable (hbs : 0 < blksize)
include hbs

/-- The receiver accepts the next block of the file. -/
theorem Inv.accepts (hr : s.rcv.status = .running)
    (hsnd : s.snd.block = s.transferred + 1) :
    Inv blksize file (s.rcvMoves (s.rcv.accept blksize ((s.transferred + 1) % 65536)
      (block blksize file s.transferred))) := by
  have hrun := h.running hr
  have hshort := block_short_iff hbs file hrun
  have htr : (s.rcvMoves (s.rcv.accept blksize ((s.transferred + 1) % 65536)
      (block blksize file s.transferred))).transferred = s.transferred + 1 := by
    have := h.expected
    simp only [State.transferred, State.rcvMoves, Receiver.accept]
    omega
  refine ⟨Nat.le_add_left _ _, ?_, ?_, ?_, ?_, ?_, h.inFile, h.holds, ?_, h.toRcv, ?_⟩
  · rw [htr, take_succ_mul, ← h.written]
    rfl
  · intro hst
    rw [htr]
    have : ¬(block blksize file s.transferred).length < blksize := by
      intro hlt
      simp [State.rcvMoves, Receiver.accept, hlt] at hst
    rw [hshort] at this
    omega
  · intro hst
    rw [htr]
    have : (block blksize file s.transferred).length < blksize := by
      by_contra hlt
      simp [State.rcvMoves, Receiver.accept, hlt] at hst
    rw [hshort.mp this]
  · rw [htr]; omega
  · rw [htr]; exact Or.inl hsnd
  · rw [htr]; exact Or.inr rfl
  · intro m hm
    rw [htr]
    rcases mem_append.mp hm with hm | hm
    · exact ⟨(h.toSnd m hm).1, le_trans (h.toSnd m hm).2 (Nat.le_succ _)⟩
    · obtain ⟨d, hd, rfl⟩ := mem_map.mp hm
      rw [mem_singleton.mp hd, show (s.rcv.accept blksize ((s.transferred + 1) % 65536)
        (block blksize file s.transferred)).1.expectedBlock - 1 = s.transferred + 1 from htr]
      exact ⟨Or.inr rfl, le_refl _⟩

/-- The sender's block was acknowledged. -/
theorem Inv.acked (hw : s.snd.waiting = true)
    (hblock : s.snd.block = s.transferred) : Inv blksize file (s.sndMoves (s.snd.acked blksize)) := by
  unfold Sender.acked
  split
  · next hph =>
    have hzero := (h.holds hw).oack hph
    have := h.sends hw hblock (by omega)
    rw [hzero, Nat.zero_add] at this
    exact this
  · next hph =>
    have hdata : s.snd.phase = .data := by
      simp only [Sender.waiting, decide_eq_true_eq] at hw
      exact hw.resolve_left hph
    obtain ⟨hpos, hblk⟩ := (h.holds hw).data hdata
    have hle : s.snd.block - 1 ≤ lastBlock blksize file := by
      have := h.inFile
      omega
    have hshort := block_short_iff hbs file hle
    rw [← hblk] at hshort
    split
    · exact h.sndStays rfl rfl rfl rfl (Or.inr (by simp [Sender.waiting])) (by simp)
    · next hlen =>
      refine h.sends hw hblock ?_
      have := mt hshort.mpr hlen
      have := h.inFile
      omega

/-- A DATA less than 65536 blocks behind is accepted only when it is the expected one. -/
theorem Inv.deliverRcv {b : ℕ} {d : Datagram}
    (hm : (b, d) ∈ s.toRcv) (hfresh : s.transferred - b < 65535) :
    Inv blksize file (s.rcvMoves (s.rcv.recv blksize true d)) := by
  obtain ⟨hdata, hle⟩ := h.toRcv _ hm
  simp only [IsData] at hdata hle
  by_cases hr : s.rcv.status = .running
  · rcases hdata with ⟨ack, rfl⟩ | ⟨hpos, rfl⟩
    · rw [Receiver.recv_oack]
      exact h.rcvIdle
    · rw [Receiver.recv_data hr b (block_length_le _ _ _)]
      split
      · next hmod =>
        have hexp : s.rcv.expectedBlock = s.transferred + 1 := by
          have := h.expected
          simp only [State.transferred]; omega
        have hb : b = s.transferred + 1 := by
          have := h.ahead
          omega
        rw [hb, Nat.add_sub_cancel]
        refine h.accepts hbs hr ?_
        have := h.ahead
        omega
      · exact h.rcvStays rfl rfl rfl (Or.inl rfl) (by simp)
  · rw [Receiver.recv_ended hr]
    exact h.rcvIdle

/-- An ACK less than 65536 blocks behind moves the sender only when it is for its block. -/
theorem Inv.deliverSnd {a : ℕ} {d : Datagram}
    (hm : (a, d) ∈ s.toSnd) (hfresh : s.transferred - a < 65535) :
    Inv blksize file (s.sndMoves (s.snd.recv blksize true d)) := by
  obtain ⟨hack, hle⟩ := h.toSnd _ hm
  simp only [IsAck] at hack hle
  cases hw : s.snd.waiting with
  | true =>
    rcases hack with ⟨ack, rfl⟩ | rfl
    · rw [Sender.recv_oack]
      exact h.sndIdle
    · rw [Sender.recv_ack hw a]
      split
      · next hmod =>
        refine h.acked hbs hw ?_
        have := h.ahead
        omega
      · exact h.sndIdle
  | false =>
    rw [Sender.recv_ended hw]
    exact h.sndIdle

theorem Inv.step (e : Event) (hok : e.Ok s) :
    Inv blksize file (step blksize s e) := by
  cases e with
  | sndTimeout => exact h.sndTimeout
  | rcvTimeout => exact h.rcvTimeout
  | strayRcv d =>
    simp only [Tftp.step, Receiver.recv_stray]
    exact h.rcvIdle
  | straySnd d =>
    simp only [Tftp.step, Sender.recv_stray]
    exact h.sndIdle
  | deliverRcv i =>
    simp only [Tftp.step]
    simp only [Event.Ok] at hok
    split
    · exact h
    · next heq =>
      rw [heq] at hok
      exact h.deliverRcv hbs (mem_of_getElem? heq) hok
  | deliverSnd i =>
    simp only [Tftp.step]
    simp only [Event.Ok] at hok
    split
    · exact h
    · next heq =>
      rw [heq] at hok
      exact h.deliverSnd hbs (mem_of_getElem? heq) hok

end Steps

/-! ### Integrity -/

/-- Over every legal run the receiver holds the first blocks of the file, in order and each once;
    when it is done it holds the file. -/
theorem transfer_integrity {blksize : ℕ} (hbs : 0 < blksize) (file : Datagram) (sndAck rcvAck : Ack)
    (events : List Event)
    (hlegal : Legal (step blksize) Event.Ok (start blksize sndAck rcvAck file) events) :
    let s := run (step blksize) (start blksize sndAck rcvAck file) events
    s.rcv.fh = (List.range s.transferred).flatMap (block blksize file) ∧
      s.transferred ≤ lastBlock blksize file + 1 ∧ s.rcv.fh <+: file ∧
      (s.rcv.status = .done → s.rcv.fh = file) := by
  intro s
  have hstep : ∀ s e, Inv blksize file s → Event.Ok s e → Inv blksize file (step blksize s e) :=
    fun _ e hs hok => hs.step hbs e hok
  have h : Inv blksize file s := run_invariant hstep events _ (start_inv sndAck rcvAck) hlegal
  refine ⟨?_, h.bound, ?_, fun hdone => ?_⟩
  · rw [flatMap_block]; exact h.written
  · rw [h.written]; exact take_prefix _ _
  · rw [h.written, h.finished hdone]; exact take_all hbs file

/-- A file of exactly one block, sent with a duplicated DATA, a timeout and a stale ACK. -/
def oneBlock : Datagram := [1, 2, 3, 4, 5, 6, 7, 8]

def oneBlockEvents : List Event :=
  [.deliverRcv 0, .deliverRcv 0, .sndTimeout, .deliverSnd 0, .deliverSnd 1, .deliverRcv 2]

theorem transfer_integrity_oneBlock :
    (run (step 8) (start 8 [] [] oneBlock) oneBlockEvents).rcv.status = .done ∧
      (run (step 8) (start 8 [] [] oneBlock) oneBlockEvents).rcv.fh = oneBlock := by
  have hlegal : Legal (step 8) Event.Ok (start 8 [] [] oneBlock) oneBlockEvents := by
    decide +kernel
  have hdone : (run (step 8) (start 8 [] [] oneBlock) oneBlockEvents).rcv.status = .done := by
    decide +kernel
  have h := transfer_integrity (show 0 < 8 by decide) oneBlock [] [] oneBlockEvents hlegal
  exact ⟨hdone, h.2.2.2 hdone⟩

end PhoebusBsp.Tftp

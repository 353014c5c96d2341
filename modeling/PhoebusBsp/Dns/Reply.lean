import PhoebusBsp.Dns.Trap

/-! What the answer looks like, byte by byte: the headers with source and destination exchanged, the query
    behind the DNS header as it was, and a record behind that. -/

namespace PhoebusBsp.Dns
open Schemes Bytes

/-! ### Writes -/

section Writes

variable {b : Bytes} {i j k n off p : ℕ} {l : List UInt8}

theorem holds_putList (b : Bytes) (off : ℕ) (l : List UInt8) : (putList b off l).Holds off l :=
  holds_write_self b off l

theorem putList_of_notMem (b : Bytes) (l : List UInt8) (h : j < off ∨ off + l.length ≤ j) :
    putList b off l j = b j := write_of_notMem b _ h

theorem Holds.putList (h : b.Holds off l) (l' : List UInt8) (hp : off + l.length ≤ p ∨ p + l'.length ≤ off) :
    (putList b p l').Holds off l := h.write _ hp

theorem swap_left (hij : i + n ≤ j) (hk : k < n) : swap b i j n (i + k) = b (j + k) := by
  rw [swap, memcpy_of_notMem _ _ _ (Or.inl (by omega)), memcpy, write_of_mem _ _ (by omega), Nat.add_sub_cancel_left]

theorem swap_right (hk : k < n) : swap b i j n (j + k) = b (i + k) := by
  rw [swap, memcpy, write_of_mem _ _ (by omega), Nat.add_sub_cancel_left]

theorem swap_of_notMem (b : Bytes) (hi : p < i ∨ i + n ≤ p) (hj : p < j ∨ j + n ≤ p) : swap b i j n p = b p := by
  rw [swap, memcpy_of_notMem _ _ _ hj, memcpy_of_notMem _ _ _ hi]

theorem be16_swap_of_ne (b : Bytes) (hi : p + 2 ≤ i ∨ i + n ≤ p) (hj : p + 2 ≤ j ∨ j + n ≤ p) :
    (swap b i j n).be16 p = b.be16 p :=
  be16_congr fun k hk => swap_of_notMem b (by omega) (by omega)

theorem be16_putList_of_ne (b : Bytes) (l : List UInt8) (h : p + 2 ≤ off ∨ off + l.length ≤ p) :
    (putList b off l).be16 p = b.be16 p :=
  be16_congr fun k hk => putList_of_notMem b l (by omega)

theorem be16_memcpy_of_ne (b src : Bytes) (h : p + 2 ≤ i ∨ i + n ≤ p) : (b.memcpy i src j n).be16 p = b.be16 p :=
  be16_congr fun k hk => memcpy_of_notMem b src j (by omega)

end Writes

/-! ### Headers -/

/-- The length of a header without options. -/
def IpVer.hdrLen : IpVer → ℕ
  | .v4 => 20
  | .v6 => 40

/-- The fields of a header one behind the other. -/
theorem IpVer.layout (v : IpVer) : v.lenField + 2 ≤ v.saddr ∧ v.saddr + v.addrLen ≤ v.daddr ∧
    v.daddr + v.addrLen = v.hdrLen ∧ 20 ≤ v.hdrLen ∧ 2 ≤ v.lenField ∧ v.addrLen % 2 = 0 := by
  cases v <;> decide

/-- What `turnAround` writes, and that it writes nothing else. -/
structure Turned (b b' : Bytes) (v : IpVer) (ip u extendLen : ℕ) : Prop where
  first : b' ip = b ip
  saddr : ∀ k < v.addrLen, b' (ip + v.saddr + k) = b (ip + v.daddr + k)
  daddr : ∀ k < v.addrLen, b' (ip + v.daddr + k) = b (ip + v.saddr + k)
  len : b'.be16 (ip + v.lenField) = (b.be16 (ip + v.lenField) + extendLen) % 65536
  source : b'.be16 u = b.be16 (u + 2)
  dest : b'.be16 (u + 2) = b.be16 u
  udpLen : b'.be16 (u + 4) = (b.be16 (u + 4) + extendLen) % 65536
  id : b'.be16 (u + 8) = b.be16 (u + 8)
  flags : b'.be16 (u + 10) = 0x8180
  qdcount : b'.be16 (u + 12) = 1
  ancount : b'.be16 (u + 14) = 1
  nscount : b'.be16 (u + 16) = 0
  arcount : b'.be16 (u + 18) = 0

section TurnAround

variable {b b' : Bytes} {v : IpVer} {ip u extendLen : ℕ}

theorem turnAround_of_ge (b : Bytes) (devAddr : Vector UInt8 6) (hu : ip + v.hdrLen ≤ u) {j : ℕ}
    (hj : u + 20 ≤ j) : turnAround b v ip u extendLen devAddr j = b j := by
  obtain ⟨hlen, haddr, hend, hlong, -, -⟩ := v.layout
  have hmac : devAddr.toList.length = 6 := Vector.length_toList
  simp (disch := omega) only [turnAround, putBe16_of_notMem, swap_of_notMem, putList_of_notMem, memcpy_of_notMem]

theorem turnAround_turned (b : Bytes) (v : IpVer) (extendLen : ℕ) (devAddr : Vector UInt8 6) (hip : 14 ≤ ip)
    (hu : ip + v.hdrLen ≤ u) : Turned b (turnAround b v ip u extendLen devAddr) v ip u extendLen := by
  obtain ⟨hlen, haddr, hend, hlong, hfield, -⟩ := v.layout
  have hmac : devAddr.toList.length = 6 := Vector.length_toList
  have hports : ∀ (b : Bytes), (swap b u (u + 2) 2).be16 u = b.be16 (u + 2) ∧
      (swap b u (u + 2) 2).be16 (u + 2) = b.be16 u := by
    intro b
    have hl : ∀ k < 2, swap b u (u + 2) 2 (u + k) = b (u + 2 + k) := fun k hk => swap_left le_rfl hk
    have hr : ∀ k < 2, swap b u (u + 2) 2 (u + 2 + k) = b (u + k) := fun k hk => swap_right hk
    have hl₀ := hl 0 (by decide)
    have hr₀ := hr 0 (by decide)
    simp only [Nat.add_zero] at hl₀ hr₀
    rw [be16, be16, be16, be16, hl₀, hr₀, hl 1 (by decide), hr 1 (by decide)]
    exact ⟨rfl, rfl⟩
  constructor
  · simp (disch := omega) only [turnAround, putBe16_of_notMem, swap_of_notMem, putList_of_notMem, memcpy_of_notMem]
  · intro k hk
    simp (disch := omega) only [turnAround, putBe16_of_notMem, swap_of_notMem, swap_left, putList_of_notMem,
      memcpy_of_notMem]
  · intro k hk
    simp (disch := omega) only [turnAround, putBe16_of_notMem, swap_of_notMem, swap_right, putList_of_notMem,
      memcpy_of_notMem]
  -- the words: each is written once, or is one that was there
  all_goals
    simp (disch := omega) only [turnAround, be16_putBe16_of_ne, be16_putBe16, hports, be16_swap_of_ne,
      be16_putList_of_ne, be16_memcpy_of_ne]

/-- Later writes that go elsewhere. -/
theorem Turned.congr (h : Turned b b' v ip u extendLen) {b'' : Bytes} (hu : ip + v.hdrLen ≤ u)
    (hb : ∀ j, j < u + 20 → (v = .v4 → j < ip + 10 ∨ ip + 12 ≤ j) → (j < u + 6 ∨ u + 8 ≤ j) → b'' j = b' j) :
    Turned b b'' v ip u extendLen := by
  obtain ⟨hlen, haddr, hend, hlong, -, -⟩ := v.layout
  have hfield : v = .v4 → v.lenField = 2 ∧ v.saddr = 12 := by
    rintro rfl
    exact ⟨rfl, rfl⟩
  have hword : ∀ k, k ≤ 18 → (k + 2 ≤ 6 ∨ 8 ≤ k) → b''.be16 (u + k) = b'.be16 (u + k) := by
    intro k hk hne
    exact be16_congr fun i hi => hb _ (by omega) (fun hv => by omega) (by omega)
  refine ⟨?_, fun k hk => ?_, fun k hk => ?_, ?_, (hword 0 (by decide) (by decide)).trans h.source,
    (hword 2 (by decide) (by decide)).trans h.dest, (hword 4 (by decide) (by decide)).trans h.udpLen,
    (hword 8 (by decide) (by decide)).trans h.id, (hword 10 (by decide) (by decide)).trans h.flags,
    (hword 12 (by decide) (by decide)).trans h.qdcount, (hword 14 (by decide) (by decide)).trans h.ancount,
    (hword 16 (by decide) (by decide)).trans h.nscount, (hword 18 (by decide) (by decide)).trans h.arcount⟩
  · exact (hb ip (by omega) (fun _ => by omega) (by omega)).trans h.first
  · exact (hb _ (by omega) (fun hv => by have := hfield hv; omega) (by omega)).trans (h.saddr k hk)
  · exact (hb _ (by omega) (fun hv => by have := hfield hv; omega) (by omega)).trans (h.daddr k hk)
  · rw [← h.len]
    exact be16_congr fun i hi => hb _ (by omega) (fun hv => by have := hfield hv; omega) (by omega)

end TurnAround

/-! ### Checksums -/

section Checksums

variable {b : Bytes} {v : IpVer} {ip u : ℕ}

/-- The buffer when the checksum of IP is in place. -/
def putIpCheck (b : Bytes) (v : IpVer) (ip : ℕ) : Bytes :=
  match v with
  | .v4 => (b.putBe16 (ip + 10) 0).putBe16 (ip + 10)
      (inetCheck (wordSum (b.putBe16 (ip + 10) 0) ip ((b.putBe16 (ip + 10) 0 ip).toNat % 16 * 4)))
  | .v6 => b

theorem putIpCheck_of_notMem (b : Bytes) {j : ℕ} (h : v = .v4 → j < ip + 10 ∨ ip + 12 ≤ j) :
    putIpCheck b v ip j = b j := by
  cases v with
  | v4 =>
    have hj := h rfl
    simp only [putIpCheck]
    rw [putBe16_of_notMem _ _ (by omega), putBe16_of_notMem _ _ (by omega)]
  | v6 => rfl

/-- The buffer that the checksum of UDP is taken over. -/
def beforeUdpCheck (b : Bytes) (v : IpVer) (ip u : ℕ) : Bytes := (putIpCheck b v ip).putBe16 (u + 6) 0

/-- The sum that the checksum of UDP is taken of. -/
def udpSum (b : Bytes) (v : IpVer) (ip u : ℕ) : ℕ := pseudoSum b v ip u + wordSum b u (b.be16 (u + 4))

theorem putChecksums_eq (b : Bytes) (v : IpVer) (ip u : ℕ) :
    putChecksums b v ip u =
      (beforeUdpCheck b v ip u).putBe16 (u + 6) (inetCheck (udpSum (beforeUdpCheck b v ip u) v ip u)) := by
  cases v <;> rfl

theorem beforeUdpCheck_of_notMem (b : Bytes) {j : ℕ} (h : v = .v4 → j < ip + 10 ∨ ip + 12 ≤ j)
    (hu : j < u + 6 ∨ u + 8 ≤ j) : beforeUdpCheck b v ip u j = b j := by
  rw [beforeUdpCheck, putBe16_of_notMem _ _ (by omega), putIpCheck_of_notMem b h]

theorem putChecksums_of_notMem (b : Bytes) {j : ℕ} (h : v = .v4 → j < ip + 10 ∨ ip + 12 ≤ j)
    (hu : j < u + 6 ∨ u + 8 ≤ j) : putChecksums b v ip u j = b j := by
  rw [putChecksums_eq, putBe16_of_notMem _ _ (by omega), beforeUdpCheck_of_notMem b h hu]

/-- The header sums up, whatever is behind it. -/
theorem fold_ipSum (b : Bytes) (hihl : 5 ≤ (b ip).toNat % 16) (hu : ip + (b ip).toNat % 16 * 4 ≤ u) :
    fold (wordSum (putChecksums b .v4 ip u) ip ((b ip).toNat % 16 * 4)) = 65535 := by
  set n := (b ip).toNat % 16 * 4 with hn
  set b₀ := b.putBe16 (ip + 10) 0 with hb₀
  have hsame : wordSum (putChecksums b .v4 ip u) ip n = wordSum (putIpCheck b .v4 ip) ip n := by
    refine wordSum_congr fun i hi => ?_
    rw [putChecksums_eq, putBe16_of_notMem _ _ (by omega), beforeUdpCheck, putBe16_of_notMem _ _ (by omega)]
  have hfirst : b₀ ip = b ip := putBe16_of_notMem _ _ (by omega)
  have hzero : b₀.be16 (ip + 10) = 0 := be16_putBe16 ..
  have hput : putIpCheck b .v4 ip = b₀.putBe16 (ip + 10) (inetCheck (wordSum b₀ ip n)) := by
    rw [hn, ← hfirst]
    rfl
  rw [hsame, hput, wordSum_putBe16_zero rfl (by omega) (inetCheck_lt _) hzero, fold_add_inetCheck]

theorem be16_udpCheck (b : Bytes) (v : IpVer) (ip u : ℕ) :
    (putChecksums b v ip u).be16 (u + 6) = inetCheck (udpSum (beforeUdpCheck b v ip u) v ip u) := by
  rw [putChecksums_eq, be16_putBe16, Nat.mod_eq_of_lt (inetCheck_lt _)]

/-- The datagram sums up with the addresses. -/
theorem fold_udpSum (b : Bytes) (hu : ip + v.hdrLen ≤ u) (hlen : 8 ≤ b.be16 (u + 4)) :
    fold (udpSum (putChecksums b v ip u) v ip u) = 65535 := by
  obtain ⟨-, haddr, hend, hlong, -, -⟩ := v.layout
  set b₁ := beforeUdpCheck b v ip u with hb₁
  have hkept : ∀ c p, p + 2 ≤ u + 6 ∨ u + 8 ≤ p → (b₁.putBe16 (u + 6) c).be16 p = b₁.be16 p :=
    fun c p hp => be16_putBe16_of_ne _ _ (by omega)
  have hlen₁ : b₁.be16 (u + 4) = b.be16 (u + 4) :=
    be16_congr fun i hi => beforeUdpCheck_of_notMem b (fun _ => by omega) (by omega)
  have hzero : b₁.be16 (u + 6) = 0 := be16_putBe16 ..
  have hpseudo : ∀ c, pseudoSum (b₁.putBe16 (u + 6) c) v ip u = pseudoSum b₁ v ip u := by
    intro c
    have hsum : ∀ off, off + v.addrLen ≤ u → wordSum (b₁.putBe16 (u + 6) c) off v.addrLen = wordSum b₁ off v.addrLen :=
      fun off hoff => wordSum_congr fun i hi => putBe16_of_notMem _ _ (by omega)
    rw [pseudoSum, pseudoSum, hsum _ (by omega), hsum _ (by omega), hkept _ _ (by omega)]
  rw [putChecksums_eq, ← hb₁, udpSum, hpseudo, hkept _ _ (by omega),
    wordSum_putBe16_zero rfl (by omega) (inetCheck_lt _) hzero, ← Nat.add_assoc]
  exact fold_add_inetCheck _

end Checksums

/-! ### The whole answer -/

/-- The query turned around, and a record behind it. -/
structure Answered (b b' : Bytes) (v : IpVer) (ip u extendLen : ℕ) (record : List UInt8) : Prop where
  turned : Turned b b' v ip u extendLen
  body : ∀ j, u + 20 ≤ j → j < u + b.be16 (u + 4) → b' j = b j
  record : b'.Holds (u + b.be16 (u + 4)) record

/-- The words of the answer, computed from the query. -/
def replySum (b : Bytes) (v : IpVer) (ip u extendLen : ℕ) (record : List UInt8) : ℕ :=
  let udpLen := b.be16 (u + 4)
  wordSum b (ip + v.saddr) v.addrLen + wordSum b (ip + v.daddr) v.addrLen + 17 + (udpLen + extendLen) +
    (b.be16 u + b.be16 (u + 2) + (udpLen + extendLen) + b.be16 (u + 8) + 0x8180 + 1 + 1 +
      listSum ((List.range (udpLen - 20)).map (fun i => b (u + 20 + i)) ++ record))

section Answered

variable {b b' b'' : Bytes} {v : IpVer} {ip u extendLen : ℕ} {record : List UInt8}

theorem Answered.congr (h : Answered b b' v ip u extendLen record) (hu : ip + v.hdrLen ≤ u)
    (hlen : 20 ≤ b.be16 (u + 4))
    (hb : ∀ j, (v = .v4 → j < ip + 10 ∨ ip + 12 ≤ j) → (j < u + 6 ∨ u + 8 ≤ j) → b'' j = b' j) :
    Answered b b'' v ip u extendLen record := by
  obtain ⟨-, -, -, hlong, -, -⟩ := v.layout
  refine ⟨h.turned.congr hu fun j _ => hb j, fun j hj hlt => ?_, ?_⟩
  · exact (hb j (fun _ => by omega) (by omega)).trans (h.body j hj hlt)
  · exact h.record.congr fun j hj _ => hb j (fun _ => by omega) (by omega)

theorem Answered.putChecksums (h : Answered b b' v ip u extendLen record) (hu : ip + v.hdrLen ≤ u)
    (hlen : 20 ≤ b.be16 (u + 4)) : Answered b (putChecksums b' v ip u) v ip u extendLen record :=
  h.congr hu hlen fun _ hip hudp => putChecksums_of_notMem b' hip hudp

theorem answered_putList (b : Bytes) (v : IpVer) (devAddr : Vector UInt8 6) {template address : List UInt8}
    (hip : 14 ≤ ip) (hu : ip + v.hdrLen ≤ u) (hlen : 20 ≤ b.be16 (u + 4)) (htemplate : template.length = 12) :
    Answered b (putList (putList (turnAround b v ip u extendLen devAddr) (u + b.be16 (u + 4)) template)
      (u + b.be16 (u + 4) + 12) address) v ip u extendLen (template ++ address) := by
  set ptr := u + b.be16 (u + 4) with hptr
  set t := turnAround b v ip u extendLen devAddr with ht
  have hbelow : ∀ j, j < ptr → putList (putList t ptr template) (ptr + 12) address j = t j := by
    intro j hj
    rw [putList_of_notMem _ _ (by omega), putList_of_notMem _ _ (by omega)]
  refine ⟨?_, fun j hj hlt => ?_, holds_append.mpr ⟨?_, ?_⟩⟩
  · exact (turnAround_turned b v extendLen devAddr hip hu).congr hu fun j hj _ _ => hbelow j (by omega)
  · exact (hbelow j hlt).trans (turnAround_of_ge b devAddr hu hj)
  · exact Holds.putList (holds_putList _ _ _) _ (Or.inl (by omega))
  · rw [htemplate]
    exact holds_putList _ _ _

/-- The checksum of UDP is taken of the words computed from the query. -/
theorem Answered.udpSum_eq (h : Answered b b' v ip u extendLen record) (hzero : b'.be16 (u + 6) = 0)
    (hlen : 20 ≤ b.be16 (u + 4)) (hrecord : record.length = extendLen) (hfits : b.be16 (u + 4) + extendLen < 65536) :
    udpSum b' v ip u = replySum b v ip u extendLen record := by
  have ht := h.turned
  have hudp : b'.be16 (u + 4) = b.be16 (u + 4) + extendLen := ht.udpLen.trans (Nat.mod_eq_of_lt hfits)
  have hsaddr : wordSum b' (ip + v.saddr) v.addrLen = wordSum b (ip + v.daddr) v.addrLen := wordSum_congr ht.saddr
  have hdaddr : wordSum b' (ip + v.daddr) v.addrLen = wordSum b (ip + v.saddr) v.addrLen := wordSum_congr ht.daddr
  set l := (List.range (b.be16 (u + 4) - 20)).map (fun i => b (u + 20 + i)) ++ record with hl
  have hlength : l.length = b.be16 (u + 4) - 20 + extendLen := by
    rw [hl, List.length_append, List.length_map, List.length_range, hrecord]
  have hholds : b'.Holds (u + 20) l := by
    refine holds_append.mpr ⟨fun i x hi => ?_, ?_⟩
    · obtain ⟨hlt, rfl⟩ := List.getElem?_eq_some_iff.mp hi
      rw [List.getElem_map, List.getElem_range]
      rw [List.length_map, List.length_range] at hlt
      exact h.body _ (by omega) (by omega)
    · rw [List.length_map, List.length_range, show u + 20 + (b.be16 (u + 4) - 20) = u + b.be16 (u + 4) by omega]
      exact h.record
  have hwords : wordSum b' u (b.be16 (u + 4) + extendLen) =
      b.be16 (u + 2) + (b.be16 u + (b.be16 (u + 4) + extendLen + (0 + (b.be16 (u + 8) + (0x8180 + (1 + (1 +
        (0 + (0 + listSum l))))))))) := by
    rw [show b.be16 (u + 4) + extendLen = 2 + (2 + (2 + (2 + (2 + (2 + (2 + (2 + (2 + (2 + l.length))))))))) by omega]
    simp only [wordSum_word, Nat.add_assoc, Nat.reduceAdd]
    rw [wordSum_of_holds hholds, ht.source, ht.dest, hudp, hzero, ht.id, ht.flags, ht.qdcount, ht.ancount,
      ht.nscount, ht.arcount]
    omega
  rw [udpSum, pseudoSum, hudp, hwords, hsaddr, hdaddr, replySum, ← hl]
  omega

end Answered

end PhoebusBsp.Dns

import PhoebusBsp.Igmp.Include
import PhoebusBsp.Schemes.Records

/-! How `rtk_igmp_processIgmpv3Mldv2Reports` finds the records of a report. Before each record it looks
    only at where the record starts:

        off > igmpDataLen          the report is left
        type is none of the six    the record is skipped
        otherwise                  the handler reads header and sources from memory

    The message ends where the IP headers say it does. `igmpDataLen` may be larger: for IPv4 the 16-bit
    difference wraps around when the header is longer than the packet, for IPv6 the extension headers
    before the message are not taken off. -/

namespace PhoebusBsp.Igmp
open Schemes List

/-! ### The headers -/

/-- What the length of the message is computed from. -/
inductive ReportHdr where
  | v4 (totLen : UInt16) (ihl : Fin 16)
  /-- `extLen` bytes of extension headers stand between the IPv6 header and the message. -/
  | v6 (payloadLen : UInt16) (extLen : ℕ)

namespace ReportHdr

def ipVersion : ReportHdr → IpVersion
  | .v4 .. => .v4
  | .v6 .. => .v6

/-- The 16-bit `igmpDataLen`. -/
def igmpDataLen : ReportHdr → UInt16
  | .v4 totLen ihl => totLen - UInt16.ofNat (ihl * 4)
  | .v6 payloadLen _ => payloadLen

/-- The bytes that the message has. -/
def messageLen : ReportHdr → ℕ
  | .v4 totLen ihl => totLen.toNat - ihl * 4
  | .v6 payloadLen extLen => payloadLen.toNat - extLen

theorem messageLen_le (h : ReportHdr) : h.messageLen ≤ h.igmpDataLen.toNat := by
  cases h with
  | v4 totLen ihl =>
    have hihl := ihl.isLt
    have htotLen := totLen.toNat_lt
    have hofNat : (UInt16.ofNat (ihl * 4)).toNat = ihl * 4 := by
      rw [UInt16.toNat_ofNat']
      omega
    simp only [messageLen, igmpDataLen, UInt16.toNat_sub, hofNat]
    omega
  | v6 payloadLen extLen => exact Nat.sub_le _ _

end ReportHdr

/-! ### Group records -/

inductive RecordType where
  | isInclude
  | isExclude
  | toInclude
  | toExclude
  | allow
  | block
  deriving DecidableEq

def RecordType.ofByte (b : UInt8) : Option RecordType :=
  if b = 1 then some .isInclude
  else if b = 2 then some .isExclude
  else if b = 3 then some .toInclude
  else if b = 4 then some .toExclude
  else if b = 5 then some .allow
  else if b = 6 then some .block
  else none

/-- The bytes of a record before its sources. -/
def headerLen : IpVersion → ℕ
  | .v4 => 8
  | .v6 => 20

def addrLen : IpVersion → ℕ
  | .v4 => 4
  | .v6 => 16

def ipAt (v : IpVersion) (mem : Bytes) (off : ℕ) : Ip :=
  match v with
  | .v4 => ⟨mem.be32 off, 0, 0, 0⟩
  | .v6 => ⟨mem.be32 off, mem.be32 (off + 4), mem.be32 (off + 8), mem.be32 (off + 12)⟩

def auxLen (mem : Bytes) (off : ℕ) : ℕ := (mem (off + 1)).toNat

def numOfSrc (mem : Bytes) (off : ℕ) : ℕ := mem.be16 (off + 2)

/-- What a handler reads. -/
def recordAt (v : IpVersion) (mem : Bytes) (off : ℕ) : GroupRecord where
  groupAddr := ipAt v mem (off + 4)
  srcList := (List.range (numOfSrc mem off)).map fun j =>
    ipAt v mem (off + headerLen v + j * addrLen v)

def recordSize (v : IpVersion) (mem : Bytes) (off : ℕ) : ℕ :=
  headerLen v + numOfSrc mem off * addrLen v + auxLen mem off * 4

def numOfRecords (mem : Bytes) : ℕ := mem.be16 6

/-! ### The loop -/

/-- The report's sender and where it came in. -/
structure Reporter where
  dev : DevInfo
  pkt : PktHdr
  clientAddr : Ip

section Loop

variable (r : Reporter) (v : IpVersion) (mem : Bytes)

def handle (rec : GroupRecord) (db : Db) : RecordType → Nf × Db
  | .isInclude => processIsInclude db r.dev r.pkt v r.clientAddr rec
  | .isExclude => processIsExclude db r.dev r.pkt v r.clientAddr rec
  | .toInclude => processToInclude db r.dev r.pkt v r.clientAddr rec
  | .toExclude => processToExclude db r.dev r.pkt v r.clientAddr rec
  | .allow => processAllow db r.dev r.pkt v r.clientAddr rec
  | .block => processBlock db r.dev r.pkt v r.clientAddr rec

/-- The result of a report, and the records handed to a handler: their numbers and where they start. -/
structure Reported where
  verdict : Nf
  db : Db
  handed : List (ℕ × ℕ)

/-- The switch over the type; `returnVal` keeps its value when there is no handler. -/
def dispatch (i off : ℕ) (returnVal : Option Nf) (db : Db) : Option Nf × Db × List (ℕ × ℕ) :=
  match RecordType.ofByte (mem off) with
  | some type =>
    let (ret, db) := handle r v (recordAt v mem off) db type
    (some ret, db, [(i, off)])
  | none => (returnVal, db, [])

/-- The records from number `i` on, `left` of the `numOfRecords` of the report. -/
def recordLoop (igmpDataLen numOfRecords : ℕ) : ℕ → ℕ → ℕ → Option Nf → Db → Reported
  | 0, _, _, _, db => ⟨.accept, db, []⟩
  | left + 1, i, off, returnVal, db =>
    if igmpDataLen < off then ⟨.accept, db, []⟩
    else
      let (returnVal, db, handed) := dispatch r v mem i off returnVal db
      if numOfRecords = 1 ∧ (returnVal = some .drop ∨ returnVal = some .accept) then
        ⟨returnVal.getD .accept, db, handed⟩
      else
        let rest := recordLoop igmpDataLen numOfRecords left (i + 1) (off + recordSize v mem off)
          returnVal db
        { rest with handed := handed ++ rest.handed }

end Loop

/-- `rtk_igmp_processIgmpv3Mldv2Reports` on the memory from the message on. `zero` is what the initial
    `returnVal` stands for. -/
def processIgmpv3Mldv2Reports (r : Reporter) (h : ReportHdr) (mem : Bytes) (zero : Option Nf) (db : Db) :
    Reported :=
  recordLoop r h.ipVersion mem h.igmpDataLen.toNat (numOfRecords mem) (numOfRecords mem) 0 8 zero db

/-! ### Where the records are -/

def reportFormat (v : IpVersion) : RecordFormat where
  head := headerLen v
  size := recordSize v
  head_pos := by cases v <;> decide
  head_le _ _ := (Nat.le_add_right _ _).trans (Nat.le_add_right _ _)
  size_congr {b b' off} h := by
    have hhead : 8 ≤ headerLen v := by cases v <;> decide
    have haux : auxLen b off = auxLen b' off := congrArg UInt8.toNat (h 1 (by omega))
    have hsrc : numOfSrc b off = numOfSrc b' off := by
      refine Bytes.be16_congr fun i hi => ?_
      rw [Nat.add_assoc]
      exact h (2 + i) (by omega)
    rw [recordSize, recordSize, haux, hsrc]

/-- Record `i` of a report starts behind the sizes of those before it. -/
def recordStart (v : IpVersion) (mem : Bytes) (i : ℕ) : ℕ := (reportFormat v).start mem 8 i

/-- The record has a handler. -/
def known (mem : Bytes) (off : ℕ) : Bool := (RecordType.ofByte (mem off)).isSome

/-- Header and sources of record `i` lie inside the message. -/
def Fits (v : IpVersion) (mem : Bytes) (len i : ℕ) : Prop :=
  recordStart v mem i + headerLen v + numOfSrc mem (recordStart v mem i) * addrLen v ≤ len

instance (v : IpVersion) (mem : Bytes) (len i : ℕ) : Decidable (Fits v mem len i) :=
  inferInstanceAs (Decidable (_ ≤ _))

/-- A record and what its handler does with the tables. -/
def applyRecord (r : Reporter) (v : IpVersion) (mem : Bytes) (db : Db) (x : ℕ × ℕ) : Db :=
  match RecordType.ofByte (mem x.2) with
  | some type => (handle r v (recordAt v mem x.2) db type).2
  | none => db

section Loop

variable {r : Reporter} {v : IpVersion} {mem : Bytes} {len : ℕ}

theorem recordStart_mono {i j : ℕ} (h : i ≤ j) : recordStart v mem i ≤ recordStart v mem j :=
  (reportFormat v).start_mono mem 8 h

theorem recordStart_succ (i : ℕ) :
    recordStart v mem (i + 1) = recordStart v mem i + recordSize v mem (recordStart v mem i) := rfl

theorem dispatch_spec (r : Reporter) (v : IpVersion) (mem : Bytes) (i off : ℕ) (returnVal : Option Nf) (db : Db) :
    (dispatch r v mem i off returnVal db).2.2 = (if known mem off then [(i, off)] else []) ∧
      (dispatch r v mem i off returnVal db).2.1 =
        (if known mem off then [(i, off)] else []).foldl (applyRecord r v mem) db := by
  cases htype : RecordType.ofByte (mem off) <;> simp [dispatch, known, applyRecord, htype]

variable (v mem len) in
/-- The records from `i` on that the loop hands to a handler. -/
def handedFrom (i left : ℕ) : List (ℕ × ℕ) :=
  ((List.range' i left).filter fun k =>
    decide (recordStart v mem k ≤ len) && known mem (recordStart v mem k)).map
      fun k => (k, recordStart v mem k)

theorem handedFrom_past {i : ℕ} (h : len < recordStart v mem i) (left : ℕ) :
    handedFrom v mem len i left = [] := by
  refine map_eq_nil_iff.mpr (filter_eq_nil_iff.mpr fun k hk => ?_)
  have hmono : recordStart v mem i ≤ recordStart v mem k := recordStart_mono (mem_range'_1.mp hk).1
  have hpast : ¬recordStart v mem k ≤ len := by omega
  simp [hpast]

theorem handedFrom_succ {i : ℕ} (h : recordStart v mem i ≤ len) (left : ℕ) :
    handedFrom v mem len i (left + 1) =
      (if known mem (recordStart v mem i) then [(i, recordStart v mem i)] else []) ++
        handedFrom v mem len (i + 1) left := by
  unfold handedFrom
  rw [List.range'_succ, filter_cons]
  by_cases hknown : known mem (recordStart v mem i) <;> simp [h, hknown]

/-- The loop visits the records that start inside `igmpDataLen`, in order. -/
theorem recordLoop_spec (n left i : ℕ) (hn : i + left = n) (returnVal : Option Nf) (db : Db) :
    let x := recordLoop r v mem len n left i (recordStart v mem i) returnVal db
    x.handed = handedFrom v mem len i left ∧
      x.db = (handedFrom v mem len i left).foldl (applyRecord r v mem) db := by
  induction left generalizing i returnVal db with
  | zero => exact ⟨rfl, rfl⟩
  | succ left ih =>
    intro x
    by_cases hoff : len < recordStart v mem i
    · have hx : x = ⟨.accept, db, []⟩ := if_pos hoff
      rw [hx, handedFrom_past hoff]
      exact ⟨rfl, rfl⟩
    · obtain ⟨hhanded, hdb⟩ := dispatch_spec r v mem i (recordStart v mem i) returnVal db
      obtain ⟨ihhanded, ihdb⟩ := ih (i + 1) (by omega)
        (dispatch r v mem i (recordStart v mem i) returnVal db).1
        (dispatch r v mem i (recordStart v mem i) returnVal db).2.1
      rw [handedFrom_succ (Nat.not_lt.mp hoff), foldl_append, ← hdb, ← hhanded]
      simp only [x, recordLoop, if_neg hoff]
      split_ifs with hlast
      · -- a report of one record: nothing is left
        obtain rfl : left = 0 := by omega
        exact ⟨(append_nil _).symm, rfl⟩
      · rw [recordStart_succ] at ihhanded ihdb
        exact ⟨congrArg _ ihhanded, ihdb⟩

end Loop

/-! ### What the message contains -/

/-- The bytes of a message, with zeros behind its end. -/
def msgBytes (msg : List UInt8) : Bytes := fun i => msg.getD i 0

/-- The message is in memory, with anything behind it. -/
def Holding (mem : Bytes) (msg : List UInt8) : Prop := ∀ i < msg.length, msgBytes msg i = mem i

/-- The records of a message that have a handler and lie inside it. -/
def wholeRecords (v : IpVersion) (msg : List UInt8) : List (ℕ × ℕ) :=
  ((List.range (numOfRecords (msgBytes msg))).filter fun i =>
    decide (Fits v (msgBytes msg) msg.length i) &&
      known (msgBytes msg) (recordStart v (msgBytes msg) i)).map
        fun i => (i, recordStart v (msgBytes msg) i)

/-- Whatever is in memory behind the message, its whole records are handed to their handlers, and nothing
    else changes the tables. -/
def ActsOnMessage (r : Reporter) (h : ReportHdr) (msg : List UInt8) (zero : Option Nf) (db : Db) : Prop :=
  ∀ mem, Holding mem msg →
    (processIgmpv3Mldv2Reports r h mem zero db).handed = wholeRecords h.ipVersion msg ∧
      (processIgmpv3Mldv2Reports r h mem zero db).db =
        (wholeRecords h.ipVersion msg).foldl (applyRecord r h.ipVersion (msgBytes msg)) db

/-- No record that reaches over the end of the message starts inside `igmpDataLen`, unless its type is in
    the message and has no handler, and no further record starts inside `igmpDataLen`; and a message that
    has no room for the number of records has none for the first record. -/
def Framed (h : ReportHdr) (msg : List UInt8) : Prop :=
  let v := h.ipVersion
  let mem := msgBytes msg
  let len := h.igmpDataLen.toNat
  (msg.length < 8 → len < 8) ∧
    ∀ i < numOfRecords mem, recordStart v mem i ≤ len → ¬Fits v mem msg.length i →
      recordStart v mem i < msg.length ∧ known mem (recordStart v mem i) = false ∧
        (i + 1 < numOfRecords mem → len < recordStart v mem (i + 1))

instance (h : ReportHdr) (msg : List UInt8) : Decidable (Framed h msg) :=
  inferInstanceAs (Decidable (_ ∧ _))

section Message

variable {v : IpVersion} {mem : Bytes} {msg : List UInt8} {i : ℕ}

theorem eight_le_recordStart (v : IpVersion) (mem : Bytes) (i : ℕ) : 8 ≤ recordStart v mem i :=
  (reportFormat v).first_le_start mem 8 i

theorem fits_iff_le {len : ℕ} : Fits v mem len i ↔
    recordStart v mem i + headerLen v + numOfSrc mem (recordStart v mem i) * addrLen v ≤ len := Iff.rfl

theorem Fits.start_add_header_le {len : ℕ} (h : Fits v mem len i) :
    recordStart v mem i + headerLen v ≤ len := (Nat.le_add_right _ _).trans h

theorem lt_start_succ {len : ℕ} (h : ¬Fits v mem len i) : len < recordStart v mem (i + 1) := by
  rw [fits_iff_le] at h
  rw [recordStart_succ, recordSize]
  omega

theorem Fits.of_le {len j : ℕ} (h : Fits v mem len i) (hj : j ≤ i) : Fits v mem len j := by
  rcases Nat.lt_or_eq_of_le hj with hlt | rfl
  · by_contra hnot
    have hpast := lt_start_succ hnot
    have hmono : recordStart v mem (j + 1) ≤ recordStart v mem i := recordStart_mono hlt
    have hfits := h.start_add_header_le
    omega
  · exact h

theorem recordStart_of_fits (hmem : Holding mem msg)
    (h : ∀ j < i, Fits v (msgBytes msg) msg.length j) :
    recordStart v mem i = recordStart v (msgBytes msg) i :=
  (reportFormat v).start_congr hmem fun j hj => (h j hj).start_add_header_le

theorem numOfRecords_of_holding (hmem : Holding mem msg) (h : 8 ≤ msg.length) :
    numOfRecords mem = numOfRecords (msgBytes msg) :=
  (Bytes.be16_congr fun i hi => hmem (6 + i) (by omega)).symm

theorem ipAt_congr {mem' : Bytes} {off : ℕ} (h : ∀ k < addrLen v, mem (off + k) = mem' (off + k)) :
    ipAt v mem off = ipAt v mem' off := by
  have hword : ∀ k, k + 4 ≤ addrLen v → mem.be32 (off + k) = mem'.be32 (off + k) := by
    intro k hk
    refine Bytes.be32_congr fun j hj => ?_
    rw [Nat.add_assoc]
    exact h (k + j) (by omega)
  cases v with
  | v4 =>
    have h0 : mem.be32 off = mem'.be32 off := hword 0 (by decide)
    rw [ipAt, ipAt, h0]
  | v6 =>
    have h0 : mem.be32 off = mem'.be32 off := hword 0 (by decide)
    rw [ipAt, ipAt, h0, hword 4 (by decide), hword 8 (by decide), hword 12 (by decide)]

/-- A record inside the message is read off the message. -/
theorem recordAt_of_fits (hmem : Holding mem msg) (h : Fits v (msgBytes msg) msg.length i) :
    recordAt v mem (recordStart v (msgBytes msg) i) =
      recordAt v (msgBytes msg) (recordStart v (msgBytes msg) i) := by
  set off := recordStart v (msgBytes msg) i with hoff
  have hfits : off + headerLen v + numOfSrc (msgBytes msg) off * addrLen v ≤ msg.length := h
  have hhead : 4 + addrLen v ≤ headerLen v := by cases v <;> decide
  have hsrc : numOfSrc mem off = numOfSrc (msgBytes msg) off := by
    refine (Bytes.be16_congr fun k hk => ?_).symm
    exact hmem _ (by omega)
  have hgroup : ipAt v mem (off + 4) = ipAt v (msgBytes msg) (off + 4) :=
    (ipAt_congr fun k hk => hmem _ (by omega)).symm
  have hsources : ∀ j < numOfSrc (msgBytes msg) off,
      ipAt v mem (off + headerLen v + j * addrLen v) =
        ipAt v (msgBytes msg) (off + headerLen v + j * addrLen v) := by
    intro j hj
    have hroom : (j + 1) * addrLen v ≤ numOfSrc (msgBytes msg) off * addrLen v :=
      Nat.mul_le_mul_right _ hj
    rw [Nat.succ_mul] at hroom
    exact (ipAt_congr fun k hk => hmem _ (by omega)).symm
  unfold recordAt
  rw [hgroup, hsrc, map_congr_left fun j hj => hsources j (mem_range.mp hj)]

theorem Holding.known_of_lt (hmem : Holding mem msg) (off : ℕ) (h : off < msg.length) :
    known mem off = known (msgBytes msg) off := by
  rw [known, known, hmem off h]

theorem mem_wholeRecords {x : ℕ × ℕ} (h : x ∈ wholeRecords v msg) :
    ∃ i, Fits v (msgBytes msg) msg.length i ∧ x = (i, recordStart v (msgBytes msg) i) := by
  obtain ⟨i, hi, rfl⟩ := mem_map.mp h
  have hfilter := (mem_filter.mp hi).2
  rw [Bool.and_eq_true, decide_eq_true_eq] at hfilter
  exact ⟨i, hfilter.1, rfl⟩

/-- Behind the end of the message there is at least a zero. -/
theorem recordSize_le (hmem : Holding mem msg) (off : ℕ) :
    recordSize v (msgBytes msg) off ≤ recordSize v mem off := by
  have hbyte : ∀ k, (msgBytes msg k).toNat ≤ (mem k).toNat := by
    intro k
    by_cases hk : k < msg.length
    · rw [hmem k hk]
    · have hzero : msgBytes msg k = 0 := by simp [msgBytes, Nat.not_lt.mp hk]
      rw [hzero]
      exact Nat.zero_le _
  have hsrc : numOfSrc (msgBytes msg) off ≤ numOfSrc mem off :=
    Nat.add_le_add (Nat.mul_le_mul_right _ (hbyte _)) (hbyte _)
  have haux : auxLen (msgBytes msg) off ≤ auxLen mem off := hbyte _
  have hmul := Nat.mul_le_mul_right (addrLen v) hsrc
  unfold recordSize
  omega

/-- The first record that reaches over the end of the message. -/
theorem exists_first_not_fits {len : ℕ} (h : ¬Fits v mem len i) :
    ∃ j ≤ i, ¬Fits v mem len j ∧ ∀ k < j, Fits v mem len k := by
  classical
  have hex : ∃ j, ¬Fits v mem len j := ⟨i, h⟩
  refine ⟨Nat.find hex, Nat.find_min' hex h, Nat.find_spec hex, fun k hk => ?_⟩
  exact Classical.not_not.mp (Nat.find_min hex hk)

end Message

/-! ### When the report is framed right -/

section Report

variable {r : Reporter} {h : ReportHdr} {mem : Bytes} {msg : List UInt8} {zero : Option Nf} {db : Db}

theorem process_spec (r : Reporter) (h : ReportHdr) (zero : Option Nf) (db : Db) (mem : Bytes) :
    let handed := handedFrom h.ipVersion mem h.igmpDataLen.toNat 0 (numOfRecords mem)
    (processIgmpv3Mldv2Reports r h mem zero db).handed = handed ∧
      (processIgmpv3Mldv2Reports r h mem zero db).db =
        handed.foldl (applyRecord r h.ipVersion mem) db :=
  recordLoop_spec (numOfRecords mem) (numOfRecords mem) 0 (Nat.zero_add _) zero db

/-- In a framed report the loop picks the whole records. -/
theorem picks_iff (hlen : msg.length = h.messageLen) (hframed : Framed h msg) (hmem : Holding mem msg)
    {i : ℕ} (hi : i < numOfRecords (msgBytes msg)) :
    (recordStart h.ipVersion mem i ≤ h.igmpDataLen.toNat ∧
        known mem (recordStart h.ipVersion mem i) = true) ↔
      Fits h.ipVersion (msgBytes msg) msg.length i ∧
        known (msgBytes msg) (recordStart h.ipVersion (msgBytes msg) i) = true := by
  set v := h.ipVersion with hv
  have hle : msg.length ≤ h.igmpDataLen.toNat := hlen ▸ h.messageLen_le
  by_cases hfits : Fits v (msgBytes msg) msg.length i
  · have hstart : recordStart v mem i = recordStart v (msgBytes msg) i :=
      recordStart_of_fits hmem fun j hj => hfits.of_le hj.le
    have hhead := hfits.start_add_header_le
    have hpos : 0 < headerLen v := (reportFormat v).head_pos
    have hknown := hmem.known_of_lt (recordStart v (msgBytes msg) i) (by omega)
    rw [hstart, hknown]
    exact ⟨fun hk => ⟨hfits, hk.2⟩, fun hk => ⟨by omega, hk.2⟩⟩
  · refine iff_of_false ?_ fun hk => hfits hk.1
    rintro ⟨hstart, hknown⟩
    -- the first record that reaches over the end decides
    obtain ⟨j, hji, hnot, hbefore⟩ := exists_first_not_fits hfits
    have hsame : recordStart v mem j = recordStart v (msgBytes msg) j := recordStart_of_fits hmem hbefore
    have hmono : recordStart v mem j ≤ recordStart v mem i := recordStart_mono hji
    obtain ⟨hlt, hunknown, hnext⟩ := hframed.2 j (by omega) (by rw [← hv, ← hsame]; omega) hnot
    rcases Nat.lt_or_eq_of_le hji with hji | rfl
    · have hpast : h.igmpDataLen.toNat < recordStart v (msgBytes msg) (j + 1) := hnext (by omega)
      have hsize := recordSize_le (v := v) hmem (recordStart v (msgBytes msg) j)
      have hmono : recordStart v mem (j + 1) ≤ recordStart v mem i := recordStart_mono hji
      rw [recordStart_succ] at hpast hmono
      rw [hsame] at hmono
      omega
    · rw [hsame, hmem.known_of_lt _ hlt] at hknown
      rw [hknown] at hunknown
      exact Bool.noConfusion hunknown

theorem actsOnMessage_of_framed (hlen : msg.length = h.messageLen) (hframed : Framed h msg) :
    ActsOnMessage r h msg zero db := by
  intro mem hmem
  set v := h.ipVersion with hv
  obtain ⟨hhanded, hdb⟩ := process_spec r h zero db mem
  have hwhole : handedFrom v mem h.igmpDataLen.toNat 0 (numOfRecords mem) = wholeRecords v msg := by
    by_cases hshort : msg.length < 8
    · rw [handedFrom_past ((hframed.1 hshort).trans_le (eight_le_recordStart ..))]
      refine (eq_nil_iff_forall_not_mem.mpr fun x hx => ?_).symm
      obtain ⟨i, hfits, -⟩ := mem_wholeRecords hx
      have hhead := hfits.start_add_header_le
      have height := eight_le_recordStart v (msgBytes msg) i
      omega
    · rw [handedFrom, wholeRecords, numOfRecords_of_holding hmem (Nat.not_lt.mp hshort),
        range_eq_range']
      have hpick : ∀ i ∈ List.range' 0 (numOfRecords (msgBytes msg)),
          (decide (recordStart v mem i ≤ h.igmpDataLen.toNat) && known mem (recordStart v mem i)) =
            (decide (Fits v (msgBytes msg) msg.length i) &&
              known (msgBytes msg) (recordStart v (msgBytes msg) i)) := by
        intro i hi
        have hlt : i < numOfRecords (msgBytes msg) := by
          have := (mem_range'_1.mp hi).2
          omega
        rw [Bool.eq_iff_iff, Bool.and_eq_true, Bool.and_eq_true, decide_eq_true_eq, decide_eq_true_eq]
        exact picks_iff hlen hframed hmem hlt
      rw [filter_congr hpick]
      refine map_congr_left fun i hi => ?_
      have hfilter := (mem_filter.mp hi).2
      rw [Bool.and_eq_true, decide_eq_true_eq] at hfilter
      rw [recordStart_of_fits hmem fun j hj => hfilter.1.of_le hj.le]
  rw [hhanded, hdb, ← hv, hwhole]
  refine ⟨rfl, foldl_ext _ _ _ fun db x hx => ?_⟩
  obtain ⟨i, hfits, rfl⟩ := mem_wholeRecords hx
  have hhead := hfits.start_add_header_le
  have hpos : 0 < headerLen v := (reportFormat v).head_pos
  unfold applyRecord
  rw [recordAt_of_fits hmem hfits, hmem _ (by omega)]

/-- No memory behind the message makes the loop hand over a record that does not fit. -/
theorem ActsOnMessage.not_picked (hacts : ActsOnMessage r h msg zero db) (hmem : Holding mem msg) {i : ℕ}
    (hi : i < numOfRecords mem) (hnot : ¬Fits h.ipVersion (msgBytes msg) msg.length i)
    (hstart : recordStart h.ipVersion mem i ≤ h.igmpDataLen.toNat) :
    known mem (recordStart h.ipVersion mem i) = false := by
  by_contra hknown
  have hpicked : (i, recordStart h.ipVersion mem i) ∈
      handedFrom h.ipVersion mem h.igmpDataLen.toNat 0 (numOfRecords mem) := by
    refine mem_map.mpr ⟨i, mem_filter.mpr ⟨mem_range'_1.mpr (by omega), ?_⟩, rfl⟩
    rw [Bool.and_eq_true, decide_eq_true_eq]
    exact ⟨hstart, by simpa using hknown⟩
  rw [← (process_spec r h zero db mem).1, (hacts mem hmem).1] at hpicked
  obtain ⟨j, hfits, heq⟩ := mem_wholeRecords hpicked
  rw [(Prod.mk.inj heq).1] at hnot
  exact hnot hfits

/-- The message with one value behind its end. -/
def msgThen (msg : List UInt8) (x : UInt8) : Bytes := fun i => if i < msg.length then msgBytes msg i else x

theorem holding_msgThen (msg : List UInt8) (x : UInt8) : Holding (msgThen msg x) msg := fun _ hi =>
  (if_pos hi).symm

theorem known_msgThen {off : ℕ} (hoff : msg.length ≤ off) : known (msgThen msg 1) off = true := by
  rw [known, msgThen, if_neg (Nat.not_lt.mpr hoff)]
  rfl

theorem framed_of_actsOnMessage (hacts : ActsOnMessage r h msg zero db) : Framed h msg := by
  set v := h.ipVersion with hv
  have hshort : msg.length < 8 → h.igmpDataLen.toNat < 8 := by
    intro hlt
    by_contra hlen
    -- ones behind the message make for a record whose type has a handler
    have hrecords : 0 < numOfRecords (msgThen msg 1) := by
      have hlast : msgThen msg 1 7 = 1 := if_neg (by omega)
      rw [numOfRecords, Bytes.be16, hlast]
      exact Nat.lt_of_lt_of_le (by decide) (Nat.le_add_left _ _)
    have hnot : ¬Fits v (msgBytes msg) msg.length 0 := by
      intro hfits
      have hhead := hfits.start_add_header_le
      have height := eight_le_recordStart v (msgBytes msg) 0
      omega
    have hknown := hacts.not_picked (holding_msgThen msg 1) hrecords hnot (Nat.not_lt.mp hlen)
    have hone := known_msgThen (show msg.length ≤ 8 by omega)
    rw [recordStart, RecordFormat.start, hone] at hknown
    exact Bool.noConfusion hknown
  refine ⟨hshort, fun i hi hstart hnot => ?_⟩
  rw [← hv] at hstart hnot
  have height : 8 ≤ msg.length := by
    by_contra hlt
    have hlen := hshort (Nat.not_le.mp hlt)
    have hfirst := eight_le_recordStart v (msgBytes msg) i
    omega
  have hrecords : ∀ {mem}, Holding mem msg → numOfRecords mem = numOfRecords (msgBytes msg) :=
    fun hmem => numOfRecords_of_holding hmem height
  obtain ⟨j, hji, hnotj, hbefore⟩ := exists_first_not_fits hnot
  have hsame : ∀ {mem}, Holding mem msg → recordStart v mem j = recordStart v (msgBytes msg) j :=
    fun hmem => recordStart_of_fits hmem hbefore
  have hmono : recordStart v (msgBytes msg) j ≤ recordStart v (msgBytes msg) i := recordStart_mono hji
  have hlt : recordStart v (msgBytes msg) j < msg.length := by
    by_contra hout
    have hones := holding_msgThen msg 1
    have hknown := hacts.not_picked hones (i := j) (by rw [hrecords hones]; omega) hnotj
      (by rw [← hv, hsame hones]; omega)
    rw [← hv, hsame hones, known_msgThen (Nat.not_lt.mp hout)] at hknown
    exact Bool.noConfusion hknown
  have hself : Holding (msgBytes msg) msg := fun _ _ => rfl
  have hunknown := hacts.not_picked hself (i := j) (by omega) hnotj (by rw [← hv]; omega)
  have hnext : j + 1 < numOfRecords (msgBytes msg) →
      h.igmpDataLen.toNat < recordStart v (msgBytes msg) (j + 1) := by
    intro hj
    by_contra hinside
    -- only the type of the next record is set behind the message
    set p := recordStart v (msgBytes msg) (j + 1) with hp
    have hpast : msg.length < p := lt_start_succ hnotj
    let mem : Bytes := Function.update (msgBytes msg) p 1
    have hmem : Holding mem msg := fun k hk => (Function.update_of_ne (by omega) _ _).symm
    have hhead : recordStart v (msgBytes msg) j + headerLen v ≤ p :=
      (reportFormat v).start_add_head_le (msgBytes msg) 8 (Nat.lt_succ_self j)
    have hsize : recordSize v mem (recordStart v (msgBytes msg) j) =
        recordSize v (msgBytes msg) (recordStart v (msgBytes msg) j) := by
      refine (reportFormat v).size_congr fun k hk => Function.update_of_ne ?_ _ _
      have : k < headerLen v := hk
      omega
    have hstartp : recordStart v mem (j + 1) = p := by
      rw [recordStart_succ, hsame hmem, hsize]
      rfl
    have hnotp : ¬Fits v (msgBytes msg) msg.length (j + 1) := fun hfits =>
      hnotj (hfits.of_le (Nat.le_succ j))
    have hknown := hacts.not_picked hmem (i := j + 1) (by rw [hrecords hmem]; omega) hnotp
      (by rw [← hv, hstartp]; omega)
    have hone : mem p = 1 := Function.update_self ..
    rw [← hv, hstartp, known, hone] at hknown
    exact Bool.noConfusion hknown
  rcases Nat.lt_or_eq_of_le hji with hlt' | rfl
  · have hpast := hnext (by omega)
    have hmono : recordStart v (msgBytes msg) (j + 1) ≤ recordStart v (msgBytes msg) i :=
      recordStart_mono hlt'
    omega
  · exact ⟨hlt, hunknown, hnext⟩

/-- A report acts on exactly the records inside its message just when it is framed. -/
theorem report_acts_on_message_iff (r : Reporter) (h : ReportHdr) (msg : List UInt8)
    (hlen : msg.length = h.messageLen) (zero : Option Nf) (db : Db) :
    ActsOnMessage r h msg zero db ↔ Framed h msg :=
  ⟨framed_of_actsOnMessage, actsOnMessage_of_framed hlen⟩

end Report

def sampleReporter : Reporter := ⟨samplePort false, samplePkt, host 9⟩

/-- A report with one IS_IN record for 239.1.1.1 and one source. -/
def sampleReport : List UInt8 := [0x22, 0, 0, 0, 0, 0, 0, 1, 1, 0, 0, 1, 0xef, 1, 1, 1, 10, 0, 0, 1]

/-- With the source in the message, and a record of an unknown type cut off behind it. -/
theorem report_acts_on_message_sample :
    ActsOnMessage sampleReporter (.v4 44 6) sampleReport none (sampleDb false) ∧
    ActsOnMessage sampleReporter (.v4 48 6) (sampleReport.set 7 2 ++ [9, 0, 0, 0]) none (sampleDb false) :=
  ⟨(report_acts_on_message_iff _ _ _ (by decide) _ _).mpr (by decide),
    (report_acts_on_message_iff _ _ _ (by decide) _ _).mpr (by decide)⟩

/-- The same report cut off before the source: the record does not fit, and the source is read from behind
    the message. -/
theorem report_reads_past_end :
    let msg := sampleReport.take 16
    let x := processIgmpv3Mldv2Reports sampleReporter (.v4 40 6) (msgThen msg 10) none (sampleDb false)
    msg.length = (ReportHdr.v4 40 6).messageLen ∧ Holding (msgThen msg 10) msg ∧
      wholeRecords .v4 msg = [] ∧ x.handed = [(0, 8)] ∧
      ((entryOf x.db samplePkt .v4 ⟨0xef010101, 0, 0, 0⟩ (host 9)).map fun e =>
        e.sourceList.map (·.sourceAddr)) = some [⟨0x0a0a0a0a, 0, 0, 0⟩] := by
  intro msg x
  exact ⟨by decide, holding_msgThen msg 10, by decide, by decide +kernel, by decide +kernel⟩

end PhoebusBsp.Igmp

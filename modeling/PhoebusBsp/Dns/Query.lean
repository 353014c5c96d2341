import Mathlib.Data.List.TakeWhile
import PhoebusBsp.Dns.Valid

/-! Which packets the trap takes, and what becomes of the others.

        findDns ──▶ length, header ──▶ get_domain_name ──▶ type, name ──▶ rtk_dns_packet_recap ──▶ sent
           │              │                                    │                   │
           ▼              ▼                                    ▼                   ▼
          -1             -1                                   -1        -1, with the packet changed

    A plain query is taken if it asks for the name of the router. Other packets are taken as well: the lengths are
    compared with a wrapping difference, the mask for the opcode leaves its last bit out, and the walk over the labels
    may end at the end of the packet. -/

namespace PhoebusBsp.Dns
open Schemes Bytes List Option

/-! ### Headers -/

/-- A standard query: `QR`, the opcode and `Z` are zero. -/
def Standard (flags : ℕ) : Prop := flags / 32768 % 2 = 0 ∧ flags / 2048 % 16 = 0 ∧ flags / 16 % 8 = 0

instance (flags : ℕ) : Decidable (Standard flags) := inferInstanceAs (Decidable (_ ∧ _ ∧ _))

theorem isValidDnsQueryHeader_iff (b : Bytes) (d : ℕ) : isValidDnsQueryHeader b d = true ↔
    1 ≤ b.be16 (d + 4) ∧ b.be16 (d + 2) < 4096 ∧ b.be16 (d + 2) / 16 % 8 = 0 := by
  have hlt := be16_lt b (d + 2)
  have hopcode : ∀ x < 32, x &&& 14 = 0 ↔ x % 16 < 2 := by decide
  have hfour := hopcode (b.be16 (d + 2) / 2048) (by omega)
  have hthree : b.be16 (d + 2) / 16 &&& 7 = b.be16 (d + 2) / 16 % 8 := Nat.and_two_pow_sub_one_eq_mod _ 3
  simp only [isValidDnsQueryHeader, Nat.shiftRight_and_distrib, Nat.reduceShiftRight, decide_eq_true_eq]
  simp only [Nat.shiftRight_eq_div_pow, Nat.reducePow, Nat.and_one_is_mod, hfour, hthree]
  omega

/-! ### Names -/

/-- A letter, a digit or a hyphen. -/
def isNameChar (c : UInt8) : Bool :=
  (0x61 ≤ c ∧ c ≤ 0x7a) ∨ (0x41 ≤ c ∧ c ≤ 0x5a) ∨ (0x30 ≤ c ∧ c ≤ 0x39) ∨ c = 0x2d

/-- ASCII only; `tolower` of the kernel knows Latin-1. -/
def lowerCase (c : UInt8) : UInt8 := if 0x41 ≤ c ∧ c ≤ 0x5a then c + 32 else c

/-- The labels with dots between them. -/
def joined : List Label → List UInt8
  | [] => []
  | label :: rest => label ++ rest.flatMap (0x2e :: ·)

/-- A name in lower case, without one `www.` at its front. -/
def canonical (name : List UInt8) : List UInt8 :=
  let name := name.map lowerCase
  if [0x77, 0x77, 0x77, 0x2e].isPrefixOf name then name.drop 4 else name

section Names

variable {b : Bytes} {len fuel pos next : ℕ} {labels : List Label} {domain : List UInt8} {c : UInt8}

theorem isNameChar_bounds (h : isNameChar c = true ∨ c = 0x2e) : 0 < c ∧ c < 0xc0 := by
  simp only [isNameChar, decide_eq_true_eq, UInt8.le_iff_toNat_le, UInt8.lt_iff_toNat_lt, ← UInt8.toNat_inj,
    UInt8.reduceToNat] at h ⊢
  omega

theorem tolower_eq (h : c < 0xc0) : tolower c = lowerCase c := by
  have hhigh : ¬0xc0 ≤ c := UInt8.not_le.mpr h
  simp [tolower, isUpper, lowerCase, hhigh]

/-- The code compares names in their canonical form. -/
theorem stripWww_eq {name : List UInt8} (h : ∀ c ∈ name, isNameChar c = true ∨ c = 0x2e) :
    stripWww (name.map tolower) = canonical name := by
  have hlower : name.map tolower = name.map lowerCase :=
    map_congr_left fun c hc => tolower_eq (isNameChar_bounds (h c hc)).2
  have hfront : [0x77, 0x77, 0x77, 0x2e].isPrefixOf (name.map lowerCase) = true ↔
      (name.map lowerCase).take 4 = [0x77, 0x77, 0x77, 0x2e] := by
    rw [List.isPrefixOf_iff_prefix, prefix_iff_eq_take]
    exact eq_comm
  simp only [stripWww, canonical, hlower, hfront]

/-- A name takes as many bytes as with a dot for the length of each label, and the zero. -/
theorem labelsAt_size (h : labelsAt b len fuel pos = some (labels, none, next)) :
    next = pos + (labels.flatMap (0x2e :: ·)).length + 1 := by
  induction fuel generalizing pos labels with
  | zero => cases h
  | succ fuel ih =>
    obtain ⟨-, ⟨-, rfl, -, rfl⟩ | ⟨-, -, -, hsome, -⟩ | ⟨-, -, rest, hrest, rfl⟩⟩ := labelsAt_cases h
    · rfl
    · cases hsome
    · rw [ih hrest]
      simp only [flatMap_cons, length_append, length_cons, length_span]
      omega

/-- Labels without zeros are put behind each other, as far as there is room. -/
theorem foldl_addLabel (hne : domain ≠ []) (hlabels : ∀ l ∈ labels, ∀ c ∈ l, c ≠ 0)
    (hlen : (domain ++ labels.flatMap (0x2e :: ·)).length < 128) :
    labels.foldl addLabel domain = domain ++ labels.flatMap (0x2e :: ·) := by
  induction labels generalizing domain with
  | nil => simp
  | cons l labels ih =>
    have htoken : l.takeWhile (· ≠ 0) = l :=
      takeWhile_eq_self_iff.mpr fun c hc => decide_eq_true (hlabels l mem_cons_self c hc)
    simp only [flatMap_cons, length_append, length_cons] at hlen
    have hadd : addLabel domain l = domain ++ 0x2e :: l := by
      have hdot : [(0x2e : UInt8)].take (128 - domain.length - 1) = [0x2e] := take_of_length_le (by simp; omega)
      have hfits : l.take (128 - (domain ++ [(0x2e : UInt8)]).length - 1) = l :=
        take_of_length_le (by simp; omega)
      simp only [addLabel, if_neg hne, htoken, strncat, hdot, hfits, append_assoc, singleton_append]
    rw [foldl_cons, hadd, ih (by simp) (fun l' hl' => hlabels l' (mem_cons_of_mem _ hl'))
      (by simp only [length_append, length_cons]; omega), flatMap_cons, append_assoc]

theorem foldl_addLabel_nil (hlabels : ∀ l ∈ labels, l ≠ [] ∧ ∀ c ∈ l, c ≠ 0)
    (hlen : (labels.flatMap (0x2e :: ·)).length < 128) : labels.foldl addLabel [] = joined labels := by
  cases labels with
  | nil => rfl
  | cons l labels =>
    have hfirst := hlabels l mem_cons_self
    have hadd : addLabel [] l = l :=
      takeWhile_eq_self_iff.mpr fun c hc => decide_eq_true (hfirst.2 c hc)
    simp only [flatMap_cons, length_append, length_cons] at hlen
    rw [foldl_cons, hadd, foldl_addLabel hfirst.1 (fun l' hl' => (hlabels l' (mem_cons_of_mem _ hl')).2)
      (by rw [length_append]; omega), joined]

end Names

/-! ### Plain queries -/

/-- An IPv4 packet in one piece whose lengths agree, with a standard query of one question and nothing else. -/
structure PlainQuery (skb : Skb) (u : ℕ) (question : Question) : Prop where
  version : skb.version = 4
  ihl : 5 ≤ skb.ihl
  udp : u = skb.ip + skb.ihl * 4
  protocol : skb.data (skb.ip + 9) = 17
  whole : skb.data.be16 (skb.ip + 6) &&& 0x3fff = 0
  totLen : skb.data.be16 (skb.ip + 2) = skb.ihl * 4 + skb.udpLen u
  port : skb.data.be16 (u + 2) = 53
  flags : Standard (skb.data.be16 (u + 10))
  qdcount : skb.data.be16 (u + 12) = 1
  others : skb.data.be16 (u + 14) = 0 ∧ skb.data.be16 (u + 16) = 0 ∧ skb.data.be16 (u + 18) = 0
  one : parseQuestion (skb.message u) (skb.messageLen u) 12 = some (question, skb.messageLen u)
  /-- The encoded name has 2 to 63 bytes. -/
  size : 12 + 2 + 4 ≤ skb.messageLen u ∧ skb.messageLen u ≤ 12 + 63 + 4
  letters : ∀ l ∈ question.name, l ≠ [] ∧ ∀ c ∈ l, isNameChar c = true
  type : question.type = 0x01 ∨ question.type = 0x1c

section Plain

variable {cfg : Config} {skb : Skb} {u : ℕ} {question : Question}

theorem PlainQuery.findDns (h : PlainQuery skb u question) (cfg : Config) : findDns cfg skb = some (.v4, u) := by
  have hihl := h.ihl
  have hlt := be16_lt skb.data (skb.ip + 2)
  have htot := h.totLen
  have hdiff : 20 ≤ (skb.data.be16 (skb.ip + 2) + 65536 - skb.udpLen u) % 65536 := by omega
  obtain rfl := h.udp
  simp only [Dns.findDns, h.version, if_true]
  exact if_pos ⟨h.protocol, h.port, h.whole, hdiff⟩

theorem PlainQuery.header (h : PlainQuery skb u question) : isValidDnsQueryHeader skb.data (u + 8) = true := by
  have hlt := be16_lt skb.data (u + 10)
  obtain ⟨hqr, hopcode, hz⟩ := h.flags
  refine (isValidDnsQueryHeader_iff skb.data (u + 8)).mpr ⟨Nat.le_of_eq h.qdcount.symm, ?_, hz⟩
  rw [show u + 8 + 2 = u + 10 from rfl]
  omega

/-- The code reads the labels, with dots between them, and the type. -/
theorem PlainQuery.getDomainName (h : PlainQuery skb u question) :
    getDomainName (fun i => skb.data (u + 20 + i)) (skb.udpLen u - 24) = (question.type, joined question.name) := by
  obtain ⟨e, hlabels, hend, -, -, -⟩ := parseQuestion_first.mp h.one
  have hsize := labelsAt_size hlabels
  have hshort := h.size
  have hlow : 26 ≤ skb.udpLen u := by
    rw [Skb.messageLen] at hshort
    omega
  rw [getDomainName_eq hlow h.one, foldl_addLabel_nil (fun l hl => ?_) (by omega)]
  refine ⟨(h.letters l hl).1, fun c hc hzero => ?_⟩
  have hpos := (isNameChar_bounds (Or.inl ((h.letters l hl).2 c hc))).1
  rw [hzero] at hpos
  exact absurd hpos (by decide)

/-- A plain query is taken just when it asks for a name of the router, but for the case of letters and `www.`. -/
theorem PlainQuery.trapped_iff (h : PlainQuery skb u question) (hall : cfg.trapAll = false)
    (hnames : ∀ name ∈ cfg.names, name.length < 128 ∧ ∀ c ∈ name, isNameChar c = true ∨ c = 0x2e) :
    Trapped cfg skb .v4 u ↔ ∃ name ∈ cfg.names, canonical (joined question.name) = canonical name := by
  have hread := h.getDomainName
  have hname : skb.name u = joined question.name := congrArg Prod.snd hread
  have hjoined : ∀ c ∈ joined question.name, isNameChar c = true ∨ c = 0x2e := by
    intro c hc
    cases hq : question.name with
    | nil => simp [hq, joined] at hc
    | cons l rest =>
      have hletters := fun l' hl' => (h.letters l' (hq ▸ hl')).2
      rw [hq, joined, mem_append, mem_flatMap] at hc
      rcases hc with hc | ⟨l', hl', hc⟩
      · exact Or.inl (hletters l mem_cons_self c hc)
      · rcases mem_cons.mp hc with rfl | hc
        · exact Or.inr rfl
        · exact Or.inl (hletters l' (mem_cons_of_mem _ hl') c hc)
  have hequal : ∀ name ∈ cfg.names, isDomainNameEqual (skb.name u) name = true ↔
      canonical (joined question.name) = canonical name := by
    intro name hmem
    rw [isDomainNameEqual, decide_eq_true_iff, hname, stripWww_eq hjoined, stripWww_eq (hnames name hmem).2]
  refine ⟨fun ht => ?_, fun ⟨name, hmem, heq⟩ => ?_⟩
  · rcases ht.name with htrap | ⟨name, hmem, heq⟩
    · simp [hall] at htrap
    · exact ⟨name, hmem, (hequal name hmem).mp heq⟩
  · have hsize := h.size
    rw [Skb.messageLen] at hsize
    have htype : skb.type u = question.type := congrArg Prod.fst hread
    exact ⟨h.findDns cfg, by omega, by omega, h.header, htype ▸ h.type, Or.inr ⟨name, hmem, (hequal name hmem).mpr heq⟩⟩

/-- The answer to a plain query is built if it asks for a name of the router; any other plain query goes its way. -/
theorem plain_query_trapped_iff (cfg : Config) (skb : Skb) (u : ℕ) (question : Question) (h : PlainQuery skb u question)
    (hall : cfg.trapAll = false)
    (hnames : ∀ name ∈ cfg.names, name.length < 128 ∧ ∀ c ∈ name, isNameChar c = true ∨ c = 0x2e) :
    (Trapped cfg skb .v4 u ↔ ∃ name ∈ cfg.names, canonical (joined question.name) = canonical name) ∧
      (Trapped cfg skb .v4 u → rtkDnsTrapEnter cfg skb = rtkDnsPacketRecap cfg skb question.type .v4 u) ∧
      (¬Trapped cfg skb .v4 u → rtkDnsTrapEnter cfg skb = .pass skb) ∧
      Dns.getDomainName (fun i => skb.data (u + 20 + i)) (skb.udpLen u - 24) =
        (question.type, joined question.name) := by
  have htype : skb.type u = question.type := congrArg Prod.fst h.getDomainName
  exact ⟨h.trapped_iff hall hnames, fun ht => htype ▸ ht.enter, enter_of_not_trapped (h.findDns cfg), h.getDomainName⟩

end Plain

theorem plain_query_trapped_wifi : rtkDnsTrapEnter sampleConfig (sampleQuery 0 []) =
    rtkDnsPacketRecap sampleConfig (sampleQuery 0 []) 0x01 .v4 34 := by
  have hplain : PlainQuery (sampleQuery 0 []) 34 sampleQuestion := by
    constructor <;> decide +kernel
  obtain ⟨hiff, henter, -⟩ :=
    plain_query_trapped_iff sampleConfig (sampleQuery 0 []) 34 sampleQuestion hplain rfl (by decide +kernel)
  exact henter (hiff.mpr (by decide +kernel))

/-! ### Other packets -/

/-- The datagram ends inside the packet, by the lengths in the headers. -/
def Skb.Inside (skb : Skb) (u : ℕ) : IpVer → Prop
  | .v4 => skb.ihl * 4 + skb.udpLen u ≤ skb.data.be16 (skb.ip + 2)
  | .v6 => skb.udpLen u ≤ skb.data.be16 (skb.ip + 4)

/-- A DNS query: a datagram to port 53 inside the packet, with a standard header and a question inside the datagram. -/
structure Proper (cfg : Config) (skb : Skb) (v : IpVer) (u : ℕ) : Prop where
  udp : if v = .v4 then u = skb.ip + skb.ihl * 4 ∧ skb.data (skb.ip + 9) = 17 else cfg.ipv6FindUdp skb skb.ip = some u
  port : skb.data.be16 (u + 2) = 53
  inside : skb.Inside u v
  flags : Standard (skb.data.be16 (u + 10))
  qdcount : 1 ≤ skb.data.be16 (u + 12)
  question : (parseQuestion (skb.message u) (skb.messageLen u) 12).isSome

/-- From `pos` on, going from one length byte to the next comes to a zero before `limit`. -/
inductive ZeroBefore (b : Bytes) (limit : ℕ) : ℕ → Prop
  | zero {pos : ℕ} : pos < limit → b pos = 0 → ZeroBefore b limit pos
  | next {pos : ℕ} : b pos ≠ 0 → ZeroBefore b limit (pos + 1 + (b pos).toNat) → ZeroBefore b limit pos

section Others

variable {cfg : Config} {skb : Skb} {v : IpVer} {u : ℕ} {b : Bytes} {len fuel pos next : ℕ} {labels : List Label}

theorem ZeroBefore.lt {limit : ℕ} (h : ZeroBefore b limit pos) : pos < limit := by
  induction h with
  | zero hpos _ => exact hpos
  | next _ _ ih => omega

theorem zeroBefore_of_labels (h : labelsAt b len fuel pos = some (labels, none, next)) (hend : next + 4 ≤ len) :
    ZeroBefore b (len - 4) pos := by
  induction fuel generalizing pos labels with
  | zero => cases h
  | succ fuel ih =>
    obtain ⟨-, ⟨hzero, -, -, rfl⟩ | ⟨-, -, -, hsome, -⟩ | ⟨hlow, -, rest, hrest, -⟩⟩ := labelsAt_cases h
    · exact .zero (by omega) (UInt8.toNat_inj.mp hzero)
    · cases hsome
    · refine .next (fun hzero => ?_) (ih hrest)
      rw [hzero] at hlow
      exact absurd hlow (by decide)

/-- In a short message all labels have a proper length. -/
theorem labels_of_zeroBefore (h : ZeroBefore b (len - 4) pos) (hpos : 12 ≤ pos) (hlen : len ≤ 79) :
    ∃ labels next, labelsAt b len (len - pos) pos = some (labels, none, next) ∧ next + 4 ≤ len := by
  induction h with
  | @zero pos hlt hzero =>
    obtain ⟨fuel, hfuel⟩ : ∃ fuel, len - pos = fuel + 1 := ⟨len - pos - 1, by omega⟩
    have hpos' : ¬len ≤ pos := by omega
    refine ⟨[], pos + 1, ?_, by omega⟩
    simp [hfuel, labelsAt, hzero, hpos']
  | @next pos hne hrest ih =>
    obtain ⟨labels, next, hlabels, hend⟩ := ih (by omega)
    have hlt := hrest.lt
    have hbounds := labelsAt_bounds hlabels
    obtain ⟨fuel, hfuel⟩ : ∃ fuel, len - pos = fuel + 1 := ⟨len - pos - 1, by omega⟩
    have hmore : labelsAt b len fuel (pos + 1 + (b pos).toNat) = some (labels, none, next) :=
      labelsAt_congr hlabels (by omega) (by omega) fun _ _ _ => rfl
    have hpos' : ¬len ≤ pos := by omega
    have hne' : ¬(b pos).toNat = 0 := fun hzero => hne (UInt8.toNat_inj.mp hzero)
    have hsmall : ¬192 ≤ (b pos).toNat := by omega
    have hlabel : ¬64 ≤ (b pos).toNat := by omega
    refine ⟨span b (pos + 1) (b pos).toNat :: labels, next, ?_, hend⟩
    rw [hfuel, labelsAt]
    simp only [if_neg hpos', if_neg hne', if_neg hsmall, if_neg hlabel, hmore, map_some]

theorem question_iff (hlow : 26 ≤ skb.udpLen u) (hhigh : skb.udpLen u ≤ 87) :
    (parseQuestion (skb.message u) (skb.messageLen u) 12).isSome ↔
      ZeroBefore (skb.message u) (skb.messageLen u - 4) 12 := by
  have hlen : skb.messageLen u ≤ 79 := by
    rw [Skb.messageLen]
    omega
  rw [isSome_iff_exists]
  constructor
  · rintro ⟨⟨question, next⟩, hq⟩
    obtain ⟨e, hlabels, hend, -⟩ := parseQuestion_first.mp hq
    exact zeroBefore_of_labels hlabels hend
  · intro h
    obtain ⟨labels, e, hlabels, hend⟩ := labels_of_zeroBefore h le_rfl hlen
    have hmore : labelsAt (skb.message u) (skb.messageLen u) (skb.messageLen u) 12 = some (labels, none, e) :=
      labelsAt_congr hlabels (Nat.sub_le _ 12) (by omega) fun _ _ _ => rfl
    exact ⟨(⟨labels, _, _⟩, e + 4), parseQuestion_first.mpr ⟨e, hmore, hend, rfl, rfl, rfl⟩⟩

theorem findDns_port (h : findDns cfg skb = some (v, u)) : skb.data.be16 (u + 2) = 53 ∧
    if v = .v4 then u = skb.ip + skb.ihl * 4 ∧ skb.data (skb.ip + 9) = 17 else cfg.ipv6FindUdp skb skb.ip = some u := by
  unfold findDns at h
  simp only [] at h
  split_ifs at h with hfour hcheck hsix
  · obtain ⟨rfl, rfl⟩ := Prod.mk.inj (some.inj h)
    exact ⟨hcheck.2.1, rfl, hcheck.1⟩
  · cases hfind : cfg.ipv6FindUdp skb skb.ip with
    | none => simp [hfind] at h
    | some u' =>
      rw [hfind] at h
      simp only [] at h
      split_ifs at h with hport
      obtain ⟨rfl, rfl⟩ := Prod.mk.inj (some.inj h)
      exact ⟨hport, rfl⟩

/-- An answer is built to what is taken, and that is a DNS query just when the lengths agree, the opcode is not 1 and
    the name ends in time. -/
theorem trapped_proper_iff (cfg : Config) (skb : Skb) (v : IpVer) (u : ℕ) (h : Trapped cfg skb v u) :
    rtkDnsTrapEnter cfg skb = rtkDnsPacketRecap cfg skb (skb.type u) v u ∧
      (Proper cfg skb v u ↔ skb.Inside u v ∧ skb.data.be16 (u + 10) / 2048 % 2 = 0 ∧
        ZeroBefore (skb.message u) (skb.messageLen u - 4) 12) := by
  have hquestion := question_iff h.low h.high
  obtain ⟨hport, hudp⟩ := findDns_port h.dns
  obtain ⟨hcount, hflags, hz⟩ := (isValidDnsQueryHeader_iff skb.data (u + 8)).mp h.header
  have hflags : skb.data.be16 (u + 10) < 4096 := hflags
  refine ⟨h.enter, ?_⟩
  constructor
  · intro hp
    have hopcode := hp.flags.2.1
    exact ⟨hp.inside, by omega, hquestion.mp hp.question⟩
  · rintro ⟨hinside, hopcode, hname⟩
    exact ⟨hudp, hport, hinside, ⟨by omega, by omega, hz⟩, hcount, hquestion.mpr hname⟩

end Others

/-- The sample query with another byte. -/
def alteredQuery (i : ℕ) (byte : UInt8) : Skb :=
  { sampleQuery 0 [] with data := fun j => if j = i then byte else (sampleQuery 0 []).data j }

theorem trapped_proper_sample : Proper sampleConfig (sampleQuery 0 []) .v4 34 := by
  have htrapped : Trapped sampleConfig (sampleQuery 0 []) .v4 34 := by
    constructor <;> decide +kernel
  have hname : ZeroBefore ((sampleQuery 0 []).message 34) ((sampleQuery 0 []).messageLen 34 - 4) 12 :=
    .next (by decide +kernel) (.zero (by decide +kernel) (by decide +kernel))
  have hinside : (sampleQuery 0 []).ihl * 4 + (sampleQuery 0 []).udpLen 34 ≤
      (sampleQuery 0 []).data.be16 ((sampleQuery 0 []).ip + 2) := by decide +kernel
  exact (trapped_proper_iff sampleConfig (sampleQuery 0 []) .v4 34 htrapped).2.mpr ⟨hinside, by decide +kernel, hname⟩

/-- An inverse query, and a datagram that is longer than its packet, are answered. -/
theorem others_trapped :
    ((∃ reply, rtkDnsTrapEnter sampleConfig (alteredQuery 44 9) = .sent reply) ∧
      Trapped sampleConfig (alteredQuery 44 9) .v4 34 ∧ ¬Proper sampleConfig (alteredQuery 44 9) .v4 34) ∧
    (∃ reply, rtkDnsTrapEnter sampleConfig (alteredQuery 17 10) = .sent reply) ∧
      Trapped sampleConfig (alteredQuery 17 10) .v4 34 ∧ ¬Proper sampleConfig (alteredQuery 17 10) .v4 34 := by
  refine ⟨⟨Outcome.exists_of_isSent (by decide +kernel), by constructor <;> decide +kernel, fun hp => ?_⟩,
    Outcome.exists_of_isSent (by decide +kernel), by constructor <;> decide +kernel, fun hp => ?_⟩
  · exact absurd hp.flags (by decide +kernel)
  · have hinside : (alteredQuery 17 10).ihl * 4 + (alteredQuery 17 10).udpLen 34 ≤
      (alteredQuery 17 10).data.be16 ((alteredQuery 17 10).ip + 2) := hp.inside
    exact absurd hinside (by decide +kernel)

/-! ### Packets that are given back -/

section Back

variable {cfg : Config} {skb : Skb} {v : IpVer} {u : ℕ}

theorem lanAddress_eq_none (l : List (String × Ipv4)) (found : Option Ipv4) :
    lanAddress l found = none ↔ found = none ∧ ∀ x ∈ l, x.1 ≠ "br0" ∧ x.1 ≠ "br0:0" := by
  induction l generalizing found with
  | nil => simp [lanAddress]
  | cons x l ih =>
    obtain ⟨label, address⟩ := x
    rw [lanAddress]
    split_ifs with hsecond hfirst
    · simp [hsecond]
    · simp [ih, hfirst]
    · simp [ih, hsecond, hfirst]

/-- There is no room, or no address, or the answer is sent. -/
theorem sendAnswer_cases (skb : Skb) (v : IpVer) (u extendLen : ℕ) (br0 : Br0) (template : List UInt8)
    (address : Option (List UInt8)) :
    (skb.size < ethHlen + skb.len + extendLen ∧ sendAnswer skb v u extendLen br0 template address = .undefined) ∨
    (ethHlen + skb.len + extendLen ≤ skb.size ∧ address = none ∧
      ∃ skb', sendAnswer skb v u extendLen br0 template address = .pass skb' ∧ skb'.len = skb.len + extendLen) ∨
    (address ≠ none ∧ ∃ reply, sendAnswer skb v u extendLen br0 template address = .sent reply) := by
  unfold sendAnswer
  split_ifs with hroom
  · exact Or.inl ⟨hroom, rfl⟩
  · cases address with
    | none => exact Or.inr (Or.inl ⟨Nat.not_lt.mp hroom, rfl, _, rfl, rfl⟩)
    | some data => exact Or.inr (Or.inr ⟨nofun, _, rfl⟩)

/-- The router has no IPv4 address to answer with, and the packet is changed before this turns out. -/
def Unaddressed (cfg : Config) (skb : Skb) : Prop :=
  cfg.controller = none ∧ (∃ br0, cfg.br0 = some br0 ∧ ∀ x ∈ br0.ifaList, x.1 ≠ "br0" ∧ x.1 ≠ "br0:0") ∧
    ethHlen + skb.len + extendLenV4 ≤ skb.size

theorem recap_intact_iff {type : ℕ} :
    (∀ skb', rtkDnsPacketRecap cfg skb type v u = .pass skb' → skb' = skb) ↔ ¬(type = 0x01 ∧ Unaddressed cfg skb) := by
  unfold rtkDnsPacketRecap Unaddressed
  cases cfg.br0 with
  | none => simp
  | some br0 =>
    have hlan := lanAddress_eq_none br0.ifaList none
    simp only [some.injEq, exists_eq_left']
    split_ifs with hA hAaaa
    · rcases sendAnswer_cases skb v u extendLenV4 br0 dnsAnswer
        ((cfg.controller.or (lanAddress br0.ifaList none)).map Vector.toList) with
        ⟨hroom, heq⟩ | ⟨hroom, hnone, skb', heq, hlen⟩ | ⟨hsome, reply, heq⟩
      · rw [heq]
        exact iff_of_true nofun fun h => absurd h.2.2.2 (Nat.not_le.mpr hroom)
      · rw [map_eq_none_iff, or_eq_none_iff, hlan] at hnone
        rw [heq]
        refine iff_of_false (fun h => ?_) (not_not.mpr ⟨hA, hnone.1, hnone.2.2, hroom⟩)
        rw [h skb' rfl] at hlen
        exact absurd hlen (by simp [extendLenV4])
      · rw [Ne, map_eq_none_iff, or_eq_none_iff, hlan] at hsome
        rw [heq]
        exact iff_of_true nofun fun h => hsome ⟨h.2.1, rfl, h.2.2.1⟩
    · refine iff_of_true (fun skb' h => ?_) fun h => hA h.1
      rcases sendAnswer_cases skb v u extendLenV6 br0 dnsAnswerV6 (some (br0.addrList.headD br0.strayAddr).toList) with
        ⟨-, heq⟩ | ⟨-, hnone, -⟩ | ⟨-, reply, heq⟩
      · cases heq.symm.trans h
      · cases hnone
      · cases heq.symm.trans h
    · exact iff_of_true (fun skb' h => (Outcome.pass.inj h).symm) fun h => hA h.1

/-- A packet that is not answered is left alone, unless it is a query for an IPv4 address of the router and there is
    none. -/
theorem unanswered_intact_iff (cfg : Config) (skb : Skb) :
    (∀ skb', rtkDnsTrapEnter cfg skb = .pass skb' → skb' = skb) ↔
      ¬∃ v u, Trapped cfg skb v u ∧ skb.type u = 0x01 ∧ Unaddressed cfg skb := by
  rcases rtkDnsTrapEnter_cases cfg skb with ⟨v, u, htrapped, hrecap⟩ | ⟨hnone, hpass⟩
  · rw [hrecap, recap_intact_iff]
    refine not_congr ⟨fun h => ⟨v, u, htrapped, h⟩, ?_⟩
    rintro ⟨v', u', htrapped', h⟩
    obtain ⟨rfl, rfl⟩ := Prod.mk.inj (some.inj (htrapped.dns.symm.trans htrapped'.dns))
    exact h
  · rw [hpass]
    refine iff_of_true (fun skb' h => (Outcome.pass.inj h).symm) ?_
    rintro ⟨v, u, htrapped, -⟩
    exact hnone v u htrapped

end Back

/-- `br0` has no address. -/
def unaddressedConfig : Config :=
  { sampleConfig with br0 := some ⟨Vector.replicate 6 2, [], [], Vector.replicate 16 0⟩ }

theorem unanswered_changed : ∃ skb', rtkDnsTrapEnter unaddressedConfig (sampleQuery 0 []) = .pass skb' ∧
    skb' ≠ sampleQuery 0 [] := by
  have htrapped : Trapped unaddressedConfig (sampleQuery 0 []) .v4 34 := by
    constructor <;> decide +kernel
  rw [htrapped.enter]
  by_contra hno
  refine recap_intact_iff.mp (fun skb' h => by_contra fun hne => hno ⟨skb', h, hne⟩) ⟨by decide +kernel, rfl, ?_⟩
  exact ⟨⟨_, rfl, nofun⟩, by decide +kernel⟩

end PhoebusBsp.Dns

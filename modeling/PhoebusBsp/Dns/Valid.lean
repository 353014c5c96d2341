import PhoebusBsp.Dns.Message
import PhoebusBsp.Dns.Reply

/-! When the answer is a valid one. The record is put behind whatever the query contains, and the counts are
    set to one question and one answer, so that a receiver reads

        │ question │ record │                       and is at the end of the message, or
        │ question │ other sections ... │ record │  and takes the other sections for the answer. -/

namespace PhoebusBsp.Dns
open Schemes Bytes Option

/-! ### Valid answers and plain queries -/

/-- The DNS message of a packet, and its length. -/
def Skb.message (skb : Skb) (u : ℕ) : Bytes := fun i => skb.data (u + 8 + i)

def Skb.messageLen (skb : Skb) (u : ℕ) : ℕ := skb.udpLen u - 8

/-- The length in the IP header counts from here. -/
def IpVer.lenBase : IpVer → ℕ
  | .v4 => 0
  | .v6 => 40

/-- The address of `br0` that the answer is to have: that of `br0:0`, if there is one. -/
def lanV4 (cfg : Config) : Option Ipv4 := cfg.br0.bind fun br0 => lanAddress br0.ifaList none

/-- The first address in `addr_list`. -/
def lanV6 (cfg : Config) : Option Ipv6 := cfg.br0.bind fun br0 => br0.addrList.head?

/-- The address of the LAN side as the data of a record. -/
def lanData (cfg : Config) (type : ℕ) : Option (List UInt8) :=
  if type = 0x01 then (lanV4 cfg).map Vector.toList
  else if type = 0x1c then (lanV6 cfg).map Vector.toList
  else none

/-- The packet is a valid answer to the query, which has its UDP header at `u`. -/
structure ValidReply (cfg : Config) (v : IpVer) (u : ℕ) (query reply : Skb) : Prop where
  saddr : ∀ k < v.addrLen, reply.data (query.ip + v.saddr + k) = query.data (query.ip + v.daddr + k)
  daddr : ∀ k < v.addrLen, reply.data (query.ip + v.daddr + k) = query.data (query.ip + v.saddr + k)
  source : reply.data.be16 u = query.data.be16 (u + 2)
  dest : reply.data.be16 (u + 2) = query.data.be16 u
  ipLen : reply.data.be16 (query.ip + v.lenField) + v.lenBase = u - query.ip + reply.udpLen u
  frameLen : reply.len = u + reply.udpLen u
  ipCheck : v = .v4 → fold (wordSum reply.data query.ip (reply.ihl * 4)) = 65535
  udpCheck : fold (udpSum reply.data v query.ip u) = 65535
  /-- No checksum at all is not allowed in IPv6. -/
  udpCheckUsed : v = .v6 → reply.data.be16 (u + 6) ≠ 0
  message : ∃ question next flags record,
    parseQuestion (query.message u) (query.messageLen u) 12 = some (question, next) ∧
    parseMessage (reply.message u) (reply.messageLen u) =
      some ⟨query.data.be16 (u + 8), flags, [question], [record], [], []⟩ ∧
    flags.testBit 15 ∧ record.name = question.name ∧ record.type = question.type ∧
    lanData cfg question.type = some record.data

/-- The record in front of its data. -/
def template (type : ℕ) : List UInt8 := if type = 0x01 then dnsAnswer else dnsAnswerV6

/-- How much longer the answer is. -/
def extendLen (type : ℕ) : ℕ := if type = 0x01 then extendLenV4 else extendLenV6

/-- The query is one question and nothing else, in a packet whose lengths agree. -/
structure Plain (cfg : Config) (v : IpVer) (u : ℕ) (query : Skb) (question : Question) : Prop where
  one : parseQuestion (query.message u) (query.messageLen u) 12 = some (question, query.messageLen u)
  ihl : v = .v4 → 5 ≤ query.ihl
  ipLen : query.data.be16 (query.ip + v.lenField) + v.lenBase = u - query.ip + query.udpLen u
  fits : query.data.be16 (query.ip + v.lenField) + extendLen question.type < 65536
  frameLen : ethHlen + query.len = u + query.udpLen u
  /-- A controller that is used for the answer is the router itself. -/
  controller : question.type = 0x01 → ∀ address, cfg.controller = some address → lanV4 cfg = some address
  /-- There is an IPv6 address to answer with. -/
  address : question.type = 0x1c → lanV6 cfg ≠ none
  /-- The words of the answer do not add up to zero. -/
  sum : v = .v6 → ∀ data, lanData cfg question.type = some data →
    ¬65535 ∣ replySum query.data v query.ip u (extendLen question.type) (template question.type ++ data)

/-! ### What is sent -/

section Sent

variable {cfg : Config} {query reply : Skb} {v : IpVer} {u : ℕ}

/-- The type that the code goes by. -/
def Skb.type (skb : Skb) (u : ℕ) : ℕ := (getDomainName (fun i => skb.data (u + 20 + i)) (skb.udpLen u - 24)).1

/-- The name that the code goes by, and those that it answers for. -/
def Skb.name (skb : Skb) (u : ℕ) : List UInt8 :=
  (getDomainName (fun i => skb.data (u + 20 + i)) (skb.udpLen u - 24)).2

/-- The names that the router answers for. -/
def Config.names (cfg : Config) : List (List UInt8) := cfg.domainName :: cfg.extraDomainName.toList

/-- The query is one that `rtk_dns_packet_recap` is called for. -/
structure Trapped (cfg : Config) (skb : Skb) (v : IpVer) (u : ℕ) : Prop where
  dns : findDns cfg skb = some (v, u)
  low : 26 ≤ skb.udpLen u
  high : skb.udpLen u ≤ 87
  header : isValidDnsQueryHeader skb.data (u + 8) = true
  type : skb.type u = 0x01 ∨ skb.type u = 0x1c
  name : cfg.trapAll = true ∨ ∃ name ∈ cfg.names, isDomainNameEqual (skb.name u) name = true

/-- What is not trapped passes. -/
theorem rtkDnsTrapEnter_cases (cfg : Config) (skb : Skb) :
    (∃ v u, Trapped cfg skb v u ∧ rtkDnsTrapEnter cfg skb = rtkDnsPacketRecap cfg skb (skb.type u) v u) ∨
      (∀ v u, ¬Trapped cfg skb v u) ∧ rtkDnsTrapEnter cfg skb = .pass skb := by
  unfold rtkDnsTrapEnter
  cases hdns : findDns cfg skb with
  | none => exact Or.inr ⟨fun v u h => (nomatch hdns.symm.trans h.dns), rfl⟩
  | some x =>
    obtain ⟨v, u⟩ := x
    have hlen : ((skb.udpLen u : Int) - 8 - 12 - 4).toNat = skb.udpLen u - 24 := by omega
    have hnone : ¬Trapped cfg skb v u → ∀ v' u', ¬Trapped cfg skb v' u' := by
      intro hnot v' u' h
      obtain ⟨rfl, rfl⟩ := Prod.mk.inj (some.inj (hdns.symm.trans h.dns))
      exact hnot h
    have hname : (isDomainNameEqual (skb.name u) cfg.domainName ||
        cfg.extraDomainName.any (isDomainNameEqual (skb.name u))) = true ↔
        ∃ name ∈ cfg.names, isDomainNameEqual (skb.name u) name = true := by
      cases hextra : cfg.extraDomainName <;> simp [Config.names, hextra]
    simp only [hlen]
    split_ifs with hrange hheader htype htrap hequal
    · refine Or.inr ⟨hnone fun h => ?_, rfl⟩
      have hlow := h.low
      have hhigh := h.high
      omega
    · exact Or.inr ⟨hnone fun h => by simp [h.header] at hheader, rfl⟩
    · exact Or.inr ⟨hnone fun h => h.type.elim htype.1 htype.2, rfl⟩
    · have htypes := (not_and_or.mp htype).imp not_not.mp not_not.mp
      exact Or.inl ⟨v, u, ⟨hdns, by omega, by omega, by simpa using hheader, htypes, Or.inl htrap⟩, rfl⟩
    · have htypes := (not_and_or.mp htype).imp not_not.mp not_not.mp
      exact Or.inl ⟨v, u, ⟨hdns, by omega, by omega, by simpa using hheader, htypes, Or.inr (hname.mp hequal)⟩, rfl⟩
    · exact Or.inr ⟨hnone fun h => h.name.elim htrap fun h => hequal (hname.mpr h), rfl⟩

/-- What the code puts into the record. -/
def answerData (cfg : Config) (type : ℕ) : Option (List UInt8) :=
  if type = 0x01 then (cfg.controller.or (lanV4 cfg)).map Vector.toList
  else cfg.br0.map fun br0 => (br0.addrList.headD br0.strayAddr).toList

theorem length_answerData {type : ℕ} {data : List UInt8} (h : answerData cfg type = some data) :
    (template type ++ data).length = extendLen type := by
  unfold answerData at h
  unfold template extendLen
  split_ifs at h ⊢ with htype
  all_goals
    obtain ⟨address, -, rfl⟩ := map_eq_some_iff.mp h
    rw [List.length_append, Vector.length_toList]
    rfl

theorem extendLen_le (type : ℕ) : extendLen type ≤ 28 := by
  unfold extendLen
  split_ifs <;> decide

theorem length_template (type : ℕ) : (template type).length = 12 := by
  unfold template
  split_ifs <;> rfl

theorem sendAnswer_sent {template : List UInt8} {extendLen : ℕ} {br0 : Br0} {address : Option (List UInt8)}
    (h : sendAnswer query v u extendLen br0 template address = .sent reply) :
    ∃ data, address = some data ∧ reply.vlan = query.vlan ∧ reply.len = query.len + extendLen + ethHlen ∧
      reply.data = putChecksums (putList (putList (turnAround query.data v query.ip u extendLen br0.devAddr)
        (u + query.udpLen u) template) (u + query.udpLen u + 12) data) v query.ip u := by
  unfold sendAnswer at h
  split_ifs at h
  cases address with
  | none => cases h
  | some data =>
    obtain rfl := Outcome.sent.inj h
    exact ⟨data, rfl, rfl, rfl, rfl⟩

/-- The answer is sent by `sendAnswer`. -/
theorem rtkDnsPacketRecap_sent {type : ℕ} (h : rtkDnsPacketRecap cfg query type v u = .sent reply) :
    ∃ br0 : Br0, sendAnswer query v u (extendLen type) br0 (template type) (answerData cfg type) = .sent reply := by
  unfold rtkDnsPacketRecap at h
  cases hbr0 : cfg.br0 with
  | none => rw [hbr0] at h; cases h
  | some br0 =>
    rw [hbr0] at h
    simp only [] at h
    split_ifs at h with hA hAaaa
    · subst hA
      refine ⟨br0, ?_⟩
      simpa [extendLen, template, answerData, lanV4, hbr0] using h
    · subst hAaaa
      refine ⟨br0, ?_⟩
      simpa [extendLen, template, answerData, hbr0] using h

theorem Trapped.enter (h : Trapped cfg query v u) :
    rtkDnsTrapEnter cfg query = rtkDnsPacketRecap cfg query (query.type u) v u := by
  rcases rtkDnsTrapEnter_cases cfg query with ⟨v', u', htrapped, hrecap⟩ | ⟨hnone, -⟩
  · obtain ⟨rfl, rfl⟩ := Prod.mk.inj (some.inj (h.dns.symm.trans htrapped.dns))
    exact hrecap
  · exact absurd h (hnone v u)

theorem enter_of_not_trapped (hdns : findDns cfg query = some (v, u)) (h : ¬Trapped cfg query v u) :
    rtkDnsTrapEnter cfg query = .pass query := by
  rcases rtkDnsTrapEnter_cases cfg query with ⟨v', u', htrapped, -⟩ | ⟨-, hpass⟩
  · obtain ⟨rfl, rfl⟩ := Prod.mk.inj (some.inj (hdns.symm.trans htrapped.dns))
    exact absurd htrapped h
  · exact hpass

theorem rtkDnsTrapEnter_sent (hdns : findDns cfg query = some (v, u)) (h : rtkDnsTrapEnter cfg query = .sent reply) :
    Trapped cfg query v u ∧ rtkDnsPacketRecap cfg query (query.type u) v u = .sent reply := by
  by_cases htrapped : Trapped cfg query v u
  · exact ⟨htrapped, htrapped.enter.symm.trans h⟩
  · cases (enter_of_not_trapped hdns htrapped).symm.trans h

theorem findDns_behind (hdns : findDns cfg query = some (v, u)) (hihl : v = .v4 → 5 ≤ query.ihl) :
    query.ip + v.hdrLen ≤ u ∧ (v = .v4 → u = query.ip + query.ihl * 4) := by
  unfold findDns at hdns
  simp only [] at hdns
  split_ifs at hdns
  · obtain ⟨rfl, rfl⟩ := Prod.mk.inj (some.inj hdns)
    have := hihl rfl
    exact ⟨by simp only [IpVer.hdrLen]; omega, fun _ => rfl⟩
  · cases hfind : cfg.ipv6FindUdp query query.ip with
    | none => rw [hfind] at hdns; cases hdns
    | some u' =>
      rw [hfind] at hdns
      simp only [] at hdns
      split_ifs at hdns
      obtain ⟨rfl, rfl⟩ := Prod.mk.inj (some.inj hdns)
      exact ⟨cfg.behind _ _ _ hfind, nofun⟩

/-- Everything about the packet that is sent. -/
structure Sent (cfg : Config) (v : IpVer) (u : ℕ) (query reply : Skb) (data : List UInt8) : Prop where
  behind : query.ip + v.hdrLen ≤ u
  ihl : v = .v4 → u = query.ip + query.ihl * 4
  low : 26 ≤ query.udpLen u
  high : query.udpLen u ≤ 87
  type : query.type u = 0x01 ∨ query.type u = 0x1c
  answer : answerData cfg (query.type u) = some data
  vlan : reply.vlan = query.vlan
  len : reply.len = query.len + extendLen (query.type u) + ethHlen
  packet : ∃ b, Answered query.data b v query.ip u (extendLen (query.type u)) (template (query.type u) ++ data) ∧
    reply.data = putChecksums b v query.ip u

theorem sent_of_enter (hdns : findDns cfg query = some (v, u)) (hihl : v = .v4 → 5 ≤ query.ihl)
    (h : rtkDnsTrapEnter cfg query = .sent reply) : ∃ data, Sent cfg v u query reply data := by
  obtain ⟨htrapped, hrecap⟩ := rtkDnsTrapEnter_sent hdns h
  obtain ⟨br0, hsend⟩ := rtkDnsPacketRecap_sent hrecap
  have hlow := htrapped.low
  obtain ⟨data, hdata, hvlan, hlen, hreply⟩ := sendAnswer_sent hsend
  obtain ⟨hbehind, hu⟩ := findDns_behind hdns hihl
  have hip : 14 ≤ query.ip := Nat.le_add_right _ _
  refine ⟨data, hbehind, hu, hlow, htrapped.high, htrapped.type, hdata, hvlan, hlen, _, ?_, hreply⟩
  exact answered_putList query.data v br0.devAddr hip hbehind (show 20 ≤ query.udpLen u by omega) (length_template _)

variable {data : List UInt8}

namespace Sent

variable (h : Sent cfg v u query reply data)

include h

theorem answered : Answered query.data reply.data v query.ip u (extendLen (query.type u))
    (template (query.type u) ++ data) := by
  obtain ⟨b, hb, hreply⟩ := h.packet
  rw [hreply]
  exact hb.putChecksums h.behind (show 20 ≤ query.udpLen u by have := h.low; omega)

theorem udpLen_reply : reply.udpLen u = query.udpLen u + extendLen (query.type u) := by
  have hlen := extendLen_le (query.type u)
  have hhigh := h.high
  refine h.answered.turned.udpLen.trans (Nat.mod_eq_of_lt ?_)
  rw [Skb.udpLen] at hhigh
  omega

/-- The lengths in the headers agree if they did before. -/
theorem ipLen_iff : reply.data.be16 (query.ip + v.lenField) + v.lenBase = u - query.ip + reply.udpLen u ↔
    query.data.be16 (query.ip + v.lenField) + v.lenBase = u - query.ip + query.udpLen u ∧
      query.data.be16 (query.ip + v.lenField) + extendLen (query.type u) < 65536 := by
  have hlt := be16_lt query.data (query.ip + v.lenField)
  have hbase : v.lenBase ≤ u - query.ip := by
    have hbehind := h.behind
    cases v with
    | v4 => exact Nat.zero_le _
    | v6 => exact Nat.le_sub_of_add_le' hbehind
  have hlow := h.low
  have hlen := extendLen_le (query.type u)
  rw [h.udpLen_reply, h.answered.turned.len]
  omega

theorem frameLen_iff : reply.len = u + reply.udpLen u ↔ ethHlen + query.len = u + query.udpLen u := by
  rw [h.len, h.udpLen_reply]
  omega

theorem ipCheck (hihl : v = .v4 → 5 ≤ query.ihl) (hv : v = .v4) :
    fold (wordSum reply.data query.ip (reply.ihl * 4)) = 65535 := by
  subst hv
  obtain ⟨b, hb, hreply⟩ := h.packet
  have hfirst : (b query.ip).toNat % 16 = query.ihl := by
    rw [hb.turned.first]
    rfl
  have hreplyIhl : reply.ihl = query.ihl := by
    have hip : reply.ip = query.ip := by rw [Skb.ip, Skb.ip, h.vlan]
    rw [Skb.ihl, hip, h.answered.turned.first]
    rfl
  have hsum := fold_ipSum b (by rw [hfirst]; exact hihl rfl) (by rw [hfirst, h.ihl rfl] : query.ip + _ ≤ u)
  rwa [hfirst, ← hreply, ← hreplyIhl] at hsum

theorem udpCheck : fold (udpSum reply.data v query.ip u) = 65535 := by
  obtain ⟨b, hb, hreply⟩ := h.packet
  have hlow := h.low
  have hlen : 8 ≤ b.be16 (u + 4) := by
    rw [hb.turned.udpLen, ← h.answered.turned.udpLen]
    exact (show 8 ≤ reply.udpLen u by rw [h.udpLen_reply]; omega)
  rw [hreply]
  exact fold_udpSum b h.behind hlen

theorem udpCheck_ne_zero : reply.data.be16 (u + 6) ≠ 0 ↔
    ¬65535 ∣ replySum query.data v query.ip u (extendLen (query.type u)) (template (query.type u) ++ data) := by
  obtain ⟨b, hb, hreply⟩ := h.packet
  have hlow := h.low
  have hhigh := h.high
  have hlen := extendLen_le (query.type u)
  rw [Skb.udpLen] at hlow hhigh
  have hb' : Answered query.data (beforeUdpCheck b v query.ip u) v query.ip u _ _ :=
    hb.congr h.behind (by omega) fun j hip hudp => beforeUdpCheck_of_notMem b hip hudp
  have hsum := hb'.udpSum_eq (be16_putBe16 ..) (by omega) (length_answerData h.answer) (by omega)
  have hpos : 0 < replySum query.data v query.ip u (extendLen (query.type u)) (template (query.type u) ++ data) := by
    simp only [replySum]
    omega
  rw [hreply, be16_udpCheck, hsum, ne_eq, inetCheck_eq_zero hpos]

/-- The message of the answer, where it is not the query's. -/
theorem message_reply : reply.messageLen u = query.messageLen u + extendLen (query.type u) ∧
    (∀ i, 12 ≤ i → i < query.messageLen u → reply.message u i = query.message u i) ∧
    (reply.message u).Holds (query.messageLen u) (template (query.type u) ++ data) := by
  have hlow := h.low
  have ha := h.answered
  refine ⟨?_, fun i hi hlt => ?_, fun i x hi => ?_⟩
  · rw [Skb.messageLen, Skb.messageLen, h.udpLen_reply]
    omega
  · rw [Skb.messageLen, Skb.udpLen] at hlt
    exact ha.body _ (by omega) (by omega)
  · have hrecord := ha.record i x hi
    rw [Skb.udpLen] at hlow
    rwa [Skb.message, Skb.messageLen, Skb.udpLen, ← Nat.add_assoc,
      show u + 8 + (query.data.be16 (u + 4) - 8) = u + query.data.be16 (u + 4) by omega]

theorem counts_reply : (reply.message u).be16 0 = query.data.be16 (u + 8) ∧ (reply.message u).be16 2 = 0x8180 ∧
    (reply.message u).be16 4 = 1 ∧ (reply.message u).be16 6 = 1 ∧ (reply.message u).be16 8 = 0 ∧
    (reply.message u).be16 10 = 0 := by
  have ht := h.answered.turned
  exact ⟨ht.id, ht.flags, ht.qdcount, ht.ancount, ht.nscount, ht.arcount⟩

end Sent

/-! ### The record -/

/-- The head of the record as a receiver reads it. -/
theorem template_read {b : Bytes} {off type : ℕ} (htype : type = 0x01 ∨ type = 0x1c) (h : b.Holds off (template type)) :
    (b off).toNat = 192 ∧ (b (off + 1)).toNat = 12 ∧ b.be16 (off + 2) = type ∧
      b.be16 (off + 10) + 12 = extendLen type := by
  have hget : ∀ i x, (template type)[i]? = some x → b (off + i) = x := h
  rcases htype with rfl | rfl
  · have h₀ := hget 0 0xC0 rfl
    rw [Nat.add_zero] at h₀
    simp only [Bytes.be16, Nat.add_assoc, Nat.reduceAdd, h₀, hget 1 0x0C rfl, hget 2 0 rfl, hget 3 1 rfl, hget 10 0 rfl,
      hget 11 4 rfl]
    decide
  · have h₀ := hget 0 0xC0 rfl
    rw [Nat.add_zero] at h₀
    simp only [Bytes.be16, Nat.add_assoc, Nat.reduceAdd, h₀, hget 1 0x0C rfl, hget 2 0 rfl, hget 3 0x1C rfl,
      hget 10 0 rfl, hget 11 0x10 rfl]
    decide

end Sent

section Record

variable {b : Bytes} {len type e : ℕ} {data : List UInt8} {question : Question}

/-- Right behind the question, the record is the answer to it. -/
theorem parseRecord_template (htype : type = 0x01 ∨ type = 0x1c)
    (hdata : (template type ++ data).length = extendLen type)
    (hq : parseQuestion b (len + extendLen type) 12 = some (question, len)) (hb : b.Holds len (template type ++ data)) :
    ∃ record, parseRecord b (len + extendLen type) len = some (record, len + extendLen type) ∧
      record.name = question.name ∧ record.type = type ∧ record.data = data := by
  obtain ⟨hhead, htail⟩ := holds_append.mp hb
  obtain ⟨h₀, h₁, h₂, h₁₀⟩ := template_read htype hhead
  rw [List.length_append, length_template] at hdata
  rw [length_template] at htail
  obtain ⟨e, hlabels, -, rfl, -, -⟩ := parseQuestion_first.mp hq
  have hbounds := labelsAt_bounds hlabels
  set len' := e + 4 + extendLen type with hlen'
  have hpointer : labelsAt b len' len' (e + 4) = some ([], some 12, e + 4 + 2) := by
    obtain ⟨k, hk⟩ : ∃ k, len' = k + 1 := ⟨len' - 1, by omega⟩
    have hin : ¬len' ≤ e + 4 := by omega
    have hin' : ¬len' ≤ e + 4 + 1 := by omega
    rw [hk, labelsAt, ← hk]
    simp only [h₀, h₁, if_neg hin, if_neg hin']
    rfl
  have hname : nameAt b len' len' (e + 4) = some (question.name, e + 4 + 2) := by
    obtain ⟨k, hk⟩ : ∃ k, len' = k + 2 := ⟨len' - 2, by omega⟩
    have hback : 12 ≤ 12 ∧ 12 < e + 4 := by omega
    have hrest : nameAt b len' (k + 1) 12 = some (question.name, e) := nameAt_of_labels hlabels (Nat.succ_pos k)
    have hstep : nameAt b len' (k + 1 + 1) (e + 4) = some (question.name, e + 4 + 2) := by
      rw [nameAt]
      simp only [hpointer, bind_eq_bind, bind_some, if_pos hback, hrest, List.nil_append]
    rwa [show k + 1 + 1 = len' by omega] at hstep
  have hsize : b.be16 (e + 4 + 2 + 8) = data.length := by
    have h₁₀' : b.be16 (e + 4 + 2 + 8) + 12 = extendLen type := h₁₀
    omega
  have hfits : e + 4 + 2 + 10 + data.length ≤ len' := by omega
  have hspan : span b (e + 4 + 2 + 10) data.length = data := span_of_holds htail
  refine ⟨⟨question.name, b.be16 (e + 4 + 2), b.be16 (e + 4 + 2 + 2),
    b.be16 (e + 4 + 2 + 4) * 65536 + b.be16 (e + 4 + 2 + 6), data⟩, ?_, rfl, h₂, rfl⟩
  rw [parseRecord, hname]
  simp only [bind_eq_bind, bind_some, hsize, if_pos hfits, hspan]
  rw [show e + 4 + 2 + 10 + data.length = len' by omega]

/-- A record that is read to the end of the message starts right behind the query. -/
theorem parseRecord_end (htype : type = 0x01 ∨ type = 0x1c) {record : Record}
    (hq : parseQuestion b (len + extendLen type) 12 = some (question, e)) (he : e ≤ len)
    (hb : b.Holds len (template type))
    (hr : parseRecord b (len + extendLen type) e = some (record, len + extendLen type))
    (hname : record.name = question.name) (hdata : record.data.length + 12 = extendLen type) : e = len := by
  obtain ⟨h₀, h₁, -, -⟩ := template_read htype hb
  obtain ⟨p, hnameAt, hend, -, -, -⟩ := parseRecord_eq hr
  obtain ⟨q, hlabels, -, rfl, -, -⟩ := parseQuestion_first.mp hq
  set len' := len + extendLen type with hlen'
  have hp : p = len + 2 := by omega
  obtain ⟨fuel, hfuel⟩ : ∃ fuel, len' = fuel + 1 := ⟨len' - 1, by omega⟩
  cases hrow : labelsAt b len' len' (q + 4) with
  | none =>
    rw [hfuel, nameAt, ← hfuel, hrow] at hnameAt
    cases hnameAt
  | some x =>
    obtain ⟨labels, pointer, next⟩ := x
    cases pointer with
    | none =>
      -- the last byte of the name is that of a pointer
      have hname' := nameAt_of_labels hrow (show 0 < len' by omega)
      rw [hnameAt] at hname'
      obtain ⟨-, hnext⟩ := Prod.mk.inj (some.inj hname')
      have hzero := (labelsAt_zero hrow).2
      rw [← hnext, hp, show len + 2 - 1 = len + 1 by omega, h₁] at hzero
      exact absurd hzero (by decide)
    | some t =>
      obtain ⟨hnext, fuel', rest, hrest, hcat⟩ := nameAt_pointer hrow hnameAt
      obtain ⟨-, -, ht, hempty⟩ := labelsAt_pointer hrow
      rw [← hnext, hp, show len + 2 - 2 = len by omega, show len + 2 - 1 = len + 1 by omega, h₀, h₁] at ht
      obtain rfl : t = 12 := ht
      -- the name goes on with that of the question
      obtain ⟨⟨rest', m⟩, hrest', rfl⟩ := map_eq_some_iff.mp hrest
      have hsame := nameAt_first hrest'
      rw [hlabels] at hsame
      obtain ⟨hsame, -⟩ := Prod.mk.inj (some.inj hsame)
      have hnil : labels = [] := by
        rw [hname, ← hsame] at hcat
        exact List.self_eq_append_left.mp hcat
      have := hempty hnil
      omega

/-- What the loop of the code makes of a label. -/
def addLabel (domain label : List UInt8) : List UInt8 :=
  let token := label.takeWhile (· ≠ 0)
  if domain = [] then token
  else
    let domain := strncat domain [0x2e] (128 - domain.length - 1)
    strncat domain token (128 - domain.length - 1)

/-- The loop stops at the end of the name. -/
theorem domainLoop_labels {fuel fuel' bodyLen : ℕ} {labels : List Label} (offset : ℕ) (domain : List UInt8)
    (h : labelsAt b len fuel (12 + offset) = some (labels, none, e)) (hend : e ≤ 12 + offset + bodyLen)
    (hfuel : bodyLen ≤ fuel') :
    (domainLoop (fun i => b (12 + i)) fuel' offset bodyLen domain).1 + 13 = e ∧
      (domainLoop (fun i => b (12 + i)) fuel' offset bodyLen domain).2 = labels.foldl addLabel domain := by
  induction fuel generalizing fuel' offset bodyLen labels domain with
  | zero => cases h
  | succ fuel ih =>
    have hbounds := labelsAt_bounds h
    obtain ⟨fuel', rfl⟩ : ∃ k, fuel' = k + 1 := ⟨fuel' - 1, by omega⟩
    have hpos : 0 < bodyLen := by omega
    obtain ⟨-, ⟨hzero, rfl, -, rfl⟩ | ⟨-, -, -, hsome, -⟩ | ⟨hlow, hhigh, rest, hrest, rfl⟩⟩ := labelsAt_cases h
    · have hstop : ¬(0 < (b (12 + offset)).toNat ∧ (b (12 + offset)).toNat ≤ bodyLen) := by omega
      simp only [domainLoop, if_pos hpos, if_neg hstop]
      exact ⟨by omega, rfl⟩
    · cases hsome
    · have hbounds' := labelsAt_bounds hrest
      have hgo : 0 < (b (12 + offset)).toNat ∧ (b (12 + offset)).toNat ≤ bodyLen := by omega
      have hrest' : labelsAt b len fuel (12 + (offset + ((b (12 + offset)).toNat + 1))) = some (rest, none, e) := by
        rw [← hrest]
        congr 1
        omega
      have hlabel : (List.range (b (12 + offset)).toNat).map (fun i => b (12 + (offset + 1 + i))) =
          span b (12 + offset + 1) (b (12 + offset)).toNat := by simp only [span, Nat.add_assoc]
      simp only [domainLoop, if_pos hpos, if_pos hgo, hlabel]
      exact ih _ _ hrest' (by omega) (by omega)

end Record

/-! ### Valid answers -/

section Valid

variable {cfg : Config} {query reply : Skb} {v : IpVer} {u : ℕ} {data : List UInt8} {question : Question}

/-- The code reads the question. -/
theorem getDomainName_eq (hlow : 26 ≤ query.udpLen u) {next : ℕ}
    (hq : parseQuestion (query.message u) (query.messageLen u) 12 = some (question, next)) :
    getDomainName (fun i => query.data (u + 20 + i)) (query.udpLen u - 24) =
      (question.type, question.name.foldl addLabel []) := by
  obtain ⟨e, hlabels, hend, -, htype, -⟩ := parseQuestion_first.mp hq
  have hbody : (fun i => query.data (u + 20 + i)) = fun i => query.message u (12 + i) := by
    funext i
    rw [Skb.message]
    congr 1
    omega
  have hbodyLen : e ≤ 12 + 0 + (query.udpLen u - 24) := by
    rw [Skb.messageLen] at hend
    omega
  obtain ⟨hstop, hname⟩ := domainLoop_labels 0 [] hlabels hbodyLen le_rfl
  rw [hbody, htype, getDomainName, hname]
  set stop := (domainLoop (fun i => query.message u (12 + i)) (query.udpLen u - 24) 0 (query.udpLen u - 24) []).1
  have hplace : e = 12 + (stop + 1) := by omega
  rw [hplace]
  rfl

/-- The code goes by the type that was asked for. -/
theorem type_eq (h : Sent cfg v u query reply data) {next : ℕ}
    (hq : parseQuestion (query.message u) (query.messageLen u) 12 = some (question, next)) :
    query.type u = question.type := congrArg Prod.fst (getDomainName_eq h.low hq)

/-- When the code puts the address of the LAN side into the record. -/
theorem answerData_eq_lanData (htype : question.type = 0x01 ∨ question.type = 0x1c)
    (hdata : answerData cfg question.type = some data) :
    lanData cfg question.type = some data ↔
      (question.type = 0x01 → ∀ address, cfg.controller = some address → lanV4 cfg = some address) ∧
        (question.type = 0x1c → lanV6 cfg ≠ none) := by
  unfold answerData at hdata
  unfold lanData
  rcases htype with htype | htype
  · simp only [htype, if_true] at hdata ⊢
    cases hcontroller : cfg.controller with
    | none =>
      rw [hcontroller, none_or] at hdata
      simp [hdata]
    | some address =>
      rw [hcontroller, some_or, map_some, some.injEq] at hdata
      subst hdata
      constructor
      · refine fun h => ⟨fun _ a ha => ?_, fun h => absurd h (by decide)⟩
        obtain ⟨a', ha', heq⟩ := map_eq_some_iff.mp h
        rw [ha', Vector.toList_inj.mp heq]
        exact ha
      · intro h
        rw [h.1 trivial address rfl, map_some]
  · obtain ⟨br0, hbr0, rfl⟩ := map_eq_some_iff.mp (htype ▸ hdata : cfg.br0.map _ = some data)
    cases haddr : br0.addrList <;> simp [htype, lanV6, hbr0, haddr]

theorem validReply_of_plain (h : Sent cfg v u query reply data) (hp : Plain cfg v u query question) :
    ValidReply cfg v u query reply := by
  have htype := type_eq h hp.one
  have htypes := h.type
  have hanswer := h.answer
  have hlength := length_answerData hanswer
  obtain ⟨hlen, hbody, hrecord⟩ := h.message_reply
  obtain ⟨hid, hflags, hqd, han, hns, har⟩ := h.counts_reply
  rw [htype] at htypes hanswer hlength hlen hrecord
  have hlan := (answerData_eq_lanData htypes hanswer).mpr ⟨hp.controller, hp.address⟩
  have hq : parseQuestion (reply.message u) (reply.messageLen u) 12 = some (question, query.messageLen u) :=
    parseQuestion_congr hp.one (by omega) hbody
  have hq' := hq
  rw [hlen] at hq'
  obtain ⟨record, hparse, hname, hrtype, hrdata⟩ := parseRecord_template htypes hlength hq' hrecord
  rw [← hlen] at hparse
  have ht := h.answered.turned
  refine ⟨ht.saddr, ht.daddr, ht.source, ht.dest, h.ipLen_iff.mpr ⟨hp.ipLen, htype ▸ hp.fits⟩,
    h.frameLen_iff.mpr hp.frameLen, h.ipCheck hp.ihl, h.udpCheck, fun hv => h.udpCheck_ne_zero.mpr ?_, ?_⟩
  · rw [htype]
    exact hp.sum hv data hlan
  · refine ⟨question, _, 0x8180, record, hp.one, ?_, by decide, hname, hrtype, hrdata ▸ hlan⟩
    exact (parseMessage_one hqd han hns har hq).mpr ⟨hparse, hid, hflags⟩

theorem plain_of_validReply (h : Sent cfg v u query reply data) (hihl : v = .v4 → 5 ≤ query.ihl)
    (hv : ValidReply cfg v u query reply) : ∃ question, Plain cfg v u query question := by
  obtain ⟨question, e, flags, record, hq, hmessage, -, hname, hrtype, hlan⟩ := hv.message
  have htype := type_eq h hq
  have htypes := h.type
  have hanswer := h.answer
  obtain ⟨hlen, hbody, hrecord⟩ := h.message_reply
  obtain ⟨-, -, hqd, han, hns, har⟩ := h.counts_reply
  rw [htype] at htypes hanswer hlen hrecord
  have he : e ≤ query.messageLen u := by
    obtain ⟨k, -, hle, rfl, -, -⟩ := parseQuestion_first.mp hq
    exact hle
  have hq' : parseQuestion (reply.message u) (reply.messageLen u) 12 = some (question, e) :=
    parseQuestion_congr hq (by omega) hbody
  obtain ⟨hparse, -, -⟩ := (parseMessage_one hqd han hns har hq').mp hmessage
  -- the record that is read has the length of an address
  have hdata : record.data.length + 12 = extendLen question.type := by
    unfold lanData at hlan
    unfold extendLen
    split_ifs at hlan ⊢
    all_goals
      obtain ⟨address, -, heq⟩ := map_eq_some_iff.mp hlan
      rw [← heq, Vector.length_toList]
      rfl
  rw [hlen] at hq' hparse
  obtain rfl := parseRecord_end htypes hq' he (holds_append.mp hrecord).1 hparse hname hdata
  obtain ⟨hipLen, hfits⟩ := h.ipLen_iff.mp hv.ipLen
  -- the data that is read is what the code has put there
  obtain ⟨record', hparse', -, -, hdata'⟩ := parseRecord_template htypes (length_answerData hanswer) hq' hrecord
  obtain ⟨rfl, -⟩ := Prod.mk.inj (some.inj (hparse.symm.trans hparse'))
  rw [hdata'] at hlan
  obtain ⟨hcontroller, haddress⟩ := (answerData_eq_lanData htypes hanswer).mp hlan
  refine ⟨question, hq, hihl, hipLen, htype ▸ hfits, h.frameLen_iff.mp hv.frameLen, hcontroller, haddress,
    fun hv6 data' hdata'' => ?_⟩
  obtain rfl := some.inj (hlan.symm.trans hdata'')
  rw [← htype]
  exact h.udpCheck_ne_zero.mp (hv.udpCheckUsed hv6)

/-- What is sent is a valid answer, and not to a packet with too short a header, just when the query was one
    question and nothing else, in a packet whose lengths agree, for an address that there is. -/
theorem dns_reply_valid_iff (cfg : Config) (query reply : Skb) (v : IpVer) (u : ℕ)
    (hdns : findDns cfg query = some (v, u)) (hsent : rtkDnsTrapEnter cfg query = .sent reply) :
    (v = .v4 → 5 ≤ query.ihl) ∧ ValidReply cfg v u query reply ↔ ∃ question, Plain cfg v u query question := by
  constructor
  · rintro ⟨hihl, hv⟩
    obtain ⟨data, h⟩ := sent_of_enter hdns hihl hsent
    exact plain_of_validReply h hihl hv
  · rintro ⟨question, hp⟩
    obtain ⟨data, h⟩ := sent_of_enter hdns hp.ihl hsent
    exact ⟨hp.ihl, validReply_of_plain h hp⟩

end Valid

/-! ### Two queries -/

/-- A router `wifi` with an IPv4 address. -/
def sampleConfig : Config where
  br0 := some ⟨Vector.replicate 6 2, [("br0", ⟨#[192, 168, 1, 1], rfl⟩)], [], Vector.replicate 16 0⟩
  domainName := [0x77, 0x69, 0x66, 0x69]
  extraDomainName := none
  trapAll := false
  controller := none
  ipv6FindUdp _ _ := none
  behind _ _ _ h := nomatch h

/-- A query for the address of `wifi`, with `more` behind the question. -/
def sampleQuery (arcount : UInt8) (more : List UInt8) : Skb where
  data i := ([2, 2, 2, 2, 2, 2, 4, 4, 4, 4, 4, 4, 8, 0] ++
    [0x45, 0, 0, 50 + more.length.toUInt8, 0, 0, 0, 0, 64, 17, 0, 0, 192, 168, 1, 7, 192, 168, 1, 1] ++
    [0x30, 0x39, 0, 53, 0, 30 + more.length.toUInt8, 0, 0] ++
    [0x12, 0x34, 1, 0, 0, 1, 0, 0, 0, 0, 0, arcount] ++
    [4, 0x77, 0x69, 0x66, 0x69, 0, 0, 1, 0, 1] ++ more).getD i 0
  vlan := false
  len := 50 + more.length
  size := 128

def Outcome.isSent : Outcome → Bool
  | .sent _ => true
  | _ => false

theorem Outcome.exists_of_isSent {o : Outcome} (h : o.isSent = true) : ∃ reply, o = .sent reply := by
  cases o with
  | sent reply => exact ⟨reply, rfl⟩
  | pass skb => cases h
  | undefined => cases h

def sampleQuestion : Question := ⟨[[0x77, 0x69, 0x66, 0x69]], 1, 1⟩

theorem dns_reply_valid_sample : ∃ reply, rtkDnsTrapEnter sampleConfig (sampleQuery 0 []) = .sent reply ∧
    ValidReply sampleConfig .v4 34 (sampleQuery 0 []) reply := by
  obtain ⟨reply, hsent⟩ := Outcome.exists_of_isSent
    (show (rtkDnsTrapEnter sampleConfig (sampleQuery 0 [])).isSent = true by decide +kernel)
  refine ⟨reply, hsent, ((dns_reply_valid_iff sampleConfig (sampleQuery 0 []) reply .v4 34 (by decide +kernel)
    hsent).mpr ⟨sampleQuestion, ?_⟩).2⟩
  exact ⟨by decide +kernel, (fun _ => by decide +kernel), by decide +kernel, by decide +kernel, by decide +kernel,
    (fun _ _ h => nomatch h), (fun h => nomatch h), (fun h => nomatch h)⟩

/-- An `OPT` record, as nearly every resolver of today adds it. -/
def sampleOpt : List UInt8 := [0, 0, 41, 16, 0, 0, 0, 0, 0, 0, 0]

/-- The query is answered, and the answer is not valid. -/
theorem dns_reply_with_opt : ∃ reply, rtkDnsTrapEnter sampleConfig (sampleQuery 1 sampleOpt) = .sent reply ∧
    ¬ValidReply sampleConfig .v4 34 (sampleQuery 1 sampleOpt) reply := by
  obtain ⟨reply, hsent⟩ := Outcome.exists_of_isSent
    (show (rtkDnsTrapEnter sampleConfig (sampleQuery 1 sampleOpt)).isSent = true by decide +kernel)
  have hdns : findDns sampleConfig (sampleQuery 1 sampleOpt) = some (.v4, 34) := by decide +kernel
  have hihl : 5 ≤ (sampleQuery 1 sampleOpt).ihl := by decide +kernel
  refine ⟨reply, hsent, fun hvalid => ?_⟩
  obtain ⟨data, h⟩ := sent_of_enter hdns (fun _ => hihl) hsent
  obtain ⟨question, hp⟩ := plain_of_validReply h (fun _ => hihl) hvalid
  have hend : (parseQuestion ((sampleQuery 1 sampleOpt).message 34) ((sampleQuery 1 sampleOpt).messageLen 34) 12).map
      Prod.snd = some 22 := by decide +kernel
  have hmore : (sampleQuery 1 sampleOpt).messageLen 34 ≠ 22 := by decide +kernel
  rw [hp.one, map_some, some.injEq] at hend
  exact hmore hend

end PhoebusBsp.Dns

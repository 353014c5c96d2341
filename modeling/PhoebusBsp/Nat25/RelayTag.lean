import PhoebusBsp.Nat25.Pppoe

/-! The relay tag goes out with a request and comes back with the answer.

        request   pre   │old│   post    ──NAT25_INSERT──▶   │relay: magic, client, old│   pre   post
        answer    pre   │relay: magic, client, old│   post  ──NAT25_LOOKUP──▶   pre   │old│   post

    A frame carries a list of bytes between its PPPoE header and the padding; each step of the code removes,
    replaces or adds a part of that list. -/

namespace PhoebusBsp.Nat25
open Schemes Bytes List

/-! ### Frames and what they carry -/

/-- Between header and padding are these bytes, and all lengths say so. -/
structure Skb.Carries (skb : Skb) (l : List UInt8) (pad : ℕ) : Prop where
  length : skb.length = l.length
  holds : skb.data.Holds 20 l
  len : skb.len = 20 + l.length + pad
  room : skb.len ≤ skb.size

/-- The headers are the same from offset `off` to the PPPoE length. -/
def SameHeader (off : ℕ) (skb skb' : Skb) : Prop := ∀ i, off ≤ i → i < 18 → skb'.data i = skb.data i

theorem SameHeader.trans {off : ℕ} {skb skb' skb'' : Skb} (h : SameHeader off skb skb')
    (h' : SameHeader off skb' skb'') : SameHeader off skb skb'' :=
  fun i hi hlt => (h' i hi hlt).trans (h i hi hlt)

section Carries

variable {skb : Skb} {l pre out post : List UInt8} {pad : ℕ}

theorem Skb.Carries.length_lt (h : skb.Carries l pad) : l.length < 65536 := by
  rw [← h.length]
  exact be16_lt _ _

/-- The frame without the `n` bytes from `src` on. -/
def Skb.cut (skb : Skb) (src n : ℕ) : Skb where
  data := skb.data.memcpy src skb.data (src + n) (skb.len - (src + n))
  len := skb.len - n
  size := skb.size

theorem skbPullAndMerge_eq {src n : ℕ} (hin : src + n ≤ skb.len) :
    skbPullAndMerge skb src n = some (skb.cut src n) := by
  rw [skbPullAndMerge, if_neg (by omega)]
  rfl

theorem cut_before {src n i : ℕ} (hi : i < src) : (skb.cut src n).data i = skb.data i :=
  memcpy_of_notMem _ _ _ (Or.inl hi)

theorem length_cut {src n : ℕ} (hsrc : 20 ≤ src) : (skb.cut src n).length = skb.length :=
  be16_congr fun i hi => cut_before (by omega)

/-- A part of the bytes is taken out. -/
theorem Skb.Carries.cut (h : skb.Carries (pre ++ (out ++ post)) pad) :
    ((skb.cut (20 + pre.length) out.length).setLength (skb.length + 65536 - out.length)).Carries (pre ++ post) pad := by
  have hlen := h.len
  have hlt := h.length_lt
  have hlength := h.length
  have hroom := h.room
  simp only [length_append] at hlen hlt hlength
  obtain ⟨hpre, hrest⟩ := holds_append.mp h.holds
  obtain ⟨-, hpost⟩ := holds_append.mp hrest
  refine ⟨?_, ?_, ?_, ?_⟩
  · rw [Skb.length, Skb.setLength, be16_putBe16, length_append]
    omega
  · refine Holds.putBe16 (holds_append.mpr ⟨hpre.congr fun i _ hi => cut_before hi, ?_⟩) _ (Or.inr le_rfl)
    exact hpost.copied (k := 0) _ (by omega)
  · simp only [Skb.setLength, Skb.cut, length_append]
    omega
  · simp only [Skb.setLength, Skb.cut]
    omega

/-- Two of the bytes are written over. -/
theorem Skb.Carries.putBe16 {x y : UInt8} (h : skb.Carries (pre ++ ([x, y] ++ post)) pad) (n : ℕ) :
    ({ skb with data := skb.data.putBe16 (20 + pre.length) n } : Skb).Carries (pre ++ (be16Bytes n ++ post)) pad := by
  obtain ⟨hpre, hrest⟩ := holds_append.mp h.holds
  obtain ⟨-, hpost⟩ := holds_append.mp hrest
  have hsize : (pre ++ (be16Bytes n ++ post)).length = (pre ++ ([x, y] ++ post)).length := by
    simp only [length_append, length_be16Bytes, length_cons, length_nil]
  refine ⟨?_, ?_, hsize ▸ h.len, h.room⟩
  · rw [Skb.length, be16_putBe16_of_ne _ _ (Or.inl (by omega)), hsize]
    exact h.length
  · refine holds_append.mpr ⟨hpre.putBe16 n (Or.inl le_rfl), holds_append.mpr ⟨?_, ?_⟩⟩
    · exact holds_putBe16 _ _ _
    · exact hpost.putBe16 n (Or.inr le_rfl)

/-- The frame with `n` bytes before its tags. -/
def Skb.grow (skb : Skb) (tag : Bytes) (n : ℕ) : Skb where
  data := ((skb.data.memcpy (20 + n) skb.data 20 skb.length).putBe16 18 (skb.length + n)).memcpy 20 tag 0 n
  len := skb.len + n
  size := skb.size

theorem sameHeader_grow (skb : Skb) (tag : Bytes) (n : ℕ) : SameHeader 0 skb (skb.grow tag n) := by
  intro i _ hi
  simp only [Skb.grow]
  rw [memcpy_of_notMem _ _ _ (Or.inl (by omega)), putBe16_of_notMem _ _ (Or.inl hi),
    memcpy_of_notMem _ _ _ (Or.inl (by omega))]

/-- A tag goes before everything else. -/
theorem Skb.Carries.grow (h : skb.Carries l pad) {tag : Bytes} {t : List UInt8} (htag : tag.Holds 0 t)
    (hroom : skb.len + t.length ≤ skb.size) (hfits : t.length + l.length < 65536) :
    (skb.grow tag t.length).Carries (t ++ l) pad := by
  have hlen := h.len
  have hlength := h.length
  have hl : (skb.data.memcpy (20 + t.length) skb.data 20 skb.length).Holds (20 + t.length) l :=
    h.holds.copied (k := 0) _ (by omega)
  refine ⟨?_, ?_, ?_, hroom⟩
  · refine (be16_congr fun i hi => memcpy_of_notMem _ _ _ (Or.inl (by omega))).trans ?_
    rw [be16_putBe16, length_append]
    omega
  · exact holds_append.mpr ⟨htag.copied (k := 0) _ (by omega),
      (hl.putBe16 _ (Or.inr (by omega))).memcpy _ _ (Or.inr le_rfl)⟩
  · simp only [Skb.grow, length_append]
    omega

end Carries

/-! ### Tags -/

structure Tag where
  type : UInt16
  value : List UInt8
  fits : value.length < 65536

def Tag.encode (t : Tag) : List UInt8 := be16Bytes t.type.toNat ++ (be16Bytes t.value.length ++ t.value)

def encodeTags (tags : List Tag) : List UInt8 := tags.flatMap Tag.encode

/-- No `Relay-Session-Id` among them. -/
def NoRelay (tags : List Tag) : Prop := ∀ t ∈ tags, t.type.toNat ≠ pttRelaySid

/-- A value of a `Relay-Session-Id` that fits into the new one. -/
structure RelayValue where
  bytes : List UInt8
  pos : 0 < bytes.length
  le : bytes.length ≤ 28

def RelayValue.tag (v : RelayValue) : Tag := ⟨0x0110, v.bytes, v.le.trans_lt (by decide)⟩

/-- The tag that a client has sent, if it has. -/
def original (v : Option RelayValue) : List Tag := v.elim [] fun v => [v.tag]

def relayValue (v : Option RelayValue) : List UInt8 := v.elim [] RelayValue.bytes

theorem length_relayValue_le (v : Option RelayValue) : (relayValue v).length ≤ 28 := by
  cases v with
  | none => exact Nat.zero_le _
  | some v => exact v.le

def relayTag (client : Mac) (v : Option RelayValue) : Tag where
  type := 0x0110
  value := be16Bytes magicCode ++ client.toList ++ relayValue v
  fits := by
    have := length_relayValue_le v
    simp only [length_append, length_be16Bytes, Vector.length_toList]
    omega

section Tags

variable {t : Tag} {tags pre post : List Tag} {b : Bytes} {cur length : ℕ}

theorem encodeTags_append : encodeTags (pre ++ post) = encodeTags pre ++ encodeTags post :=
  flatMap_append ..

theorem encodeTags_cons : encodeTags (t :: tags) = t.encode ++ encodeTags tags := flatMap_cons ..

theorem Tag.length_encode (t : Tag) : t.encode.length = tagHdrLen + t.value.length := by
  simp only [Tag.encode, length_append, length_be16Bytes, tagHdrLen]
  omega

theorem length_le_encodeTags (tags : List Tag) : tags.length ≤ (encodeTags tags).length := by
  induction tags with
  | nil => exact le_rfl
  | cons t tags ih =>
    rw [encodeTags_cons, length_append, t.length_encode, length_cons, tagHdrLen]
    omega

/-- The head of a tag as the code reads it. -/
theorem Tag.read (h : b.Holds cur t.encode) :
    b.be16 cur = t.type.toNat ∧ b.be16 (cur + 2) = t.value.length ∧ b.Holds (cur + 4) t.value := by
  obtain ⟨htype, hrest⟩ := holds_append.mp h
  obtain ⟨hlen, hvalue⟩ := holds_append.mp hrest
  exact ⟨htype.be16.trans (Nat.mod_eq_of_lt t.type.toNat_lt), hlen.be16.trans (Nat.mod_eq_of_lt t.fits), hvalue⟩

/-- The loop passes over tags of other types. -/
theorem findTagFrom_skip (hpre : NoRelay pre) (hcur : 20 ≤ cur) (hb : b.Holds cur (encodeTags pre))
    (hin : cur - 20 + (encodeTags pre).length ≤ length) (fuel : ℕ) :
    findTagFrom b length pttRelaySid (fuel + pre.length) cur =
      findTagFrom b length pttRelaySid fuel (cur + (encodeTags pre).length) := by
  induction pre generalizing cur with
  | nil => rfl
  | cons t pre ih =>
    rw [encodeTags_cons] at hb hin ⊢
    obtain ⟨ht, hpost⟩ := holds_append.mp hb
    obtain ⟨htype, hlen, -⟩ := Tag.read ht
    have hother : b.be16 cur ≠ pttRelaySid := htype ▸ hpre t mem_cons_self
    have hsize := t.length_encode
    rw [length_append] at hin
    rw [length_append, ← Nat.add_assoc, ← ih (fun u hu => hpre u (mem_cons_of_mem _ hu)) (by omega)
      hpost (by omega), length_cons, ← Nat.add_assoc, findTagFrom, if_pos (by rw [tagHdrLen] at hsize; omega),
      if_neg hother, hlen, hsize, Nat.add_assoc]

variable {skb : Skb} {pad : ℕ}

theorem findPppoeTag_none (h : skb.Carries (encodeTags tags) pad) (hno : NoRelay tags) :
    findPppoeTag skb pttRelaySid = none := by
  have hlength := h.length
  obtain ⟨fuel, hfuel⟩ := Nat.exists_eq_add_of_le' (length_le_encodeTags tags)
  have hend : ¬20 + (encodeTags tags).length - 20 < skb.length := by omega
  rw [findPppoeTag, show skb.length + 1 = (fuel + 1) + tags.length by omega,
    findTagFrom_skip hno le_rfl h.holds (by omega), findTagFrom, if_neg hend]

theorem findPppoeTag_some (h : skb.Carries (encodeTags (pre ++ t :: post)) pad) (hno : NoRelay pre)
    (ht : t.type.toNat = pttRelaySid) :
    findPppoeTag skb pttRelaySid = some (20 + (encodeTags pre).length) := by
  have hlength := h.length
  have hholds := h.holds
  rw [encodeTags_append, encodeTags_cons] at hlength hholds
  rw [length_append, length_append, t.length_encode, tagHdrLen] at hlength
  obtain ⟨hpre, hrest⟩ := holds_append.mp hholds
  obtain ⟨hread, -, -⟩ := Tag.read (holds_append.mp hrest).1
  have hle := length_le_encodeTags pre
  obtain ⟨fuel, hfuel⟩ := Nat.exists_eq_add_of_le' (show pre.length ≤ skb.length by omega)
  have hin : 20 + (encodeTags pre).length - 20 < skb.length := by omega
  rw [findPppoeTag, show skb.length + 1 = (fuel + 1) + pre.length by omega,
    findTagFrom_skip hno le_rfl hpre (by omega), findTagFrom, if_pos hin, if_pos (hread.trans ht)]

end Tags

/-! ### Requests -/

section Insert

variable {skb : Skb} {pad : ℕ} {l : List UInt8} {v : Option RelayValue}

theorem Skb.holds_mac (skb : Skb) (off : ℕ) : skb.data.Holds off (skb.mac off).toList := by
  intro i x hi
  obtain ⟨hlt, rfl⟩ := List.getElem?_eq_some_iff.mp hi
  simp [Skb.mac]

theorem SameHeader.mac {skb' : Skb} (h : SameHeader 0 skb skb') {off : ℕ} (hoff : off ≤ 12) :
    skb'.mac off = skb.mac off := by
  unfold Skb.mac
  congr 1
  funext i
  exact h (off + i) (Nat.zero_le _) (by omega)

theorem SameHeader.mono {skb' : Skb} (h : SameHeader 0 skb skb') (off : ℕ) : SameHeader off skb skb' :=
  fun i _ hi => h i (Nat.zero_le _) hi

/-- The part of a relay tag before the value that it was made from. -/
theorem encode_relayTag (client : Mac) (v : Option RelayValue) :
    (relayTag client v).encode = be16Bytes pttRelaySid ++ (be16Bytes (8 + (relayValue v).length) ++
      ((be16Bytes magicCode ++ client.toList) ++ relayValue v)) := by
  have hsize : (relayTag client v).value.length = 8 + (relayValue v).length := by
    simp only [relayTag, length_append, length_be16Bytes, Vector.length_toList]
  rw [Tag.encode, hsize]
  rfl

theorem length_encode_relayTag (client : Mac) (v : Option RelayValue) :
    (relayTag client v).encode.length = 12 + (relayValue v).length := by
  simp only [encode_relayTag, length_append, length_be16Bytes, Vector.length_toList]
  omega

/-- `tag_buf` when the new tag is complete. -/
def relayBuf (skb : Skb) (tag : Bytes) (n : ℕ) : Bytes :=
  (((tag.putBe16 0 pttRelaySid).putBe16 2 (magicCodeLen + rtlRelayTagLen + n)).putBe16 4 magicCode).memcpy
    (4 + magicCodeLen) skb.data 6 6

theorem be16_relayBuf (skb : Skb) (tag : Bytes) {n : ℕ} (hn : n ≤ 28) :
    (relayBuf skb tag n).be16 2 + tagHdrLen = 12 + n := by
  have hkeep (b : Bytes) : (b.memcpy (4 + magicCodeLen) skb.data 6 6).be16 2 = b.be16 2 :=
    be16_congr fun i hi => memcpy_of_notMem _ _ _ (Or.inl (by rw [magicCodeLen]; omega))
  rw [relayBuf, hkeep, be16_putBe16_of_ne _ _ (Or.inl (by decide)), be16_putBe16, magicCodeLen, rtlRelayTagLen,
    tagHdrLen]
  omega

theorem addRelayTag_eq (skb : Skb) (tag : Bytes) (n : ℕ) :
    addRelayTag skb tag n =
      match addPppoeTag skb (relayBuf skb tag n) with
      | none => (-1, skb)
      | some skb => (0, skb) := rfl

/-- The last step of an insertion fails when there is no room, and then it has changed nothing. -/
theorem addRelayTag_full (tag : Bytes) {n : ℕ} (hn : n ≤ 28) (hroom : skb.tailroom < 12 + n) :
    addRelayTag skb tag n = (-1, skb) := by
  have hnone : addPppoeTag skb (relayBuf skb tag n) = none := by
    rw [addPppoeTag, if_pos (by rwa [be16_relayBuf skb tag hn])]
  rw [addRelayTag_eq, hnone]

theorem addRelayTag_room (tag : Bytes) {n : ℕ} (hn : n ≤ 28) (hroom : 12 + n ≤ skb.tailroom) :
    addRelayTag skb tag n = (0, skb.grow (relayBuf skb tag n) (12 + n)) := by
  have hsome : addPppoeTag skb (relayBuf skb tag n) = some (skb.grow (relayBuf skb tag n) (12 + n)) := by
    rw [addPppoeTag]
    simp only [be16_relayBuf skb tag hn, if_neg (Nat.not_lt.mpr hroom)]
    rfl
  rw [addRelayTag_eq, hsome]

theorem relayBuf_holds {tag : Bytes} (htag : tag.Holds 12 (relayValue v)) :
    (relayBuf skb tag (relayValue v).length).Holds 0 (relayTag (skb.mac 6) v).encode := by
  rw [encode_relayTag]
  refine holds_append.mpr ⟨?_, holds_append.mpr ⟨?_, holds_append.mpr ⟨holds_append.mpr ⟨?_, ?_⟩, ?_⟩⟩⟩
  · exact (((holds_putBe16 _ _ _).putBe16 _ (Or.inl (by decide))).putBe16 _ (Or.inl (by decide))).memcpy _ _
      (Or.inl (by decide))
  · exact ((holds_putBe16 _ _ _).putBe16 _ (Or.inl (by simp))).memcpy _ _ (Or.inl (by simp [magicCodeLen]))
  · exact (holds_putBe16 _ _ _).memcpy _ _ (Or.inl (by decide))
  · exact (skb.holds_mac 6).copied (k := 0) _ (by rw [Vector.length_toList])
  · have hvalue : (relayBuf skb tag (relayValue v).length).Holds 12 (relayValue v) :=
      (((htag.putBe16 _ (Or.inr (by decide))).putBe16 _ (Or.inr (by decide))).putBe16 _ (Or.inr (by decide))).memcpy
        _ _ (Or.inr (by decide))
    simpa using hvalue

theorem addRelayTag_spec (h : skb.Carries l pad) {tag : Bytes} (htag : tag.Holds 12 (relayValue v))
    (hroom : skb.len + (relayTag (skb.mac 6) v).encode.length ≤ skb.size)
    (hfits : (relayTag (skb.mac 6) v).encode.length + l.length < 65536) :
    ∃ skb', addRelayTag skb tag (relayValue v).length = (0, skb') ∧
      skb'.Carries ((relayTag (skb.mac 6) v).encode ++ l) pad ∧ SameHeader 0 skb skb' := by
  have hsize : (relayTag (skb.mac 6) v).encode.length = 12 + (relayValue v).length := length_encode_relayTag ..
  have hcarries := h.grow (relayBuf_holds htag) hroom hfits
  rw [hsize] at hcarries hroom
  refine ⟨_, addRelayTag_room tag (length_relayValue_le v) ?_, hcarries, sameHeader_grow _ _ _⟩
  rw [Skb.tailroom]
  omega

theorem encodeTags_split (pre post : List Tag) (v : Option RelayValue) :
    encodeTags (pre ++ original v ++ post) = encodeTags pre ++ (encodeTags (original v) ++ encodeTags post) := by
  rw [encodeTags_append, encodeTags_append, append_assoc]

/-- The frame without the tag at `ptr`. -/
def Skb.cutTag (skb : Skb) (ptr n : ℕ) : Skb :=
  (skb.cut ptr (tagHdrLen + n)).setLength ((skb.cut ptr (tagHdrLen + n)).length + 65536 - tagHdrLen - n)

theorem cutTag_eq {ptr n : ℕ} (hptr : 20 ≤ ptr) :
    skb.cutTag ptr n = (skb.cut ptr (tagHdrLen + n)).setLength (skb.length + 65536 - (tagHdrLen + n)) := by
  rw [Skb.cutTag, length_cut hptr, Nat.sub_sub]

theorem sameHeader_cutTag {ptr n : ℕ} (hptr : 20 ≤ ptr) : SameHeader 0 skb (skb.cutTag ptr n) :=
  fun i _ hi => (putBe16_of_notMem _ _ (Or.inl hi)).trans (cut_before (by omega))

/-- The old tag is cut out before the new one is made. -/
theorem insertRelayTag_cut {ptr n : ℕ} (hfind : findPppoeTag skb pttRelaySid = some ptr)
    (hlen : skb.data.be16 (ptr + 2) = n) (hle : n ≤ 28) (hin : ptr + (tagHdrLen + n) ≤ skb.len) (tagBuf : Bytes) :
    insertRelayTag tagBuf skb =
      addRelayTag (skb.cutTag ptr n) (tagBuf.memcpy (4 + magicCodeLen + rtlRelayTagLen) skb.data (ptr + 4) n) n := by
  simp only [insertRelayTag, hfind, hlen]
  rw [if_neg (by rw [tagHdrLen, magicCodeLen, rtlRelayTagLen]; omega), skbPullAndMerge_eq hin]
  rfl

/-- A request goes out with one relay tag before the other tags. -/
theorem insertRelayTag_spec {pre post : List Tag} (h : skb.Carries (encodeTags (pre ++ original v ++ post)) pad)
    (hpre : NoRelay pre) (hpost : v = none → NoRelay post)
    (hroom : skb.len + (relayTag (skb.mac 6) v).encode.length ≤ skb.size + (encodeTags (original v)).length)
    (hfits : (encodeTags (relayTag (skb.mac 6) v :: (pre ++ post))).length < 65536) (tagBuf : Bytes) :
    ∃ skb', insertRelayTag tagBuf skb = (0, skb') ∧
      skb'.Carries (encodeTags (relayTag (skb.mac 6) v :: (pre ++ post))) pad ∧ SameHeader 0 skb skb' := by
  rw [encodeTags_cons] at hfits ⊢
  rw [length_append] at hfits
  cases v with
  | none =>
    rw [original, Option.elim_none, append_nil] at h
    have hno : NoRelay (pre ++ post) := by
      intro t ht
      rcases mem_append.mp ht with ht | ht
      · exact hpre t ht
      · exact hpost rfl t ht
    obtain ⟨skb', hs', hcarries, hsame⟩ := addRelayTag_spec h (holds_nil : tagBuf.Holds 12 []) hroom hfits
    refine ⟨skb', ?_, hcarries, hsame⟩
    rw [insertRelayTag, findPppoeTag_none h hno]
    exact hs'
  | some v =>
    have hfind : findPppoeTag skb pttRelaySid = some (20 + (encodeTags pre).length) := by
      have h' : skb.Carries (encodeTags (pre ++ v.tag :: post)) pad := by simpa [original] using h
      exact findPppoeTag_some h' hpre rfl
    rw [encodeTags_split] at h
    have hone : encodeTags (original (some v)) = v.tag.encode := by
      rw [original, Option.elim_some, encodeTags_cons, encodeTags, flatMap_nil, append_nil]
    rw [hone] at h hroom
    obtain ⟨-, hrest⟩ := holds_append.mp h.holds
    obtain ⟨-, hlen, hvalue⟩ := Tag.read (holds_append.mp hrest).1
    have hcarries₁ := h.cut
    rw [Tag.length_encode] at hcarries₁
    have hlen₀ := h.len
    have hlen₁ := hcarries₁.len
    simp only [length_append, Tag.length_encode] at hlen₀ hlen₁
    rw [length_encode_relayTag, Tag.length_encode] at hroom
    have hcut : skb.cutTag (20 + (encodeTags pre).length) v.tag.value.length = _ := cutTag_eq (Nat.le_add_right ..)
    rw [← hcut] at hcarries₁ hlen₁
    have hsame₁ : SameHeader 0 skb (skb.cutTag (20 + (encodeTags pre).length) v.tag.value.length) :=
      sameHeader_cutTag (Nat.le_add_right ..)
    have hmac := hsame₁.mac (show 6 ≤ 12 by decide)
    have hbuf : (tagBuf.memcpy (4 + magicCodeLen + rtlRelayTagLen) skb.data (20 + (encodeTags pre).length + 4)
        v.tag.value.length).Holds 12 (relayValue (some v)) := hvalue.copied (k := 0) _ (Nat.le_of_eq (Nat.zero_add _))
    obtain ⟨skb', hs', hcarries, hsame⟩ := addRelayTag_spec hcarries₁ hbuf (by
      have hsize : (skb.cutTag (20 + (encodeTags pre).length) v.tag.value.length).size = skb.size := rfl
      rw [hmac, hlen₁, hsize, length_encode_relayTag]
      omega) (by rwa [hmac, ← encodeTags_append])
    rw [hmac, ← encodeTags_append] at hcarries
    exact ⟨skb', (insertRelayTag_cut hfind hlen v.le (by omega) tagBuf).trans hs', hcarries, hsame₁.trans hsame⟩

end Insert

/-! ### Answers -/

section Lookup

variable {skb : Skb} {pad : ℕ} {l : List UInt8} {v : Option RelayValue}

/-- The destination is no part of what a frame carries. -/
theorem Skb.Carries.setDestination (h : skb.Carries l pad) (src : Bytes) (off : ℕ) :
    ({ skb with data := skb.data.memcpy 0 src off 6 } : Skb).Carries l pad := by
  refine ⟨?_, h.holds.memcpy _ _ (Or.inr (by decide)), h.len, h.room⟩
  rw [← h.length]
  exact be16_congr fun i hi => memcpy_of_notMem _ _ _ (Or.inr (by omega))

theorem mac_of_holds {off : ℕ} {m : Mac} (h : skb.data.Holds off m.toList) : skb.mac off = m := by
  refine Vector.ext fun i hi => ?_
  have hget := h i m[i] (by simp [hi])
  simpa [Skb.mac] using hget

/-- The frame with the client as its destination. -/
def toClient (skb : Skb) (ptr : ℕ) : Skb := { skb with data := skb.data.memcpy 0 skb.data (ptr + 6) 6 }

/-- The answer without our part of the tag at `ptr`, to the client that it names. -/
def Skb.answered (skb : Skb) (ptr n : ℕ) : Skb :=
  let offset := if 8 < n then 4 else 0
  let cut := (toClient skb ptr).cut (ptr + offset) (12 - offset)
  let cut := cut.setLength (cut.length + 65536 - (12 - offset))
  if 0 < offset then { cut with data := cut.data.putBe16 (ptr + 2) (n - 8) } else cut

/-- The way through `NAT25_LOOKUP` when the tag found is one of ours. -/
theorem lookupRelayTag_ours {ptr n : ℕ} (hfind : findPppoeTag skb pttRelaySid = some ptr)
    (htype : skb.data.be16 ptr = pttRelaySid) (hlen : skb.data.be16 (ptr + 2) = n) (hle : 8 ≤ n)
    (hmagic : skb.data.be16 (ptr + 4) = magicCode) (hin : ptr + (tagHdrLen + n) ≤ skb.len) :
    lookupRelayTag skb = (0, skb.answered ptr n) := by
  have hgood : ¬n < magicCodeLen + rtlRelayTagLen := Nat.not_lt.mpr hle
  obtain ⟨offset, hoffset, hcut⟩ : ∃ k, (if 8 < n then 4 else 0) = k ∧ ptr + k + (12 - k) ≤ skb.len := by
    refine ⟨_, rfl, ?_⟩
    rw [tagHdrLen] at hin
    split_ifs <;> omega
  have hoffset' : (if magicCodeLen + rtlRelayTagLen < n then tagHdrLen else 0) = offset := hoffset
  have hpull : skbPullAndMerge { skb with data := skb.data.memcpy 0 skb.data (ptr + 4 + magicCodeLen) 6 }
      (ptr + offset) (tagHdrLen + magicCodeLen + rtlRelayTagLen - offset) =
        some ((toClient skb ptr).cut (ptr + offset) (12 - offset)) := skbPullAndMerge_eq hcut
  rw [lookupRelayTag, hfind]
  simp only [htype, hlen, hmagic, ne_eq, not_true_eq_false, false_or, if_neg hgood, if_false, hoffset', hpull,
    Skb.answered, hoffset]
  split_ifs <;> rfl

/-- An answer goes to the client, with the tag that the client has sent. -/
theorem lookupRelayTag_spec {pre post : List Tag} {client : Mac}
    (h : skb.Carries (encodeTags (pre ++ relayTag client v :: post)) pad) (hpre : NoRelay pre) :
    ∃ skb', lookupRelayTag skb = (0, skb') ∧ skb'.Carries (encodeTags (pre ++ original v ++ post)) pad ∧
      skb'.mac 0 = client ∧ SameHeader 6 skb skb' := by
  have hfind := findPppoeTag_some h hpre rfl
  rw [encodeTags_append, encodeTags_cons] at h
  obtain ⟨-, hrest⟩ := holds_append.mp h.holds
  obtain ⟨htype, hlen, hvalue⟩ := Tag.read (holds_append.mp hrest).1
  obtain ⟨hhead, -⟩ := holds_append.mp hvalue
  obtain ⟨hmagic, hclient⟩ := holds_append.mp hhead
  set ptr := 20 + (encodeTags pre).length with hptr
  have hsize : (relayTag client v).value.length = 8 + (relayValue v).length := by
    simp only [relayTag, length_append, length_be16Bytes, Vector.length_toList]
  rw [hsize] at hlen
  have hcarries₁ : (toClient skb ptr).Carries _ pad := h.setDestination skb.data (ptr + 6)
  have hdest : (toClient skb ptr).mac 0 = client :=
    mac_of_holds (hclient.copied (k := 0) _ (by rw [Vector.length_toList]))
  have hin : ptr + (tagHdrLen + (8 + (relayValue v).length)) ≤ skb.len := by
    have hend := h.len
    simp only [length_append, Tag.length_encode, hsize] at hend
    omega
  refine ⟨_, lookupRelayTag_ours hfind htype hlen (Nat.le_add_right 8 _) hmagic.be16 hin, ?_⟩
  -- what is left to show about a frame whose headers are those of `toClient`
  have hdone : ∀ {skb'}, SameHeader 0 (toClient skb ptr) skb' → skb'.mac 0 = client ∧ SameHeader 6 skb skb' := by
    intro skb' hsame
    have hsame₁ : SameHeader 6 skb (toClient skb ptr) := fun i hi _ => memcpy_of_notMem _ _ _ (Or.inr hi)
    exact ⟨(hsame.mac (Nat.zero_le _)).trans hdest, hsame₁.trans (hsame.mono 6)⟩
  have hcut : ∀ src n m, 20 ≤ src → SameHeader 0 (toClient skb ptr) (((toClient skb ptr).cut src n).setLength m) :=
    fun src n m hsrc i _ hi => (putBe16_of_notMem _ _ (Or.inl hi)).trans (cut_before (by omega))
  cases v with
  | none =>
    -- the tag goes as a whole
    have hcarries₂ := hcarries₁.cut
    rw [length_encode_relayTag, ← length_cut (Nat.le_add_right ..)] at hcarries₂
    rw [encodeTags_split]
    exact ⟨hcarries₂, hdone (hcut ptr 12 _ (Nat.le_add_right ..))⟩
  | some v =>
    -- the tag keeps its head and the value
    set front := encodeTags pre ++ be16Bytes pttRelaySid with hfront
    have hregroup : encodeTags pre ++ ((relayTag client (some v)).encode ++ encodeTags post) =
        (front ++ be16Bytes (8 + (relayValue (some v)).length)) ++ ((be16Bytes magicCode ++ client.toList) ++
          (relayValue (some v) ++ encodeTags post)) := by
      simp [encode_relayTag, hfront]
    rw [hregroup] at hcarries₁
    have hout : (be16Bytes magicCode ++ client.toList).length = 12 - 4 := by
      rw [length_append, length_be16Bytes, Vector.length_toList]
    have hplace : 20 + front.length = ptr + 2 := by
      rw [hfront, length_append, length_be16Bytes, hptr, Nat.add_assoc]
    have hcarries₂ := hcarries₁.cut
    rw [length_append, length_be16Bytes, ← Nat.add_assoc, hplace, hout, append_assoc,
      ← length_cut (show 20 ≤ ptr + 2 + 2 by omega)] at hcarries₂
    have hcarries₃ := hcarries₂.putBe16 (8 + (relayValue (some v)).length - 8)
    have hback : encodeTags (pre ++ original (some v) ++ post) =
        encodeTags pre ++ be16Bytes pttRelaySid ++ (be16Bytes (8 + (relayValue (some v)).length - 8) ++
          (relayValue (some v) ++ encodeTags post)) := by
      rw [encodeTags_split, Nat.add_sub_cancel_left]
      simp [encodeTags, original, Tag.encode, RelayValue.tag, relayValue, pttRelaySid]
    rw [hplace, hfront, ← hback] at hcarries₃
    have hlong : 8 < 8 + (relayValue (some v)).length := Nat.lt_add_of_pos_right v.pos
    rw [Skb.answered, if_pos hlong, if_pos (show 0 < 4 by decide)]
    refine ⟨hcarries₃, hdone fun i hi₀ hi => ?_⟩
    exact (putBe16_of_notMem _ _ (Or.inl (by omega))).trans (hcut (ptr + 4) (12 - 4) _ (by omega) i hi₀ hi)

end Lookup

/-! ### The round trip -/

/-- `NAT25_INSERT` sees it as a request. -/
structure Skb.Request (skb : Skb) : Prop where
  protocol : skb.protocol = ethPPppDisc ∨ skb.protocol = ethPPppSes
  code : skb.code = padiCode ∨ skb.code = padrCode
  sid : skb.sid = 0

/-- `NAT25_LOOKUP` sees it as an answer. -/
structure Skb.Answer (skb : Skb) : Prop where
  protocol : skb.protocol = ethPPppDisc ∨ skb.protocol = ethPPppSes
  code : skb.code = padoCode ∨ skb.code = padsCode

/-- With `addPPPoETag`, a request goes out with a relay tag before its other tags, and an answer in which no
    other relay tag comes first goes to the client that this tag names, with the tag that the client had sent. -/
theorem relay_tag_round_trip (p : Ageing) (fuel : ℕ) (kmalloc : Option ℕ) (tagBuf : Bytes) (s : Pppoe)
    (hs : s.addPPPoETag = true) :
    (∀ (skb : Skb) (v : Option RelayValue) (pre post : List Tag) (pad : ℕ), skb.Request →
      skb.Carries (encodeTags (pre ++ original v ++ post)) pad → NoRelay pre → (v = none → NoRelay post) →
      skb.len + (relayTag (skb.mac 6) v).encode.length ≤ skb.size + (encodeTags (original v)).length →
      (encodeTags (relayTag (skb.mac 6) v :: (pre ++ post))).length < 65536 →
      ∃ skb', handlePppoe p fuel kmalloc tagBuf s skb .insert = some (0, skb', s) ∧
        skb'.Carries (encodeTags (relayTag (skb.mac 6) v :: (pre ++ post))) pad ∧ SameHeader 0 skb skb') ∧
    (∀ (skb : Skb) (client : Mac) (v : Option RelayValue) (pre post : List Tag) (pad : ℕ), skb.Answer →
      skb.Carries (encodeTags (pre ++ relayTag client v :: post)) pad → NoRelay pre →
      ∃ skb', handlePppoe p fuel kmalloc tagBuf s skb .lookup = some (0, skb', s) ∧
        skb'.Carries (encodeTags (pre ++ original v ++ post)) pad ∧ skb'.mac 0 = client ∧
        SameHeader 6 skb skb') := by
  constructor
  · intro skb v pre post pad hrequest hcarries hpre hpost hroom hfits
    obtain ⟨skb', hskb', hcarries', hsame⟩ := insertRelayTag_spec hcarries hpre hpost hroom hfits tagBuf
    refine ⟨skb', ?_, hcarries', hsame⟩
    simp [handlePppoe, hrequest.sid, hrequest.code, hs, hskb']
  · intro skb client v pre post pad hanswer hcarries hpre
    obtain ⟨skb', hskb', hcarries', hdest, hsame⟩ := lookupRelayTag_spec hcarries hpre
    refine ⟨skb', ?_, hcarries', hdest, hsame⟩
    simp [handlePppoe, hanswer.code, hs, hskb']

def samplePppoe : Pppoe := ⟨emptyPriv 0, true, 0, Vector.replicate 6 0⟩

/-- A frame of these tags between two stations. -/
def sampleSkb (code : UInt8) (tags : List Tag) (size : ℕ) : Skb where
  data i := ([2, 2, 2, 2, 2, 2, 7, 7, 7, 7, 7, 7, 0x88, 0x63, 0x11, code, 0, 0] ++
    be16Bytes (encodeTags tags).length ++ encodeTags tags).getD i 0
  len := 20 + (encodeTags tags).length
  size := size

def sampleClient : Mac := Vector.replicate 6 9

def sampleValue : RelayValue := ⟨[1, 2, 3], by decide, by decide⟩

/-- A `Service-Name` without a name. -/
def serviceName : Tag := ⟨0x0101, [], by decide⟩

theorem sampleSkb_carries (code : UInt8) {tags : List Tag} (hfits : (encodeTags tags).length < 65536) {size : ℕ}
    (hsize : 20 + (encodeTags tags).length ≤ size) : (sampleSkb code tags size).Carries (encodeTags tags) 0 := by
  have hall : (sampleSkb code tags size).data.Holds 0
    ([2, 2, 2, 2, 2, 2, 7, 7, 7, 7, 7, 7, 0x88, 0x63, 0x11, code, 0, 0] ++
      be16Bytes (encodeTags tags).length ++ encodeTags tags) := by
    intro i x hi
    rw [Nat.zero_add]
    exact (getD_eq_getElem?_getD ..).trans (by rw [hi, Option.getD_some])
  obtain ⟨hhead, htags⟩ := holds_append.mp hall
  obtain ⟨-, hlength⟩ := holds_append.mp hhead
  exact ⟨hlength.be16.trans (Nat.mod_eq_of_lt hfits), htags, rfl, hsize⟩

theorem relay_tag_round_trip_sample :
    (∃ skb', handlePppoe ⟨300, 100, by decide⟩ 0 none (fun _ => 0) samplePppoe
        (sampleSkb padiCode [serviceName, sampleValue.tag] 40) .insert = some (0, skb', samplePppoe) ∧
      skb'.Carries (encodeTags [relayTag (Vector.replicate 6 7) (some sampleValue), serviceName]) 0) ∧
    ∃ skb', handlePppoe ⟨300, 100, by decide⟩ 0 none (fun _ => 0) samplePppoe
        (sampleSkb padoCode [serviceName, relayTag sampleClient (some sampleValue)] 60) .lookup =
          some (0, skb', samplePppoe) ∧
      skb'.Carries (encodeTags [serviceName, sampleValue.tag]) 0 ∧ skb'.mac 0 = sampleClient := by
  have hno : NoRelay [serviceName] := by
    intro t ht
    rw [mem_singleton.mp ht]
    decide
  obtain ⟨hinsert, hlookup⟩ := relay_tag_round_trip ⟨300, 100, by decide⟩ 0 none (fun _ => 0) samplePppoe rfl
  constructor
  · obtain ⟨skb', hskb', hcarries, -⟩ := hinsert (sampleSkb padiCode [serviceName, sampleValue.tag] 40)
      (some sampleValue) [serviceName] [] 0 ⟨by decide, by decide, by decide⟩
      (sampleSkb_carries _ (by decide) (by decide)) hno nofun (by decide) (by decide)
    exact ⟨skb', hskb', hcarries⟩
  · obtain ⟨skb', hskb', hcarries, hdest, -⟩ := hlookup
      (sampleSkb padoCode [serviceName, relayTag sampleClient (some sampleValue)] 60) sampleClient
      (some sampleValue) [serviceName] [] 0 ⟨by decide, by decide⟩
      (sampleSkb_carries _ (by decide) (by decide)) hno
    exact ⟨skb', hskb', hcarries, hdest⟩

/-- A `Service-Name` of zeros. -/
def longName : Tag := ⟨0x0101, List.replicate 65520 0, by rw [length_replicate]; decide⟩

/-- A request with one tag and room for another one. -/
def longSkb : Skb where
  data i := [2, 2, 2, 2, 2, 2, 7, 7, 7, 7, 7, 7, 0x88, 0x63, 0x11, 0x09, 0, 0, 0xff, 0xf4, 1, 1, 0xff, 0xf0].getD i 0
  len := 65544
  size := 65556

theorem longSkb_carries : longSkb.Carries (encodeTags [longName]) 0 := by
  have hencode : encodeTags [longName] = [1, 1, 0xff, 0xf0] ++ List.replicate 65520 0 := by
    rw [encodeTags_cons, Tag.encode, longName, length_replicate]
    exact append_nil _
  have hlength : (encodeTags [longName]).length = 65524 := by
    rw [hencode, length_append, length_replicate]
    rfl
  refine ⟨?_, ?_, by rw [hlength]; rfl, by decide⟩
  · rw [hlength]
    decide
  · rw [hencode]
    refine holds_append.mpr ⟨?_, fun i x hi => ?_⟩
    · refine holds_cons.mpr ⟨rfl, holds_cons.mpr ⟨rfl, holds_cons.mpr ⟨rfl, holds_cons.mpr ⟨rfl, holds_nil⟩⟩⟩⟩
    · obtain ⟨hlt, rfl⟩ := List.getElem?_eq_some_iff.mp hi
      rw [getElem_replicate]
      refine (getD_eq_getElem?_getD ..).trans ?_
      rw [List.getElem?_eq_none (Nat.le_add_right 24 i), Option.getD_none]

/-- A relay tag of somebody else in front of ours hides it, and a request whose tags are almost 2¹⁶ bytes gets
    a length that has wrapped. -/
theorem relay_tag_hidden_or_wrapped :
    ((sampleSkb padoCode [sampleValue.tag, relayTag sampleClient none] 60).Carries
        (encodeTags [sampleValue.tag, relayTag sampleClient none]) 0 ∧
      (handlePppoe ⟨300, 100, by decide⟩ 0 none (fun _ => 0) samplePppoe
        (sampleSkb padoCode [sampleValue.tag, relayTag sampleClient none] 60) .lookup).map (·.1) = some (-1)) ∧
    longSkb.Carries (encodeTags [longName]) 0 ∧
      (handlePppoe ⟨300, 100, by decide⟩ 0 none (fun _ => 0) samplePppoe longSkb .insert).map
        (fun x => (x.1, x.2.1.length, x.2.1.len)) = some (0, 0, 65556) :=
  ⟨⟨sampleSkb_carries _ (by decide) (by decide), by decide +kernel⟩, longSkb_carries, by decide +kernel⟩

end PhoebusBsp.Nat25

import PhoebusBsp.Nat25.Operations
import PhoebusBsp.Nat25.Refused

/-! What the PPPoE branch takes from behind the frame.

        │ header │ tag │ tag │ ... ┄┄┄┄┄┄┄┄┄┄┄┄┄┄┄┄┄┄┄┄
                 └─────── length ────────┘                  announced by the sender
                                   └ len                    the end of the frame

    Neither the walk from tag to tag nor the use of the tag that it finds compares with the end of the frame;
    only the cut does. So nothing is taken from behind the frame when the tags fill what is announced and
    that is in the frame, and otherwise only when the call gives up before it looks at a value. A request that
    is padded gets bytes from behind the frame even so: the padding is not moved with the tags. -/

namespace PhoebusBsp.Nat25
open Schemes Bytes List Option

/-! ### Frames and the memory behind them -/

/-- The bytes of the frame. -/
def Skb.frame (skb : Skb) : List UInt8 := (List.range skb.len).map skb.data

/-- The same frame, with other memory behind it. -/
structure Skb.SameFrame (skb skb' : Skb) : Prop where
  len : skb'.len = skb.len
  size : skb'.size = skb.size
  data : ∀ i, i < skb.len → skb'.data i = skb.data i

/-- What the caller sees of an outcome. -/
def seen (x : Option (Int × Skb × Pppoe)) : Option (Int × List UInt8 × Pppoe) :=
  x.map fun y => (y.1, y.2.1.frame, y.2.2)

section Frames

variable {skb skb' : Skb}

theorem Skb.frame_eq_iff :
    skb'.frame = skb.frame ↔ skb'.len = skb.len ∧ ∀ i, i < skb.len → skb'.data i = skb.data i := by
  constructor
  · intro h
    have hlen : skb'.len = skb.len := by simpa [Skb.frame] using congrArg List.length h
    refine ⟨hlen, fun i hi => ?_⟩
    rw [Skb.frame, Skb.frame, hlen] at h
    exact map_inj_left.mp h i (mem_range.mpr hi)
  · rintro ⟨hlen, hdata⟩
    rw [Skb.frame, Skb.frame, hlen]
    exact map_congr_left fun i hi => hdata i (mem_range.mp hi)

namespace Skb.SameFrame

theorem refl (skb : Skb) : skb.SameFrame skb := ⟨rfl, rfl, fun _ _ => rfl⟩

variable (h : skb.SameFrame skb')
include h

theorem frame : skb'.frame = skb.frame := Skb.frame_eq_iff.mpr ⟨h.len, h.data⟩

theorem tailroom : skb'.tailroom = skb.tailroom := by
  rw [Skb.tailroom, Skb.tailroom, h.len, h.size]

theorem be16 {off : ℕ} (hoff : off + 2 ≤ skb.len) : skb'.data.be16 off = skb.data.be16 off :=
  be16_congr fun i hi => h.data _ (by omega)

theorem mac {off : ℕ} (hoff : off + 6 ≤ skb.len) : skb'.mac off = skb.mac off := by
  unfold Skb.mac
  congr 1
  funext i
  exact h.data (off + i) (by omega)

theorem carries {l : List UInt8} {pad : ℕ} (hc : skb.Carries l pad) : skb'.Carries l pad := by
  have hlen := hc.len
  refine ⟨(h.be16 (by omega)).trans hc.length, hc.holds.congr fun i _ hi => h.data i (by omega), ?_, ?_⟩
  · rw [h.len, hlen]
  · rw [h.len, h.size]
    exact hc.room

variable (hlen : 20 ≤ skb.len)
include hlen

theorem code : skb'.code = skb.code := h.data 15 (by omega)

theorem sid : skb'.sid = skb.sid := h.be16 (by omega)

theorem networkAddr {off : ℕ} (hoff : off ≤ 6) :
    generatePppoeNetworkAddr skb' off = generatePppoeNetworkAddr skb off := by
  unfold generatePppoeNetworkAddr
  congr 1
  funext i
  split_ifs
  · rfl
  · exact h.data _ (by omega)
  · exact h.data _ (by omega)
  · rfl

end Skb.SameFrame

end Frames

/-! ### The walk, and the tags that are used -/

/-- From `cur` on, within `length` bytes of tags, the first `Relay-Session-Id` is at `ptr`. -/
inductive RelayFrom (b : Bytes) (length : ℕ) : ℕ → ℕ → Prop where
  | here {cur : ℕ} (hin : cur - 20 < length) (htype : b.be16 cur = pttRelaySid) : RelayFrom b length cur cur
  | next {cur ptr : ℕ} (hin : cur - 20 < length) (htype : b.be16 cur ≠ pttRelaySid)
    (hrest : RelayFrom b length (cur + tagHdrLen + b.be16 (cur + 2)) ptr) : RelayFrom b length cur ptr

/-- The tags lead to a `Relay-Session-Id` at `ptr`, with a value of `n` bytes. -/
def Skb.RelayAt (skb : Skb) (ptr n : ℕ) : Prop :=
  RelayFrom skb.data skb.length 20 ptr ∧ skb.data.be16 (ptr + 2) = n

/-- The tag lies inside what is announced, and inside the frame. -/
def Skb.Inside (skb : Skb) (ptr n : ℕ) : Prop :=
  ptr + (tagHdrLen + n) ≤ 20 + skb.length ∧ ptr + (tagHdrLen + n) ≤ skb.len

/-- `insertRelayTag`, with the tags that it takes the value of or cuts out. -/
def insertRelayTagUsing (tagBuf : Bytes) (skb : Skb) : (Int × Skb) × List (ℕ × ℕ) :=
  match findPppoeTag skb pttRelaySid with
  | none => (addRelayTag skb tagBuf 0, [])
  | some oldTag =>
    let oldTagLen := skb.data.be16 (oldTag + 2)
    if 40 < oldTagLen + tagHdrLen + magicCodeLen + rtlRelayTagLen then ((-1, skb), [])
    else
      let tag := tagBuf.memcpy (4 + magicCodeLen + rtlRelayTagLen) skb.data (oldTag + 4) oldTagLen
      match skbPullAndMerge skb oldTag (tagHdrLen + oldTagLen) with
      | none => ((-1, skb), [(oldTag, oldTagLen)])
      | some skb =>
        (addRelayTag (skb.setLength (skb.length + 65536 - tagHdrLen - oldTagLen)) tag oldTagLen,
          [(oldTag, oldTagLen)])

/-- `lookupRelayTag`, with the tags that it looks at the value of or cuts out. -/
def lookupRelayTagUsing (skb : Skb) : (Int × Skb) × List (ℕ × ℕ) :=
  match findPppoeTag skb pttRelaySid with
  | none => ((-1, skb), [])
  | some ptr =>
    let tagType := skb.data.be16 ptr
    let tagLen := skb.data.be16 (ptr + 2)
    if tagType ≠ pttRelaySid ∨ tagLen < magicCodeLen + rtlRelayTagLen then ((-1, skb), [])
    else (lookupRelayTag skb, [(ptr, tagLen)])

/-- The tags that a call uses. -/
def usedTags (tagBuf : Bytes) (s : Pppoe) (skb : Skb) : Method → List (ℕ × ℕ)
  | .insert =>
    if skb.sid = 0 ∧ (skb.code = padiCode ∨ skb.code = padrCode) ∧ s.addPPPoETag = true then
      (insertRelayTagUsing tagBuf skb).2
    else []
  | .lookup =>
    if (skb.code = padoCode ∨ skb.code = padsCode) ∧ s.addPPPoETag = true then (lookupRelayTagUsing skb).2 else []
  | _ => []

section Walk

variable {b : Bytes} {length cur ptr n : ℕ} {skb : Skb} {tagBuf : Bytes}

theorem findTagFrom_eq_some {fuel : ℕ} (hcur : 20 ≤ cur) (hfuel : length + 20 < cur + fuel) :
    findTagFrom b length pttRelaySid fuel cur = some ptr ↔ RelayFrom b length cur ptr := by
  induction fuel generalizing cur with
  | zero =>
    refine iff_of_false (fun h => by cases h) fun h => ?_
    cases h <;> omega
  | succ fuel ih =>
    rw [findTagFrom]
    split_ifs with hin htype
    · constructor
      · intro h
        cases h
        exact .here hin htype
      · intro h
        cases h with
        | here => rfl
        | next _ hne _ => exact absurd htype hne
    · rw [ih (by omega) (by rw [tagHdrLen]; omega)]
      constructor
      · exact .next hin htype
      · intro h
        cases h with
        | here _ heq => exact absurd heq htype
        | next _ _ hrest => exact hrest
    · refine iff_of_false (fun h => by cases h) fun h => ?_
      cases h <;> contradiction

theorem findPppoeTag_eq_some : findPppoeTag skb pttRelaySid = some ptr ↔ RelayFrom skb.data skb.length 20 ptr :=
  findTagFrom_eq_some le_rfl (by omega)

theorem relayFrom_type (h : RelayFrom b length cur ptr) : b.be16 ptr = pttRelaySid := by
  induction h with
  | here _ htype => exact htype
  | next _ _ _ ih => exact ih

theorem insertRelayTagUsing_fst (tagBuf : Bytes) (skb : Skb) :
    (insertRelayTagUsing tagBuf skb).1 = insertRelayTag tagBuf skb := by
  unfold insertRelayTagUsing insertRelayTag
  cases findPppoeTag skb pttRelaySid with
  | none => rfl
  | some oldTag =>
    simp only
    split_ifs
    · rfl
    · cases skbPullAndMerge skb oldTag (tagHdrLen + skb.data.be16 (oldTag + 2)) <;> rfl

theorem lookupRelayTagUsing_fst (skb : Skb) : (lookupRelayTagUsing skb).1 = lookupRelayTag skb := by
  unfold lookupRelayTagUsing lookupRelayTag
  cases findPppoeTag skb pttRelaySid with
  | none => rfl
  | some ptr =>
    simp only
    split_ifs <;> rfl

/-- The tag that the walk finds. -/
theorem mem_found {q : ℕ} {P : ℕ → Prop} (hP : P (b.be16 (q + 2))) :
    (ptr, n) ∈ [(q, b.be16 (q + 2))] ↔ (q = ptr ∧ b.be16 (ptr + 2) = n) ∧ P n := by
  rw [mem_singleton, Prod.mk.injEq]
  constructor
  · rintro ⟨rfl, rfl⟩
    exact ⟨⟨rfl, rfl⟩, hP⟩
  · rintro ⟨⟨rfl, rfl⟩, -⟩
    exact ⟨rfl, rfl⟩

theorem mem_insertRelayTagUsing : (ptr, n) ∈ (insertRelayTagUsing tagBuf skb).2 ↔ skb.RelayAt ptr n ∧ n ≤ 28 := by
  rw [Skb.RelayAt, ← findPppoeTag_eq_some, insertRelayTagUsing]
  cases findPppoeTag skb pttRelaySid with
  | none => simp
  | some oldTag =>
    have hsum (k : ℕ) : k + tagHdrLen + magicCodeLen + rtlRelayTagLen = k + 12 := rfl
    simp only [some.injEq]
    split_ifs with hlong <;> rw [hsum] at hlong
    · refine iff_of_false not_mem_nil ?_
      rintro ⟨⟨rfl, rfl⟩, hle⟩
      omega
    · have hshort : skb.data.be16 (oldTag + 2) ≤ 28 := by omega
      cases skbPullAndMerge skb oldTag (tagHdrLen + skb.data.be16 (oldTag + 2)) <;>
        exact mem_found (P := (· ≤ 28)) hshort

theorem mem_lookupRelayTagUsing : (ptr, n) ∈ (lookupRelayTagUsing skb).2 ↔ skb.RelayAt ptr n ∧ 8 ≤ n := by
  rw [Skb.RelayAt, lookupRelayTagUsing]
  cases hfind : findPppoeTag skb pttRelaySid with
  | none =>
    refine iff_of_false not_mem_nil fun h => ?_
    cases hfind.symm.trans (findPppoeTag_eq_some.mpr h.1.1)
  | some q =>
    have htype := relayFrom_type (findPppoeTag_eq_some.mp hfind)
    rw [← findPppoeTag_eq_some, hfind]
    simp only [htype, ne_eq, not_true_eq_false, false_or, magicCodeLen, rtlRelayTagLen, some.injEq]
    split_ifs with hshort
    · refine iff_of_false not_mem_nil ?_
      rintro ⟨⟨rfl, rfl⟩, hle⟩
      omega
    · exact mem_found (P := (8 ≤ ·)) (by omega)

end Walk

/-! ### What each step makes of the bytes of the frame -/

section Steps

variable {skb skb' : Skb} {tag tag' : Bytes} {n : ℕ}

theorem length_cutTag {ptr : ℕ} (hptr : 20 ≤ ptr) (hin : ptr + (tagHdrLen + n) ≤ 20 + skb.length) :
    (skb.cutTag ptr n).length + (4 + n) = skb.length := by
  have hlt : skb.length < 65536 := be16_lt _ _
  rw [cutTag_eq hptr, Skb.length, Skb.setLength, be16_putBe16]
  rw [tagHdrLen] at hin ⊢
  omega

/-- What is cut out is free. -/
theorem tailroom_cutTag {ptr : ℕ} (hin : ptr + (tagHdrLen + n) ≤ skb.len) (hroom : skb.len ≤ skb.size) :
    (skb.cutTag ptr n).tailroom = skb.tailroom + (4 + n) := by
  change skb.size - (skb.len - (4 + n)) = skb.size - skb.len + (4 + n)
  rw [tagHdrLen] at hin
  omega

/-- With padding, the last byte of the longer frame is what was there. -/
theorem grow_last (hpad : 20 + skb.length < skb.len) (hn : 0 < n) :
    (skb.grow tag n).data (skb.len + n - 1) = skb.data (skb.len + n - 1) := by
  simp only [Skb.grow]
  rw [memcpy_of_notMem _ _ _ (Or.inr (by omega)), putBe16_of_notMem _ _ (Or.inr (by omega)),
    memcpy_of_notMem _ _ _ (Or.inr (by omega))]

variable (h : skb.SameFrame skb')
include h

theorem destination_same (m : Mac) :
    ({ skb with data := setDestination skb.data m } : Skb).SameFrame { skb' with data := setDestination skb'.data m } :=
  ⟨h.len, h.size, fun i hi => by
    simp only [setDestination]
    exact write_congr_at (fun _ _ => rfl) fun _ => h.data i hi⟩

theorem setLength_same (n : ℕ) : (skb.setLength n).SameFrame (skb'.setLength n) :=
  ⟨h.len, h.size, fun i hi => putBe16_congr_at fun _ => h.data i hi⟩

theorem cut_same {src n : ℕ} (hin : src + n ≤ skb.len) :
    (skb.cut src n).SameFrame (skb'.cut src n) := by
  refine ⟨congrArg (· - n) h.len, h.size, fun i hi => ?_⟩
  have hi' : i < skb.len - n := hi
  simp only [Skb.cut, h.len]
  exact memcpy_congr_at (fun _ _ => h.data _ (by omega)) fun _ => h.data i (by omega)

theorem cutTag_same {ptr : ℕ} (hptr : 20 ≤ ptr) (hin : ptr + (tagHdrLen + n) ≤ skb.len) :
    (skb.cutTag ptr n).SameFrame (skb'.cutTag ptr n) := by
  rw [Skb.cutTag, Skb.cutTag, length_cut hptr, length_cut hptr, show skb'.length = skb.length from h.be16 (by omega)]
  exact setLength_same (cut_same h hin) _

theorem answered_same {ptr : ℕ} (hptr : 20 ≤ ptr) (hin : ptr + (tagHdrLen + n) ≤ skb.len)
    (hle : 8 ≤ n) : (skb.answered ptr n).SameFrame (skb'.answered ptr n) := by
  have hclient : (toClient skb ptr).SameFrame (toClient skb' ptr) := by
    refine ⟨h.len, h.size, fun i hi => memcpy_congr_at (fun _ _ => h.data _ ?_) fun _ => h.data i hi⟩
    rw [tagHdrLen] at hin
    omega
  have hlength : (toClient skb' ptr).length = (toClient skb ptr).length := by
    have hkeep (k : Skb) : (toClient k ptr).length = k.length :=
      be16_congr fun i hi => memcpy_of_notMem _ _ _ (Or.inr (by omega))
    rw [hkeep, hkeep]
    exact h.be16 (by omega)
  have hcut (offset : ℕ) (hoffset : offset ≤ 12) :
      (((toClient skb ptr).cut (ptr + offset) (12 - offset)).setLength
          (((toClient skb ptr).cut (ptr + offset) (12 - offset)).length + 65536 - (12 - offset))).SameFrame
        (((toClient skb' ptr).cut (ptr + offset) (12 - offset)).setLength
          (((toClient skb' ptr).cut (ptr + offset) (12 - offset)).length + 65536 - (12 - offset))) := by
    have hin' : ptr + offset + (12 - offset) ≤ (toClient skb ptr).len := by
      have hsame : (toClient skb ptr).len = skb.len := rfl
      rw [tagHdrLen] at hin
      omega
    rw [length_cut (by omega), length_cut (by omega), hlength]
    exact setLength_same (cut_same hclient hin') _
  simp only [Skb.answered]
  split_ifs with hlong hpos hpos
  · have hsame := hcut 4 (by decide)
    exact ⟨hsame.len, hsame.size, fun i hi => putBe16_congr_at fun _ => hsame.data i hi⟩
  · exact absurd (by decide) hpos
  · exact absurd hpos (by decide)
  · exact hcut 0 (by decide)

/-- The value of the old tag, and the address of the client. -/
theorem relayBuf_same (hlen : 12 ≤ skb.len)
    (htag : ∀ i, 12 ≤ i → i < 12 + n → tag' i = tag i) {i : ℕ} (hi : i < 12 + n) :
    relayBuf skb' tag' n i = relayBuf skb tag n i := by
  refine memcpy_congr_at (fun hge hlt => h.data _ (by omega)) fun hclient => ?_
  refine putBe16_congr_at fun hmagic => putBe16_congr_at fun hsize => putBe16_congr_at fun htype => htag i ?_ hi
  rw [magicCodeLen] at hclient
  omega

/-- Without padding all the bytes of the longer frame come from the frame and the tag. -/
theorem grow_same (hfull : 20 + skb.length = skb.len) (htag : ∀ i, i < n → tag' i = tag i) :
    (skb.grow tag n).SameFrame (skb'.grow tag' n) := by
  have hlength : skb'.length = skb.length := h.be16 (by omega)
  refine ⟨congrArg (· + n) h.len, h.size, fun i hi => ?_⟩
  have hi' : i < skb.len + n := hi
  simp only [Skb.grow, hlength]
  refine memcpy_congr_at (fun _ _ => htag _ (by omega)) fun htags => putBe16_congr_at fun hlen => ?_
  exact memcpy_congr_at (fun _ _ => h.data _ (by omega)) fun hmoved => h.data i (by omega)

theorem addRelayTag_same (hlen : 12 ≤ skb.len) (hn : n ≤ 28)
    (htag : ∀ i, 12 ≤ i → i < 12 + n → tag' i = tag i)
    (hfull : 20 + skb.length = skb.len ∨ skb.tailroom < 12 + n) :
    (addRelayTag skb' tag' n).1 = (addRelayTag skb tag n).1 ∧
      (addRelayTag skb tag n).2.SameFrame (addRelayTag skb' tag' n).2 := by
  rcases Nat.lt_or_ge skb.tailroom (12 + n) with hroom | hroom
  · rw [addRelayTag_full tag hn hroom, addRelayTag_full tag' hn (h.tailroom ▸ hroom)]
    exact ⟨rfl, h⟩
  · rw [addRelayTag_room tag hn hroom, addRelayTag_room tag' hn (h.tailroom ▸ hroom)]
    exact ⟨rfl, grow_same h (hfull.resolve_right (Nat.not_lt.mpr hroom)) fun i hi => relayBuf_same h hlen htag hi⟩

end Steps

/-! ### What is to hold, and when it does -/

/-- The tags fill what is announced, and that is in the frame. -/
def Skb.WellTagged (skb : Skb) : Prop := ∃ tags pad, skb.Carries (encodeTags tags) pad

/-- Whatever is behind the frame: the tags used are inside, what the caller sees is the same, and a frame that is not
    well tagged is refused as it is. -/
structure StaysInside (p : Ageing) (fuel : ℕ) (kmalloc : Option ℕ) (tagBuf : Bytes) (s : Pppoe) (skb : Skb)
    (method : Method) : Prop where
  inside : ∀ skb', skb.SameFrame skb' → ∀ ptr n, (ptr, n) ∈ usedTags tagBuf s skb' method → skb'.Inside ptr n
  framed : ∀ skb', skb.SameFrame skb' →
    seen (handlePppoe p fuel kmalloc tagBuf s skb' method) = seen (handlePppoe p fuel kmalloc tagBuf s skb method)
  refused : ¬skb.WellTagged → seen (handlePppoe p fuel kmalloc tagBuf s skb method) = some (-1, skb.frame, s)

/-- `NAT25_INSERT` adds a relay tag to a padded frame. -/
def Skb.GrowsPadded (skb : Skb) : Prop :=
  ∃ tags pad, skb.Carries (encodeTags tags) pad ∧ 0 < pad ∧
    (firstRelay tags).elim (12 ≤ skb.tailroom) fun t => t.value.length ≤ 28 ∧ 8 ≤ skb.tailroom

/-- The first relay tag that the tags lead to is too long, or there is none, and no room for one. -/
def Skb.GivesUpRequest (skb : Skb) : Prop :=
  (∀ ptr n, skb.RelayAt ptr n → 28 < n) ∧ ((∀ ptr n, ¬skb.RelayAt ptr n) → skb.tailroom < 12)

/-- The first relay tag that the tags lead to is too short to be ours, or it is inside and not ours. -/
def Skb.GivesUpAnswer (skb : Skb) : Prop :=
  ∀ ptr n, skb.RelayAt ptr n → n < 8 ∨ skb.Inside ptr n ∧ skb.data.be16 (ptr + 4) ≠ magicCode

/-- When `NAT25_INSERT` keeps to the frame. -/
def Skb.SafeRequest (s : Pppoe) (skb : Skb) : Prop :=
  if skb.sid = 0 then
    if skb.code = padiCode ∨ skb.code = padrCode then
      if s.addPPPoETag then
        skb.WellTagged ∧ ¬skb.GrowsPadded ∨ ∀ skb', skb.SameFrame skb' → skb'.GivesUpRequest
      else skb.WellTagged
    else True
  else skb.WellTagged

/-- When `NAT25_LOOKUP` keeps to the frame. -/
def Skb.SafeAnswer (s : Pppoe) (skb : Skb) : Prop :=
  skb.WellTagged ∨
    if skb.code = padoCode ∨ skb.code = padsCode then
      if s.addPPPoETag then ∀ skb', skb.SameFrame skb' → skb'.GivesUpAnswer
      else s.connectionInProgress = 0
    else skb.sid = 0

section Branches

variable {p : Ageing} {fuel : ℕ} {kmalloc : Option ℕ} {tagBuf : Bytes} {s : Pppoe} {skb : Skb} {method : Method}
  {skb' : Skb}

/-- A call that refuses. -/
theorem staysInside_of_refused
    (hused : ∀ skb', skb.SameFrame skb' → ∀ ptr n, (ptr, n) ∈ usedTags tagBuf s skb' method → skb'.Inside ptr n)
    (href : ∀ skb', skb.SameFrame skb' →
      seen (handlePppoe p fuel kmalloc tagBuf s skb' method) = some (-1, skb'.frame, s)) :
    StaysInside p fuel kmalloc tagBuf s skb method where
  inside := hused
  framed skb' h := by rw [href skb' h, href skb (.refl skb), h.frame]
  refused _ := href skb (.refl skb)

theorem relayAt_iff {ptr n q : ℕ} (hfind : findPppoeTag skb pttRelaySid = some q) :
    skb.RelayAt ptr n ↔ q = ptr ∧ skb.data.be16 (ptr + 2) = n := by
  rw [Skb.RelayAt, ← findPppoeTag_eq_some, hfind, some.injEq]

theorem not_relayAt {ptr n : ℕ} (hfind : findPppoeTag skb pttRelaySid = none) : ¬skb.RelayAt ptr n := fun h =>
  nomatch hfind.symm.trans (findPppoeTag_eq_some.mpr h.1)

/-- The tags of a well tagged frame are inside. -/
theorem Skb.WellTagged.inside (hgood : skb.WellTagged) (h : skb.SameFrame skb') {ptr n : ℕ}
    (hat : skb'.RelayAt ptr n) : skb'.Inside ptr n := by
  obtain ⟨tags, pad, hc⟩ := hgood
  have hc' := h.carries hc
  cases ht : firstRelay tags with
  | none => exact absurd hat (not_relayAt (findPppoeTag_none hc' (firstRelay_eq_none.mp ht)))
  | some t =>
    obtain ⟨ptr', -, hfound⟩ := findPppoeTag_firstRelay ht
    obtain ⟨hin, hfind, -, hlen⟩ := hfound hc'
    obtain ⟨rfl, rfl⟩ := (relayAt_iff hfind).mp hat
    have hfull := hc'.full
    rw [hlen]
    exact ⟨hin, by omega⟩

theorem relayAt_of_used {ptr n : ℕ} (hmem : (ptr, n) ∈ usedTags tagBuf s skb method) : skb.RelayAt ptr n := by
  cases method with
  | insert =>
    rw [usedTags] at hmem
    split_ifs at hmem
    · exact (mem_insertRelayTagUsing.mp hmem).1
    · cases hmem
  | lookup =>
    rw [usedTags] at hmem
    split_ifs at hmem
    · exact (mem_lookupRelayTagUsing.mp hmem).1
    · cases hmem
  | _ => cases hmem

section Framed

variable (hframed : ∀ skb', skb.SameFrame skb' →
  seen (handlePppoe p fuel kmalloc tagBuf s skb' method) = seen (handlePppoe p fuel kmalloc tagBuf s skb method))
include hframed

theorem Skb.WellTagged.staysInside (hgood : skb.WellTagged) : StaysInside p fuel kmalloc tagBuf s skb method where
  inside _ h _ _ hmem := hgood.inside h (relayAt_of_used hmem)
  framed := hframed
  refused hbad := absurd hgood hbad

/-- A call that takes every frame. -/
theorem staysInside_iff_wellTagged
    (htakes : ∀ skb' s', handlePppoe p fuel kmalloc tagBuf s skb method ≠ some (-1, skb', s')) :
    StaysInside p fuel kmalloc tagBuf s skb method ↔ skb.WellTagged := by
  refine ⟨fun h => ?_, Skb.WellTagged.staysInside hframed⟩
  by_contra hbad
  obtain ⟨⟨r, skb', s'⟩, hret, hsees⟩ := map_eq_some_iff.mp (h.refused hbad)
  cases (congrArg Prod.fst hsees : r = -1)
  exact htakes skb' s' hret

end Framed

/-! #### The relay tags -/

theorem insertRelayTag_givesUp (h : skb.GivesUpRequest) (tagBuf : Bytes) : insertRelayTag tagBuf skb = (-1, skb) := by
  cases hfind : findPppoeTag skb pttRelaySid with
  | none =>
    rw [insertRelayTag, hfind]
    exact addRelayTag_full tagBuf (Nat.zero_le 28) (h.2 fun _ _ => not_relayAt hfind)
  | some ptr =>
    have hlong := h.1 ptr _ ((relayAt_iff hfind).mpr ⟨rfl, rfl⟩)
    simp only [insertRelayTag, hfind]
    rw [if_pos (by rw [tagHdrLen, magicCodeLen, rtlRelayTagLen]; omega)]

/-- Without padding, or without room, what comes out does not depend on what is behind the frame. -/
theorem insertRelayTag_same {tags : List Tag} {pad : ℕ} (hc : skb.Carries (encodeTags tags) pad)
    (hpad : ¬skb.GrowsPadded) (h : skb.SameFrame skb') (tagBuf : Bytes) :
    (insertRelayTag tagBuf skb').1 = (insertRelayTag tagBuf skb).1 ∧
      (insertRelayTag tagBuf skb).2.SameFrame (insertRelayTag tagBuf skb').2 := by
  have hlen := hc.full
  cases ht : firstRelay tags with
  | none =>
    rw [insertRelayTag_none hc ht, insertRelayTag_none (h.carries hc) ht]
    refine addRelayTag_same h (by omega) (Nat.zero_le 28) (fun _ _ _ => rfl) ?_
    rcases Nat.eq_zero_or_pos pad with hzero | hpos
    · exact Or.inl (by omega)
    · refine Or.inr (Nat.not_le.mp fun hroom => hpad ⟨tags, pad, hc, hpos, ?_⟩)
      rw [ht]
      exact hroom
  | some t =>
    rcases Nat.lt_or_ge 28 t.value.length with hlong | hshort
    · rw [insertRelayTag_long hc ht hlong, insertRelayTag_long (h.carries hc) ht hlong]
      exact ⟨rfl, h⟩
    · obtain ⟨ptr, hptr, hfound⟩ := findPppoeTag_firstRelay ht
      obtain ⟨hin, hfind, -, hn⟩ := hfound hc
      obtain ⟨-, hfind', -, hn'⟩ := hfound (h.carries hc)
      have hin' : ptr + (tagHdrLen + t.value.length) ≤ skb.len := by omega
      rw [insertRelayTag_cut hfind hn hshort hin', insertRelayTag_cut hfind' hn' hshort (by rwa [h.len])]
      have hlen' : (skb.cutTag ptr t.value.length).len = skb.len - (4 + t.value.length) := rfl
      have hlength := length_cutTag hptr hin
      have htail := tailroom_cutTag hin' hc.room
      rw [tagHdrLen] at hin'
      refine addRelayTag_same (cutTag_same h hptr hin') (by omega) hshort (fun i hi hi' => ?_) ?_
      · refine memcpy_congr_at (fun _ _ => h.data _ ?_) fun _ => rfl
        rw [magicCodeLen, rtlRelayTagLen]
        omega
      · rcases Nat.eq_zero_or_pos pad with hzero | hpos
        · exact Or.inl (by omega)
        · refine Or.inr (Nat.not_le.mp fun hfree => hpad ⟨tags, pad, hc, hpos, ?_⟩)
          rw [ht]
          exact ⟨hshort, by omega⟩

/-- With padding and room, the last byte of what comes out is one from behind the frame. -/
theorem insertRelayTag_leaks (hpad : skb.GrowsPadded) (tagBuf : Bytes) :
    ∃ d, 0 < d ∧ ∀ skb', skb.SameFrame skb' → (insertRelayTag tagBuf skb').2.len = skb.len + d ∧
      (insertRelayTag tagBuf skb').2.data (skb.len + d - 1) = skb'.data (skb.len + d - 1) := by
  obtain ⟨tags, pad, hc, hpos, hroom⟩ := hpad
  have hlen := hc.full
  cases ht : firstRelay tags with
  | none =>
    rw [ht] at hroom
    refine ⟨12, by decide, fun skb' h => ?_⟩
    have hlength' : skb'.length = skb.length := h.be16 (by omega)
    rw [insertRelayTag_none (h.carries hc) ht,
      addRelayTag_room tagBuf (Nat.zero_le 28) (by rw [h.tailroom]; exact hroom), ← h.len]
    have hpad' : 20 + skb'.length < skb'.len := by rw [hlength', h.len]; omega
    exact ⟨rfl, grow_last hpad' (by decide)⟩
  | some t =>
    rw [ht] at hroom
    obtain ⟨hshort, hroom⟩ := hroom
    obtain ⟨ptr, hptr, hfound⟩ := findPppoeTag_firstRelay ht
    refine ⟨8, by decide, fun skb' h => ?_⟩
    have hc' := h.carries hc
    obtain ⟨hin, hfind', -, hn'⟩ := hfound hc'
    have hfull := hc'.full
    have hin' : ptr + (tagHdrLen + t.value.length) ≤ skb'.len := by omega
    have hlength := length_cutTag hptr hin
    have htail := tailroom_cutTag hin' hc'.room
    rw [insertRelayTag_cut hfind' hn' hshort hin', addRelayTag_room _ hshort (by rw [htail, h.tailroom]; omega)]
    have hlast : (skb'.cutTag ptr t.value.length).len + (12 + t.value.length) = skb'.len + 8 := by
      rw [tagHdrLen] at hin'
      change skb'.len - (4 + t.value.length) + _ = _
      omega
    refine ⟨hlast.trans (by rw [h.len]), ?_⟩
    rw [← h.len, ← hlast]
    refine (grow_last (by omega) (by omega)).trans ?_
    rw [hlast]
    simp only [Skb.cutTag, Skb.cut, Skb.setLength]
    rw [putBe16_of_notMem _ _ (Or.inr (by omega)), memcpy_of_notMem _ _ _ (Or.inr (by omega))]

theorem lookupRelayTag_givesUp (h : skb.GivesUpAnswer) : lookupRelayTag skb = (-1, skb) := by
  cases hfind : findPppoeTag skb pttRelaySid with
  | none => rw [lookupRelayTag, hfind]
  | some ptr =>
    refine lookupRelayTag_notOurs hfind rfl ?_
    exact (h ptr _ ((relayAt_iff hfind).mpr ⟨rfl, rfl⟩)).imp id And.right

theorem lookupRelayTag_same {tags : List Tag} {pad : ℕ} (hc : skb.Carries (encodeTags tags) pad)
    (h : skb.SameFrame skb') :
    (lookupRelayTag skb').1 = (lookupRelayTag skb).1 ∧ (lookupRelayTag skb).2.SameFrame (lookupRelayTag skb').2 := by
  cases ht : firstRelay tags with
  | none =>
    have hno := firstRelay_eq_none.mp ht
    rw [lookupRelayTag, lookupRelayTag, findPppoeTag_none hc hno, findPppoeTag_none (h.carries hc) hno]
    exact ⟨rfl, h⟩
  | some t =>
    obtain ⟨ptr, hptr, hfound⟩ := findPppoeTag_firstRelay ht
    obtain ⟨hin, hfind, htype, hn⟩ := hfound hc
    obtain ⟨-, hfind', htype', hn'⟩ := hfound (h.carries hc)
    have hin' : ptr + (tagHdrLen + t.value.length) ≤ skb.len := by
      have hlen := hc.full
      omega
    rcases Nat.lt_or_ge t.value.length 8 with hlt | hle
    · rw [lookupRelayTag_notOurs hfind hn (Or.inl hlt), lookupRelayTag_notOurs hfind' hn' (Or.inl hlt)]
      exact ⟨rfl, h⟩
    · have hmagic : skb'.data.be16 (ptr + 4) = skb.data.be16 (ptr + 4) := h.be16 (by rw [tagHdrLen] at hin'; omega)
      by_cases hours : skb.data.be16 (ptr + 4) = magicCode
      · rw [lookupRelayTag_ours hfind htype hn hle hours hin',
          lookupRelayTag_ours hfind' htype' hn' hle (hmagic.trans hours) (by rwa [h.len])]
        exact ⟨rfl, answered_same h hptr hin' hle⟩
      · rw [lookupRelayTag_notOurs hfind hn (Or.inr hours),
          lookupRelayTag_notOurs hfind' hn' (Or.inr fun heq => hours (hmagic.symm.trans heq))]
        exact ⟨rfl, h⟩

/-! #### Requests -/

variable (hlen : 20 ≤ skb.len)
include hlen

theorem insert_session (hsid : skb.sid ≠ 0) :
    StaysInside p fuel kmalloc tagBuf s skb .insert ↔ skb.WellTagged := by
  have heq : ∀ skb', skb.SameFrame skb' → handlePppoe p fuel kmalloc tagBuf s skb' .insert =
      (dbNetworkInsert fuel s.priv kmalloc (skb.mac 6) (generatePppoeNetworkAddr skb 0)).bind fun priv =>
        some (0, skb', { s with
          priv := priv
          connectionInProgress :=
            if !s.addPPPoETag ∧ s.connectionInProgress ≠ 0 ∧ skb.mac 6 = s.pppoeAddr then 0
            else s.connectionInProgress }) := by
    intro skb' h
    simp only [handlePppoe, h.sid hlen, if_neg hsid, h.mac (show 6 + 6 ≤ skb.len by omega),
      h.networkAddr hlen (Nat.zero_le 6), bind_eq_bind]
    congr 1
    funext priv
    split_ifs <;> rfl
  refine staysInside_iff_wellTagged (fun skb' h => ?_) fun skb' s' hret => ?_
  · rw [heq skb' h, heq skb (.refl skb)]
    cases dbNetworkInsert fuel s.priv kmalloc (skb.mac 6) (generatePppoeNetworkAddr skb 0) with
    | none => rfl
    | some priv => simp [seen, h.frame]
  · rw [heq skb (.refl skb)] at hret
    obtain ⟨priv, -, hret⟩ := bind_eq_some_iff.mp hret
    cases hret

theorem insert_notRequest (hsid : skb.sid = 0) (hcode : ¬(skb.code = padiCode ∨ skb.code = padrCode)) :
    StaysInside p fuel kmalloc tagBuf s skb .insert := by
  refine staysInside_of_refused (fun skb' h ptr n hmem => ?_) fun skb' h => ?_
  · rw [usedTags, if_neg fun hreq => hcode (h.code hlen ▸ hreq.2.1)] at hmem
    cases hmem
  · simp only [handlePppoe, h.sid hlen, h.code hlen, if_pos hsid, if_neg hcode, seen, map_some]

theorem insert_untagged (hsid : skb.sid = 0) (hcode : skb.code = padiCode ∨ skb.code = padrCode)
    (hadds : ¬s.addPPPoETag = true) :
    StaysInside p fuel kmalloc tagBuf s skb .insert ↔ skb.WellTagged := by
  refine staysInside_iff_wellTagged (fun skb' h => ?_) fun skb' s' hret => ?_
  · simp only [handlePppoe, h.sid hlen, h.code hlen, if_pos hsid, if_pos hcode, if_neg hadds,
      h.mac (show 6 + 6 ≤ skb.len by omega)]
    split_ifs <;> simp [seen, h.frame]
  · simp only [handlePppoe, if_pos hsid, if_pos hcode, if_neg hadds] at hret
    split_ifs at hret <;> cases hret

/-- A request that is refused untouched without the use of a tag outside has given up early. -/
theorem givesUpRequest_of_refused
    (hinside : ∀ ptr n, (ptr, n) ∈ (insertRelayTagUsing tagBuf skb).2 → skb.Inside ptr n)
    (hfail : (insertRelayTag tagBuf skb).1 = -1) (hsame : (insertRelayTag tagBuf skb).2.len = skb.len) :
    skb.GivesUpRequest := by
  constructor
  · intro ptr n hat
    by_contra hshort
    rw [Nat.not_lt] at hshort
    have hin := (hinside ptr n (mem_insertRelayTagUsing.mpr ⟨hat, hshort⟩)).2
    rw [insertRelayTag_cut (findPppoeTag_eq_some.mpr hat.1) hat.2 hshort hin] at hfail hsame
    rcases Nat.lt_or_ge (skb.cutTag ptr n).tailroom (12 + n) with hfull | hfree
    · rw [addRelayTag_full _ hshort hfull] at hsame
      have hcut : skb.len - (tagHdrLen + n) = skb.len := hsame
      rw [tagHdrLen] at hcut
      omega
    · rw [addRelayTag_room _ hshort hfree] at hfail
      exact absurd hfail (show (0 : Int) ≠ -1 by decide)
  · intro hnone
    by_contra hroom
    have hfind : findPppoeTag skb pttRelaySid = none :=
      eq_none_iff_forall_ne_some.mpr fun ptr hptr => hnone ptr _ ((relayAt_iff hptr).mpr ⟨rfl, rfl⟩)
    rw [insertRelayTag, hfind] at hfail
    simp only [addRelayTag_room tagBuf (Nat.zero_le 28) (Nat.not_lt.mp hroom)] at hfail
    exact absurd hfail (show (0 : Int) ≠ -1 by decide)

theorem insert_tagged (hsid : skb.sid = 0) (hcode : skb.code = padiCode ∨ skb.code = padrCode)
    (hadds : s.addPPPoETag = true) :
    StaysInside p fuel kmalloc tagBuf s skb .insert ↔
      skb.WellTagged ∧ ¬skb.GrowsPadded ∨ ∀ skb', skb.SameFrame skb' → skb'.GivesUpRequest := by
  have hret : ∀ skb', skb.SameFrame skb' → seen (handlePppoe p fuel kmalloc tagBuf s skb' .insert) =
      some ((insertRelayTag tagBuf skb').1, (insertRelayTag tagBuf skb').2.frame, s) := by
    intro skb' h
    rw [handlePppoe_request ((h.sid hlen).trans hsid) (h.code hlen ▸ hcode) hadds]
    rfl
  have hused : ∀ skb', skb.SameFrame skb' →
      usedTags tagBuf s skb' .insert = (insertRelayTagUsing tagBuf skb').2 := by
    intro skb' h
    rw [usedTags, if_pos ⟨(h.sid hlen).trans hsid, h.code hlen ▸ hcode, hadds⟩]
  constructor
  · intro hstays
    by_cases hgood : skb.WellTagged
    · refine Or.inl ⟨hgood, fun hpad => ?_⟩
      obtain ⟨d, hd, hleaks⟩ := insertRelayTag_leaks hpad tagBuf
      -- another byte where the last one of the longer frame comes from
      set skb' : Skb := { skb with data := Function.update skb.data (skb.len + d - 1) (skb.data (skb.len + d - 1) + 1) }
      have hnew : skb'.data (skb.len + d - 1) = skb.data (skb.len + d - 1) + 1 := Function.update_self ..
      have h : skb.SameFrame skb' := ⟨rfl, rfl, fun i hi => Function.update_of_ne (by omega) ..⟩
      have hframed := hstays.framed skb' h
      rw [hret skb' h, hret skb (.refl skb)] at hframed
      obtain ⟨hlen₁, hlast₁⟩ := hleaks skb (.refl skb)
      obtain ⟨-, hlast₂⟩ := hleaks skb' h
      have hframe := congrArg (·.2.1) (some.inj hframed)
      have hbyte := (Skb.frame_eq_iff.mp hframe).2 (skb.len + d - 1) (by omega)
      rw [hlast₁, hlast₂, hnew] at hbyte
      exact absurd hbyte (by simp)
    · refine Or.inr fun skb' h => ?_
      have hsees := (hstays.framed skb' h).trans (hstays.refused hgood)
      rw [hret skb' h] at hsees
      simp only [some.injEq, Prod.mk.injEq, and_true] at hsees
      refine @givesUpRequest_of_refused tagBuf skb' (h.len ▸ hlen) (fun ptr n hmem => ?_) hsees.1 ?_
      · exact hstays.inside skb' h ptr n (hused skb' h ▸ hmem)
      · exact (Skb.frame_eq_iff.mp hsees.2).1.trans h.len.symm
  · rintro (⟨hgood, hpad⟩ | hgives)
    · refine hgood.staysInside fun skb' h => ?_
      obtain ⟨tags, pad, hc⟩ := hgood
      obtain ⟨hsame, hframe⟩ := insertRelayTag_same hc hpad h tagBuf
      rw [hret skb' h, hret skb (.refl skb), hsame, hframe.frame]
    · refine staysInside_of_refused (fun skb' h ptr n hmem => ?_) fun skb' h => ?_
      · rw [hused skb' h] at hmem
        obtain ⟨hat, hshort⟩ := mem_insertRelayTagUsing.mp hmem
        exact absurd ((hgives skb' h).1 ptr n hat) (Nat.not_lt.mpr hshort)
      · rw [hret skb' h, insertRelayTag_givesUp (hgives skb' h)]

/-! #### Answers -/

theorem lookup_other (hcode : ¬(skb.code = padoCode ∨ skb.code = padsCode)) :
    StaysInside p fuel kmalloc tagBuf s skb .lookup ↔ skb.WellTagged ∨ skb.sid = 0 := by
  by_cases hsid : skb.sid = 0
  · refine iff_of_true (staysInside_of_refused (fun skb' h ptr n hmem => ?_) fun skb' h => ?_) (Or.inr hsid)
    · rw [usedTags, if_neg fun hans => hcode (h.code hlen ▸ hans.1)] at hmem
      cases hmem
    · simp only [handlePppoe, h.code hlen, h.sid hlen, if_neg hcode, hsid, ne_eq, not_true_eq_false, if_false, seen,
        map_some]
  · rw [or_iff_left hsid]
    refine staysInside_iff_wellTagged (fun skb' h => ?_) fun skb' s' hret => ?_
    · simp only [handlePppoe, h.code hlen, h.sid hlen, if_neg hcode, if_pos hsid, h.networkAddr hlen le_rfl,
        dbNetworkLookupAndReplace_eq]
      cases dbLookup p fuel s.priv (generatePppoeNetworkAddr skb 6) with
      | none => rfl
      | some found =>
        obtain ⟨r, m, priv⟩ := found
        cases m with
        | none =>
          simp only [map_some, bind_eq_bind, bind_some, elim_none, seen]
          rw [show ({ skb' with data := skb'.data } : Skb).frame = skb.frame from h.frame]
        | some m =>
          simp only [map_some, bind_eq_bind, bind_some, elim_some, seen]
          rw [(destination_same h m).frame]
    · simp only [handlePppoe, if_neg hcode, if_pos hsid] at hret
      obtain ⟨found, -, hret⟩ := bind_eq_some_iff.mp hret
      cases hret

theorem lookup_untagged (hcode : skb.code = padoCode ∨ skb.code = padsCode)
    (hadds : ¬s.addPPPoETag = true) :
    StaysInside p fuel kmalloc tagBuf s skb .lookup ↔ skb.WellTagged ∨ s.connectionInProgress = 0 := by
  by_cases hidle : s.connectionInProgress = 0
  · refine iff_of_true (staysInside_of_refused (fun skb' h ptr n hmem => ?_) fun skb' h => ?_) (Or.inr hidle)
    · rw [usedTags, if_neg fun hans => hadds hans.2] at hmem
      cases hmem
    · simp only [handlePppoe, h.code hlen, if_pos hcode, if_neg hadds, if_pos hidle, seen, map_some]
  · rw [or_iff_left hidle]
    refine staysInside_iff_wellTagged (fun skb' h => ?_) fun skb' s' hret => ?_
    · simp only [handlePppoe, h.code hlen, if_pos hcode, if_neg hadds, if_neg hidle, seen, map_some,
        some.injEq, Prod.mk.injEq, true_and, and_true]
      exact (destination_same h s.pppoeAddr).frame
    · simp only [handlePppoe, if_pos hcode, if_neg hadds, if_neg hidle] at hret
      cases hret

theorem lookup_tagged (hcode : skb.code = padoCode ∨ skb.code = padsCode)
    (hadds : s.addPPPoETag = true) :
    StaysInside p fuel kmalloc tagBuf s skb .lookup ↔
      skb.WellTagged ∨ ∀ skb', skb.SameFrame skb' → skb'.GivesUpAnswer := by
  have hret : ∀ skb', skb.SameFrame skb' → seen (handlePppoe p fuel kmalloc tagBuf s skb' .lookup) =
      some ((lookupRelayTag skb').1, (lookupRelayTag skb').2.frame, s) := by
    intro skb' h
    rw [handlePppoe_answer (h.code hlen ▸ hcode) hadds]
    rfl
  have hused : ∀ skb', skb.SameFrame skb' → usedTags tagBuf s skb' .lookup = (lookupRelayTagUsing skb').2 := by
    intro skb' h
    rw [usedTags, if_pos ⟨h.code hlen ▸ hcode, hadds⟩]
  constructor
  · intro hstays
    refine or_iff_not_imp_left.mpr fun hbad skb' h ptr n hat => ?_
    refine or_iff_not_imp_left.mpr fun hle => ?_
    rw [Nat.not_lt] at hle
    have hin := hstays.inside skb' h ptr n (hused skb' h ▸ mem_lookupRelayTagUsing.mpr ⟨hat, hle⟩)
    refine ⟨hin, fun hmagic => ?_⟩
    have hsees := (hstays.framed skb' h).trans (hstays.refused hbad)
    rw [hret skb' h, lookupRelayTag_ours (findPppoeTag_eq_some.mpr hat.1) (relayFrom_type hat.1) hat.2 hle hmagic
      hin.2] at hsees
    exact absurd (congrArg (·.1) (some.inj hsees)) (show (0 : Int) ≠ -1 by decide)
  · rintro (hgood | hgives)
    · refine hgood.staysInside fun skb' h => ?_
      obtain ⟨tags, pad, hc⟩ := hgood
      obtain ⟨hsame, hframe⟩ := lookupRelayTag_same hc h
      rw [hret skb' h, hret skb (.refl skb), hsame, hframe.frame]
    · refine staysInside_of_refused (fun skb' h ptr n hmem => ?_) fun skb' h => ?_
      · rw [hused skb' h] at hmem
        obtain ⟨hat, hle⟩ := mem_lookupRelayTagUsing.mp hmem
        exact ((hgives skb' h ptr n hat).resolve_left (Nat.not_lt.mpr hle)).1
      · rw [hret skb' h, lookupRelayTag_givesUp (hgives skb' h)]

end Branches

/-! ### All PPPoE frames -/

/-- The PPPoE branch keeps to the frame exactly when the tags fill what is announced and that is in the frame, and a
    request that gets a tag is not padded; or when the call gives up early, whatever is behind the frame. -/
theorem tag_handling_inside_iff (p : Ageing) (fuel : ℕ) (kmalloc : Option ℕ) (tagBuf : Bytes) (s : Pppoe) (skb : Skb)
    (hlen : 20 ≤ skb.len) :
    (StaysInside p fuel kmalloc tagBuf s skb .insert ↔ skb.SafeRequest s) ∧
      (StaysInside p fuel kmalloc tagBuf s skb .lookup ↔ skb.SafeAnswer s) := by
  constructor
  · rw [Skb.SafeRequest]
    split_ifs with hsid hcode hadds
    · exact insert_tagged hlen hsid hcode hadds
    · exact insert_untagged hlen hsid hcode hadds
    · exact iff_of_true (insert_notRequest hlen hsid hcode) trivial
    · exact insert_session hlen hsid
  · rw [Skb.SafeAnswer]
    split_ifs with hcode hadds
    · exact lookup_tagged hlen hcode hadds
    · exact lookup_untagged hlen hcode hadds
    · exact lookup_other hlen hcode

theorem tag_handling_inside_request :
    20 ≤ (sampleSkb padiCode [serviceName] 40).len ∧
      StaysInside ⟨300, 100, by decide⟩ 0 none (fun _ => 0) samplePppoe (sampleSkb padiCode [serviceName] 40)
        .insert := by
  have hgood : (sampleSkb padiCode [serviceName] 40).WellTagged :=
    ⟨[serviceName], 0, sampleSkb_carries _ (by decide) (by decide)⟩
  have hpad : ¬(sampleSkb padiCode [serviceName] 40).GrowsPadded := by
    rintro ⟨tags, pad, hc, hpos, -⟩
    have hlen := hc.len
    rw [← hc.length, show (sampleSkb padiCode [serviceName] 40).length = 4 by decide,
      show (sampleSkb padiCode [serviceName] 40).len = 24 by decide] at hlen
    omega
  refine ⟨by decide, (tag_handling_inside_iff _ _ _ _ _ _ (by decide)).1.mpr ?_⟩
  rw [Skb.SafeRequest, if_pos (by decide), if_pos (by decide),
    if_pos (show samplePppoe.addPPPoETag = true from rfl)]
  exact Or.inl ⟨hgood, hpad⟩

/-- An answer that ends behind the head of its relay tag. -/
def cutAnswer (behind : List UInt8) : Skb where
  data i := ([2, 2, 2, 2, 2, 2, 7, 7, 7, 7, 7, 7, 0x88, 0x63, 0x11, 0x07, 0, 0, 0, 12,
    1, 0x10, 0, 8] ++ behind).getD i 0
  len := 24
  size := 64

/-- A request with a `Service-Name` and one byte of padding. -/
def paddedRequest (behind : List UInt8) : Skb where
  data i := ([2, 2, 2, 2, 2, 2, 7, 7, 7, 7, 7, 7, 0x88, 0x63, 0x11, 0x09, 0, 0, 0, 4, 1, 1, 0, 0, 0] ++ behind).getD i 0
  len := 25
  size := 64

/-- What is behind a frame becomes its destination, in a frame that is refused, or the end of a request. -/
theorem bytes_behind_frame_used :
    ((cutAnswer []).SameFrame (cutAnswer [0x81, 0x86, 9, 9, 9, 9, 9, 9]) ∧
      (handlePppoe ⟨300, 100, by decide⟩ 0 none (fun _ => 0) samplePppoe (cutAnswer []) .lookup).map
        (fun x => (x.1, x.2.1.frame.take 6)) = some (-1, [2, 2, 2, 2, 2, 2]) ∧
      (handlePppoe ⟨300, 100, by decide⟩ 0 none (fun _ => 0) samplePppoe
        (cutAnswer [0x81, 0x86, 9, 9, 9, 9, 9, 9]) .lookup).map
          (fun x => (x.1, x.2.1.frame.take 6)) = some (-1, [9, 9, 9, 9, 9, 9])) ∧
    (paddedRequest []).SameFrame (paddedRequest (List.replicate 12 5)) ∧
      (handlePppoe ⟨300, 100, by decide⟩ 0 none (fun _ => 0) samplePppoe (paddedRequest []) .insert).map
        (fun x => (x.1, x.2.1.frame.getLast?)) = some (0, some 0) ∧
      (handlePppoe ⟨300, 100, by decide⟩ 0 none (fun _ => 0) samplePppoe
        (paddedRequest (List.replicate 12 5)) .insert).map
          (fun x => (x.1, x.2.1.frame.getLast?)) = some (0, some 5) :=
  ⟨⟨⟨rfl, rfl, by decide⟩, by decide +kernel, by decide +kernel⟩, ⟨rfl, rfl, by decide⟩, by decide +kernel,
    by decide +kernel⟩

end PhoebusBsp.Nat25

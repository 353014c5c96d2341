import PhoebusBsp.Nat25.RelayTag

/-! What a refused PPPoE frame looks like afterwards.

        NAT25_INSERT     old tag    too long ──▶ -1, as it was
                         old tag    cut out ──▶ room for 12 more bytes and the old value?
                                                no ──▶ -1, the old tag is gone
                         no old tag ──────────▶ room for 12 bytes?
                                                no ──▶ -1, as it was
        NAT25_LOOKUP     no tag, not ours ────▶ -1, as it was

    The cut gives back the old tag's own bytes, so that the new tag needs eight more than were free. -/

namespace PhoebusBsp.Nat25
open Schemes Bytes

/-- The same bytes, and as many of them. -/
def Skb.Untouched (skb skb' : Skb) : Prop := skb'.len = skb.len ∧ ∀ i, i < skb.len → skb'.data i = skb.data i

theorem Skb.untouched_refl (skb : Skb) : skb.Untouched skb := ⟨rfl, fun _ _ => rfl⟩

/-- The first `Relay-Session-Id` of a list of tags. -/
def firstRelay (tags : List Tag) : Option Tag := tags.find? fun t => t.type.toNat = pttRelaySid

section Steps

variable {skb : Skb} {tags : List Tag} {l : List UInt8} {pad : ℕ}

theorem firstRelay_eq_none : firstRelay tags = none ↔ NoRelay tags := by
  simp [firstRelay, NoRelay]

theorem firstRelay_eq_some {t : Tag} (h : firstRelay tags = some t) :
    ∃ pre post, tags = pre ++ t :: post ∧ NoRelay pre ∧ t.type.toNat = pttRelaySid := by
  obtain ⟨ht, pre, post, rfl, hpre⟩ := List.find?_eq_some_iff_append.mp h
  refine ⟨pre, post, rfl, fun u hu => ?_, by simpa using ht⟩
  simpa using hpre u hu

/-- The tag that the code finds, and what it reads of it: the same in all frames with these tags. -/
theorem findPppoeTag_firstRelay {t : Tag} (ht : firstRelay tags = some t) :
    ∃ ptr, 20 ≤ ptr ∧ ∀ {skb : Skb} {pad}, skb.Carries (encodeTags tags) pad →
      ptr + (tagHdrLen + t.value.length) ≤ 20 + skb.length ∧ findPppoeTag skb pttRelaySid = some ptr ∧
      skb.data.be16 ptr = pttRelaySid ∧ skb.data.be16 (ptr + 2) = t.value.length := by
  obtain ⟨pre, post, rfl, hpre, htype⟩ := firstRelay_eq_some ht
  refine ⟨20 + (encodeTags pre).length, Nat.le_add_right .., fun {skb pad} h => ?_⟩
  have hfind := findPppoeTag_some h hpre htype
  have hlength := h.length
  rw [encodeTags_append, encodeTags_cons] at h hlength
  rw [List.length_append, List.length_append, t.length_encode] at hlength
  obtain ⟨-, hrest⟩ := holds_append.mp h.holds
  obtain ⟨hread, hlen, -⟩ := Tag.read (holds_append.mp hrest).1
  exact ⟨by omega, hfind, hread.trans htype, hlen⟩

theorem Skb.Carries.full (h : skb.Carries l pad) : skb.len = 20 + skb.length + pad := by
  rw [h.len, h.length]

theorem insertRelayTag_none (h : skb.Carries (encodeTags tags) pad) (hno : firstRelay tags = none)
    (tagBuf : Bytes) : insertRelayTag tagBuf skb = addRelayTag skb tagBuf 0 := by
  rw [insertRelayTag, findPppoeTag_none h (firstRelay_eq_none.mp hno)]

theorem insertRelayTag_long (h : skb.Carries (encodeTags tags) pad) {t : Tag} (ht : firstRelay tags = some t)
    (hlong : 28 < t.value.length) (tagBuf : Bytes) : insertRelayTag tagBuf skb = (-1, skb) := by
  obtain ⟨ptr, -, hfound⟩ := findPppoeTag_firstRelay ht
  obtain ⟨-, hfind, -, hlen⟩ := hfound h
  simp only [insertRelayTag, hfind, hlen]
  rw [if_pos (by rw [tagHdrLen, magicCodeLen, rtlRelayTagLen]; omega)]

theorem insertRelayTag_short (h : skb.Carries (encodeTags tags) pad) {t : Tag} (ht : firstRelay tags = some t)
    (hshort : t.value.length ≤ 28) (tagBuf : Bytes) :
    ∃ skb' tag, insertRelayTag tagBuf skb = addRelayTag skb' tag t.value.length ∧
      skb'.len + (4 + t.value.length) = skb.len ∧ skb'.size = skb.size := by
  obtain ⟨ptr, -, hfound⟩ := findPppoeTag_firstRelay ht
  obtain ⟨hin, hfind, -, hlen⟩ := hfound h
  have hfull := h.full
  refine ⟨_, _, insertRelayTag_cut hfind hlen hshort (by omega) tagBuf, ?_, rfl⟩
  simp only [Skb.cutTag, Skb.cut, Skb.setLength, tagHdrLen] at hin ⊢
  omega

/-- An insertion that fails has changed the frame exactly when the old tag was cut out in vain. -/
theorem insertRelayTag_untouched (h : skb.Carries (encodeTags tags) pad) (tagBuf : Bytes) :
    ((insertRelayTag tagBuf skb).1 = -1 → skb.Untouched (insertRelayTag tagBuf skb).2) ↔
      ¬((∃ t, firstRelay tags = some t ∧ t.value.length ≤ 28) ∧ skb.tailroom < 8) := by
  cases ht : firstRelay tags with
  | none =>
    rw [insertRelayTag_none h ht]
    refine iff_of_true (fun hfail => ?_) (fun hcut => by simp at hcut)
    rcases Nat.lt_or_ge skb.tailroom (12 + 0) with hfull | hfree
    · rw [addRelayTag_full tagBuf (Nat.zero_le 28) hfull]
      exact skb.untouched_refl
    · rw [addRelayTag_room tagBuf (Nat.zero_le 28) hfree] at hfail
      exact absurd hfail (show (0 : Int) ≠ -1 by decide)
  | some t =>
    by_cases hshort : t.value.length ≤ 28
    · obtain ⟨skb', tag, heq, hlen, hsize⟩ := insertRelayTag_short h ht hshort tagBuf
      have hroom : skb'.tailroom = skb.tailroom + (4 + t.value.length) := by
        have := h.room
        rw [Skb.tailroom, Skb.tailroom, hsize]
        omega
      rw [heq]
      rcases Nat.lt_or_ge skb'.tailroom (12 + t.value.length) with hfull | hfree
      · have heq' := addRelayTag_full tag hshort hfull
        refine iff_of_false (fun hsame => ?_) (fun hno => hno ⟨⟨t, rfl, hshort⟩, by omega⟩)
        rw [heq'] at hsame
        have hsame' : skb'.len = skb.len := (hsame rfl).1
        omega
      · refine iff_of_true (fun hfail => ?_) (fun hcut => ?_)
        · rw [addRelayTag_room tag hshort hfree] at hfail
          exact absurd hfail (show (0 : Int) ≠ -1 by decide)
        · have := hcut.2
          omega
    · rw [insertRelayTag_long h ht (Nat.not_le.mp hshort)]
      refine iff_of_true (fun _ => skb.untouched_refl) ?_
      rintro ⟨⟨u, hu, hle⟩, -⟩
      rw [Option.some.inj hu] at hshort
      exact hshort hle

theorem lookupRelayTag_notOurs {ptr n : ℕ} (hfind : findPppoeTag skb pttRelaySid = some ptr)
    (hlen : skb.data.be16 (ptr + 2) = n) (hother : n < 8 ∨ skb.data.be16 (ptr + 4) ≠ magicCode) :
    lookupRelayTag skb = (-1, skb) := by
  simp only [lookupRelayTag, hfind, hlen]
  by_cases hshort : skb.data.be16 ptr ≠ pttRelaySid ∨ n < magicCodeLen + rtlRelayTagLen
  · rw [if_pos hshort]
  · have hne := hother.resolve_left fun hlt => hshort (Or.inr hlt)
    rw [if_neg hshort, if_pos hne]

/-- An answer that is refused is as it was: the cut does not fail. -/
theorem lookupRelayTag_untouched (h : skb.Carries (encodeTags tags) pad)
    (hfail : (lookupRelayTag skb).1 = -1) : lookupRelayTag skb = (-1, skb) := by
  cases ht : firstRelay tags with
  | none => rw [lookupRelayTag, findPppoeTag_none h (firstRelay_eq_none.mp ht)]
  | some t =>
    obtain ⟨ptr, -, hfound⟩ := findPppoeTag_firstRelay ht
    obtain ⟨hin, hfind, htype, hlen⟩ := hfound h
    have hfull := h.full
    by_cases hours : 8 ≤ t.value.length ∧ skb.data.be16 (ptr + 4) = magicCode
    · rw [lookupRelayTag_ours hfind htype hlen hours.1 hours.2 (by omega)] at hfail
      exact absurd hfail (show (0 : Int) ≠ -1 by decide)
    · refine lookupRelayTag_notOurs hfind hlen ?_
      rwa [not_and_or, Nat.not_le] at hours

end Steps

/-! ### All refusals -/

/-- The call returns -1 only with everything as it was. -/
def RefusesUntouched (p : Ageing) (fuel : ℕ) (kmalloc : Option ℕ) (tagBuf : Bytes) (s : Pppoe) (skb : Skb)
    (method : Method) : Prop :=
  ∀ skb' s', handlePppoe p fuel kmalloc tagBuf s skb method = some (-1, skb', s') → skb.Untouched skb' ∧ s' = s

/-- A request with a `Relay-Session-Id` that fits into the new one, and room for less than the eight bytes by
    which the new one is longer. -/
structure CutInVain (s : Pppoe) (skb : Skb) (tags : List Tag) : Prop where
  adds : s.addPPPoETag = true
  sid : skb.sid = 0
  code : skb.code = padiCode ∨ skb.code = padrCode
  old : ∃ t, firstRelay tags = some t ∧ t.value.length ≤ 28
  full : skb.tailroom < 8

section Handle

variable {p : Ageing} {fuel : ℕ} {kmalloc : Option ℕ} {tagBuf : Bytes} {s : Pppoe} {skb : Skb}

theorem handlePppoe_request (hsid : skb.sid = 0) (hcode : skb.code = padiCode ∨ skb.code = padrCode)
    (hadds : s.addPPPoETag = true) : handlePppoe p fuel kmalloc tagBuf s skb .insert =
      some ((insertRelayTag tagBuf skb).1, (insertRelayTag tagBuf skb).2, s) := by
  simp only [handlePppoe, if_pos hsid, if_pos hcode, if_pos hadds]

theorem handlePppoe_answer (hcode : skb.code = padoCode ∨ skb.code = padsCode) (hadds : s.addPPPoETag = true) :
    handlePppoe p fuel kmalloc tagBuf s skb .lookup = some ((lookupRelayTag skb).1, (lookupRelayTag skb).2, s) := by
  simp only [handlePppoe, if_pos hcode, if_pos hadds]

/-- Every refusal but those of the two functions for relay tags is an early exit. -/
theorem refuses_insert (hother : ¬(skb.sid = 0 ∧ (skb.code = padiCode ∨ skb.code = padrCode) ∧ s.addPPPoETag = true)) :
    RefusesUntouched p fuel kmalloc tagBuf s skb .insert := by
  intro skb' s' hret
  simp only [handlePppoe] at hret
  split_ifs at hret with hsid hcode hadds hbusy
  · exact absurd ⟨hsid, hcode, hadds⟩ hother
  · cases hret
  · cases hret
  · cases hret
  · cases hret
    exact ⟨skb.untouched_refl, rfl⟩
  all_goals
    obtain ⟨priv, -, hret⟩ := Option.bind_eq_some_iff.mp hret
    cases hret

theorem refuses_lookup (hother : ¬((skb.code = padoCode ∨ skb.code = padsCode) ∧ s.addPPPoETag = true)) :
    RefusesUntouched p fuel kmalloc tagBuf s skb .lookup := by
  intro skb' s' hret
  simp only [handlePppoe] at hret
  split_ifs at hret with hcode hadds hbusy hsid
  · exact absurd ⟨hcode, hadds⟩ hother
  · cases hret
    exact ⟨skb.untouched_refl, rfl⟩
  · cases hret
  · obtain ⟨found, -, hret⟩ := Option.bind_eq_some_iff.mp hret
    cases hret
  · cases hret
    exact ⟨skb.untouched_refl, rfl⟩

end Handle

/-- A PPPoE frame of well-formed tags that is refused is untouched, with the database and the connection in
    progress, unless it is a request whose old tag is cut out in vain. -/
theorem refused_untouched_iff (p : Ageing) (fuel : ℕ) (kmalloc : Option ℕ) (tagBuf : Bytes) (s : Pppoe) (skb : Skb)
    (tags : List Tag) (pad : ℕ) (h : skb.Carries (encodeTags tags) pad) :
    RefusesUntouched p fuel kmalloc tagBuf s skb .lookup ∧
      (RefusesUntouched p fuel kmalloc tagBuf s skb .insert ↔ ¬CutInVain s skb tags) := by
  constructor
  · by_cases hanswer : (skb.code = padoCode ∨ skb.code = padsCode) ∧ s.addPPPoETag = true
    · intro skb' s' hret
      rw [handlePppoe_answer hanswer.1 hanswer.2] at hret
      simp only [Option.some.injEq, Prod.mk.injEq] at hret
      obtain ⟨hfail, rfl, rfl⟩ := hret
      rw [lookupRelayTag_untouched h hfail]
      exact ⟨skb.untouched_refl, rfl⟩
    · exact refuses_lookup hanswer
  · by_cases hrequest : skb.sid = 0 ∧ (skb.code = padiCode ∨ skb.code = padrCode) ∧ s.addPPPoETag = true
    · obtain ⟨hsid, hcode, hadds⟩ := hrequest
      have hinsert : RefusesUntouched p fuel kmalloc tagBuf s skb .insert ↔
          ((insertRelayTag tagBuf skb).1 = -1 → skb.Untouched (insertRelayTag tagBuf skb).2) := by
        rw [RefusesUntouched, handlePppoe_request hsid hcode hadds]
        constructor
        · intro hall hfail
          exact (hall _ s (by rw [hfail])).1
        · intro huntouched skb' s' hret
          simp only [Option.some.injEq, Prod.mk.injEq] at hret
          obtain ⟨hfail, rfl, rfl⟩ := hret
          exact ⟨huntouched hfail, rfl⟩
      rw [hinsert, insertRelayTag_untouched h tagBuf]
      refine not_congr ⟨fun hcut => ⟨hadds, hsid, hcode, hcut.1, hcut.2⟩, fun hcut => ⟨hcut.old, hcut.full⟩⟩
    · exact iff_of_true (refuses_insert hrequest) fun hcut => hrequest ⟨hcut.sid, hcut.code, hcut.adds⟩

/-- A `Relay-Session-Id` that is one byte too long. -/
def longRelay : Tag := ⟨0x0110, List.replicate 29 0, by decide⟩

theorem refused_untouched_long :
    (sampleSkb padiCode [longRelay] 53).Carries (encodeTags [longRelay]) 0 ∧
      RefusesUntouched ⟨300, 100, by decide⟩ 0 none (fun _ => 0) samplePppoe (sampleSkb padiCode [longRelay] 53)
        .insert := by
  have hcarries : (sampleSkb padiCode [longRelay] 53).Carries (encodeTags [longRelay]) 0 :=
    sampleSkb_carries _ (by decide) (by decide)
  have hlong : ¬CutInVain samplePppoe (sampleSkb padiCode [longRelay] 53) [longRelay] := by
    intro hcut
    obtain ⟨t, ht, hle⟩ := hcut.old
    cases ht
    exact absurd hle (by decide)
  exact ⟨hcarries, (refused_untouched_iff _ _ _ _ _ _ [longRelay] 0 hcarries).2.mpr hlong⟩

/-- A request with seven bytes free is refused, and its old tag is gone. -/
theorem refused_request_loses_tag :
    (sampleSkb padiCode [serviceName, sampleValue.tag] 38).Carries (encodeTags [serviceName, sampleValue.tag]) 0 ∧
      (sampleSkb padiCode [serviceName, sampleValue.tag] 38).tailroom = 7 ∧
      (handlePppoe ⟨300, 100, by decide⟩ 0 none (fun _ => 0) samplePppoe
        (sampleSkb padiCode [serviceName, sampleValue.tag] 38) .insert).map (fun x => (x.1, x.2.1.len, x.2.1.length)) =
          some (-1, 24, 4) :=
  ⟨sampleSkb_carries _ (by decide) (by decide), by decide, by decide +kernel⟩

end PhoebusBsp.Nat25

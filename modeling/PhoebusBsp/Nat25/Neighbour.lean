import PhoebusBsp.Nat25.Pppoe

/-! The link-layer address in a neighbour discovery message.

        type, code, checksum, ...   │ type │ len │ ... │ type │ len │ ...
        ────── ndOption ───────────▶ └── len * 8 bytes ─┘└── len * 8 bytes ─┘

    `scan_tlv` goes from option to option by the length byte and looks at two bytes of each of them. It does
    not look whether the second one is still in the payload, and an option of length 0 keeps it where it is.
    The scan returns the bytes it has looked at; a scan that has not ended after `fuel` options returns
    `none`. -/

namespace PhoebusBsp.Nat25
open Schemes List Option

/-- `scan_tlv`. -/
def scanTlv (b : Bytes) (tag len8b : UInt8) : ℕ → ℕ → ℤ → Option (Option ℕ × List ℕ)
  | 0, _, _ => none
  | fuel + 1, data, len =>
    if 0 < len then
      if b data = tag ∧ b (data + 1) = len8b ∧ (len8b.toNat * 8 : ℤ) ≤ len then
        some (some (data + 2), [data, data + 1])
      else do
        let skip := (b (data + 1)).toNat * 8
        let (mac, reads) ← scanTlv b tag len8b fuel (data + skip) (len - skip)
        some (mac, data :: (data + 1) :: reads)
    else some (none, [])

def ndiscRouterSolicitation : UInt8 := 133
def ndiscRouterAdvertisement : UInt8 := 134
def ndiscNeighbourSolicitation : UInt8 := 135
def ndiscNeighbourAdvertisement : UInt8 := 136
def ndiscRedirect : UInt8 := 137

/-- Where the options of a message start, and which of them has the address that is to be replaced. -/
def ndOption (icmp6Type : UInt8) : Option (ℕ × UInt8) :=
  if icmp6Type = ndiscRouterSolicitation then some (8, 1)
  else if icmp6Type = ndiscRouterAdvertisement then some (16, 1)
  else if icmp6Type = ndiscNeighbourSolicitation then some (24, 1)
  else if icmp6Type = ndiscNeighbourAdvertisement then some (24, 2)
  else if icmp6Type = ndiscRedirect then some (40, 2)
  else none

/-- `update_nd_link_layer_addr`: the result, the payload and the bytes that the scan has looked at. -/
def updateNdLinkLayerAddr (fuel : ℕ) (data : Bytes) (len : ℕ) (replaceMac : Mac) :
    Option (Int × Bytes × List ℕ) :=
  match ndOption (data 0) with
  | none => some (0, data, [])
  | some (off, tag) =>
    if off ≤ len then do
      match ← scanTlv data tag 1 fuel off (len - off) with
      | (some mac, reads) => some (1, data.write mac 6 fun i => replaceMac.getD i 0, reads)
      | (none, reads) => some (0, data, reads)
    else some (0, data, [])

/-! ### Options -/

section Options

variable (b : Bytes) (len : ℕ) (tag : UInt8)

/-- At `o` there is an option of the type and of eight bytes, all of them in the payload. -/
def IsOption (o : ℕ) : Prop := b o = tag ∧ b (o + 1) = 1 ∧ o + 8 ≤ len

instance (o : ℕ) : Decidable (IsOption b len tag o) := inferInstanceAs (Decidable (_ ∧ _ ∧ _))

/-- From the option at `o` on, `q` is the first one of that kind. -/
inductive FirstOption (q : ℕ) : ℕ → Prop where
  | here (h : IsOption b len tag q) : FirstOption q q
  | later {o : ℕ} (hno : ¬IsOption b len tag o) (hin : o + 1 < len) (hpos : b (o + 1) ≠ 0)
    (h : FirstOption q (o + (b (o + 1)).toNat * 8)) : FirstOption q o

/-- From the option at `o` on, the options up to the first one of that kind have their two bytes in the
    payload and a length. -/
inductive Walkable : ℕ → Prop where
  | past {o : ℕ} (h : len ≤ o) : Walkable o
  | found {o : ℕ} (h : IsOption b len tag o) : Walkable o
  | later {o : ℕ} (hin : o + 1 < len) (hpos : b (o + 1) ≠ 0) (h : Walkable (o + (b (o + 1)).toNat * 8)) : Walkable o

end Options

/-! ### The scan -/

section Scan

variable {b : Bytes} {len : ℕ} {tag : UInt8} {o fuel : ℕ}

theorem scanTlv_over (h : len ≤ o) : scanTlv b tag 1 (fuel + 1) o (len - o) = some (none, []) := by
  have hlen : ¬(0 : ℤ) < len - o := by omega
  simp only [scanTlv, if_neg hlen]

theorem scanTlv_found (h : IsOption b len tag o) :
    scanTlv b tag 1 (fuel + 1) o (len - o) = some (some (o + 2), [o, o + 1]) := by
  have hfits := h.2.2
  have hlen : (0 : ℤ) < len - o := by omega
  have hmatch : b o = tag ∧ b (o + 1) = 1 ∧ ((1 : UInt8).toNat * 8 : ℤ) ≤ len - o :=
    ⟨h.1, h.2.1, by simp only [UInt8.toNat_one]; omega⟩
  simp only [scanTlv, if_pos hlen, if_pos hmatch]

theorem scanTlv_later (ho : o < len) (hno : ¬IsOption b len tag o) :
    scanTlv b tag 1 (fuel + 1) o (len - o) =
      (scanTlv b tag 1 fuel (o + (b (o + 1)).toNat * 8) (len - (o + (b (o + 1)).toNat * 8 : ℕ))).map
        fun x => (x.1, o :: (o + 1) :: x.2) := by
  have hlen : (0 : ℤ) < len - o := by omega
  have hmatch : ¬(b o = tag ∧ b (o + 1) = 1 ∧ ((1 : UInt8).toNat * 8 : ℤ) ≤ len - o) := by
    rintro ⟨htag, hone, hfits⟩
    simp only [UInt8.toNat_one] at hfits
    exact hno ⟨htag, hone, by omega⟩
  have hrest : (len : ℤ) - o - ((b (o + 1)).toNat * 8 : ℕ) = len - (o + (b (o + 1)).toNat * 8 : ℕ) := by
    push_cast
    omega
  simp only [scanTlv, if_pos hlen, if_neg hmatch, hrest]
  cases scanTlv b tag 1 fuel (o + (b (o + 1)).toNat * 8) (len - (o + (b (o + 1)).toNat * 8 : ℕ)) <;> rfl

/-- A scan that ends and stays in the payload has gone over options that can be walked. -/
theorem walkable_of_scan {mac : Option ℕ} {reads : List ℕ}
    (hscan : scanTlv b tag 1 fuel o (len - o) = some (mac, reads)) (hreads : ∀ i ∈ reads, i < len) :
    Walkable b len tag o := by
  induction fuel generalizing o mac reads with
  | zero => cases hscan
  | succ fuel ih =>
    rcases Nat.lt_or_ge o len with ho | ho
    · by_cases hopt : IsOption b len tag o
      · exact .found hopt
      · rw [scanTlv_later ho hopt] at hscan
        obtain ⟨⟨mac', reads'⟩, hrest, heq⟩ := map_eq_some_iff.mp hscan
        obtain ⟨-, rfl⟩ := Prod.mk.inj heq
        have hin : o + 1 < len := hreads (o + 1) (by simp)
        have hwalk := ih hrest fun i hi => hreads i (by simp [hi])
        by_cases hpos : b (o + 1) = 0
        · -- the scan has not moved
          simpa [hpos] using hwalk
        · exact .later hin hpos hwalk
    · exact .past ho

/-- A scan over options that can be walked ends, stays in the payload and finds the first option of the
    kind, if there is one. -/
theorem scan_of_walkable (h : Walkable b len tag o) :
    ∃ fuel mac reads, scanTlv b tag 1 fuel o (len - o) = some (mac, reads) ∧ (∀ i ∈ reads, i < len) ∧
      (mac = none ∧ (∀ q, ¬FirstOption b len tag q o) ∨ ∃ q, mac = some (q + 2) ∧ FirstOption b len tag q o) := by
  induction h with
  | @past o ho =>
    refine ⟨1, none, [], scanTlv_over ho, fun _ h => absurd h not_mem_nil, Or.inl ⟨rfl, fun q hq => ?_⟩⟩
    cases hq with
    | here h => exact absurd h.2.2 (by omega)
    | later _ hin _ _ => omega
  | @found o hopt =>
    refine ⟨1, _, _, scanTlv_found hopt, fun i hi => ?_, Or.inr ⟨o, rfl, .here hopt⟩⟩
    have hfits := hopt.2.2
    simp only [mem_cons, not_mem_nil, or_false] at hi
    omega
  | @later o hin hpos _ ih =>
    by_cases hopt : IsOption b len tag o
    · refine ⟨1, _, _, scanTlv_found hopt, fun i hi => ?_, Or.inr ⟨o, rfl, .here hopt⟩⟩
      simp only [mem_cons, not_mem_nil, or_false] at hi
      omega
    · obtain ⟨fuel, mac, reads, hscan, hreads, hmac⟩ := ih
      refine ⟨fuel + 1, mac, o :: (o + 1) :: reads, ?_, fun i hi => ?_, ?_⟩
      · rw [scanTlv_later (by omega) hopt, hscan]
        rfl
      · rcases mem_cons.mp hi with rfl | hi
        · omega
        · rcases mem_cons.mp hi with rfl | hi
          · exact hin
          · exact hreads i hi
      · rcases hmac with ⟨rfl, hnone⟩ | ⟨q, rfl, hq⟩
        · refine Or.inl ⟨rfl, fun q hq => ?_⟩
          cases hq with
          | here h => exact hopt h
          | later _ _ _ h => exact hnone q h
        · exact Or.inr ⟨q, rfl, .later hopt hin hpos hq⟩

end Scan

/-- The rewrite of a payload ends, looks at its bytes only, and replaces the address in the first option of
    the kind exactly if the options can be walked. -/
theorem nd_rewrite_iff (data : Bytes) (len : ℕ) (replaceMac : Mac) :
    (∃ fuel ret data' reads, updateNdLinkLayerAddr fuel data len replaceMac = some (ret, data', reads) ∧
        (∀ i ∈ reads, i < len) ∧
        (ret = 0 ∧ data' = data ∧
            (∀ off tag, ndOption (data 0) = some (off, tag) → off ≤ len → ∀ q, ¬FirstOption data len tag q off) ∨
          ret = 1 ∧ ∃ off tag q, ndOption (data 0) = some (off, tag) ∧ off ≤ len ∧
            FirstOption data len tag q off ∧ data' = data.write (q + 2) 6 fun i => replaceMac.getD i 0)) ↔
      ∀ off tag, ndOption (data 0) = some (off, tag) → off ≤ len → Walkable data len tag off := by
  constructor
  · rintro ⟨fuel, ret, data', reads, hupdate, hreads, -⟩ off tag hoption hoff
    simp only [updateNdLinkLayerAddr, hoption, if_pos hoff] at hupdate
    obtain ⟨⟨mac, reads'⟩, hscan, hrest⟩ := bind_eq_some_iff.mp hupdate
    have hsame : reads' = reads := by
      cases mac <;> simp only [some.injEq, Prod.mk.injEq] at hrest <;> exact hrest.2.2
    exact walkable_of_scan hscan (hsame ▸ hreads)
  · intro hwalk
    cases hoption : ndOption (data 0) with
    | none =>
      refine ⟨0, 0, data, [], ?_, fun _ h => absurd h not_mem_nil, Or.inl ⟨rfl, rfl, fun _ _ h => nomatch h⟩⟩
      simp only [updateNdLinkLayerAddr, hoption]
    | some x =>
      obtain ⟨off, tag⟩ := x
      by_cases hoff : off ≤ len
      · obtain ⟨fuel, mac, reads, hscan, hreads, ⟨rfl, hnone⟩ | ⟨q, rfl, hq⟩⟩ :=
          scan_of_walkable (hwalk off tag hoption hoff)
        · refine ⟨fuel, 0, data, reads, ?_, hreads, Or.inl ⟨rfl, rfl, fun off' tag' h _ => ?_⟩⟩
          · simp only [updateNdLinkLayerAddr, hoption, if_pos hoff, hscan, bind_eq_bind, bind_some]
          · obtain ⟨rfl, rfl⟩ := Prod.mk.inj (some.inj h)
            exact hnone
        · refine ⟨fuel, 1, _, reads, ?_, hreads, Or.inr ⟨rfl, off, tag, q, rfl, hoff, hq, rfl⟩⟩
          simp only [updateNdLinkLayerAddr, hoption, if_pos hoff, hscan, bind_eq_bind, bind_some]
      · refine ⟨0, 0, data, [], ?_, fun _ h => absurd h not_mem_nil, Or.inl ⟨rfl, rfl, fun off' tag' h hle => ?_⟩⟩
        · simp only [updateNdLinkLayerAddr, hoption, if_neg hoff]
        · obtain ⟨rfl, rfl⟩ := Prod.mk.inj (some.inj h)
          exact absurd hle hoff

/-- A scan that does not move does not end. -/
theorem scanTlv_stuck {b : Bytes} {len : ℕ} {tag : UInt8} {o : ℕ} (ho : o < len) (hno : ¬IsOption b len tag o)
    (hzero : b (o + 1) = 0) (fuel : ℕ) : scanTlv b tag 1 fuel o (len - o) = none := by
  induction fuel with
  | zero => rfl
  | succ fuel ih =>
    rw [scanTlv_later ho hno, hzero]
    exact congrArg (Option.map _) ih

/-- A router solicitation whose option has the type 5 and the length 0. -/
def zeroLengthOption : Bytes := fun i => if i = 0 then 133 else if i = 8 then 5 else 0

/-- A router solicitation that ends with the type of an option. -/
def loneByte : Bytes := fun i => if i = 0 then 133 else 1

theorem nd_scan_stuck_or_outside :
    (∀ fuel, updateNdLinkLayerAddr fuel zeroLengthOption 16 (Vector.replicate 6 2) = none) ∧
      (updateNdLinkLayerAddr 2 loneByte 9 (Vector.replicate 6 2)).map (·.2.2) = some [8, 9] := by
  refine ⟨fun fuel => ?_, by decide⟩
  have hstuck := @scanTlv_stuck zeroLengthOption 16 1 8 (by decide) (by decide) (by decide) fuel
  have hoption : ndOption (zeroLengthOption 0) = some (8, 1) := by decide
  simp only [updateNdLinkLayerAddr, hoption, if_pos (show 8 ≤ 16 by decide), hstuck, bind_eq_bind,
    bind_none]

end PhoebusBsp.Nat25

import PhoebusBsp.Nat25.AgeingMap
import PhoebusBsp.Nat25.Handle

/-! An expired entry and no entry at all, in `nat25_db_handle(NAT25_LOOKUP)`.

                            live        expired        none
        returns             1           1              0
        destination         station     as it was      as it was

    The lookup tells the two apart only by what it returns, and only IP looks at that: a frame to an address
    that is not in the database goes to the bridge or to everybody, one to an expired address stays as it is. -/

namespace PhoebusBsp.Nat25
open Schemes Bytes Option

/-! ### Databases -/

/-- The same database without the entries that have expired. -/
structure SweptOut (p : Ageing) (s s' : Priv) : Prop where
  jiffies : s'.jiffies = s.jiffies
  bodies : ∀ a, s'.bodies a = (s.bodies a).filter fun b => !b.expired p s.jiffies

/-- The address has an entry, and it has expired. -/
def Stale (p : Ageing) (s : Priv) (networkAddr : NetworkAddr) : Prop :=
  ∃ a b, s.bodies a = some b ∧ b.networkAddr = networkAddr ∧ b.expired p s.jiffies = true

section Databases

variable {p : Ageing} {s s' : Priv} {lists lists' : ℕ → List ℕ} {k : NetworkAddr} {fuel : ℕ}

theorem SweptOut.eq_some (h : SweptOut p s s') {a : ℕ} {b : Body} :
    s'.bodies a = some b ↔ s.bodies a = some b ∧ b.expired p s.jiffies = false := by
  rw [h.bodies, filter_eq_some_iff, Bool.not_eq_true']

/-- A sweep that finds the last reference to each expired entry leaves such a database. -/
theorem sweptOut_of_expire (hs : Chained s lists) (hfuel : ∀ h, (lists h).length ≤ fuel)
    (henabled : s.nat25Disable = false)
    (hlast : ∀ a b, s.bodies a = some b → b.expired p s.jiffies = true → b.useCount = 1) :
    ∃ s', dbExpire p fuel s = some s' ∧ SweptOut p s s' := by
  obtain ⟨s', lists', hs', -, -, hj, -, hbodies⟩ := dbExpire_spec p hs hfuel henabled
  refine ⟨s', hs', hj, fun a => ?_⟩
  rw [hbodies]
  cases hb : s.bodies a with
  | none => rfl
  | some b =>
    cases hout : b.expired p s.jiffies with
    | false => simp [aged, hout, Option.filter]
    | true => simp [aged, hout, hlast a b hb hout, Option.filter]

theorem SweptOut.entry (h : SweptOut p s s') (hs : Chained s lists) (hs' : Chained s' lists') (k : NetworkAddr) :
    s'.entry k = (s.entry k).filter fun b => !b.expired p s.jiffies := by
  ext b
  rw [hs'.entry_eq_some, filter_eq_some_iff, hs.entry_eq_some, Bool.not_eq_true']
  simp only [h.eq_some, and_right_comm, exists_and_right]

theorem stale_iff (hs : Chained s lists) : Stale p s k ↔ ∃ b, s.entry k = some b ∧ b.expired p s.jiffies = true := by
  simp only [Stale, hs.entry_eq_some]
  constructor
  · rintro ⟨a, b, hb, haddr, hout⟩
    exact ⟨b, ⟨a, hb, haddr⟩, hout⟩
  · rintro ⟨b, ⟨a, hb, haddr⟩, hout⟩
    exact ⟨a, b, hb, haddr, hout⟩

/-- The two databases answer alike, but for what they return for an expired address. -/
theorem found_swept (o : Option Body) (j : ℕ) :
    (∃ b, o = some b ∧ b.expired p j = true) ∧ found p j o = (1, none) ∧
        found p j (o.filter fun b => !b.expired p j) = (0, none) ∨
      (¬∃ b, o = some b ∧ b.expired p j = true) ∧ found p j (o.filter fun b => !b.expired p j) = found p j o := by
  cases o with
  | none => exact Or.inr ⟨by simp, rfl⟩
  | some b =>
    cases hout : b.expired p j with
    | true => exact Or.inl ⟨⟨b, rfl, hout⟩, by simp [found, hout], by simp [found, hout, Option.filter]⟩
    | false => exact Or.inr ⟨by simp [hout], by simp [hout, Option.filter]⟩

end Databases

/-! ### Frames -/

/-- What the caller gets: the return value and the frame. -/
def outcome (x : Option (Int × Skb × Pppoe)) : Option (Int × Skb) := x.map fun y => (y.1, y.2.1)

/-- Two databases with enough fuel for both, the second one without what has expired in the first. -/
structure Swept (e : Env) (s s' : Priv) : Prop where
  out : SweptOut e.ageing s s'
  before : ∃ lists, Chained s lists ∧ ∀ h, (lists h).length ≤ e.fuel
  after : ∃ lists, Chained s' lists ∧ ∀ h, (lists h).length ≤ e.fuel

section Frames

variable {e : Env} {s : Pppoe} {priv' : Priv} {skb : Skb}

theorem Swept.lookup (h : Swept e s.priv priv') (k : NetworkAddr) :
    ∃ ret ret' m q q', dbLookup e.ageing e.fuel s.priv k = some (ret, m, q) ∧
      dbLookup e.ageing e.fuel priv' k = some (ret', m, q') ∧
      (¬Stale e.ageing s.priv k ∧ ret' = ret ∨ Stale e.ageing s.priv k ∧ m = none ∧ ret = 1 ∧ ret' = 0) := by
  obtain ⟨lists, hs, hfuel⟩ := h.before
  obtain ⟨lists', hs', hfuel'⟩ := h.after
  obtain ⟨ret, m, q, hq, hchained, -, hfinds⟩ := dbLookup_spec e.ageing hs hfuel k
  obtain ⟨ret', m', q', hq', hchained', -, hfinds'⟩ := dbLookup_spec e.ageing hs' hfuel' k
  have hfound := (hfinds.entry hs hchained).1
  have hfound' := (hfinds'.entry hs' hchained').1
  rw [h.out.jiffies, h.out.entry hs hs' k] at hfound'
  rw [stale_iff hs]
  rcases found_swept (p := e.ageing) (s.priv.entry k) s.priv.jiffies with ⟨hstale, hone, hzero⟩ | ⟨hfresh, hsame⟩
  · obtain ⟨rfl, rfl⟩ := Prod.mk.inj (hfound.trans hone)
    obtain ⟨rfl, rfl⟩ := Prod.mk.inj (hfound'.trans hzero)
    exact ⟨_, _, none, q, q', hq, hq', Or.inr ⟨hstale, rfl, rfl, rfl⟩⟩
  · obtain ⟨rfl, rfl⟩ := Prod.mk.inj (hfound'.trans (hsame.trans hfound.symm))
    exact ⟨_, _, _, q, q', hq, hq', Or.inl ⟨hfresh, rfl⟩⟩

/-- A branch that does not look at what the lookup returns. -/
theorem Swept.forgets (h : Swept e s.priv priv') (k : NetworkAddr) (post : Skb → Skb) :
    outcome (do
      let (_, skb, s) ← lookupDestination e { s with priv := priv' } skb k
      some (0, post skb, s)) =
    outcome (do
      let (_, skb, s) ← lookupDestination e s skb k
      some (0, post skb, s)) := by
  obtain ⟨ret, ret', m, q, q', hq, hq', -⟩ := h.lookup k
  simp [lookupDestination_eq, hq, hq', outcome]

theorem handleArp_swept (h : Swept e s.priv priv') :
    outcome (handleArp e { s with priv := priv' } skb .lookup) = outcome (handleArp e s skb .lookup) := by
  simp only [handleArp]
  split_ifs
  · rfl
  · exact h.forgets _ fun skb' => skb'.putMac _ (skb'.mac 0)

theorem handleNovell_swept (h : Swept e s.priv priv') (novell : Option Novell) :
    outcome (handleNovell e { s with priv := priv' } skb novell .lookup) =
      outcome (handleNovell e s skb novell .lookup) := by
  rcases novell with _ | ⟨off | off | off⟩
  · rfl
  · simp only [handleNovell, handleIpx]
    split_ifs
    · exact h.forgets _ fun skb' => skb'.putMac _ (skb'.mac 0)
    · exact h.forgets _ id
  · simp only [handleNovell, handleAarp]
    split_ifs
    · rfl
    · exact h.forgets _ fun skb' => skb'.putMac _ (skb'.mac 0)
  · exact h.forgets _ id

theorem handlePppoe_swept (h : Swept e s.priv priv') :
    outcome (handlePppoe e.ageing e.fuel e.kmalloc e.tagBuf { s with priv := priv' } skb .lookup) =
      outcome (handlePppoe e.ageing e.fuel e.kmalloc e.tagBuf s skb .lookup) := by
  simp only [handlePppoe]
  split_ifs
  · rfl
  · rfl
  · rfl
  · obtain ⟨ret, ret', m, q, q', hq, hq', -⟩ := h.lookup (generatePppoeNetworkAddr skb 6)
    simp [dbNetworkLookupAndReplace_eq, hq, hq', outcome]
  · rfl

/-- IPv6 tells the two apart when a multicast address is to get a multicast MAC. -/
theorem handleIpv6_swept (h : Swept e s.priv priv') (hunicast : skb.data 0 &&& 1 = 0) :
    outcome (handleIpv6 e { s with priv := priv' } skb .lookup) = outcome (handleIpv6 e s skb .lookup) ↔
      (malformedIpv6 skb = false → Stale e.ageing s.priv (generateIpv6NetworkAddr skb.data 38) →
        ¬(e.rxUni2mcast = true ∧ skb.data 38 = 0xff)) := by
  simp only [handleIpv6]
  cases hbad : malformedIpv6 skb with
  | true => simp [outcome]
  | false =>
    obtain ⟨ret, ret', m, q, q', hq, hq', hcases⟩ := h.lookup (generateIpv6NetworkAddr skb.data 38)
    simp only [lookupDestination_eq, hq, hq', map_some, bind_eq_bind, bind_some, outcome,
      Bool.false_eq_true, if_false, forall_const]
    rcases hcases with ⟨hfresh, rfl⟩ | ⟨hstale, rfl, rfl, rfl⟩
    · refine iff_of_true ?_ fun hstale => absurd hstale hfresh
      split_ifs <;> rfl
    · have hmc : convertIpv6MacToMc skb ≠ skb := by
        intro heq
        have hbyte : (convertIpv6MacToMc skb).data 0 = 0x33 := rfl
        rw [heq] at hbyte
        rw [hbyte] at hunicast
        exact absurd hunicast (by decide)
      have hnone : skb.toStation none = skb := rfl
      have hone : ¬((1 : Int) = 0 ∧ e.rxUni2mcast = true ∧ skb.data 38 = 0xff) := fun hall => absurd hall.1 (by decide)
      rw [hnone, if_neg hone]
      by_cases hmulti : e.rxUni2mcast = true ∧ skb.data 38 = 0xff
      · rw [if_pos ⟨rfl, hmulti⟩]
        refine iff_of_false (fun heq => hmc ?_) fun hno => hno hstale hmulti
        exact congrArg (·.2) (some.inj heq)
      · rw [if_neg fun hall => hmulti hall.2]
        exact iff_of_true rfl fun _ => hmulti

/-! #### IPv4 -/

/-- Where a frame to an unknown address goes. -/
def unknownTarget (cfg : Config) (skb : Skb) : Mac :=
  if skb.data 33 = 0xff then broadcast
  else if cfg.maccloneEnable && cfg.maccloneCompleted then skb.mac 0
  else cfg.brMac

/-- A frame that stays as it is ends where one to an unknown address does: they have the same destination, or
    both are DHCP answers that become broadcasts. -/
def SameFate (cfg : Config) (skb : Skb) : Prop :=
  unknownTarget cfg skb = skb.mac 0 ∨
    cfg.dhcpBcstDisable = false ∧ isDhcpAnswer skb.data = true ∧
      ((unknownTarget cfg skb)[0] = 0xff → unknownTarget cfg skb = broadcast)

variable {cfg : Config}

theorem forwardUnknown_eq (cfg : Config) (skb : Skb) :
    forwardUnknown cfg skb = skb.putMac 0 (unknownTarget cfg skb) := by
  rw [forwardUnknown, unknownTarget]
  split_ifs
  · rfl
  · exact (skb.putMac_mac 0).symm
  · rfl

theorem dhcpDstBcast_putMac (hda : skb.data 0 ≠ 0xff) (m : Mac) :
    dhcpDstBcast cfg (skb.putMac 0 m) = dhcpDstBcast cfg skb ↔
      m = skb.mac 0 ∨ cfg.dhcpBcstDisable = false ∧ isDhcpAnswer skb.data = true ∧ (m[0] = 0xff → m = broadcast) := by
  have hbehind : SameBehind skb.data (skb.putMac 0 m).data := fun i hi => skb.putMac_of_notMem 0 m (Or.inr hi)
  by_cases hanswer : cfg.dhcpBcstDisable = false ∧ isDhcpAnswer skb.data = true
  · obtain ⟨hon, hdhcp⟩ := hanswer
    have hfirst : (skb.putMac 0 m).data 0 = m[0] := skb.putMac_data 0 m (i := 0) (by decide)
    -- the first six bytes on both sides
    have hto : ∀ i (hi : i < 6), (dhcpDstBcast cfg (skb.putMac 0 m)).data i = if m[0] = 0xff then m[i] else 0xff := by
      intro i hi
      have hbyte : (skb.putMac 0 m).data i = m[i] := by simpa using skb.putMac_data 0 m hi
      rw [dhcpDstBcast_destination hon (hbehind.isDhcpAnswer.trans hdhcp) hi, hfirst, hbyte]
    have hstay : ∀ i, i < 6 → (dhcpDstBcast cfg skb).data i = 0xff := by
      intro i hi
      rw [dhcpDstBcast_destination hon hdhcp hi, if_neg hda]
    have himp : dhcpDstBcast cfg (skb.putMac 0 m) = dhcpDstBcast cfg skb ↔ (m[0] = 0xff → m = broadcast) := by
      constructor
      · intro heq hff
        refine Vector.ext fun i hi => ?_
        have hbyte := hto i hi
        rw [heq, hstay i hi, if_pos hff] at hbyte
        simp [broadcast, ← hbyte]
      · intro hcond
        have hdata : (dhcpDstBcast cfg (skb.putMac 0 m)).data = (dhcpDstBcast cfg skb).data := by
          funext i
          rcases Nat.lt_or_ge i 6 with hi | hi
          · rw [hto i hi, hstay i hi]
            split_ifs with hff
            · simp [hcond hff, broadcast]
            · rfl
          · exact dhcpDstBcast_behind hbehind i hi
        rw [dhcpDstBcast_eq cfg skb, dhcpDstBcast_eq cfg (skb.putMac 0 m), hdata]
        rfl
    rw [himp]
    refine ⟨fun hcond => Or.inr ⟨hon, hdhcp, hcond⟩, ?_⟩
    rintro (rfl | ⟨-, -, hcond⟩)
    · intro hff
      exact absurd hff (by simpa [Skb.mac] using hda)
    · exact hcond
  · have hno : ∀ k : Skb, isDhcpAnswer k.data = isDhcpAnswer skb.data → dhcpDstBcast cfg k = k := by
      intro k hk
      rw [dhcpDstBcast]
      split_ifs with hoff hans
      · rfl
      · exact absurd ⟨by simpa using hoff, hk.symm.trans hans⟩ hanswer
      · rfl
    rw [hno _ hbehind.isDhcpAnswer, hno skb rfl]
    constructor
    · intro heq
      left
      rw [← heq, Skb.mac_putMac]
    · rintro (rfl | ⟨hon, hdhcp, -⟩)
      · exact skb.putMac_mac 0
      · exact absurd ⟨hon, hdhcp⟩ hanswer

/-- The gate changes the destination at most, and not to a broadcast. -/
theorem lookupGate_spec (cfg : Config) (hunicast : skb.data 0 &&& 1 = 0) :
    SameBehind skb.data (lookupGate cfg skb).2.data ∧ (lookupGate cfg skb).2.data 0 ≠ 0xff := by
  have hkept : SameBehind skb.data skb.data ∧ skb.data 0 ≠ 0xff := by
    refine ⟨fun _ _ => rfl, fun hff => ?_⟩
    rw [hff] at hunicast
    exact absurd hunicast (by decide)
  have hcheck : SameBehind skb.data (checkIpMcAndReplace cfg skb).2.data ∧
      (checkIpMcAndReplace cfg skb).2.data 0 ≠ 0xff := by
    rw [checkIpMcAndReplace]
    split_ifs
    · exact hkept
    · split
      · next mcmac hfind =>
        have hmc : mcmac[0] = 0x01 := by
          have := List.find?_some hfind
          simp only [decide_eq_true_eq] at this
          exact this.1
        refine ⟨fun i hi => skb.putMac_of_notMem 0 mcmac (Or.inr hi), ?_⟩
        have hfirst : (skb.putMac 0 mcmac).data 0 = mcmac[0] := skb.putMac_data 0 mcmac (i := 0) (by decide)
        rw [hfirst, hmc]
        decide
      · exact hkept
  rw [lookupGate]
  split_ifs
  · exact hkept
  · exact hcheck
  · exact hkept

/-- IPv4 tells the two apart when the frame would have gone elsewhere. -/
theorem handleIp_swept (h : Swept e s.priv priv') (hunicast : skb.data 0 &&& 1 = 0) :
    outcome (handleIp cfg e { s with priv := priv' } skb .lookup) = outcome (handleIp cfg e s skb .lookup) ↔
      (malformedIp skb = false → (lookupGate cfg skb).1 = true →
        Stale e.ageing s.priv (generateIpv4NetworkAddr skb.data 30) → SameFate cfg (lookupGate cfg skb).2) := by
  obtain ⟨hbehind, hda⟩ := lookupGate_spec cfg hunicast
  have hkey := hbehind.generateIpv4NetworkAddr (show 6 ≤ 30 by decide)
  simp only [handleIp, lookupIp]
  generalize lookupGate cfg skb = gate at *
  obtain ⟨asks, skb₁⟩ := gate
  cases hbad : malformedIp skb with
  | true => simp [outcome]
  | false =>
    cases asks with
    | false => simp [outcome]
    | true =>
      obtain ⟨ret, ret', m, q, q', hq, hq', hcases⟩ := h.lookup (generateIpv4NetworkAddr skb.data 30)
      simp only [hkey, lookupDestination_eq, hq, hq', map_some, bind_eq_bind, bind_some, outcome,
        Bool.false_eq_true, if_false, forall_const]
      rcases hcases with ⟨hfresh, rfl⟩ | ⟨hstale, rfl, rfl, rfl⟩
      · exact iff_of_true rfl fun hstale => absurd hstale hfresh
      · have hnone : skb₁.toStation none = skb₁ := rfl
        rw [hnone, if_pos rfl, if_neg (by decide), forwardUnknown_eq]
        simp only [some.injEq, Prod.mk.injEq, true_and]
        rw [dhcpDstBcast_putMac hda]
        exact ⟨fun hsame _ => hsame, fun hsame => hsame hstale⟩

end Frames

/-! ### All protocols -/

/-- The return value and the frame of `nat25_db_handle(NAT25_LOOKUP)`. -/
def lookedUp (cfg : Config) (e : Env) (s : Wlan) (skb : Skb) : Option (Int × Skb) :=
  (nat25DbHandle cfg e s skb .lookup).map fun x => (x.1, x.2.1)

/-- No expired entry makes a difference: an IPv4 frame to such an address ends where one to an unknown address does,
    and an IPv6 frame to such an address would not have become a multicast. -/
structure Indifferent (cfg : Config) (e : Env) (s : Wlan) (skb : Skb) : Prop where
  ip : skb.protocol = ethPIp → malformedIp skb = false → (lookupGate cfg skb).1 = true →
    Stale e.ageing s.pppoe.priv (generateIpv4NetworkAddr skb.data 30) → SameFate cfg (lookupGate cfg skb).2
  ipv6 : skb.protocol = ethPIpv6 → malformedIpv6 skb = false →
    Stale e.ageing s.pppoe.priv (generateIpv6NetworkAddr skb.data 38) → ¬(e.rxUni2mcast = true ∧ skb.data 38 = 0xff)

section Protocols

variable {cfg : Config} {e : Env} {s : Wlan} {priv' : Priv} {skb : Skb}

theorem lookedUp_known {handled : Option (Int × Skb × Pppoe)}
    (hknown : knownProtocol cfg e s.pppoe skb .lookup = some handled) : lookedUp cfg e s skb = outcome handled := by
  rw [lookedUp, nat25DbHandle, hknown]
  exact map_map ..

theorem lookedUp_unknown (hknown : knownProtocol cfg e s.pppoe skb .lookup = none) :
    lookedUp cfg e s skb = some (0, if s.ukproMacValid then skb.putMac 0 s.ukproMac else skb) := by
  rw [lookedUp, nat25DbHandle, hknown]
  rfl

/-- The other protocols do not look at what the lookup returns. -/
theorem lookedUp_swept (h : Swept e s.pppoe.priv priv') (hip : skb.protocol ≠ ethPIp)
    (hipv6 : skb.protocol ≠ ethPIpv6) :
    lookedUp cfg e { s with pppoe := { s.pppoe with priv := priv' } } skb = lookedUp cfg e s skb := by
  have hknown : (knownProtocol cfg e { s.pppoe with priv := priv' } skb .lookup).map outcome =
      (knownProtocol cfg e s.pppoe skb .lookup).map outcome := by
    simp only [knownProtocol, if_neg hip, if_neg hipv6]
    split_ifs
    · exact congrArg some (handleArp_swept h)
    · exact congrArg some (handleNovell_swept h _)
    · exact congrArg some (handleNovell_swept h _)
    · exact congrArg some (handlePppoe_swept h)
    · rfl
    · rfl
  cases hleft : knownProtocol cfg e { s.pppoe with priv := priv' } skb .lookup with
  | none =>
    rw [hleft] at hknown
    have hright : knownProtocol cfg e s.pppoe skb .lookup = none := map_eq_none_iff.mp hknown.symm
    rw [lookedUp_unknown hleft, lookedUp_unknown hright]
  | some handled =>
    rw [hleft] at hknown
    obtain ⟨handled', hright, hsame⟩ := map_eq_some_iff.mp hknown.symm
    rw [lookedUp_known hleft, lookedUp_known hright, hsame]

end Protocols

/-- For a unicast frame of any protocol, a database with its expired entries is as good as one without them exactly
    when no expired entry makes a difference for IP. -/
theorem expired_is_absent_iff (cfg : Config) (e : Env) (s : Wlan) (priv' : Priv) (skb : Skb)
    (h : Swept e s.pppoe.priv priv') (hunicast : skb.data 0 &&& 1 = 0) :
    lookedUp cfg e { s with pppoe := { s.pppoe with priv := priv' } } skb = lookedUp cfg e s skb ↔
      Indifferent cfg e s skb := by
  by_cases hip : skb.protocol = ethPIp
  · have hv4 : ∀ t : Wlan, lookedUp cfg e t skb = outcome (handleIp cfg e t.pppoe skb .lookup) := fun t =>
      lookedUp_known (if_pos hip)
    have hv6 : skb.protocol ≠ ethPIpv6 := by rw [hip]; decide
    rw [hv4, hv4, handleIp_swept h hunicast]
    exact ⟨fun hcond => ⟨fun _ => hcond, fun h6 => absurd h6 hv6⟩, fun hcond => hcond.ip hip⟩
  · by_cases hipv6 : skb.protocol = ethPIpv6
    · have hv6 : ∀ t : Wlan, lookedUp cfg e t skb = outcome (handleIpv6 e t.pppoe skb .lookup) := by
        intro t
        refine lookedUp_known ?_
        simp [knownProtocol, hipv6, ethPIp, ethPArp, ethPIpx, ethPIpv6, ethPPppDisc, ethPPppSes]
      rw [hv6, hv6, handleIpv6_swept h hunicast]
      exact ⟨fun hcond => ⟨fun h4 => absurd h4 hip, fun _ => hcond⟩, fun hcond => hcond.ipv6 hipv6⟩
    · exact iff_of_true (lookedUp_swept h hip hipv6) ⟨fun h4 => absurd h4 hip, fun h6 => absurd h6 hipv6⟩

/-! ### Samples -/

def sampleConfig : Config where
  txMcast2uni := false
  mc2uDisable := false
  stationState := true
  asocState := true
  adhocState := false
  asocList := []
  maccloneEnable := false
  maccloneCompleted := false
  dhcpBcstDisable := false
  brMac := Vector.replicate 6 4

def sampleEnv : Env where
  ageing := sampleAgeing
  fuel := 2
  kmalloc := none
  tagBuf _ := 0
  myHwaddr := Vector.replicate 6 6
  rxUni2mcast := false

/-- An ARP answer to 10.0.0.9. -/
def arpAnswer : Skb where
  data i := [2, 2, 2, 2, 2, 2, 7, 7, 7, 7, 7, 7, 8, 6, 0, 1, 8, 0, 6, 4, 0, 2, 7, 7, 7, 7, 7, 7, 10, 0, 0, 1,
    2, 2, 2, 2, 2, 2, 10, 0, 0, 9].getD i 0
  len := 42
  size := 64

/-- A TCP segment to 10.0.0.9. -/
def tcpSegment : Skb where
  data i := [2, 2, 2, 2, 2, 2, 7, 7, 7, 7, 7, 7, 8, 0, 0x45, 0, 0, 20, 0, 0, 0, 0, 64, 6, 0, 0, 10, 0, 0, 1,
    10, 0, 0, 9].getD i 0
  len := 34
  size := 64

/-- A database with this one entry, 40000 jiffies later. -/
theorem exists_stale (networkAddr : NetworkAddr) :
    ∃ s lists, Chained s lists ∧ (∀ h, (lists h).length ≤ 2) ∧ s.nat25Disable = false ∧ s.jiffies = 40000 ∧
      s.bodies = Function.update (fun _ => none) 0 (some ⟨networkAddr, Vector.replicate 6 9, 1, 0⟩) := by
  set s : Priv := { samplePriv with jiffies := 40000 } with hs
  have hempty : s.bodies = fun _ => none := rfl
  obtain ⟨s', -, hchained, hbodies, hside⟩ := linkFresh_spec (chained_fresh (s := s)
    ⟨fun _ => rfl, fun _ => rfl⟩) (q := 0) rfl ⟨networkAddr, Vector.replicate 6 9, 1, 0, none, none⟩
      (fun a b hb => nomatch hb)
  refine ⟨s', _, hchained, fun h => ?_, congrArg (·.2.2.1) hside, congrArg (·.2.2.2) hside, ?_⟩
  · by_cases hh : h = networkHash s.hashSize networkAddr
    · simp [hh]
    · simp [hh]
  · rw [hbodies, hempty]
    rfl

theorem expired_is_absent_arp :
    ∃ s priv', Stale sampleAgeing s.pppoe.priv (generateIpv4NetworkAddr arpAnswer.data 38) ∧
      dbExpire sampleAgeing 2 s.pppoe.priv = some priv' ∧
      lookedUp sampleConfig sampleEnv { s with pppoe := { s.pppoe with priv := priv' } } arpAnswer =
        lookedUp sampleConfig sampleEnv s arpAnswer := by
  obtain ⟨s, lists, hs, hfuel, henabled, hj, hbodies⟩ := exists_stale (generateIpv4NetworkAddr arpAnswer.data 38)
  have hlast : ∀ a b, s.bodies a = some b → b.expired sampleAgeing s.jiffies = true → b.useCount = 1 := by
    intro a b hb _
    rw [hbodies] at hb
    by_cases ha : a = 0
    · rw [ha, Function.update_self] at hb
      rw [← some.inj hb]
    · rw [Function.update_of_ne ha] at hb
      cases hb
  obtain ⟨priv', hexpire, hout⟩ := sweptOut_of_expire hs hfuel henabled hlast
  obtain ⟨s', lists', hs', hchained, hsub, -⟩ := dbExpire_spec sampleAgeing hs hfuel henabled
  obtain rfl := some.inj (hexpire.symm.trans hs')
  have hswept : Swept sampleEnv s priv' :=
    ⟨hout, ⟨lists, hs, hfuel⟩, lists', hchained, fun h => (hsub h).length_le.trans (hfuel h)⟩
  refine ⟨⟨⟨s, false, 0, Vector.replicate 6 0⟩, Vector.replicate 6 0, false⟩, priv', ?_, hexpire, ?_⟩
  · refine ⟨0, _, by rw [hbodies, Function.update_self], rfl, ?_⟩
    rw [hj]
    decide
  · refine (expired_is_absent_iff _ _ _ _ _ hswept (by decide)).mpr ⟨fun hip => ?_, fun hipv6 => ?_⟩
    · exact absurd hip (by decide)
    · exact absurd hipv6 (by decide)

/-- The state of a station with this database. -/
def sampleWlan (priv : Priv) : Wlan := ⟨⟨priv, false, 0, Vector.replicate 6 0⟩, Vector.replicate 6 0, false⟩

/-- 10.0.0.9 is put into the database, and 30000 jiffies go by. Before the sweep a segment to that address keeps its
    destination, after the sweep it goes to the bridge. -/
theorem expired_entry_keeps_destination :
    ∃ s s', dbNetworkInsert 2 samplePriv (some 0) (Vector.replicate 6 9)
        (generateIpv4NetworkAddr tcpSegment.data 30) = some s ∧
      dbExpire sampleAgeing 2 { s with jiffies := s.jiffies + 30000 } = some s' ∧
      (lookedUp sampleConfig sampleEnv (sampleWlan { s with jiffies := s.jiffies + 30000 }) tcpSegment).map
        (fun x => (x.1, x.2.mac 0)) = some (0, Vector.replicate 6 2) ∧
      (lookedUp sampleConfig sampleEnv (sampleWlan s') tcpSegment).map (fun x => (x.1, x.2.mac 0)) =
        some (0, sampleConfig.brMac) :=
  ⟨_, _, rfl, rfl, by decide, by decide⟩

end PhoebusBsp.Nat25

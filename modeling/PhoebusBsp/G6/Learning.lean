import PhoebusBsp.G6.Operations

/-! Whether the database learns who has sent an IPv4 frame.

                                  entry of the source address
        SA is                     says SA     says another     none
        scdb_mac, with entry      if it is    -                -           the entry of the shortcut is renewed
        scdb_mac, no entry        learned     learned          learned     NAT25_INSERT
        another                   learned     -                learned     the entry is renewed, or NAT25_INSERT

    The first row is for a station with several addresses: while one of them is in the shortcut, the others are
    not recorded. In the last row an address has moved from one station to another: its entry is renewed, but it
    goes on to name the first one. And 0.0.0.0 is not recorded at all. A reply to a learned address goes to the
    sender, unless `scdb_ip` still is that address and `scdb_mac` another station. -/

namespace PhoebusBsp.G6
open Schemes Bytes Nat25 Option

/-- The database maps the address to the station, as of now. -/
def Learned (s : Adapter) (networkAddr : NetworkAddr) (m : Mac) : Prop :=
  ∃ a b, s.priv.bodies a = some b ∧ b.networkAddr = networkAddr ∧ b.macAddr = m ∧ b.ageingTimer = s.priv.clock

/-- A well-formed unicast IPv4 frame to the source address of `skb` that the database is asked about. -/
structure Reply (cfg : Config) (s : Adapter) (skb reply : Skb) : Prop where
  enabled : s.priv.nat25Disable = false
  unicast : reply.data 0 &&& 1 = 0
  ip : (untag reply).2.protocol = ethPIp
  wellFormed : malformedIp (untag reply).2 = false
  target : ∀ i < 4, (untag reply).2.data (30 + i) = skb.data (26 + i)
  asked : lookupGate cfg (untag reply).2 = (true, (untag reply).2)

/-- The received frame is handed on with the station's address. -/
def Delivered (cfg : Config) (e : Env) (s : Adapter) (reply : Skb) (m : Mac) : Prop :=
  ∃ out s', nat25HandleFrame cfg e s reply = some (0, out, s') ∧ out.mac 0 = m

/-- The shortcut for received frames leads to another station. -/
def Misled (cfg : Config) (s : Adapter) (ip : UInt32) (m : Mac) : Prop :=
  cfg.nat25scDisable = false ∧ s.priv.scdbIp = ip ∧ s.priv.scdbMac ≠ m

/-- What has to be the case before a frame from `m` and `ip` for the database to learn it, and for replies to
    reach `m`. -/
def Learnable (cfg : Config) (s : Adapter) (networkAddr : NetworkAddr) (ip : UInt32) (m : Mac) : Prop :=
  if s.priv.scdbMac = m then
    match s.scdbEntry with
    | some a => ∃ c b, s.priv.bodies c = some b ∧ b.networkAddr = networkAddr ∧ b.macAddr = m ∧
        (c = a ∨ b.ageingTimer = s.priv.clock)
    | none => ip ≠ 0 ∨ Learned s networkAddr m ∧ (cfg.nat25scDisable = true ∨ m = Vector.replicate 6 0)
  else
    (∃ a b, s.priv.bodies a = some b ∧ b.networkAddr = networkAddr ∧ b.macAddr = m) ∨
      ip ≠ 0 ∧ (∀ a b, s.priv.bodies a = some b → b.networkAddr ≠ networkAddr) ∧
        (cfg.nat25scDisable = true ∨ s.priv.scdbIp ≠ ip)

section Learned

variable {s s' : Adapter} {lists : ℕ → List ℕ} {networkAddr : NetworkAddr} {m : Mac} {ip : UInt32} {a : ℕ}
    {b : Body}

/-- A fresh entry is live. -/
theorem expired_now (p : Ageing) (hpos : 0 < p.jiffies) (hnow : b.ageingTimer = s.priv.clock) :
    b.expired p s.priv.jiffies = false := by
  rw [← Bool.not_eq_true, Body.expired, hnow, Priv.clock, timeBeforeEq_timeout_iff p le_rfl (by omega)]
  omega

/-- What has just been learned outlives a sweep. -/
theorem Learned.expire {p : Ageing} {fuel : ℕ} (hpos : 0 < p.jiffies) (hs : Chained s.priv lists)
    (hfuel : ∀ h, (lists h).length ≤ fuel) (hcached : s.Cached) (h : Learned s networkAddr m) :
    ∃ s', nat25DbExpire p fuel s = some s' ∧ s'.Cached ∧ Learned s' networkAddr m := by
  obtain ⟨a, b, hb, haddr, hmac, hnow⟩ := h
  obtain ⟨s', -, hs', ⟨hj, hcached'⟩, -, -, hbodies⟩ := nat25DbExpire_spec p hs hfuel hcached
  refine ⟨s', hs', hcached', a, b, ?_, haddr, hmac, hnow.trans (congrArg UInt32.ofNat hj).symm⟩
  simp [hbodies, hb, aged, expired_now p hpos hnow]

/-- The database answers with the station. -/
theorem Learned.lookup (h : Learned s networkAddr m) (p : Ageing) (hpos : 0 < p.jiffies) {fuel : ℕ}
    (hs : Chained s.priv lists) (hfuel : ∀ h, (lists h).length ≤ fuel) :
    ∃ priv, dbLookup p fuel s.priv networkAddr = some (1, some m, priv) := by
  obtain ⟨a, b, hb, rfl, rfl, hnow⟩ := h
  exact dbLookup_live hs hfuel hb (expired_now p hpos hnow)

/-- After the entry at `a` has been renewed. -/
theorem learned_renewed (hb : s.priv.bodies a = some b) (hclock : s'.priv.clock = s.priv.clock)
    (hbodies : s'.priv.bodies = Function.update s.priv.bodies a (some (Body.renewed s.priv.clock b))) :
    Learned s' networkAddr m ↔
      ∃ c d, s.priv.bodies c = some d ∧ d.networkAddr = networkAddr ∧ d.macAddr = m ∧
        (c = a ∨ d.ageingTimer = s.priv.clock) := by
  constructor
  · rintro ⟨c, d, hd, haddr, hmac, hnow⟩
    rw [hbodies] at hd
    by_cases hc : c = a
    · rw [hc, Function.update_self] at hd
      obtain rfl := some.inj hd
      exact ⟨a, b, hb, haddr, hmac, Or.inl rfl⟩
    · rw [Function.update_of_ne hc] at hd
      exact ⟨c, d, hd, haddr, hmac, Or.inr (hnow.trans hclock)⟩
  · rintro ⟨c, d, hd, haddr, hmac, hnow⟩
    by_cases hc : c = a
    · subst hc
      obtain rfl := some.inj (hb.symm.trans hd)
      exact ⟨c, Body.renewed s.priv.clock b, by rw [hbodies, Function.update_self], haddr, hmac, hclock.symm⟩
    · exact ⟨c, d, by rw [hbodies, Function.update_of_ne hc, hd], haddr, hmac,
        (hnow.resolve_left hc).trans hclock.symm⟩

theorem misled_of_cache {cfg : Config} {cache : Mac × UInt32 × Option ℕ} (h : s'.cache = cache) :
    Misled cfg s' ip m ↔ cfg.nat25scDisable = false ∧ cache.2.1 = ip ∧ cache.1 ≠ m := by
  subst h
  exact Iff.rfl

theorem learned_same (hclock : s'.priv.clock = s.priv.clock) (hbodies : s'.priv.bodies = s.priv.bodies) :
    Learned s' networkAddr m ↔ Learned s networkAddr m := by
  rw [Learned, Learned, hclock, hbodies]

theorem learned_inserted {q : ℕ} (hclock : s'.priv.clock = s.priv.clock)
    (h : Inserts s.priv (some q) m networkAddr s'.priv.bodies) : Learned s' networkAddr m := by
  generalize hbodies : s'.priv.bodies = bodies at h
  cases h with
  | @renew a b hb haddr =>
    exact ⟨a, { b with macAddr := m, ageingTimer := s.priv.clock }, by rw [hbodies, Function.update_self], haddr, rfl,
      hclock.symm⟩
  | @make a _ _ _ =>
    exact ⟨a, ⟨networkAddr, m, 1, s.priv.clock⟩, by rw [hbodies, Function.update_self], rfl, rfl, hclock.symm⟩
  | fail hq _ => cases hq

end Learned

/-! ### Received frames -/

section Received

variable {cfg : Config} {e : Env} {s : Adapter} {skb reply : Skb} {m : Mac}

theorem mac_retag_untag (skb out : Skb) : (retag (untag skb).1 out).mac 0 = out.mac 0 := by
  rw [untag]
  split_ifs
  · have hfits : (UInt16.ofNat (skb.data.be16 14)).toNat = skb.data.be16 14 :=
      Nat.mod_eq_of_lt (be16_lt skb.data 14)
    rw [retag, ← hfits, restoreVlan_eq]
    refine congrArg Vector.ofFn (funext fun i => if_pos ?_)
    omega
  · rfl

theorem generateIpv4NetworkAddr_congr {b b' : Bytes} {off off' : ℕ} (h : ∀ i < 4, b (off + i) = b' (off' + i)) :
    generateIpv4NetworkAddr b off = generateIpv4NetworkAddr b' off' := by
  unfold generateIpv4NetworkAddr generateNetworkAddr
  congr 1
  funext i
  split_ifs
  · rfl
  · by_cases hi : 7 ≤ i.val ∧ i.val < 7 + 4
    · simpa [List.find?, hi] using h (i.val - 7) (by omega)
    · simp [List.find?, hi]

theorem Reply.be32_eq (h : Reply cfg s skb reply) : (untag reply).2.data.be32 30 = skb.data.be32 26 := by
  have hb := h.target
  simp only [be32, be16]
  rw [← hb 1 (by decide), ← hb 2 (by decide), ← hb 3 (by decide)]
  rw [show skb.data 26 = _ from (hb 0 (by decide)).symm]

theorem nat25HandleFrame_eq (h : Reply cfg s skb reply) :
    nat25HandleFrame cfg e s reply = (translateFrame cfg e s (untag reply).2).map fun x =>
      (if x.1 = -1 then -1 else 0, retag (untag reply).1 x.2.1, x.2.2) := by
  have hother : ¬reply.protocol = 0x888e := by
    intro heap
    have hip := h.ip
    rw [untag, if_neg (by rw [heap]; decide), heap] at hip
    exact absurd hip (by decide)
  rw [nat25HandleFrame, if_neg hother, if_pos h.unicast]
  rcases untag reply with ⟨tag, skb⟩
  dsimp only
  cases translateFrame cfg e s skb <;> rfl

/-- A reply to a learned address is delivered unless the shortcut leads elsewhere. -/
theorem Learned.delivered_iff (hlearned : Learned s (generateIpv4NetworkAddr skb.data 26) m)
    (h : Reply cfg s skb reply) (hpos : 0 < e.ageing.jiffies) {lists : ℕ → List ℕ} (hs : Chained s.priv lists)
    (hfuel : ∀ h, (lists h).length ≤ e.fuel) :
    Delivered cfg e s reply m ↔ ¬Misled cfg s (skb.data.be32 26) m := by
  -- the frame as it is handed on
  have hout : ∀ m' s', translateFrame cfg e s (untag reply).2 = some (0, (untag reply).2.putMac 0 m', s') →
      (Delivered cfg e s reply m ↔ m' = m) := by
    intro m' s' htranslate
    rw [Delivered, nat25HandleFrame_eq h, htranslate]
    constructor
    · rintro ⟨out, s'', hframe, rfl⟩
      obtain ⟨-, hrest⟩ := Prod.mk.inj (some.inj hframe)
      obtain ⟨rfl, -⟩ := Prod.mk.inj hrest
      rw [mac_retag_untag, Skb.mac_putMac]
    · rintro rfl
      exact ⟨_, _, rfl, by rw [mac_retag_untag, Skb.mac_putMac]⟩
  by_cases hcut : cfg.nat25scDisable = false ∧ s.priv.scdbIp = skb.data.be32 26
  · rw [hout s.priv.scdbMac s (by simp [translateFrame, h.enabled, h.ip, h.be32_eq, hcut])]
    simp [Misled, hcut]
  · have hmisled : ¬Misled cfg s (skb.data.be32 26) m := fun hm => hcut ⟨hm.1, hm.2.1⟩
    obtain ⟨priv, hlookup⟩ := hlearned.lookup e.ageing hpos hs hfuel
    rw [← generateIpv4NetworkAddr_congr h.target] at hlookup
    have hlookup : dbLookup e.ageing e.fuel s.pppoe.priv _ = _ := hlookup
    have htranslate : translateFrame cfg e s (untag reply).2 =
        some (0, (untag reply).2.putMac 0 m, s.withPriv priv) := by
      rw [translateFrame, h.enabled, Bool.not_false, if_pos rfl, if_neg (by simpa [h.ip, h.be32_eq] using hcut),
        nat25DbHandle, if_pos h.ip, handleIp, h.wellFormed]
      simp only [lookupIp, h.asked, lookupDestination_eq, hlookup]
      rfl
    exact iff_of_true ((hout _ _ htranslate).mpr rfl) hmisled

end Received

/-! ### One frame -/

section Frame

variable {cfg : Config} {tx : Tx} {e : Env} {s s' : Adapter} {skb out : Skb}

/-- A call that hands the frame on and has asked the database has had a linear frame. -/
theorem linearize_of_asked (hip : (untag skb).2.protocol = ethPIp) (hfour : cfg.fourAddr = false) {s₁ : Adapter}
    (hshort : shortcut e.fuel (recordBridge s (untag skb).2) (untag skb).2 = some (true, s₁))
    (hret : brClientTx cfg tx e s skb = some (0, out, s')) : tx.linearize = true := by
  cases hfast : fastPath tx s skb with
  | true =>
    -- the first branch is for a sender that the shortcut knows
    simp only [fastPath, decide_eq_true_eq] at hfast
    obtain ⟨-, -, hbr, -, hip', hmac, hentry, -⟩ := hfast
    obtain ⟨a, ha⟩ := isSome_iff_exists.mp hentry
    have hrecord : recordBridge s skb = s := if_neg fun h => hbr h.1
    rw [untag_of_ip hip'] at hshort
    simp only [hrecord, shortcut, if_pos hip', hmac, ha, ne_eq, not_true, if_false] at hshort
    obtain ⟨s₂, -, heq⟩ := bind_eq_some_iff.mp hshort
    cases some.inj heq
  | false =>
    have hcheck : nat25DbHandle cfg e s₁ (untag skb).2 .check = some (-1, (untag skb).2, s₁) := by
      simp only [nat25DbHandle, if_pos hip, handleIp, ite_self]
    rw [brClientTx_slow hfast hshort, translate_kept hcheck (by decide)] at hret
    cases hlinear : tx.linearize with
    | true => rfl
    | false =>
      simp only [hfour, insertFrame, hlinear, Bool.not_false, Bool.and_self, if_true, map_some] at hret
      exact absurd (congrArg Prod.fst (some.inj hret)) (show ¬(-1 : Int) = 0 by decide)

/-- The shortcut faults on an entry that is not there. -/
theorem cached_of_shortcut {fuel : ℕ} (hip : skb.protocol = ethPIp) {x : Bool × Adapter}
    (h : shortcut fuel s skb = some x) (hmac : s.priv.scdbMac = skb.mac 6) {a : ℕ} (ha : s.scdbEntry = some a) :
    ∃ b, s.priv.bodies a = some b := by
  cases hb : s.priv.bodies a with
  | some b => exact ⟨b, rfl⟩
  | none =>
    simp only [shortcut, if_pos hip, hmac, ha, ne_eq, not_true, if_false, refresh_none hb] at h
    cases h

/-- The database learns what it could learn; `insertsIp` says whether it is told when it is asked. -/
theorem learned_iff {lists : ℕ → List ℕ} (hs : Chained s.priv lists) (hfuel : ∀ h, (lists h).length < e.fuel)
    {q : ℕ} (halloc : e.kmalloc = some q) (hfresh : s.priv.heap q = none) (hip : skb.protocol = ethPIp)
    {doNat25 : Bool} {s₁ : Adapter} (hshort : shortcut e.fuel s skb = some (doNat25, s₁))
    (hinserts : doNat25 = true → (insertsIp cfg tx skb = true ↔ skb.data.be32 26 ≠ 0))
    (hlearn : learnIp cfg tx e s skb = some s') :
    (∃ lists', Chained s'.priv lists' ∧ ∀ h, (lists' h).length ≤ e.fuel) ∧
      (Learned s' (generateIpv4NetworkAddr skb.data 26) (skb.mac 6) ∧ ¬Misled cfg s' (skb.data.be32 26) (skb.mac 6) ↔
        Learnable cfg s (generateIpv4NetworkAddr skb.data 26) (skb.data.be32 26) (skb.mac 6)) := by
  obtain ⟨do', s₁', hshort', hchained, hj, hcuts⟩ := shortcut_spec hs (fun h => (hfuel h).le) hip
    fun hmac a ha => cached_of_shortcut hip hshort hmac ha
  obtain ⟨rfl, rfl⟩ := Prod.mk.inj (some.inj (hshort.symm.trans hshort'))
  have hclock : s₁.priv.clock = s.priv.clock := congrArg UInt32.ofNat hj
  simp only [learnIp, hshort, bind_eq_bind, bind_some] at hlearn
  -- the database is told, and has the address now
  have htold : doNat25 = true → s₁.priv.bodies = s.priv.bodies → skb.data.be32 26 ≠ 0 →
      (∃ lists', Chained s'.priv lists' ∧ ∀ h, (lists' h).length ≤ e.fuel) ∧ s'.cache = s₁.cache ∧
        Learned s' (generateIpv4NetworkAddr skb.data 26) (skb.mac 6) := by
    intro hdo hbodies hip
    rw [hdo, (hinserts hdo).mpr hip] at hlearn
    have hfresh₁ : ∀ q', e.kmalloc = some q' → s₁.priv.heap q' = none := by
      intro q' hq'
      obtain rfl := some.inj (halloc.symm.trans hq')
      rw [← bodies_eq_none, hbodies, bodies_eq_none]
      exact hfresh
    obtain ⟨s₂, lists', hs₂, hchained₂, hlength, hcache₂, hj₂, hins⟩ :=
      insert_spec hchained (fun h => (hfuel h).le) hfresh₁ skb (generateIpv4NetworkAddr skb.data 26)
    obtain rfl := some.inj (hlearn.symm.trans hs₂)
    rw [halloc] at hins
    exact ⟨⟨lists', hchained₂, fun h => (hlength h).trans (hfuel h)⟩, hcache₂,
      learned_inserted (congrArg UInt32.ofNat hj₂) hins⟩
  -- the database is not told
  have huntold : (doNat25 = true → skb.data.be32 26 = 0) → s' = s₁ := by
    intro hzero
    have hno : ¬(doNat25 && insertsIp cfg tx skb) = true := by
      rw [Bool.and_eq_true]
      exact fun h => (hinserts h.1).mp h.2 (hzero h.1)
    rw [if_neg hno] at hlearn
    exact (some.inj hlearn).symm
  have hkept : s' = s₁ → ∃ lists', Chained s'.priv lists' ∧ ∀ h, (lists' h).length ≤ e.fuel := fun heq =>
    ⟨lists, heq ▸ hchained, fun h => (hfuel h).le⟩
  generalize hbodies : s₁.priv.bodies = bodies at hcuts
  generalize hcache : s₁.cache = cache at hcuts
  cases hcuts with
  | @hit a b hmac hentry hb =>
    have heq := huntold fun h => absurd h Bool.false_ne_true
    refine ⟨hkept heq, ?_⟩
    rw [heq, and_iff_left fun h => ((misled_of_cache hcache).mp h).2.2 hmac, learned_renewed hb hclock hbodies,
      Learnable, if_pos hmac, hentry]
  | @found a b hmac hb haddr =>
    have heq := huntold fun h => absurd h Bool.false_ne_true
    refine ⟨hkept heq, ?_⟩
    rw [heq, and_iff_left fun h => ((misled_of_cache hcache).mp h).2.2 rfl, learned_renewed hb hclock hbodies,
      Learnable, if_neg hmac]
    constructor
    · rintro ⟨c, d, hd, hkey, hm, -⟩
      exact Or.inl ⟨c, d, hd, hkey, hm⟩
    · rintro (⟨c, d, hd, hkey, hm⟩ | ⟨-, hnone, -⟩)
      · exact ⟨c, d, hd, hkey, hm, Or.inl (hs.eq_of_addr hd hb (hkey.trans haddr.symm))⟩
      · exact absurd haddr (hnone a b hb)
  | lost hmac hentry =>
    rw [Learnable, if_pos hmac, hentry]
    by_cases hzero : skb.data.be32 26 = 0
    · have heq := huntold fun _ => hzero
      refine ⟨hkept heq, ?_⟩
      rw [heq, learned_same hclock hbodies, misled_of_cache hcache, hzero]
      simp [imp_iff_not_or, @eq_comm _ (skb.mac 6)]
    · obtain ⟨hlists, hcache', hlearned⟩ := htold rfl hbodies hzero
      refine ⟨hlists, iff_of_true ⟨hlearned, ?_⟩ (Or.inl hzero)⟩
      rw [misled_of_cache (hcache'.trans hcache)]
      exact fun h => hzero h.2.1.symm
  | missed hmac hnone =>
    rw [Learnable, if_neg hmac]
    by_cases hzero : skb.data.be32 26 = 0
    · have heq := huntold fun _ => hzero
      refine ⟨hkept heq, ?_⟩
      rw [heq, learned_same hclock hbodies]
      refine iff_of_false ?_ ?_
      · rintro ⟨⟨a, b, hb, haddr, -⟩, -⟩
        exact hnone a b hb haddr
      · rintro (⟨a, b, hb, haddr, -⟩ | ⟨hne, -⟩)
        · exact hnone a b hb haddr
        · exact hne hzero
    · obtain ⟨hlists, hcache', hlearned⟩ := htold rfl hbodies hzero
      have hunknown : ¬∃ a b, s.priv.bodies a = some b ∧ b.networkAddr = generateIpv4NetworkAddr skb.data 26 ∧
          b.macAddr = skb.mac 6 := by
        rintro ⟨a, b, hb, haddr, -⟩
        exact hnone a b hb haddr
      refine ⟨hlists, ?_⟩
      rw [misled_of_cache (hcache'.trans hcache), and_iff_right hlearned, or_iff_right hunknown,
        and_iff_right hzero, and_iff_right hnone]
      simp [hmac, imp_iff_not_or]

theorem recordBridge_priv (s : Adapter) (skb : Skb) : (recordBridge s skb).priv = s.priv := by
  rw [recordBridge]
  split_ifs <;> rfl

theorem recordBridge_scdbEntry (s : Adapter) (skb : Skb) : (recordBridge s skb).scdbEntry = s.scdbEntry := by
  rw [recordBridge]
  split_ifs <;> rfl

end Frame

/-- For every state and every well-formed IPv4 frame that `rtw_br_client_tx` hands on, with the database in use and
    memory for an entry, and every reply: the database then maps the source address to the sender, as of now, and
    the reply is delivered to the sender, exactly when it was `Learnable`. -/
theorem sender_learned_iff (cfg : Config) (tx : Tx) (e : Env) (s s' : Adapter) (skb out : Skb)
    (lists : ℕ → List ℕ) (hs : Chained s.priv lists) (hfuel : ∀ h, (lists h).length < e.fuel) (q : ℕ)
    (halloc : e.kmalloc = some q) (hfresh : s.priv.heap q = none) (hfour : cfg.fourAddr = false)
    (hip : (untag skb).2.protocol = ethPIp) (hgood : malformedIp (untag skb).2 = false)
    (hret : brClientTx cfg tx e s skb = some (0, out, s')) (reply : Skb) (hreply : Reply cfg s' (untag skb).2 reply)
    (hpos : 0 < e.ageing.jiffies) :
    Learned s' (generateIpv4NetworkAddr (untag skb).2.data 26) ((untag skb).2.mac 6) ∧
        Delivered cfg e s' reply ((untag skb).2.mac 6) ↔
      Learnable cfg s (generateIpv4NetworkAddr (untag skb).2.data 26) ((untag skb).2.data.be32 26)
        ((untag skb).2.mac 6) := by
  have hlearn : learnIp cfg tx e (recordBridge s (untag skb).2) (untag skb).2 = some s' := by
    rw [← brClientTx_ip hip, hret]
    rfl
  cases hshort : shortcut e.fuel (recordBridge s (untag skb).2) (untag skb).2 with
  | none =>
    simp only [learnIp, hshort] at hlearn
    cases hlearn
  | some x =>
    obtain ⟨doNat25, s₁⟩ := x
    have hinserts : doNat25 = true → (insertsIp cfg tx (untag skb).2 = true ↔ (untag skb).2.data.be32 26 ≠ 0) := by
      intro hdo
      have hlinear := linearize_of_asked hip hfour (hdo ▸ hshort) hret
      simp [insertsIp, hfour, hlinear, hgood]
    obtain ⟨⟨lists', hchained, hlength⟩, hiff⟩ :=
      learned_iff (recordBridge_priv s _ ▸ hs) hfuel halloc (recordBridge_priv s _ ▸ hfresh) hip hshort hinserts hlearn
    rw [and_congr_right fun hlearned => hlearned.delivered_iff hreply hpos hchained hlength, hiff, Learnable, Learnable,
      Learned, Learned, recordBridge_priv, recordBridge_scdbEntry]

/-! ### Samples -/

def sampleConfig : Config where
  txMcast2uni := false
  mc2uDisable := false
  stationState := true
  asocState := true
  adhocState := false
  asocList := []
  dhcpBcstDisable := false
  nat25scDisable := false
  a4Enable := false
  fwAssocSuccess := true
  brNetdev := none

def sampleTx : Tx := ⟨true, false, some fun _ => 0, true⟩

def sampleAdapter : Adapter := ⟨⟨samplePriv, false, 0, Vector.replicate 6 0⟩, none, Vector.replicate 6 4, 0⟩

/-- An entry gets the memory at `q`. -/
def allocating (q : ℕ) : Env := { sampleEnv with kmalloc := some q }

/-- A TCP segment from station `m` and 10.0.0.`n`. -/
def segmentFrom (m n : UInt8) : Skb where
  data i := [2, 2, 2, 2, 2, 2, m, m, m, m, m, m, 8, 0, 0x45, 0, 0, 20, 0, 0, 0, 0, 64, 6, 0, 0, 10, 0, 0, n,
    10, 0, 0, 9].getD i 0
  len := 34
  size := 64

/-- A TCP segment to 10.0.0.`n`. -/
def segmentTo (n : UInt8) : Skb where
  data i := [6, 6, 6, 6, 6, 6, 2, 2, 2, 2, 2, 2, 8, 0, 0x45, 0, 0, 20, 0, 0, 0, 0, 64, 6, 0, 0, 10, 0, 0, 9,
    10, 0, 0, n].getD i 0
  len := 34
  size := 64

theorem sender_learned_first :
    ∃ out s', brClientTx sampleConfig sampleTx (allocating 0) sampleAdapter (segmentFrom 7 1) = some (0, out, s') ∧
      Learned s' (generateIpv4NetworkAddr (segmentFrom 7 1).data 26) ((segmentFrom 7 1).mac 6) ∧
      Delivered sampleConfig (allocating 0) s' (segmentTo 1) ((segmentFrom 7 1).mac 6) := by
  have hzero : (brClientTx sampleConfig sampleTx (allocating 0) sampleAdapter (segmentFrom 7 1)).map
      (fun x => (x.1, x.2.2.priv.nat25Disable)) = some (0, false) := by decide
  obtain ⟨⟨ret, out, s'⟩, hret, heq⟩ := map_eq_some_iff.mp hzero
  obtain ⟨rfl, henabled⟩ := Prod.mk.inj heq
  have hreply : Reply sampleConfig s' (segmentFrom 7 1) (segmentTo 1) :=
    ⟨henabled, by decide, by decide, by decide, by decide, rfl⟩
  have hempty : Chained sampleAdapter.priv fun _ => [] :=
    chained_fresh (s := samplePriv) ⟨fun _ => rfl, fun _ => rfl⟩
  refine ⟨out, s', hret, (sender_learned_iff _ _ _ _ _ _ _ _ hempty (fun _ => by decide) 0 rfl rfl rfl (by decide)
    (by decide) hret (segmentTo 1) hreply (by decide)).mpr ?_⟩
  have hother : ¬sampleAdapter.priv.scdbMac = (untag (segmentFrom 7 1)).2.mac 6 := by decide
  rw [Learnable, if_neg hother]
  exact Or.inr ⟨by decide, fun a b hb => (nomatch hb), Or.inr (by decide)⟩

set_option maxRecDepth 4000 in
/-- A station sends two segments from 10.0.0.1, which is in the shortcut then, and one from 10.0.0.2: the database does
    not know that address afterwards. -/
theorem second_address_not_learned :
    ∃ s₁ s₂ s₃ out₁ out₂ out₃,
      brClientTx sampleConfig sampleTx (allocating 0) sampleAdapter (segmentFrom 7 1) = some (0, out₁, s₁) ∧
      brClientTx sampleConfig sampleTx (allocating 1) s₁ (segmentFrom 7 1) = some (0, out₂, s₂) ∧
      brClientTx sampleConfig sampleTx (allocating 1) s₂ (segmentFrom 7 2) = some (0, out₃, s₃) ∧
      ¬Learned s₃ (generateIpv4NetworkAddr (segmentFrom 7 2).data 26) ((segmentFrom 7 2).mac 6) ∧
      (dbLookup sampleAgeing 2 s₃.priv (generateIpv4NetworkAddr (segmentFrom 7 2).data 26)).map
        (fun x => (x.1, x.2.1)) = some (0, none) := by
  refine ⟨_, _, _, _, _, _, rfl, rfl, rfl, ?_, by decide⟩
  rintro ⟨a, b, hb, haddr, -⟩
  cases a with
  | zero =>
    obtain rfl := some.inj hb
    exact absurd haddr (by decide)
  | succ n => cases hb

end PhoebusBsp.G6

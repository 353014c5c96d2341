import PhoebusBsp.G6.Adapter
import PhoebusBsp.Nat25.TagBounds

/-! What the operations of the adapter do to the entries and to the shortcut.

        to be sent, IPv4    SA is scdb_mac, there is a scdb_entry:   that entry is renewed
                            SA is scdb_mac, there is none:           the shortcut is cleared, NAT25_INSERT
                            SA is another, the address has an entry: renewed, and it becomes the shortcut
                            SA is another, the address has none:     no scdb_entry any more, NAT25_INSERT -/

namespace PhoebusBsp.G6
open Schemes Bytes Nat25 Option

/-- The entry that the shortcut leads to is there. -/
def Adapter.Cached (s : Adapter) : Prop := ∀ a, s.scdbEntry = some a → ∃ b, s.priv.bodies a = some b

/-- The entry with a new timer. -/
def Body.renewed (now : UInt32) (b : Body) : Body := { b with ageingTimer := now }

section Refresh

variable {s : Adapter} {lists : ℕ → List ℕ} {a : ℕ} {b : Body}

theorem refresh_spec (hs : Chained s.priv lists) (hb : s.priv.bodies a = some b) :
    ∃ s', s.refresh a = some s' ∧ Chained s'.priv lists ∧ s'.cache = s.cache ∧ s'.priv.jiffies = s.priv.jiffies ∧
      s'.priv.bodies = Function.update s.priv.bodies a (some (Body.renewed s.priv.clock b)) := by
  obtain ⟨e, he, rfl⟩ := bodies_eq_some.mp hb
  refine ⟨s.withPriv { s.priv with
    heap := Function.update s.priv.heap a (some { e with ageingTimer := s.priv.clock }) }, ?_,
    hs.modify he rfl rfl rfl, rfl, rfl, bodies_update _⟩
  simp [Adapter.refresh, modify_eq he]

theorem refresh_none (hb : s.priv.bodies a = none) : s.refresh a = none := by
  simp [Adapter.refresh, Priv.modify, bodies_eq_none.mp hb]

end Refresh

/-! ### Sweeps -/

section Sweep

variable {s : Adapter} {lists : ℕ → List ℕ} {fuel : ℕ}

theorem sweeps_removeEntry (j : ℕ) :
    Sweeps Adapter.priv (fun s => s.priv.jiffies = j ∧ s.Cached) (fun _ => none) removeEntry where
  step {s lists h pre a post b} hinv hs hr _ := by
    obtain ⟨hj, hcached⟩ := hinv
    set s₁ : Adapter := if s.scdbEntry = some a then s.clearCache none else s with hs₁
    have hsame : s₁.priv.hashSize = s.priv.hashSize ∧ s₁.priv.store = s.priv.store ∧
        s₁.priv.bodies = s.priv.bodies ∧ s₁.priv.jiffies = j := by
      rw [hs₁]
      split <;> exact ⟨rfl, rfl, rfl, hj⟩
    obtain ⟨hsize, hstore, hold, hj₁⟩ := hsame
    -- the shortcut leads to another entry, or nowhere
    have hentry : ∀ c, s₁.scdbEntry = some c → c ≠ a ∧ s.scdbEntry = some c := by
      rw [hs₁]
      split
      · intro c hc
        cases hc
      · next hother => exact fun c hc => ⟨fun h => hother (h ▸ hc), hc⟩
    have hs' : Chained s₁.priv lists := hs.congr hsize hstore fun c => by rw [hold]
    obtain ⟨priv, hpriv, hchained, hbodies, hside⟩ := remove_spec hs' hr
    rw [hold] at hbodies
    refine ⟨s₁.withPriv priv, by simp [removeEntry, ← hs₁, hpriv],
      ⟨(congrArg (·.2.2.2) hside).trans hj₁, fun c hc => ?_⟩, hchained, hbodies⟩
    obtain ⟨hne, hc⟩ := hentry c hc
    obtain ⟨b', hb'⟩ := hcached c hc
    exact ⟨b', (congrFun hbodies c).trans ((Function.update_of_ne hne ..).trans hb')⟩

theorem sweeps_expireEntry (p : Ageing) (j : ℕ) :
    Sweeps Adapter.priv (fun s => s.priv.jiffies = j ∧ s.Cached) (aged p j) (expireEntry p) := by
  refine sweeps_expireWith p (fun _ hinv => hinv.1) (fun s a e e' hinv he => ⟨⟨hinv.1, fun c hc => ?_⟩, rfl⟩)
    fun _ => sweeps_removeEntry j
  by_cases hca : c = a
  · exact ⟨e'.body, bodies_of_heap (hca ▸ Function.update_self ..)⟩
  · obtain ⟨b, hb⟩ := hinv.2 c hc
    exact ⟨b, (congrFun (bodies_update _) c).trans ((Function.update_of_ne hca ..).trans hb)⟩

/-- Ageing never leaves a shortcut to an entry that is gone. -/
theorem nat25DbExpire_spec (p : Ageing) (hs : Chained s.priv lists) (hfuel : ∀ h, (lists h).length ≤ fuel)
    (hcached : s.Cached) :
    ∃ s' lists', nat25DbExpire p fuel s = some s' ∧ (s'.priv.jiffies = s.priv.jiffies ∧ s'.Cached) ∧
      Chained s'.priv lists' ∧ (∀ h, (lists' h).Sublist (lists h)) ∧
      ∀ c, s'.priv.bodies c = (s.priv.bodies c).bind (aged p s.priv.jiffies) :=
  sweepChains_spec (sweeps_expireEntry p _) ⟨rfl, hcached⟩ hs hfuel

/-- Nothing is left of the database, and no shortcut into it. -/
theorem nat25DbCleanup_spec (hs : Chained s.priv lists) (hfuel : ∀ h, (lists h).length ≤ fuel) (hcached : s.Cached) :
    ∃ s', nat25DbCleanup fuel s = some s' ∧ s'.scdbEntry = none ∧ ∀ c, s'.priv.bodies c = none := by
  obtain ⟨s', -, hs', ⟨-, hcached'⟩, -, -, hbodies⟩ :=
    sweepChains_spec (sweeps_removeEntry _) ⟨rfl, hcached⟩ hs hfuel
  have hgone : ∀ c, s'.priv.bodies c = none := fun c => (hbodies c).trans (bind_fun_none _)
  refine ⟨s', hs', eq_none_iff_forall_ne_some.mpr fun c hc => ?_, hgone⟩
  obtain ⟨b, hb⟩ := hcached' c hc
  rw [hgone c] at hb
  cases hb

end Sweep

/-! ### The shortcut of a sender -/

/-- What the shortcut does with an IPv4 frame from `m` and `ip`: whether the database is to be told, the entries and
    the shortcut. -/
inductive Shortcuts (s : Adapter) (m : Mac) (ip : UInt32) (networkAddr : NetworkAddr) :
    Bool → (ℕ → Option Body) → Mac × UInt32 × Option ℕ → Prop where
  | hit {a : ℕ} {b : Body} (hmac : s.priv.scdbMac = m) (hentry : s.scdbEntry = some a)
    (hb : s.priv.bodies a = some b) :
    Shortcuts s m ip networkAddr false
      (Function.update s.priv.bodies a (some (Body.renewed s.priv.clock b))) s.cache
  | found {a : ℕ} {b : Body} (hmac : s.priv.scdbMac ≠ m) (hb : s.priv.bodies a = some b)
    (haddr : b.networkAddr = networkAddr) :
    Shortcuts s m ip networkAddr false
      (Function.update s.priv.bodies a (some (Body.renewed s.priv.clock b))) (m, ip, some a)
  | lost (hmac : s.priv.scdbMac = m) (hentry : s.scdbEntry = none) :
    Shortcuts s m ip networkAddr true s.priv.bodies (Vector.replicate 6 0, 0, none)
  | missed (hmac : s.priv.scdbMac ≠ m) (hnone : ∀ a b, s.priv.bodies a = some b → b.networkAddr ≠ networkAddr) :
    Shortcuts s m ip networkAddr true s.priv.bodies (s.priv.scdbMac, s.priv.scdbIp, none)

section Shortcut

variable {s : Adapter} {lists : ℕ → List ℕ} {fuel : ℕ} {skb : Skb}

theorem shortcut_spec (hs : Chained s.priv lists) (hfuel : ∀ h, (lists h).length ≤ fuel)
    (hip : skb.protocol = ethPIp)
    (hcached : s.priv.scdbMac = skb.mac 6 → ∀ a, s.scdbEntry = some a → ∃ b, s.priv.bodies a = some b) :
    ∃ doNat25 s', shortcut fuel s skb = some (doNat25, s') ∧ Chained s'.priv lists ∧
      s'.priv.jiffies = s.priv.jiffies ∧
      Shortcuts s (skb.mac 6) (skb.data.be32 26) (generateIpv4NetworkAddr skb.data 26) doNat25 s'.priv.bodies
        s'.cache := by
  by_cases hmac : s.priv.scdbMac = skb.mac 6
  · cases hentry : s.scdbEntry with
    | some a =>
      obtain ⟨b, hb⟩ := hcached hmac a hentry
      obtain ⟨s', hs', hchained, hcache, hj, hbodies⟩ := refresh_spec hs hb
      refine ⟨false, s', ?_, hchained, hj, ?_⟩
      · simp only [shortcut, if_pos hip, hmac, ne_eq, not_true, if_false, hentry, hs', bind_eq_bind,
          bind_some]
      · rw [hbodies, hcache]
        exact .hit hmac hentry hb
    | none =>
      refine ⟨true, s.clearCache none, ?_, hs.congr rfl rfl fun _ => rfl, rfl, .lost hmac hentry⟩
      simp only [shortcut, if_pos hip, hmac, ne_eq, not_true, if_false, hentry]
  · obtain ⟨found, hfind, hsome, hnone⟩ := find_spec hs (generateIpv4NetworkAddr skb.data 26) hfuel
    cases found with
    | some a =>
      obtain ⟨e, he, haddr⟩ := hsome a rfl
      have hchained₁ : Chained (s.setCache (skb.mac 6) (skb.data.be32 26) (some a)).priv lists :=
        hs.congr rfl rfl fun _ => rfl
      obtain ⟨s', hs', hchained, hcache, hj, hbodies⟩ := refresh_spec hchained₁ (bodies_of_heap he)
      refine ⟨false, s', ?_, hchained, hj, ?_⟩
      · simp only [shortcut, if_pos hip, hmac, ne_eq, not_false_eq_true, if_true, scdbFindEntry, hfind, hs',
          bind_eq_bind, bind_some]
      · rw [hbodies, hcache]
        exact .found hmac (bodies_of_heap he) haddr
    | none =>
      refine ⟨true, { s with scdbEntry := none }, ?_, hs, rfl, .missed hmac (hnone rfl)⟩
      simp only [shortcut, if_pos hip, hmac, ne_eq, not_false_eq_true, if_true, scdbFindEntry, hfind,
        bind_eq_bind, bind_some]

end Shortcut

/-! ### What is recorded of a frame to be sent -/

/-- Four-address mode: the database is not used. -/
def Config.fourAddr (cfg : Config) : Bool := cfg.a4Enable && cfg.fwAssocSuccess

/-- Whether `NAT25_INSERT` would put an IPv4 frame into the database. -/
def insertsIp (cfg : Config) (tx : Tx) (skb : Skb) : Bool :=
  !cfg.fourAddr && tx.linearize && !malformedIp skb && skb.data.be32 26 != 0

/-- The source of the frame is put into the database. -/
def Adapter.insert (e : Env) (s : Adapter) (skb : Skb) (networkAddr : NetworkAddr) : Option Adapter :=
  (insertSource e s.pppoe skb networkAddr).map fun pppoe => { s with pppoe := pppoe }

/-- The state after an IPv4 frame. -/
def learnIp (cfg : Config) (tx : Tx) (e : Env) (s : Adapter) (skb : Skb) : Option Adapter := do
  let (doNat25, s) ← shortcut e.fuel s skb
  if doNat25 && insertsIp cfg tx skb then s.insert e skb (generateIpv4NetworkAddr skb.data 26) else some s

section Recorded

variable {cfg : Config} {tx : Tx} {e : Env} {s : Adapter} {skb : Skb}

theorem untag_of_ip (hip : skb.protocol = ethPIp) : untag skb = (none, skb) := by
  have hne : skb.protocol ≠ ethP8021Q := by
    rw [hip]
    decide
  rw [untag, if_neg hne]

theorem insertFrame_ip (hip : skb.protocol = ethPIp) :
    (insertFrame cfg tx e s skb).map (·.2.2) =
      if tx.linearize && !malformedIp skb && skb.data.be32 26 != 0 then
        s.insert e skb (generateIpv4NetworkAddr skb.data 26)
      else some s := by
  rw [insertFrame]
  simp only [nat25DbHandle, if_pos hip, handleIp]
  cases tx.linearize with
  | false => rfl
  | true =>
    cases malformedIp skb with
    | true => rfl
    | false =>
      by_cases hzero : skb.data.be32 26 = 0
      · simp [hzero]
      · simp only [hzero, bne_iff_ne, ne_eq, not_false_eq_true, Bool.not_true, Bool.not_false, Bool.and_self,
          Bool.true_and, if_true, if_false, Bool.false_eq_true, Adapter.insert]
        cases insertSource e s.pppoe skb (generateIpv4NetworkAddr skb.data 26) <;> rfl

/-- Without a copy the frame is inserted as it is. -/
theorem translate_kept {res : Int} (hcheck : nat25DbHandle cfg e s skb .check = some (res, skb, s)) (hres : res ≠ 0)
    (tag : Option VlanTag) :
    translate cfg tx e s tag skb = (insertFrame cfg tx e s skb).map fun x => (x.1, tag, x.2) := by
  simp only [translate, hcheck, bind_eq_bind, bind_some, if_neg hres]
  cases insertFrame cfg tx e s skb <;> rfl

/-- The end of `rtw_br_client_tx`. -/
def concluded (cfg : Config) (e : Env) (x : Option Int × Option VlanTag × Skb × Adapter) : Int × Skb × Adapter :=
  match x.1 with
  | some ret => (ret, x.2.2)
  | none => ((sendOff cfg e x.2.1 x.2.2.1).1, (sendOff cfg e x.2.1 x.2.2.1).2, x.2.2.2)

theorem concluded_state (cfg : Config) (e : Env) (x : Option Int × Option VlanTag × Skb × Adapter) :
    (concluded cfg e x).2.2 = x.2.2.2 := by
  rw [concluded]
  split <;> rfl

theorem brClientTx_slow (hslow : fastPath tx s skb = false) {doNat25 : Bool} {s₁ : Adapter}
    (hshort : shortcut e.fuel (recordBridge s (untag skb).2) (untag skb).2 = some (doNat25, s₁)) :
    brClientTx cfg tx e s skb =
      if doNat25 && !cfg.fourAddr then
        (translate cfg tx e s₁ (untag skb).1 (untag skb).2).map (concluded cfg e)
      else some (concluded cfg e (none, (untag skb).1, (untag skb).2, s₁)) := by
  rw [brClientTx, hslow]
  simp only [Bool.false_eq_true, if_false, hshort, bind_eq_bind, bind_some]
  split_ifs with hdo hdo'
  · cases translate cfg tx e s₁ (untag skb).1 (untag skb).2 with
    | none => rfl
    | some x =>
      obtain ⟨early, tag, skb', s'⟩ := x
      cases early <;> rfl
  · exact absurd hdo hdo'
  · exact absurd ‹_› hdo
  · rfl

/-- What is recorded of an IPv4 frame does not depend on the path that it takes. -/
theorem brClientTx_ip (hip : (untag skb).2.protocol = ethPIp) :
    (brClientTx cfg tx e s skb).map (·.2.2) = learnIp cfg tx e (recordBridge s (untag skb).2) (untag skb).2 := by
  cases hfast : fastPath tx s skb with
  | true =>
    have hcond := hfast
    simp only [fastPath, decide_eq_true_eq] at hcond
    obtain ⟨-, -, hbr, -, hip', hmac, hentry, -⟩ := hcond
    obtain ⟨a, ha⟩ := isSome_iff_exists.mp hentry
    have hrecord : recordBridge s skb = s := if_neg fun h => hbr h.1
    rw [brClientTx, if_pos hfast, untag_of_ip hip']
    simp only [learnIp, hrecord, shortcut, if_pos hip', hmac, ha, ne_eq, not_true, if_false, bind_some]
    cases s.refresh a <;> rfl
  | false =>
    cases hshort : shortcut e.fuel (recordBridge s (untag skb).2) (untag skb).2 with
    | none => simp [brClientTx, hfast, hshort, learnIp]
    | some x =>
      obtain ⟨doNat25, s₁⟩ := x
      have hcheck : nat25DbHandle cfg e s₁ (untag skb).2 .check = some (-1, (untag skb).2, s₁) := by
        simp only [nat25DbHandle, if_pos hip, handleIp, ite_self]
      rw [brClientTx_slow hfast hshort, translate_kept hcheck (by decide)]
      simp only [learnIp, hshort, bind_eq_bind, bind_some]
      cases doNat25 with
      | false => rfl
      | true =>
        cases hfour : cfg.fourAddr with
        | true => simp [insertsIp, hfour, concluded_state]
        | false =>
          have hstate := @insertFrame_ip cfg tx e s₁ _ hip
          simp only [insertsIp, hfour, Bool.not_false, Bool.true_and, if_true, map_map]
          rw [← hstate]
          exact congrFun (congrArg Option.map (funext fun x => concluded_state cfg e _)) _

theorem insert_spec {lists : ℕ → List ℕ} (hs : Chained s.priv lists) (hfuel : ∀ h, (lists h).length ≤ e.fuel)
    (hfresh : ∀ q, e.kmalloc = some q → s.priv.heap q = none) (skb : Skb) (networkAddr : NetworkAddr) :
    ∃ s' lists', s.insert e skb networkAddr = some s' ∧ Chained s'.priv lists' ∧
      (∀ h, (lists' h).length ≤ (lists h).length + 1) ∧ s'.cache = s.cache ∧ s'.priv.jiffies = s.priv.jiffies ∧
      Inserts s.priv e.kmalloc (skb.mac 6) networkAddr s'.priv.bodies := by
  obtain ⟨priv, lists', hpriv, hchained, hlength, hside, hinserts⟩ :=
    dbNetworkInsert_spec hs hfuel hfresh (skb.mac 6) networkAddr
  have hpriv' : dbNetworkInsert e.fuel s.pppoe.priv e.kmalloc (skb.mac 6) networkAddr = some priv := hpriv
  refine ⟨s.withPriv priv, lists', ?_, hchained, hlength, ?_, congrArg (·.2.2.2) hside, hinserts⟩
  · simp only [Adapter.insert, insertSource, hpriv', bind_eq_bind, bind_some, map_some]
    rfl
  · have hmac : priv.scdbMac = s.priv.scdbMac := congrArg (·.1) hside
    have hip : priv.scdbIp = s.priv.scdbIp := congrArg (·.2.1) hside
    show (priv.scdbMac, priv.scdbIp, s.scdbEntry) = s.cache
    rw [hmac, hip]
    rfl

end Recorded

end PhoebusBsp.G6

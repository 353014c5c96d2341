import PhoebusBsp.Igmp.System

/-! How long a join lasts.

        join at t on port p          leave at t' on port q
        ──────┬──────────────────────────┬──────────────────────▶ time
              │ p gets the group         │ q gets the group
              │ until t + memberAging    │ until min(t + memberAging, t' + lastMemberAging)

    Whatever the other hosts report, the entry keeps its port and its timer (`Tracks`). From these the
    decision on every packet follows, and the first sweep behind the end deletes the entry. -/

namespace PhoebusBsp.Igmp
open Schemes Chain List Option

/-! ### Devices that go -/

/-- The configuration without counters and devices. -/
def Net.bare (net : Net) : Net := { net.setup with lanDevInfo := [], wanDevInfo := [] }

/-- Devices other than `port` may have gone, and counters may have changed. -/
structure Fewer (port : UInt32) (net net' : Net) : Prop where
  dev : (devInfoOf net' port).map DevInfo.setup = (devInfoOf net port).map DevInfo.setup
  devs : ((net'.lanDevInfo ++ net'.wanDevInfo).map DevInfo.setup).Sublist
    ((net.lanDevInfo ++ net.wanDevInfo).map DevInfo.setup)
  bare : net'.bare = net.bare

section Fewer

variable {port : UInt32} {net net' net'' : Net}

theorem Fewer.trans (h : Fewer port net net') (h' : Fewer port net' net'') : Fewer port net net'' :=
  ⟨h'.dev.trans h.dev, h'.devs.trans h.devs, h'.bare.trans h.bare⟩

theorem Steady.fewer (h : Steady net net') : Fewer port net net' := by
  have hlan : net'.lanDevInfo.map DevInfo.setup = net.lanDevInfo.map DevInfo.setup :=
    congrArg Net.lanDevInfo h
  have hwan : net'.wanDevInfo.map DevInfo.setup = net.wanDevInfo.map DevInfo.setup :=
    congrArg Net.wanDevInfo h
  refine ⟨?_, ?_, ?_⟩
  · rw [← devInfoOf_setup, ← devInfoOf_setup, h]
  · rw [map_append, map_append, hlan, hwan]
  · rw [Net.bare, Net.bare, h]

theorem search_eraseP {x : UInt32} (hx : x ≠ port) (l : List DevInfo) :
    search DevInfo.ifindex port (l.eraseP fun dev => dev.ifindex = x) =
      search DevInfo.ifindex port l := by
  induction l with
  | nil => rfl
  | cons dev l ih =>
    by_cases hdev : dev.ifindex = x
    · rw [eraseP_cons_of_pos (by simpa using hdev), search_cons, if_neg]
      rw [hdev]
      exact hx
    · rw [eraseP_cons_of_neg (by simpa using hdev), search_cons, search_cons, ih]

theorem devInfoOf_eq (net : Net) : devInfoOf net port = (search DevInfo.ifindex port net.lanDevInfo).or
    (search DevInfo.ifindex port net.wanDevInfo) := List.find?_append

theorem fewer_lan {x : UInt32} (hx : x ≠ port) :
    Fewer port net { net with lanDevInfo := net.lanDevInfo.eraseP fun dev => dev.ifindex = x } := by
  refine ⟨?_, ?_, rfl⟩
  · rw [devInfoOf_eq, devInfoOf_eq, search_eraseP hx]
  · exact (eraseP_sublist.append (List.Sublist.refl _)).map _

theorem fewer_wan {x : UInt32} (hx : x ≠ port) :
    Fewer port net { net with wanDevInfo := net.wanDevInfo.eraseP fun dev => dev.ifindex = x } := by
  refine ⟨?_, ?_, rfl⟩
  · rw [devInfoOf_eq, devInfoOf_eq, search_eraseP hx]
  · exact ((List.Sublist.refl _).append eraseP_sublist).map _

variable (h : Fewer port net net')
include h

/-- What does not look at devices stays. -/
theorem Fewer.reads {β : Type} (f : Net → β) (hf : ∀ net : Net, f net.bare = f net) : f net' = f net := by
  rw [← hf, h.bare, hf]

theorem Fewer.validModules : validModules net' = validModules net := h.reads _ fun _ => rfl

theorem Fewer.combineId (i : ℕ) : (net'.brInfo i).combineId = (net.brInfo i).combineId :=
  h.reads (fun net => (net.brInfo i).combineId) fun _ => rfl

theorem Fewer.reserved (v : IpVersion) (g : Ip) : reserved net' v g = reserved net v g :=
  h.reads (Igmp.reserved · v g) fun _ => rfl

/-- The settings of the port stay. -/
theorem Fewer.devInfoOf {dev : DevInfo} (hdev : devInfoOf net port = some dev) :
    ∃ dev', Igmp.devInfoOf net' port = some dev' ∧ dev'.setup = dev.setup := by
  have hmap := h.dev
  rw [hdev, map_some] at hmap
  exact map_eq_some_iff.mp hmap

theorem Fewer.roomy (hroomy : Roomy net) : Roomy net' where
  slots := by
    have hmax : net'.maxDevNum = net.maxDevNum := h.reads _ fun _ => rfl
    have hlen := h.devs.length_le
    have hslots := hroomy.slots
    simp only [devices, length_map] at hlen hslots ⊢
    omega
  wlan htrap dev hdev hwlan := by
    have htrap' : net'.trapWlanToPS = net.trapWlanToPS := h.reads _ fun _ => rfl
    obtain ⟨dev₀, hdev₀, heq⟩ := mem_map.mp (h.devs.subset (mem_map_of_mem hdev))
    have hindex : dev₀.setup.ifindex = dev.setup.ifindex := by rw [heq]
    have hwlan₀ : dev₀.setup.wlan = dev.setup.wlan := by rw [heq]
    have hlt := hroomy.wlan (htrap' ▸ htrap) dev₀ hdev₀ (hwlan₀.trans hwlan)
    exact lt_of_eq_of_lt hindex.symm hlt

theorem Fewer.unlimited (hlimit : Unlimited net) : Unlimited net' := by
  intro hflood dev hdev v
  have hunknown : net'.unknownFlood = net.unknownFlood := h.reads _ fun _ => rfl
  obtain ⟨dev₀, hdev₀, heq⟩ := mem_map.mp (h.devs.subset (mem_map_of_mem hdev))
  have hrate : (dev₀.setup.devConf v).ratelimitUnkMc.rate = (dev.setup.devConf v).ratelimitUnkMc.rate := by
    rw [heq]
  exact hrate.symm.trans (hlimit (hunknown ▸ hflood) dev₀ hdev₀ v)

end Fewer

/-! ### One entry -/

/-- The entry of a client in a group of a module. -/
def entryAt (t : Tables) (i : ℕ) (v : IpVersion) (g : Ip) (k : Ip × Mac) : Option ClientEntry :=
  search (clientKey v) k (clientsAt t i v g)

section Entry

variable {t t' : Tables} {i : ℕ} {v : IpVersion} {g : Ip} {k : Ip × Mac} {port : UInt32}

/-- A packet of another client, or about other groups, leaves the entry alone. -/
theorem Touches.entryAt {j : ℕ} {w : IpVersion} {gs : List Ip} {k' : Ip × Mac} (h : Touches j w gs k' t t')
    (hother : j = i → w = v → k' = k → ∀ g' ∈ gs, addr v g' ≠ addr v g) :
    entryAt t' i v g k = entryAt t i v g k := by
  unfold Igmp.entryAt
  by_cases hself : j = i ∧ w = v
  · obtain ⟨rfl, rfl⟩ := hself
    by_cases hk : k' = k
    · rw [h.clientsAt fun g' hg' hspot => hother rfl rfl hk g' hg' (spot_inj.mp hspot).2.2.symm]
    · exact (h.only g).search (Ne.symm hk)
  · rw [h.clientsAt fun g' _ hspot => hself ⟨(spot_inj.mp hspot).1.symm, (spot_inj.mp hspot).2.1.symm⟩]

theorem entryAt_maintain {sysTimerSec time : UInt32} {idle : FlowKey → Bool} {db : Db} (hu : Unique db.tables)
    (hi : i ∈ validModules db.net) :
    entryAt (maintainTimerList sysTimerSec idle db time).tables i v g k =
      (entryAt db.tables i v g k).bind (ClientEntry.ageOpt time) := by
  rw [entryAt, clientsAt_maintain hu hi, entryAt]
  exact search_filterMap (clientKey_ageOpt time) (hu i v g)

/-- A client behind the port is not hit on the black list of another port. -/
theorem search_strike {p : BlackPattern} {x : UInt32} (hx : x ≠ port) {l : List ClientEntry} {e : ClientEntry}
    (hl : (l.map (clientKey v)).Nodup) (he : search (clientKey v) k l = some e) (hport : e.inIfidx = port) :
    search (clientKey v) k (p.strike x v l) = some e := by
  unfold BlackPattern.strike
  split
  · exact he
  · next c hc =>
    split
    · have hhit := List.find?_some hc
      have hcx : c.inIfidx = x := by
        simp only [BlackPattern.hit, Bool.and_eq_true, beq_iff_eq] at hhit
        exact hhit.1.1
      have hkey : clientKey v e = k := key_of_search he
      have hne : k ≠ clientKey v c := by
        rintro rfl
        have hsame : c = e := inj_on_of_nodup_map hl (mem_of_find?_eq_some hc)
          (mem_of_search he) hkey.symm
        exact hx (hcx.symm.trans (hsame ▸ hport))
      rw [search_sweep_of_ne hne, he]
    · exact he

theorem search_thinned {F : List ClientEntry} {l : List ClientEntry} (hsub : F.Sublist l)
    (hnone : search (clientKey v) k l = none) : search (clientKey v) k F = none := by
  rw [search_eq_none] at hnone ⊢
  exact fun hmem => hnone ((hsub.map _).subset hmem)

end Entry

/-! ### Undisturbed runs -/

section Track

variable (i : ℕ) (v : IpVersion) (g : Ip) (k : Ip × Mac) (port : UInt32)

/-- Nothing concerns the client in the group or the port: other hosts report anything, the client reports
    about other groups, time goes by, packets are forwarded, other ports are black-listed or removed. -/
def Undisturbed (db : Db) : Event → Prop
  | .report pkt w c msg =>
    pkt.moduleIndex = i → w = v → (addr w c, pkt.smac) = k → ∀ g' ∈ msg.groups, addr v g' ≠ addr v g
  | .tick time _ => db.clock.now ≤ time
  | .data .. => True
  | .elapse _ => True
  | .blackList _ ifidx => ifidx ≠ port
  | .lanGone ifidx _ => ifidx ≠ port
  | .wanGone ifidx _ => ifidx ≠ port
  | .brGone .. => False
  | .flush .. => False

/-- The client is at the port and wants all sources until `T`; once that is over it may be gone. -/
def Tracks (T : UInt32) (db : Db) : Prop :=
  match entryAt db.tables i v g k with
  | none => T ≤ db.clock.now
  | some e => e.inIfidx = port ∧ e.groupFilterTimer = T ∧ e.sourceList = []

end Track

section Steps

variable {i : ℕ} {v : IpVersion} {g : Ip} {k : Ip × Mac} {port T sysTimerSec : UInt32} {db db' : Db}

theorem tracks_iff : Tracks i v g k port T db ↔ entryAt db.tables i v g k = none ∧ T ≤ db.clock.now ∨
    ∃ e, entryAt db.tables i v g k = some e ∧ e.inIfidx = port ∧ e.groupFilterTimer = T ∧ e.sourceList = [] := by
  unfold Tracks
  cases entryAt db.tables i v g k <;> simp

theorem Tracks.keep (h : Tracks i v g k port T db) (hentry : entryAt db'.tables i v g k = entryAt db.tables i v g k)
    (hclock : db'.clock = db.clock) : Tracks i v g k port T db' := by
  rw [tracks_iff] at h ⊢
  rwa [hentry, hclock]

/-- A walk that takes away only clients behind other ports. -/
theorem Tracks.thinned {F : IpVersion → List ClientEntry → List ClientEntry} {is : List ℕ}
    (h : Tracks i v g k port T db) (hwalked : Walked (thinned F) is db.tables db'.tables)
    (hF : ∀ v l, (F v l).Sublist l)
    (hkeep : ∀ e, entryAt db.tables i v g k = some e → e.inIfidx = port →
      search (clientKey v) k (F v (clientsAt db.tables i v g)) = some e)
    (hclock : db'.clock = db.clock) : Tracks i v g k port T db' := by
  refine h.keep ?_ hclock
  by_cases hi : i ∈ is
  · rw [entryAt, clientsAt_thinned hwalked hF hi]
    rcases tracks_iff.mp h with ⟨hold, -⟩ | ⟨e, hold, hin, -⟩
    · exact (search_thinned (hF v _) hold).trans hold.symm
    · exact (hkeep e hold hin).trans hold.symm
  · unfold entryAt
    rw [hwalked.clientsAt_same hi]

/-- The sweep keeps the client as long as its timer runs. -/
theorem Tracks.sweep (h : Tracks i v g k port T db) (hu : Unique db.tables) (hi : i ∈ validModules db.net)
    (hport : port ≠ failIdx) {time : UInt32} {idle : FlowKey → Bool} (hnow : db.clock.now ≤ time) :
    Tracks i v g k port T (maintainTimerList sysTimerSec idle db time) := by
  have hclock := (maintainTimerList_walked sysTimerSec idle db time hu).1
  rw [tracks_iff, entryAt_maintain hu hi, hclock]
  rcases tracks_iff.mp h with ⟨hold, hT⟩ | ⟨e, hold, hin, htimer, hsources⟩
  · rw [hold]
    exact Or.inl ⟨rfl, UInt32.le_trans hT hnow⟩
  · rw [hold, bind_some]
    cases hage : e.ageOpt time with
    | none =>
      -- It wants nothing any more.
      refine Or.inl ⟨rfl, ?_⟩
      by_contra hlt
      have hwants : e.Wants time := Or.inl (htimer ▸ UInt32.not_le.mp hlt)
      have hsome := ageOpt_eq_some.mpr ⟨hwants, hin ▸ hport, rfl⟩
      rw [hage] at hsome
      cases hsome
    | some e' =>
      obtain ⟨-, -, rfl⟩ := ageOpt_eq_some.mp hage
      refine Or.inr ⟨_, rfl, hin, htimer, ?_⟩
      rw [ClientEntry.aged, hsources]
      rfl

theorem unregisterLanDev_clock (db : Db) (ifidx : UInt32) (del : Bool) :
    (unregisterLanDev db ifidx del).clock = db.clock := by
  rcases unregisterLanDev_cases db ifidx del with h | ⟨db', hcalm, -, -, h | h⟩
  · rw [h]
  · rw [h, hcalm.1]
  · rw [h, ← hcalm.1]

theorem unregisterLanDev_fewer {ifidx : UInt32} {del : Bool} (hne : ifidx ≠ port) :
    Fewer port db.net (unregisterLanDev db ifidx del).net := by
  rcases unregisterLanDev_cases db ifidx del with h | ⟨db', hcalm, -, -, h | h⟩
  · rw [h]
    exact Steady.same.fewer
  · rw [h]
    exact hcalm.2.fewer
  · rw [h]
    exact hcalm.2.fewer.trans (fewer_lan hne)

theorem unregisterWanDev_fewer {ifidx : UInt32} {del : Bool} (hne : ifidx ≠ port) :
    Fewer port db.net (unregisterWanDev db ifidx del).net := by
  unfold unregisterWanDev
  split
  · exact fewer_wan hne
  · exact Steady.same.fewer

/-- The configuration stays but for other devices. -/
theorem step_fewer {e : Event} (hok : Undisturbed i v g k port db e) :
    Fewer port db.net (step sysTimerSec db e).net := by
  cases e with
  | report pkt w c msg => exact mldProcess_calm.2.fewer
  | tick time idle => exact (maintainTimerList_calm sysTimerSec idle db time).2.fewer
  | data j first d => exact forwardData_calm.2.fewer
  | elapse jiffies => exact Steady.same.fewer
  | blackList p ifidx => exact (blackListUpdateFlow_calm p ifidx db).2.fewer
  | lanGone ifidx del => exact unregisterLanDev_fewer hok
  | wanGone ifidx del => exact unregisterWanDev_fewer hok
  | brGone ifidx del => exact hok.elim
  | flush brIfidx w => exact hok.elim

theorem step_tracks {e : Event} (h : Tracks i v g k port T db) (hu : Unique db.tables)
    (hi : i ∈ validModules db.net) (hport : port ≠ failIdx) (hok : Undisturbed i v g k port db e) :
    Tracks i v g k port T (step sysTimerSec db e) := by
  cases e with
  | report pkt w c msg => exact h.keep ((mldProcess_touches db pkt w c msg).entryAt hok) mldProcess_calm.1
  | tick time idle => exact h.sweep hu hi hport hok
  | data j first d => exact h.keep (by rw [step, forwardData_tables]) forwardData_calm.1
  | elapse jiffies => exact h
  | blackList p ifidx =>
    exact h.thinned (blackListUpdateFlow_walked db hu) strike_sublist
      (fun e he hin => search_strike hok (hu i v g) he hin) (blackListUpdateFlow_calm p ifidx db).1
  | lanGone ifidx del =>
    rcases unregisterLanDev_tables db ifidx del with htables | htables
    · exact h.keep (by rw [step, htables]) (unregisterLanDev_clock db ifidx del)
    · have hwalked : Walked (thinned (behindOthers ifidx)) (validModules db.net) db.tables
          (clearDataBaseByDev db.net ifidx db.tables) := clearDataBaseByDev_walked db.net db.tables hu
      rw [← htables] at hwalked
      refine h.thinned hwalked behindOthers_sublist (fun e he hin => ?_) (unregisterLanDev_clock db ifidx del)
      have hne : e.inIfidx ≠ ifidx := fun heq => hok (heq.symm.trans hin)
      rw [behindOthers, search_filter (hu i v g)]
      unfold entryAt at he
      rw [he]
      simp [hne]
  | wanGone ifidx del =>
    rw [step, unregisterWanDev]
    split <;> exact h
  | brGone ifidx del => exact hok.elim
  | flush brIfidx w => exact hok.elim

/-- What holds of a state in the run: the entry is followed, and the port is configured as in `net`. -/
structure Followed (i : ℕ) (v : IpVersion) (g : Ip) (k : Ip × Mac) (port T : UInt32) (net : Net) (db : Db) :
    Prop where
  unique : Unique db.tables
  tracks : Tracks i v g k port T db
  fewer : Fewer port net db.net

theorem run_followed {net : Net} (hi : i ∈ validModules net) (hport : port ≠ failIdx) {es : List Event}
    (h : Followed i v g k port T net db) (hes : Legal (step sysTimerSec) (Undisturbed i v g k port) db es) :
    Followed i v g k port T net (run (step sysTimerSec) db es) := by
  have hstep : ∀ (db : Db) e, Followed i v g k port T net db → Undisturbed i v g k port db e →
      Followed i v g k port T net (step sysTimerSec db e) := by
    intro db e h hok
    have hi' : i ∈ validModules db.net := h.fewer.validModules ▸ hi
    exact ⟨step_unique e h.unique, step_tracks h.tracks h.unique hi' hport hok, h.fewer.trans (step_fewer hok)⟩
  exact run_invariant hstep es db h hes

end Steps

/-! ### Decisions -/

/-- The devices that get a packet that comes in at a bridge, computed without the flow cache. -/
def decision (db : Db) (j : ℕ) (d : DataInfo) : List UInt32 :=
  (getMulticastDataFwdInfo db.clock db.tables db.net db.flows j false d).fwd.egressDevInfo

/-- A port gets the packet because its snooping is disabled, or for a client of the group other than `k` in
    module `i`. -/
def OtherAccount (db : Db) (i : ℕ) (k : Ip × Mac) (j : ℕ) (d : DataInfo) (r : UInt32) : Prop :=
  ∃ b, Asked db.net j b ∧
    ((r ∈ (db.net.brInfo b).ports ∧ Floods db.net d.ipVersion r) ∨
      ∃ c ∈ clientsAt db.tables b d.ipVersion d.groupAddr, c.inIfidx = r ∧
        clientWant db.net db.clock.now d.ipVersion d.sourceIp c = some r ∧
        ¬(b = i ∧ clientKey d.ipVersion c = k))

/-- The port gets all packets of the group until `T`, and from then on none for the client; no other port
    gets one for the client. A sweep at `T` or later deletes the entry. -/
structure Lifetime (sysTimerSec : UInt32) (i : ℕ) (v : IpVersion) (g : Ip) (k : Ip × Mac) (port : UInt32)
    (T : ℕ) (db : Db) : Prop where
  included : db.clock.now.toNat < T → ∀ j d, Asked db.net j i → d.ipVersion = v →
    addr v d.groupAddr = addr v g → port ∈ decision db j d
  others : db.net.unknownFlood = false → db.net.trapWlanToPS = false →
    ∀ r, (r = port → T ≤ db.clock.now.toNat) → ∀ j d, d.ipVersion = v → addr v d.groupAddr = addr v g →
      r ∈ decision db j d → OtherAccount db i k j d r
  swept : ∀ time idle, T ≤ time.toNat →
    entryAt (step sysTimerSec db (.tick time idle)).tables i v g k = none

section Lifetime

variable {i : ℕ} {v : IpVersion} {g : Ip} {k : Ip × Mac} {port T sysTimerSec : UInt32} {db : Db}

theorem Tracks.clientWant_eq {e : ClientEntry} (h : Tracks i v g k port T db)
    (he : entryAt db.tables i v g k = some e) (s : Ip) (net : Net) :
    (T ≤ db.clock.now → clientWant net db.clock.now v s e = none) ∧
      ∀ r, clientWant net db.clock.now v s e = some r → r = port := by
  obtain ⟨hin, htimer, hsources⟩ : e.inIfidx = port ∧ e.groupFilterTimer = T ∧ e.sourceList = [] := by
    rwa [Tracks, he] at h
  unfold clientWant
  rw [hin]
  cases devInfoOf net port with
  | none => exact ⟨fun _ => rfl, fun _ h => by cases h⟩
  | some dev =>
    rw [bind_some]
    refine ⟨fun hT => if_neg ?_, fun r hr => ?_⟩
    · rintro ⟨-, -, hwants⟩
      rw [← htimer] at hT
      simp [clientWants, hT, hsources, searchSourceEntry, search] at hwants
    · split at hr
      · exact (some.inj hr).symm
      · cases hr

/-- What is followed has this lifetime. -/
theorem Followed.lifetime {net : Net} {dev : DevInfo} (h : Followed i v g k port T net db)
    (hi : i ∈ validModules net) (hdev : devInfoOf net port = some dev)
    (hforward : (dev.devConf v).forwardDisable = false) (hsnoop : (dev.devConf v).snoopingDisable = false)
    (hresv : reserved net v g = false) (hroomy : Roomy net)
    (hlimit : (net.brInfo i).combineId = 0 ∨ Unlimited net) :
    Lifetime sysTimerSec i v g k port T.toNat db := by
  obtain ⟨hu, htracks, hfewer⟩ := h
  have hrule : ∀ {g'}, addr v g' = addr v g → reserved db.net v g' = false := fun hg => by
    rw [reserved_congr hg, hfewer.reserved, hresv]
  refine ⟨fun hnow j d hasked hv hg => ?_, fun hflood htrap r hr j d hv hg hmem => ?_, fun time idle htime => ?_⟩
  · -- The entry is there, its timer runs, and it has no sources.
    subst hv
    have hlt : db.clock.now < T := UInt32.lt_iff_toNat_lt.mpr hnow
    rcases tracks_iff.mp htracks with ⟨-, hT⟩ | ⟨e, hold, hin, htimer, hsources⟩
    · exact absurd hlt (UInt32.not_lt.mpr hT)
    · obtain ⟨dev', hdev', hsetup⟩ := hfewer.devInfoOf hdev
      have hconf : (dev'.devConf d.ipVersion).forwardDisable = false ∧
          (dev'.devConf d.ipVersion).snoopingDisable = false := by
        have heq : (dev'.devConf d.ipVersion).setup = (dev.devConf d.ipVersion).setup :=
          congrArg (fun dev : DevInfo => dev.devConf d.ipVersion) hsetup
        exact ⟨(congrArg DevConf.forwardDisable heq).trans hforward,
          (congrArg DevConf.snoopingDisable heq).trans hsnoop⟩
      have hwant : clientWant db.net db.clock.now d.ipVersion d.sourceIp e = some port := by
        have hle : ¬e.groupFilterTimer ≤ db.clock.now := UInt32.not_le.mpr (htimer ▸ hlt)
        unfold clientWant
        rw [hin, hdev', bind_some, if_pos]
        refine ⟨by simp [hconf.1], by simp [hconf.2], ?_⟩
        simp [clientWants, hle, hsources, searchSourceEntry, search]
      have hc : e ∈ clientsAt db.tables i d.ipVersion d.groupAddr := by
        rw [clientsAt_congr hg]
        exact mem_of_search hold
      refine reaches (hfewer.roomy hroomy) (hrule hg) db.flows ?_ hasked hc hwant
      rw [hfewer.combineId]
      exact hlimit.imp_right hfewer.unlimited
  · subst hv
    obtain ⟨b, hasked, hreason⟩ := reached_only hflood htrap (hrule hg) db.flows hmem
    refine ⟨b, hasked, hreason.imp_right ?_⟩
    rintro ⟨c, hc, hwant⟩
    have hin : c.inIfidx = r := by
      unfold clientWant at hwant
      obtain ⟨dev, -, hwant⟩ := bind_eq_some_iff.mp hwant
      split at hwant
      · exact some.inj hwant
      · cases hwant
    refine ⟨c, hc, hin, hwant, ?_⟩
    rintro ⟨rfl, hkey⟩
    have hentry : entryAt db.tables b d.ipVersion g k = some c := by
      rw [entryAt, ← clientsAt_congr hg, ← hkey]
      exact search_eq_some (hu b d.ipVersion d.groupAddr) hc
    obtain ⟨hover, hself⟩ := htracks.clientWant_eq hentry d.sourceIp db.net
    have hT : T ≤ db.clock.now := UInt32.le_iff_toNat_le.mpr (hr (hself r hwant))
    rw [hover hT] at hwant
    cases hwant
  · have hi' : i ∈ validModules db.net := hfewer.validModules ▸ hi
    rw [step, entryAt_maintain hu hi']
    rcases tracks_iff.mp htracks with ⟨hold, -⟩ | ⟨e, hold, -, htimer, hsources⟩
    · rw [hold, bind_none]
    · rw [hold, bind_some, eq_none_iff_forall_not_mem]
      intro e' hage
      obtain ⟨hwants, -, -⟩ := ageOpt_eq_some.mp hage
      rcases hwants with hlt | ⟨s, hs, -⟩
      · rw [htimer] at hlt
        exact absurd (UInt32.lt_iff_toNat_lt.mp hlt) (Nat.not_lt.mpr htime)
      · rw [hsources] at hs
        exact absurd hs not_mem_nil

end Lifetime

/-! ### Joining and leaving -/

/-- A join is accepted and recorded: the port belongs to a bridge and snoops, the checks pass, and there are
    entries for the group and for the client where they are needed. -/
structure Recorded (db : Db) (dev : DevInfo) (pkt : PktHdr) (v : IpVersion) (c g : Ip) : Prop where
  known : devInfoOf db.net pkt.devIfindex = some dev
  valid : pkt.moduleIndex ∈ validModules db.net
  snooping : (dev.devConf v).snoopingDisable = false
  passes : (checkJoin db dev pkt v c g).1 = .cont
  group : searchGroupEntry db.tables pkt.moduleIndex v g = none → db.tables.groupPool ≠ []
  client : clientOf db.tables pkt.moduleIndex v g c pkt.smac = none → db.tables.clientPool ≠ []

section Joins

variable {db : Db} {dev : DevInfo} {pkt : PktHdr} {v : IpVersion} {c g : Ip} {sysTimerSec : UInt32}

theorem openClient_port {now timer : UInt32} {t t' : Tables} {e : ClientEntry}
    (h : openClient now pkt v g c timer t = some (e, t')) : e.inIfidx = pkt.devIfindex := by
  obtain ⟨-, ⟨_, _, rfl, -⟩ | ⟨_, _, -, -, rfl, -⟩⟩ := openClient_cases h <;> rfl

/-- With room in the pools the outcome of the work on the client is kept. -/
theorem enter_entry (db : Db) (timer : UInt32) (core : ClientEntry → List ℕ → Outcome)
    (hgroup : searchGroupEntry db.tables pkt.moduleIndex v g = none → db.tables.groupPool ≠ [])
    (hclient : clientOf db.tables pkt.moduleIndex v g c pkt.smac = none → db.tables.clientPool ≠ [])
    (hcore : ∀ e pool, clientKey v (core e pool).client = clientKey v e) :
    ∃ e pool, e.inIfidx = pkt.devIfindex ∧
      entryAt (enter db pkt v c g timer core).2.tables pkt.moduleIndex v g (addr v c, pkt.smac) =
        some (core e pool).client := by
  obtain ⟨t₁, hopen, hsome, hclients, -, hsame⟩ := openGroup_spec hgroup
  have hroom : clientOf t₁ pkt.moduleIndex v g c pkt.smac = none → t₁.clientPool ≠ [] := by
    rw [hsame, hclients]
    exact hclient
  obtain ⟨e, t₂, hfound, -, hkey, hlinked, -, -⟩ := openClient_spec db.clock.now timer hsome hroom
  refine ⟨e, t₂.sourcePool, openClient_port hfound, ?_⟩
  have henter : enter db pkt v c g timer core = finish { db with tables := t₂ } pkt v g (core e t₂.sourcePool) := by
    unfold enter
    simp only [hopen, hfound]
  rw [henter, entryAt, ← clientOf_eq]
  exact finish_entry hlinked ((hcore e t₂.sourcePool).trans hkey)

/-- A join that is recorded. -/
theorem join_followed (igmpv1 : Bool) (hu : Unique db.tables) (h : Recorded db dev pkt v c g) :
    Followed pkt.moduleIndex v g (addr v c, pkt.smac) pkt.devIfindex
      (db.clock.now + (dev.devConf v).memberAgingInterval) db.net
      (step sysTimerSec db (.report pkt v c (.join igmpv1 g))) := by
  have hprocess : step sysTimerSec db (.report pkt v c (.join igmpv1 g)) =
      (processJoin db dev pkt v igmpv1 c g).2 := by
    simp [step, mldProcess, h.known, h.valid, h.snooping, process]
  refine ⟨step_unique _ hu, ?_, mldProcess_calm.2.fewer⟩
  obtain ⟨net, -, hdb, -⟩ := checkJoin_spec db dev pkt v c g
  have htables : (checkJoin db dev pkt v c g).2.tables = db.tables := by rw [hdb]
  have hclock : (checkJoin db dev pkt v c g).2.clock = db.clock := by rw [hdb]
  have hjoin : (processJoin db dev pkt v igmpv1 c g).2 = (enter (checkJoin db dev pkt v c g).2 pkt v c g 0
      (joinCore db.clock.now pkt (joinVersion igmpv1 v) (dev.devConf v))).2 := by
    rw [← hclock]
    unfold processJoin
    have hpasses := h.passes
    rcases hcheck : checkJoin db dev pkt v c g with ⟨ret, db'⟩
    rw [hcheck] at hpasses
    obtain rfl : ret = .cont := hpasses
    rfl
  obtain ⟨e, pool, hin, hentry⟩ := enter_entry (checkJoin db dev pkt v c g).2 0
    (joinCore db.clock.now pkt (joinVersion igmpv1 v) (dev.devConf v))
    (htables.symm ▸ h.group) (htables.symm ▸ h.client) fun _ _ => rfl
  rw [← hjoin, ← hprocess] at hentry
  unfold Tracks
  rw [hentry]
  exact ⟨hin, rfl, rfl⟩

/-- When a membership that was to last until `T` ends after a leave. -/
def leaveEnd (now T : UInt32) (conf : DevConf) : UInt32 :=
  if conf.fastLeave then now
  else if now + conf.lastMemberAgingInterval < T then now + conf.lastMemberAgingInterval
  else T

variable {i : ℕ} {k : Ip × Mac} {port T : UInt32}

/-- A leave deletes the entry or caps its timer, at the port it comes in at. -/
theorem entryAt_leaveClient (now : UInt32) (conf : DevConf) {t : Tables} {e : ClientEntry}
    (hkey : (addr v c, pkt.smac) = k) (he : entryAt t pkt.moduleIndex v g k = some e) :
    entryAt (leaveClient pkt v now t conf c g) pkt.moduleIndex v g k =
      if conf.fastLeave then none else some ((e.seen pkt).cap (now + conf.lastMemberAgingInterval)) := by
  have hek : clientKey v e = k := key_of_search he
  have hclient : clientOf t pkt.moduleIndex v g c pkt.smac = some e := by
    rw [clientOf_eq, hkey]
    exact he
  unfold leaveClient
  rw [hclient]
  simp only
  split
  · rw [entryAt, clientsAt_deleteClientEntry, hek]
    exact search_sweep_self
  · have hcap : clientKey v ((e.seen pkt).cap (now + conf.lastMemberAgingInterval)) = k := hek
    rw [entryAt, clientsAt_storeClient hcap, search_update_self fun _ _ => hcap]
    unfold entryAt at he
    rw [he, map_some]

theorem leave_followed (sysTimerSec : UInt32) {net : Net} (h : Followed pkt.moduleIndex v g k port T net db)
    (hnow : db.clock.now < T)
    (hvalid : pkt.moduleIndex ∈ validModules db.net) (hkey : (addr v c, pkt.smac) = k)
    (hdev : devInfoOf db.net pkt.devIfindex = some dev) (hsnoop : (dev.devConf v).snoopingDisable = false) :
    Followed pkt.moduleIndex v g k pkt.devIfindex (leaveEnd db.clock.now T (dev.devConf v)) db.net
      (step sysTimerSec db (.report pkt v c (.leave g))) := by
  have hprocess : step sysTimerSec db (.report pkt v c (.leave g)) = (processLeave db dev pkt v c g).2 := by
    simp [step, mldProcess, hdev, hvalid, hsnoop, process]
  have hclock : (step sysTimerSec db (.report pkt v c (.leave g))).clock = db.clock := mldProcess_calm.1
  refine ⟨step_unique _ h.unique, ?_, mldProcess_calm.2.fewer⟩
  rcases tracks_iff.mp h.tracks with ⟨-, hT⟩ | ⟨e, hold, -, htimer, hsources⟩
  · exact absurd hnow (UInt32.not_lt.mpr hT)
  · have hentry := entryAt_leaveClient db.clock.now (dev.devConf v) hkey hold
    have hdrop : entryAt (processLeave db dev pkt v c g).2.tables pkt.moduleIndex v g k =
        entryAt (leaveClient pkt v db.clock.now db.tables (dev.devConf v) c g) pkt.moduleIndex v g k := by
      rw [entryAt, processLeave_tables, clientsAt_dropEmptyGroup, entryAt]
    rw [Tracks, hclock, hprocess, hdrop, hentry, leaveEnd]
    cases hfast : (dev.devConf v).fastLeave with
    | true => exact UInt32.le_refl _
    | false =>
      simp only [Bool.false_eq_true, if_false]
      refine ⟨rfl, ?_, ?_⟩
      · simp only [ClientEntry.cap, ClientEntry.seen, htimer]
      · simp [ClientEntry.cap, ClientEntry.seen, hsources]

theorem leaveEnd_toNat {now : UInt32} {conf : DevConf}
    (hwrap : now.toNat + conf.lastMemberAgingInterval.toNat < 2 ^ 32) :
    (leaveEnd now T conf).toNat = if conf.fastLeave then now.toNat
      else min T.toNat (now.toNat + conf.lastMemberAgingInterval.toNat) := by
  have hsum : (now + conf.lastMemberAgingInterval).toNat = now.toNat + conf.lastMemberAgingInterval.toNat := by
    rw [UInt32.toNat_add, Nat.mod_eq_of_lt hwrap]
  unfold leaveEnd
  split
  · rfl
  · split
    · next hlt =>
      have hlt' := UInt32.lt_iff_toNat_lt.mp hlt
      omega
    · next hge =>
      have hge' := UInt32.le_iff_toNat_le.mp (UInt32.not_lt.mp hge)
      omega

theorem Followed.congr {g' : Ip} {net : Net} (h : Followed i v g k port T net db) (hg : addr v g = addr v g') :
    Followed i v g' k port T net db := by
  refine ⟨h.unique, ?_, h.fewer⟩
  have htracks := h.tracks
  unfold Tracks entryAt at htracks ⊢
  rwa [← clientsAt_congr hg]

end Joins

/-- How long a membership lasts. After a join that is recorded the port gets every packet of the group until
    the ageing interval is over, and from then on none for this client; the first sweep behind that deletes
    the entry. A leave before that moves the client to the port it comes in at, where it ends with the
    interval for last members if that is earlier, and at once with fast leave. -/
theorem membership_lifetime (sysTimerSec : UInt32) (net : Net) (groupCount clientCount sourceCount flowCount : ℕ)
    (past : List Event) (pkt : PktHdr) (v : IpVersion) (c g : Ip) (igmpv1 : Bool) (dev : DevInfo) (db : Db)
    (hdb : db = run (step sysTimerSec) (Db.init net groupCount clientCount sourceCount flowCount) past)
    (hrec : Recorded db dev pkt v c g) (hport : pkt.devIfindex ≠ failIdx)
    (hforward : (dev.devConf v).forwardDisable = false) (hroomy : Roomy db.net)
    (hlimit : (db.net.brInfo pkt.moduleIndex).combineId = 0 ∨ Unlimited db.net)
    (hwrap : db.clock.now.toNat + (dev.devConf v).memberAgingInterval.toNat < 2 ^ 32) :
    let k := (addr v c, pkt.smac)
    let T := db.clock.now.toNat + (dev.devConf v).memberAgingInterval.toNat
    let joined := step sysTimerSec db (.report pkt v c (.join igmpv1 g))
    ∀ es, Legal (step sysTimerSec) (Undisturbed pkt.moduleIndex v g k pkt.devIfindex) joined es →
      let db' := run (step sysTimerSec) joined es
      Lifetime sysTimerSec pkt.moduleIndex v g k pkt.devIfindex T db' ∧
      ∀ pkt' c' g' dev', db'.clock.now.toNat < T → pkt'.moduleIndex = pkt.moduleIndex →
        (addr v c', pkt'.smac) = k → addr v g' = addr v g →
        devInfoOf db'.net pkt'.devIfindex = some dev' → (dev'.devConf v).snoopingDisable = false →
        (dev'.devConf v).forwardDisable = false → pkt'.devIfindex ≠ failIdx →
        db'.clock.now.toNat + (dev'.devConf v).lastMemberAgingInterval.toNat < 2 ^ 32 →
        let T' := if (dev'.devConf v).fastLeave then db'.clock.now.toNat
          else min T (db'.clock.now.toNat + (dev'.devConf v).lastMemberAgingInterval.toNat)
        let left := step sysTimerSec db' (.report pkt' v c' (.leave g'))
        ∀ es', Legal (step sysTimerSec) (Undisturbed pkt.moduleIndex v g k pkt'.devIfindex) left es' →
          Lifetime sysTimerSec pkt.moduleIndex v g k pkt'.devIfindex T' (run (step sysTimerSec) left es') := by
  intro k T joined es hes db'
  have hu : Unique db.tables := by
    rw [hdb]
    exact run_unique sysTimerSec net _ _ _ _ past
  have hresv : reserved db.net v g = false := by
    have hpasses := hrec.passes
    unfold checkJoin at hpasses
    split at hpasses
    · cases hpasses
    · next hno => exact Bool.not_eq_true _ ▸ hno
  have hT : (db.clock.now + (dev.devConf v).memberAgingInterval).toNat = T := by
    rw [UInt32.toNat_add, Nat.mod_eq_of_lt hwrap]
  have hfollow := run_followed hrec.valid hport (join_followed igmpv1 hu hrec) hes
  refine ⟨?_, fun pkt' c' g' dev' hnow hmod hkey hg hdev hsnoop hforward' hport' hwrap' => ?_⟩
  · rw [← hT]
    exact hfollow.lifetime hrec.valid hrec.known hforward hrec.snooping hresv hroomy hlimit
  · intro T' left es' hes'
    have hvalid : pkt.moduleIndex ∈ validModules db'.net := hfollow.fewer.validModules ▸ hrec.valid
    have hnow' : db'.clock.now < db.clock.now + (dev.devConf v).memberAgingInterval := by
      rw [UInt32.lt_iff_toNat_lt, hT]
      exact hnow
    have hT' : (leaveEnd db'.clock.now (db.clock.now + (dev.devConf v).memberAgingInterval)
        (dev'.devConf v)).toNat = T' := by
      rw [leaveEnd_toNat hwrap', hT]
    have hbefore := hfollow.congr hg.symm
    rw [← hmod] at hbefore hvalid
    have hleft := (leave_followed sysTimerSec hbefore hnow' hvalid hkey hdev hsnoop).congr hg
    rw [hmod] at hleft hvalid
    have hafter := run_followed hvalid hport' hleft hes'
    rw [← hT']
    refine hafter.lifetime hvalid hdev hforward' hsnoop ?_ (hfollow.fewer.roomy hroomy) ?_
    · rw [hfollow.fewer.reserved, hresv]
    · rw [hfollow.fewer.combineId]
      exact hlimit.imp_right hfollow.fewer.unlimited

/-- The port of the sample host gets the group 200 seconds after the join. -/
theorem membership_lifetime_sample :
    let g := (sampleRec []).groupAddr
    let joined := step 10 (Db.init (sampleNet false) 4 4 8 4) (.report samplePkt .v4 (host 9) (.join false g))
    ∀ d : DataInfo, d.ipVersion = .v4 → addr .v4 d.groupAddr = addr .v4 g →
      5 ∈ decision (run (step 10) joined [.tick 200 fun _ => false]) 0 d := by
  intro g joined d hv hg
  have hrec : Recorded (Db.init (sampleNet false) 4 4 8 4) (samplePort false) samplePkt .v4 (host 9) g :=
    ⟨rfl, by decide, rfl, by decide +kernel, fun _ => by decide, fun _ => by decide⟩
  have hes : Legal (step 10) (Undisturbed 0 .v4 g (addr .v4 (host 9), 1) 5) joined [.tick 200 fun _ => false] := by
    refine ⟨?_, trivial⟩
    show joined.clock.now ≤ 200
    decide +kernel
  have hlife := (membership_lifetime 10 (sampleNet false) 4 4 8 4 [] samplePkt .v4 (host 9) g false
    (samplePort false) _ rfl hrec (by decide) rfl ⟨by decide, fun h => absurd h (by decide)⟩ (Or.inl rfl)
    (by decide) _ hes).1
  have hnow : (run (step 10) joined [.tick 200 fun _ => false]).clock.now.toNat < 260 := by decide +kernel
  have hasked : Asked (run (step 10) joined [.tick 200 fun _ => false]).net 0 0 := by
    unfold Asked
    rw [if_pos (by decide +kernel)]
  exact hlife.included hnow 0 d hasked hv hg

/-- The sample bridge with a second port. -/
def twoPorts : Net :=
  { sampleNet false with
    lanDevInfo := [samplePort false, { samplePort false with ifindex := 6 }]
    brInfo := fun i => { (sampleNet false).brInfo i with ports := [5, 6] } }

/-- A host joins on one port, and its leave comes in at another one: without fast leave the first port loses
    the group at once, although neither interval is over, and the second port gets it. -/
theorem leave_elsewhere_moves :
    let g := (sampleRec []).groupAddr
    let d : DataInfo := ⟨.v4, host 1, g, 0, 0, 17, none, none, false, false⟩
    let joined := step 10 (Db.init twoPorts 4 4 8 4) (.report samplePkt .v4 (host 9) (.join false g))
    let left := step 10 joined (.report { samplePkt with devIfindex := 6 } .v4 (host 9) (.leave g))
    decision joined 0 d = [5] ∧ left.clock.now = joined.clock.now ∧ decision left 0 d = [6] := by
  decide +kernel

end PhoebusBsp.Igmp

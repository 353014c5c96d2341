import PhoebusBsp.Igmp.Arrivals
import PhoebusBsp.Igmp.RuleRefs

/-! Black-listed stations. The module runs with the lists of its devices: a report is looked up in the black
    list of its device before it is processed, and a new rule takes the stations it bars out of the groups.

        report          passed by the check: the client it brings is not barred
        tick, data      no clients come
        blackListAdd    one client of every group is deleted
        deletion, reset fewer rules

    So a station that is barred holds no membership, as long as a new rule finds at most one client in a group. -/

namespace PhoebusBsp.Igmp
open Schemes Shared List

/-! ### The module with its lists -/

structure Snooper where
  db : Db
  lists : RuleLists

/-- The white lists are where the check of a report reads them. -/
def RuleLists.install (lists : RuleLists) (net : Net) : Net :=
  let withWhite (d : DevInfo) : DevInfo :=
    { d with devConf := fun v => { d.devConf v with white := lists.white.listOf (d.ifindex, v) } }
  { net with
    lanDevInfo := net.lanDevInfo.map withWhite
    wanDevInfo := net.wanDevInfo.map withWhite
    whiteList := lists.white.rules.map fun r => r.pattern.entry r.idx }

/-- `rtk_igmp_blackListAdd` comes to the end: the rule was not on the list of the device. -/
def RuleLists.blackLinks (lists : RuleLists) (patten : BlackPattern) (ifidx : UInt32) : Bool :=
  decide (ifidx ∈ lists.devices) &&
    (place (lists.black.alloc idxWidth patten).1 (lists.black.listOf (ifidx, patten.ipVersion))).isSome

/-- What `rtk_igmp_reset_devConfig` leaves of a configuration: zeros and the two default intervals. -/
def DevConf.cleared (memberAging lastMemberAging : UInt32) : DevConf :=
  ⟨false, false, false, false, memberAging, lastMemberAging, 0, 0, false, [], ⟨0, 0, 0⟩⟩

namespace Snooper

variable (s : Snooper)

/-- A call on the lists. `aging` are the default intervals, `IGMP_MEMBER_AGING` and the like. -/
def call (aging : IpVersion → UInt32 × UInt32) (call : RuleCall) : Snooper :=
  let lists := (s.lists.exec call).2
  match call with
  | .whiteAdd .. => ⟨{ s.db with net := lists.install s.db.net }, lists⟩
  | .whiteDel .. => ⟨{ s.db with net := lists.install s.db.net }, lists⟩
  | .blackAdd patten ifidx =>
    ⟨if s.lists.blackLinks patten ifidx then blackListUpdateFlow patten ifidx s.db else s.db, lists⟩
  | .blackDel .. => ⟨s.db, lists⟩
  | .reset ifidx v =>
    let net := s.db.net.modifyDev ifidx fun d =>
      { d with devConf := fun w => if w = v then .cleared (aging v).1 (aging v).2 else d.devConf w }
    ⟨{ s.db with net := lists.install net }, lists⟩

/-- A report with an Ethernet header: the source MAC is looked up in the black list first. -/
def mldProcess (pkt : PktHdr) (v : IpVersion) (c : Ip) (msg : Message) : Snooper :=
  if s.lists.filterblackListCheck pkt.devIfindex v (some pkt.smac) then s
  else { s with db := Igmp.mldProcess s.db pkt v c msg }

/-- The module after `rtk_igmp_init`, with devices that have no rules yet. -/
def init (net : Net) (groupCount clientCount sourceCount flowCount : ℕ) : Snooper :=
  let lists := RuleLists.init (devices net)
  ⟨Db.init (lists.install net) groupCount clientCount sourceCount flowCount, lists⟩

end Snooper

inductive SnooperEvent
  | report (pkt : PktHdr) (v : IpVersion) (c : Ip) (msg : Message)
  | tick (time : UInt32) (idle : FlowKey → Bool)
  | data (i : ℕ) (searchCacheFlowFirst : Bool) (d : DataInfo)
  | elapse (jiffies : UInt32)
  | call (call : RuleCall)

def Snooper.step (sysTimerSec : UInt32) (aging : IpVersion → UInt32 × UInt32) (s : Snooper) : SnooperEvent → Snooper
  | .report pkt v c msg => s.mldProcess pkt v c msg
  | .tick time idle => { s with db := Igmp.step sysTimerSec s.db (.tick time idle) }
  | .data i first d => { s with db := Igmp.step sysTimerSec s.db (.data i first d) }
  | .elapse jiffies => { s with db := Igmp.step sysTimerSec s.db (.elapse jiffies) }
  | .call call => s.call aging call

/-- The white list check of a report has the verdict of the lists. -/
theorem filterWhiteListCheck_install {lists : RuleLists} {net : Net} {ifidx : UInt32} {dev : DevInfo}
    (hdev : devInfoOf (lists.install net) ifidx = some dev) (v : IpVersion) (isV3 : Bool) (g c : Ip)
    (mcSource : Option Ip) (saMac : Mac) : filterWhiteListCheck (lists.install net) dev v isV3 g c mcSource saMac =
      lists.filterWhiteListCheck ifidx v isV3 (some g) (some c) mcSource (some saMac) := by
  have hkey : dev.ifindex = ifidx := Chain.key_of_search hdev
  have hwhite : (dev.devConf v).white = lists.white.listOf (dev.ifindex, v) := by
    have hmem := Chain.mem_of_search hdev
    rw [RuleLists.install, ← map_append] at hmem
    obtain ⟨d, -, rfl⟩ := mem_map.mp hmem
    rfl
  rw [filterWhiteListCheck_lists rfl hwhite, hkey]

/-! ### Rules that a device holds -/

section Calls

variable {s : RuleLists} {given : Given BlackPattern} {ifidx : UInt32}

theorem filterblackListCheck_iff (h : Keeps (0 ≤ ·) BlackPattern.ipVersion s.devices s.black given) (v : IpVersion)
    (saMac : Option Mac) : s.filterblackListCheck ifidx v saMac = true ↔
      ∃ i p, Holds s.black (ifidx, v) i p ∧ p.bars (RuleLists.knownMac saMac) = true :=
  (probe_iff h.consistent.toSound (ifidx, v) fun p => p.bars (RuleLists.knownMac saMac)).1

/-- The devices are the same and hold no rule that they were not given. -/
structure Fades (s s' : RuleLists) : Prop where
  devices : s'.devices = s.devices
  given : ∀ given, Keeps (0 ≤ ·) BlackPattern.ipVersion s.devices s.black given →
    ∃ given', Keeps (0 ≤ ·) BlackPattern.ipVersion s.devices s'.black given' ∧ ∀ d v, given' d v ⊆ given d v

theorem Fades.of_eq {s' : RuleLists} (hdevices : s'.devices = s.devices) (hblack : s'.black = s.black) :
    Fades s s' := by
  refine ⟨hdevices, fun given h => ⟨given, ?_, fun _ _ => subset_rfl⟩⟩
  rw [hblack]
  exact h

theorem Fades.trans {s' s'' : RuleLists} (h : Fades s s') (h' : Fades s' s'') : Fades s s'' := by
  refine ⟨h'.devices.trans h.devices, fun given hgiven => ?_⟩
  obtain ⟨given', hgiven', hsub⟩ := h.given given hgiven
  rw [← h.devices] at hgiven'
  obtain ⟨given'', hgiven'', hsub'⟩ := h'.given given' hgiven'
  rw [h.devices] at hgiven''
  exact ⟨given'', hgiven'', fun d v => (hsub' d v).trans (hsub d v)⟩

theorem fades_whiteListDelByIdx (index : ℕ) : Fades s (s.whiteListDelByIdx ifidx index).2 := by
  rw [whiteListDelByIdx_eq]
  split
  · exact .of_eq rfl rfl
  · exact .of_eq rfl rfl

theorem fades_blackListDelByIdx (index : ℕ) : Fades s (s.blackListDelByIdx ifidx index).2 := by
  rw [blackListDelByIdx_eq]
  split
  · exact .of_eq rfl rfl
  · next hd => exact ⟨rfl, fun given h => ⟨_, h.delByIdx (not_not.mp hd) index, fun _ _ _ hx => hx.1⟩⟩

theorem fades_blackListDel (patten : Option BlackPattern) (index : ℕ) :
    Fades s (s.blackListDel patten ifidx index).2 := by
  cases patten with
  | none => exact fades_blackListDelByIdx index
  | some q =>
    rw [RuleLists.blackListDel]
    split
    · exact .of_eq rfl rfl
    · next hd => exact ⟨rfl, fun given h => ⟨_, h.sweep (not_not.mp hd) q.ipVersion q.covers, fun _ _ _ hx => hx.1⟩⟩

theorem fades_whiteListDel (patten : Option WhitePattern) (index : ℕ) :
    Fades s (s.whiteListDel patten ifidx index).2 := by
  cases patten with
  | none => exact fades_whiteListDelByIdx index
  | some q =>
    rw [RuleLists.whiteListDel]
    split <;> exact .of_eq rfl rfl

theorem fades_whiteListAdd (patten : WhitePattern) : Fades s (s.whiteListAdd patten ifidx).2 := by
  unfold RuleLists.whiteListAdd
  split
  · exact .of_eq rfl rfl
  · split <;> exact .of_eq rfl rfl

theorem fades_foldl {f : RuleLists → ℕ → RuleLists} (hf : ∀ s i, Fades s (f s i)) (idxs : List ℕ) :
    Fades s (idxs.foldl f s) :=
  List.foldlRecOn (motive := fun s' => Fades s s') _ _ (.of_eq rfl rfl) fun s' h i _ => h.trans (hf s' i)

theorem fades_resetDevConfig (v : IpVersion) : Fades s (s.resetDevConfig ifidx v) := by
  unfold RuleLists.resetDevConfig
  split
  · exact .of_eq rfl rfl
  · next hd =>
    -- both loops delete, whatever the white list has left for the second one
    have hwhite : Fades s ((s.white.listOf (ifidx, v)).foldl (fun s index => (s.whiteListDelByIdx ifidx index).2) s) :=
      fades_foldl (fun _ => fades_whiteListDelByIdx) _
    generalize (s.white.listOf (ifidx, v)).foldl (fun s index => (s.whiteListDelByIdx ifidx index).2) s = s' at *
    have hblack : Fades s' ((s'.white.listOf (ifidx, v)).foldl
      (fun s index => (s.blackListDelByIdx ifidx index).2) s') :=
      fades_foldl (fun _ => fades_blackListDelByIdx) _
    have hdevices := (hwhite.trans hblack).devices
    exact (hwhite.trans hblack).trans ⟨rfl, fun given h => h.forget (hdevices ▸ not_not.mp hd) v⟩

theorem blackLinks_iff {patten : BlackPattern} (h : Keeps (0 ≤ ·) BlackPattern.ipVersion s.devices s.black given)
    (hd : ifidx ∈ s.devices) : s.blackLinks patten ifidx = true ↔
      (s.black.alloc idxWidth patten).1 ∉ s.black.listOf (ifidx, patten.ipVersion) := by
  have hsorted := h.consistent.toSound.list_sorted (ifidx, patten.ipVersion)
  rw [RuleLists.blackLinks, decide_eq_true hd, Bool.true_and, Option.isSome_iff_ne_none, ne_eq, place_eq_none hsorted]

/-- A black rule is added: what devices have been given was given before, or is the rule, linked by this call. -/
theorem keeps_blackListAdd {patten : BlackPattern} (ifidx : UInt32) (hfresh : Fresh s.black patten)
    (h : Keeps (0 ≤ ·) BlackPattern.ipVersion s.devices s.black given) :
    (s.blackListAdd patten ifidx).2.devices = s.devices ∧
    ∃ given', Keeps (0 ≤ ·) BlackPattern.ipVersion s.devices (s.blackListAdd patten ifidx).2.black given' ∧
      ∀ d v, ∀ x ∈ given' d v, x ∈ given d v ∨
        s.blackLinks patten ifidx = true ∧ (d, v) = (ifidx, patten.ipVersion) ∧ x.2 = patten := by
  unfold RuleLists.blackListAdd
  split
  · exact ⟨rfl, given, h, fun _ _ _ => Or.inl⟩
  · next hd =>
    have hd := not_not.mp hd
    refine ⟨rfl, _, h.add hd hfresh.room, fun d v x hx => ?_⟩
    rcases hx with hx | ⟨hself, rfl⟩
    · exact Or.inl hx
    · by_cases hlinks : s.blackLinks patten ifidx = true
      · exact Or.inr ⟨hlinks, hself, rfl⟩
      · -- the index was on the list, so the rule is one that the device holds
        rw [blackLinks_iff h hd, not_not, ← add_fst idxWidth s.black (ifidx, patten.ipVersion)] at hlinks
        obtain ⟨rfl, rfl⟩ := Prod.mk.inj hself
        rcases add_spec (u := (d, patten.ipVersion)) h.consistent.toSound hfresh.room with
          ⟨r, hr, hp, hin, heq⟩ | ⟨reg', -, -, -, -, r, -, -, hnot, l, -, -, heq⟩
        · rw [heq]
          exact Or.inl ((h.given _ _ _ _).mpr ⟨hin, r, hr, rfl, hp⟩)
        · rw [heq] at hlinks
          exact absurd hlinks hnot

end Calls

/-! ### Clients that come and go -/

section Clients

variable {p : BlackPattern} {ifidx : UInt32} {v : IpVersion} {t : Tables} {j : ℕ}

/-- A client that passed the check is not hit by the rule. -/
theorem not_hit_of_passed {e : ClientEntry} (hbars : p.bars (RuleLists.knownMac (some e.clientMacAddr)) = false)
    (hzero : e.clientMacAddr ≠ 0 ∨ (p.smacChk = true → macMatch p.smac p.smacMask 0 = false)) :
    p.hit ifidx e = false := by
  unfold BlackPattern.bars at hbars
  obtain ⟨hchk, hmac⟩ := Bool.or_eq_false_iff.mp hbars
  have hno : macMatch p.smac p.smacMask e.clientMacAddr = false := by
    by_cases hm : e.clientMacAddr = 0
    · rw [hm]
      exact hzero.resolve_left (not_not.mpr hm) (by simpa using hchk)
    · have hknown : RuleLists.knownMac (some e.clientMacAddr) = some e.clientMacAddr := if_pos (decide_eq_true hm)
      rwa [hknown] at hmac
  have hhit : p.hit ifidx e = (e.inIfidx == ifidx && p.smacChk && macMatch p.smac p.smacMask e.clientMacAddr) := rfl
  rw [hhit, hno, Bool.and_false]

/-- Where at most one client is hit, none is left. -/
theorem strike_clear {l : List ClientEntry} (hone : (l.filter (p.hit ifidx)).length ≤ 1) :
    ∀ e ∈ p.strike ifidx p.ipVersion l, p.hit ifidx e = false := by
  intro e he
  unfold BlackPattern.strike at he
  split at he
  · next hnone => exact Bool.eq_false_iff.mpr (List.find?_eq_none.mp hnone e he)
  · next c hc =>
    rw [if_pos rfl] at he
    obtain ⟨hel, hkey⟩ := mem_filter.mp he
    by_contra hhit
    have hein : e ∈ l.filter (p.hit ifidx) := mem_filter.mpr ⟨hel, Bool.not_eq_false _ ▸ hhit⟩
    have hcin : c ∈ l.filter (p.hit ifidx) :=
      mem_filter.mpr ⟨mem_of_find?_eq_some hc, List.find?_some hc⟩
    have heq : e = c := by
      rcases hfilter : l.filter (p.hit ifidx) with _ | ⟨a, _ | ⟨b, rest⟩⟩
      · rw [hfilter] at hein
        cases hein
      · rw [hfilter] at hein hcin
        rw [mem_singleton.mp hein, mem_singleton.mp hcin]
      · rw [hfilter] at hone
        simp at hone
    rw [heq] at hkey
    exact absurd hkey (by simp)

/-- Every client was there before, or is the station of the packet, at its port. -/
def Brings (pkt : PktHdr) (v : IpVersion) (t t' : Tables) : Prop :=
  ∀ j w g, ∀ e ∈ clientsAt t' j w g, e ∈ clientsAt t j w g ∨
    (w = v ∧ e.clientMacAddr = pkt.smac ∧ e.inIfidx = pkt.devIfindex)

theorem Arrives.brings {pkt : PktHdr} {g c : Ip} {t' : Tables} (h : Arrives pkt v g c t t') : Brings pkt v t t' := by
  intro j w g' e he
  refine (h j w g' e he).imp_right ?_
  rintro ⟨hspot, hkey, hport⟩
  exact ⟨(spot_inj.mp hspot).2.1, (Prod.mk.inj hkey).2, hport⟩

theorem Brings.trans {pkt : PktHdr} {t' t'' : Tables} (h : Brings pkt v t t') (h' : Brings pkt v t' t'') :
    Brings pkt v t t'' := fun j w g e he => (h' j w g e he).elim (h j w g e) Or.inr

theorem mldProcess_brings {pkt : PktHdr} {c : Ip} (db : Db) (msg : Message) :
    Brings pkt v db.tables (mldProcess db pkt v c msg).tables :=
  mldProcess_holds (P := fun db' => Brings pkt v db.tables db'.tables) msg (fun _ _ _ _ => Or.inl)
    (fun _ _ _ _ _ h hpart => h.trans hpart.arrives.brings) fun _ _ _ h => h.trans arrives_processLeave.brings

end Clients

/-! ### Barred stations -/

/-- No client in a module in use is hit by a rule that its device holds. -/
def Clear (s : Snooper) : Prop :=
  ∀ d v i p, Holds s.lists.black (d, v) i p → ∀ j ∈ validModules s.db.net, ∀ g,
    ∀ e ∈ clientsAt s.db.tables j v g, p.hit d e = false

structure Guarded (s : Snooper) : Prop where
  unique : Unique s.db.tables
  keeps : ∃ given, Keeps (0 ≤ ·) BlackPattern.ipVersion s.lists.devices s.lists.black given
  clear : Clear s

/-- What events have to find: an unknown source MAC is that of no station that is barred, a new rule gets an index
    of its own, and bars at most one client of a group. -/
def Separate (s : Snooper) : SnooperEvent → Prop
  | .report pkt v _ _ => pkt.smac ≠ 0 ∨ ∀ i p, Holds s.lists.black (pkt.devIfindex, v) i p → p.smacChk = true →
      macMatch p.smac p.smacMask 0 = false
  | .call (.blackAdd patten ifidx) => Fresh s.lists.black patten ∧ ∀ j ∈ validModules s.db.net,
      ∀ ge ∈ groupsOf s.db.tables j patten.ipVersion, (ge.clientList.filter (patten.hit ifidx)).length ≤ 1
  | _ => True

section Guarded

variable {s : Snooper} {sysTimerSec : UInt32} {aging : IpVersion → UInt32 × UInt32}

/-- A rule that was there hits nobody where no client has come. -/
theorem Clear.stays {t' : Tables} {d : UInt32} {v : IpVersion} {i j : ℕ} {p : BlackPattern} {g : Ip} {e' : ClientEntry}
    (h : Clear s) (hheld : Holds s.lists.black (d, v) i p) (hj : j ∈ validModules s.db.net)
    (hstays : Stays s.db.tables t') (he' : e' ∈ clientsAt t' j v g) : p.hit d e' = false := by
  obtain ⟨e, he, hkey, hport⟩ := hstays j v g e' he'
  have hclear := h d v i p hheld j hj g e he
  have hmac : e'.clientMacAddr = e.clientMacAddr := (Prod.mk.inj hkey).2
  rwa [BlackPattern.hit, hport, hmac]

/-- Rules go and clients go: nobody is barred who was not. -/
theorem Guarded.fade {s' : Snooper} (h : Guarded s) (hu : Unique s'.db.tables) (hlists : Fades s.lists s'.lists)
    (hstays : Stays s.db.tables s'.db.tables) (hmodules : validModules s'.db.net = validModules s.db.net) :
    Guarded s' := by
  obtain ⟨given, hkeeps⟩ := h.keeps
  obtain ⟨given', hkeeps', hsub⟩ := hlists.given given hkeeps
  refine ⟨hu, ⟨given', hlists.devices ▸ hkeeps'⟩, fun d v i p hp j hj g e' he' => ?_⟩
  have hheld : Holds s.lists.black (d, v) i p :=
    (hkeeps.given d v i p).mp (hsub d v ((hkeeps'.given d v i p).mpr hp))
  exact h.clear.stays hheld (hmodules ▸ hj) hstays he'

theorem guarded_report {pkt : PktHdr} {v : IpVersion} {c : Ip} {msg : Message} (h : Guarded s)
    (hok : Separate s (.report pkt v c msg)) : Guarded (s.mldProcess pkt v c msg) := by
  unfold Snooper.mldProcess
  split
  · exact h
  · next hpass =>
    obtain ⟨given, hkeeps⟩ := h.keeps
    refine ⟨(mldProcess_touches s.db pkt v c msg).unique h.unique, ⟨given, hkeeps⟩, fun d w i p hp j hj g e he => ?_⟩
    have hj' : j ∈ validModules s.db.net := mldProcess_calm.2.validModules ▸ hj
    rcases mldProcess_brings s.db msg j w g e he with hold | ⟨rfl, hmac, hport⟩
    · exact h.clear d w i p hp j hj' g e hold
    · by_cases hd : pkt.devIfindex = d
      · subst hd
        have hbars : p.bars (RuleLists.knownMac (some e.clientMacAddr)) = false := by
          rw [filterblackListCheck_iff hkeeps] at hpass
          rw [hmac]
          exact Bool.eq_false_iff.mpr fun hbars => hpass ⟨i, p, hp, hbars⟩
        exact not_hit_of_passed hbars (hmac ▸ hok.imp_right fun hzero => hzero i p hp)
      · have hne : (e.inIfidx == d) = false := beq_false_of_ne (hport ▸ hd)
        rw [BlackPattern.hit, hne, Bool.false_and, Bool.false_and]

/-- Events that bring no client, to lists that stay as they are. -/
theorem guarded_event {e : Event} (h : Guarded s) (htraffic : e.Traffic)
    (hreport : ∀ pkt v c msg, e ≠ .report pkt v c msg) :
    Guarded { s with db := step sysTimerSec s.db e } := by
  rcases step_walked e h.unique with ⟨pkt, v, c, msg, he⟩ | ⟨G, is, hG, -, hwalked⟩
  · exact absurd he (hreport pkt v c msg)
  · exact h.fade (step_unique e h.unique) (.of_eq rfl rfl) (hwalked.stays hG) (step_steady htraffic).validModules

theorem validModules_install (lists : RuleLists) (net : Net) :
    validModules (lists.install net) = validModules net := rfl

/-- A new rule strikes the one client of each group that it hits. -/
theorem guarded_blackAdd {patten : BlackPattern} {ifidx : UInt32} (h : Guarded s)
    (hok : Separate s (.call (.blackAdd patten ifidx))) : Guarded (s.call aging (.blackAdd patten ifidx)) := by
  obtain ⟨hfresh, hone⟩ := hok
  obtain ⟨given, hkeeps⟩ := h.keeps
  obtain ⟨hdevices, given', hkeeps', hgiven⟩ := keeps_blackListAdd ifidx hfresh hkeeps
  have hwalked : Walked (thinned (patten.strike ifidx)) (validModules s.db.net) s.db.tables
      (blackListUpdateFlow patten ifidx s.db).tables := blackListUpdateFlow_walked s.db h.unique
  have hcall : s.call aging (.blackAdd patten ifidx) =
      ⟨if s.lists.blackLinks patten ifidx then blackListUpdateFlow patten ifidx s.db else s.db,
        (s.lists.blackListAdd patten ifidx).2⟩ := rfl
  rw [hcall]
  by_cases hlinks : s.lists.blackLinks patten ifidx = true
  · rw [if_pos hlinks]
    have hmodules : validModules (blackListUpdateFlow patten ifidx s.db).net = validModules s.db.net :=
      (blackListUpdateFlow_calm patten ifidx s.db).2.validModules
    refine ⟨hwalked.unique (keepsUnique_thinned strike_sublist) h.unique, ⟨given', hdevices ▸ hkeeps'⟩,
      fun d v i p hp j hj g e he => ?_⟩
    rw [hmodules] at hj
    rcases hgiven d v (i, p) ((hkeeps'.given d v i p).mpr hp) with hold | ⟨-, hself, hpatten⟩
    · exact h.clear.stays ((hkeeps.given d v i p).mp hold) hj (hwalked.stays (thinning_thinned strike_sublist)) he
    · obtain ⟨rfl, rfl⟩ := Prod.mk.inj hself
      have hpatten : p = patten := hpatten
      subst hpatten
      dsimp only at he
      rw [clientsAt_thinned hwalked strike_sublist hj] at he
      refine strike_clear ?_ e he
      cases hsearch : searchGroupEntry s.db.tables j p.ipVersion g with
      | none => simp [clientsAt, hsearch]
      | some ge =>
        rw [clientsAt_of_search hsearch]
        exact hone j hj ge (mem_groupsOf.mpr ⟨g, hsearch⟩)
  · rw [if_neg hlinks]
    refine ⟨h.unique, ⟨given', hdevices ▸ hkeeps'⟩, fun d v i p hp => h.clear d v i p ?_⟩
    rcases hgiven d v (i, p) ((hkeeps'.given d v i p).mpr hp) with hold | ⟨hnew, -⟩
    · exact (hkeeps.given d v i p).mp hold
    · exact absurd hnew hlinks

theorem stays_same {t : Tables} : Stays t t := fun _ _ _ e he => ⟨e, he, rfl, rfl⟩

theorem guarded_call (call : RuleCall) (h : Guarded s) (hok : Separate s (.call call)) :
    Guarded (s.call aging call) := by
  cases call with
  | whiteAdd patten ifidx => exact h.fade h.unique (fades_whiteListAdd patten) stays_same rfl
  | whiteDel patten ifidx index => exact h.fade h.unique (fades_whiteListDel patten index) stays_same rfl
  | blackAdd patten ifidx => exact guarded_blackAdd h hok
  | blackDel patten ifidx index => exact h.fade h.unique (fades_blackListDel patten index) stays_same rfl
  | reset ifidx v =>
    refine h.fade h.unique (fades_resetDevConfig v) stays_same ?_
    rw [Snooper.call, validModules_install, Net.modifyDev]
    split <;> rfl

theorem guarded_step (s : Snooper) (e : SnooperEvent) (h : Guarded s) (hok : Separate s e) :
    Guarded (s.step sysTimerSec aging e) := by
  cases e with
  | report pkt v c msg => exact guarded_report h hok
  | tick time idle => exact guarded_event h trivial nofun
  | data i first d => exact guarded_event h trivial nofun
  | elapse jiffies => exact guarded_event h trivial nofun
  | call call => exact guarded_call call h hok

end Guarded

/-- From an empty database on, in every run of reports with an Ethernet header, leaves, ticks and calls on the lists in
    which a new rule finds at most one client that it bars in each group, and in which rules have nothing to say
    about stations that do not tell their address, no group of a module in use has a client that the black list
    of its device bars. -/
theorem barred_hold_nothing (sysTimerSec : UInt32) (aging : IpVersion → UInt32 × UInt32) (net : Net) (G C S F : ℕ)
    (es : List SnooperEvent)
    (hlegal : Legal (Snooper.step sysTimerSec aging) Separate (Snooper.init net G C S F) es) :
    let s := run (Snooper.step sysTimerSec aging) (Snooper.init net G C S F) es
    ∀ d v, ∀ i ∈ s.lists.black.listOf (d, v), ∀ r ∈ s.lists.black.rules, r.idx = i → r.pattern.smacChk = true →
      ∀ j ∈ validModules s.db.net, ∀ ge ∈ groupsOf s.db.tables j v, ∀ e ∈ ge.clientList, e.inIfidx = d →
        macMatch r.pattern.smac r.pattern.smacMask e.clientMacAddr = false := by
  intro s d v i hi r hr hidx hchk j hj ge hge e he hport
  have hinit : Guarded (Snooper.init net G C S F) :=
    ⟨unique_init _ G C S F, ⟨fun _ _ => ∅, .init⟩, fun _ _ _ _ _ _ _ _ _ he => nomatch he⟩
  have hguarded : Guarded s := run_invariant guarded_step es _ hinit hlegal
  obtain ⟨g, hsearch⟩ := mem_groupsOf.mp hge
  have hclear := hguarded.clear d v i r.pattern ⟨hi, r, hr, hidx, rfl⟩ j hj g e (clientsAt_of_search hsearch ▸ he)
  rw [BlackPattern.hit, hport, hchk, beq_self_eq_true] at hclear
  exact hclear

/-- Stations 1 and 2 join a group. -/
def twoStations : List SnooperEvent :=
  let g := (sampleRec []).groupAddr
  [.report samplePkt .v4 (host 9) (.join false g), .report { samplePkt with smac := 2 } .v4 (host 8) (.join false g)]

/-- Station 1 is barred, and cannot come back. -/
theorem barred_hold_nothing_station :
    let g := (sampleRec []).groupAddr
    let s := run (Snooper.step 10 fun _ => (260, 10)) (Snooper.init (sampleNet false) 4 4 8 4)
      (twoStations ++ [.call (.blackAdd (stationRule 1) 5), .report samplePkt .v4 (host 9) (.join false g)])
    s.lists.black.listOf (5, .v4) = [0] ∧ s.lists.black.rules = [⟨0, stationRule 1, 1⟩] ∧
      (∃ ge ∈ groupsOf s.db.tables 0 .v4, ge.clientList.map ClientEntry.clientMacAddr = [2]) ∧
      ∀ ge ∈ groupsOf s.db.tables 0 .v4, ∀ e ∈ ge.clientList, e.inIfidx = 5 →
        macMatch 1 0xffffffffffff e.clientMacAddr = false := by
  intro g s
  have hlist : s.lists.black.listOf (5, .v4) = [0] := by decide +kernel
  have hrules : s.lists.black.rules = [⟨0, stationRule 1, 1⟩] := by decide +kernel
  have hvalid : 0 ∈ validModules s.db.net := by decide +kernel
  have hlegal : Legal (Snooper.step 10 fun _ => (260, 10)) Separate (Snooper.init (sampleNet false) 4 4 8 4)
      (twoStations ++ [.call (.blackAdd (stationRule 1) 5), .report samplePkt .v4 (host 9) (.join false g)]) :=
    legal_append.mpr ⟨And.intro (Or.inl (by decide)) (And.intro (Or.inl (by decide)) trivial),
      ⟨Or.inr (by decide +kernel), by decide +kernel⟩, Or.inl (by decide), trivial⟩
  have hclear := barred_hold_nothing 10 (fun _ => (260, 10)) (sampleNet false) 4 4 8 4 _ hlegal 5 .v4 0
    (hlist ▸ mem_singleton_self 0) ⟨0, stationRule 1, 1⟩ (hrules ▸ mem_singleton_self _) rfl rfl 0 hvalid
  exact ⟨hlist, hrules, by decide +kernel, hclear⟩

/-- A rule that bars both stations of a group leaves one of them in it. -/
theorem second_station_stays :
    let rule : BlackPattern := ⟨.v4, true, 0, 0xfffffffffff0⟩
    let s := run (Snooper.step 10 fun _ => (260, 10)) (Snooper.init (sampleNet false) 4 4 8 4)
      (twoStations ++ [.call (.blackAdd rule 5)])
    s.lists.black.listOf (5, .v4) = [0] ∧ s.lists.black.rules = [⟨0, rule, 1⟩] ∧ 0 ∈ validModules s.db.net ∧
      ∃ ge ∈ groupsOf s.db.tables 0 .v4, ∃ e ∈ ge.clientList, e.inIfidx = 5 ∧
        macMatch rule.smac rule.smacMask e.clientMacAddr = true := by
  decide +kernel

end PhoebusBsp.Igmp

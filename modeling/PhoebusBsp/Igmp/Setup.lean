import PhoebusBsp.Igmp.Admin

/-! The configuration without its counters. Reports, packets and sweeps change statistics and the
    counters of rate limits and nothing else (`Steady`), and no decision on forwarding looks at those. -/

namespace PhoebusBsp.Igmp
open Schemes

/-! ### Counters at zero -/

def DevConf.setup (c : DevConf) : DevConf := { c with ratelimitUnkMc := ⟨c.ratelimitUnkMc.rate, 0, 0⟩ }

def DevInfo.setup (d : DevInfo) : DevInfo :=
  { d with devConf := fun v => (d.devConf v).setup, devStatistic := fun _ => ⟨0, 0⟩ }

def BrInfo.setup (b : BrInfo) : BrInfo := { b with brStatistic := fun _ => ⟨0, 0⟩ }

def Net.setup (net : Net) : Net :=
  { net with
    lanDevInfo := net.lanDevInfo.map DevInfo.setup
    wanDevInfo := net.wanDevInfo.map DevInfo.setup
    brInfo := fun i => (net.brInfo i).setup }

/-- Only counters have changed. -/
def Steady (net net' : Net) : Prop := net'.setup = net.setup

section Steady

variable {net net' net'' : Net}

theorem Steady.same : Steady net net := Eq.refl _

theorem Steady.trans (h : Steady net net') (h' : Steady net' net'') : Steady net net'' := Eq.trans h' h

/-- A change to the counters of an entry. -/
theorem map_setup_update {l : List DevInfo} {p : UInt32} {f : DevInfo → DevInfo}
    (hf : ∀ d, Chain.search DevInfo.ifindex p l = some d → (f d).setup = d.setup) :
    (Chain.update DevInfo.ifindex p f l).map DevInfo.setup = l.map DevInfo.setup := by
  induction l with
  | nil => rfl
  | cons d l ih =>
    rw [Chain.search_cons] at hf
    rw [Chain.update]
    split
    · next hd =>
      rw [if_pos hd] at hf
      rw [List.map_cons, List.map_cons, hf d rfl]
    · next hd =>
      rw [if_neg hd] at hf
      rw [List.map_cons, List.map_cons, ih hf]

theorem steady_modifyDev {p : UInt32} {f : DevInfo → DevInfo}
    (hf : ∀ d, devInfoOf net p = some d → (f d).setup = d.setup) : Steady net (net.modifyDev p f) := by
  have happend : devInfoOf net p = (Chain.search DevInfo.ifindex p net.lanDevInfo).or
      (Chain.search DevInfo.ifindex p net.wanDevInfo) := List.find?_append
  rw [happend] at hf
  unfold Steady Net.modifyDev Net.setup
  split
  · rw [map_setup_update fun d hd => hf d (by rw [hd, Option.some_or])]
  · next hlan =>
    rw [Bool.not_eq_true, Option.isSome_eq_false_iff, Option.isNone_iff_eq_none] at hlan
    rw [map_setup_update fun d hd => hf d (by rw [hlan, hd, Option.none_or])]

theorem steady_modifyBr {i : ℕ} {f : BrInfo → BrInfo} (hf : ∀ b, (f b).setup = b.setup) :
    Steady net (net.modifyBr i f) := by
  have hbr : (fun j => ((net.modifyBr i f).brInfo j).setup) = fun j => (net.brInfo j).setup := by
    funext j
    unfold Net.modifyBr
    simp only
    split
    · exact hf _
    · rfl
  unfold Steady Net.setup
  rw [hbr]
  rfl

theorem weightOverCheck_steady {t : Tables} {dev : DevInfo} {i : ℕ} {v : IpVersion} {g : Ip} :
    Steady net (weightOverCheck net t dev i v g).2 := by
  unfold weightOverCheck
  have hdev : ∀ p : Prop, [Decidable p] → Steady net (if p then
      net.modifyDev dev.ifindex fun d => { d with devStatistic := bump v .exceeded d.devStatistic }
      else net) := by
    intro p _
    split
    · exact steady_modifyDev fun _ _ => rfl
    · exact .same
  simp only
  split
  · exact (hdev _).trans (steady_modifyBr fun _ => rfl)
  · exact hdev _

theorem groupLimit_steady {t : Tables} {dev : DevInfo} {i : ℕ} {v : IpVersion} {g : Ip}
    {ifidx : UInt32} : Steady net (groupLimit net t dev i v g ifidx).2 := by
  unfold groupLimit
  simp only
  split
  · split_ifs
    · exact .same
    · exact .same
    · exact .same
    · exact weightOverCheck_steady
  · exact .same

theorem groupLimitCheck_steady (net : Net) (t : Tables) (dev : DevInfo) (i : ℕ) (v : IpVersion) (g c : Ip)
    (ifidx : UInt32) (act : Nf) : Steady net (groupLimitCheck net t dev i v g c ifidx act).2 := by
  unfold groupLimitCheck
  have hcount : Steady net ((net.modifyDev dev.ifindex fun d =>
      { d with devStatistic := bump v .joined d.devStatistic }).modifyBr i fun b =>
        { b with brStatistic := bump v .joined b.brStatistic }) := by
    refine Steady.trans (steady_modifyDev fun _ _ => ?_) (steady_modifyBr fun _ => ?_) <;> rfl
  simp only
  split <;> exact hcount.trans groupLimit_steady

/-! ### Packets -/

theorem checkRateLimitUmc_rate {jiffies cycle : UInt32} {r : RateLimit} :
    (checkRateLimitUmc jiffies cycle r).2.rate = r.rate := by
  unfold checkRateLimitUmc
  generalize (if jiffies < r.cycleStartTime then _ else _ : UInt32) = diff
  simp only
  split_ifs <;> rfl

theorem DevInfo.setup_count {dev : DevInfo} {v : IpVersion} {r : RateLimit}
    (hr : r.rate = (dev.devConf v).ratelimitUnkMc.rate) :
    DevInfo.setup { dev with
      devConf := fun w => if w = v then { dev.devConf w with ratelimitUnkMc := r }
        else dev.devConf w } = dev.setup := by
  have hconf : ∀ w, (if w = v then { dev.devConf w with ratelimitUnkMc := r }
      else dev.devConf w).setup = (dev.devConf w).setup := by
    intro w
    split
    · next hw =>
      rw [DevConf.setup, DevConf.setup, hr, hw]
    · rfl
  rw [DevInfo.setup, DevInfo.setup]
  simp only [hconf]

theorem unknownFloodLoop_steady (net : Net) (jiffies : UInt32) (v : IpVersion) (ports : List UInt32)
    (d : DataInfo) (l : List UInt32) : Steady net (unknownFloodLoop jiffies v ports net d l).2.1 := by
  induction ports generalizing net d l with
  | nil => exact .same
  | cons port ports ih =>
    unfold unknownFloodLoop
    split
    · exact ih ..
    · next dev hdev =>
      simp only
      split
      · exact ih ..
      · split
        · -- the counter of the port moves on
          have hport : Steady net (net.modifyDev port fun dev' => { dev' with
              devConf := fun w => if w = v then { dev'.devConf w with ratelimitUnkMc :=
                (checkRateLimitUmc jiffies net.rateLimitCycle (dev.devConf v).ratelimitUnkMc).2 }
                else dev'.devConf w }) := by
            refine steady_modifyDev fun dev' hdev' => ?_
            obtain rfl := Option.some.inj (hdev.symm.trans hdev')
            exact DevInfo.setup_count checkRateLimitUmc_rate
          split
          · exact hport.trans (ih ..)
          · exact hport
        · exact ih ..

section Answers

variable {clock : Clock} {t : Tables} {fl : Flows} {i : ℕ} {d : DataInfo} {first : Bool}

theorem computeFwdInfo_steady {fwd : FwdInfo} :
    Steady net (computeFwdInfo clock t net fl i d fwd).net := by
  unfold computeFwdInfo
  simp only
  split
  · exact .same
  · split
    · have hloop := unknownFloodLoop_steady net clock.jiffies d.ipVersion (net.brInfo i).ports d
        (trapWlan net d.ipVersion d.groupAddr
          ((net.brInfo i).ports.foldl (floodPort net d.ipVersion) fwd.egressDevInfo))
      split <;>
      · next heq =>
        rw [heq] at hloop
        exact hloop
    · exact .same

theorem getFwdInfo_steady : Steady net (getFwdInfo clock t net fl i first d).net := by
  unfold getFwdInfo
  split
  · exact .same
  · simp only
    split
    · split
      · split
        · exact computeFwdInfo_steady
        · exact .same
      · exact computeFwdInfo_steady
    · exact computeFwdInfo_steady

theorem combineLoop_steady (is : List ℕ) (ans : Answer) :
    Steady ans.net (combineLoop clock t first is ans).net := by
  induction is generalizing ans with
  | nil => exact .same
  | cons i is ih =>
    unfold combineLoop
    simp only
    split
    · exact getFwdInfo_steady.trans (ih _)
    · exact getFwdInfo_steady

/-- The answer of the bridges that are asked, before the drop is decided. -/
def gather (clock : Clock) (t : Tables) (net : Net) (fl : Flows) (i : ℕ) (first : Bool) (d : DataInfo) :
    Answer :=
  if (net.brInfo i).combineId = 0 then getFwdInfo clock t net fl i first d
  else combineLoop clock t first (combined net i) ⟨false, .clear, d, net, fl⟩

/-- The drop changes a flag only. -/
theorem getMulticastDataFwdInfo_gather :
    (getMulticastDataFwdInfo clock t net fl i first d).net = (gather clock t net fl i first d).net ∧
    (getMulticastDataFwdInfo clock t net fl i first d).flows =
      (gather clock t net fl i first d).flows ∧
    (getMulticastDataFwdInfo clock t net fl i first d).fwd.egressDevInfo =
      (gather clock t net fl i first d).fwd.egressDevInfo := by
  have heq : getMulticastDataFwdInfo clock t net fl i first d =
      if (gather clock t net fl i first d).fwd.egressDevInfo = [] then
        { gather clock t net fl i first d with
          fwd := { (gather clock t net fl i first d).fwd with dropPkt := true } }
      else gather clock t net fl i first d := rfl
  rw [heq]
  split <;> exact ⟨rfl, rfl, rfl⟩

theorem getMulticastDataFwdInfo_steady :
    Steady net (getMulticastDataFwdInfo clock t net fl i first d).net := by
  rw [getMulticastDataFwdInfo_gather.1]
  unfold gather
  split
  · exact getFwdInfo_steady
  · exact combineLoop_steady (combined net i) ⟨false, .clear, d, net, fl⟩

theorem reflushWalk_steady {sel : FlowKey → Prop} [DecidablePred sel] {h : ℕ} (s : Net × Flows) :
    Steady s.1 (reflushWalk clock t sel i h s).1 := by
  unfold reflushWalk
  refine List.foldlRecOn (motive := fun s' : Net × Flows => Steady s.1 s'.1) _ _ .same fun s' hs' e _ => ?_
  split
  · exact hs'
  · split
    · exact hs'.trans getMulticastDataFwdInfo_steady
    · exact hs'

theorem reflushModules_steady {sel : FlowKey → Prop} [DecidablePred sel] {is : List ℕ}
    (s : Net × Flows) : Steady s.1 (reflushModules clock t sel is s).1 := by
  unfold reflushModules
  refine List.foldlRecOn (motive := fun s' : Net × Flows => Steady s.1 s'.1) _ _ .same fun s' hs' i _ => ?_
  refine List.foldlRecOn (motive := fun s' : Net × Flows => Steady s.1 s'.1) _ _ hs' fun s' hs' h _ => ?_
  exact hs'.trans (reflushWalk_steady s')

theorem flowReflushUpdate_steady {g : Ip} : Steady net (flowReflushUpdate clock t net fl g).1 :=
  reflushModules_steady (net, fl)

end Answers

/-! ### What does not look at counters -/

theorem Steady.symm (h : Steady net net') : Steady net' net := Eq.symm h

/-- What is the same without the counters stays. -/
theorem Steady.reads {β : Type} (f : Net → β) (h : Steady net net')
    (hf : ∀ net : Net, f net.setup = f net) : f net' = f net := by
  rw [← hf, h, hf]

theorem devInfoOf_setup (net : Net) (p : UInt32) :
    devInfoOf net.setup p = (devInfoOf net p).map DevInfo.setup := by
  have hmap : Chain.search DevInfo.ifindex p ((net.lanDevInfo ++ net.wanDevInfo).map DevInfo.setup) =
      (devInfoOf net p).map DevInfo.setup := Chain.search_map fun _ => rfl
  rw [List.map_append] at hmap
  exact hmap

section Reads

variable (h : Steady net net')
include h

theorem Steady.validModules : validModules net' = validModules net := h.reads _ fun _ => rfl

/-- The device that is found has the same settings. -/
theorem Steady.devInfoOf {p : UInt32} {dev : DevInfo} (hdev : devInfoOf net p = some dev) :
    ∃ dev', Igmp.devInfoOf net' p = some dev' ∧ dev'.setup = dev.setup := by
  have hmap : (Igmp.devInfoOf net' p).map DevInfo.setup = some dev.setup := by
    rw [← devInfoOf_setup, h, devInfoOf_setup, hdev, Option.map_some]
  exact Option.map_eq_some_iff.mp hmap

end Reads

end Steady

end PhoebusBsp.Igmp

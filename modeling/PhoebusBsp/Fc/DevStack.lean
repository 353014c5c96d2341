import Mathlib.Data.List.ReduceOption
import PhoebusBsp.Schemes.Slots

/-! The devices that a packet passes, as `devStackto_skb_fcIngressData` stacks them.

                     ingress                     egress
        upstream     the first device            the devices in order, without repeats
        downstream   the devices in order        the last device

    A bridge holds the first place only until a device that is none takes it. -/

namespace PhoebusBsp.Fc

open Schemes List

/-- The devices as the driver knows them, with `DEV_STACK_MAX` places for a packet; a device that is not
    registered has the index `DEVIFIDX_INVALID_MIN`. -/
structure DevTable (δ : Type) where
  devStackMax : ℕ
  stackMaxPos : 0 < devStackMax
  devGwMacIdx : δ → UInt8
  privFlags : δ → UInt32
  devGwPrivFlag : UInt8 → UInt32
  invalidMin : UInt8
  iffEbridge : UInt32
  injective : ∀ {d d'}, devGwMacIdx d ≠ invalidMin → devGwMacIdx d' = devGwMacIdx d → d' = d
  agrees : ∀ d, devGwMacIdx d ≠ invalidMin → devGwPrivFlag (devGwMacIdx d) = privFlags d

/-- What is kept of a packet: its direction and the devices that it came in and goes out by. -/
structure FcIngressData where
  isDownStream : Bool
  igrDevStacking : List UInt8
  egrDevStacking : List UInt8

/-- The stack of a direction. -/
def FcIngressData.devStacking (x : FcIngressData) (isPostRouting : Bool) : List UInt8 :=
  if isPostRouting then x.egrDevStacking else x.igrDevStacking

def FcIngressData.setDevStacking (x : FcIngressData) (isPostRouting : Bool) (st : List UInt8) : FcIngressData :=
  if isPostRouting then { x with egrDevStacking := st } else { x with igrDevStacking := st }

namespace DevTable

variable {δ : Type} (D : DevTable δ)

/-- `IFF_EBRIDGE` is set. -/
def isBridge (flags : UInt32) : Bool := flags &&& D.iffEbridge != 0

/-- The loop over the places returns at a device that is to stay, and else finds the first invalid place. -/
def normalStacking (keepOldest : Bool) (fcDevIdx : UInt8) (st : List UInt8) : Bool × List UInt8 :=
  if st.any fun b => b != D.invalidMin && (b == fcDevIdx || keepOldest) then (true, st)
  else match st.findIdx? (· == D.invalidMin) with
    | none => (false, st)
    | some firstInvalid => (true, st.set firstInvalid fcDevIdx)

/-- The result and the stack; `false` is `FAILED`. -/
def stackDev (isDownStream isPostRouting : Bool) (dev : δ) (st : List UInt8) : Bool × List UInt8 :=
  let fcDevIdx := D.devGwMacIdx dev
  let first := st.headD D.invalidMin
  if fcDevIdx = D.invalidMin then (false, st)
  else if D.isBridge (D.privFlags dev) then
    if first = D.invalidMin then (true, st.set 0 fcDevIdx) else (false, st)
  else if first ≠ D.invalidMin ∧ D.isBridge (D.devGwPrivFlag first) then (true, st.set 0 fcDevIdx)
  else if isDownStream && isPostRouting then (true, st.set 0 fcDevIdx)
  else D.normalStacking (!isDownStream && !isPostRouting) fcDevIdx st

/-- `devStackto_skb_fcIngressData`. -/
def devStackto (x : FcIngressData) (dev : δ) (isPostRouting : Bool) : Bool × FcIngressData :=
  (D.stackDev x.isDownStream isPostRouting dev (x.devStacking isPostRouting)).map id (x.setDevStacking isPostRouting)

/-- Device after device. -/
def stackAll (x : FcIngressData) (devs : List δ) (isPostRouting : Bool) : FcIngressData :=
  devs.foldl (fun x dev => (D.devStackto x dev isPostRouting).2) x

/-- The devices that there are, in turn. -/
def decisionInterface (isPostRouting : Bool) (x : FcIngressData) (dev0 dev1 dev2 : Option δ) : FcIngressData :=
  D.stackAll x [dev0, dev1, dev2].reduceOption isPostRouting

/-- `rtk_fc_decision_ingress_interface`. -/
def decisionIngressInterface := D.decisionInterface false

/-- `rtk_fc_decision_egress_interface`. -/
def decisionEgressInterface := D.decisionInterface true

/-! ### The stack that a packet ends with -/

/-- The device has an index. -/
abbrev Registered (d : δ) : Prop := D.devGwMacIdx d ≠ D.invalidMin

def bridge (d : δ) : Bool := D.isBridge (D.privFlags d)

/-- What is to be recorded of devices that are no bridges. -/
def kept [DecidableEq δ] (isDownStream isPostRouting : Bool) (devs : List δ) : List δ :=
  match isDownStream, isPostRouting with
  | false, false => devs.take 1
  | true, true => devs.getLast?.toList
  | _, _ => devs.eraseDups.take D.devStackMax

/-- The devices that are to be recorded. -/
def path [DecidableEq δ] (isDownStream isPostRouting : Bool) (devs : List δ) : List δ :=
  let others := devs.filter (!D.bridge ·)
  if others = [] then devs.take 1 else D.kept isDownStream isPostRouting others

/-- The other places are invalid. -/
def padded (devs : List δ) : List UInt8 :=
  devs.map D.devGwMacIdx ++ List.replicate (D.devStackMax - devs.length) D.invalidMin

section Path

variable [DecidableEq δ] {D} {down post : Bool} {d : δ} {ds l : List δ}

theorem kept_first (D : DevTable δ) (down post : Bool) (f : δ) (fs : List δ) :
    ∃ a ∈ f :: fs, ∃ as, D.kept down post (f :: fs) = a :: as := by
  obtain ⟨n, hn⟩ := Nat.exists_add_one_eq.mpr D.stackMaxPos
  cases down <;> cases post <;> simp only [kept, eraseDups_cons, ← hn]
  case true.true => exact ⟨_, getLast_mem (cons_ne_nil f fs), [], by rw [List.getLast?_eq_some_getLast]; rfl⟩
  all_goals exact ⟨f, mem_cons_self, _, rfl⟩

/-- The stack grows by a device that is new, as long as there is room. -/
theorem normalStacking_put (hl : ∀ e ∈ l, D.Registered e) (hd : D.Registered d) :
    (D.normalStacking false (D.devGwMacIdx d) (D.padded l)).2 = D.padded (Slots.put D.devStackMax l d) := by
  have hsame : ∀ e, D.devGwMacIdx e = D.devGwMacIdx d ↔ e = d := fun e => ⟨D.injective hd, congrArg D.devGwMacIdx⟩
  have hany : ((D.padded l).any fun b => b != D.invalidMin && (b == D.devGwMacIdx d || false)) = true ↔ d ∈ l := by
    simp [padded, hsame, hd]
  have hfree : (D.padded l).findIdx? (· == D.invalidMin) =
      if l.length < D.devStackMax then some l.length else none := by
    have hnone : (l.map D.devGwMacIdx).findIdx? (· == D.invalidMin) = none := by
      simpa [List.findIdx?_eq_none_iff] using hl
    simp only [padded, List.findIdx?_append, hnone, length_map, List.findIdx?_replicate, Nat.sub_pos_iff_lt,
      BEq.rfl, and_true, Option.map_if, Nat.zero_add, Option.none_or]
  simp only [normalStacking, hany, hfree, Slots.put]
  split_ifs with hold hroom
  · rfl
  · obtain ⟨n, hn⟩ := Nat.exists_add_one_eq.mpr (Nat.sub_pos_of_lt hroom)
    simp [padded, Nat.sub_add_eq, ← hn, replicate_succ]
  · rfl

theorem stackDev_kept {f : δ} {fs : List δ} (hfs : ∀ e ∈ f :: fs, D.Registered e ∧ D.bridge e = false)
    (hd : D.Registered d) (hno : D.bridge d = false) :
    (D.stackDev down post d (D.padded (D.kept down post (f :: fs)))).2 =
      D.padded (D.kept down post (f :: fs ++ [d])) := by
  obtain ⟨a, ha, as, hkept⟩ := D.kept_first down post f fs
  have hfirst : (D.padded (D.kept down post (f :: fs))).headD D.invalidMin = D.devGwMacIdx a := by
    rw [hkept]
    rfl
  have hbridge : D.isBridge (D.devGwPrivFlag (D.devGwMacIdx a)) = false := by
    rw [D.agrees a (hfs a ha).1]
    exact (hfs a ha).2
  have horder : (D.normalStacking false (D.devGwMacIdx d) (D.padded ((f :: fs).eraseDups.take D.devStackMax))).2 =
      D.padded ((f :: fs ++ [d]).eraseDups.take D.devStackMax) := by
    rw [normalStacking_put (fun e he => (hfs e (mem_eraseDups.mp (mem_of_mem_take he))).1) hd,
      Slots.take_eraseDups_concat]
  rw [bridge] at hno
  simp only [stackDev, if_neg hd, hno, hfirst, hbridge, Bool.false_eq_true, and_false, if_false]
  cases down <;> cases post
  · simp [kept, padded, normalStacking, (hfs f mem_cons_self).1]
  · exact horder
  · exact horder
  · simp [kept, padded, List.getLast?_eq_some_getLast]

theorem stackDev_path (down post : Bool) (hds : ∀ e ∈ ds, D.Registered e) (hd : D.Registered d) :
    (D.stackDev down post d (D.padded (D.path down post ds))).2 = D.padded (D.path down post (ds ++ [d])) := by
  simp only [path, filter_append, filter_singleton]
  cases hf : ds.filter (!D.bridge ·) with
  | nil =>
    -- bridges only so far
    have hbridges : ∀ e ∈ ds, D.isBridge (D.privFlags e) = true := by simpa [bridge] using hf
    obtain ⟨n, hn⟩ := Nat.exists_add_one_eq.mpr D.stackMaxPos
    have hone : D.kept down post [d] = [d] := by
      cases down <;> cases post <;> simp [kept, ← hn, eraseDups_cons]
    cases ds with
    | nil =>
      cases hbridge : D.isBridge (D.privFlags d) <;> cases down <;> cases post <;>
        simp [stackDev, normalStacking, bridge, padded, ← hn, replicate_succ, List.findIdx?_cons, hd,
          hbridge, hone]
    | cons e es =>
      obtain ⟨he, -⟩ := forall_mem_cons.mp hds
      obtain ⟨hfirst, -⟩ := forall_mem_cons.mp hbridges
      cases hbridge : D.isBridge (D.privFlags d) <;>
        simp [stackDev, bridge, padded, hd, he, D.agrees e he, hfirst, hbridge, hone]
  | cons f fs =>
    have hfs : ∀ e ∈ f :: fs, D.Registered e ∧ D.bridge e = false := by
      intro e he
      rw [← hf, mem_filter] at he
      exact ⟨hds e he.1, by simpa using he.2⟩
    cases hbridge : D.bridge d with
    | true =>
      obtain ⟨a, ha, as, hkept⟩ := D.kept_first down post f fs
      rw [bridge] at hbridge
      simp [stackDev, padded, hd, hbridge, hkept, (hfs a ha).1]
    | false => simpa using stackDev_kept hfs hd hbridge

theorem stackAll_path {x : FcIngressData} (isPostRouting : Bool)
    (hinit : x.devStacking isPostRouting = D.padded []) {devs : List δ} (hdevs : ∀ d ∈ devs, D.Registered d) :
    (D.stackAll x devs isPostRouting).devStacking isPostRouting = D.padded (D.path x.isDownStream isPostRouting devs) ∧
      (D.stackAll x devs isPostRouting).devStacking (!isPostRouting) = x.devStacking (!isPostRouting) ∧
      (D.stackAll x devs isPostRouting).isDownStream = x.isDownStream := by
  -- from the end, since the path is that of the devices so far
  induction devs using List.reverseRecOn with
  | nil => exact ⟨by simpa [stackAll, path] using hinit, rfl, rfl⟩
  | append_singleton ds d ih =>
    simp only [forall_mem_append, forall_mem_singleton] at hdevs
    obtain ⟨hstack, hother, hdown⟩ := ih hdevs.1
    have hstep := stackDev_path x.isDownStream isPostRouting hdevs.1 hdevs.2
    rw [stackAll, foldl_concat, ← stackAll, devStackto, hdown, hstack]
    generalize D.stackAll x ds isPostRouting = x' at hother hdown
    rw [← hstep, ← hother, ← hdown]
    cases isPostRouting <;> exact ⟨rfl, rfl, rfl⟩

/-- The two decisions about a packet leave the paths of the devices that they are given. -/
theorem decisions_path {x : FcIngressData} (higr : x.igrDevStacking = D.padded [])
    (hegr : x.egrDevStacking = D.padded [])
    (i0 i1 i2 e0 e1 e2 : Option δ) (hi : ∀ d ∈ [i0, i1, i2].reduceOption, D.Registered d)
    (he : ∀ d ∈ [e0, e1, e2].reduceOption, D.Registered d) :
    let y := D.decisionEgressInterface (D.decisionIngressInterface x i0 i1 i2) e0 e1 e2
    y.igrDevStacking = D.padded (D.path x.isDownStream false [i0, i1, i2].reduceOption) ∧
      y.egrDevStacking = D.padded (D.path x.isDownStream true [e0, e1, e2].reduceOption) := by
  obtain ⟨hpath, hother, hdown⟩ := stackAll_path false higr hi
  obtain ⟨hpath', hother', -⟩ := stackAll_path true (hother.trans hegr) he
  exact ⟨hother'.trans hpath, hpath'.trans (by rw [hdown])⟩

end Path

/-- Registered devices, one after the other, from an empty stack: it ends with the path, and the stack of the other
    direction stays. -/
theorem dev_stacking_path [DecidableEq δ] (x : FcIngressData) (isPostRouting : Bool)
    (hinit : x.devStacking isPostRouting = D.padded []) (devs : List δ) (hdevs : ∀ d ∈ devs, D.Registered d) :
    (D.stackAll x devs isPostRouting).devStacking isPostRouting = D.padded (D.path x.isDownStream isPostRouting devs) ∧
      (D.stackAll x devs isPostRouting).devStacking (!isPostRouting) = x.devStacking (!isPostRouting) ∧
      (D.stackAll x devs isPostRouting).isDownStream = x.isDownStream :=
  stackAll_path isPostRouting hinit hdevs

/-- Devices that are their indices, the first of them a bridge. -/
def sample (n : ℕ) : DevTable UInt8 where
  devStackMax := n + 1
  stackMaxPos := Nat.succ_pos n
  devGwMacIdx d := d
  privFlags d := if d = 0 then 2 else 0
  devGwPrivFlag idx := if idx = 0 then 2 else 0
  invalidMin := 255
  iffEbridge := 2
  injective _ h := h
  agrees _ _ := rfl

theorem dev_stacking_path_sample :
    ((sample 3).stackAll ⟨true, (sample 3).padded [], []⟩ [0, 3, 0, 3, 4] false).igrDevStacking = [3, 4, 255, 255] := by
  have hdevs : ∀ d ∈ [0, 3, 0, 3, 4], (sample 3).Registered d := by simp [sample]
  have hstack := (dev_stacking_path (sample 3) ⟨true, (sample 3).padded [], []⟩ false rfl [0, 3, 0, 3, 4] hdevs).1
  exact hstack.trans (by decide)

end DevTable

end PhoebusBsp.Fc

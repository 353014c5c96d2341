import PhoebusBsp.Schemes.Machine
import PhoebusBsp.Schemes.ReadSections
import Mathlib.Logic.Function.Basic

/-! `rtk_fc_assistant.c`: the table of callbacks that the FleetConntrack module registers, and the
    wrappers that dispatch to it. The table is one static buffer behind a pointer that is either null or
    points to it; `register` and `unregister` hold a mutex, a dispatch holds a read-side section.

        register      lock   check   copy, member by member   store pointer   unlock
        unregister    lock   store null   synchronize_srcu   clear, member by member   unlock
        dispatch      srcu_read_lock   load pointer   load member   load member, call   srcu_read_unlock

    Every step that another thread can see is a step of its own, and a thread takes one when the schedule
    says so; a thread that has to wait takes no step then. A wrapper that a callback calls counts as
    another thread. -/

namespace PhoebusBsp.Fc
open Schemes

variable {μ κ : Type}

/-- `EINVAL`; `ebusy` is `EBUSY`. -/
def einval : Int := 22
def ebusy : Int := 16

/-- `rtk_fc_export_symbol_t`: a callback for each member, or a null pointer. -/
abbrev Symbols (μ κ : Type) := μ → Option κ

/-- The entry points; a wrapper names its member and what it returns without a callback. -/
inductive Call (μ κ : Type) where
  | register (extSymbol : Option (Symbols μ κ))
  | unregister
  | dispatch (member : μ) (fallback : Int)

/-- What a call has returned. A dispatch keeps the registration and the callback it has called. -/
inductive Outcome (μ κ : Type) where
  | register (result : Int)
  | unregister
  | dispatch (member : μ) (fallback result : Int) (called : Option (ℕ × κ))

/-- Where a thread stands. `idx` numbers the read-side section, `g` the registration. -/
inductive Pc (μ κ : Type) where
  | idle
  | registerEntered (extSymbol : Option (Symbols μ κ))
  | registerLocked (ext : Symbols μ κ)
  | registerBusy
  | registerCopying (ext : Symbols μ κ) (todo : List μ)
  | registerPublished
  | unregisterEntered
  | unregisterLocked
  | unregisterHidden (g : Option ℕ)
  | unregisterWaiting (g : Option ℕ) (began : ℕ)
  | unregisterClearing (g : Option ℕ) (todo : List μ)
  | dispatchEntered (member : μ) (fallback : Int)
  | dispatchReading (member : μ) (fallback : Int) (idx : ℕ)
  | dispatchLoaded (member : μ) (fallback : Int) (idx : ℕ) (g : Option ℕ)
  | dispatchFound (member : μ) (fallback : Int) (idx g : ℕ)
  | dispatchRunning (member : μ) (fallback : Int) (idx g : ℕ) (callback : κ)
  | dispatchLeaving (member : μ) (fallback : Int) (idx : ℕ) (result : Int) (called : Option (ℕ × κ))
  | nullCalled
  | returned (outcome : Outcome μ κ)

/-- The order in which `memcpy` and `memset` go through the members. -/
structure Layout (μ : Type) where
  members : List μ
  complete : ∀ m, m ∈ members

/-- The variables of the module, and where every thread stands. -/
structure State (μ κ : Type) where
  /-- `fc_ext_symbols` -/
  symbols : Symbols μ κ
  /-- `fc_ext_active_symbols` points to it. -/
  active : Bool
  /-- The thread that holds `fc_ext_symbols_mutex`. -/
  mutex : Option ℕ
  /-- `fc_ext_symbols_srcu` -/
  srcu : ReadSections
  pc : ℕ → Pc μ κ
  /-- The tables whose registration was completed, in order. -/
  tables : List (Symbols μ κ)
  /-- The registrations whose removal has returned. -/
  gone : List ℕ

/-- Nothing is registered. -/
def State.init : State μ κ := ⟨fun _ => none, false, none, .quiet, fun _ => .idle, [], []⟩

namespace State

variable (s : State μ κ) (t : ℕ)

/-- The thread goes on. -/
def setPc (p : Pc μ κ) : State μ κ := { s with pc := Function.update s.pc t p }

/-- `mutex_lock`: the thread waits as long as another one holds the mutex. -/
def lock (p : Pc μ κ) : State μ κ :=
  if s.mutex = none then { s with mutex := some t }.setPc t p else s

/-- `mutex_unlock`, and the call returns. -/
def unlock (outcome : Outcome μ κ) : State μ κ := { s with mutex := none }.setPc t (.returned outcome)

/-- The registration that the pointer stands for. -/
def current : Option ℕ := if s.active then some (s.tables.length - 1) else none

end State

/-- What the schedule says. -/
inductive Event (μ κ : Type) where
  /-- The thread makes a call. -/
  | call (t : ℕ) (c : Call μ κ)
  /-- The thread takes its next step. -/
  | step (t : ℕ)
  /-- The callback that the thread runs returns. -/
  | finish (t : ℕ) (result : Int)

/-- Where a call starts. -/
def Call.entry : Call μ κ → Pc μ κ
  | .register extSymbol => .registerEntered extSymbol
  | .unregister => .unregisterEntered
  | .dispatch member fallback => .dispatchEntered member fallback

variable [DecidableEq μ] (layout : Layout μ)

/-- The next step of a thread. -/
def advance (s : State μ κ) (t : ℕ) : State μ κ :=
  match s.pc t with
  | .registerEntered none => s.setPc t (.returned (.register (-einval)))
  | .registerEntered (some ext) => s.lock t (.registerLocked ext)
  | .registerLocked ext =>
    if s.active then s.setPc t .registerBusy
    else s.setPc t (.registerCopying ext layout.members)
  | .registerBusy => s.unlock t (.register (-ebusy))
  | .registerCopying ext (m :: todo) =>
    { s with symbols := Function.update s.symbols m (ext m) }.setPc t (.registerCopying ext todo)
  | .registerCopying ext [] =>
    { s with active := true, tables := s.tables ++ [ext] }.setPc t .registerPublished
  | .registerPublished => s.unlock t (.register 0)
  | .unregisterEntered => s.lock t .unregisterLocked
  | .unregisterLocked => { s with active := false }.setPc t (.unregisterHidden s.current)
  | .unregisterHidden g => s.setPc t (.unregisterWaiting g s.srcu.began)
  | .unregisterWaiting g began =>
    -- `synchronize_srcu` returns once the sections that began before it are over
    if s.srcu.Elapsed began then s.setPc t (.unregisterClearing g layout.members) else s
  | .unregisterClearing g (m :: todo) =>
    { s with symbols := Function.update s.symbols m none }.setPc t (.unregisterClearing g todo)
  | .unregisterClearing g [] => { s with gone := s.gone ++ g.toList }.unlock t .unregister
  | .dispatchEntered member fallback =>
    { s with srcu := s.srcu.enter }.setPc t (.dispatchReading member fallback s.srcu.began)
  | .dispatchReading member fallback idx => s.setPc t (.dispatchLoaded member fallback idx s.current)
  | .dispatchLoaded member fallback idx none =>
    s.setPc t (.dispatchLeaving member fallback idx fallback none)
  | .dispatchLoaded member fallback idx (some g) =>
    if (s.symbols member).isSome then s.setPc t (.dispatchFound member fallback idx g)
    else s.setPc t (.dispatchLeaving member fallback idx fallback none)
  | .dispatchFound member fallback idx g =>
    -- the member is loaded a second time for the call
    match s.symbols member with
    | some callback => s.setPc t (.dispatchRunning member fallback idx g callback)
    | none => s.setPc t .nullCalled
  | .dispatchLeaving member fallback idx result called =>
    { s with srcu := s.srcu.leave idx }.setPc t (.returned (.dispatch member fallback result called))
  | .idle | .dispatchRunning .. | .nullCalled | .returned _ => s

/-- A call is made only by a thread that is in none; `finish` is the return of the callback. -/
def step (s : State μ κ) : Event μ κ → State μ κ
  | .call t c =>
    match s.pc t with
    | .idle | .returned _ => s.setPc t c.entry
    | _ => s
  | .step t => advance layout s t
  | .finish t result =>
    match s.pc t with
    | .dispatchRunning member fallback idx g callback =>
      s.setPc t (.dispatchLeaving member fallback idx result (some (g, callback)))
    | _ => s

end PhoebusBsp.Fc

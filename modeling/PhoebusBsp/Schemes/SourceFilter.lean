import Mathlib.Data.Set.Basic
import Mathlib.Order.Defs.Unbundled

/-! Source filters of group membership, as a multicast router keeps them: the state of one group is
    INCLUDE(A) or EXCLUDE(X, Y), and a report with a list of sources takes one to the next.

    A router holds such a state as timers, one for the group and one for each recorded source:

        group timer running   source timer running   source timer run out   source not recorded
              no                       A                     -                       -
              yes                      X                     Y                       -

    The operations on timers below do on the timers what the reports do on the sets. -/

namespace PhoebusBsp.Schemes

/-- The state of a group. -/
inductive SourceFilter (S : Type)
  | incl (A : Set S)
  | excl (X Y : Set S)

/-- A group timer and the timers of the recorded sources. -/
@[ext] structure Timed (S T : Type) where
  group : T
  timer : S → Option T

namespace SourceFilter

variable {S : Type} (B : Set S)

/-- `MODE_IS_INCLUDE`, `CHANGE_TO_INCLUDE_MODE` and `ALLOW_NEW_SOURCES`. -/
def allow : SourceFilter S → SourceFilter S
  | incl A => incl (A ∪ B)
  | excl X Y => excl (X ∪ B) (Y \ B)

/-- `MODE_IS_EXCLUDE` and `CHANGE_TO_EXCLUDE_MODE`. -/
def exclude : SourceFilter S → SourceFilter S
  | incl A => excl (A ∩ B) (B \ A)
  | excl _ Y => excl (B \ Y) (Y ∩ B)

/-- `BLOCK_OLD_SOURCES`. -/
def block : SourceFilter S → SourceFilter S
  | incl A => incl A
  | excl X Y => excl (X ∪ (B \ Y)) Y

end SourceFilter

namespace Timed

variable {S T : Type} [LT T] [DecidableLT T]

/-- The sources whose timers run. -/
def running (now : T) (t : Timed S T) : Set S := {a | ∃ τ ∈ t.timer a, now < τ}

/-- The recorded sources whose timers have run out. -/
def stopped (now : T) (t : Timed S T) : Set S := {a | ∃ τ ∈ t.timer a, ¬now < τ}

/-- The state that the timers stand for. -/
def read (now : T) (t : Timed S T) : SourceFilter S :=
  if now < t.group then .excl (t.running now) (t.stopped now) else .incl (t.running now)

/-- Nothing is recorded. -/
def fresh (g : T) : Timed S T := ⟨g, fun _ => none⟩

variable (B : Set S) [DecidablePred (· ∈ B)] (now : T) (t : Timed S T)

/-- Give the sources of `B` the timer `τ`. -/
def refresh (τ : T) : Timed S T :=
  { t with timer := fun a => if a ∈ B then some τ else t.timer a }

/-- Let no timer run longer than `κ`. -/
def cap (κ : T) : Timed S T where
  group := if κ < t.group then κ else t.group
  timer a := (t.timer a).map fun τ => if κ < τ then κ else τ

/-- Keep `B` alone, with the timer `new` for what was not recorded, and start the group timer. -/
def replace (keep : T → T) (new g : T) : Timed S T where
  group := g
  timer a := if a ∈ B then some (((t.timer a).map keep).getD new) else none

/-- Record the sources of `B` that are not, with the timer `new`. -/
def enter (new : T) : Timed S T :=
  { t with timer := fun a => if a ∈ B then some ((t.timer a).getD new) else t.timer a }

/-- Set the timers of the recorded sources of `B` to `τ`. -/
def expire (τ : T) : Timed S T :=
  { t with timer := fun a => if a ∈ B then (t.timer a).map fun _ => τ else t.timer a }

variable {B now t}

omit [LT T] [DecidableLT T] in
theorem timer_refresh {τ : T} {a : S} :
    (t.refresh B τ).timer a = if a ∈ B then some τ else t.timer a := rfl

theorem timer_cap {κ : T} {a : S} :
    (t.cap κ).timer a = (t.timer a).map fun τ => if κ < τ then κ else τ := rfl

omit [LT T] [DecidableLT T] in
theorem timer_replace {keep : T → T} {new g : T} {a : S} :
    (t.replace B keep new g).timer a =
      if a ∈ B then some (((t.timer a).map keep).getD new) else none := rfl

omit [DecidableLT T] in
theorem running_refresh {τ : T} (hτ : now < τ) :
    (t.refresh B τ).running now = t.running now ∪ B := by
  ext a
  by_cases ha : a ∈ B <;> simp [running, refresh, ha, hτ]

omit [DecidableLT T] in
theorem stopped_refresh {τ : T} (hτ : now < τ) :
    (t.refresh B τ).stopped now = t.stopped now \ B := by
  ext a
  by_cases ha : a ∈ B <;> simp [stopped, refresh, ha, hτ]

/-- Refreshing the listed sources is what `MODE_IS_INCLUDE` and `ALLOW_NEW_SOURCES` ask for. -/
theorem read_refresh {τ : T} (hτ : now < τ) :
    (t.refresh B τ).read now = (t.read now).allow B := by
  have hgroup : (t.refresh B τ).group = t.group := rfl
  unfold read
  rw [running_refresh hτ, stopped_refresh hτ, hgroup]
  split
  · rfl
  · rfl

/-- Shortening timers that still run changes no set. -/
theorem read_cap [IsTrans T (· < ·)] {κ : T} (hκ : now < κ) : (t.cap κ).read now = t.read now := by
  have hcap : ∀ τ : T, (now < if κ < τ then κ else τ) ↔ now < τ := by
    intro τ
    split
    · next h => exact iff_of_true hκ (IsTrans.trans _ _ _ hκ h)
    · rfl
  have hrun : (t.cap κ).running now = t.running now := by
    ext a
    simp [running, cap, hcap]
  have hstop : (t.cap κ).stopped now = t.stopped now := by
    ext a
    simp [stopped, cap, hcap]
  unfold read
  rw [hrun, hstop]
  simp only [cap, hcap]

/-- Replacing the recorded sources by the listed ones, with the group timer started, is what
    `MODE_IS_EXCLUDE` and `CHANGE_TO_EXCLUDE_MODE` ask for: a new source gets a running timer in
    EXCLUDE mode and one that has run out in INCLUDE mode. -/
theorem read_replace {keep : T → T} {new g : T} (hg : now < g)
    (hkeep : ∀ τ, now < keep τ ↔ now < τ) (hnew : now < new ↔ now < t.group) :
    (t.replace B keep new g).read now = (t.read now).exclude B := by
  have hrun : (t.replace B keep new g).running now =
      {a | a ∈ B ∧ ∀ τ ∈ t.timer a, now < τ} ∩ {a | t.timer a = none → now < t.group} := by
    ext a
    by_cases ha : a ∈ B <;> cases hta : t.timer a <;>
      simp [running, replace, ha, hta, hkeep, hnew]
  have hstop : (t.replace B keep new g).stopped now =
      {a | a ∈ B ∧ ∀ τ ∈ t.timer a, ¬now < τ} ∩ {a | t.timer a = none → ¬now < t.group} := by
    ext a
    by_cases ha : a ∈ B <;> cases hta : t.timer a <;>
      simp [stopped, replace, ha, hta, hkeep, hnew]
  have hgroup : (t.replace B keep new g).group = g := rfl
  unfold read
  rw [hgroup, if_pos hg, hrun, hstop]
  split
  · next h =>
    simp only [SourceFilter.exclude, SourceFilter.excl.injEq]
    constructor <;> ext a <;> cases hta : t.timer a <;> simp [stopped, hta, h]
    exact And.comm
  · next h =>
    simp only [SourceFilter.exclude, SourceFilter.excl.injEq]
    constructor <;> ext a <;> cases hta : t.timer a <;> simp [running, hta, h]
    exact And.comm

omit [LT T] [DecidableLT T] in
theorem timer_enter {new : T} {a : S} :
    (t.enter B new).timer a = if a ∈ B then some ((t.timer a).getD new) else t.timer a := rfl

omit [LT T] [DecidableLT T] in
theorem timer_expire {τ : T} {a : S} :
    (t.expire B τ).timer a = if a ∈ B then (t.timer a).map fun _ => τ else t.timer a := rfl

/-- Recording the listed sources with the group timer is what `BLOCK_OLD_SOURCES` asks for in EXCLUDE
    mode. -/
theorem read_enter (hg : now < t.group) :
    (t.enter B t.group).read now = (t.read now).block B := by
  have hgroup : (t.enter B t.group).group = t.group := rfl
  unfold read
  rw [hgroup, if_pos hg, if_pos hg]
  simp only [SourceFilter.block, SourceFilter.excl.injEq]
  constructor
  · ext a
    by_cases ha : a ∈ B <;> cases hta : t.timer a <;> simp [running, stopped, enter, ha, hta, hg]
  · ext a
    by_cases ha : a ∈ B <;> cases hta : t.timer a <;> simp [stopped, enter, ha, hta, hg]

/-- Expiring the listed sources takes them out of the filter in INCLUDE mode. -/
theorem read_expire {τ : T} (hg : ¬now < t.group) (hτ : ¬now < τ) :
    (t.expire B τ).read now = .incl (t.running now \ B) := by
  have hgroup : (t.expire B τ).group = t.group := rfl
  unfold read
  rw [hgroup, if_neg hg]
  congr 1
  ext a
  by_cases ha : a ∈ B <;> simp [running, expire, ha, hτ]

omit [DecidablePred (· ∈ B)] in
/-- After `MODE_IS_EXCLUDE` or `CHANGE_TO_EXCLUDE_MODE` the group timer runs and every listed source is
    recorded. -/
theorem recorded_of_read_exclude {f : SourceFilter S} (h : t.read now = f.exclude B) :
    now < t.group ∧ ∀ a ∈ B, t.timer a ≠ none := by
  unfold read at h
  split at h
  · next hg =>
    refine ⟨hg, fun a ha hnone => ?_⟩
    have hrun : a ∉ t.running now := by simp [running, hnone]
    have hstop : a ∉ t.stopped now := by simp [stopped, hnone]
    cases f with
    | incl A =>
      obtain ⟨h₁, h₂⟩ := SourceFilter.excl.inj h
      rw [h₁] at hrun
      rw [h₂] at hstop
      exact hstop ⟨ha, fun hA => hrun ⟨hA, ha⟩⟩
    | excl X Y =>
      obtain ⟨h₁, h₂⟩ := SourceFilter.excl.inj h
      rw [h₁] at hrun
      rw [h₂] at hstop
      exact hrun ⟨ha, fun hY => hstop ⟨hY, ha⟩⟩
  · cases f <;> cases h

end Timed

end PhoebusBsp.Schemes

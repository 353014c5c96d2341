import PhoebusBsp.Fc.Assistant
import Mathlib.Data.List.Induction

/-! A dispatch is safe against the removal of the module. What carries the argument is how far the removal
    of a table has come:

        away        nobody may touch the buffer but the thread that holds the mutex
        live        the pointer is set
        fading      the pointer is null again, the grace period has not begun
        draining    synchronize_srcu waits for the sections that began before it

    A reader that has loaded the pointer keeps the stage from going back to `away`, and as long as it is not
    `away` nobody writes to the buffer. -/

namespace PhoebusBsp.Fc
open Schemes List Option

variable {μ κ : Type}

/-! ### The stage of a table -/

/-- How far the removal of the table has come. -/
inductive Stage where
  | away
  | live (g : ℕ)
  | fading (g : ℕ)
  | draining (g began : ℕ)

/-- A reader in section `idx` may use the table of registration `g`. -/
def Stage.Holds : Stage → ℕ → ℕ → Prop
  | .away, _, _ => False
  | .live h, g, _ => g = h
  | .fading h, g, _ => g = h
  | .draining h began, g, idx => g = h ∧ idx < began

/-- The stage that a thread with the mutex imposes. -/
def Pc.stage? : Pc μ κ → Option Stage
  | .unregisterHidden (some g) => some (.fading g)
  | .unregisterWaiting (some g) began => some (.draining g began)
  | _ => none

/-- What the holder of the mutex imposes; without it the pointer decides. -/
def State.stage (s : State μ κ) : Stage :=
  (s.mutex.bind fun t => (s.pc t).stage?).getD (s.current.elim .away .live)

/-- The thread holds the mutex. -/
def Pc.Critical : Pc μ κ → Prop
  | .registerLocked _ | .registerBusy | .registerCopying .. | .registerPublished => True
  | .unregisterLocked | .unregisterHidden _ | .unregisterWaiting .. | .unregisterClearing .. => True
  | _ => False

/-- The read-side section that the thread is in. -/
def Pc.section? : Pc μ κ → Option ℕ
  | .dispatchReading _ _ idx | .dispatchLoaded _ _ idx _ | .dispatchFound _ _ idx _ => some idx
  | .dispatchRunning _ _ idx _ _ | .dispatchLeaving _ _ idx _ _ => some idx
  | _ => none

/-! ### The invariant -/

/-- A dispatch gives its fallback, or has called its member of a registered table. -/
def CalledOk (tables : List (Symbols μ κ)) (member : μ) (fallback result : Int) :
    Option (ℕ × κ) → Prop
  | none => result = fallback
  | some (g, callback) => ∃ table, tables[g]? = some table ∧ table member = some callback

/-- What a thread with the mutex has done so far. -/
def WriterOk (s : State μ κ) : Pc μ κ → Prop
  | .registerBusy | .registerPublished => s.active = true
  | .registerCopying ext todo => s.active = false ∧ ∀ m, m ∉ todo → s.symbols m = ext m
  | .unregisterHidden g | .unregisterWaiting g _ | .unregisterClearing g _ =>
    s.active = false ∧ ∀ h, g = some h → h < s.tables.length
  | _ => True

/-- A reader that goes by a table still holds it. -/
def ReaderOk (s : State μ κ) : Pc μ κ → Prop
  | .dispatchLoaded _ _ idx (some g) => s.stage.Holds g idx
  | .dispatchFound m _ idx g => s.stage.Holds g idx ∧ (s.symbols m).isSome
  | .dispatchRunning m _ idx g callback => s.stage.Holds g idx ∧ s.symbols m = some callback
  | .dispatchLeaving m fallback _ result called => CalledOk s.tables m fallback result called
  | .returned (.dispatch m fallback result called) => CalledOk s.tables m fallback result called
  | .nullCalled => False
  | _ => True

/-- The invariant: the mutex, the sections, the table and the removals that have returned. -/
structure Inv (s : State μ κ) : Prop where
  holder : ∀ t, (s.pc t).Critical → s.mutex = some t
  inside : ∀ t n, (s.pc t).section? = some n → n ∈ s.srcu.inside
  apart : ∀ t u n, (s.pc t).section? = some n → (s.pc u).section? = some n → t = u
  writer : ∀ t, WriterOk s (s.pc t)
  shelf : ∀ g n, s.stage.Holds g n → s.tables[g]? = some s.symbols
  reader : ∀ t, ReaderOk s (s.pc t)
  gone : ∀ g ∈ s.gone, g < s.tables.length ∧ ∀ n, ¬s.stage.Holds g n

theorem inv_init : Inv (State.init : State μ κ) where
  holder _ h := h.elim
  inside _ _ h := by simp [State.init, Pc.section?] at h
  apart _ _ _ h := by simp [State.init, Pc.section?] at h
  writer _ := trivial
  shelf _ _ h := h.elim
  reader _ := trivial
  gone _ h := absurd h not_mem_nil

/-! ### What a step of one thread leaves to the others -/

theorem CalledOk.mono {tables tables' : List (Symbols μ κ)} (h : tables <+: tables') {m : μ}
    {fallback result : Int} : ∀ {called : Option (ℕ × κ)}, CalledOk tables m fallback result called →
    CalledOk tables' m fallback result called
  | none, hc => hc
  | some (_, _), ⟨table, hg, hm⟩ => by
    obtain ⟨more, rfl⟩ := h
    obtain ⟨hlt, -⟩ := List.getElem?_eq_some_iff.mp hg
    exact ⟨table, (List.getElem?_append_left hlt).trans hg, hm⟩

section Step

variable {s s' : State μ κ} {t : ℕ} {p : Pc μ κ}

theorem WriterOk.congr (hactive : s'.active = s.active) (hsymbols : s'.symbols = s.symbols)
    (htables : s'.tables = s.tables) (h : WriterOk s p) : WriterOk s' p := by
  unfold WriterOk at *
  rwa [hactive, hsymbols, htables]

theorem writerOk_of_not_critical (h : ¬p.Critical) : WriterOk s p := by
  cases p with
  | registerBusy | registerPublished | registerCopying | unregisterHidden | unregisterWaiting |
    unregisterClearing => exact absurd trivial h
  | _ => trivial

/-- A thread without the mutex is not hindered by a thread with it, as long as the table that it uses is in
    sight. -/
theorem ReaderOk.mono (htables : s.tables <+: s'.tables)
    (hstage : ∀ g n, p.section? = some n → s.stage.Holds g n →
      s'.stage.Holds g n ∧ s'.symbols = s.symbols) (h : ReaderOk s p) : ReaderOk s' p := by
  cases p with
  | dispatchLoaded m fallback idx g =>
    cases g with
    | none => trivial
    | some g => exact (hstage g idx rfl h).1
  | dispatchFound m fallback idx g =>
    obtain ⟨hholds, hsome⟩ := h
    obtain ⟨hholds', hsymbols⟩ := hstage g idx rfl hholds
    exact ⟨hholds', by rwa [hsymbols]⟩
  | dispatchRunning m fallback idx g callback =>
    obtain ⟨hholds, hsome⟩ := h
    obtain ⟨hholds', hsymbols⟩ := hstage g idx rfl hholds
    exact ⟨hholds', by rwa [hsymbols]⟩
  | dispatchLeaving m fallback idx result called => exact CalledOk.mono htables h
  | returned outcome =>
    cases outcome with
    | dispatch m fallback result called => exact CalledOk.mono htables h
    | _ => trivial
  | nullCalled => exact h
  | _ => trivial

/-- The invariant after a step of thread `t`: what the others need is kept, and `t` itself is in
    order. -/
theorem Inv.of_step (h : Inv s) (hself : s'.pc t = p) (hpc : ∀ u, u ≠ t → s'.pc u = s.pc u)
    (hmutex : ∀ u, u ≠ t → s.mutex = some u → s'.mutex = some u)
    (hsrcu : ∀ u n, u ≠ t → (s.pc u).section? = some n → n ∈ s'.srcu.inside) (hshared : s.mutex = some t ∨
      s'.active = s.active ∧ s'.symbols = s.symbols ∧ s'.tables = s.tables) (htables : s.tables <+: s'.tables)
    (hstage : ∀ u g n, u ≠ t → (s.pc u).section? = some n → s.stage.Holds g n →
      s'.stage.Holds g n ∧ s'.symbols = s.symbols)
    (hshelf : ∀ g n, s'.stage.Holds g n → s'.tables[g]? = some s'.symbols)
    (hgone : ∀ g ∈ s'.gone, g < s'.tables.length ∧ ∀ n, ¬s'.stage.Holds g n)
    (hholder : p.Critical → s'.mutex = some t) (hsection : ∀ n, p.section? = some n →
      n ∈ s'.srcu.inside ∧ ∀ u, u ≠ t → (s.pc u).section? ≠ some n)
    (hwriter : WriterOk s' p) (hreader : ReaderOk s' p) : Inv s' where
  holder u hu := by
    by_cases hut : u = t
    · rw [hut, hself] at hu
      rw [hut]
      exact hholder hu
    · rw [hpc u hut] at hu
      exact hmutex u hut (h.holder u hu)
  inside u n hu := by
    by_cases hut : u = t
    · rw [hut, hself] at hu
      exact (hsection n hu).1
    · rw [hpc u hut] at hu
      exact hsrcu u n hut hu
  apart u v n hu hv := by
    by_cases hut : u = t <;> by_cases hvt : v = t
    · rw [hut, hvt]
    · rw [hut, hself] at hu
      rw [hpc v hvt] at hv
      exact absurd hv ((hsection n hu).2 v hvt)
    · rw [hpc u hut] at hu
      rw [hvt, hself] at hv
      exact absurd hu ((hsection n hv).2 u hut)
    · rw [hpc u hut] at hu
      rw [hpc v hvt] at hv
      exact h.apart u v n hu hv
  writer u := by
    by_cases hut : u = t
    · rw [hut, hself]
      exact hwriter
    · rw [hpc u hut]
      rcases hshared with hheld | ⟨hactive, hsymbols, htables⟩
      · -- the mutex is held by `t`, so that `u` is not in the middle of anything
        exact writerOk_of_not_critical fun hcrit =>
          hut (some.inj ((h.holder u hcrit).symm.trans hheld))
      · exact (h.writer u).congr hactive hsymbols htables
  shelf := hshelf
  reader u := by
    by_cases hut : u = t
    · rw [hut, hself]
      exact hreader
    · rw [hpc u hut]
      exact (h.reader u).mono htables fun g n hn => hstage u g n hut hn
  gone := hgone

/-! ### The kinds of steps -/

@[simp] theorem setPc_self : (s.setPc t p).pc t = p := Function.update_self ..

theorem setPc_of_ne {u : ℕ} (h : u ≠ t) : (s.setPc t p).pc u = s.pc u :=
  Function.update_of_ne h ..

theorem stage_of_holder (h : s.mutex = some t) :
    s.stage = (s.pc t).stage?.getD (s.current.elim .away .live) := by
  rw [State.stage, h, bind_some]

theorem stage_of_free (h : s.mutex = none) : s.stage = s.current.elim .away .live := by
  rw [State.stage, h, bind_none, getD_none]

theorem stage_setPc_holder (h : s.mutex = some t) (p : Pc μ κ) :
    (s.setPc t p).stage = p.stage?.getD (s.current.elim .away .live) := by
  have hm : (s.setPc t p).mutex = some t := h
  rw [stage_of_holder hm, setPc_self]
  rfl

/-- Before and after a thread writes to the buffer. -/
theorem stage_away (hm : s.mutex = some t) (hp : (s.pc t).stage? = none) (ha : s.active = false) :
    s.stage = .away := by
  rw [stage_of_holder hm, hp, getD_none, State.current, ha]
  rfl

theorem stage_setPc (h : p.stage? = (s.pc t).stage?) : (s.setPc t p).stage = s.stage := by
  have hsame : ∀ u, ((s.setPc t p).pc u).stage? = (s.pc u).stage? := by
    intro u
    by_cases hut : u = t
    · subst hut
      rw [setPc_self, h]
    · rw [setPc_of_ne hut]
  unfold State.stage
  simp only [hsame]
  rfl

/-- A step that changes neither the buffer nor the pointer nor the stage. -/
theorem Inv.of_same (h : Inv s) (hself : s'.pc t = p) (hpc : ∀ u, u ≠ t → s'.pc u = s.pc u)
    (hmutex : ∀ u, u ≠ t → s.mutex = some u → s'.mutex = some u)
    (hsrcu : ∀ u n, u ≠ t → (s.pc u).section? = some n → n ∈ s'.srcu.inside)
    (hactive : s'.active = s.active) (hsymbols : s'.symbols = s.symbols)
    (htables : s'.tables = s.tables) (hst : s'.stage = s.stage)
    (hgone : ∀ g ∈ s'.gone, g < s.tables.length ∧ ∀ n, ¬s.stage.Holds g n)
    (hholder : p.Critical → s'.mutex = some t) (hsection : ∀ n, p.section? = some n →
      n ∈ s'.srcu.inside ∧ ∀ u, u ≠ t → (s.pc u).section? ≠ some n)
    (hwriter : WriterOk s p) (hreader : ReaderOk s p) : Inv s' := by
  have hprefix : s.tables <+: s'.tables := htables ▸ prefix_rfl
  have hstage : ∀ g n, s.stage.Holds g n → s'.stage.Holds g n ∧ s'.symbols = s.symbols := by
    intro g n hg
    rw [hst]
    exact ⟨hg, hsymbols⟩
  refine h.of_step hself hpc hmutex hsrcu (Or.inr ⟨hactive, hsymbols, htables⟩) hprefix
    (fun u g n _ _ => hstage g n) (fun g n hg => ?_) ?_ hholder hsection
    (hwriter.congr hactive hsymbols htables) (hreader.mono hprefix fun g n _ => hstage g n)
  · rw [hst] at hg
    rw [htables, hsymbols]
    exact h.shelf g n hg
  · rw [htables, hst]
    exact hgone

/-- The thread goes on and touches nothing. -/
theorem Inv.move (h : Inv s) {q : Pc μ κ} (hpc : s.pc t = q) (hcrit : p.Critical → q.Critical)
    (hsection : ∀ n, p.section? = some n → q.section? = some n) (hstage : p.stage? = q.stage?)
    (hwriter : WriterOk s p) (hreader : ReaderOk s p) : Inv (s.setPc t p) := by
  subst hpc
  refine h.of_same setPc_self (fun u hu => setPc_of_ne hu) (fun u _ hu => hu)
    (fun u n _ hn => h.inside u n hn) rfl rfl rfl (stage_setPc hstage) h.gone
    (fun hp => h.holder t (hcrit hp)) (fun n hn => ?_) hwriter hreader
  exact ⟨h.inside t n (hsection n hn), fun u hut hu => hut (h.apart u t n hu (hsection n hn))⟩

theorem Inv.lock (h : Inv s) (hsection : p.section? = none) (hstage : p.stage? = none)
    (hwriter : WriterOk s p) (hreader : ReaderOk s p) : Inv (s.lock t p) := by
  unfold State.lock
  split_ifs with hm
  · refine h.of_same (t := t) setPc_self (fun u hu => setPc_of_ne hu) (fun u _ hu => ?_)
      (fun u n _ hn => h.inside u n hn) rfl rfl rfl ?_ h.gone (fun _ => rfl) (fun n hn => ?_) hwriter
      hreader
    · rw [hm] at hu
      cases hu
    · rw [stage_of_holder (t := t) rfl, setPc_self, hstage, stage_of_free hm]
      rfl
    · rw [hsection] at hn
      cases hn
  · exact h

/-- The thread lets go of the mutex and returns. -/
theorem Inv.unlock (h : Inv s) {outcome : Outcome μ κ} {q : Pc μ κ} (hpc : s.pc t = q)
    (hcrit : q.Critical) (hstage : q.stage? = none) {gone : List ℕ}
    (hgone : ∀ g ∈ gone, g < s.tables.length ∧ ∀ n, ¬s.stage.Holds g n)
    (hreader : ReaderOk s (.returned outcome)) :
    Inv (State.unlock { s with gone := gone } t outcome) := by
  subst hpc
  have hm := h.holder t hcrit
  refine h.of_same (t := t) setPc_self (fun u hu => setPc_of_ne hu) (fun u hut hu => ?_)
    (fun u n _ hn => h.inside u n hn) rfl rfl rfl ?_ hgone (fun hp => hp.elim) (fun n hn => nomatch hn)
    trivial hreader
  · exact absurd (some.inj (hu.symm.trans hm)) hut
  · rw [stage_of_holder hm, hstage]
    exact stage_of_free rfl

/-- The thread with the mutex changes the pointer or the buffer: no table comes in sight, and those that are used
    stay as they are. -/
theorem Inv.held (h : Inv s) (hm : s.mutex = some t)
    (hs' : ∃ active symbols, s' = { s with active := active, symbols := symbols }) (hsection : p.section? = none)
    (hstage : ∀ u g n, u ≠ t → (s.pc u).section? = some n → s.stage.Holds g n →
      (s'.setPc t p).stage.Holds g n ∧ s'.symbols = s.symbols)
    (hback : ∀ g n, (s'.setPc t p).stage.Holds g n → s.stage.Holds g n ∧ s'.symbols = s.symbols)
    (hwriter : WriterOk s' p) (hreader : ∀ s' : State μ κ, ReaderOk s' p) : Inv (s'.setPc t p) := by
  obtain ⟨active, symbols, rfl⟩ := hs'
  refine h.of_step (t := t) setPc_self (fun u hu => setPc_of_ne hu) (fun u _ hu => hu)
    (fun u n _ hn => h.inside u n hn) (Or.inl hm) prefix_rfl hstage (fun g n hg => ?_) (fun g hg => ?_)
    (fun _ => hm) (fun n hn => ?_) hwriter (hreader _)
  · obtain ⟨hholds, rfl⟩ := hback g n hg
    exact h.shelf g n hholds
  · exact ⟨(h.gone g hg).1, fun n hn => (h.gone g hg).2 n (hback g n hn).1⟩
  · rw [hsection] at hn
    cases hn

/-- The thread writes to the buffer while no table is in sight. -/
theorem Inv.store (h : Inv s) {q : Pc μ κ} {symbols : Symbols μ κ} (hpc : s.pc t = q)
    (hcrit : q.Critical) (hactive : s.active = false) (hold : q.stage? = none) (hstage : p.stage? = none)
    (hsection : p.section? = none) (hwriter : WriterOk { s with symbols := symbols } p)
    (hreader : ∀ s' : State μ κ, ReaderOk s' p) :
    Inv (State.setPc { s with symbols := symbols } t p) := by
  subst hpc
  have hm := h.holder t hcrit
  have haway := stage_away hm hold hactive
  have haway' : (State.setPc { s with symbols := symbols } t p).stage = .away :=
    stage_away (t := t) hm (by rw [setPc_self, hstage]) hactive
  refine h.held hm ⟨_, _, rfl⟩ hsection (fun u g n _ _ hg => ?_) (fun g n hg => ?_) hwriter hreader
  · rw [haway] at hg
    exact hg.elim
  · rw [haway'] at hg
    exact hg.elim

theorem Inv.publish (h : Inv s) {ext : Symbols μ κ} (hpc : s.pc t = .registerCopying ext []) :
    Inv (State.setPc { s with active := true, tables := s.tables ++ [ext] } t .registerPublished) := by
  have hwriter : WriterOk s (.registerCopying ext []) := hpc ▸ h.writer t
  obtain ⟨hactive, hcopied⟩ := hwriter
  have hm := h.holder t (hpc ▸ trivial)
  have haway := stage_away hm (hpc ▸ rfl) hactive
  have hsymbols : s.symbols = ext := funext fun m => hcopied m not_mem_nil
  have hlive : (State.setPc { s with active := true, tables := s.tables ++ [ext] } t
      .registerPublished).stage = .live s.tables.length := by
    rw [stage_setPc_holder (s := { s with active := true, tables := s.tables ++ [ext] }) hm]
    simp [Pc.stage?, State.current]
  refine h.of_step (t := t) setPc_self (fun u hu => setPc_of_ne hu) (fun u _ hu => hu)
    (fun u n _ hn => h.inside u n hn) (Or.inl hm) (prefix_append _ _) (fun u g n _ _ hg => ?_)
    (fun g n hg => ?_) (fun g hg => ?_) (fun _ => hm) (fun n hn => nomatch hn) rfl trivial
  · rw [haway] at hg
    exact hg.elim
  · rw [hlive] at hg
    obtain rfl : g = s.tables.length := hg
    exact (List.getElem?_concat_length ..).trans (congrArg some hsymbols.symm)
  · obtain ⟨hlt, -⟩ := h.gone g hg
    rw [hlive]
    refine ⟨?_, fun n hn => absurd hn (Nat.ne_of_lt hlt)⟩
    simp only [State.setPc, length_append, length_singleton]
    omega

/-- The pointer is cleared: the table that was active is fading. -/
theorem Inv.hide (h : Inv s) (hpc : s.pc t = .unregisterLocked) :
    Inv (State.setPc { s with active := false } t (.unregisterHidden s.current)) := by
  have hm := h.holder t (hpc ▸ trivial)
  have hstage : s.stage = s.current.elim .away .live := by
    rw [stage_of_holder hm, hpc]
    rfl
  have hstage' : (State.setPc { s with active := false } t (.unregisterHidden s.current)).stage =
      s.current.elim .away .fading := by
    rw [stage_setPc_holder (s := { s with active := false }) hm]
    cases s.current <;> rfl
  have hholds : ∀ g n, (s.current.elim Stage.away .fading).Holds g n ↔ s.stage.Holds g n := by
    intro g n
    rw [hstage]
    cases s.current <;> rfl
  have hlt : ∀ g, s.current = some g → g < s.tables.length := by
    intro g hg
    have hheld : s.stage.Holds g 0 := by
      rw [hstage, hg]
      rfl
    exact (List.getElem?_eq_some_iff.mp (h.shelf g 0 hheld)).1
  rw [← hstage'] at hholds
  exact h.held hm ⟨_, _, rfl⟩ rfl (fun u g n _ _ hg => ⟨(hholds g n).mpr hg, rfl⟩)
    (fun g n hg => ⟨(hholds g n).mp hg, rfl⟩) ⟨rfl, hlt⟩ fun _ => trivial

/-- `synchronize_srcu` is called: every reader is in a section that began before. -/
theorem Inv.wait (h : Inv s) {g : Option ℕ} (hpc : s.pc t = .unregisterHidden g) :
    Inv (s.setPc t (.unregisterWaiting g s.srcu.began)) := by
  have hm := h.holder t (hpc ▸ trivial)
  have hwriter : WriterOk s (.unregisterHidden g) := hpc ▸ h.writer t
  have hstage : s.stage = g.elim .away .fading := by
    rw [stage_of_holder hm, hpc, State.current, hwriter.1]
    cases g <;> rfl
  have hstage' : (s.setPc t (.unregisterWaiting g s.srcu.began)).stage =
      g.elim .away fun g => .draining g s.srcu.began := by
    rw [stage_setPc_holder hm, State.current, hwriter.1]
    cases g <;> rfl
  refine h.held hm ⟨_, _, rfl⟩ rfl (fun u k n _ hn hk => ⟨?_, rfl⟩) (fun k n hk => ⟨?_, rfl⟩) hwriter fun _ => trivial
  · rw [hstage']
    rw [hstage] at hk
    cases g with
    | none => exact hk
    | some g => exact ⟨hk, s.srcu.lt_began n (h.inside u n hn)⟩
  · rw [hstage'] at hk
    rw [hstage]
    cases g with
    | none => exact hk
    | some g => exact hk.1

/-- `synchronize_srcu` has returned: no reader is left. -/
theorem Inv.drained (h : Inv s) {g : Option ℕ} {began : ℕ} {todo : List μ}
    (hpc : s.pc t = .unregisterWaiting g began) (hover : s.srcu.Elapsed began) :
    Inv (s.setPc t (.unregisterClearing g todo)) := by
  have hm := h.holder t (hpc ▸ trivial)
  have hwriter : WriterOk s (.unregisterWaiting g began) := hpc ▸ h.writer t
  have hstage : s.stage = g.elim .away fun g => .draining g began := by
    rw [stage_of_holder hm, hpc, State.current, hwriter.1]
    cases g <;> rfl
  have haway : (s.setPc t (.unregisterClearing g todo)).stage = .away :=
    stage_away (t := t) hm (by rw [setPc_self]; rfl) hwriter.1
  refine h.held hm ⟨_, _, rfl⟩ rfl (fun u k n _ hn hk => ?_) (fun k n hk => ?_) hwriter fun _ => trivial
  · rw [hstage] at hk
    cases g with
    | none => exact hk.elim
    | some g => exact absurd (h.inside u n hn) (hover.not_mem hk.2)
  · rw [haway] at hk
    exact hk.elim

/-- `srcu_read_lock` -/
theorem Inv.enter (h : Inv s) {m : μ} {fallback : Int} (hpc : s.pc t = .dispatchEntered m fallback) :
    Inv (State.setPc { s with srcu := s.srcu.enter } t (.dispatchReading m fallback s.srcu.began)) := by
  refine h.of_same (t := t) setPc_self (fun u hu => setPc_of_ne hu) (fun u _ hu => hu)
    (fun u n _ hn => mem_cons_of_mem _ (h.inside u n hn)) rfl rfl rfl ?_ h.gone
    (fun hp => hp.elim) (fun n hn => ?_) trivial trivial
  · exact stage_setPc (s := { s with srcu := s.srcu.enter }) (congrArg Pc.stage? hpc).symm
  · obtain rfl : s.srcu.began = n := some.inj hn
    refine ⟨mem_cons_self, fun u _ hu => ?_⟩
    exact Nat.lt_irrefl _ (s.srcu.lt_began _ (h.inside u _ hu))

/-- `srcu_read_unlock` -/
theorem Inv.leave (h : Inv s) {m : μ} {fallback result : Int} {idx : ℕ} {called : Option (ℕ × κ)}
    (hpc : s.pc t = .dispatchLeaving m fallback idx result called) :
    Inv (State.setPc { s with srcu := s.srcu.leave idx } t
      (.returned (.dispatch m fallback result called))) := by
  have hreader : ReaderOk s (.dispatchLeaving m fallback idx result called) := hpc ▸ h.reader t
  have hidx : (s.pc t).section? = some idx := by
    rw [hpc]
    rfl
  refine h.of_same (t := t) setPc_self (fun u hu => setPc_of_ne hu) (fun u _ hu => hu)
    (fun u n hut hn => ?_) rfl rfl rfl ?_ h.gone (fun hp => hp.elim) (fun n hn => nomatch hn) trivial
    hreader
  · refine s.srcu.mem_leave.mpr ⟨?_, h.inside u n hn⟩
    rintro rfl
    exact hut (h.apart u t n hn hidx)
  · exact stage_setPc (s := { s with srcu := s.srcu.leave idx }) (congrArg Pc.stage? hpc).symm

/-- The pointer that a reader loads stands for a table in sight. -/
theorem Inv.current_holds (h : Inv s) {g : ℕ} (hg : s.current = some g) (idx : ℕ) :
    s.stage.Holds g idx := by
  have hactive : s.active = true := by
    unfold State.current at hg
    split_ifs at hg with ha
    exact ha
  have hnone : s.mutex.bind (fun t => (s.pc t).stage?) = none := by
    cases hm : s.mutex with
    | none => rfl
    | some t =>
      have hwriter := h.writer t
      rw [bind_some]
      cases hpc : s.pc t with
      | unregisterHidden g | unregisterWaiting g began =>
        rw [hpc] at hwriter
        exact absurd hactive (by simp [hwriter.1])
      | _ => rfl
  rw [State.stage, hnone, hg]
  rfl

variable [DecidableEq μ] {layout : Layout μ}

theorem Inv.advance (h : Inv s) (t : ℕ) : Inv (advance layout s t) := by
  have hwriter := h.writer t
  have hreader := h.reader t
  unfold Fc.advance
  cases hpc : s.pc t with
  | registerEntered extSymbol =>
    cases extSymbol with
    | none => exact h.move hpc False.elim nofun rfl trivial trivial
    | some ext => exact h.lock rfl rfl trivial trivial
  | registerLocked ext =>
    dsimp only
    split_ifs with hactive
    · exact h.move hpc (fun _ => trivial) nofun rfl hactive trivial
    · have hcopied : ∀ m, m ∉ layout.members → s.symbols m = ext m := fun m hm =>
        absurd (layout.complete m) hm
      exact h.move hpc (fun _ => trivial) nofun rfl ⟨Bool.eq_false_iff.mpr hactive, hcopied⟩ trivial
  | registerBusy => exact h.unlock hpc trivial rfl h.gone trivial
  | registerCopying ext todo =>
    rw [hpc] at hwriter
    obtain ⟨hactive, hcopied⟩ := hwriter
    cases todo with
    | nil => exact h.publish hpc
    | cons m todo =>
      refine h.store hpc trivial hactive rfl rfl rfl ⟨hactive, fun k hk => ?_⟩ fun _ => trivial
      by_cases hkm : k = m
      · rw [hkm]
        exact Function.update_self ..
      · exact (Function.update_of_ne hkm ..).trans (hcopied k (by simp [hkm, hk]))
  | registerPublished => exact h.unlock hpc trivial rfl h.gone trivial
  | unregisterEntered => exact h.lock rfl rfl trivial trivial
  | unregisterLocked => exact h.hide hpc
  | unregisterHidden g => exact h.wait hpc
  | unregisterWaiting g began =>
    dsimp only
    split_ifs with hover
    · exact h.drained hpc hover
    · exact h
  | unregisterClearing g todo =>
    rw [hpc] at hwriter
    cases todo with
    | nil =>
      refine h.unlock hpc trivial rfl (fun k hk => ?_) trivial
      have haway := stage_away (h.holder t (by rw [hpc]; trivial)) (by rw [hpc]; rfl) hwriter.1
      rcases mem_append.mp hk with hk | hk
      · exact h.gone k hk
      · rw [haway]
        exact ⟨hwriter.2 k (mem_toList.mp hk), fun _ hn => hn⟩
    | cons m todo => exact h.store hpc trivial hwriter.1 rfl rfl rfl hwriter fun _ => trivial
  | dispatchEntered m fallback => exact h.enter hpc
  | dispatchReading m fallback idx =>
    refine h.move hpc False.elim (fun _ hn => hn) rfl trivial ?_
    cases hg : s.current with
    | none => trivial
    | some g => exact h.current_holds hg idx
  | dispatchLoaded m fallback idx g =>
    rw [hpc] at hreader
    cases g with
    | none => exact h.move hpc False.elim (fun _ hn => hn) rfl trivial rfl
    | some g =>
      dsimp only
      split_ifs with hsome
      · exact h.move hpc False.elim (fun _ hn => hn) rfl trivial ⟨hreader, hsome⟩
      · exact h.move hpc False.elim (fun _ hn => hn) rfl trivial rfl
  | dispatchFound m fallback idx g =>
    rw [hpc] at hreader
    obtain ⟨hholds, hsome⟩ := hreader
    dsimp only
    cases hmember : s.symbols m with
    | none => simp [hmember] at hsome
    | some callback => exact h.move hpc False.elim (fun _ hn => hn) rfl trivial ⟨hholds, hmember⟩
  | dispatchLeaving m fallback idx result called => exact h.leave hpc
  | idle | dispatchRunning | nullCalled | returned => exact h

theorem Inv.step (h : Inv s) (e : Event μ κ) : Inv (step layout s e) := by
  cases e with
  | call t c =>
    have hentry : ∀ q : Pc μ κ, s.pc t = q → q.stage? = none → Inv (s.setPc t c.entry) := by
      intro q hpc hq
      cases c <;> exact h.move hpc False.elim nofun hq.symm trivial trivial
    simp only [Fc.step]
    cases hpc : s.pc t with
    | idle => exact hentry _ hpc rfl
    | returned => exact hentry _ hpc rfl
    | _ => exact h
  | step t => exact h.advance t
  | finish t result =>
    simp only [Fc.step]
    cases hpc : s.pc t with
    | dispatchRunning m fallback idx g callback =>
      have hreader := h.reader t
      rw [hpc] at hreader
      refine h.move hpc False.elim (fun _ hn => hn) rfl trivial ?_
      exact ⟨s.symbols, h.shelf g idx hreader.1, hreader.2⟩
    | _ => exact h

theorem Inv.run (h : Inv s) (es : List (Event μ κ)) : Inv (run (Fc.step layout) s es) :=
  run_always (fun _ e hs => hs.step e) es s h

end Step

/-! ### Which tables there are -/

section Tables

/-- The table that a thread is about to register. -/
def Pc.offered? : Pc μ κ → Option (Symbols μ κ)
  | .registerEntered extSymbol => extSymbol
  | .registerLocked ext | .registerCopying ext _ => some ext
  | _ => none

/-- Every registered table, and every one about to be, is the argument of a call. -/
structure Offered (es : List (Event μ κ)) (s : State μ κ) : Prop where
  tables : ∀ table ∈ s.tables, ∃ t, Event.call t (.register (some table)) ∈ es
  pending : ∀ t ext, (s.pc t).offered? = some ext → Event.call t (.register (some ext)) ∈ es

/-- A step of thread `t` adds to the tables only what the thread offers. -/
structure Adds (t : ℕ) (s s' : State μ κ) : Prop where
  tables : ∀ table ∈ s'.tables, table ∈ s.tables ∨ (s.pc t).offered? = some table
  pending : ∀ u ext, (s'.pc u).offered? = some ext → (s.pc u).offered? = some ext

theorem Adds.rfl {t : ℕ} {s : State μ κ} : Adds t s s := ⟨fun _ h => Or.inl h, fun _ _ h => h⟩

theorem adds_setPc {t : ℕ} {s s₀ : State μ κ} {p q : Pc μ κ} (hpc : s.pc t = q)
    (hp : ∀ ext, p.offered? = some ext → q.offered? = some ext) (hs₀ : s₀.pc = s.pc)
    (htables : ∀ table ∈ s₀.tables, table ∈ s.tables ∨ q.offered? = some table) :
    Adds t s (s₀.setPc t p) where
  tables := hpc ▸ htables
  pending u ext hu := by
    by_cases hut : u = t
    · rw [hut] at hu ⊢
      rw [setPc_self] at hu
      rw [hpc]
      exact hp ext hu
    · rwa [setPc_of_ne hut, hs₀] at hu

variable [DecidableEq μ] {layout : Layout μ}

theorem advance_adds (s : State μ κ) (t : ℕ) : Adds t s (advance layout s t) := by
  have hmove : ∀ {s₀ : State μ κ} {p q : Pc μ κ}, s.pc t = q →
      (∀ ext, p.offered? = some ext → q.offered? = some ext) → s₀.pc = s.pc → s₀.tables = s.tables →
      Adds t s (s₀.setPc t p) :=
    fun hpc hp hs₀ htables => adds_setPc hpc hp hs₀ fun table h => Or.inl (htables ▸ h)
  have hlock : ∀ {p q : Pc μ κ}, s.pc t = q → (∀ ext, p.offered? = some ext → q.offered? = some ext) →
      Adds t s (s.lock t p) := by
    intro p q hpc hp
    unfold State.lock
    split_ifs
    · exact hmove hpc hp rfl rfl
    · exact .rfl
  unfold advance
  cases hpc : s.pc t with
  | registerEntered extSymbol =>
    cases extSymbol with
    | none => exact hmove hpc nofun rfl rfl
    | some ext => exact hlock hpc fun _ h => h
  | registerLocked ext =>
    dsimp only
    split_ifs
    · exact hmove hpc nofun rfl rfl
    · exact hmove hpc (fun _ h => h) rfl rfl
  | registerCopying ext todo =>
    cases todo with
    | nil =>
      refine adds_setPc hpc nofun rfl fun table h => ?_
      rcases mem_append.mp h with h | h
      · exact Or.inl h
      · exact Or.inr (congrArg some (mem_singleton.mp h).symm)
    | cons m todo => exact hmove hpc (fun _ h => h) rfl rfl
  | unregisterEntered => exact hlock hpc nofun
  | unregisterWaiting g began =>
    dsimp only
    split_ifs
    · exact hmove hpc nofun rfl rfl
    · exact .rfl
  | unregisterClearing g todo => cases todo <;> exact hmove hpc nofun rfl rfl
  | dispatchLoaded m fallback idx g =>
    cases g with
    | none => exact hmove hpc nofun rfl rfl
    | some g =>
      dsimp only
      split_ifs <;> exact hmove hpc nofun rfl rfl
  | dispatchFound m fallback idx g =>
    dsimp only
    split <;> exact hmove hpc nofun rfl rfl
  | idle | dispatchRunning | nullCalled | returned => exact .rfl
  | _ => exact hmove hpc nofun rfl rfl

theorem Offered.step {es : List (Event μ κ)} {s : State μ κ} (h : Offered es s) (e : Event μ κ) :
    Offered (es ++ [e]) (step layout s e) := by
  have hadds : ∀ {t s'}, Adds t s s' → Offered (es ++ [e]) s' := by
    intro t s' ha
    refine ⟨fun table htable => ?_, fun u ext hu => ?_⟩
    · rcases ha.tables table htable with hold | hnew
      · obtain ⟨u, hu⟩ := h.tables table hold
        exact ⟨u, mem_append_left _ hu⟩
      · exact ⟨t, mem_append_left _ (h.pending t table hnew)⟩
    · exact mem_append_left _ (h.pending u ext (ha.pending u ext hu))
  cases e with
  | step t => exact hadds (advance_adds s t)
  | finish t result =>
    simp only [Fc.step]
    cases hpc : s.pc t with
    | dispatchRunning => exact hadds (adds_setPc hpc nofun rfl fun _ h => Or.inl h)
    | _ => exact hadds (t := t) .rfl
  | call t c =>
    have hcall : Offered (es ++ [.call t c]) (s.setPc t c.entry) := by
      refine ⟨fun table htable => ?_, fun u ext hu => ?_⟩
      · obtain ⟨u, hu⟩ := h.tables table htable
        exact ⟨u, mem_append_left _ hu⟩
      · by_cases hut : u = t
        · rw [hut, setPc_self] at hu
          cases c with
          | register extSymbol =>
            obtain rfl : extSymbol = some ext := hu
            simp [hut]
          | _ => cases hu
        · rw [setPc_of_ne hut] at hu
          exact mem_append_left _ (h.pending u ext hu)
    simp only [Fc.step]
    cases hpc : s.pc t with
    | idle => exact hcall
    | returned => exact hcall
    | _ => exact hadds (t := t) .rfl

theorem offered_run (es : List (Event μ κ)) : Offered es (run (step layout) State.init es) := by
  have hinit : Offered [] (State.init : State μ κ) :=
    ⟨fun _ h => absurd h not_mem_nil, fun _ _ h => by simp [State.init, Pc.offered?] at h⟩
  exact run_history hinit (fun _ _ e h => h.step e) es

end Tables

/-! ### What `register` finds and leaves -/

section Register

variable [DecidableEq μ] {layout : Layout μ} {es : List (Event μ κ)}

def Event.thread : Event μ κ → ℕ
  | .call t _ | .step t | .finish t _ => t

/-- What the threads share of the table. -/
def State.shared (s : State μ κ) : Symbols μ κ × Bool := (s.symbols, s.active)

theorem advance_pc_of_ne {s : State μ κ} {t u : ℕ} (h : u ≠ t) : (advance layout s t).pc u = s.pc u := by
  have hmove : ∀ {s₀ : State μ κ} {p : Pc μ κ}, s₀.pc = s.pc → (s₀.setPc t p).pc u = s.pc u := by
    intro s₀ p hs₀
    rw [setPc_of_ne h, hs₀]
  unfold advance
  split <;> try unfold State.lock
  all_goals first
    | exact hmove rfl
    | rfl
    | (split_ifs <;> first | exact hmove rfl | rfl)
    | (split <;> exact hmove rfl)

theorem step_pc_of_ne {s : State μ κ} {e : Event μ κ} {u : ℕ} (h : u ≠ e.thread) :
    (step layout s e).pc u = s.pc u := by
  cases e with
  | step t => exact advance_pc_of_ne h
  | call t c | finish t result =>
    simp only [step]
    split
    all_goals first | exact setPc_of_ne h | rfl

variable (layout) (s : State μ κ) (t : ℕ)

/-- No step of the thread changes the table or the pointer. -/
def LeavesShared (es : List (Event μ κ)) : Prop :=
  ∀ past rest, es = past ++ .step t :: rest →
    (run (step layout) s (past ++ [.step t])).shared = (run (step layout) s past).shared

/-- When the thread has got the mutex and is about to look, the pointer is as given. -/
def Finds (es : List (Event μ κ)) (active : Bool) : Prop :=
  ∃ past rest, es = past ++ rest ∧ (∃ ext, (run (step layout) s past).pc t = .registerLocked ext) ∧
    (run (step layout) s past).mutex = some t ∧ (run (step layout) s past).active = active

variable {layout s t}

theorem run_concat (es : List (Event μ κ)) (e : Event μ κ) :
    run (step layout) s (es ++ [e]) = step layout (run (step layout) s es) e := by
  simp [run]

theorem LeavesShared.concat (h : LeavesShared layout s t es) {e : Event μ κ} (he : e = .step t →
      (advance layout (run (step layout) s es) t).shared = (run (step layout) s es).shared) :
    LeavesShared layout s t (es ++ [e]) := by
  intro past rest heq
  rcases eq_nil_or_concat rest with rfl | ⟨rest, e', rfl⟩
  · obtain ⟨rfl, he'⟩ := append_inj' heq rfl
    rw [run_concat]
    exact he (singleton_inj.mp he')
  · have hsplit : es ++ [e] = (past ++ .step t :: rest) ++ [e'] := by simpa using heq
    exact h past rest (append_inj' hsplit rfl).1

theorem Finds.concat {active : Bool} (h : Finds layout s t es active)
    (e : Event μ κ) : Finds layout s t (es ++ [e]) active := by
  obtain ⟨past, rest, rfl, hfound⟩ := h
  exact ⟨past, rest ++ [e], append_assoc .., hfound⟩

variable (layout s t)

/-- How far a call of `register` has come and what is known of it. -/
def RegisterSeen (es : List (Event μ κ)) : Pc μ κ → Prop
  | .registerEntered (some _) | .registerLocked _ => LeavesShared layout s t es
  | .registerBusy => LeavesShared layout s t es ∧ Finds layout s t es true
  | .registerCopying .. | .registerPublished => Finds layout s t es false
  | .returned (.register result) =>
    result = -ebusy ∧ LeavesShared layout s t es ∧ Finds layout s t es true ∨
      result = 0 ∧ Finds layout s t es false
  | _ => False

variable {layout s t}

theorem RegisterSeen.other {p : Pc μ κ} (h : RegisterSeen layout s t es p) {e : Event μ κ} (he : e = .step t →
      (advance layout (run (step layout) s es) t).shared = (run (step layout) s es).shared) :
    RegisterSeen layout s t (es ++ [e]) p := by
  cases p with
  | registerEntered extSymbol =>
    cases extSymbol with
    | none => exact h
    | some ext => exact LeavesShared.concat h he
  | registerLocked ext => exact LeavesShared.concat h he
  | registerBusy => exact ⟨h.1.concat he, h.2.concat e⟩
  | registerCopying ext todo => exact Finds.concat h e
  | registerPublished => exact Finds.concat h e
  | returned outcome =>
    cases outcome with
    | register result =>
      rcases h with ⟨hresult, hleaves, hfinds⟩ | ⟨hresult, hfinds⟩
      · exact Or.inl ⟨hresult, hleaves.concat he, hfinds.concat e⟩
      · exact Or.inr ⟨hresult, hfinds.concat e⟩
    | _ => exact h
  | _ => exact h

/-- A step of the thread itself. -/
theorem RegisterSeen.own (hinv : Inv (run (step layout) s es))
    (h : RegisterSeen layout s t es ((run (step layout) s es).pc t)) :
    RegisterSeen layout s t (es ++ [.step t]) ((advance layout (run (step layout) s es) t).pc t) := by
  set x := run (step layout) s es with hx
  have hleaves : LeavesShared layout s t es → (advance layout x t).shared = x.shared →
      LeavesShared layout s t (es ++ [.step t]) := fun h heq => h.concat fun _ => heq
  cases hpc : x.pc t with
  | registerEntered extSymbol =>
    rw [hpc] at h
    cases extSymbol with
    | none => exact h.elim
    | some ext =>
      simp only [advance, hpc, State.lock] at hleaves ⊢
      split_ifs at hleaves ⊢
      · rw [setPc_self]
        exact hleaves h rfl
      · rw [hpc]
        exact hleaves h rfl
  | registerLocked ext =>
    rw [hpc] at h
    have hm : x.mutex = some t := hinv.holder t (by rw [hpc]; trivial)
    simp only [advance, hpc] at hleaves ⊢
    split_ifs at hleaves ⊢ with hactive
    · rw [setPc_self]
      exact ⟨hleaves h rfl, es, [.step t], rfl, ⟨ext, hpc⟩, hm, hactive⟩
    · rw [setPc_self]
      exact ⟨es, [.step t], rfl, ⟨ext, hpc⟩, hm, Bool.eq_false_iff.mpr hactive⟩
  | registerBusy =>
    rw [hpc] at h
    simp only [advance, hpc, State.unlock, setPc_self] at hleaves ⊢
    exact Or.inl ⟨rfl, hleaves h.1 rfl, h.2.concat _⟩
  | registerCopying ext todo =>
    rw [hpc] at h
    cases todo <;> simp only [advance, hpc, setPc_self] <;> exact Finds.concat h _
  | registerPublished =>
    rw [hpc] at h
    simp only [advance, hpc, State.unlock, setPc_self]
    exact Or.inr ⟨rfl, Finds.concat h _⟩
  | returned outcome =>
    have hstay : advance layout x t = x := by simp only [advance, hpc]
    rw [hstay]
    exact h.other fun _ => by rw [hstay]
  | _ =>
    rw [hpc] at h
    exact h.elim

theorem registerSeen_run (layout : Layout μ) (hs : Inv s) {ext : Symbols μ κ}
    (hpc : s.pc t = .registerEntered (some ext)) (es : List (Event μ κ)) (hes : ∀ c, Event.call t c ∉ es) :
    RegisterSeen layout s t es ((run (step layout) s es).pc t) := by
  -- from the end, since what is known refers to the moments passed
  induction es using List.reverseRecOn with
  | nil =>
    simp only [run, foldl_nil, hpc]
    intro past rest h
    simp at h
  | append_singleton es e ih =>
    have hseen := ih fun c hc => hes c (mem_append_left _ hc)
    rw [run_concat]
    by_cases ht : t = e.thread
    · cases e with
      | call u c =>
        obtain rfl : t = u := ht
        exact absurd (mem_append_right _ mem_cons_self) (hes c)
      | step u =>
        obtain rfl : t = u := ht
        exact hseen.own (hs.run es)
      | finish u result =>
        obtain rfl : t = u := ht
        have hstay : step layout (run (step layout) s es) (.finish t result) = run (step layout) s es := by
          simp only [step]
          split
          · rename_i hrunning
            rw [hrunning] at hseen
            exact hseen.elim
          · rfl
        rw [hstay]
        exact hseen.other fun he => by cases he
    · rw [step_pc_of_ne ht]
      refine hseen.other fun he => ?_
      rw [he] at ht
      exact absurd rfl ht

end Register

/-! ### The whole -/

/-- The registration whose table a reader has in hand. -/
def Pc.registration? : Pc μ κ → Option ℕ
  | .dispatchLoaded _ _ _ g => g
  | .dispatchFound _ _ _ g | .dispatchRunning _ _ _ g _ => some g
  | _ => none

theorem Inv.holds {s : State μ κ} (h : Inv s) {t g : ℕ} (hg : (s.pc t).registration? = some g) :
    ∃ idx, s.stage.Holds g idx := by
  have hreader := h.reader t
  cases hpc : s.pc t with
  | dispatchLoaded m fallback idx g' =>
    rw [hpc] at hg hreader
    obtain rfl : g' = some g := hg
    exact ⟨idx, hreader⟩
  | dispatchFound m fallback idx g' =>
    rw [hpc] at hg hreader
    obtain rfl : g' = g := some.inj hg
    exact ⟨idx, hreader.1⟩
  | dispatchRunning m fallback idx g' callback =>
    rw [hpc] at hg hreader
    obtain rfl : g' = g := some.inj hg
    exact ⟨idx, hreader.1⟩
  | _ =>
    rw [hpc] at hg
    cases hg

/-- Every interleaving of dispatches, registrations and removals: no null pointer is called; a reader
    that has the pointer sees one table, whole and as it was registered, and calls its member of it or
    gives its fallback; nobody uses a table whose removal has returned; and `register` returns `-EBUSY`,
    with nothing changed, exactly when it finds a table active. -/
theorem dispatch_against_removal [DecidableEq μ] (layout : Layout μ) (es : List (Event μ κ)) :
    let s := run (step layout) State.init es
    (∀ t, s.pc t ≠ .nullCalled) ∧
    (∀ t g, (s.pc t).registration? = some g → s.tables[g]? = some s.symbols) ∧
    (∀ t m fallback idx g callback, s.pc t = .dispatchRunning m fallback idx g callback →
      s.symbols m = some callback) ∧
    (∀ t m fallback result called, s.pc t = .returned (.dispatch m fallback result called) →
      CalledOk s.tables m fallback result called) ∧
    (∀ table ∈ s.tables, ∃ t, Event.call t (.register (some table)) ∈ es) ∧
    (∀ g ∈ s.gone, ∀ t, (s.pc t).registration? ≠ some g) ∧
    ∀ t ext, s.pc t = .registerEntered (some ext) → ∀ es', (∀ c, Event.call t c ∉ es') →
      ∀ result, (run (step layout) s es').pc t = .returned (.register result) →
        ∃ past rest, es' = past ++ rest ∧ (run (step layout) s past).mutex = some t ∧
          (∃ ext, (run (step layout) s past).pc t = .registerLocked ext) ∧
          (result = -ebusy ↔ (run (step layout) s past).active = true) ∧
          (result ≠ -ebusy → result = 0) ∧ (result = -ebusy → LeavesShared layout s t es') := by
  intro s
  have hinv : Inv s := inv_init.run es
  refine ⟨fun t ht => ?_, fun t g hg => ?_, fun t m fallback idx g callback hpc => ?_,
    fun t m fallback result called hpc => ?_, (offered_run es).tables, fun g hgone t hg => ?_,
    fun t ext hpc es' hes' result hresult => ?_⟩
  · have hreader := hinv.reader t
    rw [ht] at hreader
    exact hreader
  · obtain ⟨idx, hholds⟩ := hinv.holds hg
    exact hinv.shelf g idx hholds
  · have hreader := hinv.reader t
    rw [hpc] at hreader
    exact hreader.2
  · have hreader := hinv.reader t
    rw [hpc] at hreader
    exact hreader
  · obtain ⟨idx, hholds⟩ := hinv.holds hg
    exact (hinv.gone g hgone).2 idx hholds
  · have hseen := registerSeen_run layout hinv hpc es' hes'
    rw [hresult] at hseen
    have hne : (0 : Int) ≠ -ebusy := by decide
    rcases hseen with ⟨rfl, hleaves, past, rest, hsplit, hlocked, hm, hactive⟩ |
      ⟨rfl, past, rest, hsplit, hlocked, hm, hactive⟩
    · exact ⟨past, rest, hsplit, hm, hlocked, iff_of_true rfl hactive, fun h => absurd rfl h,
        fun _ => hleaves⟩
    · exact ⟨past, rest, hsplit, hm, hlocked, iff_of_false hne (by simp [hactive]), fun _ => rfl,
        fun h => absurd h hne⟩

/-- A table of two members is registered; a removal waits for the callback that was called meanwhile. -/
example :
    let layout : Layout Bool := ⟨[true, false], by decide⟩
    let table : Symbols Bool ℕ := fun m => some m.toNat
    let s := run (step layout) State.init ([.call 0 (.register (some table))] ++
      List.replicate 6 (.step 0) ++ [.call 1 (.dispatch true (-1))] ++ List.replicate 4 (.step 1) ++
      [.call 2 .unregister] ++ List.replicate 9 (.step 2))
    s.pc 1 = .dispatchRunning true (-1) 0 0 1 ∧ s.pc 2 = .unregisterWaiting (some 0) 1 :=
  ⟨rfl, rfl⟩

/-- In every interleaving one thread at most is past the mutex, and while it writes to the buffer no dispatch
    has the table in hand. -/
theorem writer_alone [DecidableEq μ] (layout : Layout μ) (es : List (Event μ κ)) :
    let s := run (step layout) State.init es
    (∀ t u, (s.pc t).Critical → (s.pc u).Critical → t = u) ∧
    ∀ t, ((∃ ext todo, s.pc t = .registerCopying ext todo) ∨ ∃ g todo, s.pc t = .unregisterClearing g todo) →
      ∀ u, (s.pc u).registration? = none := by
  intro s
  have hinv : Inv s := inv_init.run es
  refine ⟨fun t u ht hu => some.inj ((hinv.holder t ht).symm.trans (hinv.holder u hu)), fun t ht u => ?_⟩
  have haway : s.stage = .away := by
    have hm := hinv.holder t
    have hwriter := hinv.writer t
    rcases ht with ⟨_, _, hpc⟩ | ⟨_, _, hpc⟩ <;> rw [hpc] at hm hwriter <;>
      simp [State.stage, State.current, hm trivial, hpc, Pc.stage?, hwriter.1]
  refine eq_none_iff_forall_ne_some.mpr fun g hg => ?_
  obtain ⟨idx, hholds⟩ := hinv.holds hg
  rw [haway] at hholds
  exact hholds

end PhoebusBsp.Fc

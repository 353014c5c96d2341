import Mathlib.Data.BitVec

/-! `wdg_timeout`: what a write to it does to the control register of the watchdog.

        bit   31   30-29    28-27   26-22   21-20   19-15   14-2   1-0
              E    CLK_SC   -       PH1     -       PH2     -      reset mode

    PH1 and PH2 are cleared before they are set; CLK_SC and the reset mode are only added to. The new PH1 is not
    cut to its five bits, so that what does not fit ends up in the bits to the left of it. -/

namespace PhoebusBsp.Watchdog

/-- The configured values, which are in range, and the register. -/
structure Wdt where
  wdgTimeout : BitVec 32
  wdgTimeoutPh2 : BitVec 5
  wdgClkSc : BitVec 2
  wdgRestMode : BitVec 2
  wdtctrlr : BitVec 32

/-- `set_rtk_wdt_ph1_threshold`. -/
def setRtkWdtPh1Threshold (s : Wdt) (sec : BitVec 32) : Wdt :=
  let reg := s.wdtctrlr
  let reg := reg &&& ~~~(0x1f#32 <<< 22)
  let reg := reg &&& ~~~(0x1f#32 <<< 15)
  let reg := reg ||| s.wdgTimeoutPh2.setWidth 32 <<< 15
  let reg := reg ||| s.wdgClkSc.setWidth 32 <<< 29
  let reg := reg ||| s.wdgRestMode.setWidth 32
  { s with wdtctrlr := reg ||| (if sec = 0 then 31#32 else sec) <<< 22 }

/-- `simple_strtoul(s, NULL, 10)`: the number at the front. -/
def simpleStrtoul (buf : List UInt8) : ℕ :=
  (buf.takeWhile fun c => 48 ≤ c ∧ c ≤ 57).foldl (fun n c => 10 * n + (c.toNat - 48)) 0

/-- The number that is written, in 32 bits: 15 characters are read. -/
def written (buf : List UInt8) : BitVec 32 := BitVec.ofNat 32 (simpleStrtoul (buf.take 15))

/-- `wdg_timeout_write`. -/
def wdgTimeoutWrite (s : Wdt) (buf : List UInt8) : Wdt :=
  setRtkWdtPh1Threshold { s with wdgTimeout := written buf } (written buf)

/-- In one of the four fields. -/
def Field (i : ℕ) : Prop := i < 2 ∨ 15 ≤ i ∧ i < 20 ∨ 22 ≤ i ∧ i < 27 ∨ 29 ≤ i ∧ i < 31

instance : DecidablePred Field := fun _ => inferInstanceAs (Decidable (_ ∨ _ ∨ _ ∨ _))

/-- The bits outside the fields are as before, and the other fields read as configured. -/
structure OnlyTimeout (s s' : Wdt) : Prop where
  outside : ∀ i < 32, ¬Field i → s'.wdtctrlr.getLsbD i = s.wdtctrlr.getLsbD i
  clkSc : s'.wdtctrlr.extractLsb' 29 2 = s.wdgClkSc
  ph2 : s'.wdtctrlr.extractLsb' 15 5 = s.wdgTimeoutPh2
  restMode : s'.wdtctrlr.extractLsb' 0 2 = s.wdgRestMode

/-- The number where the code puts it. -/
def placed (sec : BitVec 32) : BitVec 32 := (if sec = 0 then 31#32 else sec) <<< 22

/-- What the number has too many is set already, and CLK_SC and the reset mode have nothing but what is configured. -/
structure Settable (s : Wdt) (sec : BitVec 32) : Prop where
  spill : ∀ i < 32, ¬Field i → (placed sec).getLsbD i = true → s.wdtctrlr.getLsbD i = true
  clkSc : ∀ j < 2, (s.wdtctrlr ||| placed sec).getLsbD (29 + j) = true → s.wdgClkSc.getLsbD j = true
  restMode : ∀ j < 2, s.wdtctrlr.getLsbD j = true → s.wdgRestMode.getLsbD j = true

section Bits

variable {s : Wdt} {sec : BitVec 32} {i : ℕ}

/-- The register, bit by bit. -/
theorem getLsbD_set (hi : i < 32) :
    (setRtkWdtPh1Threshold s sec).wdtctrlr.getLsbD i =
      (s.wdtctrlr.getLsbD i && !decide (22 ≤ i ∧ i < 27) && !decide (15 ≤ i ∧ i < 20) ||
        !decide (i < 15) && s.wdgTimeoutPh2.getLsbD (i - 15) || !decide (i < 29) && s.wdgClkSc.getLsbD (i - 29) ||
        s.wdgRestMode.getLsbD i || (placed sec).getLsbD i) := by
  have hph1 : ∀ i < 32, (~~~(0x1f#32 <<< 22)).getLsbD i = !decide (22 ≤ i ∧ i < 27) := by decide
  have hph2 : ∀ i < 32, (~~~(0x1f#32 <<< 15)).getLsbD i = !decide (15 ≤ i ∧ i < 20) := by decide
  have hwide : ∀ n, decide (i - n < 32) = true := fun n => decide_eq_true (by omega)
  simp only [setRtkWdtPh1Threshold, placed, BitVec.getLsbD_or, BitVec.getLsbD_and, hph1 i hi, hph2 i hi,
    BitVec.getLsbD_shiftLeft, BitVec.getLsbD_setWidth, hwide, decide_eq_true hi, Bool.true_and]

theorem placed_low (hi : i < 22) : (placed sec).getLsbD i = false := by simp [placed, hi]

/-- The bits outside the fields are added to. -/
theorem getLsbD_outside (hi : i < 32) (hout : ¬Field i) :
    (setRtkWdtPh1Threshold s sec).wdtctrlr.getLsbD i = (s.wdtctrlr.getLsbD i || (placed sec).getLsbD i) := by
  rw [getLsbD_set hi]
  grind [Field]

theorem getLsbD_clkSc {j : ℕ} (hj : j < 2) :
    (setRtkWdtPh1Threshold s sec).wdtctrlr.getLsbD (29 + j) =
      ((s.wdtctrlr ||| placed sec).getLsbD (29 + j) || s.wdgClkSc.getLsbD j) := by
  rw [getLsbD_set (by omega), BitVec.getLsbD_or]
  grind

theorem getLsbD_ph2 {j : ℕ} (hj : j < 5) :
    (setRtkWdtPh1Threshold s sec).wdtctrlr.getLsbD (15 + j) = s.wdgTimeoutPh2.getLsbD j := by
  rw [getLsbD_set (by omega), placed_low (by omega)]
  grind

theorem getLsbD_restMode {j : ℕ} (hj : j < 2) :
    (setRtkWdtPh1Threshold s sec).wdtctrlr.getLsbD j = (s.wdtctrlr.getLsbD j || s.wdgRestMode.getLsbD j) := by
  rw [getLsbD_set (by omega), placed_low (by omega)]
  grind

/-- A field reads as configured if every bit does. -/
theorem extract_eq_iff {n w : ℕ} {x : BitVec 32} {y : BitVec w} :
    x.extractLsb' n w = y ↔ ∀ j < w, x.getLsbD (n + j) = y.getLsbD j := by
  rw [BitVec.eq_of_getLsbD_eq_iff]
  refine forall₂_congr fun j hj => ?_
  rw [BitVec.getLsbD_extractLsb', decide_eq_true hj, Bool.true_and]

end Bits

/-- For every number that is written and every register: only the timeout changes exactly when it is `Settable`. -/
theorem write_onlyTimeout_iff (s : Wdt) (buf : List UInt8) :
    OnlyTimeout s (wdgTimeoutWrite s buf) ↔ Settable s (written buf) := by
  have hadded : ∀ a b : Bool, (a || b) = a ↔ (b = true → a = true) := by decide
  have hkept : ∀ a b : Bool, (a || b) = b ↔ (a = true → b = true) := by decide
  constructor
  · rintro ⟨hout, hclk, -, hmode⟩
    refine ⟨fun i hi hf => ?_, fun j hj => ?_, fun j hj => ?_⟩
    · exact (hadded _ _).mp ((getLsbD_outside hi hf).symm.trans (hout i hi hf))
    · exact (hkept _ _).mp ((getLsbD_clkSc hj).symm.trans (extract_eq_iff.mp hclk j hj))
    · have hbit := extract_eq_iff.mp hmode j hj
      rw [Nat.zero_add] at hbit
      exact (hkept _ _).mp ((getLsbD_restMode hj).symm.trans hbit)
  · rintro ⟨hspill, hclk, hmode⟩
    refine ⟨fun i hi hf => ?_, extract_eq_iff.mpr fun j hj => ?_, extract_eq_iff.mpr fun j hj => getLsbD_ph2 hj,
      extract_eq_iff.mpr fun j hj => ?_⟩
    · exact (getLsbD_outside hi hf).trans ((hadded _ _).mpr (hspill i hi hf))
    · exact (getLsbD_clkSc hj).trans ((hkept _ _).mpr (hclk j hj))
    · rw [Nat.zero_add]
      exact (getLsbD_restMode hj).trans ((hkept _ _).mpr (hmode j hj))

/-- "512" arms a watchdog that is off. -/
theorem write_arms_watchdog :
    let s : Wdt := ⟨0, 0, 0, 0, 0⟩
    s.wdtctrlr.getLsbD 31 = false ∧ (wdgTimeoutWrite s [53, 49, 50]).wdtctrlr.getLsbD 31 = true := by
  decide

end PhoebusBsp.Watchdog

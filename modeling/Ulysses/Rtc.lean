import Ulysses.Lib.Calendar
import Ulysses.Lib.Word

/-!
# The clock

`init_clock` of `rtc.cpp`: the date and time of the real time clock as seconds since 1970.
The year begins in March, so that the leap day is its last one, and all arithmetic is that
of an `unsigned int`.
-/

namespace Ulysses.Rtc

open Lib Lib.Calendar

/-- `BCD_TO_BIN`. -/
def bcdToBin (val : Nat) : Nat := val % 16 + val / 16 * 10

/-- The century of a two-digit year. -/
def expandYear (year : Nat) : Nat := if year < 30 then year + 2000 else year + 1970

/-- January and February go to the year before, as months 11 and 12. -/
def shiftMonth (year mon : Nat) : Nat × Nat :=
  let mon := sub32 mon 2
  if 0 ≥ s32 mon then (sub32 year 1, add32 mon 12) else (year, mon)

/-- `year_day`, of the year and month from `shiftMonth`. -/
def yearDay (year mon day : Nat) : Nat :=
  sub32
    (add32
      (add32 (add32 (add32 (sub32 (year / 4) (year / 100)) (year / 400)) (mul32 367 mon / 12)) day)
      (mul32 year 365))
    719499

/-- `epoch`, from the full year on. -/
def epoch (year mon day hour min sec : Nat) : Nat :=
  let shifted := shiftMonth year mon
  let yearDay := yearDay shifted.1 shifted.2 day
  add32 sec (mul32 60 (add32 min (mul32 60 (add32 hour (mul32 24 yearDay)))))

/-- The registers of the clock, in binary coded decimals. -/
structure Cmos where
  sec : Nat
  min : Nat
  hour : Nat
  day : Nat
  mon : Nat
  year : Nat

/-- `init_clock`, to the value of `cur_sec`. -/
def initClock (c : Cmos) : Nat :=
  epoch (expandYear (bcdToBin c.year)) (bcdToBin c.mon) (bcdToBin c.day) (bcdToBin c.hour)
    (bcdToBin c.min) (bcdToBin c.sec)

/-! ## Seconds since 1970 -/

/-- A date of the calendar, from 1970 on, with a time of day. -/
structure Valid (year mon day hour min sec : Nat) : Prop where
  year_le : 1970 ≤ year
  mon_pos : 1 ≤ mon
  mon_le : mon ≤ 12
  day_pos : 1 ≤ day
  day_le : day ≤ daysInMonth year mon
  hour_lt : hour < 24
  min_lt : min < 60
  sec_lt : sec < 60

/-- The days since 1 January 1970. -/
def unixDay (year mon day : Nat) : Nat :=
  daysBeforeYear 1970 year + daysBeforeMonth year mon + (day - 1)

def unixTime (year mon day hour min sec : Nat) : Nat :=
  sec + 60 * (min + 60 * (hour + 24 * unixDay year mon day))

section

variable {year mon day : Nat}

theorem daysBeforeYear_1970 (h : 1970 ≤ year) :
    daysBeforeYear 1970 year + 719527 = 365 * year + leaps (year - 1) := by
  obtain ⟨n, rfl⟩ := Nat.exists_eq_add_of_le h
  have hdays : daysBeforeYear 1970 (1970 + n) + leaps 1969 = 365 * n + leaps (1969 + n) :=
    daysBeforeYear_eq
  have hleaps : leaps 1969 = 477 := rfl
  rw [show 1970 + n - 1 = 1969 + n by omega]
  omega

theorem yearDay_eq (hyear : year < 65536) (hmon : mon < 65536) (hday : day < 65536)
    (hle : 719499 ≤ leaps year + 367 * mon / 12 + day + year * 365) :
    yearDay year mon day = leaps year + 367 * mon / 12 + day + year * 365 - 719499 := by
  unfold leaps at hle
  unfold yearDay leaps
  rw [sub32_eq (show year / 100 ≤ year / 4 by omega) (by omega),
    add32_eq (show year / 4 - year / 100 + year / 400 < 4294967296 by omega),
    mul32_eq (show 367 * mon < 4294967296 by omega),
    mul32_eq (show year * 365 < 4294967296 by omega),
    add32_eq (show _ + 367 * mon / 12 < 4294967296 by omega),
    add32_eq (show _ + day < 4294967296 by omega),
    add32_eq (show _ + year * 365 < 4294967296 by omega), sub32_eq hle (by omega)]

theorem yearDay_shiftMonth (hyear : 1970 ≤ year) (hlt : year < 65536) (h1 : 1 ≤ mon)
    (h12 : mon ≤ 12) (hday : 1 ≤ day) (hday' : day < 65536) :
    yearDay (shiftMonth year mon).1 (shiftMonth year mon).2 day = unixDay year mon day := by
  have hyears := daysBeforeYear_1970 hyear
  unfold unixDay
  by_cases hmon : mon ≤ 2
  · have hshift : shiftMonth year mon = (year - 1, mon + 10) := by
      unfold shiftMonth
      rw [sub32_eq (show 1 ≤ year by omega) (by omega)]
      interval_cases mon <;> rfl
    have hmonths := daysBeforeMonth_january year h1 hmon
    rw [hshift]
    dsimp only
    rw [yearDay_eq (by omega) (by omega) (by omega) (by omega)]
    omega
  · have hshift : shiftMonth year mon = (year, mon - 2) := by
      simp only [shiftMonth]
      rw [sub32_eq (by omega) (by omega), s32_eq (by omega) (by omega), if_neg (by omega)]
    have hmonths := daysBeforeMonth_march year (by omega) h12
    have hleap := leaps_succ (year - 1)
    rw [Nat.sub_add_cancel (by omega)] at hleap
    rw [hshift]
    dsimp only
    rw [yearDay_eq (by omega) (by omega) (by omega) (by omega)]
    omega

theorem le_unixDay (h : 1970 ≤ year) (mon day : Nat) :
    365 * (year - 1970) ≤ unixDay year mon day := by
  have hyears := daysBeforeYear_1970 h
  have hleaps : 477 ≤ leaps (year - 1) := by
    unfold leaps
    omega
  unfold unixDay
  omega

theorem daysInMonth_le (year mon : Nat) : daysInMonth year mon ≤ 31 := by
  unfold daysInMonth leapDay
  split
  · split <;> omega
  · omega
  · omega
  · omega
  · omega
  · omega

theorem unixDay_lt (hyear : 1970 ≤ year) (hle : year < 2070) (h1 : 1 ≤ mon) (h12 : mon ≤ 12)
    (hday : day ≤ 31) : unixDay year mon day < 49000 := by
  have hyears := daysBeforeYear_1970 hyear
  have hleaps : leaps (year - 1) ≤ 525 := by
    unfold leaps
    omega
  have hmonths : daysBeforeMonth year mon ≤ 366 := by
    by_cases hmon : mon ≤ 2
    · have := daysBeforeMonth_january year h1 hmon
      omega
    · have hleap : leapDay year ≤ 1 := by
        unfold leapDay
        split <;> decide
      rw [daysBeforeMonth_march year (by omega) h12]
      omega
  unfold unixDay
  omega

/-- The seconds, when none of the additions and multiplications wraps. -/
theorem epoch_of_unixTime_lt {hour min sec : Nat} (h : Valid year mon day hour min sec)
    (hyear : year < 65536) (hlt : unixTime year mon day hour min sec < 4294967296) :
    epoch year mon day hour min sec = unixTime year mon day hour min sec := by
  have hday := h.day_le.trans (daysInMonth_le year mon)
  have hdate : yearDay (shiftMonth year mon).1 (shiftMonth year mon).2 day = unixDay year mon day :=
    yearDay_shiftMonth h.year_le hyear h.mon_pos h.mon_le h.day_pos (by omega)
  unfold unixTime at hlt ⊢
  unfold epoch
  dsimp only
  rw [hdate]
  generalize unixDay year mon day = days at hlt
  rw [mul32_eq (show 24 * days < 4294967296 by omega),
    add32_eq (show hour + 24 * days < 4294967296 by omega),
    mul32_eq (show 60 * (hour + 24 * days) < 4294967296 by omega),
    add32_eq (show min + 60 * (hour + 24 * days) < 4294967296 by omega),
    mul32_eq (show 60 * (min + 60 * (hour + 24 * days)) < 4294967296 by omega), add32_eq hlt]

end

/-- What the clock shows, with a year of two digits, is always in range. -/
theorem initClock_eq (c : Cmos) (hyear : bcdToBin c.year < 100)
    (h : Valid (expandYear (bcdToBin c.year)) (bcdToBin c.mon) (bcdToBin c.day) (bcdToBin c.hour)
      (bcdToBin c.min) (bcdToBin c.sec)) :
    initClock c = unixTime (expandYear (bcdToBin c.year)) (bcdToBin c.mon) (bcdToBin c.day)
      (bcdToBin c.hour) (bcdToBin c.min) (bcdToBin c.sec) := by
  have hexpand : expandYear (bcdToBin c.year) < 2070 := by
    unfold expandYear
    split <;> omega
  have hday := h.day_le.trans (daysInMonth_le _ _)
  have hdays := unixDay_lt h.year_le hexpand h.mon_pos h.mon_le hday
  refine epoch_of_unixTime_lt h (by omega) ?_
  have hhour := h.hour_lt
  have hmin := h.min_lt
  have hsec := h.sec_lt
  unfold unixTime
  omega

/-- **The clock**: for every date from 1970 on whose Unix time fits into 32 bits, `init_clock`
computes that time. -/
theorem epoch_eq {year mon day hour min sec : Nat} (h : Valid year mon day hour min sec)
    (hlt : unixTime year mon day hour min sec < 4294967296) :
    epoch year mon day hour min sec = unixTime year mon day hour min sec := by
  have hyears := le_unixDay h.year_le mon day
  refine epoch_of_unixTime_lt h ?_ hlt
  unfold unixTime at hlt
  omega

/-- The last second that fits. -/
theorem epoch_eq_last :
    Valid 2106 2 7 6 28 15 ∧ unixTime 2106 2 7 6 28 15 < 4294967296 ∧
    epoch 2106 2 7 6 28 15 = 4294967295 := by
  have hvalid : Valid 2106 2 7 6 28 15 := by constructor <;> decide
  have htime : unixTime 2106 2 7 6 28 15 = 4294967295 := by decide +kernel
  exact ⟨hvalid, htime ▸ by decide, (epoch_eq hvalid (htime ▸ by decide)).trans htime⟩

end Ulysses.Rtc

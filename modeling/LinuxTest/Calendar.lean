/-
The Gregorian calendar, carried back before its introduction: the days in
order, one after another from 1 January 1970, and the time of day.
-/
import Mathlib.Data.Int.ConditionallyCompleteOrder
import Mathlib.Data.Prod.Lex
import Mathlib.Order.Monotone.Basic
import Mathlib.Tactic.Linarith

namespace LinuxTest

def isLeap (year : Int) : Bool :=
  year % 4 = 0 ∧ (year % 100 ≠ 0 ∨ year % 400 = 0)

/-- The days of a month; months count from zero. -/
def daysIn (year : Int) (month : Fin 12) : Nat :=
  if month.val = 1 then if isLeap year then 29 else 28
  else if month.val = 3 ∨ month.val = 5 ∨ month.val = 8 ∨ month.val = 10 then 30
  else 31

theorem daysIn_pos (year : Int) (month : Fin 12) : 1 ≤ daysIn year month := by
  rw [daysIn]
  split_ifs <;> omega

theorem daysIn_le (year : Int) (month : Fin 12) :
    daysIn year month ≤ 31 := by
  rw [daysIn]
  split_ifs <;> omega

/-- A day of the calendar. -/
@[ext]
structure Date where
  year : Int
  month : Fin 12
  day : Nat
  day_pos : 1 ≤ day
  day_le : day ≤ daysIn year month

namespace Date

theorem month_pos : 0 < 12 := by
  decide

def january : Fin 12 := ⟨0, month_pos⟩

def december : Fin 12 := Fin.last 11

def tomorrow (d : Date) : Date :=
  if hday : d.day < daysIn d.year d.month then
    ⟨d.year, d.month, d.day + 1, Nat.le_add_left 1 d.day, hday⟩
  else if hmonth : d.month.val + 1 < 12 then
    ⟨d.year, ⟨d.month.val + 1, hmonth⟩, 1, le_refl 1, daysIn_pos _ _⟩
  else ⟨d.year + 1, january, 1, le_refl 1, daysIn_pos _ _⟩

theorem month_pred_lt (month : Fin 12) : month.val - 1 < 12 := by
  have := month.isLt
  omega

def yesterday (d : Date) : Date :=
  if hday : 1 < d.day then
    ⟨d.year, d.month, d.day - 1, Nat.le_sub_one_of_lt hday,
      (Nat.sub_le d.day 1).trans d.day_le⟩
  else if d.month.val = 0 then
    ⟨d.year - 1, december, daysIn (d.year - 1) december, daysIn_pos _ _,
      le_refl _⟩
  else
    ⟨d.year, ⟨d.month.val - 1, month_pred_lt d.month⟩,
      daysIn d.year ⟨d.month.val - 1, month_pred_lt d.month⟩, daysIn_pos _ _,
      le_refl _⟩

/-- Years, then months, then days. -/
def rank (d : Date) : ℤ ×ₗ ℕ ×ₗ ℕ :=
  toLex (d.year, toLex (d.month.val, d.day))

theorem rank_lt_tomorrow (d : Date) : d.rank < d.tomorrow.rank := by
  simp only [rank, Prod.Lex.toLex_lt_toLex]
  rw [tomorrow]
  split
  · simp
  split
  · simp
  · simp

theorem tomorrow_yesterday (d : Date) : d.yesterday.tomorrow = d := by
  rw [yesterday]
  split
  · case isTrue hday =>
      have hlt : d.day - 1 < daysIn d.year d.month := by
        have := d.day_le
        omega
      rw [tomorrow, dif_pos hlt]
      ext
      · rfl
      · rfl
      · change d.day - 1 + 1 = d.day
        omega
  · case isFalse hday =>
      have hone : d.day = 1 := le_antisymm (not_lt.mp hday) d.day_pos
      split
      · case isTrue hmonth =>
          have hlast : ¬ december.val + 1 < 12 := lt_irrefl 12
          rw [tomorrow, dif_neg (lt_irrefl _), dif_neg hlast]
          ext
          · change d.year - 1 + 1 = d.year
            omega
          · exact hmonth.symm
          · exact hone.symm
      · case isFalse hmonth =>
          have hback : d.month.val - 1 + 1 = d.month.val :=
            Nat.sub_one_add_one hmonth
          have hlt : d.month.val - 1 + 1 < 12 := by
            rw [hback]
            exact d.month.isLt
          rw [tomorrow, dif_neg (lt_irrefl _), dif_pos hlt]
          ext
          · rfl
          · exact hback
          · exact hone.symm

/-- 1 January 1970. -/
def epoch : Date := ⟨1970, january, 1, le_refl 1, daysIn_pos _ _⟩

/-- The day that comes so many days after the epoch. -/
def ofDays : Int → Date
  | .ofNat n => tomorrow^[n] epoch
  | .negSucc n => yesterday^[n + 1] epoch

theorem ofDays_succ (days : Int) :
    ofDays (days + 1) = (ofDays days).tomorrow := by
  cases days with
  | ofNat n => exact Function.iterate_succ_apply' tomorrow n epoch
  | negSucc n =>
      cases n with
      | zero => exact (tomorrow_yesterday epoch).symm
      | succ n =>
          change yesterday^[n + 1] epoch =
            (yesterday^[n + 1 + 1] epoch).tomorrow
          rw [Function.iterate_succ_apply' yesterday (n + 1),
            tomorrow_yesterday]

theorem rank_ofDays_strictMono : StrictMono fun days => (ofDays days).rank := by
  apply strictMono_int_of_lt_succ
  intro days
  rw [ofDays_succ]
  exact rank_lt_tomorrow (ofDays days)

end Date

/-- A second of the calendar. -/
structure Moment where
  date : Date
  hour : Nat
  minute : Nat
  second : Nat
  hour_lt : hour < 24
  minute_lt : minute < 60
  second_lt : second < 60

namespace Moment

theorem daySeconds_lt (seconds : Int) : (seconds % 86400).toNat < 86400 := by
  omega

/-- The second that comes so many seconds after the start of the epoch. -/
def ofSeconds (seconds : Int) : Moment where
  date := Date.ofDays (seconds / 86400)
  hour := (seconds % 86400).toNat / 3600
  minute := (seconds % 86400).toNat % 3600 / 60
  second := (seconds % 86400).toNat % 60
  hour_lt := Nat.div_lt_of_lt_mul (daySeconds_lt seconds)
  minute_lt := Nat.div_lt_of_lt_mul (Nat.mod_lt _ (Nat.zero_lt_succ 3599))
  second_lt := Nat.mod_lt _ (Nat.zero_lt_succ 59)

/-- From years down to seconds. -/
def rank (m : Moment) : ℤ ×ₗ ℕ ×ₗ ℕ ×ₗ ℕ ×ₗ ℕ ×ₗ ℕ :=
  toLex (m.date.year, toLex (m.date.month.val, toLex (m.date.day,
    toLex (m.hour, toLex (m.minute, m.second)))))

/-- Later seconds come later in the calendar. -/
theorem rank_ofSeconds_strictMono :
    StrictMono fun seconds => (ofSeconds seconds).rank := by
  intro first last hlt
  simp only [rank, ofSeconds, Prod.Lex.toLex_lt_toLex]
  rcases lt_or_eq_of_le (Int.ediv_le_ediv (by decide) hlt.le :
    first / 86400 ≤ last / 86400) with hdays | hdays
  · have hdate := Date.rank_ofDays_strictMono hdays
    simp only [Date.rank, Prod.Lex.toLex_lt_toLex] at hdate
    tauto
  · rw [hdays]
    simp only [lt_self_iff_false, true_and, false_or]
    omega

theorem rank_le_iff (first last : Int) :
    (ofSeconds first).rank ≤ (ofSeconds last).rank ↔ first ≤ last :=
  rank_ofSeconds_strictMono.le_iff_le

end Moment

end LinuxTest

import Mathlib.Order.Iterate
import Mathlib.Algebra.BigOperators.Intervals

/-! # Timestamps of the Gregorian calendar

A time is the number of its seconds since the start of 1970, in a zone whose clocks are
never changed. A timestamp has the date and the time of day in its fourteen digits, so that
timestamps are ordered as times are.
-/
namespace LogStats

structure Date where
  year : ℕ
  month : ℕ
  day : ℕ

namespace Date

def leapYear (year : ℕ) : Prop := year % 4 = 0 ∧ (year % 100 ≠ 0 ∨ year % 400 = 0)

instance (year : ℕ) : Decidable (leapYear year) := inferInstanceAs (Decidable (_ ∧ _))

def daysInMonth (year month : ℕ) : ℕ :=
  if month = 2 then if leapYear year then 29 else 28
  else if month = 4 ∨ month = 6 ∨ month = 9 ∨ month = 11 then 30
  else 31

def next (d : Date) : Date :=
  if d.day < daysInMonth d.year d.month then ⟨d.year,d.month,d.day + 1⟩
  else if d.month < 12 then ⟨d.year,d.month + 1,1⟩
  else ⟨d.year + 1,1,1⟩

structure Valid (d : Date) : Prop where
  month_pos : 1 ≤ d.month
  month_le : d.month ≤ 12
  day_pos : 1 ≤ d.day
  day_le : d.day ≤ daysInMonth d.year d.month
  year_ge : 1970 ≤ d.year

def number (d : Date) : ℕ := d.year * 10000 + d.month * 100 + d.day

def daysBeforeMonth (year month : ℕ) : ℕ := ∑ m ∈ Finset.range (month - 1), daysInMonth year (m + 1)

def daysBeforeYear (year : ℕ) : ℕ := ∑ y ∈ Finset.range (year - 1970), daysBeforeMonth (1970 + y) 13

/-- The days from the first of January 1970 on. -/
def days (d : Date) : ℕ := daysBeforeYear d.year + daysBeforeMonth d.year d.month + (d.day - 1)

section Next
variable {d : Date}

theorem daysInMonth_bounds (year month : ℕ) : 28 ≤ daysInMonth year month ∧ daysInMonth year month ≤ 31 := by
  unfold daysInMonth
  split_ifs <;> omega

theorem Valid.next (h : d.Valid) : d.next.Valid := by
  have hlen := fun m => (daysInMonth_bounds d.year m).1
  have hlen' := (daysInMonth_bounds (d.year + 1) 1).1
  obtain ⟨hm,hm',hd,hd',hy⟩ := h
  unfold Date.next
  split_ifs with hday hmonth
  · exact ⟨hm,hm',by simp,hday,hy⟩
  · exact ⟨by simp,hmonth,le_rfl,(by decide : 1 ≤ 28).trans (hlen _),hy⟩
  · exact ⟨le_rfl,by simp,le_rfl,(by decide : 1 ≤ 28).trans hlen',by simp only; omega⟩

theorem Valid.number_lt (h : d.Valid) : d.number < d.next.number := by
  have hmax := (daysInMonth_bounds d.year d.month).2
  obtain ⟨hm,hm',hd,hd',-⟩ := h
  unfold Date.next
  split_ifs <;> simp only [number] <;> omega

theorem Valid.days_next (h : d.Valid) : d.next.days = d.days + 1 := by
  obtain ⟨hm,hm',hd,hd',hy⟩ := h
  have hsucc : daysBeforeMonth d.year (d.month + 1) = daysBeforeMonth d.year d.month + daysInMonth d.year d.month := by
    obtain ⟨m,hm⟩ := Nat.exists_eq_add_of_le' hm
    rw [daysBeforeMonth, daysBeforeMonth, hm, Nat.add_sub_cancel, Nat.add_sub_cancel, Finset.sum_range_succ]
  unfold Date.next
  split_ifs with hday hmonth
  · simp only [days]
    omega
  · simp only [days, hsucc]
    omega
  · have htwelve : d.month = 12 := by omega
    rw [htwelve] at hsucc
    obtain ⟨y,hy⟩ := Nat.exists_eq_add_of_le hy
    have hyear : daysBeforeYear (d.year + 1) = daysBeforeYear d.year + daysBeforeMonth d.year 13 := by
      rw [daysBeforeYear, daysBeforeYear, hy, show 1970 + y + 1 - 1970 = y + 1 by omega,
        show 1970 + y - 1970 = y by omega, Finset.sum_range_succ]
    have hjanuary : daysBeforeMonth (d.year + 1) 1 = 0 := rfl
    simp only [days, hyear, hjanuary, hsucc, htwelve] at hday hd' ⊢
    omega

end Next

end Date

def dateOf (n : ℕ) : Date := Date.next^[n] ⟨1970,1,1⟩

theorem dateOf_succ (n : ℕ) : dateOf (n + 1) = (dateOf n).next := Function.iterate_succ_apply' _ _ _

theorem dateOf_valid (n : ℕ) : (dateOf n).Valid := by
  induction n with
  | zero => exact ⟨le_rfl,by decide,le_rfl,by decide,le_rfl⟩
  | succ n ih =>
    rw [dateOf_succ]
    exact ih.next

theorem days_dateOf (n : ℕ) : (dateOf n).days = n := by
  induction n with
  | zero => rfl
  | succ n ih => rw [dateOf_succ, (dateOf_valid n).days_next, ih]

theorem number_dateOf_strictMono : StrictMono fun n => (dateOf n).number :=
  strictMono_nat_of_lt_succ fun n => by
    rw [dateOf_succ]
    exact (dateOf_valid n).number_lt

/-! ## Timestamps -/

/-- The format `%Y%m%d%H%M%S`. -/
def strftime (t : ℕ) : ℕ :=
  (dateOf (t / 86400)).number * 1000000 + t % 86400 / 3600 * 10000 + t % 3600 / 60 * 100 + t % 60

def mktime (stamp : ℕ) : ℕ :=
  let date : Date := ⟨stamp / 10000000000,stamp / 100000000 % 100,stamp / 1000000 % 100⟩
  date.days * 86400 + stamp / 10000 % 100 * 3600 + stamp / 100 % 100 * 60 + stamp % 100

theorem strftime_strictMono : StrictMono strftime := by
  intro s t hst
  have hle : s / 86400 ≤ t / 86400 := Nat.div_le_div_right hst.le
  rcases hle.lt_or_eq with hlt | heq
  · have hnum := number_dateOf_strictMono hlt
    simp only [strftime]
    simp only at hnum
    omega
  · simp only [strftime, heq]
    omega

/-- The digits of a timestamp are read back. -/
theorem digits_read {year month day time : ℕ} (hm : month < 100) (hd : day < 100) (ht : time < 1000000) :
    ((year * 10000 + month * 100 + day) * 1000000 + time) / 10000000000 = year ∧
      ((year * 10000 + month * 100 + day) * 1000000 + time) / 100000000 % 100 = month ∧
      ((year * 10000 + month * 100 + day) * 1000000 + time) / 1000000 % 100 = day := by
  refine ⟨?_,?_,?_⟩ <;> omega

theorem mktime_strftime (t : ℕ) : mktime (strftime t) = t := by
  obtain ⟨hm,hm',hd,hd',-⟩ := dateOf_valid (t / 86400)
  have hmax := (Date.daysInMonth_bounds (dateOf (t / 86400)).year (dateOf (t / 86400)).month).2
  have hdays := days_dateOf (t / 86400)
  let time := t % 86400 / 3600 * 10000 + t % 3600 / 60 * 100 + t % 60
  have hstamp : strftime t = (dateOf (t / 86400)).number * 1000000 + time := by
    simp only [strftime, time]
    omega
  have htime : time < 1000000 ∧ time / 10000 * 3600 + time / 100 % 100 * 60 + time % 100 = t % 86400 := by
    simp only [time]
    omega
  generalize time = c at hstamp htime
  rw [Date.number] at hstamp
  obtain ⟨hyear,hmonth,hday⟩ := @digits_read (dateOf (t / 86400)).year _ _ _
    (show (dateOf (t / 86400)).month < 100 by omega) (show (dateOf (t / 86400)).day < 100 by omega) htime.1
  simp only [mktime, hstamp, hyear, hmonth, hday, hdays]
  omega

end LogStats

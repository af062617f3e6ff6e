import OpenPubusb.Calendar
import OpenPubusb.Policy

/-! The publish times that dead letters carry are calendar dates: the arithmetic of
`civil_from_days` stays in range, finds the date of the day, and a printed time reads back
as itself. -/

namespace OpenPubusb

open Calendar

def inI64 (x : Int) : Option Int := if i64Min ≤ x ∧ x ≤ i64Max then some x else none

def inU64 (x : Int) : Option Nat := if 0 ≤ x ∧ x < 2 ^ 64 then some x.toNat else none

def inU32 (x : Nat) : Option Nat := if x < 2 ^ 32 then some x else none

def yearOfEraChecked (doe : Nat) : Option Nat := do
  let a ← inU64 ((doe : Int) - (doe / 1460 : Nat))
  let b ← inU64 ((a : Int) + (doe / 36524 : Nat))
  let c ← inU64 ((b : Int) - (doe / 146096 : Nat))
  some (c / 365)

def dayOfYearChecked (doe yoe : Nat) : Option Nat := do
  let a ← inU64 (365 * (yoe : Int))
  let b ← inU64 ((a : Int) + (yoe / 4 : Nat))
  let c ← inU64 ((b : Int) - (yoe / 100 : Nat))
  inU64 ((doe : Int) - c)

def marchMonthChecked (doy : Nat) : Option Nat := do
  let a ← inU64 (5 * (doy : Int))
  let b ← inU64 ((a : Int) + 2)
  some (b / 153)

def dayChecked (doy mp : Nat) : Option Nat := do
  let a ← inU64 (153 * (mp : Int))
  let b ← inU64 ((a : Int) + 2)
  let c ← inU64 ((doy : Int) - (b / 5 : Nat))
  let d ← inU64 ((c : Int) + 1)
  inU32 d

/-- `civil_from_days`, which fails at the first step that leaves its type. -/
def civilFromDaysChecked (z : Int) : Option (Int × Nat × Nat) := do
  let z ← inI64 (z + 719468)
  let shifted ← (if 0 ≤ z then some z else inI64 (z - 146096))
  let era ← inI64 (shifted.tdiv 146097)
  let first ← inI64 (era * 146097)
  let rest ← inI64 (z - first)
  let doe ← inU64 rest
  let yoe ← yearOfEraChecked doe
  let years ← inI64 (era * 400)
  let y ← inI64 ((yoe : Int) + years)
  let doy ← dayOfYearChecked doe yoe
  let mp ← marchMonthChecked doy
  let day ← dayChecked doy mp
  let wide ← (if mp < 10 then inU64 ((mp : Int) + 3) else inU64 ((mp : Int) - 9))
  let month ← inU32 wide
  let year ← (if month ≤ 2 then inI64 (y + 1) else some y)
  some (year, month, day)

section Civil

variable {doe doy : Nat}

/-- A day of the 400-year era, by century, by leap cycle, by year and by day: years start
in March. -/
theorem era_split (h : doe < 146097) : ∃ c a b r, doe = 36524 * c + 1461 * a + 365 * b + r ∧
    c < 4 ∧ a < 25 ∧ b < 4 ∧ r ≤ 365 ∧ (r = 365 → b = 3 ∧ (a = 24 → c = 3)) := by
  refine ⟨min 3 (doe / 36524), min 24 ((doe - 36524 * min 3 (doe / 36524)) / 1461), ?_⟩
  have hc : min 3 (doe / 36524) < 4 := by omega
  have hlo : 36524 * min 3 (doe / 36524) ≤ doe := by omega
  have hhi : doe - 36524 * min 3 (doe / 36524) ≤ 36524 ∧
      (doe - 36524 * min 3 (doe / 36524) = 36524 → min 3 (doe / 36524) = 3) := by omega
  generalize min 3 (doe / 36524) = c at hc hlo hhi
  obtain ⟨e, rfl⟩ : ∃ e, doe = 36524 * c + e := ⟨doe - 36524 * c, by omega⟩
  rw [Nat.add_sub_cancel_left] at hhi ⊢
  have ha : min 24 (e / 1461) < 25 := by omega
  have hlo' : 1461 * min 24 (e / 1461) ≤ e := by omega
  have hhi' : e - 1461 * min 24 (e / 1461) ≤ 1460 ∧
      (e - 1461 * min 24 (e / 1461) = 1460 → min 24 (e / 1461) = 24 → e = 36524) := by omega
  generalize min 24 (e / 1461) = a at ha hlo' hhi'
  obtain ⟨f, rfl⟩ : ∃ f, e = 1461 * a + f := ⟨e - 1461 * a, by omega⟩
  rw [Nat.add_sub_cancel_left] at hhi'
  exact ⟨min 3 (f / 365), f - 365 * min 3 (f / 365), by omega, hc, ha, by omega, by omega,
    fun hr => ⟨by omega, fun ha24 => by omega⟩⟩

def yearOfEra (doe : Nat) : Nat := (doe - doe / 1460 + doe / 36524 - doe / 146096) / 365

def dayOfYear (doe : Nat) : Nat :=
  doe - (365 * yearOfEra doe + yearOfEra doe / 4 - yearOfEra doe / 100)

theorem yearOfEra_eq {c a b r : Nat} (hc : c < 4) (ha : a < 25) (hb : b < 4) (hr : r ≤ 365)
    (hleap : r = 365 → b = 3 ∧ (a = 24 → c = 3)) :
    yearOfEra (36524 * c + 1461 * a + 365 * b + r) = 100 * c + 4 * a + b := by
  obtain ⟨n, hn⟩ : ∃ n, n = 36524 * c + 1461 * a + 365 * b + r := ⟨_, rfl⟩
  have hcentury : n / 36524 - n / 146096 = c ∧ n / 146096 ≤ n / 36524 := by omega
  have hcycle : n / 1460 = 25 * c + a + (24 * c + a + 365 * b + r) / 1460 := by omega
  have hover : (24 * c + a + 365 * b + r) / 1460 ≤ 1 := by omega
  unfold yearOfEra
  rw [← hn]
  have hsum : n - n / 1460 + n / 36524 - n / 146096 =
      365 * (100 * c + 4 * a + b) + (r - (24 * c + a + 365 * b + r) / 1460) := by omega
  rw [hsum]
  omega

theorem yearOfEra_spec (h : doe < 146097) : yearOfEra doe < 400 ∧
    doe + yearOfEra doe / 100 =
      365 * yearOfEra doe + yearOfEra doe / 4 + dayOfYear doe ∧
    dayOfYear doe ≤ 365 ∧ (dayOfYear doe = 365 → IsLeap ((yearOfEra doe : Int) + 1)) := by
  obtain ⟨c, a, b, r, rfl, hc, ha, hb, hr, hleap⟩ := era_split h
  have hyear := yearOfEra_eq hc ha hb hr hleap
  have hfour : (100 * c + 4 * a + b) / 4 = 25 * c + a := by omega
  have hhundred : (100 * c + 4 * a + b) / 100 = c := by omega
  have hday : dayOfYear (36524 * c + 1461 * a + 365 * b + r) = r := by
    rw [dayOfYear, hyear, hfour, hhundred]
    omega
  rw [hday, hyear, hfour, hhundred]
  refine ⟨by omega, by omega, hr, fun hlast => ?_⟩
  obtain ⟨hb3, hc3⟩ := hleap hlast
  subst hb3
  unfold IsLeap
  omega

/-- The date of a day in a year that starts in March. -/
def marchDate (y : Int) (doy : Nat) : Date :=
  let mp := (5 * doy + 2) / 153
  let month := if mp < 10 then mp + 3 else mp - 9
  ⟨if month ≤ 2 then y + 1 else y, month, doy - (153 * mp + 2) / 5 + 1⟩

theorem march_months {mp : Nat} (y : Int) (h : mp < 10) :
    daysBeforeMonth y (mp + 3) = 31 + monthLength y 2 + (153 * mp + 2) / 5 ∧
      monthLength y (mp + 3) = (153 * (mp + 1) + 2) / 5 - (153 * mp + 2) / 5 := by
  interval_cases mp <;>
    simp [daysBeforeMonth, Finset.sum_range_succ, monthLength, Nat.add_comm, Nat.add_left_comm]

theorem marchDate_spec {y : Int} (hdoy : doy ≤ 365) (hleap : doy = 365 → IsLeap (y + 1)) :
    (marchDate y doy).Valid ∧
      (marchDate y doy).dayNumber = daysBeforeYear (y + 1) - 306 + doy := by
  have hmp : (5 * doy + 2) / 153 < 12 := by omega
  have hlo : (153 * ((5 * doy + 2) / 153) + 2) / 5 ≤ doy := by omega
  have hhi : doy < (153 * ((5 * doy + 2) / 153 + 1) + 2) / 5 := by omega
  unfold marchDate
  generalize (5 * doy + 2) / 153 = mp at hmp hlo hhi
  by_cases hten : mp < 10
  · obtain ⟨hbefore, hlength⟩ := march_months y hten
    have hyear := daysBeforeYear_succ y
    have hfeb : (59 : Int) + (yearLength y - 365) = 31 + monthLength y 2 := by
      unfold yearLength monthLength
      split_ifs <;> rfl
    have hmonth : ¬ mp + 3 ≤ 2 := by omega
    simp only [if_pos hten, if_neg hmonth]
    refine ⟨valid_mk (by omega) (by omega) (by omega), ?_⟩
    rw [dayNumber_mk, hbefore]
    omega
  · have hmonth : mp - 9 ≤ 2 := by omega
    simp only [if_neg hten, if_pos hmonth]
    have hcase : mp = 10 ∨ mp = 11 := by omega
    rcases hcase with rfl | rfl
    · have hjan : monthLength (y + 1) (10 - 9) = 31 := rfl
      have hbefore : daysBeforeMonth (y + 1) (10 - 9) = 0 := rfl
      refine ⟨valid_mk (by decide) (by omega) (by omega), ?_⟩
      rw [dayNumber_mk, hbefore]
      omega
    · have hfeb : 28 ≤ monthLength (y + 1) 2 ∧ (IsLeap (y + 1) → monthLength (y + 1) 2 = 29) := by
        unfold monthLength
        split_ifs with hl
        · exact ⟨by decide, fun _ => rfl⟩
        · exact ⟨le_rfl, fun h => absurd h hl⟩
      have hbefore : daysBeforeMonth (y + 1) (11 - 9) = 31 := rfl
      refine ⟨valid_mk (by decide) (by omega) ?_, ?_⟩
      · change _ ≤ monthLength (y + 1) 2
        by_cases hlast : doy = 365
        · rw [hfeb.2 (hleap hlast)]
          omega
        · omega
      · rw [dayNumber_mk, hbefore]
        omega

def civilDate (d : Int) : Date := ⟨(civilFromDays d).1, (civilFromDays d).2.1, (civilFromDays d).2.2⟩

theorem era_eq (z : Int) : (if 0 ≤ z then z else z - 146096).tdiv 146097 = z / 146097 := by
  by_cases hz : 0 ≤ z
  · rw [if_pos hz, Int.tdiv_eq_ediv_of_nonneg hz]
  · have hneg : (z - 146096).tdiv 146097 = -((146096 - z) / 146097) := by
      rw [← neg_sub, Int.neg_tdiv, Int.tdiv_eq_ediv_of_nonneg (by omega)]
    rw [if_neg hz, hneg]
    omega

theorem civilDate_eq (d : Int) : civilDate d =
    marchDate (yearOfEra ((d + 719468) % 146097).toNat + (d + 719468) / 146097 * 400)
      (dayOfYear ((d + 719468) % 146097).toNat) := by
  have hdoe : (d + 719468) - (d + 719468) / 146097 * 146097 = (d + 719468) % 146097 := by omega
  unfold civilDate civilFromDays
  simp only [era_eq, hdoe]
  rfl

theorem civilDate_spec (d : Int) : (civilDate d).Valid ∧ (civilDate d).dayNumber = d := by
  obtain ⟨hyear, hsum, hday, hleap⟩ := @yearOfEra_spec ((d + 719468) % 146097).toNat (by omega)
  have hz : d + 719468 = (d + 719468) / 146097 * 146097 + ((d + 719468) % 146097).toNat := by omega
  rw [civilDate_eq]
  generalize (d + 719468) / 146097 = era at hz
  generalize ((d + 719468) % 146097).toNat = doe at *
  generalize yearOfEra doe = yoe at *
  generalize dayOfYear doe = doy at *
  obtain ⟨hvalid, hnumber⟩ := @marchDate_spec doy (yoe + era * 400) hday fun hlast => by
    have hl := hleap hlast
    unfold IsLeap at hl ⊢
    omega
  refine ⟨hvalid, ?_⟩
  rw [hnumber, daysBeforeYear_eq]
  omega

theorem inI64_eq {x : Int} (h : -2 ^ 60 ≤ x ∧ x ≤ 2 ^ 60) : inI64 x = some x := by
  refine if_pos ?_
  unfold i64Min i64Max
  omega

theorem inU64_eq {x : Int} (n : Nat) (h : x = n) (hn : n < 2 ^ 64) : inU64 x = some n := by
  rw [inU64, if_pos (by omega), h, Int.toNat_natCast]

theorem inU32_eq {n : Nat} (h : n < 2 ^ 32) : inU32 n = some n := if_pos h

theorem some_bind {α β : Type} (a : α) (f : α → Option β) : (some a >>= f) = f a := rfl

theorem yearOfEraChecked_eq (h : doe < 146097) :
    yearOfEraChecked doe = some (yearOfEra doe) := by
  unfold yearOfEraChecked yearOfEra
  rw [inU64_eq (doe - doe / 1460) (by omega) (by omega), some_bind,
    inU64_eq (doe - doe / 1460 + doe / 36524) (by omega) (by omega), some_bind,
    inU64_eq (doe - doe / 1460 + doe / 36524 - doe / 146096) (by omega) (by omega), some_bind]

theorem dayOfYearChecked_eq (h : doe < 146097) :
    dayOfYearChecked doe (yearOfEra doe) = some (dayOfYear doe) := by
  obtain ⟨hyear, hsum, hday, _⟩ := yearOfEra_spec h
  unfold dayOfYear at hsum hday ⊢
  generalize yearOfEra doe = yoe at *
  unfold dayOfYearChecked
  rw [inU64_eq (365 * yoe) (by omega) (by omega), some_bind,
    inU64_eq (365 * yoe + yoe / 4) (by omega) (by omega), some_bind,
    inU64_eq (365 * yoe + yoe / 4 - yoe / 100) (by omega) (by omega), some_bind]
  exact inU64_eq _ (by omega) (by omega)

theorem marchMonthChecked_eq (h : doy ≤ 365) :
    marchMonthChecked doy = some ((5 * doy + 2) / 153) := by
  unfold marchMonthChecked
  rw [inU64_eq (5 * doy) (by omega) (by omega), some_bind,
    inU64_eq (5 * doy + 2) (by omega) (by omega), some_bind]

theorem dayChecked_eq {mp : Nat} (h : doy ≤ 365) (hmp : mp = (5 * doy + 2) / 153) :
    dayChecked doy mp = some (doy - (153 * mp + 2) / 5 + 1) := by
  unfold dayChecked
  rw [inU64_eq (153 * mp) (by omega) (by omega), some_bind,
    inU64_eq (153 * mp + 2) (by omega) (by omega), some_bind,
    inU64_eq (doy - (153 * mp + 2) / 5) (by omega) (by omega), some_bind,
    inU64_eq (doy - (153 * mp + 2) / 5 + 1) (by omega) (by omega), some_bind]
  exact inU32_eq (by omega)

theorem civilFromDaysChecked_eq {d : Int} (h : -2 ^ 40 ≤ d ∧ d ≤ 2 ^ 40) :
    civilFromDaysChecked d = some (civilFromDays d) := by
  have hshift : (if 0 ≤ d + 719468 then some (d + 719468) else inI64 (d + 719468 - 146096)) =
      some (if 0 ≤ d + 719468 then d + 719468 else d + 719468 - 146096) := by
    split_ifs
    · rfl
    · exact inI64_eq (by omega)
  have hrest : (d + 719468) - (d + 719468) / 146097 * 146097 = (d + 719468) % 146097 := by omega
  obtain ⟨doe, hdoe, hlt⟩ : ∃ doe : Nat, (d + 719468) % 146097 = doe ∧ doe < 146097 :=
    ⟨((d + 719468) % 146097).toNat, by omega, by omega⟩
  obtain ⟨hyear, _, hday, _⟩ := yearOfEra_spec hlt
  have hera : -2 ^ 30 ≤ (d + 719468) / 146097 ∧ (d + 719468) / 146097 ≤ 2 ^ 30 := by omega
  have hcivil : civilFromDays d =
      ((civilDate d).year, (civilDate d).month, (civilDate d).day) := rfl
  have hmp : (5 * dayOfYear doe + 2) / 153 < 12 := by omega
  have hnat : ((doe : Int)).toNat = doe := Int.toNat_natCast doe
  rw [hcivil, civilDate_eq, hdoe, hnat]
  unfold civilFromDaysChecked marchDate
  rw [inI64_eq (by omega), some_bind, hshift, some_bind, era_eq]
  generalize (d + 719468) / 146097 = era at hrest hera ⊢
  rw [inI64_eq (by omega), some_bind, inI64_eq (by omega), some_bind, inI64_eq (by omega),
    some_bind, hrest, hdoe, inU64_eq doe rfl (by omega), some_bind, yearOfEraChecked_eq hlt,
    some_bind, inI64_eq (by omega), some_bind, inI64_eq (by omega), some_bind,
    dayOfYearChecked_eq hlt, some_bind, marchMonthChecked_eq hday, some_bind,
    dayChecked_eq hday rfl, some_bind]
  generalize (5 * dayOfYear doe + 2) / 153 = mp at hmp ⊢
  have hmonth : (if mp < 10 then inU64 ((mp : Int) + 3) else inU64 ((mp : Int) - 9)) =
      some (if mp < 10 then mp + 3 else mp - 9) := by
    split_ifs
    · exact inU64_eq _ (by omega) (by omega)
    · exact inU64_eq _ (by omega) (by omega)
  have hnarrow : (if mp < 10 then mp + 3 else mp - 9) < 2 ^ 32 := by
    split_ifs <;> omega
  rw [hmonth, some_bind, inU32_eq hnarrow, some_bind]
  have hyears : (if (if mp < 10 then mp + 3 else mp - 9) ≤ 2
      then inI64 ((yearOfEra doe : Int) + era * 400 + 1) else
        some ((yearOfEra doe : Int) + era * 400)) =
      some (if (if mp < 10 then mp + 3 else mp - 9) ≤ 2
        then (yearOfEra doe : Int) + era * 400 + 1 else (yearOfEra doe : Int) + era * 400) := by
    rw [inI64_eq (by omega)]
    split_ifs <;> rfl
  rw [hyears, some_bind]

end Civil

/-- `format_rfc3339_ms`, which fails at the first step that leaves its type. -/
def formatRfc3339MsChecked (ms : Int) : Option String := do
  let millis ← inI64 (ms.emod 1000)
  let secsTotal ← inI64 (ms.ediv 1000)
  let days ← inI64 (secsTotal.ediv 86400)
  let secsOfDay ← inI64 (secsTotal.emod 86400)
  let date ← civilFromDaysChecked days
  let hour ← inI64 (secsOfDay.tdiv 3600)
  let minute ← inI64 ((secsOfDay.tmod 3600).tdiv 60)
  let second ← inI64 (secsOfDay.tmod 60)
  some (paddedYear date.1 ++ "-" ++ padded 2 date.2.1 ++ "-" ++ padded 2 date.2.2 ++ "T" ++
    padded 2 hour.toNat ++ ":" ++ padded 2 minute.toNat ++ ":" ++ padded 2 second.toNat ++ "." ++
    padded 3 millis.toNat ++ "Z")

section Printing

def readDigits (width : Nat) (cs : List Char) : Option (Nat × List Char) :=
  if (cs.take width).length = width ∧ (cs.take width).all Char.isDigit then
    some (Nat.ofDigitChars 10 (cs.take width) 0, cs.drop width)
  else none

def readChar (c : Char) : List Char → Option (List Char)
  | [] => none
  | x :: cs => if x = c then some cs else none

/-- The milliseconds of a time `YYYY-MM-DDThh:mm:ss.mmmZ`. -/
def parseRfc3339Ms (s : String) : Option Int := do
  let (year, cs) ← readDigits 4 s.toList
  let cs ← readChar '-' cs
  let (month, cs) ← readDigits 2 cs
  let cs ← readChar '-' cs
  let (day, cs) ← readDigits 2 cs
  let cs ← readChar 'T' cs
  let (hour, cs) ← readDigits 2 cs
  let cs ← readChar ':' cs
  let (minute, cs) ← readDigits 2 cs
  let cs ← readChar ':' cs
  let (second, cs) ← readDigits 2 cs
  let cs ← readChar '.' cs
  let (millis, cs) ← readDigits 3 cs
  let cs ← readChar 'Z' cs
  if cs = [] ∧ (⟨year, month, day⟩ : Date).Valid ∧ hour < 24 ∧ minute < 60 ∧ second < 60 then
    some ((((⟨year, month, day⟩ : Date).dayNumber * 24 + hour) * 60 + minute) * 60000 +
      second * 1000 + millis)
  else none

theorem toList_padded (width n : Nat) : (padded width n).toList =
    List.replicate (width - (Nat.toDigits 10 n).length) '0' ++ Nat.toDigits 10 n := by
  unfold padded
  rw [String.toList_append, String.toList_ofList, Nat.toList_repr, Nat.repr_eq_ofList_toDigits,
    String.length_ofList]

theorem readDigits_padded {width n : Nat} (hwidth : 0 < width) (h : n < 10 ^ width)
    (cs : List Char) : readDigits width ((padded width n).toList ++ cs) = some (n, cs) := by
  have hlen : (padded width n).toList.length = width := by
    have hle := (Nat.length_toDigits_le_iff (b := 10) (n := n) (by decide) hwidth).mpr h
    rw [toList_padded, List.length_append, List.length_replicate]
    omega
  have hdigits : (padded width n).toList.all Char.isDigit = true := by
    rw [toList_padded, List.all_append, Bool.and_eq_true, List.all_eq_true, List.all_eq_true]
    refine ⟨fun c hc => ?_, fun c hc => Nat.isDigit_of_mem_toDigits (by decide) (by decide) hc⟩
    rw [(List.mem_replicate.mp hc).2]
    rfl
  have hvalue : Nat.ofDigitChars 10 (padded width n).toList 0 = n := by
    rw [toList_padded, Nat.ofDigitChars_append, Nat.ofDigitChars_replicate_zero, Nat.mul_zero,
      Nat.ofDigitChars_ten_toDigits]
  have htake : ((padded width n).toList ++ cs).take width = (padded width n).toList := by
    rw [List.take_append_of_le_length hlen.ge, List.take_of_length_le hlen.le]
  have hdrop : ((padded width n).toList ++ cs).drop width = cs := by
    rw [List.drop_append_of_le_length hlen.ge, List.drop_of_length_le hlen.le, List.nil_append]
  rw [readDigits, htake, hdrop, if_pos ⟨hlen, hdigits⟩, hvalue]

theorem readChar_cons (c : Char) (cs : List Char) : readChar c (c :: cs) = some cs := if_pos rfl

end Printing

theorem formatRfc3339Ms_eq {ms : Int} {n k : Nat} (hn : ms / 1000 % 86400 = n)
    (hk : ms % 1000 = k) : formatRfc3339Ms ms =
      paddedYear (civilDate (ms / 1000 / 86400)).year ++ "-" ++
      padded 2 (civilDate (ms / 1000 / 86400)).month ++ "-" ++
      padded 2 (civilDate (ms / 1000 / 86400)).day ++ "T" ++ padded 2 (n / 3600) ++ ":" ++
      padded 2 (n % 3600 / 60) ++ ":" ++ padded 2 (n % 60) ++ "." ++ padded 3 k ++ "Z" := by
  have hsecs : (ms.ediv 1000).emod 86400 = n := hn
  have hmillis : ms.emod 1000 = k := hk
  have hdays : ms / 1000 / 86400 = (ms.ediv 1000).ediv 86400 := rfl
  unfold formatRfc3339Ms civilDate
  rw [hdays]
  simp only [hsecs, hmillis, Int.toNat_natCast]

theorem formatRfc3339MsChecked_eq {ms : Int} (hms : i64Min ≤ ms ∧ ms ≤ i64Max) :
    formatRfc3339MsChecked ms = some (formatRfc3339Ms ms) := by
  unfold i64Min i64Max at hms
  obtain ⟨n, hn⟩ : ∃ n : Nat, ms / 1000 % 86400 = n :=
    Int.eq_ofNat_of_zero_le (Int.emod_nonneg _ (by decide))
  obtain ⟨k, hk⟩ : ∃ k : Nat, ms % 1000 = k :=
    Int.eq_ofNat_of_zero_le (Int.emod_nonneg _ (by decide))
  have hn' : (ms.ediv 1000).emod 86400 = n := hn
  have hk' : ms.emod 1000 = k := hk
  have hlt : n < 86400 := by omega
  have hmillis : k < 1000 := by omega
  have hsecs : -2 ^ 60 ≤ ms.ediv 1000 ∧ ms.ediv 1000 ≤ 2 ^ 60 := by
    change -2 ^ 60 ≤ ms / 1000 ∧ ms / 1000 ≤ 2 ^ 60
    omega
  have hdays : -2 ^ 40 ≤ (ms.ediv 1000).ediv 86400 ∧ (ms.ediv 1000).ediv 86400 ≤ 2 ^ 40 := by
    change -2 ^ 40 ≤ ms / 1000 / 86400 ∧ ms / 1000 / 86400 ≤ 2 ^ 40
    omega
  have hhour : (n : Int).tdiv 3600 = (n / 3600 : Nat) := rfl
  have hminute : ((n : Int).tmod 3600).tdiv 60 = (n % 3600 / 60 : Nat) := rfl
  have hsecond : (n : Int).tmod 60 = (n % 60 : Nat) := rfl
  rw [formatRfc3339Ms_eq hn hk]
  unfold formatRfc3339MsChecked
  rw [inI64_eq (by omega), some_bind, inI64_eq hsecs, some_bind, inI64_eq (by omega), some_bind,
    hn', inI64_eq (by omega), some_bind, civilFromDaysChecked_eq hdays, some_bind, hhour, hminute,
    hsecond, inI64_eq (by omega), some_bind, inI64_eq (by omega), some_bind, inI64_eq (by omega),
    some_bind, hk']
  simp only [Int.toNat_natCast]
  rfl

theorem parseRfc3339Ms_format {ms : Int} (hlo : 0 ≤ (civilDate (ms / 1000 / 86400)).year)
    (hhi : (civilDate (ms / 1000 / 86400)).year ≤ 9999) :
    parseRfc3339Ms (formatRfc3339Ms ms) = some ms := by
  obtain ⟨hvalid, hnumber⟩ := civilDate_spec (ms / 1000 / 86400)
  obtain ⟨year, hyear⟩ := Int.eq_ofNat_of_zero_le hlo
  obtain ⟨n, hn⟩ : ∃ n : Nat, ms / 1000 % 86400 = n :=
    Int.eq_ofNat_of_zero_le (Int.emod_nonneg _ (by decide))
  obtain ⟨k, hk⟩ : ∃ k : Nat, ms % 1000 = k :=
    Int.eq_ofNat_of_zero_le (Int.emod_nonneg _ (by decide))
  generalize hdate : civilDate (ms / 1000 / 86400) = date at hvalid hnumber hyear hhi
  obtain ⟨y, month, day⟩ := date
  simp only at hyear hhi
  subst hyear
  have hmonth : month < 100 := by
    have hle := hvalid.month.2
    simp only at hle
    omega
  have hday : day < 100 := by
    have hle := hvalid.day.2
    have hlength := monthLength_le (year : Int) month
    simp only at hle
    omega
  have hfour : paddedYear (year : Int) = padded 4 year := if_pos (Int.natCast_nonneg year)
  have hlist : (formatRfc3339Ms ms).toList = (padded 4 year).toList ++ '-' ::
      ((padded 2 month).toList ++ '-' :: ((padded 2 day).toList ++ 'T' ::
      ((padded 2 (n / 3600)).toList ++ ':' :: ((padded 2 (n % 3600 / 60)).toList ++ ':' ::
      ((padded 2 (n % 60)).toList ++ '.' :: ((padded 3 k).toList ++ ['Z'])))))) := by
    rw [formatRfc3339Ms_eq hn hk, hdate, hfour]
    simp [String.toList_append]
  unfold parseRfc3339Ms
  rw [hlist, readDigits_padded (by decide) (by omega), some_bind]
  simp only []
  rw [readChar_cons, some_bind, readDigits_padded (by decide) (by omega), some_bind]
  simp only []
  rw [readChar_cons, some_bind, readDigits_padded (by decide) (by omega), some_bind]
  simp only []
  rw [readChar_cons, some_bind, readDigits_padded (by decide) (by omega), some_bind]
  simp only []
  rw [readChar_cons, some_bind, readDigits_padded (by decide) (by omega), some_bind]
  simp only []
  rw [readChar_cons, some_bind, readDigits_padded (by decide) (by omega), some_bind]
  simp only []
  rw [readChar_cons, some_bind, readDigits_padded (by decide) (by omega), some_bind]
  simp only []
  rw [readChar_cons, some_bind, if_pos ⟨rfl, hvalid, by omega, by omega, by omega⟩, hnumber]
  have hms : ((ms / 1000 / 86400 * 24 + (n / 3600 : Nat)) * 60 + (n % 3600 / 60 : Nat)) * 60000 +
      (n % 60 : Nat) * 1000 + k = ms := by omega
  rw [hms]

/-- Printing a time stays in range, its day is the one date with that number, and a
four-digit year reads back. -/
theorem publish_times_exact (ms : Int) (hms : i64Min ≤ ms ∧ ms ≤ i64Max) :
    formatRfc3339MsChecked ms = some (formatRfc3339Ms ms) ∧
    (∀ d, (civilDate d).Valid ∧ (civilDate d).dayNumber = d ∧
      ∀ date : Date, date.Valid → date.dayNumber = d → date = civilDate d) ∧
    (0 ≤ (civilDate (ms / 1000 / 86400)).year → (civilDate (ms / 1000 / 86400)).year ≤ 9999 →
      parseRfc3339Ms (formatRfc3339Ms ms) = some ms) := by
  refine ⟨formatRfc3339MsChecked_eq hms, fun d => ?_, parseRfc3339Ms_format⟩
  obtain ⟨hvalid, hnumber⟩ := civilDate_spec d
  refine ⟨hvalid, hnumber, fun date hdate heq => ?_⟩
  exact hdate.eq_of_dayNumber hvalid (heq.trans hnumber.symm)

theorem publish_times_exact_leap_day :
    formatRfc3339Ms 951868799999 = "2000-02-29T23:59:59.999Z" ∧
      formatRfc3339MsChecked 951868799999 = some (formatRfc3339Ms 951868799999) ∧
      parseRfc3339Ms (formatRfc3339Ms 951868799999) = some 951868799999 := by
  have hms : i64Min ≤ 951868799999 ∧ 951868799999 ≤ i64Max := by decide
  obtain ⟨hchecked, _, hparse⟩ := publish_times_exact 951868799999 hms
  exact ⟨by decide, hchecked, hparse (by decide) (by decide)⟩

end OpenPubusb

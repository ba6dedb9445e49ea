import NosqlFS.Source.Log

/-!
# The name of a day's log

`log_open` prints month, day and year without padding into a buffer of thirty bytes.
The name fits for every year of four digits, and no two days share one.
-/

namespace NosqlFS

open Text

/-- The year `log_open` prints. -/
def Tm.year (p : Tm) : Int := p.tmYear + 1900

/-- The two times lie on one day. -/
def SameDay (p q : Tm) : Prop := p.year = q.year ∧ p.tmMon = q.tmMon ∧ p.tmMday = q.tmMday

def dash : UInt8 := byteOf '-'

/-- The text of the format with decimals of any length. -/
def dayName (month day year : Nat) : Bytes :=
  ascii "../log/nosqlFS_" ++ (numeral 10 month ++ dash :: (numeral 10 day ++ dash ::
    (numeral 10 year ++ ascii ".log")))

theorem parse_logNameFormat : parse logNameFormat =
    (ascii "../log/nosqlFS_").map .literal ++ .convert ⟨false, 0, false⟩ .signed ::
      .literal dash :: .convert ⟨false, 0, false⟩ .signed :: .literal dash ::
      .convert ⟨false, 0, false⟩ .signed :: ((ascii ".log").map .literal ++ []) := by
  decide

/-- As long as an `int` holds the year, the name is the text of the format. -/
theorem logName_eq {p : Tm} (later : 0 ≤ p.year) (held : p.year < 2 ^ 31) :
    logName p = dayName (p.tmMon + 1) p.tmMday p.year.toNat := by
  have mon := p.monBound
  have mday := p.mdayBound
  have year : p.tmYear + 1900 = (p.year.toNat : Int) := (Int.toNat_of_nonneg later).symm
  have month : (p.tmMon : Int) + 1 = (p.tmMon + 1 : Nat) := rfl
  rw [logName, render, parse_logNameFormat, renderPieces_literals, year, month]
  simp only [renderPieces]
  rw [convert_natural (by omega), convert_natural (by omega), convert_natural (by omega),
    renderPieces_literals]
  simp only [renderPieces, List.append_nil, dayName]

theorem dash_notMem_numeral (n : Nat) : dash ∉ numeral 10 n :=
  notMem_numeral (by decide) (by decide) n

theorem dayName_inj {month day year month' day' year' : Nat} :
    dayName month day year = dayName month' day' year' ↔
      year = year' ∧ month = month' ∧ day = day' := by
  constructor
  · intro same
    obtain ⟨months, rest⟩ := append_separator_inj (dash_notMem_numeral _)
      (dash_notMem_numeral _) (List.append_cancel_left same)
    obtain ⟨days, rest⟩ := append_separator_inj (dash_notMem_numeral _)
      (dash_notMem_numeral _) rest
    exact ⟨numeral_injective (List.append_cancel_right rest), numeral_injective months,
      numeral_injective days⟩
  · rintro ⟨rfl, rfl, rfl⟩
    rfl

theorem dayName_length_le {month day year : Nat} (months : month < 100) (days : day < 100)
    (years : year < 10000) : (dayName month day year).length + 1 ≤ logNameSize := by
  have monthDigits : (numeral 10 month).length ≤ 2 :=
    (numeral_length_le_iff (by decide) (by decide)).mpr months
  have dayDigits : (numeral 10 day).length ≤ 2 :=
    (numeral_length_le_iff (by decide) (by decide)).mpr days
  have yearDigits : (numeral 10 year).length ≤ 4 :=
    (numeral_length_le_iff (by decide) (by decide)).mpr years
  have front : (ascii "../log/nosqlFS_").length = 15 := by decide
  have back : (ascii ".log").length = 4 := by decide
  simp only [dayName, List.length_append, List.length_cons, front, back, logNameSize]
  omega

/-- The text of the format for a time, its year of any length. -/
def Tm.dayName (p : Tm) : Bytes := NosqlFS.dayName (p.tmMon + 1) p.tmMday p.year.toNat

theorem Tm.dayName_inj {p q : Tm} (later : 0 ≤ p.year) (laterToo : 0 ≤ q.year) :
    p.dayName = q.dayName ↔ SameDay p q := by
  rw [Tm.dayName, Tm.dayName, NosqlFS.dayName_inj, SameDay]
  refine and_congr ?_ (and_congr_left' Nat.succ_inj)
  omega

theorem logName_length_le {p : Tm} (later : 0 ≤ p.year) (fourDigits : p.year ≤ 9999) :
    (logName p).length + 1 ≤ logNameSize := by
  have mon := p.monBound
  have mday := p.mdayBound
  rw [logName_eq later (by omega)]
  exact dayName_length_le (by omega) (by omega) (by omega)

theorem logName_inj {p q : Tm} (later : 0 ≤ p.year) (held : p.year < 2 ^ 31)
    (laterToo : 0 ≤ q.year) (heldToo : q.year < 2 ^ 31) :
    logName p = logName q ↔ SameDay p q := by
  rw [logName_eq later held, logName_eq laterToo heldToo]
  exact Tm.dayName_inj later laterToo

/-- The name fits its buffer in every year of at most four digits and identifies the
day in every year that an `int` holds; it is then the text of the format, which
identifies the day in years of any length. -/
theorem logName_identifies_day :
    (∀ p : Tm, 0 ≤ p.year → p.year ≤ 9999 → (logName p).length + 1 ≤ logNameSize) ∧
    (∀ p q : Tm, 0 ≤ p.year → p.year < 2 ^ 31 → 0 ≤ q.year → q.year < 2 ^ 31 →
      (logName p = logName q ↔ SameDay p q)) ∧
    (∀ p : Tm, 0 ≤ p.year → p.year < 2 ^ 31 → logName p = p.dayName) ∧
    ∀ p q : Tm, 0 ≤ p.year → 0 ≤ q.year → (p.dayName = q.dayName ↔ SameDay p q) :=
  ⟨fun _ later fourDigits => logName_length_le later fourDigits,
    fun _ _ later held laterToo heldToo => logName_inj later held laterToo heldToo,
    fun _ later held => logName_eq later held,
    fun _ _ later laterToo => Tm.dayName_inj later laterToo⟩

/-- The last day of the last year for which the buffer is large enough. -/
def lastDay : Tm :=
  ⟨59, 59, 23, 31, 11, 8099, by decide, by decide, by decide, by decide, by decide⟩

theorem lastDay_fits : (logName lastDay).length + 1 ≤ logNameSize :=
  logName_identifies_day.1 lastDay (by decide) (by decide)

example : (logName lastDay).length + 1 = logNameSize := by decide

end NosqlFS

import Quarry.Text

/-!
Times of entries of a journal. A time is counted in milliseconds from the beginning of 1970 on, and
written as a date and a time of day in universal time. A journal has one file for each date.
-/

namespace Quarry.Journal

structure Date where
  year : Nat
  month : Nat
  day : Nat
deriving DecidableEq, Repr

/-- The date that lies some days after the beginning of 1970. Years are counted from March on, so
that the day that leap years add is the last of its year; 146097 days make four hundred years. -/
def Date.ofDays (days : Nat) : Date :=
  let shifted := days + 719468
  let ofEra := shifted % 146097
  let yearOfEra := (ofEra - ofEra / 1460 + ofEra / 36524 - ofEra / 146096) / 365
  let ofYear := ofEra - (365 * yearOfEra + yearOfEra / 4 - yearOfEra / 100)
  let monthFromMarch := (5 * ofYear + 2) / 153
  let month := if monthFromMarch < 10 then monthFromMarch + 3 else monthFromMarch - 9
  { year := yearOfEra + shifted / 146097 * 400 + (if month ≤ 2 then 1 else 0)
    month
    day := ofYear - (153 * monthFromMarch + 2) / 5 + 1 }

def digits (width n : Nat) : Text :=
  let ds := Text.ofNat n
  List.replicate (width - ds.length) 48 ++ ds

def Date.text (d : Date) : Text :=
  Text.join [45] [digits 4 d.year, digits 2 d.month, digits 2 d.day]

def dateOf (milliseconds : Nat) : Date := .ofDays (milliseconds / 86400000)

def timeText (milliseconds : Nat) : Text :=
  let seconds := milliseconds / 1000
  Text.concat [(dateOf milliseconds).text, "T", digits 2 (seconds / 3600 % 24), ":",
    digits 2 (seconds / 60 % 60), ":", digits 2 (seconds % 60), ".", digits 3 (milliseconds % 1000),
    "Z"]

/-- The name of the file that an entry of a time belongs to. -/
def fileName (milliseconds : Nat) : Text := Text.concat [(dateOf milliseconds).text, ".log"]

/-- The leap day of the year 2000. -/
example : Date.ofDays 11016 = ⟨2000, 2, 29⟩ := by decide

example : Date.ofDays 0 = ⟨1970, 1, 1⟩ := by decide

end Quarry.Journal

import Mathlib.Tactic
import Orbistoun.Libc.Clock.Civil

/-! # Broken-down times

A count of seconds since the epoch broken down into a calendar structure, and counted again from
one whose fields are carried, each into the next. The guest's local time is the universal one.
Nothing is answered where an operation overflows or an index is out of range, which ends a checked
build.
-/

namespace Orbistoun.Libc.Clock

open Orbistoun.Lib Signed Gregorian

/-- The nine integer fields, in order; months are counted from zero and years from 1900. -/
structure Fields where
  sec : Int32
  min : Int32
  hour : Int32
  mday : Int32
  mon : Int32
  year : Int32
  wday : Int32
  yday : Int32
  isdst : Int32
  deriving DecidableEq

/-- The guest's structure: the fields, the offset from universal time and the zone's name. -/
structure Tm extends Fields where
  gmtoff : Int64
  zone : UInt64
  deriving DecidableEq

/-- Days before the first of each month in a common year. -/
def BEFORE : List Int := [0, 31, 59, 90, 120, 151, 181, 212, 243, 273, 304, 334]

def index (table : List α) (i : Int) : Option α := if i < 0 then none else table[i.toNat]?

def yday (year month day : Int) : Option Int := do
  let leap := decide (year.tmod 4 = 0 ∧ year.tmod 100 ≠ 0 ∨ year.tmod 400 = 0)
  let before ← index BEFORE (← sub I32 month 1)
  let count ← add I32 before (← sub I32 day 1)
  (if leap && month > 2 then add I32 count 1 else some count : Option Int)

def brokenDown (secs : Int) : Option Fields := do
  let days := secs / 86400
  let rem := secs % 86400
  let wday := (← add I64 days 4) % 7
  let (year, month, day) ← civilFromDays days
  let mon ← sub I32 month 1
  let since ← sub I64 year 1900
  let yday ← yday year month day
  return {
    sec := Int32.ofInt (rem.tmod 60)
    min := Int32.ofInt ((rem.tmod 3600).tdiv 60)
    hour := Int32.ofInt (rem.tdiv 3600)
    mday := Int32.ofInt day
    mon := Int32.ofInt mon
    year := Int32.ofInt since
    wday := Int32.ofInt wday
    yday := Int32.ofInt yday
    isdst := 0 }

/-- The thread's own structure, cleared before it is filled. -/
def fillTm (fields : Fields) : Tm := { fields with gmtoff := 0, zone := 0 }

/-- A caller's structure written over; its zone's name is left as it was. -/
def writeTm (tm : Tm) (fields : Fields) : Tm := { fields with gmtoff := 0, zone := tm.zone }

/-- The broken-down time a null or a time answers with; `gmtime` is the same function. -/
def localtime : Option Int64 → Option (Option Tm)
  | none => some none
  | some seconds => do
    let fields ← brokenDown seconds.toInt
    return some (fillTm fields)

/-- `gmtime_s` and `localtime_s`, whose result is the caller's structure. -/
def breakdownS : Option Int64 → Option Tm → Option (Option Tm)
  | none, _ => some none
  | some _, none => some none
  | some seconds, some result => do
    let fields ← brokenDown seconds.toInt
    return some (writeTm result fields)

/-- The count of seconds a structure denotes, as a machine word, and the structure normalised. -/
def mktime : Option Tm → Option (UInt64 × Option Tm)
  | none => some (0 - 1, none)
  | some tm => do
    let year ← add I64 (← add I64 1900 tm.year.toInt) (tm.mon.toInt / 12)
    let first ← daysFromCivil year (← add I64 (tm.mon.toInt % 12) 1) 1
    let days ← sub I64 (← add I64 first tm.mday.toInt) 1
    let hours ← add I64 (← mul I64 days 86400) (← mul I64 tm.hour.toInt 3600)
    let minutes ← add I64 hours (← mul I64 tm.min.toInt 60)
    let seconds ← add I64 minutes tm.sec.toInt
    let fields ← brokenDown seconds
    return ((Int64.ofInt seconds).toUInt64, some (writeTm tm fields))

/-! ## Rendering -/

def DAY_NAME : List String := ["Sun", "Mon", "Tue", "Wed", "Thu", "Fri", "Sat"]

def MONTH_NAME : List String :=
  ["Jan", "Feb", "Mar", "Apr", "May", "Jun", "Jul", "Aug", "Sep", "Oct", "Nov", "Dec"]

/-- A number right-aligned in a width. -/
def spaced (width : Nat) (x : Int) : List Char := (toString x).toList.leftpad width ' '

def zeroed (width : Nat) (x : Int) : List Char :=
  if x < 0 then '-' :: (toString x.natAbs).toList.leftpad (width - 1) '0'
  else (toString x.natAbs).toList.leftpad width '0'

/-- What a structure renders as, cut to the buffer less its terminator. -/
def asctime : Option Tm → Option (Option (List Char))
  | none => some none
  | some tm => do
    let day ← index DAY_NAME (tm.wday.toInt % 7)
    let month ← index MONTH_NAME (tm.mon.toInt % 12)
    let year ← add I32 tm.year.toInt 1900
    let text := day.toList ++ ' ' :: month.toList ++ spaced 3 tm.mday.toInt ++
      ' ' :: zeroed 2 tm.hour.toInt ++ ':' :: zeroed 2 tm.min.toInt ++
      ':' :: zeroed 2 tm.sec.toInt ++ ' ' :: (toString year).toList ++ ['\n']
    return some (text.take 63)

example : (localtime (some 951782400)).bind (fun tm => (asctime tm).bind (fun text =>
    text.map String.ofList)) = some "Tue Feb 29 00:00:00 2000\n" := by
  decide +kernel

end Orbistoun.Libc.Clock

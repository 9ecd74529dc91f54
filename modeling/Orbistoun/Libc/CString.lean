import Orbistoun.Lib.ByteMemory
import Orbistoun.Lib.Terminated

/-! # Guest strings

What the library reads of a string in the guest's memory: up to its terminator, and never
past a limit.
-/

namespace Orbistoun.Libc

open Orbistoun.Lib.ByteMemory (Memory)
open Orbistoun.Lib.Terminated

/-- Longest string the library walks before it gives up. -/
def MAX_STRING : Nat := 64 * 1024 * 1024

def isNul (b : UInt8) : Bool := b == 0

/-- `c_len`. -/
def cLen (m : Memory) (address : Nat) : Nat :=
  if address = 0 then 0 else (upTo isNul MAX_STRING (fun i => m (address + i))).length

/-- As many bytes from an address as `c_len` counts. -/
def bytes (m : Memory) (address : Nat) : List UInt8 :=
  if address = 0 then [] else (List.range (cLen m address)).map (fun i => m (address + i))

def IsString (m : Memory) (address : Nat) (text : List UInt8) : Prop :=
  Holds isNul (fun i => m (address + i)) text

/-- What the library reads of a string. -/
def readable (text : List UInt8) : List UInt8 := text.take MAX_STRING

/-- The bytes are those before the terminator, as far as the limit. -/
theorem bytes_eq_upTo {m : Memory} {address : Nat} (h : address ≠ 0) :
    bytes m address = upTo isNul MAX_STRING (fun i => m (address + i)) := by
  unfold bytes cLen
  rw [if_neg h, if_neg h]
  apply List.ext_getElem
  · rw [List.length_map, List.length_range]
  · intro i hi hi'
    rw [List.getElem_map, List.getElem_range, upTo_getElem _ _ hi']

theorem bytes_of_isString {m : Memory} {address : Nat} {text : List UInt8} (h : address ≠ 0)
    (hstring : IsString m address text) (hplain : ∀ b ∈ text, isNul b = false) :
    bytes m address = readable text := by
  rw [bytes_eq_upTo h, readable]
  exact hstring.upTo_eq_take hplain MAX_STRING

/-- A string within the limit is read whole. -/
theorem readable_eq {text : List UInt8} (h : text.length ≤ MAX_STRING) : readable text = text :=
  List.take_of_length_le h

end Orbistoun.Libc

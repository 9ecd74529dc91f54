import Orbistoun.Libc.ScanNumber

/-! # The directives of `sscanf`

What ISO C has each directive of a format do to the input position, the destinations and the
stores, and the runs in which the loop does the same.
-/

namespace Orbistoun.Libc.Scan

open Orbistoun.Lib.Numerals
open Orbistoun.Libc.Strtol (afterSpace isAsciiWhitespace isSpace_eq sign)

/-! ## A format as its directives -/

structure IsoState where
  /-- How much of the input has been read. -/
  at' : Nat
  assigned : Nat
  /-- Whether a conversion has completed. -/
  converted : Bool
  /-- How many destinations and sizes have been taken. -/
  next : Nat
  writes : List Write
  deriving DecidableEq, Repr

inductive IsoNext where
  | goes (s : IsoState)
  | stops (answer : Nat) (writes : List Write)
  deriving DecidableEq, Repr

namespace IsoState

/-- The input ended: `EOF` unless a conversion has completed. -/
def inputFailure (s : IsoState) : IsoNext :=
  .stops (if s.converted then s.assigned else NO_INPUT) s.writes

def matchingFailure (s : IsoState) (writes : List Write) : IsoNext :=
  .stops s.assigned (s.writes ++ writes)

end IsoState

/-- The characters of the width, one without one. -/
def isoCharacterItem (rest : Text) (suppress : Bool) (width destination : Nat)
    (room : Option Nat) : Option Nat × List Write :=
  let count := max 1 width
  if rest.length < count ∨ room.any (· < count) then (none, [])
  else (some count, if suppress then [] else writeBytes destination (rest.take count))

def isoStringItem (rest : Text) (suppress : Bool) (width destination : Nat)
    (room : Option Nat) : Option Nat × List Write :=
  let run := rest.takeWhile (fun b => !isSpace b)
  let item := if 0 < width then run.take width else run
  if room.any (fun room => room ≤ item.length) then
    (none, if room = some 0 then [] else writeBytes destination [0])
  else (some item.length, if suppress then [] else writeBytes destination (item ++ [0]))

section

variable (parseFloat parseDouble : Text → Option Text)

-- The arguments behind the format, in order.
variable (arguments : Nat → Nat)

/-- The item of a conversion and what it stores, from the first character it may read. -/
def isoItemOf (rest : Text) (suppress : Bool) (width : Nat) (long : Bool) (wanted : Wanted)
    (destination : Nat) (room : Option Nat) : Option Nat × List Write :=
  match wanted with
  | .character => isoCharacterItem rest suppress width destination room
  | .string => isoStringItem rest suppress width destination room
  | wanted => item parseFloat parseDouble rest suppress width long wanted destination room

/-- The first argument a conversion leaves. -/
def nextArgument (sized suppress : Bool) (wanted : Wanted) (next : Nat) : Nat :=
  if suppress then next else if takesSize sized wanted then next + 2 else next + 1

def isoConvert (input : Text) (sized suppress : Bool) (width : Nat) (long : Bool)
    (wanted : Wanted) (s : IsoState) : IsoNext :=
  let destination := if suppress then 0 else arguments s.next
  let room :=
    if !suppress && takesSize sized wanted then some (arguments (s.next + 1)) else none
  let rest := input.drop s.at'
  -- White space is skipped for every conversion but `%c`.
  let spaces := if wanted = .character then 0 else (rest.takeWhile isSpace).length
  if rest.drop spaces = [] then s.inputFailure
  else
    match isoItemOf parseFloat parseDouble (rest.drop spaces) suppress width long wanted
        destination room with
    | (none, writes) => s.matchingFailure writes
    | (some taken, writes) =>
        .goes
          { at' := s.at' + spaces + taken
            assigned := if suppress then s.assigned else s.assigned + 1
            converted := true
            next := nextArgument sized suppress wanted s.next
            writes := s.writes ++ writes }

/-- A character of the input that must be there. -/
def isoMatch (b : UInt8) (input : Text) (at' : Nat) (s : IsoState) : IsoNext :=
  match input[at']? with
  | none => s.inputFailure
  | some x => if x = b then .goes { s with at' := at' + 1 } else s.matchingFailure []

def isoStep (input : Text) (sized : Bool) (d : Directive) (s : IsoState) : IsoNext :=
  let rest := input.drop s.at'
  match d with
  | .space => .goes { s with at' := s.at' + (rest.takeWhile isSpace).length }
  | .literal b => isoMatch b input s.at' s
  | .percent => isoMatch 37 input (s.at' + (rest.takeWhile isSpace).length) s
  | .unreadable => s.matchingFailure []
  | .convert suppress width long wanted =>
      if wanted = .count then
        .goes { s with
          next := nextArgument sized suppress wanted s.next
          writes := s.writes ++
            if suppress then [] else writeBytes (arguments s.next) (storedCount s.at' long) }
      else isoConvert parseFloat parseDouble arguments input sized suppress width long wanted s

/-- The destinations the code can reach from an argument on. -/
def reached (count next : Nat) : List Nat := (List.range' next (count - next)).map arguments

def IsoState.code (count : Nat) (s : IsoState) : State :=
  ⟨s.at', s.assigned, reached arguments count s.next, s.writes⟩

def IsoNext.code (count : Nat) : IsoNext → Next
  | .goes s => .goes (s.code arguments count)
  | .stops answer writes => .stops answer writes

def after (input : Text) (sized : Bool) : List Directive → State → Option State
  | [], s => some s
  | d :: ds, s =>
      match step parseFloat parseDouble input sized d s with
      | .stops _ _ => none
      | .goes s => after input sized ds s

def walk (input : Text) (sized : Bool) : List Directive → State → Nat × List Write
  | [], s => (s.assigned, s.writes)
  | d :: ds, s =>
      match step parseFloat parseDouble input sized d s with
      | .stops answer writes => (answer, writes)
      | .goes s => walk input sized ds s

/-- The input lasts: something is left of it, or a conversion has completed. -/
def Lasts (left : Text) (s : IsoState) : Prop := left = [] → s.converted

def stringRun (rest : Text) (width : Nat) : Text :=
  let run := rest.takeWhile (fun b => !isAsciiWhitespace b)
  if 0 < width then run.take width else run

/-- What a conversion's input must be like. -/
def ConversionMeets (rest : Text) (width : Nat) (room : Option Nat) (s : IsoState) :
    Wanted → Prop
  | .count => True
  | .character => Lasts rest s ∧ (rest ≠ [] → room ≠ some 0 → width ≤ 1)
  -- The code skips nothing before a string.
  | .string =>
      Lasts (afterSpace rest) s ∧ (room ≠ some 0 →
        (afterSpace rest ≠ [] → rest.takeWhile isSpace = []) ∧ 11 ∉ stringRun rest width)
  | _ =>
      Lasts (afterSpace rest) s ∧ (afterSpace rest ≠ [] → (afterAscii rest).head? ≠ some 11)

/-- The size that follows a conversion's destination. -/
def roomOf (sized suppress : Bool) (wanted : Wanted) (next : Nat) : Option Nat :=
  if !suppress && takesSize sized wanted then some (arguments (next + 1)) else none

/-- What a directive's input must be like. -/
def StepMeets (count : Nat) (input : Text) (sized : Bool) (d : Directive) (s : IsoState) : Prop :=
  let rest := input.drop s.at'
  match d with
  | .space => (afterAscii rest).head? ≠ some 11
  | .literal _ => Lasts rest s
  | .percent =>
      Lasts (afterSpace rest) s ∧ ((afterSpace rest).head? = some 37 → rest.head? = some 37)
  | .unreadable => True
  | .convert suppress width _ wanted =>
      (suppress ∨ nextArgument sized suppress wanted s.next ≤ count) ∧
        ConversionMeets rest width (roomOf arguments sized suppress wanted s.next) s wanted

/-- Each directive reached in the start of a format is that of the whole format, and does with
the start of the input that is read what it does with the whole input. -/
def Decided (input : Text) (sized : Bool) : List Directive → List Directive → IsoState → Prop
  | [], [], _ => True
  | d :: ds, d' :: ds', s =>
      d' = d ∧
        isoStep parseFloat parseDouble arguments input sized d s =
          isoStep parseFloat parseDouble arguments (readable input) sized d s ∧
        match isoStep parseFloat parseDouble arguments input sized d s with
        | .stops _ _ => True
        | .goes s => Decided input sized ds ds' s
  | _, _, _ => False

/-- Every directive that is reached meets its condition. -/
def RunMeets (count : Nat) (input : Text) (sized : Bool) : List Directive → IsoState → Prop
  | [], _ => True
  | d :: ds, s =>
      StepMeets arguments count input sized d s ∧
        match isoStep parseFloat parseDouble arguments input sized d s with
        | .stops _ _ => True
        | .goes s => RunMeets count input sized ds s

instance (left : Text) (s : IsoState) : Decidable (Lasts left s) :=
  inferInstanceAs (Decidable (_ → _))

instance decidableConversionMeets (rest : Text) (width : Nat) (room : Option Nat)
    (s : IsoState) : ∀ wanted, Decidable (ConversionMeets rest width room s wanted)
  | .count => inferInstanceAs (Decidable True)
  | .character => inferInstanceAs (Decidable (_ ∧ (_ → _ → _)))
  | .string => inferInstanceAs (Decidable (_ ∧ (_ → (_ → _) ∧ _)))
  | .integer _ | .unsigned _ | .float => inferInstanceAs (Decidable (_ ∧ (_ → _)))

instance decidableStepMeets (count : Nat) (input : Text) (sized : Bool) (s : IsoState) :
    ∀ d, Decidable (StepMeets arguments count input sized d s)
  | .space => inferInstanceAs (Decidable (_ ≠ _))
  | .literal _ => inferInstanceAs (Decidable (Lasts _ _))
  | .percent => inferInstanceAs (Decidable (_ ∧ (_ → _)))
  | .unreadable => inferInstanceAs (Decidable True)
  | .convert _ _ _ _ => inferInstanceAs (Decidable ((_ ∨ _) ∧ _))

instance decidableRunMeets (count : Nat) (input : Text) (sized : Bool) :
    ∀ ds s, Decidable (RunMeets parseFloat parseDouble arguments count input sized ds s)
  | [], _ => inferInstanceAs (Decidable True)
  | d :: ds, s =>
      haveI : Decidable (match isoStep parseFloat parseDouble arguments input sized d s with
          | .stops _ _ => True
          | .goes s => RunMeets parseFloat parseDouble arguments count input sized ds s) :=
        match isoStep parseFloat parseDouble arguments input sized d s with
        | .stops _ _ => inferInstanceAs (Decidable True)
        | .goes s => decidableRunMeets count input sized ds s
      inferInstanceAs (Decidable (_ ∧ _))

/-- What a conversion skips before its item. -/
def skipped (wanted : Wanted) (rest : Text) : Nat :=
  if wanted = .character then 0 else (rest.takeWhile isSpace).length

section Conversions

variable {rest : Text} {width : Nat} {room : Option Nat} {s : IsoState}

end Conversions

def IsoState.start : IsoState := ⟨0, 0, false, 0, []⟩

end

end Orbistoun.Libc.Scan

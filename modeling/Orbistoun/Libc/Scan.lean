import Orbistoun.Lib.Codes
import Orbistoun.Libc.Strtol

/-! # Reading a formatted string

`sscanf` walks its format by directives: white space, a character that must match itself, a
conversion that reads an item and stores it where the next destination says. What an item
stores is recorded as a write; nothing is read back.
-/

namespace Orbistoun.Libc.Scan

open Orbistoun.Lib.Numerals
open Orbistoun.Lib.Codes (littleEndian littleEndian_length)
open Orbistoun.Libc.Strtol (isAsciiWhitespace isoSigned isoUnsigned sign)

/-! ## The format -/

/-- One thing a format asked for. -/
inductive Wanted where
  | integer (base : Nat)
  | unsigned (base : Nat)
  | string
  | character
  | float
  | count
  deriving DecidableEq, Repr

/-- How many bytes the destination holds, for the numeric kinds. -/
def Wanted.width (w : Wanted) (long : Bool) : Nat :=
  match w with
  | .string | .character => 1
  | .integer _ | .unsigned _ | .float | .count => if long then 8 else 4

def isAsciiDigit (b : UInt8) : Bool := 48 ≤ b && b ≤ 57

/-- `usize::MAX`. -/
def largest : Nat := 2 ^ 64 - 1

def fieldWidth : Nat → Text → Nat × Text
  | width, digit :: rest =>
      if isAsciiDigit digit then
        fieldWidth (min (min (width * 10) largest + (digit.toNat - 48)) largest) rest
      else (width, digit :: rest)
  | width, [] => (width, [])

/-- One of `l`, `h`, `z`, `j`, `t`, `L`. -/
def isModifier (b : UInt8) : Bool :=
  b == 108 || b == 104 || b == 122 || b == 106 || b == 116 || b == 76

/-- Whether the length modifiers include `l`, and what is left of the format. -/
def lengthModifiers : Bool → Text → Bool × Text
  | long, b :: rest =>
      if isModifier b then lengthModifiers (long || b == 108) rest else (long, b :: rest)
  | long, [] => (long, [])

/-- A conversion's maximum field width (zero for none), whether its length modifiers include
`l`, and what is left of the format. -/
def widthAndLength (format : Text) : Nat × Bool × Text :=
  let (width, rest) := fieldWidth 0 format
  let (long, rest) := lengthModifiers false rest
  (width, long, rest)

def wantedFor (conversion : UInt8) : Option Wanted :=
  match conversion with
  | 100 | 105 => some (.integer 10)
  | 117 => some (.unsigned 10)
  | 120 | 88 => some (.unsigned 16)
  | 111 => some (.unsigned 8)
  | 115 => some .string
  | 99 => some .character
  | 102 | 70 | 101 | 69 | 103 | 71 | 97 | 65 => some .float
  | 110 => some .count
  | _ => none

/-- What the loop finds at the head of a format. -/
inductive Directive where
  | space
  | literal (b : UInt8)
  | percent
  | convert (suppress : Bool) (width : Nat) (long : Bool) (wanted : Wanted)
  | unreadable
  deriving DecidableEq, Repr

def conversion (format : Text) : Directive × Text :=
  let suppress := format.head? == some 42
  let (width, long, rest) := widthAndLength (if suppress then format.tail else format)
  match rest with
  | [] => (.unreadable, [])
  | letter :: rest =>
      if letter = 37 then (.percent, rest)
      else
        match wantedFor letter with
        | none => (.unreadable, rest)
        | some wanted => (.convert suppress width long wanted, rest)

def directive (b : UInt8) (format : Text) : Directive × Text :=
  if isAsciiWhitespace b then (.space, format)
  else if b ≠ 37 then (.literal b, format)
  else conversion format

/-! ## Numbers -/

/-- Bytes stored at an address. -/
abbrev Write := Nat × Text

/-- `write_bytes`: nothing is stored at null. -/
def writeBytes (destination : Nat) (bytes : Text) : List Write :=
  if destination = 0 then [] else [(destination, bytes)]

/-- `i64::from_str_radix`. -/
def fromStrRadix (base : Nat) (text : Text) : Option Int :=
  let ds := text.drop (sign text).2
  if ds = [] ∨ ¬ ds.all (isDigit base) then none
  else
    let v : Int := if (sign text).1 then -(value base ds : Int) else value base ds
    if -2 ^ 63 ≤ v ∧ v < 2 ^ 63 then some v else none

def numberLength (base width : Nat) (text : Text) : Nat :=
  let signed := (sign text).2
  let count := (digits base (text.drop signed)).length
  if 0 < width then signed + min count (width - signed) else signed + count

/-- Reads a number: how much input it took, and its value. -/
def scanNumber (rest : Text) (base width : Nat) : Option (Nat × Int) :=
  let spaces := (rest.takeWhile isAsciiWhitespace).length
  let text := rest.drop spaces
  let length := numberLength base width text
  if length = 0 ∨ length = 1 ∧ ¬ (text.head?.any isAsciiDigit) then none
  else (fromStrRadix base (text.take length)).map (fun v => (spaces + length, v))

def storedNumber (bytes : Nat) (v : Int) : Text :=
  if bytes = 8 then littleEndian 8 (BitVec.ofInt 64 v).toNat
  else littleEndian 4 (BitVec.ofInt 64 v).toNat

/-- What an integer conversion takes, and what it stores. -/
def numberItem (rest : Text) (base width bytes : Nat) (suppress : Bool) (destination : Nat) :
    Option (Nat × List Write) :=
  (scanNumber rest base width).map (fun n =>
    (n.1, if suppress then [] else writeBytes destination (storedNumber bytes n.2)))

/-! ## Floating-point numbers -/

def toLower (b : UInt8) : UInt8 := if 65 ≤ b ∧ b ≤ 90 then b + 32 else b

def matched : Text → Text → Nat
  | b :: rest, w :: word => if b = w then matched rest word + 1 else 0
  | _, _ => 0

def inf : Text := [105, 110, 102]

def infinity : Text := [105, 110, 102, 105, 110, 105, 116, 121]

def nan : Text := [110, 97, 110]

def wordLength (text stem longer : Text) : Option Nat :=
  if matched text stem ≠ stem.length then none
  else if matched text longer = longer.length then some longer.length
  else if matched text longer = stem.length then some stem.length
  else none

def decimals (text : Text) : Nat := (text.takeWhile isAsciiDigit).length

/-- An exponent, from its `e` on: its length, when it is whole. -/
def exponentLength (text : Text) : Option Nat :=
  if text.head? = some 101 then
    let signed := (sign text.tail).2
    let count := decimals (text.drop (1 + signed))
    if count = 0 then none else some (1 + signed + count)
  else some 0

def decimalLength (text : Text) : Option Nat :=
  if text.head? = some 48 ∧ text.tail.head? = some 120 then none
  else
    let whole := decimals text
    let pointed := (text.drop whole).head? = some 46
    let fraction := if pointed then decimals (text.drop (whole + 1)) else 0
    let after := if pointed then whole + 1 + fraction else whole
    if whole = 0 ∧ fraction = 0 then none
    else (exponentLength (text.drop after)).map (after + ·)

/-- How long the item of a floating-point conversion is, in lower case and within its width. -/
def floatLength (text : Text) : Option Nat :=
  let signed := (sign text).2
  let body := text.drop signed
  let length :=
    if body.head? = some 105 then wordLength body inf infinity
    else if body.head? = some 110 then wordLength body nan nan
    else decimalLength body
  length.map (signed + ·)

/-! ## Items -/

section

-- The bytes of the float and the double a text spells: `parse::<f32>`, `parse::<f64>`.
variable (parseFloat parseDouble : Text → Option Text)

def floatItem (rest : Text) (width : Nat) (suppress : Bool) (destination : Nat) (double : Bool) :
    Option (Nat × List Write) :=
  let spaces := (rest.takeWhile isAsciiWhitespace).length
  let text := rest.drop spaces
  match floatLength ((if 0 < width then text.take width else text).map toLower) with
  | none => none
  | some length =>
      if suppress then some (spaces + length, [])
      else
        ((if double then parseDouble else parseFloat) (text.take length)).map
          (fun bytes => (spaces + length, writeBytes destination bytes))

def characterItem (rest : Text) (suppress : Bool) (destination : Nat) :
    Option (Nat × List Write) :=
  match rest with
  | [] => none
  | b :: _ => some (1, if suppress then [] else writeBytes destination [b])

/-- Reads a run of non-space characters: what it takes, if it does, and what it stores. A run
too long for its room leaves a destination that has any empty. -/
def stringItem (rest : Text) (width : Nat) (suppress : Bool) (destination : Nat)
    (room : Option Nat) : Option Nat × List Write :=
  let run := rest.takeWhile (fun b => !isAsciiWhitespace b)
  let item := if 0 < width then run.take width else run
  if item = [] then (none, [])
  else if room.any (fun room => room ≤ item.length) then
    (none, if room = some 0 then [] else writeBytes destination [0])
  else (some item.length, if suppress then [] else writeBytes destination (item ++ [0]))

/-! ## The loop -/

structure State where
  /-- How much of the input has been read. -/
  at' : Nat
  assigned : Nat
  destinations : List Nat
  writes : List Write
  deriving DecidableEq, Repr

/-- What a directive leads to: the next one, or an answer. -/
inductive Next where
  | goes (s : State)
  | stops (answer : Nat) (writes : List Write)
  deriving DecidableEq, Repr

/-- Whether a conversion's destination is followed by its size. -/
def takesSize (sized : Bool) (wanted : Wanted) : Bool :=
  sized && (wanted == .string || wanted == .character)

def takeDestination (sized suppress : Bool) (wanted : Wanted) (destinations : List Nat) :
    Option (Nat × Option Nat × List Nat) :=
  if suppress then some (0, none, destinations)
  else
    match destinations with
    | [] => none
    | destination :: rest =>
        if takesSize sized wanted then
          match rest with
          | [] => none
          | size :: rest => some (destination, some size, rest)
        else some (destination, none, rest)

/-- What a conversion takes, if it does, and what it stores. -/
def item (rest : Text) (suppress : Bool) (width : Nat) (long : Bool) (wanted : Wanted)
    (destination : Nat) (room : Option Nat) : Option Nat × List Write :=
  let plain (taken : Option (Nat × List Write)) : Option Nat × List Write :=
    (taken.map Prod.fst, taken.elim [] Prod.snd)
  match wanted with
  | .integer base | .unsigned base =>
      plain (numberItem rest base width (wanted.width long) suppress destination)
  | .float => plain (floatItem parseFloat parseDouble rest width suppress destination long)
  | .character =>
      if room = some 0 then (none, []) else plain (characterItem rest suppress destination)
  | .string => stringItem rest width suppress destination room
  | .count => (none, [])

/-- What `%n` stores. -/
def storedCount (at' : Nat) (long : Bool) : Text := littleEndian (if long then 8 else 4) at'

def step (input : Text) (sized : Bool) (d : Directive) (s : State) : Next :=
  match d with
  | .space =>
      .goes { s with at' := s.at' + ((input.drop s.at').takeWhile isAsciiWhitespace).length }
  | .literal b =>
      if input[s.at']? = some b then .goes { s with at' := s.at' + 1 }
      else .stops s.assigned s.writes
  | .percent =>
      if input[s.at']? = some 37 then .goes { s with at' := s.at' + 1 }
      else .stops s.assigned s.writes
  | .unreadable => .stops s.assigned s.writes
  | .convert suppress width long wanted =>
      match takeDestination sized suppress wanted s.destinations with
      -- The whole call is refused.
      | none => .stops 0 s.writes
      | some (destination, room, destinations) =>
          if wanted = .count then
            .goes { s with
              destinations := destinations
              writes := s.writes ++
                if suppress then [] else writeBytes destination (storedCount s.at' long) }
          else
            match item parseFloat parseDouble (input.drop s.at') suppress width long wanted
                destination room with
            | (none, writes) => .stops s.assigned (s.writes ++ writes)
            | (some taken, writes) =>
                .goes
                  { at' := s.at' + taken
                    assigned := if suppress then s.assigned else s.assigned + 1
                    destinations := destinations
                    writes := s.writes ++ writes }

theorem fieldWidth_length (width : Nat) (format : Text) :
    (fieldWidth width format).2.length ≤ format.length := by
  induction format generalizing width with
  | nil => exact le_rfl
  | cons b rest ih =>
      unfold fieldWidth
      split
      · exact (ih _).trans (Nat.le_succ _)
      · exact le_rfl

theorem lengthModifiers_length (long : Bool) (format : Text) :
    (lengthModifiers long format).2.length ≤ format.length := by
  induction format generalizing long with
  | nil => exact le_rfl
  | cons b rest ih =>
      unfold lengthModifiers
      split
      · exact (ih _).trans (Nat.le_succ _)
      · exact le_rfl

theorem directive_length (b : UInt8) (format : Text) :
    (directive b format).2.length ≤ format.length := by
  unfold directive
  split
  · exact le_rfl
  · split
    · exact le_rfl
    · have hstart : (if format.head? == some 42 then format.tail else format).length ≤
          format.length := by
        split
        · rw [List.length_tail]
          exact Nat.sub_le _ _
        · exact le_rfl
      have hwidth := fieldWidth_length 0 (if format.head? == some 42 then format.tail else format)
      have hlong := lengthModifiers_length false
        (fieldWidth 0 (if format.head? == some 42 then format.tail else format)).2
      unfold conversion widthAndLength
      dsimp only
      split
      · exact Nat.zero_le _
      · next letter rest hrest =>
        have hlength := congrArg List.length hrest
        rw [List.length_cons] at hlength
        split
        · dsimp only
          omega
        · split <;> (dsimp only; omega)

/-- The loop over a format: the answer and everything stored. -/
def run (input : Text) (sized : Bool) (format : Text) (s : State) : Nat × List Write :=
  match format with
  | [] => (s.assigned, s.writes)
  | b :: format =>
      match step parseFloat parseDouble input sized (directive b format).1 s with
      | .stops answer writes => (answer, writes)
      | .goes s => run input sized (directive b format).2 s
  termination_by format.length
  decreasing_by
    have hlength := directive_length b format
    rw [List.length_cons]
    omega

/-- What `sscanf` answers when the input ended before anything matched. -/
def NO_INPUT : Nat := 2 ^ 64 - 1

end

end Orbistoun.Libc.Scan

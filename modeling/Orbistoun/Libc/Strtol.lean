import Orbistoun.Lib.Numerals
import Orbistoun.Lib.Trap
import Orbistoun.Libc.CString

/-! # Integer conversions of a C string

`strtol` and its family, and `atoi` and its own: one parser, and each function's limits
applied to what it read.
-/

namespace Orbistoun.Libc.Strtol

open Orbistoun.Lib.Trap
open Orbistoun.Lib.Numerals

/-! ## The parser -/

/-- What `parse_int` read, before any type's limits are applied to it. -/
structure Parsed where
  magnitude : Nat
  negative : Bool
  consumed : Nat
  deriving DecidableEq, Repr

def Parsed.default : Parsed := ⟨0, false, 0⟩

/-- `is_ascii_whitespace`, which leaves the vertical tab out. -/
def isAsciiWhitespace (b : UInt8) : Bool := b == 9 || b == 10 || b == 12 || b == 13 || b == 32

/-- `char::to_digit`, which panics for a radix it does not know. -/
def toDigit (base : Nat) (b : UInt8) : Run Empty (Option Nat) :=
  if 2 ≤ base ∧ base ≤ 36 then pure (digitIn base b) else fault

/-- The largest `u128`. -/
def widest : Nat := 2 ^ 128 - 1

/-- The loop over the digits: the magnitude, and how many were read. -/
def accumulate (base : Nat) : Nat → Nat → Text → Run Empty (Nat × Nat)
  | magnitude, count, [] => pure (magnitude, count)
  | magnitude, count, b :: rest => do
      match ← toDigit base b with
      | none => pure (magnitude, count)
      | some digit =>
          accumulate base (min (min (magnitude * base) widest + digit) widest) (count + 1) rest

/-- Whether a sign is negative, and its length. -/
def sign : Text → Bool × Nat
  | 45 :: _ => (true, 1)
  | 43 :: _ => (false, 1)
  | _ => (false, 0)

/-- The prefix and the digits after a sign: how long they are and the magnitude, when there
are any. -/
def readNumeral (base : Nat) (body : Text) : Run Empty (Option (Nat × Nat)) := do
  let tookPrefix := (base == 0 || base == 16) && hexPrefixed body
  let radix := if tookPrefix then 16 else plainBase base body
  let skipped := if tookPrefix then 2 else 0
  let (magnitude, count) ← accumulate radix 0 0 (body.drop skipped)
  if count = 0 then
    -- `0x` with nothing usable after it is the zero before the `x`.
    if tookPrefix then pure (some (1, 0)) else pure none
  else pure (some (skipped + count, magnitude))

def parseInt (text : Text) (base : Nat) : Run Empty Parsed := do
  let spaces := (text.takeWhile (fun b => isAsciiWhitespace b || b == 0x0b)).length
  let (negative, signed) := sign (text.drop spaces)
  let at' := spaces + signed
  match ← readNumeral base (text.drop at') with
  | some (length, magnitude) => pure ⟨magnitude, negative, at' + length⟩
  | none => pure .default

namespace Parsed

/-- The value an unsigned conversion answers: a negative subject is negated, not clamped. -/
def unsigned (p : Parsed) (highest : Nat) : BitVec 64 :=
  if highest < p.magnitude then BitVec.ofNat 64 highest
  else if p.negative then -BitVec.ofNat 64 p.magnitude
  else BitVec.ofNat 64 p.magnitude

/-- The value a signed conversion answers, between its limits. -/
def signed (p : Parsed) (lowest highest : Int) : BitVec 64 :=
  if p.negative then
    if highest + 1 < p.magnitude then BitVec.ofInt 64 lowest else -BitVec.ofNat 64 p.magnitude
  else if highest < p.magnitude then BitVec.ofInt 64 highest
  else BitVec.ofNat 64 p.magnitude

end Parsed

/-! ## The functions -/

/-- `u32::try_from(base).unwrap_or(10)`. -/
def narrowBase (base : Nat) : Nat := if base < 2 ^ 32 then base else 10

/-- `string_to_int!` of the string at an address: the answer, and what `endptr` is set to. -/
def stringToInt (answer : Parsed → BitVec 64) (address : Nat) (text : Text) (base : Nat) :
    Run Empty (BitVec 64 × Nat) := do
  let read ← parseInt (readable text) (narrowBase base)
  pure (answer read, min (address + read.consumed) (2 ^ 64 - 1))

def strtol : Nat → Text → Nat → Run Empty (BitVec 64 × Nat) :=
  stringToInt (fun p => p.signed (-2 ^ 63) (2 ^ 63 - 1))

def strtoll : Nat → Text → Nat → Run Empty (BitVec 64 × Nat) :=
  stringToInt (fun p => p.signed (-2 ^ 63) (2 ^ 63 - 1))

def strtoul : Nat → Text → Nat → Run Empty (BitVec 64 × Nat) :=
  stringToInt (fun p => p.unsigned (2 ^ 64 - 1))

def strtoull : Nat → Text → Nat → Run Empty (BitVec 64 × Nat) :=
  stringToInt (fun p => p.unsigned (2 ^ 64 - 1))

/-- Negation of an `i128`, which has no positive counterpart for its lowest value. -/
def negate (v : BitVec 128) : Run Empty (BitVec 128) :=
  if v = BitVec.intMin 128 then fault else pure (-v)

/-- `ascii_to_int!`: truncated to the type's width. -/
def asciiToInt (width : Nat) (text : Text) : Run Empty (BitVec 64) := do
  let read ← parseInt (readable text) 10
  let value := BitVec.ofNat 128 read.magnitude
  let value ← if read.negative then negate value else pure value
  pure ((value.setWidth width).signExtend 64)

def atoi : Text → Run Empty (BitVec 64) := asciiToInt 32

def atol : Text → Run Empty (BitVec 64) := asciiToInt 64

def atoll : Text → Run Empty (BitVec 64) := asciiToInt 64

/-! ## What is read -/

theorem isSpace_eq (b : UInt8) : (isAsciiWhitespace b || b == 0x0b) = isSpace b := by
  rw [Bool.eq_iff_iff]
  simp only [isAsciiWhitespace, isSpace, Bool.or_eq_true, Bool.and_eq_true, beq_iff_eq,
    decide_eq_true_eq, ← UInt8.toNat_inj, UInt8.le_iff_toNat_le]
  simp only [UInt8.reduceToNat]
  omega

/-- A saturating product and sum is the exact one, cut off. -/
theorem saturating_step {magnitude base digit : Nat} (hbase : 0 < base) :
    min (min (min magnitude widest * base) widest + digit) widest =
      min (magnitude * base + digit) widest := by
  rcases Nat.le_total magnitude widest with h | h
  · rw [min_eq_left h]
    omega
  · rw [min_eq_right h]
    have hle : widest ≤ widest * base := Nat.le_mul_of_pos_right _ hbase
    have hle' : widest * base ≤ magnitude * base := Nat.mul_le_mul_right _ h
    omega

theorem accumulate_eq {base : Nat} (hlow : 2 ≤ base) (hhigh : base ≤ 36) (magnitude count : Nat)
    (text : Text) :
    accumulate base (min magnitude widest) count text =
      .ok (min ((digits base text).foldl (fun acc d => acc * base + (digitValue d).getD 0) magnitude)
        widest, count + (digits base text).length) := by
  induction text generalizing magnitude count with
  | nil => rfl
  | cons b rest ih =>
      have hdigit : toDigit base b = .ok (digitIn base b) := if_pos ⟨hlow, hhigh⟩
      rw [accumulate, hdigit]
      cases hb : digitIn base b with
      | none =>
          have hnone : digits base (b :: rest) = [] := by
            simp [digits, isDigit, hb]
          rw [hnone]
          rfl
      | some digit =>
          have hvalue : digitValue b = some digit := by
            unfold digitIn at hb
            exact (Option.filter_eq_some_iff.mp hb).1
          have hcons : digits base (b :: rest) = b :: digits base rest := by
            simp [digits, isDigit, hb]
          simp only [ok_bind]
          rw [saturating_step (by omega), ih, hcons, List.foldl_cons, hvalue, List.length_cons]
          simp only [Option.getD_some, Nat.add_assoc, Nat.add_comm 1]

theorem accumulate_zero {base : Nat} (hlow : 2 ≤ base) (hhigh : base ≤ 36) (text : Text) :
    accumulate base 0 0 text =
      .ok (min (value base (digits base text)) widest, (digits base text).length) := by
  have h := accumulate_eq hlow hhigh 0 0 text
  rw [Nat.zero_min, Nat.zero_add] at h
  exact h

def afterSpace (text : Text) : Text := text.drop (text.takeWhile isSpace).length

/-- What the parser makes of a subject: its magnitude saturates. -/
def parsedOf (spaces : Nat) : Option Read → Parsed
  | none => .default
  | some r => ⟨min r.magnitude widest, r.negative, spaces + r.length⟩

/-- A zero before the mark of a prefix is the only digit there. -/
theorem digits_before_x {base : Nat} (h : base = 8 ∨ base = 16) {x : UInt8} {rest : Text}
    (hx : isX x) : digits base (48 :: x :: rest) = [48] := by
  have hbase : base ≤ 16 := by omega
  have hzero : isDigit base 48 := by
    rcases h with rfl | rfl <;> decide
  simp [digits, hzero, not_isDigit_of_isX hx hbase]

/-- The code's numeral is the longest one, its magnitude saturated. -/
theorem readNumeral_eq {base : Nat} (hbase : Admissible base) (body : Text) :
    readNumeral base body =
      .ok ((numeral base body).map (fun n => (n.1, min n.2 widest))) := by
  unfold readNumeral
  by_cases htook : ((base == 0 || base == 16) && hexPrefixed body) = true
  · have hsplit : (base = 0 ∨ base = 16) ∧ hexPrefixed body = true := by simpa using htook
    obtain ⟨x, rest, rfl, hx⟩ := (hexPrefixed_iff body).mp hsplit.2
    simp only [htook, if_true, accumulate_zero (by decide : 2 ≤ 16) (by decide : 16 ≤ 36), ok_bind]
    by_cases hnone : digits 16 ((48 :: x :: rest).drop 2) = []
    · have hplain : plainBase base (48 :: x :: rest) = 8 ∨
          plainBase base (48 :: x :: rest) = 16 := by
        rcases hsplit.1 with rfl | rfl
        · exact Or.inl rfl
        · exact Or.inr rfl
      have hnumeral : numeral base (48 :: x :: rest) = some (1, 0) := by
        unfold numeral
        rw [if_neg (fun h => h.2.2 hnone)]
        simp only [digits_before_x hplain hx]
        rcases hplain with h | h <;> rw [h] <;> rfl
      rw [hnumeral, if_pos (by rw [hnone]; rfl)]
      rfl
    · have hnumeral : numeral base (48 :: x :: rest) = some _ :=
        if_pos ⟨hsplit.1, hsplit.2, hnone⟩
      rw [hnumeral, if_neg (fun h => hnone (List.length_eq_zero_iff.mp h))]
      rfl
  · have hcond : ¬ ((base = 0 ∨ base = 16) ∧ hexPrefixed body = true ∧
        digits 16 (body.drop 2) ≠ []) := by
      intro h
      apply htook
      simpa using ⟨h.1, h.2.1⟩
    have hradix : 2 ≤ plainBase base body ∧ plainBase base body ≤ 36 := by
      unfold plainBase Admissible at *
      split
      · split <;> decide
      · omega
    simp only [Bool.not_eq_true] at htook
    simp only [htook, Bool.false_eq_true, if_false, List.drop_zero, Nat.zero_add,
      accumulate_zero hradix.1 hradix.2, ok_bind]
    unfold numeral
    rw [if_neg hcond]
    by_cases hnone : digits (plainBase base body) body = []
    · rw [if_pos hnone, if_pos (by rw [hnone]; rfl)]
      rfl
    · rw [if_neg hnone, if_neg (fun h => hnone (List.length_eq_zero_iff.mp h))]
      rfl

theorem subject_eq (base : Nat) (rest : Text) :
    subject base rest = (numeral base (rest.drop (sign rest).2)).map
      (fun n => ⟨(sign rest).2 + n.1, (sign rest).1, n.2⟩) := by
  unfold subject
  split
  · simp only [sign, List.drop_succ_cons, List.drop_zero, Nat.add_comm 1]
  · simp only [sign, List.drop_succ_cons, List.drop_zero, Nat.add_comm 1]
  · next hplus hminus =>
    have hsign : sign rest = (false, 0) := by
      unfold sign
      split
      · exact absurd rfl (hminus _)
      · exact absurd rfl (hplus _)
      · rfl
    simp only [hsign, List.drop_zero, Nat.zero_add]

theorem parseInt_eq {base : Nat} (hbase : Admissible base) (text : Text) :
    parseInt text base =
      .ok (parsedOf (text.takeWhile isSpace).length (subject base (afterSpace text))) := by
  have hspaces : (text.takeWhile (fun b => isAsciiWhitespace b || b == 0x0b)).length =
      (text.takeWhile isSpace).length := by
    have hsame : (fun b => isAsciiWhitespace b || b == 0x0b) = isSpace := funext isSpace_eq
    rw [hsame]
  have hafter : text.drop (text.takeWhile isSpace).length = afterSpace text := rfl
  unfold parseInt
  simp only [hspaces, readNumeral_eq hbase, ok_bind, ← List.drop_drop]
  rw [hafter, subject_eq]
  cases numeral base ((afterSpace text).drop (sign (afterSpace text)).2) with
  | none => rfl
  | some n =>
      simp only [Option.map_some, parsedOf, Nat.add_assoc]
      rfl

/-! ## The answers -/

/-- The value of a signed conversion: the subject's, no further than the type's limits. -/
def isoSigned (negative : Bool) (magnitude : Nat) : BitVec 64 :=
  BitVec.ofInt 64
    (max (-2 ^ 63) (min (if negative then -(magnitude : Int) else magnitude) (2 ^ 63 - 1)))

/-- The value of an unsigned conversion: the limit past it, a negative subject negated. -/
def isoUnsigned (negative : Bool) (magnitude : Nat) : BitVec 64 :=
  if 2 ^ 64 ≤ magnitude then BitVec.allOnes 64
  else if negative then -BitVec.ofNat 64 magnitude
  else BitVec.ofNat 64 magnitude

theorem signed_eq (magnitude consumed : Nat) (negative : Bool) :
    (⟨min magnitude widest, negative, consumed⟩ : Parsed).signed (-2 ^ 63) (2 ^ 63 - 1) =
      isoSigned negative magnitude := by
  have hwidest : widest = 340282366920938463463374607431768211455 := by decide
  unfold Parsed.signed isoSigned
  cases negative with
  | true =>
      simp only [if_true]
      by_cases hlarge : (2 ^ 63 : Int) < magnitude
      · rw [if_pos (by omega)]
        congr 1
        omega
      · rw [if_neg (by omega), min_eq_left (by omega : magnitude ≤ widest)]
        have hvalue : max (-2 ^ 63) (min (-(magnitude : Int)) (2 ^ 63 - 1)) = -(magnitude : Int) := by
          omega
        rw [hvalue, BitVec.ofInt_neg, BitVec.ofInt_natCast]
  | false =>
      simp only [Bool.false_eq_true, if_false]
      by_cases hlarge : (2 ^ 63 - 1 : Int) < magnitude
      · rw [if_pos (by omega)]
        congr 1
        omega
      · rw [if_neg (by omega), min_eq_left (by omega : magnitude ≤ widest)]
        have hvalue : max (-2 ^ 63) (min (magnitude : Int) (2 ^ 63 - 1)) = (magnitude : Int) := by
          omega
        rw [hvalue, BitVec.ofInt_natCast]

theorem unsigned_eq (magnitude consumed : Nat) (negative : Bool) :
    (⟨min magnitude widest, negative, consumed⟩ : Parsed).unsigned (2 ^ 64 - 1) =
      isoUnsigned negative magnitude := by
  have hwidest : widest = 340282366920938463463374607431768211455 := by decide
  unfold Parsed.unsigned isoUnsigned
  by_cases hlarge : 2 ^ 64 ≤ magnitude
  · rw [if_pos (by simp only; omega), if_pos hlarge]
    decide
  · rw [if_neg (by simp only; omega), if_neg hlarge]
    simp only [min_eq_left (by omega : magnitude ≤ widest)]

/-- The answer ISO C gives: the value and the end of the longest subject after white space,
or zero and the start where there is none. -/
def IsoAnswer (value : Bool → Nat → BitVec 64) (base address : Nat) (text : Text)
    (run : Run Empty (BitVec 64 × Nat)) : Prop :=
  (∃ length negative magnitude, Longest base (afterSpace text) length negative magnitude ∧
      run = .ok (value negative magnitude,
        address + (text.takeWhile isSpace).length + length)) ∨
    NoSubject base (afterSpace text) ∧ run = .ok (0, address)

theorem afterSpace_length (text : Text) :
    (text.takeWhile isSpace).length + (afterSpace text).length = text.length := by
  have hle := (List.takeWhile_prefix isSpace (l := text)).length_le
  rw [afterSpace, List.length_drop]
  omega

/-! ## A string past the limit -/

def Within (base : Nat) (text : Text) : Prop :=
  ∀ n ≤ (afterSpace text).length, ∀ negative magnitude,
    Subject base ((afterSpace text).take n) negative magnitude →
      (text.takeWhile isSpace).length + n ≤ MAX_STRING

theorem within_of_length {base : Nat} {text : Text} (h : text.length ≤ MAX_STRING) :
    Within base text := by
  intro n hn negative magnitude _
  have hlength := afterSpace_length text
  omega

/-- The longest subject of a start of a text is that of the text, where none ends past it. -/
theorem longest_of_take {base limit : Nat} {text : Text} {length : Nat} {negative : Bool}
    {magnitude : Nat}
    (hlimit : ∀ n ≤ text.length, ∀ negative' magnitude',
      Subject base (text.take n) negative' magnitude' → n ≤ limit)
    (h : Longest base (text.take limit) length negative magnitude) :
    Longest base text length negative magnitude := by
  have hcut : ∀ n ≤ limit, (text.take limit).take n = text.take n := by
    intro n hn
    rw [List.take_take, min_eq_left hn]
  have hinside := h.inside
  rw [List.length_take, le_min_iff] at hinside
  constructor
  · exact hinside.2
  · rw [← hcut length hinside.1]
    exact h.subject
  · intro n hn negative' magnitude' hsubject
    have hn' := hlimit n hn negative' magnitude' hsubject
    rw [← hcut n hn'] at hsubject
    apply h.longest n _ negative' magnitude' hsubject
    rw [List.length_take]
    exact le_min hn' hn

theorem noSubject_of_take {base limit : Nat} {text : Text}
    (hlimit : ∀ n ≤ text.length, ∀ negative magnitude,
      Subject base (text.take n) negative magnitude → n ≤ limit)
    (h : NoSubject base (text.take limit)) : NoSubject base text := by
  intro n hn negative magnitude hsubject
  have hn' := hlimit n hn negative magnitude hsubject
  apply h n (by rw [List.length_take]; exact le_min hn' hn) negative magnitude
  rw [List.take_take, min_eq_left hn']
  exact hsubject

/-- White space is cut off a start of a text as off the text. -/
theorem spaces_readable (text : Text) : ((readable text).takeWhile isSpace).length =
    min MAX_STRING (text.takeWhile isSpace).length := by
  rw [readable, ← List.take_takeWhile, List.length_take]

theorem afterSpace_readable (text : Text) : afterSpace (readable text) =
    (afterSpace text).take (MAX_STRING - (text.takeWhile isSpace).length) := by
  rw [afterSpace, spaces_readable, readable, List.drop_take, afterSpace]
  rcases Nat.le_total MAX_STRING (text.takeWhile isSpace).length with hle | hle
  · rw [min_eq_left hle, Nat.sub_self, List.take_zero, Nat.sub_eq_zero_of_le hle, List.take_zero]
  · rw [min_eq_right hle]

/-- A conversion in a base it defines reads the string as far as the limit. -/
theorem stringToInt_eq {answer : Parsed → BitVec 64} {base address : Nat}
    (hbase : Admissible base) (text : Text) :
    stringToInt answer address text base =
      let read := parsedOf (min MAX_STRING (text.takeWhile isSpace).length)
        (subject base ((afterSpace text).take (MAX_STRING - (text.takeWhile isSpace).length)))
      .ok (answer read, min (address + read.consumed) (2 ^ 64 - 1)) := by
  have hnarrow : narrowBase base = base := if_pos (by unfold Admissible at hbase; omega)
  unfold stringToInt
  rw [hnarrow, parseInt_eq hbase, afterSpace_readable, spaces_readable]
  rfl

theorem stringToInt_iso {answer : Parsed → BitVec 64} {value : Bool → Nat → BitVec 64}
    (hanswer : ∀ magnitude negative consumed,
      answer ⟨min magnitude widest, negative, consumed⟩ = value negative magnitude)
    (hdefault : answer .default = 0) {base address : Nat} (hbase : Admissible base) {text : Text}
    (hplace : address + text.length < 2 ^ 64) (hwithin : Within base text) :
    IsoAnswer value base address text (stringToInt answer address text base) := by
  have hlength := afterSpace_length text
  have hlimit : ∀ n ≤ (afterSpace text).length, ∀ negative magnitude,
      Subject base ((afterSpace text).take n) negative magnitude →
        n ≤ MAX_STRING - (text.takeWhile isSpace).length := by
    intro n hn negative magnitude hsubject
    have hends := hwithin n hn negative magnitude hsubject
    omega
  rw [stringToInt_eq hbase]
  dsimp only
  cases hsubject : subject base
      ((afterSpace text).take (MAX_STRING - (text.takeWhile isSpace).length)) with
  | none =>
      right
      refine ⟨noSubject_of_take hlimit (noSubject_of_none hsubject), ?_⟩
      have hconsumed : Parsed.default.consumed = 0 := rfl
      simp only [parsedOf, hdefault, hconsumed]
      rw [min_eq_left (by omega)]
      rfl
  | some r =>
      left
      have hlongest := longest_of_take hlimit (subject_longest hbase hsubject)
      have hinside := hlongest.inside
      have hends := hwithin _ hinside _ _ hlongest.subject
      refine ⟨r.length, r.negative, r.magnitude, hlongest, ?_⟩
      simp only [parsedOf, hanswer]
      rw [min_eq_right (by omega : _ ≤ MAX_STRING), min_eq_left (by omega), Nat.add_assoc]

/-- No end pointer is further than what is read, so a right one tells where every subject
ends. -/
theorem within_of_iso {answer : Parsed → BitVec 64} {value : Bool → Nat → BitVec 64}
    {base address : Nat} (hbase : Admissible base) {text : Text}
    (h : IsoAnswer value base address text (stringToInt answer address text base)) :
    Within base text := by
  rcases h with ⟨length, negative, magnitude, hlongest, hrun⟩ | ⟨hnone, _⟩
  · rw [stringToInt_eq hbase] at hrun
    have hend := congrArg Prod.snd (Except.ok.inj hrun)
    dsimp only at hend
    have hconsumed : (parsedOf (min MAX_STRING (text.takeWhile isSpace).length)
        (subject base ((afterSpace text).take
          (MAX_STRING - (text.takeWhile isSpace).length)))).consumed ≤ MAX_STRING := by
      cases hsubject : subject base
          ((afterSpace text).take (MAX_STRING - (text.takeWhile isSpace).length)) with
      | none => exact Nat.zero_le _
      | some r =>
          have hinside := (subject_longest hbase hsubject).inside
          rw [List.length_take] at hinside
          show min MAX_STRING (text.takeWhile isSpace).length + r.length ≤ MAX_STRING
          omega
    intro n hn negative' magnitude' hsubject
    have hlonger := hlongest.longest n hn negative' magnitude' hsubject
    omega
  · intro n hn negative magnitude hsubject
    exact absurd hsubject (hnone n hn negative magnitude)

/-! ## Where a conversion stops -/

def ReadsNothing (text : Text) : Prop :=
  (afterSpace text).drop (sign (afterSpace text)).2 = []

def LowestWide (text : Text) : Prop :=
  ∃ length, subject 10 (afterSpace text) = some ⟨length, true, 2 ^ 127⟩

theorem calm_stringToInt_iff (answer : Parsed → BitVec 64) (address base : Nat) (text : Text) :
    Calm (stringToInt answer address text base) ↔
      ReadsNothing (readable text) ∨ Admissible (narrowBase base) := by
  unfold stringToInt
  generalize readable text = text
  by_cases hbase : Admissible (narrowBase base)
  · rw [parseInt_eq hbase]
    simp [hbase]
  · have hspaces : (text.takeWhile (fun b => isAsciiWhitespace b || b == 0x0b)).length =
        (text.takeWhile isSpace).length := by
      have hsame : (fun b => isAsciiWhitespace b || b == 0x0b) = isSpace := funext isSpace_eq
      rw [hsame]
    have hafter : text.drop (text.takeWhile isSpace).length = afterSpace text := rfl
    have hnot : narrowBase base ≠ 0 ∧ narrowBase base ≠ 16 ∧
        ¬ (2 ≤ narrowBase base ∧ narrowBase base ≤ 36) := by
      unfold Admissible at hbase
      omega
    have htook : ∀ body, ((narrowBase base == 0 || narrowBase base == 16) && hexPrefixed body) =
        false := by
      intro body
      simp [hnot.1, hnot.2.1]
    have hplain : ∀ body, plainBase (narrowBase base) body = narrowBase base :=
      fun body => if_neg hnot.1
    simp only [parseInt, hspaces, ← List.drop_drop, hafter, readNumeral, htook, hplain,
      Bool.false_eq_true, if_false, List.drop_zero, hbase, or_false, ReadsNothing]
    cases hbody : (afterSpace text).drop (sign (afterSpace text)).2 with
    | nil =>
        simp only [accumulate]
        exact iff_of_true (calm_pure _) trivial
    | cons b rest =>
        have hfault : accumulate (narrowBase base) 0 0 (b :: rest) = fault := by
          rw [accumulate, toDigit, if_neg hnot.2.2]
          rfl
        rw [hfault]
        exact iff_of_false not_calm_fault (List.cons_ne_nil b rest)

theorem calm_asciiToInt_iff (width : Nat) (text : Text) :
    Calm (asciiToInt width text) ↔ ¬ LowestWide (readable text) := by
  have hbase : Admissible 10 := Or.inr ⟨by decide, by decide⟩
  have hwidest : widest = 340282366920938463463374607431768211455 := by decide
  unfold asciiToInt LowestWide
  generalize readable text = text
  rw [parseInt_eq hbase]
  simp only [ok_bind]
  cases subject 10 (afterSpace text) with
  | none => simp [parsedOf, Parsed.default]
  | some r =>
      obtain ⟨length, negative, magnitude⟩ := r
      cases negative with
      | false => simp [parsedOf]
      | true =>
          have hlowest : BitVec.ofNat 128 (min magnitude widest) = BitVec.intMin 128 ↔
              magnitude = 2 ^ 127 := by
            rw [← BitVec.toNat_inj, BitVec.toNat_ofNat, BitVec.toNat_intMin]
            omega
          simp only [parsedOf, if_true, negate, hlowest, Option.some.injEq, Read.mk.injEq, true_and,
            exists_eq_left']
          by_cases h : magnitude = 2 ^ 127
          · rw [if_pos h]
            exact iff_of_false not_calm_fault (fun hnot => hnot h)
          · rw [if_neg h]
            exact iff_of_true (calm_pure _) h

/-- Each conversion gives the answer of ISO C for the bases it defines, and none stops. -/
def Meets (address base : Nat) (text : Text) : Prop :=
  (Admissible base →
      IsoAnswer isoSigned base address text (strtol address text base) ∧
        IsoAnswer isoSigned base address text (strtoll address text base) ∧
        IsoAnswer isoUnsigned base address text (strtoul address text base) ∧
        IsoAnswer isoUnsigned base address text (strtoull address text base)) ∧
    Calm (strtol address text base) ∧ Calm (strtoll address text base) ∧
    Calm (strtoul address text base) ∧ Calm (strtoull address text base) ∧
    Calm (atoi text) ∧ Calm (atol text) ∧ Calm (atoll text)

/-- What ISO C defines is answered where the subject ends within what is read; a base outside
it stops at the first digit looked at, and `atoi` at the one magnitude whose negation is no
`i128`. -/
theorem conversions_iff (address base : Nat) (text : Text) (hplace : address + text.length < 2 ^ 64) :
    Meets address base text ↔
      (ReadsNothing (readable text) ∨ Admissible (narrowBase base)) ∧
        ¬ LowestWide (readable text) ∧ (Admissible base → Within base text) := by
  unfold Meets strtol strtoll strtoul strtoull atoi atol atoll
  simp only [calm_stringToInt_iff, calm_asciiToInt_iff]
  constructor
  · intro h
    exact ⟨h.2.1, h.2.2.2.2.2.1, fun hbase => within_of_iso hbase (h.1 hbase).1⟩
  · intro h
    refine ⟨fun hbase => ?_, h.1, h.1, h.1, h.1, h.2.1, h.2.1, h.2.1⟩
    have hwithin := h.2.2 hbase
    have hsigned : IsoAnswer isoSigned base address text
        (stringToInt (fun p => p.signed (-2 ^ 63) (2 ^ 63 - 1)) address text base) := by
      apply stringToInt_iso _ rfl hbase hplace hwithin
      intro magnitude negative consumed
      exact signed_eq magnitude consumed negative
    have hunsigned : IsoAnswer isoUnsigned base address text
        (stringToInt (fun p => p.unsigned (2 ^ 64 - 1)) address text base) := by
      apply stringToInt_iso _ rfl hbase hplace hwithin
      intro magnitude negative consumed
      exact unsigned_eq magnitude consumed negative
    exact ⟨hsigned, hsigned, hunsigned, hunsigned⟩

/-- `"  -0x1f;"` from address 4096, base sixteen. -/
theorem meets_small : Meets 4096 16 [32, 32, 45, 48, 120, 49, 102, 59] := by
  refine (conversions_iff 4096 16 [32, 32, 45, 48, 120, 49, 102, 59] (by decide)).mpr
    ⟨Or.inr (by decide), ?_, fun _ => within_of_length (by decide)⟩
  rw [readable_eq (by decide)]
  rintro ⟨length, h⟩
  have hsubject : subject 10 (afterSpace [32, 32, 45, 48, 120, 49, 102, 59]) =
      some ⟨2, true, 0⟩ := by decide
  rw [hsubject] at h
  cases h

def lowestWide : Text :=
  [45, 49, 55, 48, 49, 52, 49, 49, 56, 51, 52, 54, 48, 52, 54, 57, 50, 51, 49, 55, 51, 49, 54, 56,
    55, 51, 48, 51, 55, 49, 53, 56, 56, 52, 49, 48, 53, 55, 50, 56]

/-- As many zeros as the library reads of a string, and a seven behind them. -/
def longZeros : Text := List.replicate MAX_STRING 48 ++ [55]

theorem not_within_longZeros : ¬ Within 10 longZeros := by
  have hspaces : longZeros.takeWhile isSpace = [] := rfl
  have hafter : afterSpace longZeros = longZeros := rfl
  have hlength : longZeros.length = MAX_STRING + 1 := by
    rw [longZeros, List.length_append, List.length_replicate, List.length_singleton]
  have hdigits : ∀ d ∈ longZeros, isDigit 10 d := by
    intro d hd
    rcases List.mem_append.mp hd with hd | hd
    · rw [List.eq_of_mem_replicate hd]
      decide
    · rw [List.mem_singleton.mp hd]
      decide
  intro h
  have hsubject : Subject 10 (longZeros.take longZeros.length) false (value 10 longZeros) := by
    rw [List.take_length]
    exact .bare (.plain 10 _ (by decide) (by decide) (by simp [longZeros]) hdigits)
  have hends := h longZeros.length (by rw [hafter]) false _ (by rw [hafter]; exact hsubject)
  rw [hspaces, List.length_nil, Nat.zero_add, hlength] at hends
  exact absurd hends (by omega)

/-- `"1"` in base 37 stops `strtol`, the lowest `i128` stops `atoi`, and a long row of zeros is
not read to its end. -/
theorem conversions_deviate : ¬ Meets 4096 37 [49] ∧ ¬ Meets 4096 10 lowestWide ∧
    ¬ Meets 4096 10 longZeros := by
  refine ⟨?_, ?_, ?_⟩
  · intro h
    have hfault : strtol 4096 [49] 37 = fault := by decide
    exact h.2.1 hfault
  · intro h
    have hfault : atoi lowestWide = fault := by decide +kernel
    exact h.2.2.2.2.2.1 hfault
  · intro h
    have hbase : Admissible 10 := Or.inr ⟨by decide, by decide⟩
    exact not_within_longZeros (within_of_iso hbase (h.1 hbase).1)

end Orbistoun.Libc.Strtol

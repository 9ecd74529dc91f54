import Mathlib.Data.List.TakeWhile
import Orbistoun.Libc.Scan

/-! # Integer conversions of `sscanf`

What ISO C has an integer conversion take and store, and where the code does the same: the
item is the part of the `strtol` subject within the field width, and what is stored is its
value in the type the length modifier names.
-/

namespace Orbistoun.Libc.Scan

open Orbistoun.Lib.Numerals
open Orbistoun.Lib.Codes (littleEndian littleEndian_length)
open Orbistoun.Libc.Strtol (afterSpace digits_before_x isAsciiWhitespace isSpace_eq isoSigned
  isoUnsigned sign subject_eq)

/-! ## The conversions -/

inductive LengthModifier where
  | none
  | hh
  | h
  | l
  | ll
  | z
  | j
  | t
  deriving DecidableEq, Repr

namespace LengthModifier

def text : LengthModifier → Text
  | none => []
  | hh => [104, 104]
  | h => [104]
  | l => [108]
  | ll => [108, 108]
  | z => [122]
  | j => [106]
  | t => [116]

def bytes : LengthModifier → Nat
  | hh => 1
  | h => 2
  | none => 4
  | _ => 8

/-- Whether an `l` is among the letters. -/
def long : LengthModifier → Bool
  | l | ll => true
  | _ => false

end LengthModifier

inductive Conversion where
  | d
  | u
  | x
  | X
  | o
  deriving DecidableEq, Repr

namespace Conversion

def letter : Conversion → UInt8
  | d => 100
  | u => 117
  | x => 120
  | X => 88
  | o => 111

def base : Conversion → Nat
  | d | u => 10
  | x | X => 16
  | o => 8

def wanted : Conversion → Wanted
  | d => .integer 10
  | c => .unsigned c.base

end Conversion

def spelled (suppress : Bool) (widthDigits : Text) (m : LengthModifier) (c : Conversion) : Text :=
  (if suppress then [42] else []) ++ (widthDigits ++ (m.text ++ [c.letter]))

/-- What the code takes and stores for the conversion at the head of a format. -/
def converted (rest format : Text) (destination : Nat) : Option (Nat × List Write) :=
  match (conversion format).1 with
  | .convert suppress width long wanted =>
      match wanted with
      | .integer base | .unsigned base =>
          numberItem rest base width (wanted.width long) suppress destination
      | _ => none
  | _ => none

/-! ## What ISO C has them do -/

def within (width length : Nat) : Nat := if 0 < width then min length width else length

/-- The item: the part of the subject within the width. -/
def itemText (base width : Nat) (text : Text) : Text :=
  match subject base text with
  | none => []
  | some r => text.take (within width r.length)

def isoValue (c : Conversion) (r : Read) : BitVec 64 :=
  if c = .d then isoSigned r.negative r.magnitude else isoUnsigned r.negative r.magnitude

def isoNumber (rest : Text) (c : Conversion) (width : Nat) : Option (Nat × BitVec 64) :=
  let spaces := (rest.takeWhile isSpace).length
  let item := itemText c.base width (rest.drop spaces)
  (subject c.base item).map (fun r => (spaces + item.length, isoValue c r))

def isoItem (rest : Text) (c : Conversion) (m : LengthModifier) (width : Nat) (suppress : Bool)
    (destination : Nat) : Option (Nat × List Write) :=
  (isoNumber rest c width).map (fun n =>
    (n.1, if suppress then [] else writeBytes destination (littleEndian m.bytes n.2.toNat)))

/-! ## Reading the directive -/

theorem fieldWidth_append {widthDigits rest : Text} (hdigits : ∀ b ∈ widthDigits, isAsciiDigit b)
    (hrest : ∀ b tail, rest = b :: tail → ¬ isAsciiDigit b) (width : Nat) :
    fieldWidth (min width largest) (widthDigits ++ rest) =
      (min (widthDigits.foldl (fun acc d => acc * 10 + (digitValue d).getD 0) width) largest,
        rest) := by
  induction widthDigits generalizing width with
  | nil =>
      cases rest with
      | nil => rfl
      | cons b tail =>
          rw [List.nil_append, fieldWidth, if_neg (hrest b tail rfl)]
          rfl
  | cons digit more ih =>
      have hdigit := hdigits digit List.mem_cons_self
      have hbounds : 48 ≤ digit ∧ digit ≤ 57 := by
        simpa [isAsciiDigit] using hdigit
      have hvalue : digitValue digit = some (digit.toNat - 48) := if_pos hbounds
      have hlarge : largest = 18446744073709551615 := rfl
      have hstep : min (min (min width largest * 10) largest + (digit.toNat - 48)) largest =
          min (width * 10 + (digit.toNat - 48)) largest := by
        omega
      rw [List.cons_append, fieldWidth, if_pos hdigit, hstep,
        ih (fun b hb => hdigits b (List.mem_cons_of_mem digit hb)), List.foldl_cons, hvalue]
      rfl

theorem lengthModifiers_append (m : LengthModifier) (letter : UInt8) (rest : Text)
    (hletter : isModifier letter = false) :
    lengthModifiers false (m.text ++ letter :: rest) = (m.long, letter :: rest) := by
  cases m <;> simp [LengthModifier.text, LengthModifier.long, lengthModifiers, isModifier] at * <;>
    simp [hletter]

theorem wantedFor_letter (c : Conversion) : wantedFor c.letter = some c.wanted := by
  cases c <;> rfl

/-- The format's conversion is read as it is spelled; a width past the words saturates. -/
theorem conversion_spelled (suppress : Bool) {widthDigits : Text}
    (hdigits : ∀ b ∈ widthDigits, isAsciiDigit b) (m : LengthModifier) (c : Conversion)
    (following : Text) :
    conversion (spelled suppress widthDigits m c ++ following) =
      (.convert suppress (min (value 10 widthDigits) largest) m.long c.wanted, following) := by
  have hstart : ∀ b tail, m.text ++ c.letter :: following = b :: tail → ¬ isAsciiDigit b := by
    intro b tail h
    cases m <;> cases c <;>
      (rw [← (List.cons.inj h).1]; decide)
  have hletter : isModifier c.letter = false := by
    cases c <;> rfl
  have hpercent : c.letter ≠ 37 := by
    cases c <;> decide
  have hwidth := fieldWidth_append hdigits hstart 0
  rw [Nat.zero_min] at hwidth
  have hhead : ((widthDigits ++ (m.text ++ c.letter :: following)).head? == some 42) = false := by
    cases widthDigits with
    | nil => cases m <;> cases c <;> rfl
    | cons b more =>
        have hb := hdigits b List.mem_cons_self
        simp only [List.cons_append, List.head?_cons]
        rw [beq_eq_false_iff_ne]
        intro h
        rw [Option.some.inj h] at hb
        exact absurd hb (by decide)
  have hread : widthAndLength (widthDigits ++ (m.text ++ c.letter :: following)) =
      (min (value 10 widthDigits) largest, m.long, c.letter :: following) := by
    simp only [widthAndLength, hwidth, lengthModifiers_append m c.letter following hletter]
    rfl
  unfold conversion
  cases suppress with
  | false =>
      have htext : spelled false widthDigits m c ++ following =
          widthDigits ++ (m.text ++ c.letter :: following) := by
        simp [spelled]
      simp only [htext, hhead, Bool.false_eq_true, if_false, hread, hpercent, wantedFor_letter]
  | true =>
      have htext : spelled true widthDigits m c ++ following =
          42 :: (widthDigits ++ (m.text ++ c.letter :: following)) := by
        simp [spelled]
      simp [htext, hread, hpercent, wantedFor_letter]

/-! ## The item -/

theorem sign_cons (b : UInt8) (rest rest' : Text) : sign (b :: rest) = sign (b :: rest') := by
  by_cases hminus : b = 45
  · rw [hminus]
    rfl
  · by_cases hplus : b = 43
    · rw [hplus]
      rfl
    · simp [sign, hminus, hplus]

theorem sign_take {text : Text} {k : Nat} (hk : 0 < k) : sign (text.take k) = sign text := by
  cases text with
  | nil => rw [List.take_nil]
  | cons b rest =>
      obtain ⟨j, rfl⟩ := Nat.exists_eq_succ_of_ne_zero hk.ne'
      exact sign_cons b _ _

theorem sign_length_le (text : Text) : (sign text).2 ≤ 1 := by
  unfold sign
  split <;> decide

/-- A sign is one byte, and no digit. -/
theorem sign_ne_zero {text : Text} (h : (sign text).2 ≠ 0) :
    ∃ b rest, text = b :: rest ∧ isSign b := by
  unfold sign at h
  split at h
  · exact ⟨_, _, rfl, by decide⟩
  · exact ⟨_, _, rfl, by decide⟩
  · exact absurd rfl h

def digitCount (base : Nat) (text : Text) : Nat := (digits base (text.drop (sign text).2)).length

def room (base width : Nat) (text : Text) : Nat :=
  if 0 < width then min (digitCount base text) (width - (sign text).2) else digitCount base text

theorem room_le (base width : Nat) (text : Text) : room base width text ≤ digitCount base text := by
  unfold room
  split
  · exact min_le_left _ _
  · exact le_rfl

theorem numberLength_eq (base width : Nat) (text : Text) :
    numberLength base width text = (sign text).2 + room base width text := by
  unfold numberLength room digitCount
  dsimp only
  split <;> rfl

theorem digitCount_le (base : Nat) (text : Text) :
    (sign text).2 + digitCount base text ≤ text.length := by
  have hdigits := digits_length_le base (text.drop (sign text).2)
  rw [List.length_drop] at hdigits
  unfold digitCount
  by_cases hsign : (sign text).2 = 0
  · omega
  · obtain ⟨b, rest, rfl, _⟩ := sign_ne_zero hsign
    have hle := sign_length_le (b :: rest)
    rw [List.length_cons] at hdigits ⊢
    omega

theorem room_saturated {base width : Nat} {text : Text} (h : text.length ≤ largest) :
    room base (min width largest) text = room base width text := by
  have hlarge : largest = 18446744073709551615 := rfl
  have hcount := digitCount_le base text
  unfold room
  by_cases hwidth : 0 < width
  · rw [if_pos hwidth, if_pos (by omega)]
    omega
  · rw [if_neg hwidth, if_neg (by omega)]

def plainItem (base width : Nat) (text : Text) : Text :=
  text.take ((sign text).2 + room base width text)

theorem plainItem_length (base width : Nat) (text : Text) :
    (plainItem base width text).length = (sign text).2 + room base width text := by
  have hcount := digitCount_le base text
  have hroom := room_le base width text
  rw [plainItem, List.length_take]
  omega

theorem plainItem_sign {base width : Nat} {text : Text} (h : 0 < room base width text) :
    sign (plainItem base width text) = sign text :=
  sign_take (by omega)

theorem plainItem_drop (base width : Nat) (text : Text) :
    (plainItem base width text).drop (sign text).2 =
      (digits base (text.drop (sign text).2)).take (room base width text) := by
  have hroom := room_le base width text
  rw [plainItem, List.drop_take, Nat.add_sub_cancel_left,
    ← take_digits base (text.drop (sign text).2), List.take_take]
  congr 1
  exact (min_eq_left hroom).symm

def itemDigits (base width : Nat) (text : Text) : Text :=
  (digits base (text.drop (sign text).2)).take (room base width text)

theorem itemDigits_all (base width : Nat) (text : Text) :
    ∀ d ∈ itemDigits base width text, isDigit base d :=
  fun d hd => digits_all base _ d (List.mem_of_mem_take hd)

theorem itemDigits_length (base width : Nat) (text : Text) :
    (itemDigits base width text).length = room base width text := by
  rw [itemDigits, List.length_take]
  exact min_eq_left (room_le base width text)

theorem numeral_of_digits {base : Nat} (hlow : 2 ≤ base) (hhigh : base ≤ 16) {ds : Text}
    (hsome : ds ≠ []) (hall : ∀ d ∈ ds, isDigit base d) :
    numeral base ds = some (ds.length, value base ds) := by
  have hplain : plainBase base ds = base := if_neg (by omega)
  have hdigits : digits base ds = ds := List.takeWhile_eq_self_iff.mpr hall
  unfold numeral
  rw [if_neg, hplain, hdigits, if_neg hsome]
  intro h
  obtain ⟨x, rest, rfl, hx⟩ := (hexPrefixed_iff ds).mp h.2.1
  have hdigit := hall x (List.mem_cons_of_mem _ List.mem_cons_self)
  rw [not_isDigit_of_isX hx hhigh] at hdigit
  cases hdigit

theorem plainItem_subject {base width : Nat} (hlow : 2 ≤ base) (hhigh : base ≤ 16) {text : Text}
    (h : 0 < room base width text) :
    subject base (plainItem base width text) =
      some ⟨(sign text).2 + room base width text, (sign text).1,
        value base (itemDigits base width text)⟩ := by
  have hlength := itemDigits_length base width text
  have hsome : itemDigits base width text ≠ [] := by
    intro hnil
    rw [hnil] at hlength
    exact h.ne hlength
  rw [subject_eq, plainItem_sign h, plainItem_drop]
  have hnumeral := numeral_of_digits hlow hhigh hsome (itemDigits_all base width text)
  rw [hlength] at hnumeral
  rw [show (digits base (text.drop (sign text).2)).take (room base width text) =
    itemDigits base width text from rfl, hnumeral]
  rfl

/-- A sign with no digit after it is no number. -/
theorem plainItem_subject_none {base width : Nat} {text : Text}
    (h : room base width text = 0) : subject base (plainItem base width text) = none := by
  have hnil : numeral base [] = none := by
    simp [numeral, hexPrefixed, digits]
  unfold plainItem
  rw [h, Nat.add_zero, subject_eq]
  by_cases hsign : (sign text).2 = 0
  · rw [hsign, List.take_zero]
    exact congrArg (Option.map _) hnil
  · rw [sign_take (Nat.pos_of_ne_zero hsign), List.drop_take, Nat.sub_self, List.take_zero, hnil]
    rfl

def Prefixed (base : Nat) (text : Text) : Prop :=
  base = 16 ∧ hexPrefixed (text.drop (sign text).2) ∧
    digits 16 ((text.drop (sign text).2).drop 2) ≠ []

instance (base : Nat) (text : Text) : Decidable (Prefixed base text) :=
  inferInstanceAs (Decidable (_ ∧ _))

theorem subject_plain {base : Nat} (hlow : 2 ≤ base) {text : Text} (h : ¬ Prefixed base text) :
    subject base text = if digitCount base text = 0 then none
      else some ⟨(sign text).2 + digitCount base text, (sign text).1,
        value base (digits base (text.drop (sign text).2))⟩ := by
  have hcond : ¬ ((base = 0 ∨ base = 16) ∧ hexPrefixed (text.drop (sign text).2) = true ∧
      digits 16 ((text.drop (sign text).2).drop 2) ≠ []) :=
    fun hhex => h ⟨by omega, hhex.2⟩
  have hplain : plainBase base (text.drop (sign text).2) = base := if_neg (by omega)
  rw [subject_eq, numeral, if_neg hcond, hplain]
  dsimp only
  by_cases hnil : digits base (text.drop (sign text).2) = []
  · rw [if_pos hnil, if_pos (by rw [digitCount, hnil]; rfl)]
    rfl
  · have hcount : digitCount base text ≠ 0 := fun hzero => hnil (List.length_eq_zero_iff.mp hzero)
    rw [if_neg hnil, if_neg hcount]
    rfl

theorem itemText_plain {base width : Nat} (hlow : 2 ≤ base) {text : Text}
    (h : ¬ Prefixed base text) (hcount : digitCount base text ≠ 0) :
    itemText base width text = plainItem base width text := by
  have hsign := sign_length_le text
  unfold itemText plainItem within room
  rw [subject_plain hlow h, if_neg hcount]
  dsimp only
  congr 1
  split <;> omega

theorem itemText_none {base width : Nat} {text : Text} (h : subject base text = none) :
    itemText base width text = [] := by
  rw [itemText, h]

theorem subject_prefixed {base : Nat} {text : Text} (h : Prefixed base text) :
    ∃ x rest magnitude, text.drop (sign text).2 = 48 :: x :: rest ∧ isX x ∧
      digitCount base text = 1 ∧
      subject base text =
        some ⟨(sign text).2 + (2 + (digits 16 rest).length), (sign text).1, magnitude⟩ := by
  obtain ⟨rfl, hprefixed, hsome⟩ := h
  obtain ⟨x, rest, hbody, hx⟩ := (hexPrefixed_iff _).mp hprefixed
  refine ⟨x, rest, value 16 (digits 16 rest), hbody, hx, ?_, ?_⟩
  · rw [digitCount, hbody, digits_before_x (Or.inr rfl) hx]
    rfl
  · rw [hbody] at hsome
    rw [subject_eq, hbody, numeral, if_pos ⟨Or.inr rfl, hx, hsome⟩]
    rfl

theorem not_isX_of_isSign {b : UInt8} (h : isSign b) : isX b = false := by
  have hcases : b = 43 ∨ b = 45 := by simpa [isSign] using h
  rcases hcases with rfl | rfl <;> rfl

/-- The sign and the digits of a base up to sixteen hold no mark of a prefix. -/
theorem plainItem_noX {base width : Nat} (hhigh : base ≤ 16) (text : Text) :
    ∀ b ∈ plainItem base width text, isX b = false := by
  intro b hb
  have hsplit := List.take_append_drop (sign text).2 (plainItem base width text)
  rw [← hsplit, List.mem_append, plainItem_drop] at hb
  rcases hb with hsign | hdigit
  · -- A byte of the sign.
    have hzero : (sign text).2 ≠ 0 := by
      intro hzero
      rw [hzero, List.take_zero] at hsign
      cases hsign
    obtain ⟨s, rest, htext, hs⟩ := sign_ne_zero hzero
    have hone : (sign text).2 = 1 := by
      have hle := sign_length_le text
      omega
    rw [plainItem, List.take_take, hone, min_eq_left (by omega), htext] at hsign
    rw [List.mem_singleton.mp hsign]
    exact not_isX_of_isSign hs
  · have hdigit' := itemDigits_all base width text b hdigit
    cases hx : isX b with
    | false => rfl
    | true =>
        rw [not_isDigit_of_isX hx hhigh] at hdigit'
        cases hdigit'

theorem numeral_zero_ne_none (more : Text) : numeral 16 (48 :: more) ≠ none := by
  have hplain : plainBase 16 (48 :: more) = 16 := rfl
  have hdigits : digits 16 (48 :: more) = 48 :: digits 16 more := rfl
  unfold numeral
  split
  · exact Option.some_ne_none _
  · rw [hplain, hdigits]
    exact Option.some_ne_none _

theorem itemText_prefixed {base : Nat} (width : Nat) {text : Text} (h : Prefixed base text) :
    itemText base width text = plainItem base width text ∨
      (∃ b ∈ itemText base width text, isX b) ∧
        room base width text = 1 ∧
        (sign text).2 + 1 < (itemText base width text).length ∧
        subject base (itemText base width text) ≠ none := by
  obtain ⟨x, rest, magnitude, hbody, hx, hcount, hsubject⟩ := subject_prefixed h
  have hsign := sign_length_le text
  have hitem : itemText base width text =
      text.take (within width ((sign text).2 + (2 + (digits 16 rest).length))) := by
    rw [itemText, hsubject]
  by_cases hwidth : 0 < width ∧ width ≤ (sign text).2 + 1
  · left
    rw [hitem, plainItem, within, room, if_pos hwidth.1, if_pos hwidth.1, hcount]
    congr 1
    omega
  · right
    have hlength : text.length = (sign text).2 + (2 + rest.length) := by
      have hdrop := congrArg List.length hbody
      rw [List.length_drop] at hdrop
      simp only [List.length_cons] at hdrop
      omega
    have hdigits := digits_length_le 16 rest
    have hwithin : (sign text).2 + 2 ≤
        within width ((sign text).2 + (2 + (digits 16 rest).length)) := by
      unfold within
      split <;> omega
    have hroom : room base width text = 1 := by
      unfold room
      rw [hcount]
      split <;> omega
    refine ⟨⟨x, ?_, hx⟩, hroom, ?_, ?_⟩
    · -- The mark stands right behind the sign and a zero.
      have hat : text[(sign text).2 + 1]? = some x := by
        rw [← List.getElem?_drop, hbody]
        rfl
      rw [hitem]
      apply List.mem_of_getElem? (i := (sign text).2 + 1)
      rw [List.getElem?_take_of_lt (by omega), hat]
    · rw [hitem, List.length_take, hlength]
      omega
    · -- The zero before the mark is a number by itself.
      obtain ⟨more, hmore⟩ : ∃ more, (itemText base width text).drop (sign text).2 = 48 :: more := by
        obtain ⟨j, hj⟩ := Nat.exists_eq_add_of_le' hwithin
        rw [hitem, List.drop_take, hbody, hj,
          show j + ((sign text).2 + 2) - (sign text).2 = j + 2 by omega]
        exact ⟨_, rfl⟩
      rw [subject_eq, hitem, sign_take (by omega), ← hitem, hmore, h.1]
      exact fun hnone => numeral_zero_ne_none more (Option.map_eq_none_iff.mp hnone)

/-! ## What the code reads -/

/-- What the code leaves once it has skipped what it takes for white space. -/
def afterAscii (rest : Text) : Text := rest.drop (rest.takeWhile isAsciiWhitespace).length

theorem takeWhile_space {rest : Text} (h : (afterAscii rest).head? ≠ some 11) :
    rest.takeWhile isSpace = rest.takeWhile isAsciiWhitespace := by
  induction rest with
  | nil => rfl
  | cons b rest ih =>
      by_cases hb : isAsciiWhitespace b
      · have hspace : isSpace b = true := by
          rw [← isSpace_eq, hb]
          rfl
        have hrest : (afterAscii rest).head? ≠ some 11 := by
          simpa [afterAscii, hb] using h
        rw [List.takeWhile_cons_of_pos hspace, List.takeWhile_cons_of_pos hb, ih hrest]
      · have htab : b ≠ 11 := by
          intro htab
          apply h
          rw [afterAscii, List.takeWhile_cons_of_neg hb, htab]
          rfl
        have hspace : ¬ isSpace b := by
          rw [← isSpace_eq]
          simp [hb, htab]
        rw [List.takeWhile_cons_of_neg hspace, List.takeWhile_cons_of_neg hb]

theorem afterAscii_eq {rest : Text} (h : (afterAscii rest).head? ≠ some 11) :
    afterAscii rest = afterSpace rest := by
  rw [afterAscii, afterSpace, takeWhile_space h]

/-- One letter, which the code takes for a sign alone. -/
def OneLetter (item : Text) : Prop := item.length = 1 ∧ ¬ item.head?.any isAsciiDigit

instance (item : Text) : Decidable (OneLetter item) := inferInstanceAs (Decidable (_ ∧ _))

def numberOf (r : Read) : Int := if r.negative then -(r.magnitude : Int) else r.magnitude

theorem fromStrRadix_plainItem {base width : Nat} {text : Text}
    (h : 0 < room base width text) {r : Read} (hnegative : r.negative = (sign text).1)
    (hmagnitude : r.magnitude = value base (itemDigits base width text)) :
    fromStrRadix base (plainItem base width text) =
      if -2 ^ 63 ≤ numberOf r ∧ numberOf r < 2 ^ 63 then some (numberOf r) else none := by
  have hall : (itemDigits base width text).all (isDigit base) :=
    List.all_eq_true.mpr (itemDigits_all base width text)
  have hlength := itemDigits_length base width text
  have hsome : ¬ (itemDigits base width text = [] ∨
      ¬ (itemDigits base width text).all (isDigit base)) := by
    rintro (hnil | hnot)
    · rw [hnil] at hlength
      exact h.ne hlength
    · exact hnot hall
  unfold fromStrRadix
  rw [plainItem_sign h, plainItem_drop]
  dsimp only
  rw [show (digits base (text.drop (sign text).2)).take (room base width text) =
    itemDigits base width text from rfl, if_neg hsome, numberOf, hnegative, hmagnitude]

/-- Nothing is read where the code's white space ends in a vertical tab, or no digit is
within the width. -/
theorem scanNumber_none {rest : Text} {base width : Nat}
    (h : (afterAscii rest).head? = some 11 ∨ room base width (afterAscii rest) = 0) :
    scanNumber rest base width = none := by
  have hroom : room base width (afterAscii rest) = 0 := by
    rcases h with htab | hroom
    · cases htext : afterAscii rest with
      | nil =>
          rw [htext] at htab
          cases htab
      | cons b more =>
          rw [htext, List.head?_cons] at htab
          rw [Option.some.inj htab]
          have hdigit : isDigit base 11 = false := rfl
          have hcount : digitCount base (11 :: more) = 0 := by
            have hsign : sign (11 :: more) = (false, 0) := rfl
            simp [digitCount, hsign, digits, hdigit]
          exact Nat.le_zero.mp (hcount ▸ room_le base width _)
    · exact hroom
  have hlength := numberLength_eq base width (afterAscii rest)
  rw [hroom, Nat.add_zero] at hlength
  unfold scanNumber
  dsimp only
  rw [show rest.drop (rest.takeWhile isAsciiWhitespace).length = afterAscii rest from rfl, hlength]
  apply if_pos
  have hle := sign_length_le (afterAscii rest)
  by_cases hzero : (sign (afterAscii rest)).2 = 0
  · exact Or.inl hzero
  · right
    obtain ⟨b, more, htext, hb⟩ := sign_ne_zero hzero
    refine ⟨by omega, ?_⟩
    have hcases : b = 43 ∨ b = 45 := by simpa [isSign] using hb
    rw [htext]
    rcases hcases with rfl | rfl <;> exact Bool.false_ne_true

theorem scanNumber_plain {rest : Text} {base width : Nat}
    (h : 0 < room base width (afterAscii rest)) :
    scanNumber rest base width =
      if OneLetter (plainItem base width (afterAscii rest)) then none
      else (fromStrRadix base (plainItem base width (afterAscii rest))).map
        (fun v => ((rest.takeWhile isAsciiWhitespace).length +
          (plainItem base width (afterAscii rest)).length, v)) := by
  have hlength := numberLength_eq base width (afterAscii rest)
  rw [← plainItem_length] at hlength
  have hpositive : (plainItem base width (afterAscii rest)).length ≠ 0 := by
    rw [plainItem_length]
    omega
  have hhead : (plainItem base width (afterAscii rest)).head? = (afterAscii rest).head? := by
    rw [plainItem, List.head?_take, if_neg (by omega)]
  unfold scanNumber
  dsimp only
  rw [show rest.drop (rest.takeWhile isAsciiWhitespace).length = afterAscii rest from rfl, hlength]
  have htake : (afterAscii rest).take (plainItem base width (afterAscii rest)).length =
      plainItem base width (afterAscii rest) := by
    rw [plainItem_length]
    rfl
  rw [htake]
  by_cases hletter : OneLetter (plainItem base width (afterAscii rest))
  · rw [if_pos hletter]
    apply if_pos
    right
    rw [← hhead]
    exact hletter
  · rw [if_neg hletter]
    apply if_neg
    rintro (hzero | hone)
    · exact hpositive hzero
    · rw [← hhead] at hone
      exact hletter hone

/-! ## Where the two agree -/

theorem isoValue_eq {c : Conversion} {r : Read} (hlow : -2 ^ 63 ≤ numberOf r)
    (hhigh : numberOf r < 2 ^ 63) : isoValue c r = BitVec.ofInt 64 (numberOf r) := by
  obtain ⟨length, negative, magnitude⟩ := r
  unfold numberOf at *
  unfold isoValue
  split
  · unfold isoSigned
    congr 1
    simp only at *
    omega
  · unfold isoUnsigned
    cases negative with
    | true =>
        simp only [if_true] at *
        rw [if_neg (by omega), BitVec.ofInt_neg, BitVec.ofInt_natCast]
    | false =>
        simp only [Bool.false_eq_true, if_false] at *
        rw [if_neg (by omega), BitVec.ofInt_natCast]

/-- The modifiers whose types are as wide as the code has them. -/
def StoredWhole (m : LengthModifier) : Prop := m = .none ∨ m = .l ∨ m = .ll

instance (m : LengthModifier) : Decidable (StoredWhole m) :=
  inferInstanceAs (Decidable (_ ∨ _))

theorem storedNumber_length (c : Conversion) (m : LengthModifier) (v : Int) :
    (storedNumber (c.wanted.width m.long) v).length = m.bytes ↔ StoredWhole m := by
  have hlength : (storedNumber (c.wanted.width m.long) v).length = if m.long then 8 else 4 := by
    cases c <;> cases m <;> exact littleEndian_length _ _
  rw [hlength]
  cases m <;> simp [StoredWhole, LengthModifier.long, LengthModifier.bytes]

theorem storedNumber_eq (c : Conversion) {m : LengthModifier} (h : StoredWhole m) (v : Int) :
    storedNumber (c.wanted.width m.long) v = littleEndian m.bytes (BitVec.ofInt 64 v).toNat := by
  rcases h with rfl | rfl | rfl <;> cases c <;> rfl

/-- Where the code does what ISO C says: wherever the input has a number, nothing in it is
of a kind the code misreads, and its type is as wide as the code has it. -/
structure Meets (rest : Text) (c : Conversion) (m : LengthModifier) (suppress : Bool)
    (destination : Nat) (item : Text) (r : Read) : Prop where
  noTab : (afterAscii rest).head? ≠ some 11
  noLetter : ¬ OneLetter item
  noPrefix : ∀ b ∈ item, isX b = false
  low : -2 ^ 63 ≤ numberOf r
  high : numberOf r < 2 ^ 63
  whole : suppress ∨ destination = 0 ∨ StoredWhole m

def itemOf (rest : Text) (c : Conversion) (width : Nat) : Text :=
  itemText c.base width (afterSpace rest)

theorem base_bounds (c : Conversion) : 2 ≤ c.base ∧ c.base ≤ 16 := by
  cases c <;> decide

theorem isoNumber_eq (rest : Text) (c : Conversion) (width : Nat) :
    isoNumber rest c width = (subject c.base (itemOf rest c width)).map (fun r =>
      ((rest.takeWhile isSpace).length + (itemOf rest c width).length, isoValue c r)) := rfl

/-- There is a number where a digit is within the width. -/
theorem subject_itemOf_iff (rest : Text) (c : Conversion) (width : Nat) :
    subject c.base (itemOf rest c width) ≠ none ↔ 0 < room c.base width (afterSpace rest) := by
  have hbase := base_bounds c
  have hplain : subject c.base (plainItem c.base width (afterSpace rest)) ≠ none ↔
      0 < room c.base width (afterSpace rest) := by
    by_cases hroom : 0 < room c.base width (afterSpace rest)
    · rw [plainItem_subject hbase.1 hbase.2 hroom]
      simp [hroom]
    · rw [plainItem_subject_none (Nat.eq_zero_of_not_pos hroom)]
      simp [hroom]
  unfold itemOf
  by_cases hprefixed : Prefixed c.base (afterSpace rest)
  · rcases itemText_prefixed width hprefixed with hitem | ⟨_, hone, _, hsome⟩
    · rw [hitem]
      exact hplain
    · rw [hone]
      exact iff_of_true hsome Nat.one_pos
  · by_cases hcount : digitCount c.base (afterSpace rest) = 0
    · have hnone : subject c.base (afterSpace rest) = none := by
        rw [subject_plain hbase.1 hprefixed, if_pos hcount]
      have hroom := room_le c.base width (afterSpace rest)
      have hnil : subject c.base [] = none := by
        simp [subject, numeral, hexPrefixed, digits]
      rw [itemText_none hnone, hnil]
      exact iff_of_false (fun h => h rfl) (by omega)
    · rw [itemText_plain hbase.1 hprefixed hcount]
      exact hplain

/-- Without the mark of a prefix the item is the sign and the digits within the width. -/
theorem itemOf_plain {rest : Text} {c : Conversion} {width : Nat}
    (hroom : 0 < room c.base width (afterSpace rest)) :
    (∀ b ∈ itemOf rest c width, isX b = false) ↔
      itemOf rest c width = plainItem c.base width (afterSpace rest) := by
  have hbase := base_bounds c
  constructor
  · intro hnoX
    by_cases hprefixed : Prefixed c.base (afterSpace rest)
    · rcases itemText_prefixed width hprefixed with hplain | ⟨⟨b, hb, hx⟩, _⟩
      · exact hplain
      · rw [hnoX b hb] at hx
        cases hx
    · have hcount : digitCount c.base (afterSpace rest) ≠ 0 := by
        have hle := room_le c.base width (afterSpace rest)
        omega
      exact itemText_plain hbase.1 hprefixed hcount
  · intro hplain
    rw [hplain]
    exact plainItem_noX hbase.2 _

/-- An item that keeps the mark of its prefix is longer than what the code takes. -/
theorem itemOf_longer {rest : Text} {c : Conversion} {width : Nat}
    (hroom : 0 < room c.base width (afterSpace rest))
    (h : ¬ ∀ b ∈ itemOf rest c width, isX b = false) :
    (plainItem c.base width (afterSpace rest)).length < (itemOf rest c width).length := by
  have hbase := base_bounds c
  have hnot : itemOf rest c width ≠ plainItem c.base width (afterSpace rest) :=
    fun hplain => h ((itemOf_plain hroom).mpr hplain)
  by_cases hprefixed : Prefixed c.base (afterSpace rest)
  · rcases itemText_prefixed width hprefixed with hplain | ⟨_, hone, hlong, _⟩
    · exact absurd hplain hnot
    · rw [plainItem_length, hone]
      exact hlong
  · have hcount : digitCount c.base (afterSpace rest) ≠ 0 := by
      have hle := room_le c.base width (afterSpace rest)
      omega
    exact absurd (itemText_plain hbase.1 hprefixed hcount) hnot

/-- What the code takes, where it takes something. -/
theorem scanNumber_taken {rest : Text} {base width : Nat} {n : Nat × Int}
    (h : scanNumber rest base width = some n) :
    n.1 = (rest.takeWhile isAsciiWhitespace).length +
      (plainItem base width (afterAscii rest)).length := by
  by_cases hroom : room base width (afterAscii rest) = 0
  · rw [scanNumber_none (Or.inr hroom)] at h
    cases h
  · rw [scanNumber_plain (Nat.pos_of_ne_zero hroom)] at h
    split at h
    · cases h
    · obtain ⟨v, _, rfl⟩ := Option.map_eq_some_iff.mp h
      rfl

/-- What the code reads of a sign and its digits. -/
theorem scanNumber_of_subject {rest : Text} {c : Conversion} {width : Nat} {r : Read}
    (htab : (afterAscii rest).head? ≠ some 11)
    (hsubject : subject c.base (plainItem c.base width (afterSpace rest)) = some r) :
    scanNumber rest c.base width =
      if OneLetter (plainItem c.base width (afterSpace rest)) then none
      else if -2 ^ 63 ≤ numberOf r ∧ numberOf r < 2 ^ 63 then
        some ((rest.takeWhile isSpace).length +
          (plainItem c.base width (afterSpace rest)).length, numberOf r)
      else none := by
  have hbase := base_bounds c
  have hroom : 0 < room c.base width (afterSpace rest) := by
    by_contra hzero
    rw [plainItem_subject_none (Nat.eq_zero_of_not_pos hzero)] at hsubject
    cases hsubject
  rw [plainItem_subject hbase.1 hbase.2 hroom] at hsubject
  have hr := Option.some.inj hsubject
  have hread := fromStrRadix_plainItem hroom (congrArg Read.negative hr).symm
    (congrArg Read.magnitude hr).symm
  rw [scanNumber_plain (afterAscii_eq htab ▸ hroom), afterAscii_eq htab, hread,
    takeWhile_space htab]
  split
  · rfl
  · split <;> rfl

/-- What is stored is the same where the type is as wide as the code has it, or nothing is. -/
theorem stored_iff (c : Conversion) (m : LengthModifier) (v : Int) (suppress : Bool)
    (destination : Nat) :
    (if suppress then [] else
        writeBytes destination (storedNumber (c.wanted.width m.long) v)) =
      (if suppress then [] else
        writeBytes destination (littleEndian m.bytes (BitVec.ofInt 64 v).toNat)) ↔
    suppress ∨ destination = 0 ∨ StoredWhole m := by
  cases suppress with
  | true => simp
  | false =>
      unfold writeBytes
      by_cases hnull : destination = 0
      · simp [hnull]
      · simp only [Bool.false_eq_true, if_false, hnull, List.cons.injEq, Prod.mk.injEq, true_and,
          and_true, false_or]
        constructor
        · intro h
          rw [← storedNumber_length c m v, h, littleEndian_length]
        · intro h
          exact storedNumber_eq c h v

theorem numberItem_iff (rest : Text) (c : Conversion) (m : LengthModifier) (width : Nat)
    (suppress : Bool) (destination : Nat) :
    numberItem rest c.base width (c.wanted.width m.long) suppress destination =
        isoItem rest c m width suppress destination ↔
      ∀ r, subject c.base (itemOf rest c width) = some r →
        Meets rest c m suppress destination (itemOf rest c width) r := by
  have hbase := base_bounds c
  have hiff := subject_itemOf_iff rest c width
  unfold numberItem isoItem
  rw [isoNumber_eq]
  cases hsubject : subject c.base (itemOf rest c width) with
  | none =>
      have hroom : room c.base width (afterSpace rest) = 0 := by
        by_contra hpositive
        exact hiff.mpr (Nat.pos_of_ne_zero hpositive) hsubject
      have hnone : scanNumber rest c.base width = none := by
        apply scanNumber_none
        by_cases htab : (afterAscii rest).head? = some 11
        · exact Or.inl htab
        · right
          rw [afterAscii_eq htab, hroom]
      simp [hnone]
  | some r =>
      have hroom : 0 < room c.base width (afterSpace rest) := by
        rw [← hiff, hsubject]
        exact Option.some_ne_none r
      simp only [Option.some.injEq, forall_eq', Option.map_some]
      constructor
      · intro h
        obtain ⟨n, hscan, hn⟩ := Option.map_eq_some_iff.mp h
        have htab : (afterAscii rest).head? ≠ some 11 := by
          intro htab
          rw [scanNumber_none (Or.inl htab)] at hscan
          cases hscan
        have hnoX : ∀ b ∈ itemOf rest c width, isX b = false := by
          by_contra hx
          have hlonger := itemOf_longer hroom hx
          have htaken := scanNumber_taken hscan
          rw [afterAscii_eq htab, ← takeWhile_space htab, (Prod.mk.inj hn).1] at htaken
          omega
        have hplain := (itemOf_plain hroom).mp hnoX
        rw [hplain] at hsubject
        rw [scanNumber_of_subject htab hsubject] at hscan
        split at hscan
        · cases hscan
        · next hletter =>
          split at hscan
          · next hrange =>
            cases hscan
            have hstored := (Prod.mk.inj hn).2
            rw [isoValue_eq hrange.1 hrange.2, stored_iff] at hstored
            exact ⟨htab, hplain ▸ hletter, hnoX, hrange.1, hrange.2, hstored⟩
          · cases hscan
      · intro h
        have hplain := (itemOf_plain hroom).mp h.noPrefix
        have hletter := h.noLetter
        rw [hplain] at hsubject hletter ⊢
        rw [scanNumber_of_subject h.noTab hsubject, if_neg hletter, if_pos ⟨h.low, h.high⟩,
          isoValue_eq h.low h.high]
        simp only [Option.map_some, Option.some.injEq, Prod.mk.injEq, true_and]
        exact (stored_iff c m (numberOf r) suppress destination).mpr h.whole

/-- An integer conversion takes and stores what ISO C has it take and store exactly where the
input has no number for it, or has one the code does not misread. -/
theorem converted_iff {rest widthDigits : Text} (hrest : rest.length ≤ largest)
    (hdigits : ∀ b ∈ widthDigits, isAsciiDigit b) (m : LengthModifier) (c : Conversion)
    (suppress : Bool) (destination : Nat) (following : Text) :
    converted rest (spelled suppress widthDigits m c ++ following) destination =
        isoItem rest c m (value 10 widthDigits) suppress destination ↔
      ∀ r, subject c.base (itemOf rest c (value 10 widthDigits)) = some r →
        Meets rest c m suppress destination (itemOf rest c (value 10 widthDigits)) r := by
  have hsaturated : numberItem rest c.base (min (value 10 widthDigits) largest)
      (c.wanted.width m.long) suppress destination =
      numberItem rest c.base (value 10 widthDigits) (c.wanted.width m.long) suppress
        destination := by
    have hlength : (afterAscii rest).length ≤ largest := by
      rw [afterAscii, List.length_drop]
      omega
    have hsame : scanNumber rest c.base (min (value 10 widthDigits) largest) =
        scanNumber rest c.base (value 10 widthDigits) := by
      unfold scanNumber
      simp only [numberLength_eq]
      rw [show rest.drop (rest.takeWhile isAsciiWhitespace).length = afterAscii rest from rfl,
        room_saturated hlength]
    rw [numberItem, hsame]
    rfl
  have hconverted : converted rest (spelled suppress widthDigits m c ++ following) destination =
      numberItem rest c.base (min (value 10 widthDigits) largest) (c.wanted.width m.long)
        suppress destination := by
    unfold converted
    rw [conversion_spelled suppress hdigits]
    cases c <;> rfl
  rw [hconverted, hsaturated]
  exact numberItem_iff rest c m (value 10 widthDigits) suppress destination

/-- A one-letter item, a prefix, a half-wide type, and an unsigned value past the signed
ones. -/
theorem conversions_differ :
    converted [97] (spelled false [] .none .x) 8 ≠ isoItem [97] .x .none 0 false 8 ∧
    converted [48, 120, 49, 102] (spelled false [] .none .x) 8 ≠
      isoItem [48, 120, 49, 102] .x .none 0 false 8 ∧
    converted [53] (spelled false [] .h .d) 8 ≠ isoItem [53] .d .h 0 false 8 ∧
    converted [57, 50, 50, 51, 51, 55, 50, 48, 51, 54, 56, 53, 52, 55, 55, 53, 56, 48, 56]
        (spelled false [] .l .u) 8 ≠
      isoItem [57, 50, 50, 51, 51, 55, 50, 48, 51, 54, 56, 53, 52, 55, 55, 53, 56, 48, 56]
        .u .l 0 false 8 :=
  ⟨by decide +kernel, by decide +kernel, by decide +kernel, by decide +kernel⟩

set_option maxRecDepth 4000 in
/-- `%5ld` of `  -42`. -/
theorem converted_small :
    converted [32, 32, 45, 52, 50] (spelled false [53] .l .d ++ []) 8 =
      isoItem [32, 32, 45, 52, 50] .d .l (value 10 [53]) false 8 := by
  apply (converted_iff (by decide) (by decide) .l .d false 8 []).mpr
  intro r hr
  have hread : subject 10 (itemOf [32, 32, 45, 52, 50] .d (value 10 [53])) = some ⟨3, true, 42⟩ := by
    decide +kernel
  cases hread.symm.trans hr
  exact ⟨by decide +kernel, by decide +kernel, by decide +kernel, by decide, by decide,
    by decide⟩

end Orbistoun.Libc.Scan

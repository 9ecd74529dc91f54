import Mathlib.Tactic

/-! # Numerals in a text

What C reads as an integer: white space, a sign, and a numeral of a base from 2 to 36 or,
for base zero, of the base its own prefix names. The subject sequence is the longest start
of the text of that form, and its value is the numeral's.
-/

namespace Orbistoun.Lib.Numerals

abbrev Text := List UInt8

def isSpace (b : UInt8) : Bool := b == 32 || (9 ≤ b && b ≤ 13)

def isSign (b : UInt8) : Bool := b == 43 || b == 45

def digitValue (b : UInt8) : Option Nat :=
  if 48 ≤ b ∧ b ≤ 57 then some (b.toNat - 48)
  else if 97 ≤ b ∧ b ≤ 122 then some (b.toNat - 87)
  else if 65 ≤ b ∧ b ≤ 90 then some (b.toNat - 55)
  else none

def digitIn (base : Nat) (b : UInt8) : Option Nat := (digitValue b).filter (· < base)

def isDigit (base : Nat) (b : UInt8) : Bool := (digitIn base b).isSome

def digits (base : Nat) (text : Text) : Text := text.takeWhile (isDigit base)

def value (base : Nat) (ds : Text) : Nat :=
  ds.foldl (fun acc d => acc * base + (digitValue d).getD 0) 0

/-! ## The forms -/

def isX (b : UInt8) : Bool := b == 120 || b == 88

/-- The numerals of a base and the numbers they spell; base zero takes the base from the
prefix. -/
inductive Form : Nat → Text → Nat → Prop
  | plain (base : Nat) (ds : Text) (low : 2 ≤ base) (high : base ≤ 36) (nonempty : ds ≠ [])
      (all : ∀ d ∈ ds, isDigit base d) : Form base ds (value base ds)
  | hex (base : Nat) (x : UInt8) (ds : Text) (takes : base = 0 ∨ base = 16) (marks : isX x)
      (nonempty : ds ≠ []) (all : ∀ d ∈ ds, isDigit 16 d) : Form base (48 :: x :: ds) (value 16 ds)
  | octal (ds : Text) (all : ∀ d ∈ ds, isDigit 8 d) : Form 0 (48 :: ds) (value 8 (48 :: ds))
  | decimal (d : UInt8) (ds : Text) (leads : d ≠ 48) (all : ∀ x ∈ d :: ds, isDigit 10 x) :
      Form 0 (d :: ds) (value 10 (d :: ds))

/-- A numeral behind an optional sign: the text, whether it is negative, its magnitude. -/
inductive Subject (base : Nat) : Text → Bool → Nat → Prop
  | bare {text : Text} {magnitude : Nat} (form : Form base text magnitude) :
      Subject base text false magnitude
  | plus {text : Text} {magnitude : Nat} (form : Form base text magnitude) :
      Subject base (43 :: text) false magnitude
  | minus {text : Text} {magnitude : Nat} (form : Form base text magnitude) :
      Subject base (45 :: text) true magnitude

structure Longest (base : Nat) (text : Text) (length : Nat) (negative : Bool)
    (magnitude : Nat) : Prop where
  inside : length ≤ text.length
  subject : Subject base (text.take length) negative magnitude
  longest : ∀ n ≤ text.length, ∀ negative' magnitude',
    Subject base (text.take n) negative' magnitude' → n ≤ length

/-- No start of the text is a subject. -/
def NoSubject (base : Nat) (text : Text) : Prop :=
  ∀ n ≤ text.length, ∀ negative magnitude, ¬ Subject base (text.take n) negative magnitude

def Admissible (base : Nat) : Prop := base = 0 ∨ 2 ≤ base ∧ base ≤ 36

instance (base : Nat) : Decidable (Admissible base) := inferInstanceAs (Decidable (_ ∨ _))

/-! ## Reading one -/

def hexPrefixed : Text → Bool
  | 48 :: x :: _ => isX x
  | _ => false

/-- The base a numeral is read in once no hexadecimal prefix is taken. -/
def plainBase (base : Nat) (text : Text) : Nat :=
  if base = 0 then (if text.head? = some 48 then 8 else 10) else base

/-- The length and the number of the longest numeral a text starts with. -/
def numeral (base : Nat) (text : Text) : Option (Nat × Nat) :=
  if (base = 0 ∨ base = 16) ∧ hexPrefixed text ∧ digits 16 (text.drop 2) ≠ [] then
    some (2 + (digits 16 (text.drop 2)).length, value 16 (digits 16 (text.drop 2)))
  else
    let ds := digits (plainBase base text) text
    if ds = [] then none else some (ds.length, value (plainBase base text) ds)

/-- What a text's subject is: its length, whether it is negative, its magnitude. -/
structure Read where
  length : Nat
  negative : Bool
  magnitude : Nat
  deriving DecidableEq, Repr

def subject (base : Nat) : Text → Option Read
  | 43 :: rest => (numeral base rest).map (fun n => ⟨n.1 + 1, false, n.2⟩)
  | 45 :: rest => (numeral base rest).map (fun n => ⟨n.1 + 1, true, n.2⟩)
  | text => (numeral base text).map (fun n => ⟨n.1, false, n.2⟩)

theorem digits_all (base : Nat) (text : Text) : ∀ d ∈ digits base text, isDigit base d :=
  fun d hd => List.all_eq_true.mp List.all_takeWhile d hd

theorem take_digits (base : Nat) (text : Text) :
    text.take (digits base text).length = digits base text :=
  (List.prefix_iff_eq_take.mp (List.takeWhile_prefix _)).symm

theorem digits_length_le (base : Nat) (text : Text) : (digits base text).length ≤ text.length :=
  (List.takeWhile_prefix _).length_le

theorem le_digits {base n : Nat} {text : Text} (hn : n ≤ text.length)
    (h : ∀ d ∈ text.take n, isDigit base d) : n ≤ (digits base text).length := by
  induction text generalizing n with
  | nil => exact hn
  | cons b rest ih =>
      cases n with
      | zero => exact Nat.zero_le _
      | succ n =>
          simp only [List.take_succ_cons, List.mem_cons, forall_eq_or_imp] at h
          have hrest := ih (Nat.le_of_succ_le_succ hn) h.2
          simp only [digits, List.takeWhile_cons, h.1, if_true, List.length_cons]
          exact Nat.succ_le_succ hrest

theorem not_isDigit_of_isX {x : UInt8} {base : Nat} (hx : isX x) (hbase : base ≤ 16) :
    isDigit base x = false := by
  have hcases : x = 120 ∨ x = 88 := by simpa [isX] using hx
  have hvalue : digitValue x = some 33 := by
    rcases hcases with rfl | rfl <;> decide
  simp only [isDigit, digitIn, hvalue, Option.filter_some, decide_eq_true_eq]
  rw [if_neg (by omega)]
  rfl

theorem hexPrefixed_iff (text : Text) :
    hexPrefixed text ↔ ∃ x rest, text = 48 :: x :: rest ∧ isX x := by
  constructor
  · intro h
    unfold hexPrefixed at h
    split at h
    · next x rest => exact ⟨x, rest, rfl, h⟩
    · cases h
  · rintro ⟨x, rest, rfl, hx⟩
    exact hx

theorem numeral_form {base : Nat} (hbase : Admissible base) {text : Text} {n m : Nat}
    (h : numeral base text = some (n, m)) : n ≤ text.length ∧ Form base (text.take n) m := by
  unfold numeral at h
  split at h
  · next hhex =>
    obtain ⟨htakes, hprefixed, hsome⟩ := hhex
    obtain ⟨x, rest, rfl, hx⟩ := (hexPrefixed_iff text).mp hprefixed
    cases h
    simp only [List.drop_succ_cons, List.drop_zero] at hsome ⊢
    have hlength := digits_length_le 16 rest
    constructor
    · simp only [List.length_cons]
      omega
    · rw [Nat.add_comm, List.take_succ_cons, List.take_succ_cons, take_digits]
      exact Form.hex base x _ htakes hx hsome (digits_all 16 rest)
  · dsimp only at h
    split at h
    · cases h
    · next hsome =>
      cases h
      refine ⟨digits_length_le _ _, ?_⟩
      rw [take_digits]
      have hall := digits_all (plainBase base text) text
      rcases hbase with rfl | ⟨hlow, hhigh⟩
      · cases text with
        | nil => exact absurd rfl hsome
        | cons d rest =>
            by_cases hzero : d = 48
            · subst hzero
              have hplain : plainBase 0 (48 :: rest) = 8 := rfl
              rw [hplain] at hall ⊢
              have hdigits : digits 8 (48 :: rest) = 48 :: digits 8 rest := rfl
              rw [hdigits] at hall ⊢
              exact Form.octal _ (fun x hx => hall x (List.mem_cons_of_mem _ hx))
            · have hplain : plainBase 0 (d :: rest) = 10 := by
                simp [plainBase, hzero]
              rw [hplain] at hall hsome ⊢
              by_cases hd : isDigit 10 d
              · have hdigits : digits 10 (d :: rest) = d :: digits 10 rest := by
                  simp [digits, hd]
                rw [hdigits] at hall ⊢
                exact Form.decimal d _ hzero hall
              · have hnone : digits 10 (d :: rest) = [] := by
                  simp [digits, hd]
                exact absurd hnone hsome
      · have hplain : plainBase base text = base := if_neg (by omega)
        rw [hplain] at hall hsome ⊢
        exact Form.plain base _ hlow hhigh hsome hall

/-- Where a start of the text is a numeral, the one read is at least as long. -/
theorem numeral_longest {base k m : Nat} {text : Text} (hk : k ≤ text.length)
    (h : Form base (text.take k) m) : ∃ n v, numeral base text = some (n, v) ∧ k ≤ n := by
  -- The digits of the plain reading reach past `k`, and it is not empty.
  have hplain : ∀ base', plainBase base text = base' → base' ≤ 36 → k ≠ 0 →
      (∀ d ∈ text.take k, isDigit base' d) →
      ((base = 0 ∨ base = 16) ∧ hexPrefixed text → k ≤ 2) →
      ∃ n v, numeral base text = some (n, v) ∧ k ≤ n := by
    intro base' hbase' _ hzero hall hhex
    unfold numeral
    split
    · next htaken =>
      have hle := hhex ⟨htaken.1, htaken.2.1⟩
      exact ⟨_, _, rfl, by omega⟩
    · rw [hbase']
      have hlength := le_digits hk hall
      have hsome : digits base' text ≠ [] := by
        intro hnil
        rw [hnil] at hlength
        exact hzero (Nat.le_zero.mp hlength)
      dsimp only
      rw [if_neg hsome]
      exact ⟨_, _, rfl, hlength⟩
  have htake : (text.take k).length = k := List.length_take_of_le hk
  generalize htext : text.take k = start at h
  cases h with
  | plain base ds low high nonempty all =>
      have hzero : k ≠ 0 := by
        intro h0
        rw [h0, List.take_zero] at htext
        exact nonempty htext.symm
      apply hplain base (if_neg (by omega)) high hzero (by rwa [htext])
      rintro ⟨hbase, hprefixed⟩
      obtain ⟨x, rest, rfl, hx⟩ := (hexPrefixed_iff text).mp hprefixed
      have hbase16 : base ≤ 16 := by omega
      by_contra hlong
      -- The `x` would be one of the digits.
      have hmem : x ∈ (48 :: x :: rest).take k := by
        obtain ⟨j, rfl⟩ := Nat.exists_eq_add_of_le' (by omega : 2 ≤ k)
        simp
      rw [htext] at hmem
      have hdigit := all x hmem
      rw [not_isDigit_of_isX hx hbase16] at hdigit
      cases hdigit
  | hex base x ds takes marks nonempty all =>
      have hsplit : text = 48 :: x :: (ds ++ text.drop k) := by
        calc text = text.take k ++ text.drop k := (List.take_append_drop k text).symm
          _ = 48 :: x :: (ds ++ text.drop k) := by rw [htext]; rfl
      have hlength : ds.length + 2 = k := by
        rw [← htake, htext]
        simp
      have hdigits : ds.length ≤ (digits 16 (text.drop 2)).length := by
        apply le_digits
        · rw [List.length_drop]
          omega
        · intro d hd
          rw [hsplit] at hd
          simp only [List.drop_succ_cons, List.drop_zero, List.take_left'] at hd
          exact all d hd
      have hsome : digits 16 (text.drop 2) ≠ [] := by
        intro hnil
        rw [hnil] at hdigits
        exact nonempty (List.length_eq_zero_iff.mp (Nat.le_zero.mp hdigits))
      have hprefixed : hexPrefixed text := (hexPrefixed_iff text).mpr ⟨x, _, hsplit, marks⟩
      refine ⟨_, _, if_pos ⟨takes, hprefixed, hsome⟩, by omega⟩
  | octal ds all =>
      have hzero : k ≠ 0 := by
        intro h0
        rw [h0, List.take_zero] at htext
        cases htext
      have hhead : text.head? = some 48 := by
        cases text with
        | nil => simp at htext
        | cons b rest =>
            obtain ⟨j, rfl⟩ := Nat.exists_eq_succ_of_ne_zero hzero
            rw [Nat.succ_eq_add_one, List.take_succ_cons] at htext
            simp [(List.cons.inj htext).1]
      have hdigits : ∀ d ∈ text.take k, isDigit 8 d := by
        rw [htext]
        intro d hd
        rcases List.mem_cons.mp hd with rfl | hrest
        · decide
        · exact all d hrest
      apply hplain 8 (by simp [plainBase, hhead]) (by decide) hzero hdigits
      rintro ⟨_, hprefixed⟩
      obtain ⟨x, rest, rfl, hx⟩ := (hexPrefixed_iff text).mp hprefixed
      by_contra hlong
      have hmem : x ∈ (48 :: x :: rest).take k := by
        obtain ⟨j, rfl⟩ := Nat.exists_eq_add_of_le' (by omega : 2 ≤ k)
        simp
      have hdigit := hdigits x hmem
      rw [not_isDigit_of_isX hx (by decide)] at hdigit
      cases hdigit
  | decimal d ds leads all =>
      have hzero : k ≠ 0 := by
        intro h0
        rw [h0, List.take_zero] at htext
        cases htext
      have hhead : text.head? = some d := by
        cases text with
        | nil => simp at htext
        | cons b rest =>
            obtain ⟨j, rfl⟩ := Nat.exists_eq_succ_of_ne_zero hzero
            rw [Nat.succ_eq_add_one, List.take_succ_cons] at htext
            simp [(List.cons.inj htext).1]
      apply hplain 10 (by simp [plainBase, hhead, leads]) (by decide) hzero (by rwa [htext])
      rintro ⟨_, hprefixed⟩
      obtain ⟨x, rest, rfl, hx⟩ := (hexPrefixed_iff text).mp hprefixed
      simp only [List.head?_cons, Option.some.injEq] at hhead
      exact absurd hhead.symm leads

/-- A numeral starts with a digit or a letter. -/
theorem Form.head {base m : Nat} {text : Text} (h : Form base text m) :
    ∃ d rest, text = d :: rest ∧ (digitValue d).isSome := by
  have hdigit : ∀ {base' : Nat} {d : UInt8}, isDigit base' d → (digitValue d).isSome := by
    intro base' d hd
    unfold isDigit digitIn at hd
    cases hvalue : digitValue d with
    | none => simp [hvalue] at hd
    | some v => rfl
  cases h with
  | plain base ds low high nonempty all =>
      cases text with
      | nil => exact absurd rfl nonempty
      | cons d rest => exact ⟨d, rest, rfl, hdigit (all d List.mem_cons_self)⟩
  | hex base x ds takes marks nonempty all => exact ⟨48, x :: ds, rfl, by decide⟩
  | octal ds all => exact ⟨48, ds, rfl, by decide⟩
  | decimal d ds leads all => exact ⟨d, ds, rfl, hdigit (all d List.mem_cons_self)⟩

theorem not_form_of_sign {base m : Nat} {b : UInt8} {rest : Text} (hb : isSign b) :
    ¬ Form base (b :: rest) m := by
  intro h
  obtain ⟨d, rest', heq, hd⟩ := h.head
  rw [← (List.cons.inj heq).1] at hd
  have hcases : b = 43 ∨ b = 45 := by simpa [isSign] using hb
  rcases hcases with rfl | rfl <;> exact absurd hd (by decide)

theorem form_ne_nil {base m : Nat} : ¬ Form base [] m := by
  intro h
  obtain ⟨d, rest, heq, _⟩ := h.head
  cases heq

theorem form_of_subject {base m : Nat} {negative : Bool} {text : Text}
    (hsign : ∀ b rest, text = b :: rest → ¬ isSign b) (h : Subject base text negative m) :
    negative = false ∧ Form base text m := by
  cases h with
  | bare form => exact ⟨rfl, form⟩
  | plus form => exact absurd rfl (hsign 43 _ rfl)
  | minus form => exact absurd rfl (hsign 45 _ rfl)

theorem no_sign_take {text : Text} (hplus : ∀ rest, text = 43 :: rest → False)
    (hminus : ∀ rest, text = 45 :: rest → False) (k : Nat) :
    ∀ b rest, text.take k = b :: rest → ¬ isSign b := by
  intro b rest h hsign
  have hcases : b = 43 ∨ b = 45 := by simpa [isSign] using hsign
  have htext : text = b :: (rest ++ text.drop k) := by
    calc text = text.take k ++ text.drop k := (List.take_append_drop k text).symm
      _ = b :: (rest ++ text.drop k) := by rw [h]; rfl
  rcases hcases with rfl | rfl
  · exact hplus _ htext
  · exact hminus _ htext

theorem subject_longest {base : Nat} (hbase : Admissible base) {text : Text} {r : Read}
    (h : subject base text = some r) : Longest base text r.length r.negative r.magnitude := by
  unfold subject at h
  split at h
  · next rest =>
    obtain ⟨⟨n, m⟩, hnumeral, rfl⟩ := Option.map_eq_some_iff.mp h
    obtain ⟨hinside, hform⟩ := numeral_form hbase hnumeral
    refine ⟨Nat.succ_le_succ hinside, Subject.plus hform, ?_⟩
    intro k hk negative' magnitude' hsubject
    cases k with
    | zero => exact Nat.zero_le _
    | succ k =>
        rw [List.take_succ_cons] at hsubject
        cases hsubject with
        | bare form => exact absurd form (not_form_of_sign (by decide))
        | plus form =>
            obtain ⟨n', m', hn', hle⟩ := numeral_longest (Nat.le_of_succ_le_succ hk) form
            rw [hnumeral] at hn'
            cases hn'
            exact Nat.succ_le_succ hle
  · next rest =>
    obtain ⟨⟨n, m⟩, hnumeral, rfl⟩ := Option.map_eq_some_iff.mp h
    obtain ⟨hinside, hform⟩ := numeral_form hbase hnumeral
    refine ⟨Nat.succ_le_succ hinside, Subject.minus hform, ?_⟩
    intro k hk negative' magnitude' hsubject
    cases k with
    | zero => exact Nat.zero_le _
    | succ k =>
        rw [List.take_succ_cons] at hsubject
        cases hsubject with
        | bare form => exact absurd form (not_form_of_sign (by decide))
        | minus form =>
            obtain ⟨n', m', hn', hle⟩ := numeral_longest (Nat.le_of_succ_le_succ hk) form
            rw [hnumeral] at hn'
            cases hn'
            exact Nat.succ_le_succ hle
  · next hplus hminus =>
    obtain ⟨⟨n, m⟩, hnumeral, rfl⟩ := Option.map_eq_some_iff.mp h
    obtain ⟨hinside, hform⟩ := numeral_form hbase hnumeral
    refine ⟨hinside, Subject.bare hform, ?_⟩
    intro k hk negative' magnitude' hsubject
    have hform' := (form_of_subject (no_sign_take hplus hminus k) hsubject).2
    obtain ⟨n', m', hn', hle⟩ := numeral_longest hk hform'
    rw [hnumeral] at hn'
    cases hn'
    exact hle

theorem noSubject_of_none {base : Nat} {text : Text} (h : subject base text = none) :
    NoSubject base text := by
  intro k hk negative m hsubject
  unfold subject at h
  split at h
  · next rest =>
    rw [Option.map_eq_none_iff] at h
    cases k with
    | zero =>
        rw [List.take_zero] at hsubject
        cases hsubject with
        | bare form => exact form_ne_nil form
    | succ k =>
        rw [List.take_succ_cons] at hsubject
        cases hsubject with
        | bare form => exact not_form_of_sign (by decide) form
        | plus form =>
            obtain ⟨n', m', hn', _⟩ := numeral_longest (Nat.le_of_succ_le_succ hk) form
            rw [h] at hn'
            cases hn'
  · next rest =>
    rw [Option.map_eq_none_iff] at h
    cases k with
    | zero =>
        rw [List.take_zero] at hsubject
        cases hsubject with
        | bare form => exact form_ne_nil form
    | succ k =>
        rw [List.take_succ_cons] at hsubject
        cases hsubject with
        | bare form => exact not_form_of_sign (by decide) form
        | minus form =>
            obtain ⟨n', m', hn', _⟩ := numeral_longest (Nat.le_of_succ_le_succ hk) form
            rw [h] at hn'
            cases hn'
  · next hplus hminus =>
    rw [Option.map_eq_none_iff] at h
    have hform := (form_of_subject (no_sign_take hplus hminus k) hsubject).2
    obtain ⟨n', m', hn', _⟩ := numeral_longest hk hform
    rw [h] at hn'
    cases hn'

end Orbistoun.Lib.Numerals

import Mathlib.Data.List.Basic
import Mathlib.Tactic

/-! # Codes that end where they say they do

A code is delimited when its words can be told apart from whatever follows them: two
streams that begin with words and spell the same began with the same word. Codes of one
width are delimited, a delimited code after another is, and so is a list of words behind
its count.
-/

namespace Orbistoun.Lib.Codes

variable {α β γ : Type}

/-- A word is read back from the front of any stream it starts. -/
def Delimited (code : α → List γ) : Prop :=
  ∀ a b rest other, code a ++ rest = code b ++ other → a = b ∧ rest = other

theorem delimited_of_width (code : α → List γ) (width : Nat)
    (hwidth : ∀ a, (code a).length = width)
    (hinj : ∀ a b, code a = code b → a = b) : Delimited code := by
  intro a b rest other h
  have hlength : (code a).length = (code b).length := by
    rw [hwidth, hwidth]
  have hparts := List.append_inj h hlength
  exact ⟨hinj a b hparts.1, hparts.2⟩

theorem Delimited.after {first : α → List γ} {second : β → List γ}
    (hfirst : Delimited first) (hsecond : Delimited second) :
    Delimited (fun p : α × β => first p.1 ++ second p.2) := by
  intro a b rest other h
  simp only [List.append_assoc] at h
  have h1 := hfirst _ _ _ _ h
  have h2 := hsecond _ _ _ _ h1.2
  exact ⟨Prod.ext h1.1 h2.1, h2.2⟩

theorem Delimited.comap {code : β → List γ} (hcode : Delimited code) (f : α → β)
    (hinj : ∀ a b, f a = f b → a = b) : Delimited (fun a => code (f a)) := by
  intro a b rest other h
  have hparts := hcode _ _ _ _ h
  exact ⟨hinj a b hparts.1, hparts.2⟩

theorem Delimited.words {code : α → List γ} (hcode : Delimited code)
    {xs ys : List α} {rest other : List γ} (hlength : xs.length = ys.length)
    (h : xs.flatMap code ++ rest = ys.flatMap code ++ other) : xs = ys ∧ rest = other := by
  induction xs generalizing ys with
  | nil =>
      have hys : ys = [] := List.length_eq_zero_iff.mp hlength.symm
      subst hys
      exact ⟨rfl, by simpa using h⟩
  | cons x xs ih =>
      cases ys with
      | nil => simp at hlength
      | cons y ys =>
          simp only [List.flatMap_cons, List.append_assoc] at h
          have hhead := hcode _ _ _ _ h
          have htail := ih (by simpa using hlength) hhead.2
          exact ⟨by rw [hhead.1, htail.1], htail.2⟩

/-! ## Numbers of a fixed width -/

/-- The low bytes of a number, the lowest first. -/
def littleEndian : Nat → Nat → List UInt8
  | 0, _ => []
  | width + 1, n => UInt8.ofNat n :: littleEndian width (n / 256)

@[simp]
theorem littleEndian_length (width n : Nat) : (littleEndian width n).length = width := by
  induction width generalizing n with
  | zero => rfl
  | succ width ih => simp [littleEndian, ih]

theorem littleEndian_inj {width a b : Nat} (ha : a < 256 ^ width) (hb : b < 256 ^ width)
    (h : littleEndian width a = littleEndian width b) : a = b := by
  induction width generalizing a b with
  | zero =>
      have ha0 : a = 0 := by simpa using ha
      have hb0 : b = 0 := by simpa using hb
      rw [ha0, hb0]
  | succ width ih =>
      simp only [littleEndian, List.cons.injEq] at h
      have hlow : a % 256 = b % 256 := by
        have hbyte := congrArg UInt8.toNat h.1
        simpa using hbyte
      have hhigh : a / 256 = b / 256 := by
        apply ih _ _ h.2
        · exact Nat.div_lt_of_lt_mul (by rwa [Nat.pow_succ'] at ha)
        · exact Nat.div_lt_of_lt_mul (by rwa [Nat.pow_succ'] at hb)
      omega

theorem littleEndian_append_inj {width a b : Nat} {rest other : List UInt8}
    (ha : a < 256 ^ width) (hb : b < 256 ^ width)
    (h : littleEndian width a ++ rest = littleEndian width b ++ other) :
    a = b ∧ rest = other := by
  have hparts := List.append_inj h (by simp)
  exact ⟨littleEndian_inj ha hb hparts.1, hparts.2⟩

/-- The number bytes spell, the lowest first. -/
def ofLittleEndian : List UInt8 → Nat
  | [] => 0
  | b :: bytes => b.toNat + 256 * ofLittleEndian bytes

theorem ofLittleEndian_lt (bytes : List UInt8) : ofLittleEndian bytes < 256 ^ bytes.length := by
  induction bytes with
  | nil => exact Nat.one_pos
  | cons b bytes ih =>
    have hb := b.toNat_lt
    rw [ofLittleEndian, List.length_cons, Nat.pow_succ]
    omega

theorem ofLittleEndian_inj {bytes other : List UInt8} (hlength : bytes.length = other.length)
    (h : ofLittleEndian bytes = ofLittleEndian other) : bytes = other := by
  induction bytes generalizing other with
  | nil => exact (List.length_eq_zero_iff.mp hlength.symm).symm
  | cons b bytes ih =>
    cases other with
    | nil => cases hlength
    | cons c other =>
      have hb := b.toNat_lt
      have hc := c.toNat_lt
      simp only [ofLittleEndian] at h
      rw [UInt8.toNat_inj.mp (show b.toNat = c.toNat by omega),
        ih (Nat.succ.inj hlength) (by omega)]

theorem ofLittleEndian_littleEndian {width n : Nat} (h : n < 256 ^ width) :
    ofLittleEndian (littleEndian width n) = n := by
  induction width generalizing n with
  | zero =>
      have hn : n = 0 := by simpa using h
      rw [hn]
      rfl
  | succ width ih =>
      have hhigh : n / 256 < 256 ^ width := Nat.div_lt_of_lt_mul (by rwa [Nat.pow_succ'] at h)
      rw [littleEndian, ofLittleEndian, ih hhigh, UInt8.toNat_ofNat']
      omega

/-! ## A list behind its count -/

/-- How many words follow, and the words. -/
def counted (width : Nat) (code : α → List UInt8) (xs : List α) : List UInt8 :=
  littleEndian width xs.length ++ xs.flatMap code

theorem counted_append_inj {width : Nat} {code : α → List UInt8} (hcode : Delimited code)
    {xs ys : List α} {rest other : List UInt8}
    (hxs : xs.length < 256 ^ width) (hys : ys.length < 256 ^ width)
    (h : counted width code xs ++ rest = counted width code ys ++ other) :
    xs = ys ∧ rest = other := by
  simp only [counted, List.append_assoc] at h
  have hcount := littleEndian_append_inj hxs hys h
  exact hcode.words hcount.1 hcount.2

end Orbistoun.Lib.Codes

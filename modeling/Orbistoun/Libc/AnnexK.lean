import Orbistoun.Lib.Trap
import Orbistoun.Libc.CString

/-! # The bounds-checked copies of Annex K

Seven functions that are told how large their destination is, over a memory of bytes. A size
past what a vector may have stops a refusal that would fill the destination.
-/

namespace Orbistoun.Libc.AnnexK

open Orbistoun.Lib.ByteMemory (Memory store store_inside store_outside)
open Orbistoun.Lib.Codes (littleEndian littleEndian_length)
open Orbistoun.Lib.Terminated
open Orbistoun.Lib.Trap

abbrev Text := List UInt8

/-! ## Memory -/

/-- `copy`: as if by way of a buffer. -/
def copy (m : Memory) (source destination count : Nat) : Memory :=
  fun a => if destination ≤ a ∧ a < destination + count then m (source + (a - destination)) else m a

def WIDE : Nat := 2

def CONSTRAINT_VIOLATION : Nat := 22

def isWideNul (v : Nat) : Bool := v == 0

def wideAt (m : Memory) (address : Nat) : Nat := (m address).toNat + 256 * (m (address + 1)).toNat

/-- At most so many wide characters of a guest string. -/
def wideBytes (m : Memory) (address limit : Nat) : List Nat :=
  if address = 0 then [] else upTo isWideNul limit (fun i => wideAt m (address + i * WIDE))

def writeBytes (m : Memory) (at' : Nat) (data : Text) : Memory :=
  if at' = 0 ∨ data = [] then m else store m at' data

/-- A vector of one byte, which has no more bytes than an `isize` counts. -/
def filled (byte : UInt8) (count : Nat) : Run Empty Text :=
  if count < 2 ^ 63 then pure (List.replicate count byte) else fault

/-! ## The functions -/

abbrev Answer := Run Empty (Nat × Memory)

def refuseAnnexK (m : Memory) (s1 s1max : Nat) (terminateOnly : Bool) : Answer :=
  if s1 ≠ 0 ∧ 0 < s1max then
    if terminateOnly then pure (CONSTRAINT_VIOLATION, writeBytes m s1 [0])
    else do
      let zeros ← filled 0 s1max
      pure (CONSTRAINT_VIOLATION, writeBytes m s1 zeros)
  else pure (CONSTRAINT_VIOLATION, m)

/-- Whether two runs of bytes share one. -/
def Overlap (a n b k : Nat) : Prop := max a b < min (a + n) (b + k)

instance (a n b k : Nat) : Decidable (Overlap a n b k) := inferInstanceAs (Decidable (_ < _))

-- What `copy_nonoverlapping` leaves of runs that do overlap, which the language does not say.
variable (overlapped : Memory → Nat → Nat → Nat → Memory)

def copyNonoverlapping (m : Memory) (source destination count : Nat) : Memory :=
  if Overlap source count destination count then overlapped m source destination count
  else copy m source destination count

def memcpyS (m : Memory) (s1 s1max s2 n : Nat) : Answer :=
  if s1 = 0 ∨ s2 = 0 ∨ s1max < n then refuseAnnexK m s1 s1max false
  else pure (0, copyNonoverlapping overlapped m s2 s1 n)

def memmoveS (m : Memory) (s1 s1max s2 n : Nat) : Answer :=
  if s1 = 0 ∨ s2 = 0 ∨ s1max < n then refuseAnnexK m s1 s1max false
  else pure (0, copy m s2 s1 n)

/-- The write happens even where it refuses. -/
def memsetS (m : Memory) (s smax c n : Nat) : Answer :=
  if s = 0 then pure (CONSTRAINT_VIOLATION, m)
  else do
    let byte := UInt8.ofNat c
    let count := if smax < n then smax else min smax n
    let fill ← filled byte count
    pure (if smax < n then CONSTRAINT_VIOLATION else 0, writeBytes m s fill)

def strcatS (m : Memory) (s1 s1max s2 : Nat) : Answer :=
  if s1 = 0 ∨ s2 = 0 then refuseAnnexK m s1 s1max true
  else
    let existing := bytes m s1
    let addition := bytes m s2
    -- The terminator has to fit as well as the characters.
    if s1max < existing.length + addition.length + 1 then refuseAnnexK m s1 s1max true
    else
      let m := writeBytes m (s1 + existing.length) addition
      pure (0, writeBytes m (s1 + (existing.length + addition.length)) [0])

def strncatS (m : Memory) (s1 s1max s2 n : Nat) : Answer :=
  if s1 = 0 ∨ s2 = 0 then refuseAnnexK m s1 s1max true
  else
    let existing := bytes m s1
    let addition := (bytes m s2).take n
    if s1max < existing.length + addition.length + 1 then refuseAnnexK m s1 s1max true
    else
      let m := writeBytes m (s1 + existing.length) addition
      pure (0, writeBytes m (s1 + (existing.length + addition.length)) [0])

def strncpyS (m : Memory) (s1 s1max s2 n : Nat) : Answer :=
  if s1 = 0 ∨ s2 = 0 ∨ s1max = 0 then refuseAnnexK m s1 s1max true
  else
    let source := (bytes m s2).take n
    if s1max < source.length + 1 then refuseAnnexK m s1 s1max true
    else
      let m := writeBytes m s1 source
      pure (0, writeBytes m (s1 + source.length) [0])

/-- `s1max` and `n` count wide characters. -/
def wcsncpyS (m : Memory) (s1 s1max s2 n : Nat) : Answer :=
  let scrub := min (s1max * WIDE) (2 ^ 64 - 1)
  if s1 = 0 ∨ s2 = 0 ∨ s1max = 0 then refuseAnnexK m s1 scrub true
  else
    let source := wideBytes m s2 n
    if s1max < source.length + 1 then refuseAnnexK m s1 scrub true
    else pure (0, writeBytes m s1 (source.flatMap (littleEndian WIDE) ++ littleEndian WIDE 0))

/-! ## What Annex K specifies -/

inductive Call where
  | memcpyS (s1 s1max s2 n : Nat)
  | memmoveS (s1 s1max s2 n : Nat)
  | memsetS (s smax c n : Nat)
  | strcatS (s1 s1max s2 : Nat)
  | strncatS (s1 s1max s2 n : Nat)
  | strncpyS (s1 s1max s2 n : Nat)
  | wcsncpyS (s1 s1max s2 n : Nat)
  deriving DecidableEq, Repr

namespace Call

def run (m : Memory) : Call → Answer
  | memcpyS s1 s1max s2 n => AnnexK.memcpyS overlapped m s1 s1max s2 n
  | memmoveS s1 s1max s2 n => AnnexK.memmoveS m s1 s1max s2 n
  | memsetS s smax c n => AnnexK.memsetS m s smax c n
  | strcatS s1 s1max s2 => AnnexK.strcatS m s1 s1max s2
  | strncatS s1 s1max s2 n => AnnexK.strncatS m s1 s1max s2 n
  | strncpyS s1 s1max s2 n => AnnexK.strncpyS m s1 s1max s2 n
  | wcsncpyS s1 s1max s2 n => AnnexK.wcsncpyS m s1 s1max s2 n

def destination : Call → Nat
  | memcpyS s1 _ _ _ | memmoveS s1 _ _ _ | memsetS s1 _ _ _ | strcatS s1 _ _
  | strncatS s1 _ _ _ | strncpyS s1 _ _ _ | wcsncpyS s1 _ _ _ => s1

/-- How many elements it has. -/
def size : Call → Nat
  | memcpyS _ s1max _ _ | memmoveS _ s1max _ _ | memsetS _ s1max _ _ | strcatS _ s1max _
  | strncatS _ s1max _ _ | strncpyS _ s1max _ _ | wcsncpyS _ s1max _ _ => s1max

/-- The bytes of an element. -/
def width : Call → Nat
  | wcsncpyS _ _ _ _ => 2
  | _ => 1

end Call

def characters (m : Memory) (address limit : Nat) : Text :=
  upTo isNul limit (fun i => m (address + i))

def wideCharacters (m : Memory) (address limit : Nat) : List Nat :=
  upTo isWideNul limit (fun i => wideAt m (address + 2 * i))

def IsWideString (m : Memory) (address : Nat) (text : List Nat) : Prop :=
  Holds isWideNul (fun i => wideAt m (address + 2 * i)) text

/-- The runtime constraints are met. -/
def Allowed (m : Memory) : Call → Prop
  | .memcpyS s1 s1max s2 n | .memmoveS s1 s1max s2 n => s1 ≠ 0 ∧ s2 ≠ 0 ∧ n ≤ s1max
  | .memsetS s smax _ n => s ≠ 0 ∧ n ≤ smax
  | .strcatS s1 s1max s2 =>
      let existing := (characters m s1 s1max).length
      let left := s1max - existing
      s1 ≠ 0 ∧ s2 ≠ 0 ∧ existing < s1max ∧ (characters m s2 left).length < left
  | .strncatS s1 s1max s2 n =>
      let existing := (characters m s1 s1max).length
      let left := s1max - existing
      s1 ≠ 0 ∧ s2 ≠ 0 ∧ existing < s1max ∧ (left ≤ n → (characters m s2 left).length < left)
  | .strncpyS s1 s1max s2 n =>
      s1 ≠ 0 ∧ s2 ≠ 0 ∧ 0 < s1max ∧ (s1max ≤ n → (characters m s2 s1max).length < s1max)
  | .wcsncpyS s1 s1max s2 n =>
      s1 ≠ 0 ∧ s2 ≠ 0 ∧ 0 < s1max ∧
        (s1max ≤ n → (wideCharacters m s2 s1max).length < s1max)

/-- What a call that succeeds leaves at the destination. -/
def Result (m m' : Memory) : Call → Prop
  | .memcpyS s1 _ s2 n | .memmoveS s1 _ s2 n => ∀ i < n, m' (s1 + i) = m (s2 + i)
  | .memsetS s _ c n => ∀ i < n, m' (s + i) = UInt8.ofNat c
  | .strcatS s1 s1max s2 =>
      let existing := characters m s1 s1max
      IsString m' s1 (existing ++ characters m s2 (s1max - existing.length))
  | .strncatS s1 s1max s2 n =>
      IsString m' s1 (characters m s1 s1max ++ characters m s2 n)
  | .strncpyS s1 _ s2 n => IsString m' s1 (characters m s2 n)
  | .wcsncpyS s1 _ s2 n => IsWideString m' s1 (wideCharacters m s2 n)

/-- What a call that is refused leaves at the destination. -/
def Scrubbed (m' : Memory) : Call → Prop
  | .memcpyS s1 s1max _ _ | .memmoveS s1 s1max _ _ => ∀ i < s1max, m' (s1 + i) = 0
  | .memsetS s smax c _ => ∀ i < smax, m' (s + i) = UInt8.ofNat c
  | .strcatS s1 _ _ | .strncatS s1 _ _ _ | .strncpyS s1 _ _ _ => IsString m' s1 []
  | .wcsncpyS s1 _ _ _ => IsWideString m' s1 []

/-- Nothing is written outside a run of bytes. -/
def KeptOutside (start count : Nat) (m m' : Memory) : Prop :=
  ∀ a, ¬ (start ≤ a ∧ a < start + count) → m' a = m a

/-- What an answer and the memory behind it must be. -/
structure Correct (c : Call) (m : Memory) (answer : Nat) (m' : Memory) : Prop where
  kept : KeptOutside c.destination (c.width * c.size) m m'
  result : answer = 0 → Allowed m c ∧ Result m m' c
  scrubbed : answer ≠ 0 → c.destination ≠ 0 → 0 < c.size → Scrubbed m' c

/-- The call answers, and as Annex K has it. -/
def Meets (c : Call) (m : Memory) : Prop :=
  ∃ answer m', c.run overlapped m = .ok (answer, m') ∧ Correct c m answer m'

/-- The call does so whatever `copy_nonoverlapping` leaves of runs that overlap. -/
def MeetsAnnexK (c : Call) (m : Memory) : Prop := ∀ overlapped, Meets overlapped c m

/-- The inputs on which the code does. -/
def HoldsWhen (m : Memory) : Call → Prop
  | .memcpyS s1 s1max s2 n =>
      if s1 = 0 ∨ s2 = 0 ∨ s1max < n then s1 = 0 ∨ s1max < 2 ^ 63 else ¬ Overlap s2 n s1 n
  | .memmoveS s1 s1max s2 n => s1 = 0 ∨ s2 = 0 ∨ s1max < n → s1 = 0 ∨ s1max < 2 ^ 63
  | .memsetS s smax _ n => s = 0 ∨ min smax n < 2 ^ 63
  | .strcatS s1 s1max s2 =>
      let existing := (characters m s1 s1max).length
      let addition := (characters m s2 (s1max - existing)).length
      s1 = 0 ∨ s2 = 0 ∨ s1max < (bytes m s1).length + (bytes m s2).length + 1 ∨
        existing ≤ MAX_STRING ∧ addition ≤ MAX_STRING
  | .strncatS s1 s1max s2 n =>
      let existing := (characters m s1 s1max).length
      let addition := (characters m s2 n).length
      s1 = 0 ∨ s2 = 0 ∨ s1max < (bytes m s1).length + ((bytes m s2).take n).length + 1 ∨
        existing ≤ MAX_STRING ∧ addition ≤ MAX_STRING
  | .strncpyS s1 s1max s2 n =>
      s1 = 0 ∨ s2 = 0 ∨ s1max < ((bytes m s2).take n).length + 1 ∨
        (characters m s2 n).length ≤ MAX_STRING
  | .wcsncpyS s1 s1max s2 n =>
      s1 = 0 ∨ s2 = 0 ∨ s1max < (wideCharacters m s2 n).length + 1 →
        s1 = 0 ∨ s1max = 0 ∨ m (s1 + 1) = 0

/-! ## Stores -/

theorem writeBytes_eq {m : Memory} {at' : Nat} (h : at' ≠ 0) (data : Text) :
    writeBytes m at' data = store m at' data := by
  unfold writeBytes
  by_cases hnil : data = []
  · rw [if_pos (Or.inr hnil)]
    funext a
    rw [store_outside]
    rw [hnil, List.length_nil]
    omega
  · rw [if_neg (by simp [h, hnil])]

theorem keptOutside_store {m : Memory} {start count at' : Nat} {data : Text}
    (hlow : start ≤ at') (hhigh : at' + data.length ≤ start + count) :
    KeptOutside start count m (store m at' data) := by
  intro a ha
  apply store_outside
  omega

theorem KeptOutside.trans {start count : Nat} {m m' m'' : Memory}
    (h : KeptOutside start count m m') (h' : KeptOutside start count m' m'') :
    KeptOutside start count m m'' := by
  intro a ha
  rw [h' a ha, h a ha]

theorem KeptOutside.refl (start count : Nat) (m : Memory) : KeptOutside start count m m :=
  fun _ _ => rfl

theorem meets_iff_of_run {c : Call} {m : Memory} {answer : Nat} {m' : Memory}
    (h : c.run overlapped m = .ok (answer, m')) :
    Meets overlapped c m ↔ Correct c m answer m' := by
  unfold Meets
  rw [h]
  constructor
  · rintro ⟨answer', m'', heq, hcorrect⟩
    cases heq
    exact hcorrect
  · intro hcorrect
    exact ⟨answer, m', rfl, hcorrect⟩

theorem not_meets_of_fault {c : Call} {m : Memory} (h : c.run overlapped m = fault) :
    ¬ Meets overlapped c m := by
  rintro ⟨answer, m', hrun, _⟩
  rw [h] at hrun
  cases hrun

/-! ## The memory forms -/

/-- A refusal that fills answers where the destination is null or a vector can have its
size. -/
theorem refuseAnnexK_fill (m : Memory) (s1 s1max : Nat) :
    refuseAnnexK m s1 s1max false =
      if s1 = 0 ∨ s1max < 2 ^ 63 then
        .ok (CONSTRAINT_VIOLATION, if s1 = 0 then m else store m s1 (List.replicate s1max 0))
      else fault := by
  unfold refuseAnnexK filled
  by_cases hnull : s1 = 0
  · rw [if_neg (fun h => h.1 hnull), if_pos (Or.inl hnull), if_pos hnull]
    rfl
  · by_cases hempty : s1max = 0
    · rw [if_neg (by omega), if_pos (by omega), if_neg hnull, hempty]
      have hstore : store m s1 (List.replicate 0 0) = m := by
        funext a
        apply store_outside
        simp
      rw [hstore]
      rfl
    · rw [if_pos (by omega), if_neg Bool.false_ne_true]
      by_cases hlarge : s1max < 2 ^ 63
      · rw [if_pos hlarge, if_pos (Or.inr hlarge), if_neg hnull, ← writeBytes_eq hnull]
        rfl
      · rw [if_neg hlarge, if_neg (by omega)]
        rfl

theorem store_fill {m : Memory} {s count i : Nat} {byte : UInt8} (h : i < count) :
    store m s (List.replicate count byte) (s + i) = byte := by
  rw [store_inside (by rwa [List.length_replicate]), List.getElem_replicate]

theorem meets_refused_fill {c : Call} {m : Memory}
    (hrun : c.run overlapped m = refuseAnnexK m c.destination c.size false)
    (hwidth : c.width = 1)
    (hscrubbed : ∀ m', (∀ i < c.size, m' (c.destination + i) = 0) → Scrubbed m' c) :
    Meets overlapped c m ↔ c.destination = 0 ∨ c.size < 2 ^ 63 := by
  rw [refuseAnnexK_fill] at hrun
  by_cases hanswers : c.destination = 0 ∨ c.size < 2 ^ 63
  · rw [if_pos hanswers] at hrun
    rw [meets_iff_of_run overlapped hrun]
    refine iff_of_true ?_ hanswers
    constructor
    · rw [hwidth, Nat.one_mul]
      split
      · exact KeptOutside.refl _ _ _
      · apply keptOutside_store le_rfl
        rw [List.length_replicate]
    · intro hzero
      cases hzero
    · intro _ hsome _
      rw [if_neg hsome]
      exact hscrubbed _ (fun i hi => store_fill hi)
  · rw [if_neg hanswers] at hrun
    exact iff_of_false (not_meets_of_fault overlapped hrun) hanswers

theorem copy_inside (m : Memory) {source destination count i : Nat} (h : i < count) :
    copy m source destination count (destination + i) = m (source + i) := by
  unfold copy
  rw [if_pos ⟨Nat.le_add_right _ _, Nat.add_lt_add_left h _⟩, Nat.add_sub_cancel_left]

theorem keptOutside_copy (m : Memory) {source destination count size : Nat} (h : count ≤ size) :
    KeptOutside destination size m (copy m source destination count) := by
  intro a ha
  apply if_neg
  omega

/-- The memory with one byte changed. -/
def disturbed (m : Memory) (at' : Nat) : Memory := Function.update m at' (m at' + 1)

/-- Runs that overlap may be left anyhow, and a byte behind the destination changed. -/
theorem meets_memcpyS_iff (m : Memory) (s1 s1max s2 n : Nat) :
    MeetsAnnexK (.memcpyS s1 s1max s2 n) m ↔ HoldsWhen m (.memcpyS s1 s1max s2 n) := by
  dsimp only [HoldsWhen]
  by_cases hrefused : s1 = 0 ∨ s2 = 0 ∨ s1max < n
  · rw [if_pos hrefused]
    have hmeets : ∀ overlapped, Meets overlapped (.memcpyS s1 s1max s2 n) m ↔
        s1 = 0 ∨ s1max < 2 ^ 63 :=
      fun overlapped => meets_refused_fill overlapped (if_pos hrefused) rfl (fun _ h => h)
    exact ⟨fun h => (hmeets _).mp (h copy), fun h overlapped => (hmeets overlapped).mpr h⟩
  · have hrun : ∀ overlapped, Call.run overlapped m (.memcpyS s1 s1max s2 n) =
        .ok (0, copyNonoverlapping overlapped m s2 s1 n) := fun _ => if_neg hrefused
    rw [if_neg hrefused]
    simp only [not_or, Nat.not_lt] at hrefused
    obtain ⟨hs1, hs2, hn⟩ := hrefused
    constructor
    · intro hmeets hoverlap
      have hcorrect := (meets_iff_of_run _ (hrun _)).mp
        (hmeets (fun m _ destination _ => disturbed m (destination + s1max)))
      have hkept := hcorrect.kept (s1 + s1max) (by
        show ¬ (s1 ≤ s1 + s1max ∧ s1 + s1max < s1 + 1 * s1max)
        omega)
      rw [copyNonoverlapping, if_pos hoverlap, disturbed, Function.update_self] at hkept
      simp at hkept
    · intro hapart overlapped
      have hcopy : copyNonoverlapping overlapped m s2 s1 n = copy m s2 s1 n := if_neg hapart
      rw [meets_iff_of_run overlapped (hrun overlapped), hcopy]
      constructor
      · show KeptOutside s1 (1 * s1max) m _
        rw [Nat.one_mul]
        exact keptOutside_copy m hn
      · intro _
        exact ⟨⟨hs1, hs2, hn⟩, fun i hi => copy_inside m hi⟩
      · intro hne
        exact absurd rfl hne

theorem meets_memmoveS_iff (m : Memory) (s1 s1max s2 n : Nat) :
    Meets overlapped (.memmoveS s1 s1max s2 n) m ↔
      HoldsWhen m (.memmoveS s1 s1max s2 n) := by
  dsimp only [HoldsWhen]
  by_cases hrefused : s1 = 0 ∨ s2 = 0 ∨ s1max < n
  · rw [imp_iff_right hrefused]
    exact meets_refused_fill overlapped (if_pos hrefused) rfl (fun _ h => h)
  · have hrun : Call.run overlapped m (.memmoveS s1 s1max s2 n) = .ok (0, copy m s2 s1 n) :=
      if_neg hrefused
    rw [meets_iff_of_run overlapped hrun]
    refine iff_of_true ?_ (fun h => absurd h hrefused)
    simp only [not_or, Nat.not_lt] at hrefused
    constructor
    · show KeptOutside s1 (1 * s1max) m _
      rw [Nat.one_mul]
      exact keptOutside_copy m hrefused.2.2
    · intro _
      exact ⟨hrefused, fun i hi => copy_inside m hi⟩
    · intro hne
      exact absurd rfl hne

theorem meets_memsetS_iff (m : Memory) (s smax c n : Nat) :
    Meets overlapped (.memsetS s smax c n) m ↔ HoldsWhen m (.memsetS s smax c n) := by
  dsimp only [HoldsWhen]
  by_cases hnull : s = 0
  · have hrun : Call.run overlapped m (.memsetS s smax c n) = .ok (CONSTRAINT_VIOLATION, m) :=
      if_pos hnull
    rw [meets_iff_of_run overlapped hrun]
    refine iff_of_true ?_ (Or.inl hnull)
    constructor
    · exact KeptOutside.refl _ _ _
    · intro hzero
      cases hzero
    · intro _ hsome
      exact absurd hnull hsome
  · have hcount : (if smax < n then smax else min smax n) = min smax n := by
      split <;> omega
    have hrun : Call.run overlapped m (.memsetS s smax c n) =
        filled (UInt8.ofNat c) (min smax n) >>= fun fill =>
          pure (if smax < n then CONSTRAINT_VIOLATION else 0, writeBytes m s fill) := by
      rw [← hcount]
      exact if_neg hnull
    by_cases hlarge : min smax n < 2 ^ 63
    · have hfilled : filled (UInt8.ofNat c) (min smax n) =
          .ok (List.replicate (min smax n) (UInt8.ofNat c)) := if_pos hlarge
      rw [hfilled, ok_bind, writeBytes_eq hnull] at hrun
      rw [meets_iff_of_run overlapped hrun]
      refine iff_of_true ?_ (Or.inr hlarge)
      constructor
      · show KeptOutside s (1 * smax) m _
        rw [Nat.one_mul]
        apply keptOutside_store le_rfl
        rw [List.length_replicate]
        exact Nat.add_le_add_left (min_le_left smax n) s
      · intro hzero
        have hn : n ≤ smax := by
          by_contra hlonger
          rw [if_pos (by omega)] at hzero
          cases hzero
        exact ⟨⟨hnull, hn⟩, fun i hi => store_fill (by omega)⟩
      · intro hne _ _ i hi
        have hn : smax < n := by
          by_contra hshort
          rw [if_neg hshort] at hne
          exact hne rfl
        exact store_fill (by omega)
    · have hfilled : filled (UInt8.ofNat c) (min smax n) = fault := if_neg hlarge
      rw [hfilled] at hrun
      exact iff_of_false (not_meets_of_fault overlapped hrun) (by omega)

/-! ## The string forms -/

theorem meets_refused_string {c : Call} {m : Memory}
    (hrun : c.run overlapped m = refuseAnnexK m c.destination c.size true) (hwidth : c.width = 1)
    (hscrubbed : ∀ m', IsString m' c.destination [] → Scrubbed m' c) :
    Meets overlapped c m := by
  unfold refuseAnnexK at hrun
  by_cases hsome : c.destination ≠ 0 ∧ 0 < c.size
  · rw [if_pos hsome, if_pos rfl, writeBytes_eq hsome.1] at hrun
    refine ⟨_, _, hrun, ?_⟩
    constructor
    · rw [hwidth, Nat.one_mul]
      apply keptOutside_store le_rfl
      exact Nat.add_le_add_left hsome.2 _
    · intro hzero
      cases hzero
    · intro _ _ _
      apply hscrubbed
      constructor
      · intro i hi
        exact absurd hi (Nat.not_lt_zero i)
      · have hstored : store m c.destination [0] (c.destination + 0) = 0 :=
          store_inside Nat.one_pos
        show isNul (store m c.destination [0] (c.destination + 0))
        rw [hstored]
        rfl
  · rw [if_neg hsome] at hrun
    refine ⟨_, _, hrun, ?_⟩
    constructor
    · exact KeptOutside.refl _ _ _
    · intro hzero
      cases hzero
    · intro _ hdestination hsize
      exact absurd ⟨hdestination, hsize⟩ hsome

/-- An addition and a terminator stored behind what a string holds make one string. -/
theorem isString_appended {m : Memory} {s1 : Nat} {existing addition : Text}
    (hexisting : ∀ i (h : i < existing.length), m (s1 + i) = existing[i]) :
    IsString (store (store m (s1 + existing.length) addition)
      (s1 + (existing.length + addition.length)) [0]) s1 (existing ++ addition) := by
  constructor
  · intro i hi
    rw [List.length_append] at hi
    rw [store_outside (by rw [List.length_singleton]; omega)]
    by_cases hfirst : i < existing.length
    · rw [store_outside (by omega), hexisting i hfirst, List.getElem_append_left hfirst]
    · obtain ⟨j, rfl⟩ := Nat.exists_eq_add_of_le (Nat.le_of_not_lt hfirst)
      rw [← Nat.add_assoc, store_inside (by omega), List.getElem_append_right (by omega)]
      congr 1
      omega
  · rw [List.length_append]
    show isNul (store _ _ [0] (s1 + (existing.length + addition.length) + 0))
    rw [store_inside Nat.one_pos]
    rfl

/-- A string form that answers zero is right where it is allowed and its text is the
specified one. -/
theorem meets_appended_iff {c : Call} {m : Memory} {s1 : Nat} {existing addition text : Text}
    (hs1 : s1 ≠ 0) (hrun : c.run overlapped m =
      pure (0, writeBytes (writeBytes m (s1 + existing.length) addition)
        (s1 + (existing.length + addition.length)) [0]))
    (hdestination : c.destination = s1) (hwidth : c.width = 1)
    (hsize : existing.length + addition.length + 1 ≤ c.size)
    (hexisting : ∀ i (h : i < existing.length), m (s1 + i) = existing[i])
    (hplain : ∀ b ∈ existing ++ addition, isNul b = false)
    (hresult : ∀ m', Result m m' c ↔ IsString m' s1 text)
    (htext : ∀ b ∈ text, isNul b = false) :
    Meets overlapped c m ↔ Allowed m c ∧ text = existing ++ addition := by
  rw [writeBytes_eq (by omega), writeBytes_eq (by omega)] at hrun
  have hstring := @isString_appended m s1 existing addition hexisting
  rw [meets_iff_of_run overlapped hrun]
  constructor
  · intro hcorrect
    obtain ⟨hallowed, hholds⟩ := hcorrect.result rfl
    rw [hresult] at hholds
    exact ⟨hallowed, hholds.unique hstring htext hplain⟩
  · rintro ⟨hallowed, hsame⟩
    constructor
    · rw [hdestination, hwidth, Nat.one_mul]
      have hfirst : KeptOutside s1 c.size m (store m (s1 + existing.length) addition) :=
        keptOutside_store (Nat.le_add_right _ _) (by omega)
      apply hfirst.trans
      apply keptOutside_store (Nat.le_add_right _ _)
      rw [List.length_singleton]
      omega
    · intro _
      rw [hresult, hsame]
      exact ⟨hallowed, hstring⟩
    · intro hne
      exact absurd rfl hne

theorem bytes_eq {m : Memory} {address : Nat} (h : address ≠ 0) :
    bytes m address = characters m address MAX_STRING := bytes_eq_upTo h

theorem characters_plain (m : Memory) (address limit : Nat) :
    ∀ b ∈ characters m address limit, isNul b = false := upTo_plain _ _

theorem characters_same (m : Memory) (address limit : Nat) (i : Nat)
    (h : i < (characters m address limit).length) :
    m (address + i) = (characters m address limit)[i] := (upTo_getElem _ _ h).symm

theorem characters_length_le (m : Memory) (address limit : Nat) :
    (characters m address limit).length ≤ limit := upTo_length_le _ _

theorem characters_le_of_ended {m : Memory} {address limit : Nat}
    (h : (characters m address limit).length < limit) (other : Nat) :
    (characters m address other).length ≤ (characters m address limit).length :=
  upTo_length_le_of_ended h other

theorem take_characters {few many : Nat} (h : few ≤ many) (m : Memory) (address : Nat) :
    (characters m address many).take few = characters m address few := take_upTo h _

theorem characters_eq {m : Memory} {address limit other : Nat}
    (h : (characters m address limit).length ≤ other)
    (hother : (characters m address other).length ≤ limit) :
    characters m address limit = characters m address other := upTo_eq h hother

/-- What the code takes of a string is no longer than what it is asked for. -/
theorem taken_length_le {m : Memory} {s2 : Nat} (hs2 : s2 ≠ 0) (n : Nat) :
    ((bytes m s2).take n).length ≤ (characters m s2 n).length := by
  rw [bytes_eq hs2]
  rcases Nat.le_total n MAX_STRING with hle | hle
  · rw [characters, take_upTo hle]
    exact le_rfl
  · have htake := congrArg List.length (@take_upTo UInt8 isNul _ _ hle (fun i => m (s2 + i)))
    rw [List.length_take] at htake
    rw [List.length_take]
    unfold characters
    omega

/-- What the code takes of a string no longer than the longest is what it is asked for. -/
theorem taken_eq {m : Memory} {s2 : Nat} (hs2 : s2 ≠ 0) {n : Nat}
    (h : (characters m s2 n).length ≤ MAX_STRING) :
    (bytes m s2).take n = characters m s2 n := by
  rw [bytes_eq hs2]
  rcases Nat.le_total n MAX_STRING with hle | hle
  · exact take_upTo hle _
  · have hlength := @upTo_length_le UInt8 isNul MAX_STRING (fun i => m (s2 + i))
    have htake := @take_upTo UInt8 isNul _ _ hle (fun i => m (s2 + i))
    unfold characters at h ⊢
    rw [List.take_of_length_le (by omega), ← htake, List.take_of_length_le h]

theorem append_plain {text other : Text} (h : ∀ b ∈ text, isNul b = false)
    (hother : ∀ b ∈ other, isNul b = false) : ∀ b ∈ text ++ other, isNul b = false := by
  intro b hb
  rcases List.mem_append.mp hb with hb | hb
  · exact h b hb
  · exact hother b hb

theorem taken_plain {m : Memory} {s2 : Nat} (hs2 : s2 ≠ 0) (n : Nat) :
    ∀ b ∈ (bytes m s2).take n, isNul b = false := by
  rw [bytes_eq hs2]
  exact fun b hb => characters_plain m s2 MAX_STRING b (List.mem_of_mem_take hb)

theorem meets_strcatS_iff (m : Memory) (s1 s1max s2 : Nat) :
    Meets overlapped (.strcatS s1 s1max s2) m ↔ HoldsWhen m (.strcatS s1 s1max s2) := by
  dsimp only [HoldsWhen]
  by_cases hnull : s1 = 0 ∨ s2 = 0
  · refine iff_of_true ?_ (by tauto)
    exact meets_refused_string overlapped (if_pos hnull) rfl (fun _ h => h)
  · have hrun : Call.run overlapped m (.strcatS s1 s1max s2) = _ := if_neg hnull
    obtain ⟨hs1, hs2⟩ := not_or.mp hnull
    dsimp only at hrun
    by_cases hlong : s1max < (bytes m s1).length + (bytes m s2).length + 1
    · rw [if_pos hlong] at hrun
      refine iff_of_true ?_ (by tauto)
      exact meets_refused_string overlapped hrun rfl (fun _ h => h)
    · rw [if_neg hlong] at hrun
      rw [Nat.not_lt] at hlong
      have hmeets := @meets_appended_iff overlapped (.strcatS s1 s1max s2) m s1 (bytes m s1)
        (bytes m s2)
        (characters m s1 s1max ++ characters m s2 (s1max - (characters m s1 s1max).length))
        hs1 hrun rfl rfl hlong
        (by rw [bytes_eq hs1]; exact characters_same m s1 MAX_STRING)
        (by
          rw [bytes_eq hs1, bytes_eq hs2]
          exact append_plain (characters_plain _ _ _) (characters_plain _ _ _))
        (fun _ => Iff.rfl) (append_plain (characters_plain _ _ _) (characters_plain _ _ _))
      rw [hmeets, bytes_eq hs1, bytes_eq hs2]
      rw [bytes_eq hs1, bytes_eq hs2] at hlong
      have hP := characters_length_le m s1 MAX_STRING
      have hQ := characters_length_le m s2 MAX_STRING
      constructor
      · rintro ⟨⟨_, _, hexisting, haddition⟩, htext⟩
        have hlengths := congrArg List.length htext
        simp only [List.length_append] at hlengths
        have hexisting' := characters_le_of_ended hexisting MAX_STRING
        have haddition' := characters_le_of_ended haddition MAX_STRING
        exact Or.inr (Or.inr (Or.inr ⟨by omega, by omega⟩))
      · rintro (hzero | hzero | hlonger | ⟨hexisting, haddition⟩)
        · exact absurd hzero hs1
        · exact absurd hzero hs2
        · omega
        · have hfirst := characters_eq hexisting (by omega)
          have hsecond := characters_eq haddition (by rw [hfirst]; omega)
          have hlengths := congrArg List.length hsecond
          rw [hsecond]
          refine ⟨⟨hs1, hs2, by rw [hfirst]; omega, ?_⟩, by rw [hfirst]⟩
          rw [hlengths, hfirst]
          omega

theorem meets_strncatS_iff (m : Memory) (s1 s1max s2 n : Nat) :
    Meets overlapped (.strncatS s1 s1max s2 n) m ↔
      HoldsWhen m (.strncatS s1 s1max s2 n) := by
  dsimp only [HoldsWhen]
  by_cases hnull : s1 = 0 ∨ s2 = 0
  · refine iff_of_true ?_ (by tauto)
    exact meets_refused_string overlapped (if_pos hnull) rfl (fun _ h => h)
  · have hrun : Call.run overlapped m (.strncatS s1 s1max s2 n) = _ := if_neg hnull
    obtain ⟨hs1, hs2⟩ := not_or.mp hnull
    dsimp only at hrun
    by_cases hlong : s1max < (bytes m s1).length + ((bytes m s2).take n).length + 1
    · rw [if_pos hlong] at hrun
      refine iff_of_true ?_ (by tauto)
      exact meets_refused_string overlapped hrun rfl (fun _ h => h)
    · rw [if_neg hlong] at hrun
      rw [Nat.not_lt] at hlong
      have hmeets := @meets_appended_iff overlapped (.strncatS s1 s1max s2 n) m s1 (bytes m s1)
        ((bytes m s2).take n) (characters m s1 s1max ++ characters m s2 n) hs1 hrun rfl rfl hlong
        (by rw [bytes_eq hs1]; exact characters_same m s1 MAX_STRING)
        (by
          rw [bytes_eq hs1]
          exact append_plain (characters_plain _ _ _) (taken_plain hs2 n))
        (fun _ => Iff.rfl) (append_plain (characters_plain _ _ _) (characters_plain _ _ _))
      rw [hmeets, bytes_eq hs1]
      rw [bytes_eq hs1] at hlong
      have hP := characters_length_le m s1 MAX_STRING
      have hQ := taken_length_le (m := m) hs2 n
      have hQ' : ((bytes m s2).take n).length ≤ MAX_STRING := by
        rw [bytes_eq hs2, List.length_take]
        exact (min_le_right _ _).trans (characters_length_le m s2 MAX_STRING)
      constructor
      · rintro ⟨⟨_, _, hexisting, _⟩, htext⟩
        have hlengths := congrArg List.length htext
        simp only [List.length_append] at hlengths
        have hexisting' := characters_le_of_ended hexisting MAX_STRING
        exact Or.inr (Or.inr (Or.inr ⟨by omega, by omega⟩))
      · rintro (hzero | hzero | hlonger | ⟨hexisting, haddition⟩)
        · exact absurd hzero hs1
        · exact absurd hzero hs2
        · omega
        · have hfirst := characters_eq hexisting (by omega)
          have hsecond := taken_eq hs2 haddition
          rw [hsecond] at hlong
          refine ⟨⟨hs1, hs2, by rw [hfirst]; omega, ?_⟩, by rw [hfirst, hsecond]⟩
          intro hleft
          have hcut := congrArg List.length (take_characters hleft m s2)
          rw [List.length_take] at hcut
          rw [hfirst] at hcut ⊢
          omega

theorem meets_strncpyS_iff (m : Memory) (s1 s1max s2 n : Nat) :
    Meets overlapped (.strncpyS s1 s1max s2 n) m ↔
      HoldsWhen m (.strncpyS s1 s1max s2 n) := by
  dsimp only [HoldsWhen]
  by_cases hnull : s1 = 0 ∨ s2 = 0 ∨ s1max = 0
  · refine iff_of_true ?_ (by omega)
    exact meets_refused_string overlapped (if_pos hnull) rfl (fun _ h => h)
  · have hrun : Call.run overlapped m (.strncpyS s1 s1max s2 n) = _ := if_neg hnull
    obtain ⟨hs1, hs2, hs1max⟩ : s1 ≠ 0 ∧ s2 ≠ 0 ∧ s1max ≠ 0 := by simpa using hnull
    dsimp only at hrun
    by_cases hlong : s1max < ((bytes m s2).take n).length + 1
    · rw [if_pos hlong] at hrun
      refine iff_of_true ?_ (by tauto)
      exact meets_refused_string overlapped hrun rfl (fun _ h => h)
    · rw [if_neg hlong] at hrun
      rw [Nat.not_lt] at hlong
      have hmeets := @meets_appended_iff overlapped (.strncpyS s1 s1max s2 n) m s1 []
        ((bytes m s2).take n) (characters m s2 n) hs1
        (by simpa only [List.length_nil, Nat.add_zero, Nat.zero_add] using hrun) rfl rfl
        (by rw [List.length_nil, Nat.zero_add]; exact hlong)
        (fun i hi => absurd hi (Nat.not_lt_zero i))
        (by
          rw [List.nil_append]
          exact taken_plain hs2 n)
        (fun _ => Iff.rfl) (characters_plain _ _ _)
      rw [hmeets, List.nil_append]
      have hQ' : ((bytes m s2).take n).length ≤ MAX_STRING := by
        rw [bytes_eq hs2, List.length_take]
        exact (min_le_right _ _).trans (characters_length_le m s2 MAX_STRING)
      constructor
      · rintro ⟨_, htext⟩
        exact Or.inr (Or.inr (Or.inr (by rw [htext]; exact hQ')))
      · rintro (hzero | hzero | hlonger | hcopied)
        · exact absurd hzero hs1
        · exact absurd hzero hs2
        · omega
        · have hsource := taken_eq hs2 hcopied
          rw [hsource] at hlong
          refine ⟨⟨hs1, hs2, Nat.pos_of_ne_zero hs1max, ?_⟩, hsource.symm⟩
          intro hleft
          have hcut := congrArg List.length (take_characters hleft m s2)
          rw [List.length_take] at hcut
          omega

/-! ## Wide characters -/

theorem wideAt_lt (m : Memory) (address : Nat) : wideAt m address < 65536 := by
  have hlow := (m address).toNat_lt
  have hhigh := (m (address + 1)).toNat_lt
  unfold wideAt
  omega

theorem wideBytes_eq {m : Memory} {address : Nat} (h : address ≠ 0) (limit : Nat) :
    wideBytes m address limit = wideCharacters m address limit := by
  unfold wideBytes wideCharacters
  rw [if_neg h]
  simp only [WIDE, Nat.mul_comm]

/-- A character of two bytes reads back. -/
theorem wideAt_of_bytes {m : Memory} {address v : Nat} (hv : v < 65536)
    (hlow : m address = UInt8.ofNat v) (hhigh : m (address + 1) = UInt8.ofNat (v / 256)) :
    wideAt m address = v := by
  unfold wideAt
  rw [hlow, hhigh]
  simp only [UInt8.toNat_ofNat']
  omega

theorem flatMap_littleEndian_getElem (text : List Nat) {i : Nat} (h : i < text.length) :
    (text.flatMap (littleEndian 2))[2 * i]? = some (UInt8.ofNat text[i]) ∧
      (text.flatMap (littleEndian 2))[2 * i + 1]? = some (UInt8.ofNat (text[i] / 256)) := by
  induction text generalizing i with
  | nil => exact absurd h (Nat.not_lt_zero i)
  | cons v text ih =>
      cases i with
      | zero => exact ⟨rfl, rfl⟩
      | succ i =>
          have hrest := ih (Nat.lt_of_succ_lt_succ h)
          have hindex : 2 * (i + 1) = 2 * i + 2 := by omega
          rw [hindex]
          exact hrest

theorem flatMap_littleEndian_length (text : List Nat) :
    (text.flatMap (littleEndian 2)).length = 2 * text.length := by
  induction text with
  | nil => rfl
  | cons v text ih =>
      rw [List.flatMap_cons, List.length_append, ih, littleEndian_length, List.length_cons]
      omega

theorem wideAt_store {m : Memory} {s1 : Nat} {text : List Nat} (htext : ∀ v ∈ text, v < 65536)
    {i : Nat} (h : i < text.length) :
    wideAt (store m s1 (text.flatMap (littleEndian 2))) (s1 + 2 * i) = text[i] := by
  obtain ⟨hlow, hhigh⟩ := flatMap_littleEndian_getElem text h
  have hlength := flatMap_littleEndian_length text
  rw [List.getElem?_eq_getElem (by omega), Option.some.injEq] at hlow hhigh
  apply wideAt_of_bytes (htext _ (List.getElem_mem h))
  · rw [store_inside (by omega), hlow]
  · rw [Nat.add_assoc, store_inside (by omega), hhigh]

theorem isWideString_stored {m : Memory} {s1 : Nat} {text : List Nat}
    (htext : ∀ v ∈ text, v < 65536) :
    IsWideString (store m s1 (text.flatMap (littleEndian 2) ++ littleEndian 2 0)) s1 text := by
  have hall : ∀ v ∈ text ++ [0], v < 65536 := by
    intro v hv
    rcases List.mem_append.mp hv with hv | hv
    · exact htext v hv
    · rw [List.mem_singleton.mp hv]
      exact Nat.succ_pos _
  have hdata : text.flatMap (littleEndian 2) ++ littleEndian 2 0 =
      (text ++ [0]).flatMap (littleEndian 2) := by
    rw [List.flatMap_append]
    rfl
  rw [hdata]
  constructor
  · intro i hi
    rw [wideAt_store hall (by rw [List.length_append]; omega), List.getElem_append_left hi]
  · rw [wideAt_store hall (by rw [List.length_append]; exact Nat.lt_succ_self _),
      List.getElem_append_right (le_refl _)]
    simp [isWideNul]

/-- A refusal writes one byte, half of the wide character that ends a wide string. -/
theorem meets_refused_wide {m : Memory} {s1 s1max s2 n : Nat}
    (hrun : Call.run overlapped m (.wcsncpyS s1 s1max s2 n) =
      refuseAnnexK m s1 (min (s1max * WIDE) (2 ^ 64 - 1)) true) :
    Meets overlapped (.wcsncpyS s1 s1max s2 n) m ↔
      s1 = 0 ∨ s1max = 0 ∨ m (s1 + 1) = 0 := by
  have hwide : WIDE = 2 := rfl
  unfold refuseAnnexK at hrun
  by_cases hsome : s1 ≠ 0 ∧ 0 < min (s1max * WIDE) (2 ^ 64 - 1)
  · rw [if_pos hsome, if_pos rfl, writeBytes_eq hsome.1] at hrun
    have hsize : 0 < s1max := by
      rw [hwide] at hsome
      omega
    rw [meets_iff_of_run overlapped hrun]
    have hempty : IsWideString (store m s1 [0]) s1 [] ↔ m (s1 + 1) = 0 := by
      have hfirst : store m s1 [0] (s1 + 0) = 0 := store_inside Nat.one_pos
      have hsecond : store m s1 [0] (s1 + 1) = m (s1 + 1) := store_outside (by simp)
      have hvalue : wideAt (store m s1 [0]) (s1 + 2 * 0) = 256 * (m (s1 + 1)).toNat := by
        rw [Nat.mul_zero, wideAt, hfirst, Nat.add_zero, hsecond]
        exact Nat.zero_add _
      constructor
      · intro h
        have hend : isWideNul (wideAt (store m s1 [0]) (s1 + 2 * 0)) := h.ended
        rw [hvalue] at hend
        apply UInt8.toNat_inj.mp
        simpa [isWideNul] using hend
      · intro hzero
        constructor
        · intro i hi
          exact absurd hi (Nat.not_lt_zero i)
        · show isWideNul (wideAt (store m s1 [0]) (s1 + 2 * 0))
          rw [hvalue, hzero]
          rfl
    constructor
    · intro hcorrect
      have hscrubbed := hcorrect.scrubbed (by decide) hsome.1 hsize
      exact Or.inr (Or.inr (hempty.mp hscrubbed))
    · rintro (hzero | hzero | hzero)
      · exact absurd hzero hsome.1
      · omega
      · constructor
        · apply keptOutside_store le_rfl
          show s1 + 1 ≤ s1 + 2 * s1max
          omega
        · intro h
          cases h
        · intro _ _ _
          exact hempty.mpr hzero
  · rw [if_neg hsome] at hrun
    rw [meets_iff_of_run overlapped hrun]
    have hnone : s1 = 0 ∨ s1max = 0 := by
      rw [hwide] at hsome
      omega
    refine iff_of_true ?_ (by tauto)
    constructor
    · exact KeptOutside.refl _ _ _
    · intro h
      cases h
    · intro _ hdestination hsize
      have hdestination' : s1 ≠ 0 := hdestination
      have hsize' : 0 < s1max := hsize
      omega

theorem meets_wcsncpyS_iff (m : Memory) (s1 s1max s2 n : Nat) :
    Meets overlapped (.wcsncpyS s1 s1max s2 n) m ↔ HoldsWhen m (.wcsncpyS s1 s1max s2 n) := by
  dsimp only [HoldsWhen]
  by_cases hnull : s1 = 0 ∨ s2 = 0 ∨ s1max = 0
  · rw [imp_iff_right (by omega)]
    exact meets_refused_wide overlapped (if_pos hnull)
  · have hrun : Call.run overlapped m (.wcsncpyS s1 s1max s2 n) = _ := if_neg hnull
    obtain ⟨hs1, hs2, hs1max⟩ : s1 ≠ 0 ∧ s2 ≠ 0 ∧ s1max ≠ 0 := by simpa using hnull
    rw [wideBytes_eq hs2] at hrun
    by_cases hlong : s1max < (wideCharacters m s2 n).length + 1
    · rw [if_pos hlong] at hrun
      rw [imp_iff_right (Or.inr (Or.inr hlong))]
      exact meets_refused_wide overlapped hrun
    · rw [if_neg hlong, writeBytes_eq hs1] at hrun
      rw [meets_iff_of_run overlapped hrun]
      refine iff_of_true ?_ (fun h => by omega)
      rw [Nat.not_lt] at hlong
      constructor
      · apply keptOutside_store le_rfl
        rw [List.length_append]
        have hlength := flatMap_littleEndian_length (wideCharacters m s2 n)
        show s1 + (((wideCharacters m s2 n).flatMap (littleEndian 2)).length + 2) ≤ s1 + 2 * s1max
        omega
      · intro _
        have hsmall : ∀ v ∈ wideCharacters m s2 n, v < 65536 := by
          intro v hv
          obtain ⟨i, rfl⟩ := mem_upTo hv
          exact wideAt_lt _ _
        refine ⟨⟨hs1, hs2, Nat.pos_of_ne_zero hs1max, ?_⟩, isWideString_stored hsmall⟩
        intro hleft
        have hcut : (wideCharacters m s2 n).take s1max = wideCharacters m s2 s1max :=
          take_upTo hleft _
        have hlengths := congrArg List.length hcut
        rw [List.length_take] at hlengths
        omega
      · intro hne
        exact absurd rfl hne

/-- What holds whatever is left of overlapping runs holds in the end. -/
theorem meetsAnnexK_of_all {c : Call} {m : Memory}
    (h : ∀ overlapped, Meets overlapped c m ↔ HoldsWhen m c) :
    MeetsAnnexK c m ↔ HoldsWhen m c :=
  ⟨fun hmeets => (h copy).mp (hmeets copy), fun hholds overlapped => (h overlapped).mpr hholds⟩

/-- The seven functions do what Annex K has them do exactly on these inputs. -/
theorem meetsAnnexK_iff (c : Call) (m : Memory) : MeetsAnnexK c m ↔ HoldsWhen m c := by
  cases c with
  | memcpyS s1 s1max s2 n => exact meets_memcpyS_iff m s1 s1max s2 n
  | memmoveS s1 s1max s2 n =>
      exact meetsAnnexK_of_all (fun overlapped => meets_memmoveS_iff overlapped m s1 s1max s2 n)
  | memsetS s smax c n =>
      exact meetsAnnexK_of_all (fun overlapped => meets_memsetS_iff overlapped m s smax c n)
  | strcatS s1 s1max s2 =>
      exact meetsAnnexK_of_all (fun overlapped => meets_strcatS_iff overlapped m s1 s1max s2)
  | strncatS s1 s1max s2 n =>
      exact meetsAnnexK_of_all (fun overlapped => meets_strncatS_iff overlapped m s1 s1max s2 n)
  | strncpyS s1 s1max s2 n =>
      exact meetsAnnexK_of_all (fun overlapped => meets_strncpyS_iff overlapped m s1 s1max s2 n)
  | wcsncpyS s1 s1max s2 n =>
      exact meetsAnnexK_of_all (fun overlapped => meets_wcsncpyS_iff overlapped m s1 s1max s2 n)

/-- Two characters of two bytes refused room for one more, and a destination that is not
empty after it. -/
theorem annexK_differs : ¬ MeetsAnnexK (.wcsncpyS 8 2 16 2) (fun _ => 65) := by
  intro h
  have hholds := (meets_wcsncpyS_iff copy (fun _ => 65) 8 2 16 2).mp (h copy)
  revert hholds
  dsimp only [HoldsWhen]
  decide +kernel

end Orbistoun.Libc.AnnexK

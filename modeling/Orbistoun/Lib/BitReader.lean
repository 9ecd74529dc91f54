import Mathlib.Tactic

/-! # Reading a word bit by bit

A reader takes runs of bits from a word, least significant first. What it took is kept as spans, so
that a reader can be said to take each bit once; and a reader whose result tells every bit it took
has equal results on equal bits alone.
-/

namespace Orbistoun.Lib.BitReader

/-- A word, how far it is read, and the runs read so far, each its first bit and its count. -/
structure Cursor where
  word : Nat
  next : Nat
  spans : List (Nat × Nat)

/-- A reader fails where the code it models would panic. -/
abbrev Reader (α : Type) := StateT Cursor Option α

/-- The next bits of a word of a size; none may begin past its end. -/
def readBits (size count : Nat) : Reader Nat := fun s =>
  if count = 0 then some (0, s)
  else if size ≤ s.next then none
  else some (s.word / 2 ^ s.next % 2 ^ count,
    { s with next := s.next + count, spans := s.spans ++ [(s.next, count)] })

theorem bind_eq_some {α β : Type} {m : Reader α} {f : α → Reader β} {s : Cursor}
    {r : β × Cursor} : (m >>= f) s = some r ↔ ∃ a s', m s = some (a, s') ∧ f a s' = some r := by
  show (m s).bind (fun p => f p.1 p.2) = some r ↔ _
  rw [Option.bind_eq_some_iff]
  constructor
  · rintro ⟨⟨a, s'⟩, hm, hf⟩
    exact ⟨a, s', hm, hf⟩
  · rintro ⟨a, s', hm, hf⟩
    exact ⟨⟨a, s'⟩, hm, hf⟩

theorem pure_eq_some {α : Type} {a : α} {s : Cursor} {r : α × Cursor} :
    (pure a : Reader α) s = some r ↔ (a, s) = r := Option.some_inj

/-! ## What a reader takes -/

/-- Between two cursors exactly the next bits were taken, in order. -/
abbrev Took (s s' : Cursor) (count : Nat) : Prop :=
  s'.word = s.word ∧ s'.next = s.next + count ∧ ∃ spans, s'.spans = s.spans ++ spans ∧
    spans.flatMap (fun span => List.range' span.1 span.2) = List.range' s.next count

theorem Took.trans {s s' s'' : Cursor} {count more : Nat} (h : Took s s' count)
    (h' : Took s' s'' more) : Took s s'' (count + more) := by
  obtain ⟨hword, hnext, spans, hspans, hcover⟩ := h
  obtain ⟨hword', hnext', spans', hspans', hcover'⟩ := h'
  refine ⟨hword'.trans hword, by omega, spans ++ spans', ?_, ?_⟩
  · rw [hspans', hspans, List.append_assoc]
  · rw [List.flatMap_append, hcover, hcover', hnext, List.range'_append_1]

/-- With as many bits left a reader takes exactly the next ones, in order, and its result is as
said. -/
def Reads {α : Type} (size : Nat) (m : Reader α) (count : Nat) (P : α → Prop) : Prop :=
  ∀ s : Cursor, s.next + count ≤ size → ∃ a s', m s = some (a, s') ∧ P a ∧ Took s s' count

section Reads

variable {α β : Type} {size : Nat}

theorem Reads.pure {a : α} {P : α → Prop} (h : P a) : Reads size (Pure.pure a : Reader α) 0 P := by
  intro s hs
  exact ⟨a, s, rfl, h, rfl, rfl, [], (List.append_nil _).symm, rfl⟩

theorem Reads.readBits (count : Nat) : Reads size (BitReader.readBits size count) count (· < 2 ^ count) := by
  intro s hs
  unfold BitReader.readBits
  by_cases hzero : count = 0
  · subst hzero
    exact ⟨0, s, rfl, by simp, rfl, rfl, [], (List.append_nil _).symm, rfl⟩
  · rw [if_neg hzero, if_neg (by omega)]
    refine ⟨_, _, rfl, Nat.mod_lt _ (Nat.two_pow_pos count), rfl, rfl, [(s.next, count)], rfl, ?_⟩
    exact List.append_nil _

theorem Reads.lift {x : Option α} {a : α} {P : α → Prop} (hx : x = some a) (h : P a) :
    Reads size (liftM x : Reader α) 0 P := by
  subst hx
  exact Reads.pure h

theorem Reads.weaken {m : Reader α} {count : Nat} {P Q : α → Prop} (hm : Reads size m count P)
    (h : ∀ a, P a → Q a) : Reads size m count Q := by
  intro s hs
  obtain ⟨a, s', hrun, hP, hrest⟩ := hm s hs
  exact ⟨a, s', hrun, h a hP, hrest⟩

theorem Reads.bind {m : Reader α} {f : α → Reader β} {count more : Nat} {P : α → Prop}
    {Q : β → Prop} (hm : Reads size m count P) (hf : ∀ a, P a → Reads size (f a) more Q) :
    Reads size (m >>= f) (count + more) Q := by
  intro s hs
  obtain ⟨a, s₁, hrun, hP, htook⟩ := hm s (by omega)
  obtain ⟨b, s₂, hrun', hQ, htook'⟩ := hf a hP s₁ (by have := htook.2.1; omega)
  exact ⟨b, s₂, bind_eq_some.mpr ⟨a, s₁, hrun, hrun'⟩, hQ, htook.trans htook'⟩

theorem Reads.map {m : Reader α} {count : Nat} {P : α → Prop} {Q : β → Prop} {g : α → β}
    (hm : Reads size m count P) (h : ∀ a, P a → Q (g a)) :
    Reads size (m >>= fun a => Pure.pure (g a)) count Q :=
  hm.bind fun a hP => Reads.pure (h a hP)

theorem Reads.mapM {ι : Type} {f : ι → Reader α} {counts : ι → Nat} {P : ι → α → Prop}
    (items : List ι) (h : ∀ i ∈ items, Reads size (f i) (counts i) (P i)) :
    Reads size (items.mapM f) (items.map counts).sum (List.Forall₂ P items) := by
  induction items with
  | nil => exact Reads.pure List.Forall₂.nil
  | cons i items ih =>
    rw [List.mapM_cons, List.map_cons, List.sum_cons]
    apply (h i List.mem_cons_self).bind
    intro a hP
    apply (ih fun j hj => h j (List.mem_cons_of_mem i hj)).map
    intro as hall
    exact List.Forall₂.cons hP hall

/-- What holds of each item read with its own holds of each. -/
theorem forall_of_forall₂ {ι : Type} {P : ι → α → Prop} {Q : α → Prop} {items : List ι}
    {as : List α} (h : List.Forall₂ P items as) (hPQ : ∀ i a, P i a → Q a) :
    as.length = items.length ∧ ∀ a ∈ as, Q a := by
  induction h with
  | nil => exact ⟨rfl, fun a ha => absurd ha List.not_mem_nil⟩
  | cons hhead _ ih =>
    refine ⟨congrArg (· + 1) ih.1, fun a ha => ?_⟩
    rcases List.mem_cons.mp ha with rfl | hrest
    · exact hPQ _ _ hhead
    · exact ih.2 a hrest

theorem Reads.times {m : Reader α} {count : Nat} {P : α → Prop} (hm : Reads size m count P)
    (items : Nat) : Reads size ((List.range items).mapM fun _ => m) (items * count)
      (fun as => as.length = items ∧ ∀ a ∈ as, P a) := by
  have hall := Reads.mapM (List.range items) fun _ _ => hm
  have hsum : ((List.range items).map fun _ => count).sum = items * count := by
    rw [List.map_const', List.sum_replicate, List.length_range, smul_eq_mul]
  rw [hsum] at hall
  apply hall.weaken
  intro as has
  have hforall := forall_of_forall₂ has fun _ _ hP => hP
  rw [List.length_range] at hforall
  exact hforall

end Reads

/-! ## What holds of every result -/

def Yields {α : Type} (m : Reader α) (P : α → Prop) : Prop :=
  ∀ s a s', m s = some (a, s') → P a

theorem Yields.pure {α : Type} {a : α} {P : α → Prop} (h : P a) :
    Yields (Pure.pure a : Reader α) P := by
  intro s b s' hrun
  cases pure_eq_some.mp hrun
  exact h

theorem Yields.bind {α β : Type} {m : Reader α} {f : α → Reader β} {P : β → Prop}
    (hf : ∀ a, Yields (f a) P) : Yields (m >>= f) P := by
  intro s b s' hrun
  obtain ⟨a, s₁, _, hrest⟩ := bind_eq_some.mp hrun
  exact hf a s₁ b s' hrest

/-! ## What a reader's result tells -/

/-- A reader's result tells every bit it took: two runs of one result from one place agree on
them. -/
structure Determined {α : Type} (m : Reader α) : Prop where
  keeps : ∀ {s a s'}, m s = some (a, s') → s'.word = s.word
  same : ∀ {s t a s' t'}, m s = some (a, s') → m t = some (a, t') → s.next = t.next →
    s'.next = t'.next ∧ ∀ i, s.next ≤ i → i < s'.next → s.word.testBit i = t.word.testBit i

section Determined

variable {α β : Type}

theorem Determined.pure (a : α) : Determined (Pure.pure a : Reader α) where
  keeps := by
    intro s b s' hrun
    cases pure_eq_some.mp hrun
    rfl
  same := by
    intro s t b s' t' hs ht hnext
    cases pure_eq_some.mp hs
    cases pure_eq_some.mp ht
    exact ⟨hnext, fun i hlow hhigh => absurd hhigh (Nat.not_lt_of_le hlow)⟩

theorem Determined.lift (x : Option α) : Determined (liftM x : Reader α) where
  keeps := by
    intro s a s' hrun
    obtain ⟨b, _, hpair⟩ := Option.bind_eq_some_iff.mp hrun
    cases hpair
    rfl
  same := by
    intro s t a s' t' hs ht hnext
    obtain ⟨b, _, hpair⟩ := Option.bind_eq_some_iff.mp hs
    obtain ⟨b', _, hpair'⟩ := Option.bind_eq_some_iff.mp ht
    cases hpair
    cases hpair'
    exact ⟨hnext, fun i hlow hhigh => absurd hhigh (Nat.not_lt_of_le hlow)⟩

theorem Determined.readBits (size count : Nat) : Determined (BitReader.readBits size count) where
  keeps := by
    intro s a s' hrun
    unfold BitReader.readBits at hrun
    split at hrun
    · cases hrun
      rfl
    · split at hrun
      · cases hrun
      · cases hrun
        rfl
  same := by
    intro s t a s' t' hs ht hnext
    unfold BitReader.readBits at hs ht
    by_cases hzero : count = 0
    · rw [if_pos hzero] at hs ht
      cases hs
      cases ht
      exact ⟨hnext, fun i hlow hhigh => absurd hhigh (Nat.not_lt_of_le hlow)⟩
    · rw [if_neg hzero] at hs ht
      split at hs
      · cases hs
      · split at ht
        · cases ht
        · simp only [Option.some.injEq, Prod.mk.injEq] at hs ht
          obtain ⟨hvalue, rfl⟩ := hs
          obtain ⟨hvalue', rfl⟩ := ht
          apply And.intro
          · show s.next + count = t.next + count
            rw [hnext]
          · intro i hlow hhigh
            change i < s.next + count at hhigh
            have hbit := congrArg (fun value => value.testBit (i - s.next))
              (hvalue.trans hvalue'.symm)
            simp only [Nat.testBit_mod_two_pow, Nat.testBit_div_two_pow, ← hnext] at hbit
            rw [Nat.sub_add_cancel hlow] at hbit
            simpa [show i - s.next < count by omega] using hbit

theorem Determined.bind {m : Reader α} {f : α → Reader β} (hm : Determined m)
    (hf : ∀ {s a s'}, m s = some (a, s') → Determined (f a)) (back : β → Option α)
    (hback : ∀ {s a s' b s''}, m s = some (a, s') → f a s' = some (b, s'') → back b = some a) :
    Determined (m >>= f) where
  keeps := by
    intro s b s' hrun
    obtain ⟨a, s₁, hfirst, hrest⟩ := bind_eq_some.mp hrun
    exact ((hf hfirst).keeps hrest).trans (hm.keeps hfirst)
  same := by
    intro s t b s' t' hs ht hnext
    obtain ⟨a, s₁, hfirst, hrest⟩ := bind_eq_some.mp hs
    obtain ⟨a', t₁, hfirst', hrest'⟩ := bind_eq_some.mp ht
    obtain rfl : a = a' :=
      Option.some_inj.mp ((hback hfirst hrest).symm.trans (hback hfirst' hrest'))
    obtain ⟨hmid, hbits⟩ := hm.same hfirst hfirst' hnext
    obtain ⟨hend, hbits'⟩ := (hf hfirst).same hrest hrest' hmid
    refine ⟨hend, fun i hlow hhigh => ?_⟩
    by_cases hbefore : i < s₁.next
    · exact hbits i hlow hbefore
    · rw [← hm.keeps hfirst, ← hm.keeps hfirst']
      exact hbits' i (Nat.le_of_not_lt hbefore) hhigh

theorem Determined.bindKept {m : Reader α} {f : α → Reader β} (hm : Determined m)
    (hf : ∀ a, Determined (f a)) (back : β → α) (hkept : ∀ a, Yields (f a) (back · = a)) :
    Determined (m >>= f) :=
  hm.bind (fun {_ a _} _ => hf a) (fun b => some (back b)) fun {_ a _ _ _} _ hrest =>
    congrArg some (hkept a _ _ _ hrest)

theorem lift_eq_some {x : Option α} {s s' : Cursor} {a : α}
    (h : (liftM x : Reader α) s = some (a, s')) : x = some a := by
  obtain ⟨b, hx, hpair⟩ := Option.bind_eq_some_iff.mp h
  cases hpair
  exact hx

theorem Determined.liftBind (x : Option α) {f : α → Reader β}
    (hf : ∀ a, x = some a → Determined (f a)) : Determined (liftM x >>= f) :=
  (Determined.lift x).bind (fun {_ a _} hrun => hf a (lift_eq_some hrun)) (fun _ => x)
    fun hrun _ => lift_eq_some hrun

theorem Determined.map {m : Reader α} (hm : Determined m) (g : α → β) (back : β → Option α)
    (hback : ∀ {s a s'}, m s = some (a, s') → back (g a) = some a) :
    Determined (m >>= fun a => Pure.pure (g a)) :=
  hm.bind (fun {_ a _} _ => Determined.pure (g a)) back fun hrun hrest => by
    cases pure_eq_some.mp hrest
    exact hback hrun

theorem Determined.mapM {ι : Type} {f : ι → Reader α} (items : List ι)
    (h : ∀ i ∈ items, Determined (f i)) : Determined (items.mapM f) := by
  induction items with
  | nil => exact Determined.pure []
  | cons i items ih =>
    rw [List.mapM_cons]
    apply (h i List.mem_cons_self).bind _ List.head?
    · intro s a s' as s'' _ hrest
      obtain ⟨rest, s₁, _, hlast⟩ := bind_eq_some.mp hrest
      cases pure_eq_some.mp hlast
      rfl
    · intro s a s' _
      apply (ih fun j hj => h j (List.mem_cons_of_mem i hj)).map _ (fun as => some as.tail)
      intro s as s' _
      rfl

theorem Determined.word_eq {m : Reader α} (hm : Determined m) {size : Nat} {word word' : Nat}
    (hword : word < 2 ^ size) (hword' : word' < 2 ^ size) {a : α} {s s' : Cursor}
    {spans spans' : List (Nat × Nat)} {start : Nat} (hs : m ⟨word, start, spans⟩ = some (a, s))
    (hs' : m ⟨word', start, spans'⟩ = some (a, s')) (hend : size ≤ s.next)
    (hlow : ∀ i < start, word.testBit i = word'.testBit i) : word = word' := by
  obtain ⟨_, hbits⟩ := hm.same hs hs' rfl
  apply Nat.eq_of_testBit_eq
  intro i
  by_cases hbefore : i < start
  · exact hlow i hbefore
  · by_cases hinside : i < size
    · exact hbits i (Nat.le_of_not_lt hbefore) (Nat.lt_of_lt_of_le hinside hend)
    · have hpow : 2 ^ size ≤ 2 ^ i := Nat.pow_le_pow_right (by decide) (Nat.le_of_not_lt hinside)
      rw [Nat.testBit_lt_two_pow (Nat.lt_of_lt_of_le hword hpow),
        Nat.testBit_lt_two_pow (Nat.lt_of_lt_of_le hword' hpow)]

end Determined

end Orbistoun.Lib.BitReader

import Orbistoun.Lib.Codes
import Orbistoun.Loader.Container

/-! # Counting symbols by the GNU hash table

`DT_GNU_HASH` states no count. It holds a bloom filter, a bucket array of symbol indices and
a chain array whose entries carry a stop bit; the highest symbol is found by following the
largest bucket's chain to its stop bit.
-/

namespace Orbistoun.Loader.GnuHash

open Orbistoun.Lib.Codes

/-- Sanity ceiling on the symbol count. -/
def MAX_SYMBOLS : Nat := 1000000

/-- Bytes of header before the bloom filter. -/
def HEADER : Nat := 16

/-! ## Reads -/

/-- What a walk answers, and the positions of the words it read. -/
structure Reading (α : Type) where
  answer : Except ElfError α
  reads : List Nat

namespace Reading

def bind {α β : Type} (x : Reading α) (f : α → Reading β) : Reading β :=
  match x.answer with
  | .ok a => ⟨(f a).answer, x.reads ++ (f a).reads⟩
  | .error e => ⟨.error e, x.reads⟩

instance : Monad Reading where
  pure a := ⟨.ok a, []⟩
  bind := bind

def refuse {α : Type} (reason : String) : Reading α := ⟨.error (.noDynamicTable reason), []⟩

variable {α β : Type}

theorem bind_ok {x : Reading α} {f : α → Reading β} {a : α} (h : x.answer = .ok a) :
    (x >>= f).answer = (f a).answer := by
  show (bind x f).answer = _
  rw [bind, h]

theorem bind_error {x : Reading α} {f : α → Reading β} {e : ElfError} (h : x.answer = .error e) :
    (x >>= f).answer = .error e := by
  show (bind x f).answer = _
  rw [bind, h]

theorem answer_bind (x : Reading α) (f : α → Reading β) :
    (x >>= f).answer = x.answer >>= fun a => (f a).answer := by
  cases hx : x.answer with
  | error e => exact bind_error hx
  | ok a => exact bind_ok hx

theorem of_bind_ok {x : Reading α} {f : α → Reading β} {b : β} (h : (x >>= f).answer = .ok b) :
    ∃ a, x.answer = .ok a ∧ (f a).answer = .ok b := by
  cases hx : x.answer with
  | error e =>
      rw [bind_error hx] at h
      cases h
  | ok a => exact ⟨a, rfl, by rwa [bind_ok hx] at h⟩

/-- At most so many words were read, each of them inside the table. -/
structure Inside (table : List Byte) (most : Nat) (x : Reading α) : Prop where
  count : x.reads.length ≤ most
  within : ∀ at' ∈ x.reads, at' + 4 ≤ table.length

theorem Inside.of_no_reads {table : List Byte} {most : Nat} {x : Reading α} (h : x.reads = []) :
    Inside table most x := by
  constructor <;> simp [h]

theorem Inside.bind {table : List Byte} {first second : Nat} {x : Reading α} {f : α → Reading β}
    (hx : Inside table first x) (hf : ∀ a, Inside table second (f a)) :
    Inside table (first + second) (x >>= f) := by
  show Inside table (first + second) (Reading.bind x f)
  unfold Reading.bind
  cases x.answer with
  | error e => exact ⟨Nat.le_add_right_of_le hx.count, hx.within⟩
  | ok a =>
      constructor
      · rw [List.length_append]
        exact Nat.add_le_add hx.count (hf a).count
      · intro at' hmem
        rcases List.mem_append.mp hmem with h | h
        · exact hx.within at' h
        · exact (hf a).within at' h

end Reading

open Reading (refuse Inside)

/-- The word at a position, where the table holds all of it. -/
def word (table : List Byte) (at' : Nat) : Reading Nat :=
  match Container.getRange table at' (at' + 4) with
  | some bytes => ⟨.ok (leValue bytes), [at']⟩
  | none => refuse "GNU hash table is truncated"

theorem word_inside (table : List Byte) (at' : Nat) : Inside table 1 (word table at') := by
  unfold word Container.getRange
  split
  · next h =>
    constructor
    · simp
    · intro position hmem
      simp only [List.mem_singleton] at hmem
      subst hmem
      by_contra hlong
      rw [if_neg (fun hparts => hlong hparts.2)] at h
      cases h
  · exact Inside.of_no_reads rfl

/-! ## The walk -/

def highestBucket (table : List Byte) (bucketsAt : Nat) : Nat → Nat → Nat → Reading Nat
  | _, 0, highest => pure highest
  | bucket, left + 1, highest => do
      let value ← word table (bucketsAt + bucket * 4)
      highestBucket table bucketsAt (bucket + 1) left (max highest value)

/-- The chain from a symbol to its stop bit, which the count is one past. -/
def chainEnd (table : List Byte) (chainAt bias : Nat) (index : Nat) : Reading Nat := do
  let entry ← word table (chainAt + (index - bias) * 4)
  if entry % 2 = 1 then pure (index + 1)
  else if 2 ^ 32 ≤ index + 1 then refuse "GNU hash table is truncated"
  else if h : MAX_SYMBOLS < index + 1 then refuse "GNU hash chain has no end"
  else chainEnd table chainAt bias (index + 1)
  termination_by MAX_SYMBOLS - index
  decreasing_by omega

def walk (table : List Byte) : Reading Nat := do
  let buckets ← word table 0
  let bias ← word table 4
  let bloomWords ← word table 8
  if MAX_SYMBOLS < buckets ∨ MAX_SYMBOLS < bloomWords then
    refuse "GNU hash table declares an absurd size"
  else
    let bucketsAt := HEADER + bloomWords * 8
    let highest ← highestBucket table bucketsAt 0 buckets 0
    -- No bucket names a symbol, so nothing is hashed and the bias is the whole answer.
    if highest < bias then pure bias
    else chainEnd table (bucketsAt + buckets * 4) bias highest

def symbolCountFromGnuHash (table : List Byte) : Except ElfError Nat := (walk table).answer

/-! ## Any table -/

theorem highestBucket_inside (table : List Byte) (bucketsAt bucket left highest : Nat) :
    Inside table left (highestBucket table bucketsAt bucket left highest) := by
  induction left generalizing bucket highest with
  | zero => exact Inside.of_no_reads rfl
  | succ left ih =>
      have hstep := (word_inside table (bucketsAt + bucket * 4)).bind
        (fun value => ih (bucket + 1) (max highest value))
      rw [Nat.add_comm] at hstep
      exact hstep

theorem chainEnd_inside (table : List Byte) (chainAt bias index : Nat) :
    Inside table (MAX_SYMBOLS - index + 1) (chainEnd table chainAt bias index) := by
  fun_induction chainEnd table chainAt bias index with
  | case1 index ih =>
      rw [Nat.add_comm]
      apply (word_inside table _).bind
      intro entry
      split
      · exact Inside.of_no_reads rfl
      · split
        · exact Inside.of_no_reads rfl
        · split
          · exact Inside.of_no_reads rfl
          · next hstop hword hend =>
            have hrest := ih hend
            exact ⟨by have := hrest.count; omega, hrest.within⟩

/-- Whatever the table says of its sizes, the walk ends: three words of header, the buckets
and the chain, none of them outside the table. -/
theorem walk_inside (table : List Byte) :
    Inside table (1 + (1 + (1 + (MAX_SYMBOLS + (MAX_SYMBOLS + 1))))) (walk table) := by
  apply (word_inside table 0).bind
  intro buckets
  apply (word_inside table 4).bind
  intro bias
  apply (word_inside table 8).bind
  intro bloomWords
  split
  · exact Inside.of_no_reads rfl
  · next hsize =>
    have hbuckets : buckets ≤ MAX_SYMBOLS := by omega
    have hread := highestBucket_inside table (HEADER + bloomWords * 8) 0 buckets 0
    have hread' : Inside table MAX_SYMBOLS
        (highestBucket table (HEADER + bloomWords * 8) 0 buckets 0) :=
      ⟨hread.count.trans hbuckets, hread.within⟩
    apply hread'.bind
    intro highest
    split
    · exact Inside.of_no_reads rfl
    · have hchain := chainEnd_inside table (HEADER + bloomWords * 8 + buckets * 4) bias highest
      exact ⟨hchain.count.trans (by omega), hchain.within⟩

theorem word_ok_iff (table : List Byte) (at' value : Nat) :
    (word table at').answer = .ok value ↔
      at' + 4 ≤ table.length ∧ field table at' 4 = value := by
  unfold word Container.getRange field
  by_cases h : at' + 4 ≤ table.length
  · simp [h]
  · simp [h, refuse]

theorem chainEnd_covers {table : List Byte} {chainAt bias index n : Nat} (hindex : bias ≤ index)
    (h : (chainEnd table chainAt bias index).answer = .ok n) :
    bias < n ∧ chainAt + (n - bias) * 4 ≤ table.length := by
  fun_induction chainEnd table chainAt bias index with
  | case1 index ih =>
      obtain ⟨entry, hentry, hrest⟩ := Reading.of_bind_ok h
      have hread := ((word_ok_iff _ _ _).mp hentry).1
      split at hrest
      · have hn : index + 1 = n := by
          simpa using Except.ok.inj hrest
        omega
      · split at hrest
        · cases hrest
        · split at hrest
          · cases hrest
          · next hend => exact ih hend (by omega) hrest

/-- An answer is the bias and the chain entries after it, all of them in the table. -/
theorem walk_covers {table : List Byte} {n : Nat} (h : symbolCountFromGnuHash table = .ok n) :
    field table 4 4 ≤ n ∧
      (field table 4 4 < n →
        HEADER + field table 8 4 * 8 + field table 0 4 * 4 + (n - field table 4 4) * 4 ≤
          table.length) := by
  obtain ⟨buckets, hbuckets, hrest⟩ := Reading.of_bind_ok h
  obtain ⟨bias, hbias, hrest⟩ := Reading.of_bind_ok hrest
  obtain ⟨bloomWords, hbloom, hrest⟩ := Reading.of_bind_ok hrest
  rw [((word_ok_iff _ _ _).mp hbuckets).2, ((word_ok_iff _ _ _).mp hbias).2,
    ((word_ok_iff _ _ _).mp hbloom).2]
  split at hrest
  · cases hrest
  · obtain ⟨highest, hhighest, hrest⟩ := Reading.of_bind_ok hrest
    split at hrest
    · have hn : bias = n := Except.ok.inj hrest
      omega
    · next hlow =>
      have hchain := chainEnd_covers (by omega) hrest
      omega

/-! ## A table as a linker writes it -/

/-- What a linker hashed: the symbols below `bias` are not hashed, the others lie in groups,
each the hashes of one bucket's symbols in index order. -/
structure Hashed where
  bias : Nat
  bucketCount : Nat
  bloom : List Nat
  shift : Nat
  groups : List (Nat × List Nat)

namespace Hashed

/-- The buckets used and the first symbol of each, from a symbol on. -/
def placed : Nat → List (Nat × List Nat) → List (Nat × Nat)
  | _, [] => []
  | index, group :: rest => (group.1, index) :: placed (index + group.2.length) rest

/-- A bucket holds its first symbol's index, or zero. -/
def bucketWord (t : Hashed) (bucket : Nat) : Nat :=
  ((placed t.bias t.groups).find? (fun p => p.1 == bucket)).elim 0 Prod.snd

/-- A group's hashes with the stop bit on the last and only it. -/
def chainWords : List Nat → List Nat
  | [] => []
  | [hash] => [hash / 2 * 2 + 1]
  | hash :: next :: rest => hash / 2 * 2 :: chainWords (next :: rest)

def buckets (t : Hashed) : List Nat := (List.range t.bucketCount).map t.bucketWord

def chain (t : Hashed) : List Nat := t.groups.flatMap (fun group => chainWords group.2)

def symbols (t : Hashed) : Nat := t.bias + (t.groups.map (fun group => group.2.length)).sum

def encode (t : Hashed) : List Byte :=
  littleEndian 4 t.bucketCount ++ littleEndian 4 t.bias ++ littleEndian 4 t.bloom.length ++
    littleEndian 4 t.shift ++ t.bloom.flatMap (littleEndian 8) ++
      t.buckets.flatMap (littleEndian 4) ++ t.chain.flatMap (littleEndian 4)

/-- Every bucket's symbols are together, no bucket is listed empty, and words are words. -/
structure WellFormed (t : Hashed) : Prop where
  distinct : (t.groups.map Prod.fst).Nodup
  inRange : ∀ group ∈ t.groups, group.1 < t.bucketCount
  nonempty : ∀ group ∈ t.groups, group.2 ≠ []
  hashes : ∀ group ∈ t.groups, ∀ hash ∈ group.2, hash < 2 ^ 32
  limit : t.symbols ≤ MAX_SYMBOLS

theorem placed_append (index : Nat) (groups : List (Nat × List Nat)) (last : Nat × List Nat) :
    placed index (groups ++ [last]) =
      placed index groups ++
        [(last.1, index + (groups.map (fun group => group.2.length)).sum)] := by
  induction groups generalizing index with
  | nil => simp [placed]
  | cons group rest ih => simp [placed, ih, Nat.add_assoc]

theorem placed_fst (index : Nat) (groups : List (Nat × List Nat)) :
    (placed index groups).map Prod.fst = groups.map Prod.fst := by
  induction groups generalizing index with
  | nil => rfl
  | cons group rest ih => simp [placed, ih]

theorem le_of_mem_placed {index : Nat} {groups : List (Nat × List Nat)} {p : Nat × Nat}
    (h : p ∈ placed index groups) :
    p.2 ≤ index + (groups.map (fun group => group.2.length)).sum := by
  induction groups generalizing index with
  | nil => cases h
  | cons group rest ih =>
      simp only [placed, List.mem_cons] at h
      simp only [List.map_cons, List.sum_cons]
      rcases h with rfl | hrest
      · exact Nat.le_add_right _ _
      · have hle := ih hrest
        omega

theorem bucketWord_le {t : Hashed} {groups : List (Nat × List Nat)} {last : Nat × List Nat}
    (hgroups : t.groups = groups ++ [last]) (bucket : Nat) :
    t.bucketWord bucket ≤ t.bias + (groups.map (fun group => group.2.length)).sum := by
  unfold bucketWord
  cases h : (placed t.bias t.groups).find? (fun p => p.1 == bucket) with
  | none => exact Nat.zero_le _
  | some p =>
      have hmem := List.mem_of_find?_eq_some h
      rw [hgroups, placed_append, List.mem_append, List.mem_singleton] at hmem
      rcases hmem with hinit | rfl
      · exact le_of_mem_placed hinit
      · exact le_refl _

theorem bucketWord_last {t : Hashed} {groups : List (Nat × List Nat)} {last : Nat × List Nat}
    (hgroups : t.groups = groups ++ [last]) (hdistinct : (t.groups.map Prod.fst).Nodup) :
    t.bucketWord last.1 = t.bias + (groups.map (fun group => group.2.length)).sum := by
  have hnone : (placed t.bias groups).find? (fun p => p.1 == last.1) = none := by
    rw [List.find?_eq_none]
    intro p hp
    have hfst : p.1 ∈ groups.map Prod.fst := by
      rw [← placed_fst t.bias]
      exact List.mem_map_of_mem hp
    rw [hgroups, List.map_append, List.map_singleton, List.nodup_append] at hdistinct
    have hapart := hdistinct.2.2 p.1 hfst last.1 (by simp)
    simpa using hapart
  unfold bucketWord
  rw [hgroups, placed_append, List.find?_append, hnone]
  simp

theorem bucketWord_of_no_groups {t : Hashed} (hgroups : t.groups = []) (bucket : Nat) :
    t.bucketWord bucket = 0 := by
  simp [bucketWord, hgroups, placed]

theorem chainWords_length (hashes : List Nat) : (chainWords hashes).length = hashes.length := by
  fun_induction chainWords hashes <;> simp_all

/-- The stop bit is on the last and only it. -/
theorem chainWords_odd_iff {hashes : List Nat} {i : Nat} (hi : i < (chainWords hashes).length) :
    (chainWords hashes)[i] % 2 = 1 ↔ i + 1 = hashes.length := by
  induction hashes generalizing i with
  | nil => simp [chainWords] at hi
  | cons hash rest ih =>
      cases rest with
      | nil =>
          have hi0 : i = 0 := by simpa [chainWords] using hi
          subst hi0
          simp [chainWords]
      | cons next rest =>
          cases i with
          | zero =>
              simp [chainWords]
          | succ i =>
              have hrest := @ih i (by simpa [chainWords] using hi)
              simpa [chainWords] using hrest

theorem chainWords_lt {hashes : List Nat} (h : ∀ hash ∈ hashes, hash < 2 ^ 32) :
    ∀ w ∈ chainWords hashes, w < 2 ^ 32 := by
  fun_induction chainWords hashes with
  | case1 => simp
  | case2 hash =>
      intro w hw
      have hhash := h hash (by simp)
      simp only [List.mem_singleton] at hw
      omega
  | case3 hash next rest ih =>
      intro w hw
      have hhash := h hash (by simp)
      rcases List.mem_cons.mp hw with rfl | hrest
      · omega
      · exact ih (fun x hx => h x (List.mem_cons_of_mem _ hx)) w hrest

end Hashed

/-! ## Reading it back -/

theorem leValue_littleEndian {width n : Nat} (h : n < 256 ^ width) :
    leValue (littleEndian width n) = n := by
  induction width generalizing n with
  | zero =>
      have hn : n = 0 := by simpa using h
      rw [hn]
      rfl
  | succ width ih =>
      have hhigh : n / 256 < 256 ^ width := Nat.div_lt_of_lt_mul (by rwa [Nat.pow_succ'] at h)
      simp only [littleEndian, leValue, ih hhigh, UInt8.toNat_ofNat']
      exact Nat.mod_add_div n 256

theorem word_of_front {table front : List Byte} {value at' : Nat}
    (hfront : front ++ littleEndian 4 value <+: table) (hat : front.length = at')
    (hvalue : value < 2 ^ 32) : (word table at').answer = .ok value := by
  obtain ⟨back, rfl⟩ := hfront
  have hbound : value < 256 ^ 4 := hvalue
  apply (word_ok_iff _ _ _).mpr
  constructor
  · simp [hat]
  · rw [field, List.append_assoc, List.drop_left' hat, List.take_left' (by simp),
      leValue_littleEndian hbound]

theorem words_length (ws : List Nat) : (ws.flatMap (littleEndian 4)).length = ws.length * 4 := by
  induction ws with
  | nil => rfl
  | cons w ws ih =>
      simp [ih]
      omega

theorem word_of_words {table front : List Byte} {ws : List Nat} {at' i : Nat}
    (hfront : front ++ ws.flatMap (littleEndian 4) <+: table) (hat : front.length = at')
    (hws : ∀ w ∈ ws, w < 2 ^ 32) (hi : i < ws.length) :
    (word table (at' + i * 4)).answer = .ok ws[i] := by
  have hsplit : ws.flatMap (littleEndian 4) = (ws.take i).flatMap (littleEndian 4) ++
      (littleEndian 4 ws[i] ++ (ws.drop (i + 1)).flatMap (littleEndian 4)) := by
    rw [← List.flatMap_cons, ← List.drop_eq_getElem_cons hi, ← List.flatMap_append,
      List.take_append_drop]
  have hword : (front ++ (ws.take i).flatMap (littleEndian 4)) ++ littleEndian 4 ws[i] <+:
      front ++ ws.flatMap (littleEndian 4) := by
    rw [hsplit, List.append_assoc]
    apply (List.prefix_append_right_inj front).mpr
    apply (List.prefix_append_right_inj _).mpr
    exact List.prefix_append _ _
  have hlength : (ws.take i).length = i := List.length_take_of_le (Nat.le_of_lt hi)
  apply word_of_front (hword.trans hfront)
  · rw [List.length_append, words_length, hlength, hat]
  · exact hws _ (List.getElem_mem hi)

theorem highestBucket_of_words {table : List Byte} {ws : List Nat} {bucketsAt : Nat}
    (hword : ∀ i, (hi : i < ws.length) → (word table (bucketsAt + i * 4)).answer = .ok ws[i])
    (bucket left highest : Nat) (hleft : bucket + left = ws.length) :
    (highestBucket table bucketsAt bucket left highest).answer =
      .ok ((ws.drop bucket).foldl max highest) := by
  induction left generalizing bucket highest with
  | zero =>
      have hnone : ws.drop bucket = [] := List.drop_eq_nil_of_le (by omega)
      rw [hnone]
      rfl
  | succ left ih =>
      have hi : bucket < ws.length := by omega
      rw [highestBucket, Reading.bind_ok (hword bucket hi), ih _ _ (by omega),
        List.drop_eq_getElem_cons hi, List.foldl_cons]

theorem foldl_max_eq {ws : List Nat} {most highest : Nat} (hle : ∀ w ∈ ws, w ≤ most)
    (hhighest : highest ≤ most) (hmem : most ∈ ws ∨ most = highest) :
    ws.foldl max highest = most := by
  induction ws generalizing highest with
  | nil =>
      rcases hmem with h | h
      · cases h
      · exact h.symm
  | cons w ws ih =>
      have hw := hle w List.mem_cons_self
      rw [List.foldl_cons]
      apply ih (fun x hx => hle x (List.mem_cons_of_mem w hx)) (max_le hhighest hw)
      rcases hmem with h | h
      · rcases List.mem_cons.mp h with rfl | hrest
        · exact Or.inr (max_eq_right hhighest).symm
        · exact Or.inl hrest
      · exact Or.inr (by rw [h, max_eq_left (h ▸ hw)])

/-- A chain whose first stop bit is on the last symbol is followed to it. -/
theorem chainEnd_of_words {table : List Byte} {chainAt bias index n : Nat} (hindex : index < n)
    (hlimit : n ≤ MAX_SYMBOLS)
    (hword : ∀ k, index ≤ k → k < n → ∃ entry,
      (word table (chainAt + (k - bias) * 4)).answer = .ok entry ∧ (entry % 2 = 1 ↔ k + 1 = n)) :
    (chainEnd table chainAt bias index).answer = .ok n := by
  fun_induction chainEnd table chainAt bias index with
  | case1 index ih =>
      obtain ⟨entry, hentry, hstop⟩ := hword index le_rfl hindex
      rw [Reading.bind_ok hentry]
      by_cases hlast : index + 1 = n
      · rw [if_pos (hstop.mpr hlast), hlast]
        rfl
      · have hmax : MAX_SYMBOLS < 2 ^ 32 := by decide
        rw [if_neg (fun h => hlast (hstop.mp h)), if_neg (by omega), dif_neg (by omega)]
        apply ih (by omega) (by omega)
        intro k hk hkn
        exact hword k (by omega) hkn

namespace Hashed

variable {t : Hashed}

theorem buckets_lt (hwell : t.WellFormed) : ∀ w ∈ t.buckets, w < 2 ^ 32 := by
  intro w hw
  obtain ⟨bucket, _, rfl⟩ := List.mem_map.mp hw
  have hmax : MAX_SYMBOLS < 2 ^ 32 := by decide
  rcases List.eq_nil_or_concat t.groups with hnone | ⟨groups, last, hgroups⟩
  · rw [bucketWord_of_no_groups hnone]
    decide
  · rw [List.concat_eq_append] at hgroups
    have hle := bucketWord_le hgroups bucket
    have hlimit := hwell.limit
    rw [symbols, hgroups, List.map_append, List.sum_append] at hlimit
    omega

theorem chain_lt (hwell : t.WellFormed) : ∀ w ∈ t.chain, w < 2 ^ 32 := by
  intro w hw
  obtain ⟨group, hgroup, hmem⟩ := List.mem_flatMap.mp hw
  exact chainWords_lt (hwell.hashes group hgroup) w hmem

theorem chain_length (groups : List (Nat × List Nat)) :
    (groups.flatMap (fun group => chainWords group.2)).length =
      (groups.map (fun group => group.2.length)).sum := by
  induction groups with
  | nil => rfl
  | cons group rest ih => simp [ih, chainWords_length]

theorem foldl_buckets (hwell : t.WellFormed) {groups : List (Nat × List Nat)}
    {last : Nat × List Nat} (hgroups : t.groups = groups ++ [last]) :
    t.buckets.foldl max 0 = t.bias + (groups.map (fun group => group.2.length)).sum := by
  apply foldl_max_eq
  · intro w hw
    obtain ⟨bucket, _, rfl⟩ := List.mem_map.mp hw
    exact bucketWord_le hgroups bucket
  · exact Nat.zero_le _
  · have hrange : last.1 < t.bucketCount := hwell.inRange last (by simp [hgroups])
    rw [← bucketWord_last hgroups hwell.distinct]
    exact Or.inl (List.mem_map_of_mem (List.mem_range.mpr hrange))

theorem foldl_buckets_of_none (hnone : t.groups = []) : t.buckets.foldl max 0 = 0 := by
  apply foldl_max_eq
  · intro w hw
    obtain ⟨bucket, _, rfl⟩ := List.mem_map.mp hw
    rw [bucketWord_of_no_groups hnone]
  · exact le_rfl
  · exact Or.inr rfl

theorem chain_last {groups : List (Nat × List Nat)} {last : Nat × List Nat}
    (hgroups : t.groups = groups ++ [last]) {k : Nat}
    (hfirst : t.bias + (groups.map (fun group => group.2.length)).sum ≤ k) (hk : k < t.symbols) :
    ∃ h : k - t.bias < t.chain.length, (t.chain[k - t.bias] % 2 = 1 ↔ k + 1 = t.symbols) := by
  have hsymbols : t.symbols =
      t.bias + ((groups.map (fun group => group.2.length)).sum + last.2.length) := by
    simp [symbols, hgroups]
  have hchain : t.chain = groups.flatMap (fun group => chainWords group.2) ++
      chainWords last.2 := by
    simp [chain, hgroups]
  have hinit := chain_length groups
  have hlast := chainWords_length last.2
  have hbound : k - t.bias < t.chain.length := by
    rw [hchain, List.length_append]
    omega
  refine ⟨hbound, ?_⟩
  simp only [hchain]
  rw [List.getElem_append_right (by omega), chainWords_odd_iff]
  omega

theorem encode_prefix0 (t : Hashed) (rest : List Byte) :
    [] ++ littleEndian 4 t.bucketCount <+: t.encode ++ rest := by
  simp only [encode, List.append_assoc, List.nil_append]
  exact List.prefix_append _ _

theorem encode_prefix4 (t : Hashed) (rest : List Byte) :
    littleEndian 4 t.bucketCount ++ littleEndian 4 t.bias <+: t.encode ++ rest := by
  rw [encode]
  simp only [List.append_assoc]
  rw [← List.append_assoc]
  exact List.prefix_append _ _

theorem encode_prefix8 (t : Hashed) (rest : List Byte) :
    (littleEndian 4 t.bucketCount ++ littleEndian 4 t.bias) ++ littleEndian 4 t.bloom.length <+:
      t.encode ++ rest := by
  rw [encode]
  simp only [List.append_assoc]
  rw [← List.append_assoc, ← List.append_assoc, ← List.append_assoc]
  exact List.prefix_append _ _

theorem encode_prefix_buckets (t : Hashed) (rest : List Byte) :
    (littleEndian 4 t.bucketCount ++ littleEndian 4 t.bias ++ littleEndian 4 t.bloom.length ++
        littleEndian 4 t.shift ++ t.bloom.flatMap (littleEndian 8)) ++
      t.buckets.flatMap (littleEndian 4) <+: t.encode ++ rest := by
  rw [encode, List.append_assoc _ _ rest]
  exact List.prefix_append _ _

/-- Every table a linker writes is counted exactly, whatever follows it. -/
theorem symbolCount_encode (hwell : t.WellFormed) (hbuckets : t.bucketCount ≤ MAX_SYMBOLS)
    (hbloom : t.bloom.length ≤ MAX_SYMBOLS) (hsome : 0 < t.symbols) (rest : List Byte) :
    symbolCountFromGnuHash (t.encode ++ rest) = .ok t.symbols := by
  have hmax : MAX_SYMBOLS < 2 ^ 32 := by decide
  have hbias : t.bias < 2 ^ 32 := by
    have hlimit := hwell.limit
    unfold symbols at hlimit
    omega
  have hbloomLength : (t.bloom.flatMap (littleEndian 8)).length = t.bloom.length * 8 := by
    simp [List.length_flatMap]
  have hbucketLength : t.buckets.length = t.bucketCount := by simp [buckets]
  have hword0 : (word (t.encode ++ rest) 0).answer = .ok t.bucketCount :=
    word_of_front (encode_prefix0 t rest) rfl (by omega)
  have hword4 : (word (t.encode ++ rest) 4).answer = .ok t.bias :=
    word_of_front (encode_prefix4 t rest) (by simp) hbias
  have hword8 : (word (t.encode ++ rest) 8).answer = .ok t.bloom.length :=
    word_of_front (encode_prefix8 t rest) (by simp) (by omega)
  have hbucketWords : ∀ i, (hi : i < t.buckets.length) →
      (word (t.encode ++ rest) (HEADER + t.bloom.length * 8 + i * 4)).answer =
        .ok t.buckets[i] := by
    intro i hi
    apply word_of_words (encode_prefix_buckets t rest) _ (buckets_lt hwell) hi
    simp only [List.length_append, littleEndian_length, hbloomLength, HEADER]
  have hchainWords : ∀ i, (hi : i < t.chain.length) →
      (word (t.encode ++ rest)
        (HEADER + t.bloom.length * 8 + t.bucketCount * 4 + i * 4)).answer = .ok t.chain[i] := by
    intro i hi
    apply word_of_words (List.prefix_append _ rest) _ (chain_lt hwell) hi
    simp only [List.length_append, littleEndian_length, hbloomLength, words_length,
      hbucketLength, HEADER]
  have hhighest := highestBucket_of_words hbucketWords 0 t.bucketCount 0 (by omega)
  unfold symbolCountFromGnuHash walk
  rw [Reading.bind_ok hword0, Reading.bind_ok hword4, Reading.bind_ok hword8,
    if_neg (by omega), Reading.bind_ok hhighest, List.drop_zero]
  rcases List.eq_nil_or_concat t.groups with hnone | ⟨groups, last, hgroups⟩
  · have hsymbols : t.symbols = t.bias := by simp [symbols, hnone]
    rw [foldl_buckets_of_none hnone, if_pos (by omega), hsymbols]
    rfl
  · rw [List.concat_eq_append] at hgroups
    rw [foldl_buckets hwell hgroups, if_neg (by omega)]
    have hlast : 0 < last.2.length :=
      List.length_pos_iff.mpr (hwell.nonempty last (by simp [hgroups]))
    apply chainEnd_of_words _ hwell.limit
    · intro k hfirst hk
      obtain ⟨hbound, hodd⟩ := chain_last hgroups hfirst hk
      exact ⟨t.chain[k - t.bias], hchainWords _ hbound, hodd⟩
    · simp only [symbols, hgroups, List.map_append, List.sum_append, List.map_singleton,
        List.sum_singleton]
      omega

/-- A table whose header declares too large a bloom filter is refused unread. -/
theorem symbolCount_absurd (hwell : t.WellFormed) (hbuckets : t.bucketCount < 2 ^ 32)
    (hbloom : MAX_SYMBOLS < t.bloom.length) (hword : t.bloom.length < 2 ^ 32) (rest : List Byte) :
    symbolCountFromGnuHash (t.encode ++ rest) =
      .error (.noDynamicTable "GNU hash table declares an absurd size") := by
  have hbias : t.bias < 2 ^ 32 := by
    have hmax : MAX_SYMBOLS < 2 ^ 32 := by decide
    have hlimit := hwell.limit
    unfold symbols at hlimit
    omega
  have hword0 : (word (t.encode ++ rest) 0).answer = .ok t.bucketCount :=
    word_of_front (encode_prefix0 t rest) rfl hbuckets
  have hword4 : (word (t.encode ++ rest) 4).answer = .ok t.bias :=
    word_of_front (encode_prefix4 t rest) (by simp) hbias
  have hword8 : (word (t.encode ++ rest) 8).answer = .ok t.bloom.length :=
    word_of_front (encode_prefix8 t rest) (by simp) hword
  unfold symbolCountFromGnuHash walk
  rw [Reading.bind_ok hword0, Reading.bind_ok hword4, Reading.bind_ok hword8,
    if_pos (Or.inr hbloom)]
  rfl

end Hashed

/-- A linker's table with a bucket or bloom count under the ceiling and a symbol to count is
counted exactly; and whatever the bytes, the walk ends after so many reads inside the table
and names no symbol whose chain entry is not in it. -/
theorem gnuHash_counts :
    (∀ t : Hashed, t.WellFormed → t.bucketCount ≤ MAX_SYMBOLS → t.bloom.length ≤ MAX_SYMBOLS →
      0 < t.symbols → ∀ rest, symbolCountFromGnuHash (t.encode ++ rest) = .ok t.symbols) ∧
    ∀ table, Inside table (2 * MAX_SYMBOLS + 4) (walk table) ∧
      ∀ n, symbolCountFromGnuHash table = .ok n →
        field table 4 4 ≤ n ∧
          (field table 4 4 < n →
            HEADER + field table 8 4 * 8 + field table 0 4 * 4 + (n - field table 4 4) * 4 ≤
              table.length) := by
  constructor
  · intro t hwell hbuckets hbloom hsome rest
    exact Hashed.symbolCount_encode hwell hbuckets hbloom hsome rest
  · intro table
    constructor
    · have hinside := walk_inside table
      exact ⟨hinside.count.trans (by omega), hinside.within⟩
    · intro n h
      exact walk_covers h

/-- Two unhashed symbols, and three in two of three buckets. -/
def smallTable : Hashed := ⟨2, 3, [0], 6, [(2, [8, 11]), (0, [6])]⟩

theorem smallTable_wellFormed : smallTable.WellFormed :=
  ⟨by decide, by decide, by decide, by decide, by decide⟩

theorem gnuHash_counts_small : symbolCountFromGnuHash (smallTable.encode ++ [7]) = .ok 5 :=
  gnuHash_counts.1 smallTable smallTable_wellFormed (by decide) (by decide) (by decide) [7]

def widelyBloomed : Hashed := ⟨1, 1, List.replicate 1000001 0, 0, [(0, [4])]⟩

/-- One symbol hashed, behind a bloom filter of a word more than the ceiling: refused. -/
theorem bloom_past_ceiling :
    widelyBloomed.WellFormed ∧ widelyBloomed.symbols = 2 ∧
      symbolCountFromGnuHash (widelyBloomed.encode ++ []) ≠ .ok widelyBloomed.symbols := by
  have hwell : widelyBloomed.WellFormed :=
    ⟨by decide, by decide, by decide, by decide, by decide⟩
  have hlength : widelyBloomed.bloom.length = 1000001 := List.length_replicate
  have hrefused := Hashed.symbolCount_absurd hwell (by decide) (by rw [hlength]; decide)
    (by rw [hlength]; decide) []
  refine ⟨hwell, rfl, ?_⟩
  rw [hrefused]
  intro h
  cases h

end Orbistoun.Loader.GnuHash

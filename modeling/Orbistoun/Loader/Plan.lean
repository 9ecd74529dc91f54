import Mathlib.Data.List.Dedup
import Mathlib.Data.List.Sort
import Orbistoun.Lib.Codes

/-! # The link plan and what it is the same as

Everything linking decided about a title, as data: where each module sits, every value
relocation wrote, every site the host must be told of. Two plans are compared three ways:
the stored one against the fresh one as values, their differences named module by module,
and their digests, each over a fixed binary encoding.
-/

namespace Orbistoun.Loader.Plan

open Orbistoun.Lib.Codes

/-- One value relocation wrote into guest memory, as the plan keeps it: two words. -/
structure SlotWrite where
  at' : UInt64
  value : UInt64
  deriving DecidableEq, Repr

structure SegmentPlan where
  address : UInt64
  size : UInt64
  flags : UInt32
  deriving DecidableEq, Repr

/-- What linking decided for one module. -/
structure ModulePlan where
  /-- Empty for the executable. -/
  library : String
  base : UInt64
  span : UInt64 × UInt64
  segments : List SegmentPlan
  writes : List SlotWrite
  syscalls : List UInt64
  amdOnly : List (UInt64 × String)
  /-- Reported, not part of the plan's identity. -/
  counterReads : List UInt64
  rewrites : List (UInt64 × String)
  deriving DecidableEq, Repr

/-- What linking decided for a whole title. -/
structure LinkPlan where
  modules : List ModulePlan
  deriving DecidableEq, Repr

/-! ## Slots written differently -/

structure SlotDifference where
  library : String
  at' : UInt64
  stored : Option UInt64
  fresh : Option UInt64
  deriving DecidableEq, Repr

/-- The slots two address-ordered write lists disagree on: the two positions walk what is
left of each list. -/
def slotDifferences (library : String) : List SlotWrite → List SlotWrite → List SlotDifference
  | [], [] => []
  | a :: was, b :: now =>
      if a.at' = b.at' then
        if a.value = b.value then slotDifferences library was now
        else ⟨library, a.at', some a.value, some b.value⟩ :: slotDifferences library was now
      else if a.at' < b.at' then
        ⟨library, a.at', some a.value, none⟩ :: slotDifferences library was (b :: now)
      else ⟨library, b.at', none, some b.value⟩ :: slotDifferences library (a :: was) now
  | a :: was, [] => ⟨library, a.at', some a.value, none⟩ :: slotDifferences library was []
  | [], b :: now => ⟨library, b.at', none, some b.value⟩ :: slotDifferences library [] now
  termination_by was now => was.length + now.length

theorem slotDifferences_eq_nil_iff (library : String) (was now : List SlotWrite) :
    slotDifferences library was now = [] ↔ was = now := by
  fun_induction slotDifferences library was now with
  | case1 => simp
  | case2 a was b now hat hvalue ih =>
      have hwrite : a = b := by
        cases a
        cases b
        simp_all
      simp [ih, hwrite]
  | case3 a was b now hat hvalue ih =>
      have hwrite : a ≠ b := fun h => hvalue (congrArg SlotWrite.value h)
      simp [hwrite]
  | case4 a was b now hat hlt ih =>
      have hwrite : a ≠ b := fun h => hat (congrArg SlotWrite.at' h)
      simp [hwrite]
  | case5 a was b now hat hlt ih =>
      have hwrite : a ≠ b := fun h => hat (congrArg SlotWrite.at' h)
      simp [hwrite]
  | case6 a was ih => simp
  | case7 b now ih => simp

/-! ## Differences -/

/-- Everything two plans disagree on. -/
structure PlanDifference where
  placements : List String
  syscalls : List String
  slots : List SlotDifference
  deriving DecidableEq, Repr

def PlanDifference.isEmpty (d : PlanDifference) : Bool :=
  d.placements.isEmpty && d.syscalls.isEmpty && d.slots.isEmpty

namespace ModulePlan

def placed (m : ModulePlan) : UInt64 × (UInt64 × UInt64) × List SegmentPlan :=
  (m.base, m.span, m.segments)

/-- The instructions found in it. -/
def sites (m : ModulePlan) : List UInt64 × List (UInt64 × String) × List (UInt64 × String) :=
  (m.syscalls, m.amdOnly, m.rewrites)

/-- The module without what is reported only. -/
def identity (m : ModulePlan) : ModulePlan := { m with counterReads := [] }

end ModulePlan

namespace LinkPlan

def libraries (p : LinkPlan) : List String := p.modules.map ModulePlan.library

def find (p : LinkPlan) (library : String) : Option ModulePlan :=
  p.modules.find? (fun m => m.library == library)

/-- The names of both plans' modules, each once and in order, the executable first. -/
def ordered (stored fresh : LinkPlan) : List String :=
  let libraries := (stored.libraries ++ fresh.libraries).dedup.insertionSort (· ≤ ·)
  libraries.filter (fun library => library.isEmpty) ++
    libraries.filter (fun library => !library.isEmpty)

def differences (stored fresh : LinkPlan) : PlanDifference where
  placements := (ordered stored fresh).filter fun library =>
    (stored.find library).map ModulePlan.placed != (fresh.find library).map ModulePlan.placed
  syscalls := (ordered stored fresh).filter fun library =>
    (stored.find library).map ModulePlan.sites != (fresh.find library).map ModulePlan.sites
  slots := (ordered stored fresh).flatMap fun library =>
    slotDifferences library ((stored.find library).elim [] ModulePlan.writes)
      ((fresh.find library).elim [] ModulePlan.writes)

end LinkPlan

/-! ## Standing -/

/-- What a stored plan was computed from. -/
structure PlanKey where
  executable : String
  build : String
  host : String
  modules : String
  deriving DecidableEq, Repr

/-- A plan as the title library keeps it. -/
structure StoredPlan where
  key : PlanKey
  plan : LinkPlan
  deriving DecidableEq, Repr

/-- How a fresh plan stands against the stored one. -/
inductive Standing where
  | new
  | «match»
  | mismatch
  deriving DecidableEq, Repr

/-- The comparison of plans is the derived one: every field, counter reads included. -/
def standingAgainst (stored : Option StoredPlan) (key : PlanKey) (plan : LinkPlan) : Standing :=
  match stored with
  | some stored =>
      if stored.key = key ∧ stored.plan = plan then .match
      else if stored.key = key then .mismatch
      else .new
  | none => .new

theorem standingAgainst_match_iff (key : PlanKey) (stored fresh : LinkPlan) :
    standingAgainst (some ⟨key, stored⟩) key fresh = .match ↔ stored = fresh := by
  by_cases h : stored = fresh <;> simp [standingAgainst, h]

/-! ## The digest's input -/

def wordBytes (word : UInt64) : List UInt8 := littleEndian 8 word.toNat

def textBytes (text : String) : List UInt8 := text.toByteArray.data.toList

/-- A site and its text, with nothing to say where the text ends. -/
def siteBytes (site : UInt64 × String) : List UInt8 := wordBytes site.1 ++ textBytes site.2

def SegmentPlan.bytes (s : SegmentPlan) : List UInt8 :=
  wordBytes s.address ++ (wordBytes s.size ++ littleEndian 4 s.flags.toNat)

def SlotWrite.bytes (w : SlotWrite) : List UInt8 := wordBytes w.at' ++ wordBytes w.value

namespace ModulePlan

/-- What is fed of a module up to the count of its AMD-only sites: each part of one width or
behind its count. -/
def measured (m : ModulePlan) : List UInt8 :=
  littleEndian 8 m.library.utf8ByteSize ++ (textBytes m.library ++
    (wordBytes m.base ++ (wordBytes m.span.1 ++ (wordBytes m.span.2 ++
      (counted 8 SegmentPlan.bytes m.segments ++
        (counted 8 SlotWrite.bytes m.writes ++
          (counted 8 wordBytes m.syscalls ++ littleEndian 8 m.amdOnly.length)))))))

/-- What is fed after it: the sites with their bare texts, and the rewrites when there are
any. -/
def loose (m : ModulePlan) : List UInt8 :=
  m.amdOnly.flatMap siteBytes ++
    if m.rewrites.isEmpty then []
    else littleEndian 8 m.rewrites.length ++ m.rewrites.flatMap siteBytes

/-- What `digest` feeds to the hash of a module. -/
def fed (m : ModulePlan) : List UInt8 := m.measured ++ m.loose

end ModulePlan

def LinkPlan.digestInput (p : LinkPlan) : List UInt8 := p.modules.flatMap ModulePlan.fed


/-! ## The two comparisons by value -/

/-- The plan without what is reported only. -/
def LinkPlan.identity (p : LinkPlan) : List ModulePlan := p.modules.map ModulePlan.identity

theorem identity_eq_iff (m n : ModulePlan) :
    m.identity = n.identity ↔
      m.library = n.library ∧ m.placed = n.placed ∧ m.sites = n.sites ∧ m.writes = n.writes := by
  cases m
  cases n
  simp only [ModulePlan.identity, ModulePlan.placed, ModulePlan.sites, ModulePlan.mk.injEq,
    Prod.mk.injEq]
  tauto

theorem find_identity (p : LinkPlan) (library : String) :
    p.identity.find? (fun m => m.library == library) =
      (p.find library).map ModulePlan.identity := by
  rw [LinkPlan.identity, List.find?_map]
  rfl

theorem find_some_library {p : LinkPlan} {library : String} {m : ModulePlan}
    (h : p.find library = some m) : m.library = library := by
  have hname := List.find?_some h
  simpa using hname

theorem find_isSome_iff (p : LinkPlan) (library : String) :
    (p.find library).isSome ↔ library ∈ p.libraries := by
  simp [LinkPlan.find, LinkPlan.libraries, List.find?_isSome]

theorem find_of_mem {modules : List ModulePlan} (hnodup : (modules.map ModulePlan.library).Nodup)
    {m : ModulePlan} (hm : m ∈ modules) :
    modules.find? (fun n => n.library == m.library) = some m := by
  induction modules with
  | nil => simp at hm
  | cons first rest ih =>
      simp only [List.map_cons, List.nodup_cons] at hnodup
      simp only [List.mem_cons] at hm
      rcases hm with rfl | hrest
      · simp
      · have hname : first.library ≠ m.library := by
          intro h
          exact hnodup.1 (h ▸ List.mem_map_of_mem hrest)
        rw [List.find?_cons_of_neg (by simpa using hname)]
        exact ih hnodup.2 hrest

theorem mem_ordered_iff (stored fresh : LinkPlan) (library : String) :
    library ∈ LinkPlan.ordered stored fresh ↔
      library ∈ stored.libraries ∨ library ∈ fresh.libraries := by
  have hnames : library ∈ (stored.libraries ++ fresh.libraries).dedup ↔
      library ∈ stored.libraries ∨ library ∈ fresh.libraries := by
    rw [List.mem_dedup, List.mem_append]
  by_cases h : library.isEmpty <;> simp [LinkPlan.ordered, h, hnames]

/-- What `differences` asks of one name. -/
def Agree (stored fresh : LinkPlan) (library : String) : Prop :=
  (stored.find library).map ModulePlan.placed = (fresh.find library).map ModulePlan.placed ∧
    (stored.find library).map ModulePlan.sites = (fresh.find library).map ModulePlan.sites ∧
      (stored.find library).elim [] ModulePlan.writes =
        (fresh.find library).elim [] ModulePlan.writes

theorem isEmpty_differences_iff (stored fresh : LinkPlan) :
    (stored.differences fresh).isEmpty ↔
      ∀ library, library ∈ stored.libraries ∨ library ∈ fresh.libraries →
        Agree stored fresh library := by
  simp only [PlanDifference.isEmpty, LinkPlan.differences, Bool.and_eq_true,
    List.isEmpty_iff, List.filter_eq_nil_iff, List.flatMap_eq_nil_iff,
    slotDifferences_eq_nil_iff, mem_ordered_iff, bne_iff_ne, ne_eq, not_not, Agree]
  constructor
  · intro h library hlibrary
    exact ⟨h.1.1 library hlibrary, h.1.2 library hlibrary, h.2 library hlibrary⟩
  · intro h
    exact ⟨⟨fun library hlibrary => (h library hlibrary).1,
      fun library hlibrary => (h library hlibrary).2.1⟩,
      fun library hlibrary => (h library hlibrary).2.2⟩

/-- Plans that agree on a name find the same there, counter reads apart. -/
theorem agree_iff (stored fresh : LinkPlan) (library : String) :
    Agree stored fresh library ↔
      (stored.find library).map ModulePlan.identity =
        (fresh.find library).map ModulePlan.identity := by
  cases hwas : stored.find library with
  | none =>
      cases hnow : fresh.find library <;> simp [Agree, hwas, hnow]
  | some was =>
      cases hnow : fresh.find library with
      | none => simp [Agree, hwas, hnow]
      | some now =>
          have hname : was.library = now.library := by
            rw [find_some_library hwas, find_some_library hnow]
          simp [Agree, hwas, hnow, identity_eq_iff, hname]

/-- The names two plans share come in one order. -/
def SameOrder (stored fresh : LinkPlan) : Prop :=
  stored.libraries.filter (· ∈ fresh.libraries) = fresh.libraries.filter (· ∈ stored.libraries)

theorem identity_of_libraries {p : LinkPlan} (hnodup : p.libraries.Nodup) :
    p.identity.map some = p.libraries.map (fun l => (p.find l).map ModulePlan.identity) := by
  rw [LinkPlan.identity, LinkPlan.libraries, List.map_map, List.map_map]
  apply List.map_congr_left
  intro m hm
  have hfind : p.find m.library = some m := find_of_mem hnodup hm
  simp [hfind]

theorem differences_empty_iff {stored fresh : LinkPlan} (hstored : stored.libraries.Nodup)
    (hfresh : fresh.libraries.Nodup) (horder : SameOrder stored fresh) :
    (stored.differences fresh).isEmpty ↔ stored.identity = fresh.identity := by
  rw [isEmpty_differences_iff]
  simp only [agree_iff]
  constructor
  · intro h
    -- A name of one plan is a name of the other, so sharing an order is being one list.
    have hboth : ∀ library, library ∈ stored.libraries ↔ library ∈ fresh.libraries := by
      intro library
      have hsome : library ∈ stored.libraries ∨ library ∈ fresh.libraries →
          ((stored.find library).isSome ↔ (fresh.find library).isSome) := by
        intro hlibrary
        have hsame := congrArg Option.isSome (h library hlibrary)
        simp only [Option.isSome_map] at hsame
        rw [hsame]
      rw [find_isSome_iff, find_isSome_iff] at hsome
      constructor
      · intro hmem
        exact (hsome (Or.inl hmem)).mp hmem
      · intro hmem
        exact (hsome (Or.inr hmem)).mpr hmem
    have hlibraries : stored.libraries = fresh.libraries := by
      have hleft : stored.libraries.filter (· ∈ fresh.libraries) = stored.libraries := by
        rw [List.filter_eq_self]
        intro library hmem
        simpa using (hboth library).mp hmem
      have hright : fresh.libraries.filter (· ∈ stored.libraries) = fresh.libraries := by
        rw [List.filter_eq_self]
        intro library hmem
        simpa using (hboth library).mpr hmem
      exact hleft.symm.trans (horder.trans hright)
    have hsome : stored.identity.map some = fresh.identity.map some := by
      calc stored.identity.map some
          = stored.libraries.map (fun l => (stored.find l).map ModulePlan.identity) :=
            identity_of_libraries hstored
        _ = stored.libraries.map (fun l => (fresh.find l).map ModulePlan.identity) := by
            apply List.map_congr_left
            intro library hmem
            exact h library (Or.inl hmem)
        _ = fresh.libraries.map (fun l => (fresh.find l).map ModulePlan.identity) := by
            rw [hlibraries]
        _ = fresh.identity.map some := (identity_of_libraries hfresh).symm
    exact (Option.some_injective _).list_map hsome
  · intro h library _
    rw [← find_identity, ← find_identity, h]

/-! ## The digest's input, read back -/

theorem wordBytes_delimited : Delimited wordBytes := by
  apply delimited_of_width wordBytes 8
  · intro word
    simp [wordBytes]
  · intro a b h
    have hnat := littleEndian_inj a.toNat_lt b.toNat_lt h
    exact UInt64.toNat_inj.mp hnat

theorem flagBytes_delimited : Delimited (fun flags : UInt32 => littleEndian 4 flags.toNat) := by
  apply delimited_of_width _ 4
  · intro flags
    simp
  · intro a b h
    have hnat := littleEndian_inj a.toNat_lt b.toNat_lt h
    exact UInt32.toNat_inj.mp hnat

theorem SegmentPlan.bytes_delimited : Delimited SegmentPlan.bytes := by
  have hparts := wordBytes_delimited.after (wordBytes_delimited.after flagBytes_delimited)
  apply hparts.comap (fun s : SegmentPlan => (s.address, s.size, s.flags))
  intro a b h
  cases a
  cases b
  simpa using h

theorem SlotWrite.bytes_delimited : Delimited SlotWrite.bytes := by
  have hparts := wordBytes_delimited.after wordBytes_delimited
  apply hparts.comap (fun w : SlotWrite => (w.at', w.value))
  intro a b h
  cases a
  cases b
  simpa using h


theorem textBytes_length (text : String) : (textBytes text).length = text.utf8ByteSize := by
  rw [← String.size_toByteArray, textBytes, Array.length_toList, ByteArray.size_data]

theorem textBytes_inj {a b : String} (h : textBytes a = textBytes b) : a = b := by
  apply String.toByteArray_inj.mp
  exact ByteArray.ext (Array.toList_inj.mp h)

/-- A vector's length is a `usize`. -/
structure ModulePlan.Fits (m : ModulePlan) : Prop where
  library : m.library.utf8ByteSize < 256 ^ 8
  segments : m.segments.length < 256 ^ 8
  writes : m.writes.length < 256 ^ 8
  syscalls : m.syscalls.length < 256 ^ 8
  amdOnly : m.amdOnly.length < 256 ^ 8

def LinkPlan.Fits (p : LinkPlan) : Prop := ∀ m ∈ p.modules, m.Fits

namespace ModulePlan

/-- The modules agree in all that is of one width or behind its count. -/
def MeasureAlike (m n : ModulePlan) : Prop :=
  m.library = n.library ∧ m.placed = n.placed ∧ m.writes = n.writes ∧
    m.syscalls = n.syscalls ∧ m.amdOnly.length = n.amdOnly.length

instance (m n : ModulePlan) : Decidable (MeasureAlike m n) :=
  inferInstanceAs (Decidable (_ ∧ _ ∧ _ ∧ _ ∧ _))

theorem MeasureAlike.measured {m n : ModulePlan} (h : MeasureAlike m n) :
    m.measured = n.measured := by
  cases m
  cases n
  simp only [MeasureAlike, placed, Prod.mk.injEq] at h
  obtain ⟨rfl, ⟨rfl, rfl, rfl⟩, rfl, rfl, hlength⟩ := h
  simp [ModulePlan.measured, hlength]

/-- What is measured is read back whatever follows it. -/
theorem measured_append_inj {m n : ModulePlan} (hm : m.Fits) (hn : n.Fits)
    {rest other : List UInt8} (h : m.measured ++ rest = n.measured ++ other) :
    MeasureAlike m n ∧ rest = other := by
  simp only [measured, List.append_assoc] at h
  have hsize := littleEndian_append_inj hm.library hn.library h
  have hlibrary := List.append_inj hsize.2 (by rw [textBytes_length, textBytes_length, hsize.1])
  have hbase := wordBytes_delimited _ _ _ _ hlibrary.2
  have hstart := wordBytes_delimited _ _ _ _ hbase.2
  have hlength := wordBytes_delimited _ _ _ _ hstart.2
  have hsegments := counted_append_inj SegmentPlan.bytes_delimited hm.segments hn.segments
    hlength.2
  have hwrites := counted_append_inj SlotWrite.bytes_delimited hm.writes hn.writes hsegments.2
  have hsyscalls := counted_append_inj wordBytes_delimited hm.syscalls hn.syscalls hwrites.2
  have hcount := littleEndian_append_inj hm.amdOnly hn.amdOnly hsyscalls.2
  have hspan : m.span = n.span := Prod.ext hstart.1 hlength.1
  have hplaced : m.placed = n.placed := by
    rw [placed, placed, hbase.1, hspan, hsegments.1]
  exact ⟨⟨textBytes_inj hlibrary.1, hplaced, hwrites.1, hsyscalls.1, hcount.1⟩, hcount.2⟩

theorem fed_ne_nil (m : ModulePlan) : m.fed ≠ [] := by
  intro h
  have hlength := congrArg List.length h
  simp only [fed, measured, List.length_append, littleEndian_length, List.length_nil] at hlength
  omega

theorem fed_of_identity {m n : ModulePlan} (h : m.identity = n.identity) : m.fed = n.fed := by
  obtain ⟨hlibrary, hplaced, hsites, hwrites⟩ := (identity_eq_iff m n).mp h
  simp only [sites, Prod.mk.injEq] at hsites
  have hmeasured : m.measured = n.measured := by
    apply MeasureAlike.measured
    exact ⟨hlibrary, hplaced, hwrites, hsites.1, by rw [hsites.2.1]⟩
  have hloose : m.loose = n.loose := by
    rw [loose, loose, hsites.2.1, hsites.2.2]
  rw [fed, fed, hmeasured, hloose]

end ModulePlan

/-- The modules where two lists first part agree in all that is measured, and from there on
the sites and bare texts run on into the same bytes. -/
def partAlike : List ModulePlan → List ModulePlan → Prop
  | m :: was, n :: now =>
      if m.identity = n.identity then partAlike was now
      else ModulePlan.MeasureAlike m n ∧
        m.loose ++ was.flatMap ModulePlan.fed = n.loose ++ now.flatMap ModulePlan.fed
  | _, _ => False

instance decidablePartAlike : (was now : List ModulePlan) → Decidable (partAlike was now)
  | m :: was, n :: now =>
      have := decidablePartAlike was now
      inferInstanceAs (Decidable (if m.identity = n.identity then _ else _))
  | [], _ => inferInstanceAs (Decidable False)
  | _ :: _, [] => inferInstanceAs (Decidable False)

theorem not_partAlike_of_identity {was now : List ModulePlan}
    (h : was.map ModulePlan.identity = now.map ModulePlan.identity) : ¬ partAlike was now := by
  induction was generalizing now with
  | nil => simp [partAlike]
  | cons m was ih =>
      cases now with
      | nil => simp [partAlike]
      | cons n now =>
          simp only [List.map_cons, List.cons.injEq] at h
          rw [partAlike, if_pos h.1]
          exact ih h.2

theorem fed_eq_iff {was now : List ModulePlan} (hwas : ∀ m ∈ was, m.Fits)
    (hnow : ∀ m ∈ now, m.Fits) :
    was.flatMap ModulePlan.fed = now.flatMap ModulePlan.fed ↔
      was.map ModulePlan.identity = now.map ModulePlan.identity ∨ partAlike was now := by
  induction was generalizing now with
  | nil =>
      cases now with
      | nil => simp
      | cons n now => simp [partAlike, n.fed_ne_nil]
  | cons m was ih =>
      cases now with
      | nil => simp [partAlike, m.fed_ne_nil]
      | cons n now =>
          simp only [List.flatMap_cons, List.map_cons, List.cons.injEq, partAlike]
          by_cases hsame : m.identity = n.identity
          · have hrest := ih (fun x hx => hwas x (List.mem_cons_of_mem m hx))
              (fun x hx => hnow x (List.mem_cons_of_mem n hx))
            rw [if_pos hsame, ModulePlan.fed_of_identity hsame, List.append_cancel_left_eq, hrest]
            simp [hsame]
          · rw [if_neg hsame]
            simp only [hsame, false_and, false_or, ModulePlan.fed, List.append_assoc]
            constructor
            · intro h
              exact ModulePlan.measured_append_inj (hwas m List.mem_cons_self)
                (hnow n List.mem_cons_self) h
            · intro h
              rw [h.1.measured, h.2]

/-! ## One identity -/

theorem eq_iff_identity (stored fresh : LinkPlan) :
    stored = fresh ↔ stored.identity = fresh.identity ∧
      stored.modules.map ModulePlan.counterReads = fresh.modules.map ModulePlan.counterReads := by
  cases stored with
  | mk was =>
      cases fresh with
      | mk now =>
          simp only [LinkPlan.mk.injEq, LinkPlan.identity]
          constructor
          · rintro rfl
            exact ⟨rfl, rfl⟩
          · rintro ⟨hidentity, hreads⟩
            have hpairs : was.map (fun m => (m.identity, m.counterReads)) =
                now.map (fun m => (m.identity, m.counterReads)) := by
              rw [← List.zip_map', ← List.zip_map', hidentity, hreads]
            apply (Function.Injective.list_map ?_) hpairs
            intro m n h
            cases m
            cases n
            simp only [ModulePlan.identity, Prod.mk.injEq, ModulePlan.mk.injEq] at h
            simp [h]

/-- The three comparisons separate the same plans: a fresh plan matches the stored one under
its key exactly when nothing differs and exactly when the hash is fed the same. -/
def OneIdentity (key : PlanKey) (stored fresh : LinkPlan) : Prop :=
  (standingAgainst (some ⟨key, stored⟩) key fresh = .match ↔
      (stored.differences fresh).isEmpty) ∧
    (standingAgainst (some ⟨key, stored⟩) key fresh = .match ↔
      stored.digestInput = fresh.digestInput)

/-- The comparisons are one exactly where counter reads are not all that differs and the
unmeasured texts do not run together: plans that differ in counter reads alone do not match
though nothing differs, and a text without a length ends where the reader thinks it does. -/
theorem oneIdentity_iff (key : PlanKey) (stored fresh : LinkPlan)
    (hstored : stored.libraries.Nodup) (hfresh : fresh.libraries.Nodup)
    (horder : SameOrder stored fresh) (hfits : stored.Fits) (hfits' : fresh.Fits) :
    OneIdentity key stored fresh ↔
      (stored.identity = fresh.identity →
        stored.modules.map ModulePlan.counterReads = fresh.modules.map ModulePlan.counterReads) ∧
      ¬ partAlike stored.modules fresh.modules := by
  have hdigest : stored.digestInput = fresh.digestInput ↔
      stored.identity = fresh.identity ∨ partAlike stored.modules fresh.modules :=
    fed_eq_iff hfits hfits'
  have hapart : stored.identity = fresh.identity → ¬ partAlike stored.modules fresh.modules :=
    not_partAlike_of_identity
  rw [OneIdentity, standingAgainst_match_iff, differences_empty_iff hstored hfresh horder,
    hdigest, eq_iff_identity]
  tauto

def executable (amdOnly : List (UInt64 × String)) (counterReads : List UInt64) : LinkPlan where
  modules := [⟨"", 1, (1, 2), [], [], [], amdOnly, counterReads, []⟩]

def someKey : PlanKey := ⟨"executable", "build", "host", "modules"⟩

theorem executable_fits (amdOnly : List (UInt64 × String)) (counterReads : List UInt64)
    (h : amdOnly.length < 256 ^ 8) : (executable amdOnly counterReads).Fits := by
  intro m hm
  rw [executable, List.mem_singleton] at hm
  subst hm
  have hempty : 0 < 256 ^ 8 := by decide
  exact ⟨hempty, hempty, hempty, hempty, h⟩

theorem oneIdentity_of_two_plans :
    OneIdentity someKey (executable [(8, "extrq")] [16]) (executable [(8, "mwaitx")] [16]) :=
  (oneIdentity_iff someKey (executable [(8, "extrq")] [16]) (executable [(8, "mwaitx")] [16])
    (by decide) (by decide) rfl
    (executable_fits _ _ (by decide)) (executable_fits _ _ (by decide))).mpr
    ⟨fun _ => rfl, by decide +kernel⟩

/-- One more counter read, and the fresh plan does not match though nothing differs; an `A`
moved from one mnemonic to the next address, and the hash is fed the same. -/
theorem identities_differ :
    (¬ OneIdentity someKey (executable [] []) (executable [] [16])) ∧
      ¬ OneIdentity someKey
        (executable [(0, ""), (0x4141414141414141, "A")] [])
        (executable [(0, "A"), (0x4141414141414141, "")] []) := by
  have hreads : standingAgainst (some ⟨someKey, executable [] []⟩) someKey
      (executable [] [16]) = .mismatch := by decide +kernel
  have hnothing : ((executable [] []).differences (executable [] [16])).isEmpty := by
    decide +kernel
  have htexts : standingAgainst
      (some ⟨someKey, executable [(0, ""), (0x4141414141414141, "A")] []⟩) someKey
      (executable [(0, "A"), (0x4141414141414141, "")] []) = .mismatch := by decide +kernel
  have hfed : (executable [(0, ""), (0x4141414141414141, "A")] []).digestInput =
      (executable [(0, "A"), (0x4141414141414141, "")] []).digestInput := by decide +kernel
  constructor
  · intro h
    have hmatch := h.1.mpr hnothing
    rw [hreads] at hmatch
    cases hmatch
  · intro h
    have hmatch := h.2.mpr hfed
    rw [htexts] at hmatch
    cases hmatch

end Orbistoun.Loader.Plan

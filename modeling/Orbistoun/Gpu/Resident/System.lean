import Orbistoun.Lib.Machine
import Orbistoun.Gpu.Resident.Basic

/-! # Dispatches over kept images

The command processor's use of the registry, between guest writes. It prepares one
dispatch at a time: each image is placed and its bytes are read, the dispatch runs on the
device, what it stored is written into guest memory, and the registry is told. A
write-back deferred is made when something touches the image's pages. An image's texels
are its bytes over its span, in memory's order.
-/

namespace Orbistoun.Gpu

open Orbistoun.Lib

/-- A place given in the dispatch being prepared, and whether its bytes were read. -/
structure Given where
  use : Use
  span : Span
  read : Bool
  deriving DecidableEq, Repr

/-- The bytes of `key` were read; of a deferred image none are. -/
def Given.noteRead (key : Nat) (g : Given) : Given :=
  if g.use.key = key ∧ g.use.deferred = false then { g with read := true } else g

/-- What the command processor is at: preparing a dispatch with the places given so far,
or after one that ran, with the stored images still to be written back. -/
inductive Phase where
  | preparing (given : List Given)
  | ran (uses : Uses) (due : List Given)

structure System (W β : Type) where
  mem : Nat → β
  /-- What the device holds of each image, by key and address. -/
  device : Nat → Nat → β
  /-- What guest memory held of each image when it was prepared. -/
  before : Nat → Nat → β
  registry : Registry
  watch : W
  phase : Phase
  /-- The image whose deferred write-back is being made, until the registry is told. -/
  carrying : Option (Nat × Nat)

inductive Action (β : Type) where
  /-- The guest writes a byte. -/
  | write (a : Nat) (v : β)
  | begin
  | takeKept (key : Nat)
  | takeDeferred (key : Nat)
  | place (key : Nat) (span : Span) (bytes : Nat)
  /-- The preparation reads the bytes of an image it placed. -/
  | read (key : Nat)
  /-- The device runs the dispatch, leaving `stores` in what it stores to, and the registry
  is told whether it ran. -/
  | execute (uses : Uses) (stores : Nat → Nat → β) (ok : Bool)
  /-- The next stored image is written back. -/
  | writeBack
  | writtenBack
  /-- A deferred image is read off the device and written over guest memory. -/
  | carryOut (key generation : Nat)
  | carriedOut
  | forgetAll
  | setBudget (budget : Nat)

namespace System

variable {W β : Type} [DecidableEq β] (watch : WatchOps W)
  (walk : List (Nat × Entry) → List (Nat × Entry))

def writeOver (s : System W β) (as : List Nat) (v : Nat → β) : System W β :=
  { s with
    mem := fun a => if a ∈ as then v a else s.mem a
    watch := watch.writes s.watch as }

def give (s : System W β) (given : List Given) (span : Span) : Option Use → List Use × System W β
  | none => ([], s)
  | some u => ([u], { s with phase := .preparing (⟨u, span, false⟩ :: given) })

/-- The place a dispatch binds is one it was given: the same image and contents, a stored
image's write-back perhaps deferred since, and its bytes read where the dispatch needs them. -/
def Binds (given : List Given) (used : Use × Bool) : Prop :=
  ∃ g ∈ given, g.use.key = used.1.key ∧ g.use.generation = used.1.generation ∧
    g.use.fresh = used.1.fresh ∧ (g.use.deferred = true → used.1.deferred = true) ∧
    (used.1.fresh = true ∨ (used.2 = true ∧ used.1.deferred = false) → g.read = true)

instance (given : List Given) (used : Use × Bool) : Decidable (Binds given used) :=
  inferInstanceAs (Decidable (∃ g ∈ given, _ ∧ _))

/-- The dispatch binds what it was given, each image once. -/
def CanExecute (given : List Given) (uses : Uses) : Prop :=
  (∀ used ∈ uses.each, Binds given used) ∧ (uses.each.map (fun used => used.1.key)).Nodup

instance (given : List Given) (uses : Uses) : Decidable (CanExecute given uses) :=
  inferInstanceAs (Decidable (_ ∧ _))

/-- What the device holds once a dispatch ran: what it stored, and the texels that came with
the images read for it. -/
def executed (s : System W β) (uses : Uses) (stores : Nat → Nat → β) (key : Nat) : Nat → β :=
  if key ∈ uses.storedUses.map (·.key) then stores key
  else if uses.each.any (fun used => used.1.key = key ∧ used.1.fresh) then s.before key
  else s.device key

/-- The stored images written back after the dispatch: those not deferred. -/
def dueAfter (given : List Given) (uses : Uses) : List Given :=
  given.filter (fun g => uses.storedUses.any
    (fun u => u.key = g.use.key ∧ u.generation = g.use.generation ∧ !u.deferred))

/-- The addresses where what the device holds differs from what memory held before. -/
def changed (s : System W β) (key : Nat) (span : Span) : List Nat :=
  span.addresses.filter (fun a => s.device key a ≠ s.before key a)

def step (s : System W β) : Action β → System W β × List Use
  | .write a v => (s.writeOver watch [a] (fun _ => v), [])
  | .begin => ({ s with registry := s.registry.begin, phase := .preparing [] }, [])
  | .takeKept key =>
      match s.phase with
      | .ran _ _ => (s, [])
      | .preparing given =>
          let (used, registry, w) := s.registry.takeKept watch s.watch key
          let span := ((s.registry.entries[key]?).map Entry.span).getD ⟨0, 0⟩
          let (us, s) := { s with registry, watch := w }.give given span used
          (s, us)
  | .takeDeferred key =>
      match s.phase with
      | .ran _ _ => (s, [])
      | .preparing given =>
          let (used, registry) := s.registry.takeDeferred key
          let span := ((s.registry.entries[key]?).map Entry.span).getD ⟨0, 0⟩
          let (us, s) := { s with registry }.give given span used
          (s, us)
  | .place key span bytes =>
      match s.phase with
      | .ran _ _ => (s, [])
      | .preparing given =>
          let (used, registry, w) := s.registry.place watch walk s.watch key span bytes
          let (us, s) := { s with registry, watch := w }.give given span used
          (s, us)
  | .read key =>
      match s.phase with
      | .ran _ _ => (s, [])
      | .preparing given =>
          if given.any (fun g => g.use.key = key ∧ g.use.deferred = false) then
            ({ s with
              before := Function.update s.before key s.mem
              phase := .preparing (given.map (Given.noteRead key)) }, [])
          else (s, [])
  | .execute uses stores ok =>
      match s.phase, s.carrying with
      | .preparing given, none =>
          if CanExecute given uses then
            let (registry, w) := s.registry.ran watch s.watch uses ok
            ({ s with
              device := s.executed uses stores
              registry
              watch := w
              phase := if ok then .ran uses (dueAfter given uses) else .preparing [] }, [])
          else (s, [])
      | _, _ => (s, [])
  | .writeBack =>
      match s.phase with
      | .ran uses (g :: due) =>
          ({ s.writeOver watch (s.changed g.use.key g.span) (s.device g.use.key) with
            phase := .ran uses due }, [])
      | _ => (s, [])
  | .writtenBack =>
      match s.phase with
      | .ran uses [] =>
          let (registry, w) := s.registry.writtenBack watch s.watch uses
          ({ s with registry, watch := w, phase := .preparing [] }, [])
      | _ => (s, [])
  | .carryOut key generation =>
      match s.carrying, s.registry.entries[key]? with
      | none, some e =>
          if e.state = .deferred then
            let as := e.span.addresses.filter (fun a => s.mem a ≠ s.device key a)
            ({ s.writeOver watch as (s.device key) with carrying := some (key, generation) }, [])
          else (s, [])
      | _, _ => (s, [])
  | .carriedOut =>
      match s.carrying with
      | some (key, generation) =>
          let (registry, w) := s.registry.carriedOut watch s.watch key generation
          ({ s with registry, watch := w, carrying := none }, [])
      | none => (s, [])
  | .forgetAll => ({ s with registry := s.registry.forgetAll walk }, [])
  | .setBudget budget => ({ s with registry := s.registry.setBudget budget }, [])

/-- The command processor and the guest. -/
def machine : Machine (System W β) (Action β) Use where
  step := step watch walk

def start (mem : Nat → β) (device before : Nat → Nat → β) (w : W) (budget : Nat) : System W β :=
  ⟨mem, device, before, Registry.new budget, w, .preparing [], none⟩

/-- What the device holds of an image is what an upload of guest memory would give it. -/
def Current (s : System W β) (key : Nat) : Prop :=
  ∃ e, s.registry.entries[key]? = some e ∧ ∀ a, e.span.Has a → s.device key a = s.mem a

/-! ## Writes a mark absorbs -/

/-- A write of the byte at `a` is hidden by the mark the image `key` waits for: its dispatch
has run and the write-back will not, or will no longer, put the device's byte there. -/
def Absorbs (s : System W β) (key a : Nat) : Prop :=
  ∃ e, s.registry.entries[key]? = some e ∧ e.span.Has a ∧
    match e.state with
    | .writing => ∃ uses due, s.phase = .ran uses due ∧
        (∃ u ∈ uses.storedUses, u.key = key ∧ u.generation = e.generation) ∧
        ((∀ g ∈ due, g.use.key ≠ key) ∨ s.device key a = s.before key a)
    | .deferred => ∃ generation, s.carrying = some (key, generation)
    | _ => False

/-- Each write of a step is hidden by no mark but the one it is made for. -/
def Spares (s : System W β) : Action β → Prop
  | .write a _ => ∀ key, ¬ s.Absorbs key a
  | .writeBack => ∀ uses g due, s.phase = .ran uses (g :: due) →
      ∀ a ∈ s.changed g.use.key g.span, ∀ key, key ≠ g.use.key → ¬ s.Absorbs key a
  | .carryOut key _ => ∀ e, s.registry.entries[key]? = some e →
      ∀ a, e.span.Has a → ∀ key', key' ≠ key → ¬ s.Absorbs key' a
  | _ => True

end System

end Orbistoun.Gpu

import Orbistoun.Loader.Container
import Orbistoun.Lib.Writes

/-! # Instructions the host lacks

Each executable segment is swept for the instructions only some processors execute, and for
each the host lacks the plan says what to write over the site and what trampoline to build.
Whatever is written over a site has the length of the instruction it replaces, so a patch
stays inside the bytes that were swept.
-/

namespace Orbistoun.Loader

open Orbistoun.Lib.U64 (bound)
open Orbistoun.Lib.Writes (Write)

/-- Where an instruction takes its field length and bit index from. -/
inductive Field where
  | immediate (len index : Nat)
  | register
  deriving DecidableEq, Repr

/-- One AMD-only instruction, decoded. -/
inductive Form where
  | extrq (dst src : Nat) (field : Field)
  | insertq (dst src : Nat) (field : Field)
  | monitorx
  | mwaitx
  | clzero
  | rdpru
  | mcommit
  deriving DecidableEq, Repr

/-- The instruction set extensions a rewrite depends on, as one host has them. -/
structure Host where
  sse4a : Bool
  monitorx : Bool
  clzero : Bool
  rdpru : Bool
  mcommit : Bool
  rehearsal : Bool
  deriving DecidableEq, Repr

namespace Host

def FULL : Host := ⟨true, true, true, true, true, false⟩

def hasAll (h : Host) : Bool := h.sse4a && h.monitorx && h.clzero && h.rdpru && h.mcommit

def has (h : Host) : Form → Bool
  | .extrq .. | .insertq .. => h.sse4a
  | .monitorx | .mwaitx => h.monitorx
  | .clzero => h.clzero
  | .rdpru => h.rdpru
  | .mcommit => h.mcommit

/-- Whether a site left to fault would not fault on the processor that `detected` describes. -/
def rehearses (h detected : Host) (form : Form) : Bool :=
  h.rehearsal && !h.has form && detected.has form

end Host

/-! ## Decoding -/

inductive Mnemonic where
  | extrq
  | insertq
  | monitorx
  | mwaitx
  | clzero
  | rdpru
  | mcommit
  | other
  deriving DecidableEq, Repr

inductive OpKind where
  | immediate8
  | immediate8Second
  | other
  deriving DecidableEq, Repr

/-- What is read of a decoded instruction. The registers are numbered from `xmm0`. -/
structure Instruction where
  mnemonic : Mnemonic
  opCount : Nat
  opKind : Nat → OpKind
  op0Register : Nat
  op1Register : Nat
  immediate8 : Nat
  immediate8Second : Nat
  len : Nat

/-- The decoder: one instruction is read from the start of what is left, and takes up at
least one byte and no more than there are. -/
structure Decoder where
  decode : List Byte → Instruction
  len_pos : ∀ bytes, 0 < (decode bytes).len
  len_le : ∀ bytes, bytes ≠ [] → (decode bytes).len ≤ bytes.length

/-- The form of a decoded instruction, or nothing for one every host has. -/
def Form.of (i : Instruction) : Option Form :=
  let xmm (register : Nat) := register &&& 0xf
  let immediates (first : Nat) : Option Field :=
    if i.opKind first = .immediate8 ∧ i.opKind (first + 1) = .immediate8Second then
      some (.immediate (i.immediate8 &&& 0x3f) (i.immediate8Second &&& 0x3f))
    else none
  match i.mnemonic with
  | .extrq =>
      match i.opCount with
      | 3 => (immediates 1).map (Form.extrq (xmm i.op0Register) (xmm i.op0Register))
      | 2 => some (.extrq (xmm i.op0Register) (xmm i.op1Register) .register)
      | _ => none
  | .insertq =>
      match i.opCount with
      | 4 => (immediates 2).map (Form.insertq (xmm i.op0Register) (xmm i.op1Register))
      | 2 => some (.insertq (xmm i.op0Register) (xmm i.op1Register) .register)
      | _ => none
  | .monitorx => some .monitorx
  | .mwaitx => some .mwaitx
  | .clzero => some .clzero
  | .rdpru => some .rdpru
  | .mcommit => some .mcommit
  | .other => none

/-- The instructions of a segment one after another, each with its address. -/
def sweep (d : Decoder) (bytes : List Byte) (ip : Nat) : List (Nat × Instruction) :=
  if h : bytes = [] then []
  else
    let i := d.decode bytes
    (ip, i) :: sweep d (bytes.drop i.len) ((ip + i.len) % bound)
  termination_by bytes.length
  decreasing_by
    have hpos := List.length_pos_of_ne_nil h
    have hlen := d.len_pos bytes
    rw [List.length_drop]
    omega

/-! ## Trampolines -/

/-- The length of `jmp rel32`. -/
def JUMP : Nat := 5

/-- A jump from one address to another, where they are no more than two gibibytes apart. -/
def jump (origin target : Nat) : Option (List Byte) :=
  let rel := (target + (bound - (origin + JUMP) % bound)) % bound
  if rel < 2 ^ 31 ∨ bound - 2 ^ 31 ≤ rel then
    some (0xe9 :: [rel, rel / 256, rel / 256 ^ 2, rel / 256 ^ 3].map UInt8.ofNat)
  else none

/-- Where the trampoline's frame keeps the destination, then the source. -/
def DST : Nat := 0

def SRC : Nat := 16

namespace Code

/-- A register moved between itself and the frame. -/
def xmmFrame (opcode : Byte) (xmm disp : Nat) : List Byte :=
  (0xf3 : Byte) :: (if 8 ≤ xmm then [0x44] else []) ++
    [0x0f, opcode, UInt8.ofNat (0x44 ||| ((xmm &&& 7) <<< 3)), 0x24, UInt8.ofNat disp]

def load (reg disp : Nat) : List Byte :=
  [0x48, 0x8b, UInt8.ofNat (0x44 ||| (reg <<< 3)), 0x24, UInt8.ofNat disp]

def length (field : Field) (control : Nat) : List Byte :=
  match field with
  | .immediate len _ => [0xb9, UInt8.ofNat len, 0, 0, 0]
  | .register => load 1 control ++ [0x83, 0xe1, 0x3f]

def index (field : Field) (control : Nat) : List Byte :=
  match field with
  | .immediate _ index => [0xb9, UInt8.ofNat index, 0, 0, 0]
  | .register => load 1 control ++ [0xc1, 0xe9, 0x08, 0x83, 0xe1, 0x3f]

def mask : List Byte :=
  [0x48, 0xc7, 0xc2, 0xff, 0xff, 0xff, 0xff, 0xf7, 0xd9, 0x83, 0xe1, 0x3f, 0x48, 0xd3, 0xea]

end Code

def RED_ZONE : List Byte := [0x48, 0x8d, 0x64, 0x24, 0x80]

/-- What a trampoline does between saving the registers it borrows and restoring them. -/
def Code.work (form : Form) (field : Field) : List Byte :=
  match form with
  | .extrq .. =>
      Code.index field SRC ++ [0x48, 0xd3, 0xe8] ++ Code.length field SRC ++ Code.mask ++
        [0x48, 0x21, 0xd0]
  | _ =>
      Code.load 3 SRC ++ Code.length field (SRC + 8) ++ Code.mask ++ [0x48, 0x21, 0xd3] ++
        Code.index field (SRC + 8) ++
        [0x48, 0xd3, 0xe3, 0x48, 0xd3, 0xe2, 0x48, 0xf7, 0xd2, 0x48, 0x21, 0xd0, 0x48, 0x09, 0xd8]

def trampoline (form : Form) (at_ back : Nat) : Option (List Byte) :=
  match form with
  | .extrq dst src field | .insertq dst src field =>
      let code :=
        RED_ZONE ++ [0x9c, 0x50, 0x51, 0x52, 0x53] ++ [0x48, 0x8d, 0x64, 0x24, 0xe0] ++
          Code.xmmFrame 0x7f dst DST ++ Code.xmmFrame 0x7f src SRC ++ Code.load 0 DST ++
          Code.work form field ++
          [0x48, 0x89, 0x44, 0x24, UInt8.ofNat DST] ++
          [0x48, 0xc7, 0x44, 0x24, UInt8.ofNat (DST + 8), 0, 0, 0, 0] ++
          Code.xmmFrame 0x6f dst DST ++ [0x48, 0x8d, 0x64, 0x24, 0x20] ++
          [0x5b, 0x5a, 0x59, 0x58, 0x9d] ++ [0x48, 0x8d, 0xa4, 0x24, 0x80, 0, 0, 0]
      (jump ((at_ + code.length) % bound) back).map (fun leave => code ++ leave)
  | _ => none

/-! ## The plan -/

/-- How a site was made to run. -/
inductive How where
  | trampoline
  | inPlace
  | atFault
  | refused
  deriving DecidableEq, Repr

structure Rewrite where
  at_ : Nat
  form : Form
  how : How
  deriving DecidableEq, Repr

/-- What rewriting one module writes: bytes over sites, and the trampolines. -/
structure ModuleRewrite where
  rewrites : List Rewrite
  patches : List (Write Byte)
  roomAt : Nat
  room : List Byte
  planted : List (Nat × Form × Nat)
  deriving DecidableEq, Repr

def UD2 : List Byte := [0x0f, 0x0b]

def resize (bytes : List Byte) (len : Nat) (fill : Byte) : List Byte :=
  bytes.take len ++ List.replicate (len - bytes.length) fill

def ModuleRewrite.patch (out : ModuleRewrite) (at_ : Nat) (bytes : List Byte) : ModuleRewrite :=
  { out with patches := out.patches ++ [⟨at_, bytes⟩] }

/-- Decides one site and writes what it needs. -/
def rewriteOne (detected : Host) (form : Form) (at_ len : Nat) (host : Host)
    (out : ModuleRewrite) : How × ModuleRewrite :=
  match form with
  | .monitorx => (.inPlace, out.patch at_ (resize [0x0f, 0x1f, 0x00] len 0x90))
  | .mwaitx => (.inPlace, out.patch at_ (resize [0xf3, 0x90] len 0x90))
  | .extrq .. | .insertq .. =>
      let place := (out.roomAt + out.room.length) % bound
      let back := (at_ + len) % bound
      let built := if JUMP ≤ len then
          (trampoline form place back).bind (fun body => (jump at_ place).map (Prod.mk body))
        else none
      match built with
      | some (body, enter) =>
          (.trampoline, { out with room := out.room ++ body }.patch at_ (resize enter len 0xcc))
      | none =>
          if host.rehearses detected form then
            (.atFault, { out with planted := out.planted ++ [(at_, form, len)] }.patch at_
              (resize UD2 len 0xcc))
          else (.atFault, out)
  | .clzero | .rdpru | .mcommit => (.refused, out)

def planInstruction (detected host : Host) (out : ModuleRewrite) (site : Nat × Instruction) :
    ModuleRewrite :=
  match Form.of site.2 with
  | none => out
  | some form =>
      if host.has form then out
      else
        let (how, out) := rewriteOne detected form site.1 site.2.len host out
        { out with rewrites := out.rewrites ++ [⟨site.1, form, how⟩] }

/-- What a host needs done to executable segments, with trampolines from `roomAt` on. -/
def plan (d : Decoder) (detected : Host) (code : List (List Byte × Nat)) (host : Host)
    (roomAt : Nat) : ModuleRewrite :=
  let out : ModuleRewrite := ⟨[], [], roomAt, [], []⟩
  if host.hasAll then out
  else
    code.foldl (fun out segment =>
      (sweep d segment.1 segment.2).foldl (planInstruction detected host) out) out

/-! ## Where patches lie -/

/-- A patch lies on bytes of one of the segments that were swept. -/
def OnCode (code : List (List Byte × Nat)) (w : Write Byte) : Prop :=
  ∃ segment ∈ code, ∃ pos, w.start = (segment.2 + pos) % bound ∧
    pos + w.values.length ≤ segment.1.length

theorem length_resize (bytes : List Byte) (len : Nat) (fill : Byte) :
    (resize bytes len fill).length = len := by
  unfold resize
  rw [List.length_append, List.length_take, List.length_replicate]
  omega

theorem rewriteOne_patches (detected : Host) (form : Form) (at_ len : Nat) (host : Host)
    (out : ModuleRewrite) :
    (rewriteOne detected form at_ len host out).2.patches = out.patches ∨
      ∃ bytes, bytes.length = len ∧
        (rewriteOne detected form at_ len host out).2.patches = out.patches ++ [⟨at_, bytes⟩] := by
  unfold rewriteOne
  split
  · exact Or.inr ⟨_, length_resize _ _ _, rfl⟩
  · exact Or.inr ⟨_, length_resize _ _ _, rfl⟩
  · dsimp only
    split
    · exact Or.inr ⟨_, length_resize _ _ _, rfl⟩
    · split
      · exact Or.inr ⟨_, length_resize _ _ _, rfl⟩
      · exact Or.inl rfl
  · dsimp only
    split
    · exact Or.inr ⟨_, length_resize _ _ _, rfl⟩
    · split
      · exact Or.inr ⟨_, length_resize _ _ _, rfl⟩
      · exact Or.inl rfl
  all_goals exact Or.inl rfl

theorem planInstruction_patches (detected host : Host) (out : ModuleRewrite)
    (site : Nat × Instruction) :
    (planInstruction detected host out site).patches = out.patches ∨
      ∃ bytes, bytes.length = site.2.len ∧
        (planInstruction detected host out site).patches = out.patches ++ [⟨site.1, bytes⟩] := by
  unfold planInstruction
  split
  · exact Or.inl rfl
  · split
    · exact Or.inl rfl
    · exact rewriteOne_patches _ _ _ _ _ _

theorem sweep_inside (d : Decoder) (bytes : List Byte) (ip : Nat) (hip : ip < bound) :
    ∀ site ∈ sweep d bytes ip, ∃ pos, site.1 = (ip + pos) % bound ∧
      pos + site.2.len ≤ bytes.length := by
  fun_induction sweep d bytes ip with
  | case1 ip => simp
  | case2 bytes ip h i ih =>
      intro site hsite
      rcases List.mem_cons.mp hsite with rfl | hsite
      · exact ⟨0, (Nat.mod_eq_of_lt hip).symm, by simpa using d.len_le bytes h⟩
      · obtain ⟨pos, hat, hlen⟩ := ih (Nat.mod_lt _ (by decide)) site hsite
        have hdrop : (bytes.drop i.len).length = bytes.length - i.len := List.length_drop
        have hle : i.len ≤ bytes.length := d.len_le bytes h
        refine ⟨i.len + pos, ?_, by omega⟩
        rw [hat, Nat.mod_add_mod, Nat.add_assoc]

theorem foldl_planInstruction_onCode {detected host : Host} {code : List (List Byte × Nat)}
    {segment : List Byte × Nat} (hsegment : segment ∈ code) (sites : List (Nat × Instruction))
    (hsites : ∀ site ∈ sites, ∃ pos, site.1 = (segment.2 + pos) % bound ∧
      pos + site.2.len ≤ segment.1.length) (out : ModuleRewrite)
    (h : ∀ w ∈ out.patches, OnCode code w) :
    ∀ w ∈ (sites.foldl (planInstruction detected host) out).patches, OnCode code w := by
  induction sites generalizing out with
  | nil => exact h
  | cons site sites ih =>
      apply ih (fun s hs => hsites s (List.mem_cons_of_mem _ hs))
      obtain ⟨pos, hat, hpos⟩ := hsites site List.mem_cons_self
      rcases planInstruction_patches detected host out site with heq | ⟨bytes, hlen, heq⟩
      · rw [heq]
        exact h
      · rw [heq]
        intro w hw
        rcases List.mem_append.mp hw with hw | hw
        · exact h w hw
        · rw [List.mem_singleton.mp hw]
          exact ⟨segment, hsegment, pos, hat, by rw [hlen]; exact hpos⟩

theorem plan_onCode (d : Decoder) (detected : Host) {code : List (List Byte × Nat)}
    (hcode : ∀ segment ∈ code, segment.2 < bound) (host : Host) (roomAt : Nat) :
    ∀ w ∈ (plan d detected code host roomAt).patches, OnCode code w := by
  unfold plan
  dsimp only
  split
  · simp
  · -- segments are swept one after another into the same plan
    have hfold : ∀ (segments : List (List Byte × Nat)) (out : ModuleRewrite),
        (∀ segment ∈ segments, segment ∈ code) → (∀ w ∈ out.patches, OnCode code w) →
        ∀ w ∈ (segments.foldl (fun out segment =>
          (sweep d segment.1 segment.2).foldl (planInstruction detected host) out) out).patches,
          OnCode code w := by
      intro segments
      induction segments with
      | nil => exact fun out _ h => h
      | cons segment segments ih =>
          intro out hin h
          have hmem := hin segment List.mem_cons_self
          apply ih _ (fun s hs => hin s (List.mem_cons_of_mem _ hs))
          exact foldl_planInstruction_onCode hmem _
            (sweep_inside d segment.1 segment.2 (hcode segment hmem)) out h
    exact hfold code _ (fun _ h => h) (by simp)

end Orbistoun.Loader

import Mathlib.Data.List.Basic
import Mathlib.Tactic

/-! # Where a guest path lands on the host

The mount table of `mount.rs` and the functions that resolve a guest path through it.
Texts are lists of characters. A host path is the list of its components, with `join` as
the standard library has it: an absolute path, or one with a drive, replaces what it is
joined to. What is on the host's disk is whatever the host says.
-/

namespace Orbistoun.Fs.Mount

open Std (TreeMap)

abbrev Text := List Char

/-! ## Host paths -/

inductive Component where
  | drive (text : Text)
  | rootDir
  | curDir
  | parentDir
  | normal (name : Text)
  deriving DecidableEq, Repr

abbrev PathBuf := List Component

/-- A drive at the start of a path, and what follows it. -/
def splitDrive : Text → Option (Text × Text)
  | letter :: ':' :: body => if letter.isAlpha then some ([letter, ':'], body) else none
  | _ => none

/-- `\` from a guest that mixes conventions is `/`. -/
def unbackslash (path : Text) : Text := path.map (fun c => if c = '\\' then '/' else c)

def classify (name : Text) : Component := if name = ['.', '.'] then .parentDir else .normal name

/-- The components of the names between separators: a `.` stays only where it leads. -/
def bodyComponents (rooted : Bool) : List Text → List Component
  | [] => []
  | first :: rest =>
      (if first = ['.'] then (if rooted then [] else [.curDir]) else [classify first]) ++
        (rest.filter (· != ['.'])).map classify

/-- `Path::components`. The prefixes of a Windows path that start with two separators are
left out: no text it is asked about here starts with one. -/
def components (windows : Bool) (text : Text) : List Component :=
  let text := if windows then unbackslash text else text
  let (start, body) := match (if windows then splitDrive text else none) with
    | some (drive, body) => ([Component.drive drive], body)
    | none => ([], text)
  let rooted := body.head? == some '/'
  start ++ (if rooted then [.rootDir] else []) ++
    bodyComponents rooted ((body.splitOn '/').filter (· != []))

def Component.isDrive : Component → Bool
  | .drive _ => true
  | _ => false

/-- `Path::join`. -/
def join (windows : Bool) (root : PathBuf) (text : Text) : PathBuf :=
  match components windows text with
  | .drive d :: rest => .drive d :: rest
  | .rootDir :: rest => root.takeWhile Component.isDrive ++ .rootDir :: rest
  | rest => root ++ rest

/-- `Path::parent`. -/
def parent (path : PathBuf) : Option PathBuf :=
  match path.getLast? with
  | none => none
  | some .rootDir => none
  | some (.drive _) => none
  | some _ => some path.dropLast

/-! ## The mount table -/

/-- The mounts by guest prefix with their layers, top first; the prefixes a guest may write
under; the host paths no guest sees; and what the host answers of its disk. -/
structure Env where
  mounts : TreeMap Text (List PathBuf)
  writable : List Text
  hidden : List PathBuf
  windows : Bool
  onDisk : PathBuf → Text → Bool
  isDir : PathBuf → Bool
  isFile : PathBuf → Bool
  createDirAll : PathBuf → Bool
  copy : PathBuf → PathBuf → Bool

/-- Whether a text is a prefix of another, and what follows it there. -/
def stripPrefix (start path : Text) : Option Text :=
  if start.isPrefixOf path then some (path.drop start.length) else none

def startsWithSlash (text : Text) : Bool := text.head? == some '/'

variable (env : Env)

def isWritable (guestPath : Text) : Bool :=
  let path := unbackslash guestPath
  env.writable.any (fun start =>
    path == start || (start.isPrefixOf path && startsWithSlash (path.drop start.length)))

def isHidden (root host : PathBuf) : Bool :=
  env.hidden.any (fun h => root.isPrefixOf h && h != root && h.isPrefixOf host)

/-- Whether a guest path stays inside its mount. -/
def isContained (relative : Text) : Bool :=
  relative != [] && (components env.windows relative).all (fun component =>
    match component with
    | .normal part => part != []
    | _ => false)

def existsCaseSensitive (root : PathBuf) (rest : Text) : Bool :=
  !isHidden env root (join env.windows root rest) && env.onDisk root rest

/-- The names of a path under a mount, its `.` components and the empty ones dropped. -/
def namesOf (rest : Text) : List Text :=
  (rest.splitOn '/').filter (fun name => name != [] && name != ['.'])

def withoutCurrentDir (rest : Text) : Text := ['/'].intercalate (namesOf rest)

/-- The most specific mount answers first: the loops below read the table from its back. -/
def entries : List (Text × List PathBuf) := env.mounts.toList.reverse

/-- One turn of the loop of `resolve_inner`: nothing where it goes on. -/
def resolveInnerAt (path : Text) (writableFallback : Bool) :
    Text × List PathBuf → Option (Option PathBuf)
  | (start, roots) =>
      match stripPrefix start path with
      | none => none
      | some after =>
          let rest := after.dropWhile (· == '/')
          if rest == [] then some roots.head?
          else if !startsWithSlash after then none
          else
            let rest := withoutCurrentDir rest
            if rest == [] then some roots.head?
            else if !isContained env rest then some none
            else
              some (match roots.find? (fun root => existsCaseSensitive env root rest) with
                | some root => some (join env.windows root rest)
                | none =>
                    if writableFallback then roots.head?.map (join env.windows · rest) else none)

/-- The walk of `resolve_inner` over the table. -/
def walkInner (path : Text) (writableFallback : Bool) : Option PathBuf :=
  ((entries env).findSome? (resolveInnerAt env path writableFallback)).getD none

/-- One turn of the loop of `resolve_top`. -/
def resolveTopAt (path : Text) : Text × List PathBuf → Option (Option PathBuf)
  | (start, roots) =>
      match stripPrefix start path with
      | none => none
      | some rest =>
          if rest != [] && !startsWithSlash rest then none
          else
            let rest := withoutCurrentDir rest
            some (match roots.head? with
              | none => none
              | some root =>
                  if rest == [] then some root
                  else if isContained env rest then some (join env.windows root rest)
                  else none)

/-- The top layer's host path, whether or not anything is there. -/
def resolveTop (guestPath : Text) : Option PathBuf :=
  ((entries env).findSome? (resolveTopAt env (unbackslash guestPath))).getD none

/-- One turn of the loop of `lower_layer_holds`. -/
def lowerLayerHoldsAt (path : Text) (top : PathBuf) : Text × List PathBuf → Option Bool
  | (start, roots) =>
      match stripPrefix start path with
      | none => none
      | some rest =>
          if rest != [] && !startsWithSlash rest then none
          else
            let rest := withoutCurrentDir rest
            some (rest != [] && isContained env rest && (roots.drop 1).any (fun root =>
              join env.windows root rest != top && existsCaseSensitive env root rest))

def lowerLayerHolds (guestPath : Text) : Bool :=
  match resolveTop env guestPath with
  | none => false
  | some top =>
      ((entries env).findSome? (lowerLayerHoldsAt env (unbackslash guestPath) top)).getD false

/-- Names that exist at a path only because a mount lies below it. -/
def mountsUnder (guestPath : Text) : List Text :=
  let path := unbackslash guestPath
  if !startsWithSlash path then []
  else
    let here := (path.reverse.dropWhile (· == '/')).reverse
    ((env.mounts.toList.filterMap (fun (start, _) =>
      match stripPrefix here start with
      | none => none
      | some rest =>
          match stripPrefix ['/'] rest with
          | none => none
          | some rest =>
              let next := ((rest.splitOn '/').head?).getD []
              if next != [] then some next else none)).foldl
      (fun (names : TreeMap Text Unit) next => names.insert next ()) ∅).keys

/-- A path that ends in `/` or `/.` asks for a directory. -/
def asksDirectory (path : Text) : Bool := ['/'].isSuffixOf path || ['/', '.'].isSuffixOf path

/-- The loop that takes `/.` and `/` off the end, on the path read from its back. -/
def trimBack : Text → Text
  | '.' :: '/' :: rest => trimBack rest
  | '/' :: rest => trimBack rest
  | rest => rest

def trimmed (path : Text) : Text := (trimBack path.reverse).reverse

/-- Whether a path asks for a directory where a file is. The path it looks up asks for
none, so the lookup is the walk itself. -/
def namesFileAsDirectory (guestPath : Text) : Bool :=
  let path := unbackslash guestPath
  if !asksDirectory path then false
  else
    let base := trimmed path
    if base == [] || mountsUnder env base != [] then false
    else (walkInner env (unbackslash base) false).any env.isFile

def resolveInner (guestPath : Text) (writableFallback : Bool) : Option PathBuf :=
  if namesFileAsDirectory env guestPath then none
  else walkInner env (unbackslash guestPath) writableFallback

/-- The existing layer if it has one, else the layer a new file would go to. -/
def resolve (guestPath : Text) : Option PathBuf := resolveInner env guestPath true

def resolveExisting (guestPath : Text) : Option PathBuf := resolveInner env guestPath false

/-- The top layer's path for a writable path, and the lower layer's copy when the name
exists only there. -/
def locateForWrite (guestPath : Text) : Option (PathBuf × Option PathBuf) :=
  if !isWritable env guestPath then none
  else
    match resolveTop env guestPath with
    | none => none
    | some top => some (top, (resolveExisting env guestPath).filter (· != top))

/-- Where a write goes: the top layer, a lower layer's copy made there first. -/
def resolveForWrite (guestPath : Text) : Option PathBuf :=
  match locateForWrite env guestPath with
  | none => none
  | some (top, none) => some top
  | some (top, some lower) =>
      if ((parent top).map env.createDirAll).getD true &&
          (if env.isDir lower then env.createDirAll top else env.copy lower top) then some top
      else none

def resolveForCreate (guestPath : Text) : Option PathBuf :=
  (locateForWrite env guestPath).map Prod.fst

def resolveForRemoval (guestPath : Text) : Option PathBuf :=
  match locateForWrite env guestPath with
  | none => none
  | some (top, _) => if lowerLayerHolds env guestPath then none else some top

/-- One turn of the loop of `existing_directories`. -/
def existingDirectoriesAt (path : Text) : Text × List PathBuf → Option (List PathBuf)
  | (start, roots) =>
      match stripPrefix start path with
      | none => none
      | some rest =>
          if rest != [] && !startsWithSlash rest then none
          else
            let rest := withoutCurrentDir (rest.dropWhile (· == '/'))
            if rest != [] && !isContained env rest then some []
            else
              some (((roots.filter (fun root => rest == [] || existsCaseSensitive env root rest)).map
                (join env.windows · rest)).filter env.isDir)

def existingDirectories (guestPath : Text) : List PathBuf :=
  if namesFileAsDirectory env guestPath then []
  else ((entries env).findSome? (existingDirectoriesAt env (unbackslash guestPath))).getD []

end Orbistoun.Fs.Mount

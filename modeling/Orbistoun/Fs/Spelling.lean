import Mathlib.Logic.Relation
import Orbistoun.Fs.Contained

/-! # Two spellings of a guest path

A `.` component put into a path, or a slash doubled there, is dropped from what
follows a mount's prefix, and only from that: the prefix itself is compared as text.
So a path may be spelled anew anywhere past every prefix that matches it, and names
the same place. The one other thing a spelling decides is whether the path asks for a
directory, which a path that ends in `/` or `/.` does.
-/

namespace Orbistoun.Fs.Mount

open Relation (EqvGen)
open Std (TreeMap)

/-- One `.` component put in, or one slash doubled. -/
inductive Inserts : Text → Text → Prop
  | slash (a b : Text) : Inserts (a ++ '/' :: b) (a ++ '/' :: '/' :: b)
  | dot (a b : Text) : Inserts (a ++ '/' :: b) (a ++ '/' :: '.' :: '/' :: b)
  | last (a : Text) : Inserts a (a ++ ['/', '.'])
  | lastSlash (a : Text) : Inserts (a ++ ['/']) (a ++ ['/', '.'])

/-- The two paths are spelled alike up to a place past every prefix of `starts` that
matches either, and differ after it by `.` components and doubled slashes only. -/
def RespelledPast (starts : List Text) (path path' : Text) : Prop :=
  ∃ head tail tail', path = head ++ tail ∧ path' = head ++ tail' ∧ EqvGen Inserts tail tail' ∧
    ∀ start ∈ starts, Matches start path ∨ Matches start path' → start <+: head

/-! ## What is left of a spelling -/

theorem namesOf_append_slash (a b : Text) : namesOf (a ++ '/' :: b) = namesOf a ++ namesOf b := by
  simp only [namesOf, List.splitOn_append_cons_self, List.filter_append]

theorem namesOf_nil : namesOf [] = [] := by decide

theorem namesOf_dot : namesOf ['.'] = [] := by decide

/-- The names of a path do not tell its spellings apart. -/
theorem Inserts.namesOf_eq {tail tail' : Text} (h : Inserts tail tail') (front : Text) :
    namesOf (front ++ tail) = namesOf (front ++ tail') := by
  cases h with
  | slash a b =>
      rw [← List.append_assoc, ← List.append_assoc, namesOf_append_slash, namesOf_append_slash,
        namesOf_slash]
  | dot a b =>
      have hdot : namesOf ('.' :: '/' :: b) = namesOf ['.'] ++ namesOf b :=
        namesOf_append_slash ['.'] b
      rw [← List.append_assoc, ← List.append_assoc, namesOf_append_slash, namesOf_append_slash,
        hdot, namesOf_dot, List.nil_append]
  | last =>
      rw [← List.append_assoc, namesOf_append_slash, namesOf_dot, List.append_nil]
  | lastSlash a =>
      rw [← List.append_assoc, ← List.append_assoc, namesOf_append_slash, namesOf_append_slash,
        namesOf_nil, namesOf_dot]

theorem namesOf_respelled {tail tail' : Text} (h : EqvGen Inserts tail tail') (front : Text) :
    namesOf (front ++ tail) = namesOf (front ++ tail') := by
  induction h with
  | rel _ _ h => exact h.namesOf_eq front
  | refl _ => rfl
  | symm _ _ _ ih => exact ih.symm
  | trans _ _ _ _ _ ih ih' => exact ih.trans ih'

theorem withoutCurrentDir_respelled {tail tail' : Text} (h : EqvGen Inserts tail tail')
    (front : Text) : withoutCurrentDir (front ++ tail) = withoutCurrentDir (front ++ tail') := by
  unfold withoutCurrentDir
  rw [namesOf_respelled h front]

/-- What a prefix may be followed by, where it matches whole components. -/
def Rooted (after : Text) : Prop := after = [] ∨ startsWithSlash after = true

theorem startsWithSlash_append_cons (a b : Text) :
    startsWithSlash (a ++ '/' :: b) = (a.isEmpty || startsWithSlash a) := by
  cases a <;> rfl

theorem rooted_append_cons (a b : Text) : Rooted (a ++ '/' :: b) ↔ Rooted a := by
  unfold Rooted
  rw [startsWithSlash_append_cons]
  cases a <;> simp

theorem Inserts.rooted_iff {tail tail' : Text} (h : Inserts tail tail') (front : Text) :
    Rooted (front ++ tail) ↔ Rooted (front ++ tail') := by
  cases h with
  | slash a b =>
      rw [← List.append_assoc, ← List.append_assoc, rooted_append_cons, rooted_append_cons]
  | dot a b =>
      rw [← List.append_assoc, ← List.append_assoc, rooted_append_cons, rooted_append_cons]
  | last => rw [← List.append_assoc, rooted_append_cons]
  | lastSlash a =>
      rw [← List.append_assoc, ← List.append_assoc, rooted_append_cons, rooted_append_cons]

theorem rooted_respelled {tail tail' : Text} (h : EqvGen Inserts tail tail') (front : Text) :
    Rooted (front ++ tail) ↔ Rooted (front ++ tail') := by
  induction h with
  | rel _ _ h => exact h.rooted_iff front
  | refl _ => exact Iff.rfl
  | symm _ _ _ ih => exact ih.symm
  | trans _ _ _ _ _ ih ih' => exact ih.trans ih'

/-! ## One turn of each walk, by the names that follow the prefix -/

variable {env : Env}

/-- What `resolve_inner` answers of a mount that matches. -/
def innerAnswer (env : Env) (fallback : Bool) (roots : List PathBuf) (rest : Text) :
    Option PathBuf :=
  if rest == [] then roots.head?
  else if !isContained env rest then none
  else
    match roots.find? (fun root => existsCaseSensitive env root rest) with
    | some root => some (join env.windows root rest)
    | none => if fallback then roots.head?.map (join env.windows · rest) else none

/-- What `existing_directories` answers of a mount that matches. -/
def directoriesAnswer (env : Env) (roots : List PathBuf) (rest : Text) : List PathBuf :=
  if rest != [] && !isContained env rest then []
  else
    ((roots.filter (fun root => rest == [] || existsCaseSensitive env root rest)).map
      (join env.windows · rest)).filter env.isDir

theorem withoutCurrentDir_dropWhile (after : Text) :
    withoutCurrentDir (after.dropWhile (· == '/')) = withoutCurrentDir after := by
  unfold withoutCurrentDir
  rw [namesOf_dropWhile]

theorem resolveInnerAt_append {after : Text} (h : Rooted after) (start : Text) (fallback : Bool)
    (roots : List PathBuf) :
    resolveInnerAt env (start ++ after) fallback (start, roots) =
      some (innerAnswer env fallback roots (withoutCurrentDir after)) := by
  simp only [resolveInnerAt, stripPrefix_append]
  cases hdrop : after.dropWhile (· == '/') == [] with
  | true =>
      have hrest : withoutCurrentDir after = [] := by
        rw [← withoutCurrentDir_dropWhile, eq_of_beq hdrop]
        rfl
      simp [innerAnswer, hrest]
  | false =>
      have hslash : startsWithSlash after = true := by
        rcases h with rfl | h
        · cases hdrop
        · exact h
      simp only [hslash, withoutCurrentDir_dropWhile, innerAnswer, Bool.not_true, if_false,
        Bool.false_eq_true]
      split
      · rfl
      · split <;> rfl

theorem existingDirectoriesAt_append {after : Text} (h : Rooted after) (start : Text)
    (roots : List PathBuf) :
    existingDirectoriesAt env (start ++ after) (start, roots) =
      some (directoriesAnswer env roots (withoutCurrentDir after)) := by
  have hgo : (after != [] && !startsWithSlash after) = false := by
    rcases h with rfl | h
    · rfl
    · simp [h]
  simp only [existingDirectoriesAt, stripPrefix_append, hgo, withoutCurrentDir_dropWhile,
    directoriesAnswer, if_false, Bool.false_eq_true]
  split <;> rfl

/-! ## The walks -/

theorem findSome?_congr {α β : Type} {f g : α → Option β} {l : List α} (h : ∀ x ∈ l, f x = g x) :
    l.findSome? f = l.findSome? g := by
  induction l with
  | nil => rfl
  | cons x rest ih =>
      rw [List.findSome?_cons, List.findSome?_cons, h x List.mem_cons_self,
        ih (fun y hy => h y (List.mem_cons_of_mem _ hy))]

theorem mem_keys_of_mem_entries {e : Text × List PathBuf} (h : e ∈ entries env) :
    e.1 ∈ env.mounts.keys := by
  rw [entries, List.mem_reverse] at h
  rw [← Std.TreeMap.map_fst_toList_eq_keys]
  exact List.mem_map_of_mem h

/-- A walk that goes on exactly where no prefix matches, and answers by the names
that follow one that does, finds the same for both spellings. -/
theorem walk_respelled {β : Type} {turn : Text → Text × List PathBuf → Option β}
    {answer : List PathBuf → Text → β} {path path' : Text}
    (hnone : ∀ path e, turn path e = none ↔ ¬ Matches e.1 path)
    (hsome : ∀ start after roots, Rooted after →
      turn (start ++ after) (start, roots) = some (answer roots (withoutCurrentDir after)))
    (h : RespelledPast env.mounts.keys path path') :
    (entries env).findSome? (turn path) = (entries env).findSome? (turn path') := by
  obtain ⟨head, tail, tail', rfl, rfl, htail, hstarts⟩ := h
  apply findSome?_congr
  intro ⟨start, roots⟩ he
  by_cases hpre : start <+: head
  · obtain ⟨front, rfl⟩ := hpre
    rw [List.append_assoc, List.append_assoc]
    have hiff := rooted_respelled htail front
    by_cases hroot : Rooted (front ++ tail)
    · rw [hsome start _ roots hroot, hsome start _ roots (hiff.mp hroot),
        withoutCurrentDir_respelled htail front]
    · have hroot' : ¬ Rooted (front ++ tail') := fun hr => hroot (hiff.mpr hr)
      rw [(hnone (start ++ (front ++ tail)) (start, roots)).mpr
          (fun hm => hroot (matches_append.mp hm)),
        (hnone (start ++ (front ++ tail')) (start, roots)).mpr
          (fun hm => hroot' (matches_append.mp hm))]
  · -- A prefix that reaches past the head matches neither spelling.
    have hkey := mem_keys_of_mem_entries he
    have hnot : ¬ Matches start (head ++ tail) := fun hm => hpre (hstarts start hkey (.inl hm))
    have hnot' : ¬ Matches start (head ++ tail') := fun hm => hpre (hstarts start hkey (.inr hm))
    rw [(hnone _ _).mpr hnot, (hnone _ _).mpr hnot']

theorem walkInner_respelled {path path' : Text} (h : RespelledPast env.mounts.keys path path')
    (fallback : Bool) : walkInner env path fallback = walkInner env path' fallback := by
  unfold walkInner
  have hwalk : (entries env).findSome? (resolveInnerAt env path fallback) =
      (entries env).findSome? (resolveInnerAt env path' fallback) :=
    walk_respelled (fun p e => resolveInnerAt_none p fallback e)
      (fun start after roots hroot => resolveInnerAt_append hroot start fallback roots) h
  rw [hwalk]

theorem isWritable_iff (env : Env) (guestPath : Text) :
    isWritable env guestPath = true ↔
      ∃ start ∈ env.writable, Matches start (unbackslash guestPath) := by
  simp only [isWritable, List.any_eq_true]
  refine exists_congr (fun start => and_congr_right (fun _ => ?_))
  rw [Bool.or_eq_true, Bool.and_eq_true, beq_iff_eq, List.isPrefixOf_iff_prefix]
  constructor
  · intro h
    rcases h with h | ⟨⟨after, hafter⟩, hslash⟩
    · exact .inl h
    · rw [← hafter, List.drop_left] at hslash
      rw [← hafter]
      exact matches_append.mpr (.inr hslash)
  · intro h
    obtain ⟨after, hafter⟩ := h.is_prefix
    rw [← hafter] at h ⊢
    rcases matches_append.mp h with rfl | hslash
    · exact .inl (List.append_nil start)
    · rw [List.drop_left]
      exact .inr ⟨List.prefix_append _ _, hslash⟩

theorem isWritable_respelled {guestPath guestPath' : Text}
    (h : RespelledPast env.writable (unbackslash guestPath) (unbackslash guestPath')) :
    isWritable env guestPath = isWritable env guestPath' := by
  rw [Bool.eq_iff_iff, isWritable_iff, isWritable_iff]
  obtain ⟨head, tail, tail', hpath, hpath', htail, hstarts⟩ := h
  have hsame : ∀ start, start <+: head →
      (Matches start (head ++ tail) ↔ Matches start (head ++ tail')) := by
    intro start ⟨front, hfront⟩
    rw [← hfront, List.append_assoc, List.append_assoc, matches_append, matches_append]
    exact rooted_respelled htail front
  rw [hpath, hpath'] at hstarts ⊢
  constructor
  · intro ⟨start, hmem, hm⟩
    exact ⟨start, hmem, (hsame start (hstarts start hmem (.inl hm))).mp hm⟩
  · intro ⟨start, hmem, hm⟩
    exact ⟨start, hmem, (hsame start (hstarts start hmem (.inr hm))).mpr hm⟩

/-! ## Paths that ask for a directory -/

/-- Read from its back, a slash is trimmed with all after it or stays with some of it. -/
theorem trimBack_append_slash (x : Text) :
    (∀ y, trimBack (x ++ '/' :: y) = trimBack y) ∨
      ∃ z, ∀ y, trimBack (x ++ '/' :: y) = z ++ '/' :: y := by
  induction x using trimBack.induct with
  | case1 rest ih => simpa only [List.cons_append, trimBack] using ih
  | case2 rest ih => simpa only [List.cons_append, trimBack] using ih
  | case3 rest hdot hslash =>
      cases rest with
      | nil => exact .inl (fun y => by simp [trimBack])
      | cons c rest =>
          by_cases hc : c = '/'
          · exact absurd (by rw [hc]) (hslash rest)
          by_cases hlast : c = '.' ∧ rest = []
          · obtain ⟨rfl, rfl⟩ := hlast
            exact .inl (fun y => by simp [trimBack])
          right
          refine ⟨c :: rest, fun y => ?_⟩
          rw [trimBack]
          · intro rest' heq
            rw [List.cons_append, List.cons.injEq] at heq
            obtain ⟨rfl, heq⟩ := heq
            cases rest with
            | nil => exact hlast ⟨rfl, rfl⟩
            | cons d rest =>
                rw [List.cons_append, List.cons.injEq] at heq
                obtain ⟨rfl, -⟩ := heq
                exact hdot rest rfl
          · intro rest' heq
            rw [List.cons_append, List.cons.injEq] at heq
            exact hc heq.1

/-- What a path is trimmed from is a whole number of components. -/
theorem trimBack_suffix (text : Text) :
    ∃ front, text = front ++ trimBack text ∧ (front = [] ∨ front.getLast? = some '/') := by
  induction text using trimBack.induct with
  | case1 rest ih =>
      obtain ⟨front, hfront, hlast⟩ := ih
      refine ⟨'.' :: '/' :: front,
        by simpa only [List.cons_append, trimBack, List.cons.injEq, true_and] using hfront, .inr ?_⟩
      rcases hlast with rfl | hlast
      · rfl
      · simp [List.getLast?_cons, hlast]
  | case2 rest ih =>
      obtain ⟨front, hfront, hlast⟩ := ih
      refine ⟨'/' :: front,
        by simpa only [List.cons_append, trimBack, List.cons.injEq, true_and] using hfront, .inr ?_⟩
      rcases hlast with rfl | hlast
      · rfl
      · simp [List.getLast?_cons, hlast]
  | case3 rest hdot hslash =>
      refine ⟨[], ?_, .inl rfl⟩
      rw [trimBack]
      · rfl
      · exact hdot
      · exact hslash

theorem trimmed_prefix (path : Text) :
    ∃ after, path = trimmed path ++ after ∧ Rooted after := by
  obtain ⟨front, hfront, hlast⟩ := trimBack_suffix path.reverse
  refine ⟨front.reverse, ?_, ?_⟩
  · have h := congrArg List.reverse hfront
    rwa [List.reverse_reverse, List.reverse_append] at h
  · rcases hlast with rfl | hlast
    · exact .inl rfl
    · right
      unfold startsWithSlash
      rw [List.head?_reverse, hlast]
      rfl

theorem Matches.of_trimmed {start path : Text} (h : Matches start (trimmed path)) :
    Matches start path := by
  obtain ⟨after, hafter, hroot⟩ := trimmed_prefix path
  rcases h with h | h
  · rw [h] at hafter
    rw [hafter]
    exact matches_append.mpr hroot
  · exact .inr (h.trans ⟨after, hafter.symm⟩)

/-- Trimmed, two spellings are one text or still two spellings past the same place. -/
def TrimAlike (head tail tail' : Text) : Prop :=
  trimmed (head ++ tail) = trimmed (head ++ tail') ∨
    ∃ kept kept', trimmed (head ++ tail) = head ++ kept ∧ trimmed (head ++ tail') = head ++ kept' ∧
      kept ≠ [] ∧ kept' ≠ [] ∧ EqvGen Inserts kept kept'

theorem Inserts.trimAlike {tail tail' : Text} (h : Inserts tail tail') (head : Text) :
    TrimAlike head tail tail' := by
  cases h with
  | slash a b =>
      rcases trimBack_append_slash b.reverse with hgone | ⟨z, hz⟩
      · left
        simp [trimmed, hgone, trimBack]
      · right
        refine ⟨a ++ '/' :: z.reverse, a ++ '/' :: '/' :: z.reverse, ?_, ?_, by simp, by simp,
          .rel _ _ (.slash a _)⟩
        · simp [trimmed, hz]
        · simp [trimmed, hz]
  | dot a b =>
      rcases trimBack_append_slash b.reverse with hgone | ⟨z, hz⟩
      · left
        simp [trimmed, hgone, trimBack]
      · right
        refine ⟨a ++ '/' :: z.reverse, a ++ '/' :: '.' :: '/' :: z.reverse, ?_, ?_, by simp,
          by simp, .rel _ _ (.dot a _)⟩
        · simp [trimmed, hz]
        · simp [trimmed, hz]
  | last =>
      left
      simp [trimmed, trimBack]
  | lastSlash a =>
      left
      simp [trimmed, trimBack]

theorem TrimAlike.symm {head tail tail' : Text} (h : TrimAlike head tail tail') :
    TrimAlike head tail' tail := by
  rcases h with h | ⟨kept, kept', hk, hk', hne, hne', heqv⟩
  · exact .inl h.symm
  · exact .inr ⟨kept', kept, hk', hk, hne', hne, heqv.symm⟩

theorem TrimAlike.trans {head tail tail' tail'' : Text} (h : TrimAlike head tail tail')
    (h' : TrimAlike head tail' tail'') : TrimAlike head tail tail'' := by
  rcases h with h | ⟨kept, kept', hk, hk', hne, hne', heqv⟩
  · rcases h' with h' | ⟨kept', kept'', hk', hk'', hne', hne'', heqv'⟩
    · exact .inl (h.trans h')
    · exact .inr ⟨kept', kept'', h.trans hk', hk'', hne', hne'', heqv'⟩
  · rcases h' with h' | ⟨mid, kept'', hmid, hk'', hmidne, hne'', heqv'⟩
    · exact .inr ⟨kept, kept', hk, h'.symm.trans hk', hne, hne', heqv⟩
    · have hsame : kept' = mid := List.append_cancel_left (hk'.symm.trans hmid)
      subst hsame
      exact .inr ⟨kept, kept'', hk, hk'', hne, hne'', heqv.trans _ _ _ heqv'⟩

theorem trimAlike_respelled {tail tail' : Text} (h : EqvGen Inserts tail tail') (head : Text) :
    TrimAlike head tail tail' := by
  induction h with
  | rel _ _ h => exact h.trimAlike head
  | refl _ => exact .inl rfl
  | symm _ _ _ ih => exact ih.symm
  | trans _ _ _ _ _ ih ih' => exact ih.trans ih'

theorem trimmed_respelled {starts : List Text} {path path' : Text}
    (h : RespelledPast starts path path') :
    trimmed path = trimmed path' ∨
      (trimmed path ≠ [] ∧ trimmed path' ≠ [] ∧
        RespelledPast starts (trimmed path) (trimmed path')) := by
  obtain ⟨head, tail, tail', rfl, rfl, htail, hstarts⟩ := h
  rcases trimAlike_respelled htail head with heq | ⟨kept, kept', hk, hk', hne, hne', heqv⟩
  · exact .inl heq
  · right
    refine ⟨by simp [hk, hne], by simp [hk', hne'], head, kept, kept', hk, hk', heqv, ?_⟩
    intro start hmem hm
    exact hstarts start hmem (hm.imp Matches.of_trimmed Matches.of_trimmed)

theorem not_mem_trimmed {path : Text} (h : '\\' ∉ path) : '\\' ∉ trimmed path := by
  obtain ⟨after, hafter, -⟩ := trimmed_prefix path
  intro hmem
  rw [hafter] at h
  exact h (List.mem_append_left _ hmem)

/-- Two spellings that both ask for a directory, or neither, are refused alike where
the same mounts lie below both. -/
theorem namesFileAsDirectory_respelled {guestPath guestPath' : Text}
    (h : RespelledPast env.mounts.keys (unbackslash guestPath) (unbackslash guestPath'))
    (hasks : asksDirectory (unbackslash guestPath) = asksDirectory (unbackslash guestPath'))
    (hbelow : mountsUnder env (trimmed (unbackslash guestPath)) =
      mountsUnder env (trimmed (unbackslash guestPath'))) :
    namesFileAsDirectory env guestPath = namesFileAsDirectory env guestPath' := by
  have hplain := unbackslash_of_not_mem (not_mem_trimmed (not_mem_unbackslash guestPath))
  have hplain' := unbackslash_of_not_mem (not_mem_trimmed (not_mem_unbackslash guestPath'))
  simp only [namesFileAsDirectory, hasks, hbelow, hplain, hplain']
  rcases trimmed_respelled h with heq | ⟨hne, hne', hpast⟩
  · rw [heq]
  · have hnil : (trimmed (unbackslash guestPath) == []) = false := by simp [hne]
    have hnil' : (trimmed (unbackslash guestPath') == []) = false := by simp [hne']
    rw [hnil, hnil', walkInner_respelled hpast]

/-! ## The spelling of a guest path -/

/-- Spelled anew past every mount's prefix that matches, a path resolves to the same
host path and lists the same directories, unless just one of the spellings asks for a
directory where there is a file; and it is writable as it was, past every writable
prefix. -/
theorem respelled_names_the_same (env : Env) (guestPath guestPath' : Text) :
    (RespelledPast env.mounts.keys (unbackslash guestPath) (unbackslash guestPath') →
      (namesFileAsDirectory env guestPath = namesFileAsDirectory env guestPath' →
        resolve env guestPath = resolve env guestPath' ∧
          resolveExisting env guestPath = resolveExisting env guestPath' ∧
          existingDirectories env guestPath = existingDirectories env guestPath') ∧
      (asksDirectory (unbackslash guestPath) = asksDirectory (unbackslash guestPath') →
        mountsUnder env (trimmed (unbackslash guestPath)) =
          mountsUnder env (trimmed (unbackslash guestPath')) →
        namesFileAsDirectory env guestPath = namesFileAsDirectory env guestPath')) ∧
    (RespelledPast env.writable (unbackslash guestPath) (unbackslash guestPath') →
      isWritable env guestPath = isWritable env guestPath') := by
  refine ⟨fun h => ⟨fun hfile => ?_, namesFileAsDirectory_respelled h⟩, isWritable_respelled⟩
  have hdirs : (entries env).findSome? (existingDirectoriesAt env (unbackslash guestPath)) =
      (entries env).findSome? (existingDirectoriesAt env (unbackslash guestPath')) :=
    walk_respelled existingDirectoriesAt_none
      (fun start after roots hroot => existingDirectoriesAt_append hroot start roots) h
  refine ⟨?_, ?_, ?_⟩
  · rw [resolve, resolve, resolveInner, resolveInner, hfile, walkInner_respelled h]
  · rw [resolveExisting, resolveExisting, resolveInner, resolveInner, hfile, walkInner_respelled h]
  · rw [existingDirectories, existingDirectories, hfile, hdirs]

def oneMount (start : Text) : Env where
  mounts := (∅ : TreeMap Text (List PathBuf)).insert start [[.rootDir, .normal ['t']]]
  writable := [start]
  hidden := []
  windows := false
  onDisk := fun _ rest => rest == ['f']
  isDir := fun _ => false
  isFile := fun _ => true
  createDirAll := fun _ => true
  copy := fun _ _ => true

/-- `/d/f` and `/d/.//f`, where `/d` is mounted. -/
theorem respelled_names_the_same_one_mount :
    resolve (oneMount ['/', 'd']) ['/', 'd', '/', 'f'] =
        resolve (oneMount ['/', 'd']) ['/', 'd', '/', '.', '/', '/', 'f'] ∧
      isWritable (oneMount ['/', 'd']) ['/', 'd', '/', 'f'] =
        isWritable (oneMount ['/', 'd']) ['/', 'd', '/', '.', '/', '/', 'f'] := by
  have htail : EqvGen Inserts ['/', 'f'] ['/', '.', '/', '/', 'f'] :=
    .trans _ _ _ (.rel _ _ (.slash [] ['f'])) (.rel _ _ (.dot [] ['/', 'f']))
  have hkeys : (oneMount ['/', 'd']).mounts.keys = [['/', 'd']] := by decide +kernel
  have hpast : RespelledPast [['/', 'd']] ['/', 'd', '/', 'f']
      ['/', 'd', '/', '.', '/', '/', 'f'] :=
    ⟨['/', 'd'], _, _, rfl, rfl, htail, by simp⟩
  have h := respelled_names_the_same (oneMount ['/', 'd']) ['/', 'd', '/', 'f']
    ['/', 'd', '/', '.', '/', '/', 'f']
  rw [hkeys] at h
  exact ⟨((h.1 hpast).1 (by decide +kernel)).1, h.2 hpast⟩

/-- A prefix is compared as text: under a mount at `/h//a`, `/h/a/f` names nothing and
`/h//a/f` a file. Past the prefix, a path asks for a directory by how it ends: under a
mount at `/d`, `/d/f` names a file and `/d/f/.` nothing. -/
theorem spelling_tells_apart :
    (¬ ∀ (env : Env) (guestPath guestPath' : Text), Inserts guestPath guestPath' →
      resolve env guestPath = resolve env guestPath' ∧
        resolveExisting env guestPath = resolveExisting env guestPath' ∧
        existingDirectories env guestPath = existingDirectories env guestPath' ∧
        isWritable env guestPath = isWritable env guestPath') ∧
    ¬ ∀ (env : Env) (guestPath guestPath' : Text),
      RespelledPast env.mounts.keys (unbackslash guestPath) (unbackslash guestPath') →
      resolve env guestPath = resolve env guestPath' := by
  constructor
  · intro h
    have hsame := (h (oneMount ['/', 'h', '/', '/', 'a']) _ _
      (.slash ['/', 'h'] ['a', '/', 'f'])).1
    revert hsame
    decide +kernel
  · intro h
    have hkeys : (oneMount ['/', 'd']).mounts.keys = [['/', 'd']] := by decide +kernel
    have hsame := h (oneMount ['/', 'd']) ['/', 'd', '/', 'f'] ['/', 'd', '/', 'f', '/', '.']
      ⟨['/', 'd'], ['/', 'f'], _, rfl, rfl, .rel _ _ (.last ['/', 'f']), by simp [hkeys]⟩
    revert hsame
    decide +kernel

end Orbistoun.Fs.Mount

import Orbistoun.Fs.Mount

/-! # Guest paths stay inside their mount

The mount a path is resolved through is the one with the longest prefix that ends where a
component does, in each of the loops that look for it; what a loop answers is a layer of
that mount, or the names of the path under it joined to one.
-/

namespace Orbistoun.Fs.Mount

open Std (TreeMap)

/-! ## Names of a relative path -/

theorem mem_splitOn {a : Char} {text name : Text} (h : name ∈ text.splitOn a) :
    a ∉ name ∧ ∀ c ∈ name, c ∈ text := by
  induction text generalizing name with
  | nil =>
      rw [List.splitOn_nil, List.mem_singleton] at h
      subst h
      exact ⟨List.not_mem_nil, fun c hc => absurd hc List.not_mem_nil⟩
  | cons x text ih =>
      rw [List.splitOn_cons_eq_if_modifyHead] at h
      split at h
      · rcases List.mem_cons.mp h with rfl | h
        · exact ⟨List.not_mem_nil, fun c hc => absurd hc List.not_mem_nil⟩
        · exact ⟨(ih h).1, fun c hc => List.mem_cons_of_mem _ ((ih h).2 c hc)⟩
      · next hx =>
        have hne := List.splitOn_ne_nil a text
        cases hsplit : text.splitOn a with
        | nil => exact absurd hsplit hne
        | cons first rest =>
            rw [hsplit, List.modifyHead_cons] at h
            rcases List.mem_cons.mp h with rfl | h
            · have hfirst := ih (hsplit ▸ List.mem_cons_self : first ∈ text.splitOn a)
              refine ⟨fun ha => ?_, fun c hc => ?_⟩
              · rcases List.mem_cons.mp ha with rfl | ha
                · simp at hx
                · exact hfirst.1 ha
              · rcases List.mem_cons.mp hc with rfl | hc
                · exact List.mem_cons_self
                · exact List.mem_cons_of_mem _ (hfirst.2 c hc)
            · have hrest := ih (hsplit ▸ List.mem_cons_of_mem _ h : name ∈ text.splitOn a)
              exact ⟨hrest.1, fun c hc => List.mem_cons_of_mem _ (hrest.2 c hc)⟩

theorem not_mem_unbackslash (path : Text) : '\\' ∉ unbackslash path := by
  unfold unbackslash
  rw [List.mem_map]
  rintro ⟨c, -, hc⟩
  split at hc
  · cases hc
  · next hne => exact hne hc

theorem unbackslash_of_not_mem {text : Text} (h : '\\' ∉ text) : unbackslash text = text := by
  unfold unbackslash
  conv_rhs => rw [← List.map_id text]
  refine List.map_congr_left (fun c hc => if_neg ?_)
  rintro rfl
  exact h hc

/-- A name that is no `.` and holds no separator. -/
structure Plain (name : Text) : Prop where
  nonempty : name ≠ []
  notDot : name ≠ ['.']
  noSlash : '/' ∉ name
  noBackslash : '\\' ∉ name

/-- An ordinary name: plain, and no `..`. -/
structure Ordinary (name : Text) : Prop extends Plain name where
  notParent : name ≠ ['.', '.']

theorem plain_of_mem_namesOf {rest name : Text} (h : '\\' ∉ rest) (hn : name ∈ namesOf rest) :
    Plain name := by
  obtain ⟨hmem, hp⟩ := List.mem_filter.mp hn
  simp only [Bool.and_eq_true, bne_iff_ne, ne_eq] at hp
  obtain ⟨hslash, hsub⟩ := mem_splitOn hmem
  exact ⟨hp.1, hp.2, hslash, fun hb => h (hsub _ hb)⟩

theorem mem_intercalate {names : List Text} {c : Char} (h : c ∈ ['/'].intercalate names) :
    c = '/' ∨ ∃ name ∈ names, c ∈ name := by
  induction names with
  | nil => simp at h
  | cons first rest ih =>
      cases rest with
      | nil => exact .inr ⟨first, List.mem_cons_self, by simpa using h⟩
      | cons second rest =>
          rw [List.intercalate_cons_cons, List.mem_append, List.mem_append,
            List.mem_singleton] at h
          rcases h with (h | h) | h
          · exact .inr ⟨first, List.mem_cons_self, h⟩
          · exact .inl h
          · rcases ih h with h | ⟨name, hmem, hc⟩
            · exact .inl h
            · exact .inr ⟨name, List.mem_cons_of_mem _ hmem, hc⟩

/-- Joined plain names start with a character that is no separator. -/
theorem head_intercalate {names : List Text} (hne : names ≠ []) (hplain : ∀ n ∈ names, Plain n) :
    ∃ c rest, ['/'].intercalate names = c :: rest ∧ c ≠ '/' := by
  cases names with
  | nil => exact absurd rfl hne
  | cons first names =>
      have hfirst := hplain first List.mem_cons_self
      cases first with
      | nil => exact absurd rfl hfirst.nonempty
      | cons c first =>
          have hc : c ≠ '/' := by
            rintro rfl
            exact hfirst.noSlash List.mem_cons_self
          cases names with
          | nil => exact ⟨c, first, by simp, hc⟩
          | cons second names =>
              exact ⟨c, _, by rw [List.intercalate_cons_cons, List.cons_append, List.cons_append],
                hc⟩

theorem bodyComponents_plain {names : List Text} (hplain : ∀ n ∈ names, Plain n) :
    bodyComponents false names = names.map classify := by
  cases names with
  | nil => rfl
  | cons first rest =>
      have hrest : rest.filter (· != ['.']) = rest := by
        refine List.filter_eq_self.mpr (fun n hn => ?_)
        simpa using (hplain n (List.mem_cons_of_mem _ hn)).notDot
      rw [bodyComponents, if_neg (hplain first List.mem_cons_self).notDot, hrest]
      rfl

theorem components_intercalate {windows : Bool} {names : List Text} (hne : names ≠ [])
    (hplain : ∀ n ∈ names, Plain n)
    (hdrive : windows = true → splitDrive (['/'].intercalate names) = none) :
    components windows (['/'].intercalate names) = names.map classify := by
  obtain ⟨c, rest, htext, hc⟩ := head_intercalate hne hplain
  have hback : unbackslash (['/'].intercalate names) = ['/'].intercalate names := by
    refine unbackslash_of_not_mem (fun hb => ?_)
    rcases mem_intercalate hb with hb | ⟨name, hmem, hb⟩
    · cases hb
    · exact (hplain name hmem).noBackslash hb
  have hsame : (if windows = true then unbackslash (['/'].intercalate names)
      else ['/'].intercalate names) = ['/'].intercalate names := by
    split
    · exact hback
    · rfl
  have hnone : (if windows = true then splitDrive (['/'].intercalate names) else none) = none := by
    split
    · next hw => exact hdrive hw
    · rfl
  have hsplit : (['/'].intercalate names).splitOn '/' = names :=
    List.splitOn_intercalate '/' (fun n hn => (hplain n hn).noSlash) hne
  have hfilter : names.filter (· != []) = names := by
    refine List.filter_eq_self.mpr (fun n hn => ?_)
    simpa using (hplain n hn).nonempty
  have hrooted : ((['/'].intercalate names).head? == some '/') = false := by
    rw [htext]
    simpa using hc
  unfold components
  simp only [hsame, hnone, hrooted, hsplit, hfilter, List.nil_append, Bool.false_eq_true, if_false]
  exact bodyComponents_plain hplain

theorem components_drive {text body : Text} {drive : Text} (hb : '\\' ∉ text)
    (h : splitDrive text = some (drive, body)) :
    ∃ rest, components true text = .drive drive :: rest := by
  unfold components
  simp only [if_true, unbackslash_of_not_mem hb, h]
  exact ⟨_, rfl⟩

variable {env : Env}

theorem contained_spec {rest : Text} (hb : '\\' ∉ rest)
    (h : isContained env (withoutCurrentDir rest) = true) :
    (∀ name ∈ namesOf rest, Ordinary name) ∧
      ∀ root, join env.windows root (withoutCurrentDir rest) =
        root ++ (namesOf rest).map .normal := by
  have hplain : ∀ n ∈ namesOf rest, Plain n := fun n => plain_of_mem_namesOf hb
  simp only [isContained, Bool.and_eq_true, bne_iff_ne, ne_eq] at h
  obtain ⟨hnonempty, hall⟩ := h
  unfold withoutCurrentDir at hnonempty hall ⊢
  have hne : namesOf rest ≠ [] := by
    intro hnil
    rw [hnil] at hnonempty
    exact hnonempty rfl
  have hback : '\\' ∉ ['/'].intercalate (namesOf rest) := by
    intro hmem
    rcases mem_intercalate hmem with hmem | ⟨name, hname, hmem⟩
    · cases hmem
    · exact (hplain name hname).noBackslash hmem
  have hdrive : env.windows = true → splitDrive (['/'].intercalate (namesOf rest)) = none := by
    intro hw
    cases hd : splitDrive (['/'].intercalate (namesOf rest)) with
    | none => rfl
    | some p =>
        obtain ⟨drive, body⟩ := p
        obtain ⟨cs, hcs⟩ := components_drive hback hd
        rw [hw, hcs] at hall
        simp at hall
  have hcomponents := components_intercalate hne hplain hdrive
  rw [hcomponents] at hall
  have hordinary : ∀ name ∈ namesOf rest, Ordinary name := by
    intro name hname
    refine ⟨hplain name hname, ?_⟩
    rintro rfl
    have hp := List.all_eq_true.mp hall (classify ['.', '.']) (List.mem_map_of_mem hname)
    simp [classify] at hp
  have hmap : (namesOf rest).map classify = (namesOf rest).map .normal :=
    List.map_congr_left (fun name hname => if_neg (hordinary name hname).notParent)
  refine ⟨hordinary, fun root => ?_⟩
  unfold join
  rw [hcomponents, hmap]
  cases hnames : namesOf rest with
  | nil => exact absurd hnames hne
  | cons first names => rfl

theorem join_nil (windows : Bool) (root : PathBuf) : join windows root [] = root := by
  cases windows <;> simp [join, components, unbackslash, splitDrive, bodyComponents]

theorem withoutCurrentDir_eq_nil {rest : Text} (h : withoutCurrentDir rest = []) :
    namesOf rest = [] := by
  by_contra hne
  cases hnames : namesOf rest with
  | nil => exact hne hnames
  | cons first names =>
      have hfirst : first ≠ [] := by
        have hmem : first ∈ namesOf rest := hnames ▸ List.mem_cons_self
        have hp := (List.mem_filter.mp hmem).2
        simp only [Bool.and_eq_true, bne_iff_ne, ne_eq] at hp
        exact hp.1
      rw [withoutCurrentDir, hnames] at h
      cases names with
      | nil => exact hfirst (by simpa using h)
      | cons second names =>
          rw [List.intercalate_cons_cons] at h
          simp at h

theorem namesOf_slash (rest : Text) : namesOf ('/' :: rest) = namesOf rest := by
  unfold namesOf
  rw [List.splitOn_cons_eq_if_modifyHead]
  simp

theorem namesOf_dropWhile (rest : Text) : namesOf (rest.dropWhile (· == '/')) = namesOf rest := by
  induction rest with
  | nil => rfl
  | cons c rest ih =>
      rw [List.dropWhile_cons]
      split
      · next hc =>
        rw [beq_iff_eq.mp hc, namesOf_slash]
        exact ih
      · rfl

/-! ## The mount a path matches -/

/-- A prefix ends where a component of the path does. -/
def Matches (start path : Text) : Prop := path = start ∨ start ++ ['/'] <+: path

structure Picks (env : Env) (path start : Text) (roots : List PathBuf) : Prop where
  entry : env.mounts[start]? = some roots
  whole : Matches start path
  longest : ∀ start' roots', env.mounts[start']? = some roots' → Matches start' path →
    start'.length ≤ start.length

theorem stripPrefix_eq_some {start path after : Text} (h : stripPrefix start path = some after) :
    path = start ++ after := by
  unfold stripPrefix at h
  split at h
  · next hpre =>
    cases h
    obtain ⟨tail, rfl⟩ := List.isPrefixOf_iff_prefix.mp hpre
    rw [List.drop_left]
  · cases h

theorem stripPrefix_append (start after : Text) : stripPrefix start (start ++ after) = some after := by
  unfold stripPrefix
  rw [if_pos (List.isPrefixOf_iff_prefix.mpr (List.prefix_append _ _)), List.drop_left]

theorem matches_append {start after : Text} :
    Matches start (start ++ after) ↔ after = [] ∨ startsWithSlash after = true := by
  unfold Matches startsWithSlash
  constructor
  · rintro (h | h)
    · exact .inl (List.append_right_eq_self.mp h)
    · obtain ⟨tail, htail⟩ := h
      rw [List.append_assoc, List.append_cancel_left_eq] at htail
      exact .inr (by simp [← htail])
  · rintro (rfl | h)
    · exact .inl (List.append_nil _)
    · cases after with
      | nil => simp at h
      | cons c after =>
          have hc : c = '/' := by simpa using h
          subst hc
          exact .inr ⟨after, by simp⟩

theorem Matches.is_prefix {start path : Text} (h : Matches start path) : start <+: path := by
  rcases h with rfl | h
  · exact List.prefix_rfl
  · exact (List.prefix_append _ _).trans h

/-- A text sorts before what it is a proper beginning of. -/
theorem compare_append_cons (start : Text) (c : Char) (rest : Text) :
    compare start (start ++ c :: rest) = .lt := by
  induction start with
  | nil => rfl
  | cons x start ih =>
      rw [List.cons_append, List.compare_eq_compareLex, List.compareLex_cons_cons,
        ← List.compare_eq_compareLex, ih, Std.ReflOrd.compare_self]
      rfl

/-- Of two prefixes of a path the one that sorts later is the longer. -/
theorem length_le_of_compare {path start start' : Text} (h : start <+: path) (h' : start' <+: path)
    (hlt : compare start' start = .lt) : start'.length ≤ start.length := by
  by_contra hgt
  obtain ⟨tail, rfl⟩ := List.prefix_of_prefix_length_le h h' (by omega)
  cases tail with
  | nil => simp at hgt
  | cons c tail =>
      have hback := compare_append_cons start c tail
      rw [Std.OrientedOrd.eq_swap, hlt] at hback
      cases hback

/-- A loop that goes on exactly past the mounts that do not match stops at the most
specific one. -/
theorem picks_of_findSome? {β : Type} {path : Text} {turn : Text × List PathBuf → Option β} {b : β}
    (hturn : ∀ e, turn e = none ↔ ¬ Matches e.1 path)
    (h : (entries env).findSome? turn = some b) :
    ∃ start roots, Picks env path start roots ∧ turn (start, roots) = some b := by
  obtain ⟨before, ⟨start, roots⟩, after, hsplit, hb, hbefore⟩ := List.findSome?_eq_some_iff.mp h
  have hwhole : Matches start path := by
    by_contra hnot
    rw [(hturn (start, roots)).mpr hnot] at hb
    cases hb
  have hsorted := env.mounts.ordered_keys_toList
  unfold entries at hsplit
  rw [← List.reverse_reverse env.mounts.toList, hsplit, List.pairwise_reverse,
    List.pairwise_append, List.pairwise_cons] at hsorted
  have hmem : ∀ e, e ∈ env.mounts.toList ↔ e ∈ before ++ (start, roots) :: after := by
    intro e
    rw [← hsplit, List.mem_reverse]
  refine ⟨start, roots, ⟨?_, hwhole, fun start' roots' hentry hmatch => ?_⟩, hb⟩
  · exact TreeMap.mem_toList_iff_getElem?_eq_some.mp ((hmem _).mpr (by simp))
  · have hin := (hmem (start', roots')).mp (TreeMap.mem_toList_iff_getElem?_eq_some.mpr hentry)
    rcases List.mem_append.mp hin with hin | hin
    · exact absurd hmatch ((hturn _).mp (hbefore _ hin))
    · rcases List.mem_cons.mp hin with heq | hin
      · rw [(Prod.mk.injEq .. ▸ heq : start' = start ∧ roots' = roots).1]
      · exact length_le_of_compare hwhole.is_prefix hmatch.is_prefix (hsorted.2.1.1 _ hin)

/-- Two mounts cannot both be the most specific. -/
theorem Picks.unique {path start start' : Text} {roots roots' : List PathBuf}
    (h : Picks env path start roots) (h' : Picks env path start' roots') :
    start = start' ∧ roots = roots' := by
  have hlen : start.length = start'.length :=
    le_antisymm (h'.longest start roots h.entry h.whole) (h.longest start' roots' h'.entry h'.whole)
  have heq : start = start' := by
    obtain ⟨tail, rfl⟩ := List.prefix_of_prefix_length_le h.whole.is_prefix h'.whole.is_prefix
      (Nat.le_of_eq hlen)
    simp only [List.length_append] at hlen
    rw [List.length_eq_zero_iff.mp (show tail.length = 0 by omega), List.append_nil]
  subst heq
  have hentry := h.entry
  rw [h'.entry] at hentry
  cases hentry
  exact ⟨rfl, rfl⟩

/-! ## What the loops answer -/

/-- A host path inside a mount: one of its layers, with the path's names under it added. -/
def Inside (path start : Text) (roots : List PathBuf) (host : PathBuf) : Prop :=
  (∀ name ∈ namesOf (path.drop start.length), Ordinary name) ∧
    ∃ root ∈ roots, host = root ++ (namesOf (path.drop start.length)).map .normal

variable {path start : Text} {roots : List PathBuf} {host : PathBuf}

theorem inside_root {after : Text} (hnames : namesOf after = []) {root : PathBuf}
    (hroot : root ∈ roots) : Inside (start ++ after) start roots root := by
  unfold Inside
  rw [List.drop_left, hnames]
  exact ⟨by simp, root, hroot, by simp⟩

theorem inside_join {after rest : Text} (hb : '\\' ∉ after) (hnames : namesOf rest = namesOf after)
    (hsub : ∀ c ∈ rest, c ∈ after) (hc : isContained env (withoutCurrentDir rest) = true)
    {root : PathBuf} (hroot : root ∈ roots) :
    Inside (start ++ after) start roots (join env.windows root (withoutCurrentDir rest)) := by
  obtain ⟨hordinary, hjoin⟩ := contained_spec (fun hmem => hb (hsub _ hmem)) hc
  unfold Inside
  rw [List.drop_left, ← hnames]
  exact ⟨hordinary, root, hroot, hjoin root⟩

theorem resolveInnerAt_none (path : Text) (fallback : Bool) (e : Text × List PathBuf) :
    resolveInnerAt env path fallback e = none ↔ ¬ Matches e.1 path := by
  obtain ⟨start, roots⟩ := e
  unfold resolveInnerAt
  cases hstrip : stripPrefix start path with
  | none =>
      simp only [hstrip, true_iff]
      intro hmatch
      obtain ⟨after, rfl⟩ := hmatch.is_prefix
      rw [stripPrefix_append] at hstrip
      cases hstrip
  | some after =>
      obtain rfl := stripPrefix_eq_some hstrip
      simp only [hstrip, matches_append]
      by_cases hslash : startsWithSlash after = true
      · simp only [hslash, Bool.not_true, Bool.false_eq_true, if_false]
        split
        · simp
        · split
          · simp
          · split <;> simp
      · rw [Bool.not_eq_true] at hslash
        cases after with
        | nil => simp
        | cons c after =>
            have hc : (c == '/') = false := by simpa [startsWithSlash] using hslash
            simp [hslash, hc]

theorem resolveInnerAt_inside {fallback : Bool} (hb : '\\' ∉ path) {answer : Option PathBuf}
    (h : resolveInnerAt env path fallback (start, roots) = some answer) (hhost : answer = some host) :
    Inside path start roots host := by
  cases hstrip : stripPrefix start path with
  | none =>
      simp only [resolveInnerAt, hstrip] at h
      cases h
  | some after =>
      obtain rfl := stripPrefix_eq_some hstrip
      have hafter : '\\' ∉ after := fun hmem => hb (List.mem_append_right _ hmem)
      have hsub : ∀ c ∈ after.dropWhile (· == '/'), c ∈ after := fun c hc =>
        (List.dropWhile_sublist _).mem hc
      simp only [resolveInnerAt, hstrip] at h
      split at h
      · next hrest =>
        cases h
        have hnames := namesOf_dropWhile after
        rw [beq_iff_eq.mp hrest] at hnames
        exact inside_root hnames.symm (List.mem_of_mem_head? hhost)
      · split at h
        · cases h
        · split at h
          · next hnil =>
            cases h
            have hnames := withoutCurrentDir_eq_nil (beq_iff_eq.mp hnil)
            rw [namesOf_dropWhile] at hnames
            exact inside_root hnames (List.mem_of_mem_head? hhost)
          · split at h
            · cases h
              cases hhost
            · next hcontained =>
              simp only [Bool.not_eq_true, Bool.not_eq_false'] at hcontained
              have hin : ∀ root ∈ roots, Inside (start ++ after) start roots
                  (join env.windows root (withoutCurrentDir (after.dropWhile (· == '/')))) :=
                fun root => inside_join hafter (namesOf_dropWhile after) hsub hcontained
              cases h
              split at hhost
              · next root hfind =>
                cases hhost
                exact hin root (List.mem_of_find?_eq_some hfind)
              · split at hhost
                · obtain ⟨root, hroot, rfl⟩ := Option.map_eq_some_iff.mp hhost
                  exact hin root (List.mem_of_mem_head? hroot)
                · cases hhost

/-- The test the other loops make: past a prefix that does not match they go on. -/
theorem goes_on_iff {β : Type} (answer : Text → β) (path start : Text) :
    (match stripPrefix start path with
      | none => none
      | some rest =>
          if rest != [] && !startsWithSlash rest then none else some (answer rest)) = none ↔
      ¬ Matches start path := by
  cases hstrip : stripPrefix start path with
  | none =>
      simp only [true_iff]
      intro hmatch
      obtain ⟨after, rfl⟩ := hmatch.is_prefix
      rw [stripPrefix_append] at hstrip
      cases hstrip
  | some after =>
      obtain rfl := stripPrefix_eq_some hstrip
      rw [matches_append]
      by_cases hnil : after = []
      · simp [hnil]
      · cases hslash : startsWithSlash after <;> simp [hnil, hslash]

theorem resolveTopAt_none (path : Text) (e : Text × List PathBuf) :
    resolveTopAt env path e = none ↔ ¬ Matches e.1 path := goes_on_iff _ path e.1

theorem existingDirectoriesAt_none (path : Text) (e : Text × List PathBuf) :
    existingDirectoriesAt env path e = none ↔ ¬ Matches e.1 path := by
  rw [← goes_on_iff (fun _ => ()) path e.1]
  cases hstrip : stripPrefix e.1 path with
  | none => simp only [existingDirectoriesAt, hstrip]
  | some after =>
      simp only [existingDirectoriesAt, hstrip]
      split
      · simp
      · split <;> simp

theorem resolveTopAt_inside (hb : '\\' ∉ path) {answer : Option PathBuf}
    (h : resolveTopAt env path (start, roots) = some answer) (hhost : answer = some host) :
    Inside path start roots host := by
  cases hstrip : stripPrefix start path with
  | none =>
      simp only [resolveTopAt, hstrip] at h
      cases h
  | some after =>
      obtain rfl := stripPrefix_eq_some hstrip
      have hafter : '\\' ∉ after := fun hmem => hb (List.mem_append_right _ hmem)
      simp only [resolveTopAt, hstrip] at h
      split at h
      · cases h
      · cases h
        cases hroots : roots.head? with
        | none =>
            rw [hroots] at hhost
            cases hhost
        | some root =>
            have hroot := List.mem_of_mem_head? hroots
            simp only [hroots] at hhost
            split at hhost
            · next hnil =>
              cases hhost
              exact inside_root (withoutCurrentDir_eq_nil (beq_iff_eq.mp hnil)) hroot
            · split at hhost
              · next hcontained =>
                cases hhost
                exact inside_join hafter rfl (fun _ hc => hc) hcontained hroot
              · cases hhost

theorem existingDirectoriesAt_inside (hb : '\\' ∉ path) {answer : List PathBuf}
    (h : existingDirectoriesAt env path (start, roots) = some answer) (hhost : host ∈ answer) :
    Inside path start roots host := by
  cases hstrip : stripPrefix start path with
  | none =>
      simp only [existingDirectoriesAt, hstrip] at h
      cases h
  | some after =>
      obtain rfl := stripPrefix_eq_some hstrip
      have hafter : '\\' ∉ after := fun hmem => hb (List.mem_append_right _ hmem)
      have hsub : ∀ c ∈ after.dropWhile (· == '/'), c ∈ after := fun c hc =>
        (List.dropWhile_sublist _).mem hc
      simp only [existingDirectoriesAt, hstrip] at h
      split at h
      · cases h
      · split at h
        · cases h
          cases hhost
        · next hcontained =>
          cases h
          obtain ⟨hmem, -⟩ := List.mem_filter.mp hhost
          obtain ⟨root, hroot, rfl⟩ := List.mem_map.mp hmem
          have hin := (List.mem_filter.mp hroot).1
          by_cases hnil : withoutCurrentDir (after.dropWhile (· == '/')) = []
          · have hnames := withoutCurrentDir_eq_nil hnil
            rw [namesOf_dropWhile] at hnames
            rw [hnil, join_nil]
            exact inside_root hnames hin
          · have hc : isContained env (withoutCurrentDir (after.dropWhile (· == '/'))) = true := by
              simpa [hnil] using hcontained
            exact inside_join hafter (namesOf_dropWhile after) hsub hc hin

/-! ## What the functions answer -/

/-- One of the functions answers the host path for the guest path. -/
def Answers (env : Env) (guestPath : Text) (host : PathBuf) : Prop :=
  resolve env guestPath = some host ∨ resolveExisting env guestPath = some host ∨
    resolveForWrite env guestPath = some host ∨ resolveForCreate env guestPath = some host ∨
    resolveForRemoval env guestPath = some host ∨ host ∈ existingDirectories env guestPath

/-- A walk that answers does so through the most specific mount. -/
theorem getD_findSome? {β : Type} {turn : Text × List PathBuf → Option (Option β)} {b : β}
    (h : ((entries env).findSome? turn).getD none = some b) :
    (entries env).findSome? turn = some (some b) := by
  cases hfind : (entries env).findSome? turn with
  | none =>
      rw [hfind] at h
      cases h
  | some answer =>
      rw [hfind, Option.getD_some] at h
      rw [h]

theorem walkInner_inside {fallback : Bool} (hb : '\\' ∉ path)
    (h : walkInner env path fallback = some host) :
    ∃ start roots, Picks env path start roots ∧ Inside path start roots host := by
  obtain ⟨start, roots, hpicks, hturn⟩ :=
    picks_of_findSome? (resolveInnerAt_none path fallback) (getD_findSome? h)
  exact ⟨start, roots, hpicks, resolveInnerAt_inside hb hturn rfl⟩

theorem resolveTop_inside {guestPath : Text} (h : resolveTop env guestPath = some host) :
    ∃ start roots, Picks env (unbackslash guestPath) start roots ∧
      Inside (unbackslash guestPath) start roots host := by
  obtain ⟨start, roots, hpicks, hturn⟩ :=
    picks_of_findSome? (resolveTopAt_none _) (getD_findSome? h)
  exact ⟨start, roots, hpicks, resolveTopAt_inside (not_mem_unbackslash guestPath) hturn rfl⟩

theorem resolveInner_inside {guestPath : Text} {fallback : Bool}
    (h : resolveInner env guestPath fallback = some host) :
    ∃ start roots, Picks env (unbackslash guestPath) start roots ∧
      Inside (unbackslash guestPath) start roots host := by
  unfold resolveInner at h
  split at h
  · cases h
  · exact walkInner_inside (not_mem_unbackslash guestPath) h

theorem existingDirectories_inside {guestPath : Text} (h : host ∈ existingDirectories env guestPath) :
    ∃ start roots, Picks env (unbackslash guestPath) start roots ∧
      Inside (unbackslash guestPath) start roots host := by
  unfold existingDirectories at h
  split at h
  · cases h
  · cases hfind : (entries env).findSome? (existingDirectoriesAt env (unbackslash guestPath)) with
    | none =>
        rw [hfind] at h
        cases h
    | some answer =>
        rw [hfind, Option.getD_some] at h
        obtain ⟨start, roots, hpicks, hturn⟩ :=
          picks_of_findSome? (existingDirectoriesAt_none _) hfind
        exact ⟨start, roots, hpicks,
          existingDirectoriesAt_inside (not_mem_unbackslash guestPath) hturn h⟩

theorem locateForWrite_top {guestPath : Text} {top : PathBuf} {below : Option PathBuf}
    (h : locateForWrite env guestPath = some (top, below)) : resolveTop env guestPath = some top := by
  unfold locateForWrite at h
  split at h
  · cases h
  · split at h
    · cases h
    · next htop =>
      cases h
      exact htop

theorem for_write_top {guestPath : Text} (h : resolveForWrite env guestPath = some host ∨
    resolveForCreate env guestPath = some host ∨ resolveForRemoval env guestPath = some host) :
    resolveTop env guestPath = some host := by
  rcases h with h | h | h
  · unfold resolveForWrite at h
    split at h
    · cases h
    · next htop =>
      cases h
      exact locateForWrite_top htop
    · next htop =>
      rw [Option.ite_none_right_eq_some] at h
      rw [← h.2]
      exact locateForWrite_top htop
  · obtain ⟨⟨top, below⟩, hlocate, rfl⟩ := Option.map_eq_some_iff.mp h
    exact locateForWrite_top hlocate
  · unfold resolveForRemoval at h
    split at h
    · cases h
    · next htop =>
      split at h
      · cases h
      · cases h
        exact locateForWrite_top htop

theorem answers_inside {guestPath : Text} (h : Answers env guestPath host) :
    ∃ start roots, Picks env (unbackslash guestPath) start roots ∧
      Inside (unbackslash guestPath) start roots host := by
  obtain h | h | h | h | h | h := h
  · exact resolveInner_inside h
  · exact resolveInner_inside h
  · exact resolveTop_inside (for_write_top (.inl h))
  · exact resolveTop_inside (for_write_top (.inr (.inl h)))
  · exact resolveTop_inside (for_write_top (.inr (.inr h)))
  · exact existingDirectories_inside h

/-- Whatever a guest path and the mounts are, all the functions resolve it through one
mount, the one with the longest prefix that matches whole components, and answer only
layers of it with the same ordinary names added. -/
theorem guest_path_stays_inside (env : Env) (guestPath : Text) :
    (∀ host, ¬ Answers env guestPath host) ∨
      ∃ start roots, Picks env (unbackslash guestPath) start roots ∧
        ∀ host, Answers env guestPath host → Inside (unbackslash guestPath) start roots host := by
  by_cases hnone : ∀ host, ¬ Answers env guestPath host
  · exact .inl hnone
  · right
    simp only [not_forall, not_not] at hnone
    obtain ⟨host, hanswers⟩ := hnone
    obtain ⟨start, roots, hpicks, -⟩ := answers_inside hanswers
    refine ⟨start, roots, hpicks, fun host' hanswers' => ?_⟩
    obtain ⟨start', roots', hpicks', hinside⟩ := answers_inside hanswers'
    obtain ⟨rfl, rfl⟩ := hpicks.unique hpicks'
    exact hinside

end Orbistoun.Fs.Mount

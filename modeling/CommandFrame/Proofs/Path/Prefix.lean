import Mathlib.Data.List.Forall2
import CommandFrame.Proofs.Glob.Literal
import CommandFrame.Proofs.Path.Product

/-!
# What is offered for the start of a path

The start of a path is made a pattern by a star behind it.  What the pattern matches
begins with the start, as long as no character of it is special, but it is offered with
a tilde where it is below the home directory, however the start was typed.
-/

namespace CommandFrame

open Glob (IsPlain HasLoneStars)

theorem Text.mem_of_mem_splitOn {cut : Char → Bool} {text piece : Text}
    (h : piece ∈ splitOn cut text) : ∀ c ∈ piece, c ∈ text := by
  induction text generalizing piece with
  | nil =>
      obtain rfl : piece = [] := by simpa [splitOn] using h
      simp
  | cons c text ih =>
      unfold splitOn at h
      split at h
      · rcases List.mem_cons.1 h with rfl | hrest
        · simp
        · exact fun d hd => List.mem_cons_of_mem c (ih hrest d hd)
      · split at h
        · obtain rfl : piece = [c] := by simpa using h
          simp
        · rename_i first pieces hsplit
          rw [hsplit, List.forall_mem_cons] at ih
          rcases List.mem_cons.1 h with rfl | hrest
          · exact List.cons_subset_cons c ih.1
          · exact fun d hd => List.mem_cons_of_mem c (ih.2 piece hrest d hd)

namespace Path

/-! ## Paths without doubled slashes -/

/-- No two slashes stand together. -/
def HasLoneSlashes (path : Text) : Prop :=
  path.IsChain fun first second => ¬(first = '/' ∧ second = '/')

instance (path : Text) : Decidable (HasLoneSlashes path) :=
  inferInstanceAs (Decidable (path.IsChain _))

variable {path before name : Text} {absolute : Bool} {names : List Text}

theorem exists_append_name (path : Text) :
    ∃ before name, path = before ++ name ∧ '/' ∉ name ∧
      (before ≠ [] → before.getLast? = some '/') := by
  refine ⟨(path.reverse.dropWhile (· ≠ '/')).reverse, (path.reverse.takeWhile (· ≠ '/')).reverse,
    ?_, ?_, ?_⟩
  · rw [← List.reverse_append, List.takeWhile_append_dropWhile, List.reverse_reverse]
  · intro hslash
    simpa using List.all_eq_true.1 List.all_takeWhile '/' (List.mem_reverse.1 hslash)
  · intro hne
    obtain ⟨c, hlast⟩ := Option.isSome_iff_exists.1 (List.getLast?_isSome.2 hne)
    have hhead : (path.reverse.dropWhile (· ≠ '/')).head? = some c := by
      rwa [List.getLast?_reverse] at hlast
    have hnot := List.head?_dropWhile_not (· ≠ '/') path.reverse
    rw [hhead] at hnot
    rw [hlast]
    simpa using hnot

theorem segments_append_name (hbefore : before ≠ [] → before.getLast? = some '/')
    (hne : name ≠ []) (hslash : '/' ∉ name) :
    segments (before ++ name) = segments before ++ [name] := by
  by_cases hnil : before = []
  · subst hnil
    exact segments_name hne hslash
  · obtain ⟨start, rfl⟩ := List.getLast?_eq_some_iff.1 (hbefore hnil)
    rw [List.append_assoc, List.singleton_append, segments_append_slash, segments_append_slash,
      segments_name hne hslash]
    exact congrArg (· ++ [name]) (List.append_nil _).symm

theorem written_segments (path : Text) (hslashes : HasLoneSlashes path)
    (hend : path.getLast? ≠ some '/') : written (isAbsolute path) (segments path) = path := by
  obtain ⟨before, name, hpath, hslash, hbefore⟩ := exists_append_name path
  by_cases hnil : before = []
  · rw [hpath, hnil, List.nil_append, isAbsolute_of_notMem hslash]
    by_cases hname : name = []
    · rw [hname]
      rfl
    · rw [segments_name hname hslash]
      rfl
  · obtain ⟨start, rfl⟩ := List.getLast?_eq_some_iff.1 (hbefore hnil)
    have hname : name ≠ [] := by
      rintro rfl
      exact hend (by rw [hpath]; simp)
    rw [List.append_assoc, List.singleton_append] at hpath
    have hsegments : segments path = segments start ++ [name] := by
      rw [hpath, segments_append_slash, segments_name hname hslash]
    by_cases hstart : start = []
    · rw [hsegments, hpath, hstart]
      rfl
    · rw [hpath] at hslashes
      obtain ⟨hlone, -, hmiddle⟩ := List.isChain_append.1 hslashes
      have hlast : start.getLast? ≠ some '/' := fun hlast => hmiddle '/' hlast '/' rfl ⟨rfl, rfl⟩
      have hwritten := written_segments start hlone hlast
      rw [hsegments, written_concat (isComponent_of_mem_segments start), hpath,
        isAbsolute_append hstart, hwritten, PathCompleter.extend,
        if_neg (not_or.2 ⟨hstart, hlast⟩)]
termination_by path.length
decreasing_by
  simp_all

theorem isAbsolute_written (hnames : ∀ name ∈ names, IsComponent name) (absolute : Bool) :
    isAbsolute (written absolute names) = absolute := by
  cases absolute with
  | true => rfl
  | false =>
      cases names with
      | nil => rfl
      | cons name names =>
          obtain ⟨hne, hslash⟩ := hnames name List.mem_cons_self
          have hhead : isAbsolute (Text.join "/" (name :: names)) = isAbsolute name := by
            cases names with
            | nil => rfl
            | cons next names =>
                rw [Text.join, List.append_assoc]
                exact isAbsolute_append hne _
          exact hhead.trans (isAbsolute_of_notMem hslash)

theorem getLast?_written (hnames : ∀ name ∈ names, IsComponent name) (hne : names ≠ [])
    (absolute : Bool) : (written absolute names).getLast? ≠ some '/' := by
  obtain ⟨hlast, hslash⟩ := hnames _ (List.getLast_mem hne)
  rw [← List.dropLast_concat_getLast hne, getLast?_written_concat absolute _ hlast]
  exact fun hend => hslash (List.mem_of_getLast? hend)

theorem hasLoneSlashes_of_notMem (h : '/' ∉ name) : HasLoneSlashes name := by
  refine List.Pairwise.isChain (List.pairwise_iff_forall_sublist.2 ?_)
  rintro first second hsub ⟨rfl, -⟩
  exact h (hsub.subset List.mem_cons_self)

theorem HasLoneSlashes.append_name (hpath : HasLoneSlashes path) (hslash : '/' ∉ name) :
    HasLoneSlashes (path ++ name) := by
  refine List.isChain_append.2 ⟨hpath, hasLoneSlashes_of_notMem hslash, ?_⟩
  rintro - - second hsecond ⟨-, rfl⟩
  exact hslash (List.mem_of_mem_head? hsecond)

theorem HasLoneSlashes.append_slash (hpath : HasLoneSlashes path)
    (hend : path.getLast? ≠ some '/') {rest : Text} (hrest : HasLoneSlashes ('/' :: rest)) :
    HasLoneSlashes (path ++ '/' :: rest) := by
  refine List.isChain_append.2 ⟨hpath, hrest, ?_⟩
  rintro first hfirst - - ⟨rfl, -⟩
  exact hend hfirst

theorem hasLoneSlashes_written (hnames : ∀ name ∈ names, IsComponent name)
    (absolute : Bool) : HasLoneSlashes (written absolute names) := by
  induction names using List.reverseRecOn with
  | nil => cases absolute <;> simp [written_nil, HasLoneSlashes]
  | append_singleton names name ih =>
      obtain ⟨hne, hslash⟩ := hnames name (by simp)
      have hbefore : ∀ name ∈ names, IsComponent name := fun name hname =>
        hnames name (List.mem_append_left _ hname)
      have hname : HasLoneSlashes ('/' :: name) :=
        HasLoneSlashes.append_name (List.isChain_singleton '/') hslash
      rw [written_concat hbefore, PathCompleter.extend]
      split
      · exact (ih hbefore).append_name hslash
      · rename_i hend
        exact (ih hbefore).append_slash (not_or.1 hend).2 hname

theorem segments_slash (rest : Text) : segments ('/' :: rest) = segments rest :=
  segments_append_slash [] rest

theorem segments_append_follows {rest : Text} (h : FollowsTilde rest) (path : Text) :
    segments (path ++ rest) = segments path ++ segments rest := by
  cases rest with
  | nil =>
      rw [List.append_nil]
      exact (List.append_nil _).symm
  | cons c rest =>
      obtain rfl : c = '/' := h c rfl
      rw [segments_append_slash, segments_slash]

theorem segments_trimSlashes (path : Text) : segments (trimSlashes path) = segments path := by
  obtain ⟨slashes, hpath, hslashes⟩ := exists_trimSlashes_append path
  conv_rhs => rw [hpath, segments_append_slashes _ hslashes]

/-! ## Tildes -/

theorem exists_of_expandTilde? {homes : Text → Option Text} {home : Option Text} {full : Text}
    (h : expandTilde? homes home path = some full) :
    ∃ rest directory, path = '~' :: rest ∧
      (home = some directory ∨ ∃ user, homes user = some directory) ∧
        full = directory ++ rest.dropWhile (· ≠ '/') := by
  unfold expandTilde? at h
  split at h
  · rename_i rest
    obtain ⟨directory, hdirectory, rfl⟩ := Option.map_eq_some_iff.1 h
    refine ⟨rest, directory, rfl, ?_, rfl⟩
    split at hdirectory
    · exact .inl hdirectory
    · exact .inr ⟨_, hdirectory⟩
  · contradiction

/-! ## Names that keep their segments -/

structure Keeps (segment name : Text) : Prop where
  exact : IsPlain segment → name = segment
  start : ∀ text, IsPlain text → segment = text ++ ['*'] → text <+: name

variable {segments' : List Text} {segment typed : Text}

theorem eq_of_keeps (hplain : ∀ segment ∈ segments', IsPlain segment)
    (h : List.Forall₂ Keeps segments' names) : names = segments' := by
  induction h with
  | nil => rfl
  | cons hkeeps _ ih =>
      rw [List.forall_mem_cons] at hplain
      rw [hkeeps.exact hplain.1, ih hplain.2]

theorem exists_append_of_keeps {first second : List Text}
    (h : List.Forall₂ Keeps (first ++ second) names) :
    ∃ before after, names = before ++ after ∧ List.Forall₂ Keeps first before ∧
      List.Forall₂ Keeps second after := by
  have hnames := (List.take_append_drop first.length names).symm
  refine ⟨names.take first.length, names.drop first.length, hnames, ?_, ?_⟩
  · simpa using List.forall₂_take first.length h
  · simpa using List.forall₂_drop first.length h

theorem exists_segments_append_star (typed : Text) :
    ∃ before start, typed = before ++ start ∧ '/' ∉ start ∧
      (before ≠ [] → before.getLast? = some '/') ∧
        segments (typed ++ ['*']) = segments before ++ [start ++ ['*']] := by
  obtain ⟨before, start, rfl, hslash, hbefore⟩ := exists_append_name typed
  refine ⟨before, start, rfl, hslash, hbefore, ?_⟩
  rw [List.append_assoc, segments_append_name hbefore (by simp) (by simp [hslash])]

theorem prefix_written (hplain : IsPlain typed) (hslashes : HasLoneSlashes typed)
    (hnames : ∀ name ∈ names, IsComponent name)
    (h : List.Forall₂ Keeps (segments (typed ++ ['*'])) names) :
    typed <+: written (isAbsolute (typed ++ ['*'])) names := by
  obtain ⟨before, start, rfl, hslash, hbefore, hsegments⟩ := exists_segments_append_star typed
  obtain ⟨hplainBefore, hplainStart⟩ := List.forall_mem_append.1 hplain
  rw [hsegments] at h
  rw [List.append_assoc]
  obtain ⟨first, last, rfl, hfirst, hlast⟩ := exists_append_of_keeps h
  obtain ⟨name, none, hname, hnone, rfl⟩ := List.forall₂_cons_left_iff.1 hlast
  obtain rfl : none = [] := List.forall₂_nil_left_iff.1 hnone
  obtain rfl : first = segments before := by
    refine eq_of_keeps (fun segment hsegment c hc => hplainBefore c ?_) hfirst
    obtain ⟨hpiece, -⟩ := List.mem_filter.1 hsegment
    exact Text.mem_of_mem_splitOn hpiece c hc
  obtain ⟨hne, hslash'⟩ := hnames name (by simp)
  have hstart : start <+: name := hname.start start hplainStart rfl
  have habsolute : isAbsolute (before ++ (start ++ ['*'])) = isAbsolute (before ++ name) := by
    by_cases hnil : before = []
    · have hstar : '/' ∉ start ++ ['*'] := by simp [hslash]
      rw [hnil, List.nil_append, List.nil_append, isAbsolute_of_notMem hstar,
        isAbsolute_of_notMem hslash']
    · rw [isAbsolute_append hnil, isAbsolute_append hnil]
  have hlone : HasLoneSlashes (before ++ name) :=
    HasLoneSlashes.append_name (List.isChain_append.1 hslashes).1 hslash'
  have hend : (before ++ name).getLast? ≠ some '/' := by
    rw [List.getLast?_append, List.getLast?_eq_some_getLast hne]
    intro heq
    exact hslash' (Option.some.inj heq ▸ List.getLast_mem hne)
  have hwritten := written_segments (before ++ name) hlone hend
  rw [segments_append_name hbefore hne hslash'] at hwritten
  rw [habsolute, hwritten]
  exact (List.prefix_append_right_inj before).2 hstart

theorem keeps_self (segment : Text) : Keeps segment segment where
  exact _ := rfl
  start text _ hsegment := by
    rw [hsegment]
    exact List.prefix_append text ['*']

end Path

theorem DirectoryMatcher.keeps_of_mem_namesIn {matcher : DirectoryMatcher} {tree : FileTree}
    {directory segment name : Text} (h : name ∈ matcher.namesIn tree directory segment) :
    Path.Keeps segment name := by
  rcases eq_or_accepts_of_mem_namesIn h with ⟨-, rfl⟩ | ⟨place, -, haccepts⟩
  · exact Path.keeps_self name
  · refine ⟨fun hplain => (Glob.accepts_of_isPlain hplain).1 haccepts, ?_⟩
    rintro text hplain rfl
    exact Glob.prefix_of_accepts_star hplain haccepts

namespace PathCompleter

/-! ## Matched paths -/

/-- The home directories are absolute paths. -/
structure HasAbsoluteHomes (completer : PathCompleter) : Prop where
  own : ∀ home, completer.home = some home → Path.isAbsolute home = true
  users : ∀ user home, completer.host.home? user = some home → Path.isAbsolute home = true

structure Spells (completer : PathCompleter) (pattern : Text) (names : List Text) : Prop where
  ne_nil : names ≠ []
  components : ∀ name ∈ names, Path.IsComponent name
  keeps : List.Forall₂ Path.Keeps (completer.segmentsOf pattern) names

def offered (completer : PathCompleter) (found : Text) : Text :=
  (completer.collapseTilde? found).getD found

variable {completer : PathCompleter} {absolute : Bool} {segments names : List Text}
  {typed found rest home : Text}

theorem IsMatch.keeps (h : completer.IsMatch absolute segments names) :
    List.Forall₂ Path.Keeps segments names := by
  refine List.forall₂_iff_get.2 ⟨h.length_eq.symm, fun i hsegment hname => ?_⟩
  exact DirectoryMatcher.keeps_of_mem_namesIn (h.matched i hname hsegment)

theorem exists_spells_of_mem (htree : completer.host.tree.IsNamed) {pattern : Text}
    {matched : List Text} (hmatched : completer.matchSegments? pattern = some matched)
    (hfound : found ∈ matched) :
    ∃ names, found = Path.written (completer.isFromRoot pattern) names ∧
      completer.Spells pattern names := by
  have hne : completer.segmentsOf pattern ≠ [] := fun hnil =>
    Option.some_ne_none _ (hmatched.symm.trans (matchSegments?_eq_none_iff.2 hnil))
  obtain ⟨rows, hrows, -, hmem⟩ := exists_rows_of_matchSegments? htree hne
  obtain rfl := Option.some.inj (hmatched.symm.trans hrows)
  obtain ⟨names, hrow, rfl⟩ := List.mem_map.1 hfound
  have hmatch := (hmem names).1 hrow
  refine ⟨names, rfl, ?_, hmatch.isComponent htree (completer.slash_notMem_segmentsOf pattern),
    hmatch.keeps⟩
  rintro rfl
  exact hne (List.length_eq_zero_iff.1 hmatch.length_eq.symm)

theorem HasAbsoluteHomes.of_expandTilde? (h : completer.HasAbsoluteHomes) {pattern full : Text}
    (hexpand : completer.expandTilde? pattern = some full) :
    pattern.head? = some '~' ∧ completer.isFromRoot pattern = true := by
  obtain ⟨rest, directory, rfl, hdirectory, hfull⟩ := Path.exists_of_expandTilde? hexpand
  have habsolute : Path.isAbsolute directory = true := by
    rcases hdirectory with hown | ⟨user, huser⟩
    · exact h.own directory hown
    · exact h.users user directory huser
  refine ⟨rfl, ?_⟩
  have hne : directory ≠ [] := by
    rintro rfl
    contradiction
  rw [isFromRoot, expanded, hexpand, Option.getD_some, hfull, Path.isAbsolute_append hne, habsolute]

theorem isAbsolute_trimSlashes (hhome : Path.isAbsolute home = true)
    (hne : Path.trimSlashes home ≠ []) (rest : Text) :
    Path.isAbsolute (Path.trimSlashes home ++ rest) = true := by
  obtain ⟨slashes, hslashes, -⟩ := Path.exists_trimSlashes_append home
  rw [hslashes, Path.isAbsolute_append hne] at hhome
  rw [Path.isAbsolute_append hne, hhome]

theorem isAbsolute_of_collapseTilde? {short : Text}
    (hhome : ∀ home, completer.home = some home → Path.isAbsolute home = true)
    (hcollapse : completer.collapseTilde? found = some short) :
    Path.isAbsolute found = true ∧ short.head? = some '~' := by
  obtain ⟨home, below, hown, hne, -, rfl, rfl⟩ := Path.exists_of_collapseTilde? hcollapse
  exact ⟨isAbsolute_trimSlashes (hhome home hown) hne below, rfl⟩

/-! ## Paths with the own tilde -/

theorem expandTilde?_own (hhome : completer.home = some home) (rest : Text) :
    completer.expandTilde? ('~' :: '/' :: rest) = some (home ++ '/' :: rest) :=
  (Path.expandTilde?_cons _ _ (Path.followsTilde_slash rest)).trans (by rw [hhome]; rfl)

theorem segmentsOf_own (hhome : completer.home = some home) (rest : Text) :
    completer.segmentsOf ('~' :: '/' :: rest) =
      Path.segments home ++ Path.segments ('/' :: rest) := by
  rw [segmentsOf, expanded, expandTilde?_own hhome, Option.getD_some, Path.segments_append_slash,
    Path.segments_slash]

theorem Spells.prefix_of_below {below : Text}
    (h : completer.Spells ('~' :: '/' :: (rest ++ ['*'])) names)
    (hhome : completer.home = some home) (hplain : IsPlain ('/' :: rest))
    (hslashes : Path.HasLoneSlashes ('/' :: rest)) (hfollows : Path.FollowsTilde below)
    (hbelow : Path.written true names = Path.trimSlashes home ++ below) :
    '/' :: rest <+: below := by
  have hkeeps := h.keeps
  rw [segmentsOf_own hhome] at hkeeps
  obtain ⟨upper, lower, rfl, hupper, hlower⟩ := Path.exists_append_of_keeps hkeeps
  have hsegments : upper ++ lower = Path.segments home ++ Path.segments below := by
    rw [← Path.segments_trimSlashes home, ← Path.segments_append_follows hfollows, ← hbelow,
      Path.segments_written h.components]
  obtain ⟨-, rfl⟩ := List.append_inj hsegments hupper.length_eq.symm
  have hbelow' : below ≠ [] := by
    rintro rfl
    obtain ⟨before, start, -, -, -, hstar⟩ := Path.exists_segments_append_star ('/' :: rest)
    rw [← List.cons_append, hstar] at hlower
    have hnone : (Path.segments before ++ [start ++ ['*']]).length = 0 := hlower.length_eq
    simp at hnone
  obtain ⟨c, path, rfl⟩ := List.exists_cons_of_ne_nil hbelow'
  obtain rfl : c = '/' := hfollows c rfl
  have hlone := Path.hasLoneSlashes_written h.components true
  have hend := Path.getLast?_written h.components h.ne_nil true
  rw [hbelow] at hlone hend
  rw [List.getLast?_append_of_ne_nil _ hbelow'] at hend
  have hwritten : Path.written true (Path.segments ('/' :: path)) = '/' :: path :=
    Path.written_segments _ (List.isChain_append.1 hlone).2.1 hend
  have hprefix := Path.prefix_written hplain hslashes
    (fun name hname => h.components name (List.mem_append_right _ hname)) hlower
  exact hwritten ▸ hprefix

theorem Spells.isSome_collapseTilde? (h : completer.Spells ('~' :: '/' :: (rest ++ ['*'])) names)
    (hhome : completer.home = some home) (habsolute : Path.isAbsolute home = true)
    (hne : Path.trimSlashes home ≠ []) (hplain : IsPlain (Path.trimSlashes home ++ '/' :: rest))
    (hslashes : Path.HasLoneSlashes (Path.trimSlashes home ++ '/' :: rest)) :
    (completer.collapseTilde? (Path.written true names)).isSome = true := by
  have hkeeps := h.keeps
  rw [segmentsOf_own hhome, ← Path.segments_trimSlashes home,
    ← Path.segments_append_follows (Path.followsTilde_slash _), ← List.cons_append,
    ← List.append_assoc] at hkeeps
  have hstart := Path.prefix_written hplain hslashes h.components hkeeps
  rw [List.append_assoc, isAbsolute_trimSlashes habsolute hne] at hstart
  obtain ⟨behind, hwritten⟩ := hstart
  have hcollapse := Path.collapseTilde?_append hne (Path.followsTilde_slash (rest ++ behind))
  rw [← hwritten, collapseTilde?, hhome, List.append_assoc, List.cons_append, hcollapse]
  rfl

/-! ## What is offered -/

theorem Spells.prefix_of_not_expanded (h : completer.Spells (typed ++ ['*']) names)
    (hplain : IsPlain typed) (hslashes : Path.HasLoneSlashes typed)
    (hexpand : completer.expandTilde? (typed ++ ['*']) = none) :
    typed <+: Path.written (completer.isFromRoot (typed ++ ['*'])) names := by
  have hexpanded : completer.expanded (typed ++ ['*']) = typed ++ ['*'] := by
    rw [expanded, hexpand, Option.getD_none]
  have hkeeps := h.keeps
  rw [segmentsOf, hexpanded] at hkeeps
  rw [isFromRoot, hexpanded]
  exact Path.prefix_written hplain hslashes h.components hkeeps

theorem Spells.prefix_offered_of_not_expanded (h : completer.Spells (typed ++ ['*']) names)
    (hhomes : completer.HasAbsoluteHomes)
    (hexpand : completer.expandTilde? (typed ++ ['*']) = none)
    (hfound : found = Path.written (completer.isFromRoot (typed ++ ['*'])) names)
    (hstart : typed <+: found) :
    typed <+: completer.offered found ↔ completer.collapseTilde? found = none := by
  constructor
  · intro hprefix
    by_contra hsome
    obtain ⟨short, hcollapse⟩ := Option.ne_none_iff_exists'.1 hsome
    obtain ⟨habsolute, htilde⟩ := isAbsolute_of_collapseTilde? hhomes.own hcollapse
    rw [offered, hcollapse, Option.getD_some] at hprefix
    cases typed with
    | nil =>
        rw [hfound, Path.isAbsolute_written h.components, isFromRoot, expanded, hexpand]
          at habsolute
        contradiction
    | cons c typed =>
        obtain ⟨_, hpath, -⟩ := List.cons_prefix_iff.1 hstart
        obtain ⟨_, rfl, -⟩ := List.cons_prefix_iff.1 hprefix
        rw [hpath] at habsolute
        have hslash : c = '/' := by simpa [Path.isAbsolute] using habsolute
        have hc : c = '~' := by simpa using htilde
        exact absurd (hslash.symm.trans hc) (by decide)
  · intro hcollapse
    rwa [offered, hcollapse, Option.getD_none]

theorem Spells.prefix_offered_of_expanded (h : completer.Spells (typed ++ ['*']) names)
    (hhomes : completer.HasAbsoluteHomes) (hplain : IsPlain typed)
    (hslashes : Path.HasLoneSlashes typed) {full : Text}
    (hexpand : completer.expandTilde? (typed ++ ['*']) = some full) :
    typed <+: completer.offered (Path.written true names) ↔
      (typed = "~" ∨ "~/" <+: typed) ∧
        (completer.collapseTilde? (Path.written true names)).isSome = true := by
  obtain ⟨htilde, -⟩ := hhomes.of_expandTilde? hexpand
  obtain ⟨tail, rfl⟩ : ∃ tail, typed = '~' :: tail := by
    cases typed with
    | nil => exact absurd htilde (by decide)
    | cons c tail => exact ⟨tail, by rw [Option.some.inj htilde]⟩
  cases hcollapse : completer.collapseTilde? (Path.written true names) with
  | none =>
      rw [offered, hcollapse, Option.getD_none, Path.written]
      simp
  | some short =>
      obtain ⟨home, below, hhome, -, hfollows, hwritten, rfl⟩ :=
        Path.exists_of_collapseTilde? hcollapse
      rw [offered, hcollapse, Option.getD_some, List.cons_prefix_cons]
      cases tail with
      | nil => simp
      | cons c rest =>
          by_cases hc : c = '/'
          · subst hc
            have hbelow := h.prefix_of_below hhome (List.forall_mem_cons.1 hplain).2
              (List.isChain_cons.1 hslashes).2 hfollows hwritten
            simp [hbelow]
          · simp only [true_and, Option.isSome_some, and_true]
            constructor
            · intro hprefix
              obtain ⟨_, rfl, -⟩ := List.cons_prefix_iff.1 hprefix
              exact absurd (hfollows c rfl) hc
            · rintro (heq | hprefix)
              · simp at heq
              · simp [Ne.symm hc] at hprefix

/-- What is matched for the start of a path begins with it, unless the start has a tilde that
is expanded.  What is offered begins with it where no tilde is expanded and none is put back,
or where a tilde of the own home directory is expanded and put back.  The own tilde is always
put back if the home directory has no special characters and no slashes too many. -/
theorem prefix_offered_iff {completer : PathCompleter} {typed : Text} {matched : List Text}
    (htree : completer.host.tree.IsNamed) (hhomes : completer.HasAbsoluteHomes)
    (hplain : IsPlain typed) (hslashes : Path.HasLoneSlashes typed)
    (hmatched : completer.matchSegments? (typed ++ ['*']) = some matched) :
    completer.matchStart? typed = some (matched.map completer.offered) ∧
    ∀ found ∈ matched,
      (completer.expandTilde? (typed ++ ['*']) = none → typed <+: found) ∧
      (typed <+: completer.offered found ↔
        if (completer.expandTilde? (typed ++ ['*'])).isSome then
          (typed = "~" ∨ "~/" <+: typed) ∧ (completer.collapseTilde? found).isSome
        else completer.collapseTilde? found = none) ∧
      ∀ home, completer.home = some home → Path.trimSlashes home ≠ [] →
        IsPlain (Path.trimSlashes home) → Path.HasLoneSlashes (Path.trimSlashes home) →
          "~/" <+: typed → (completer.collapseTilde? found).isSome := by
  refine ⟨?_, fun found hfound => ?_⟩
  · rw [matchStart?, matchPattern?, hmatched]
    rfl
  · obtain ⟨names, rfl, h⟩ := exists_spells_of_mem htree hmatched hfound
    refine ⟨h.prefix_of_not_expanded hplain hslashes, ?_, ?_⟩
    · cases hexpand : completer.expandTilde? (typed ++ ['*']) with
      | none =>
          rw [if_neg (by simp)]
          exact h.prefix_offered_of_not_expanded hhomes hexpand rfl
            (h.prefix_of_not_expanded hplain hslashes hexpand)
      | some full =>
          obtain ⟨-, hroot⟩ := hhomes.of_expandTilde? hexpand
          rw [hroot, if_pos Option.isSome_some]
          exact h.prefix_offered_of_expanded hhomes hplain hslashes hexpand
    · rintro home hhome hne hplainHome hloneHome ⟨rest, rfl⟩
      have hexpand : completer.expandTilde? ('~' :: '/' :: rest ++ ['*']) = _ :=
        expandTilde?_own hhome (rest ++ ['*'])
      obtain ⟨-, hroot⟩ := hhomes.of_expandTilde? hexpand
      have hlone : Path.HasLoneSlashes (Path.trimSlashes home ++ '/' :: rest) :=
        hloneHome.append_slash (Path.getLast?_trimSlashes home) (List.isChain_cons.1 hslashes).2
      change (completer.collapseTilde?
        (Path.written (completer.isFromRoot ('~' :: '/' :: rest ++ ['*'])) names)).isSome = true
      rw [hroot]
      exact h.isSome_collapseTilde? hhome (hhomes.own home hhome) hne
        (hplainHome.append (List.forall_mem_cons.1 hplain).2) hlone

end PathCompleter

namespace PrefixExample

def tree : FileTree := ⟨[(["h"], .directory), (["h", "docs"], .directory)]⟩

def completer : PathCompleter := ⟨{ tree, homes := [("u", "/h")] }, {}, "/", some "/h"⟩

theorem isNamed_tree : tree.IsNamed := by
  simp only [FileTree.IsNamed, FileTree.IsName]
  decide +kernel

theorem hasAbsoluteHomes : completer.HasAbsoluteHomes where
  own home hhome := by
    obtain rfl : "/h" = home := Option.some.inj hhome
    rfl
  users user home hhome := by
    obtain ⟨entry, hentry, rfl⟩ := Option.map_eq_some_iff.1 hhome
    obtain rfl := List.mem_singleton.1 (List.mem_of_find?_eq_some hentry)
    rfl

end PrefixExample

theorem PathCompleter.prefix_offered_iff_tilde :
    PrefixExample.completer.matchStart? "~/d" = some [("~/docs" : Text)] ∧
      ("~/d" : Text) <+: PrefixExample.completer.offered "/h/docs" := by
  have hplain : IsPlain "~/d" := by decide +kernel
  have hslashes : Path.HasLoneSlashes "~/d" := by decide +kernel
  have hmatched : PrefixExample.completer.matchSegments? ("~/d" ++ ['*']) =
      some [("/h/docs" : Text)] := by cbv
  obtain ⟨hstart, hfound⟩ := PathCompleter.prefix_offered_iff PrefixExample.isNamed_tree
    PrefixExample.hasAbsoluteHomes hplain hslashes hmatched
  obtain ⟨-, hoffered, hbelow⟩ := hfound "/h/docs" List.mem_cons_self
  have hcollapse : (PrefixExample.completer.collapseTilde? "/h/docs").isSome = true :=
    hbelow "/h" rfl (by decide +kernel) (by decide +kernel) (by decide +kernel) ⟨"d", rfl⟩
  have hexpand : (PrefixExample.completer.expandTilde? ("~/d" ++ ['*'])).isSome = true := by
    decide +kernel
  rw [if_pos hexpand] at hoffered
  exact ⟨hstart, hoffered.2 ⟨.inr ⟨"d", rfl⟩, hcollapse⟩⟩

/-- The home directory written out, and the home directory of a user, do not stay as typed. -/
theorem PathCompleter.not_always_prefix_offered :
    PrefixExample.tree.find PrefixExample.completer.base = .ok ([], .directory) ∧
      IsPlain "/h/d" ∧ Path.HasLoneSlashes "/h/d" ∧
      PrefixExample.completer.matchStart? "/h/d" = some [("~/docs" : Text)] ∧
      ¬("/h/d" : Text) <+: "~/docs" ∧
      PrefixExample.completer.matchStart? "~u/d" = some [("~/docs" : Text)] ∧
      ¬("~u/d" : Text) <+: "~/docs" :=
  ⟨by cbv, by decide +kernel, by decide +kernel, by cbv, by decide +kernel, by cbv,
    by decide +kernel⟩

end CommandFrame

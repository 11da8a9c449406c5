import Mathlib.Data.List.Induction
import Mathlib.Data.List.Nodup
import CommandFrame.Proofs.FileTree.Canonical
import CommandFrame.Proofs.Path.Offered
import CommandFrame.Proofs.Text.Candidates

/-!
# What a pattern matches

A path that matches a pattern has one name for every segment of it, each of them a
name that its segment matches in the directory before it.  The paths are listed in
order of their names and without repeats.
-/

namespace CommandFrame

/-- A piece of a path between slashes: a name, or one or two dots. -/
structure Path.IsComponent (name : Text) : Prop where
  ne_nil : name ≠ []
  slash_notMem : '/' ∉ name

/-! ## Names in order -/

theorem Text.nodup_eraseDups (texts : List Text) : texts.eraseDups.Nodup := by
  have hprecedes := pairwise_eraseDups_filter (fun _ => true) texts
  rw [List.filter_true] at hprecedes
  exact nodup_of_pairwise hprecedes

theorem Text.pairwise_sort {texts : List Text} (h : texts.Nodup) :
    (sort texts).Pairwise (· < ·) := by
  have hle : (sort texts).Pairwise fun first second => (!decide (second < first)) = true := by
    refine List.pairwise_mergeSort ?_ ?_ texts
    · intro first second third hfirst hsecond
      simp only [Bool.not_eq_true', decide_eq_false_iff_not, List.not_lt] at hfirst hsecond ⊢
      exact List.le_trans hfirst hsecond
    · intro first second
      simp only [Bool.or_eq_true, Bool.not_eq_true', decide_eq_false_iff_not, List.not_lt]
      exact List.le_total first second
  have hne : (sort texts).Pairwise (· ≠ ·) := (List.mergeSort_perm texts _).nodup_iff.2 h
  refine (hle.and hne).imp ?_
  rintro first second ⟨hbehind, hdiffer⟩
  simp only [Bool.not_eq_true', decide_eq_false_iff_not, List.not_lt] at hbehind
  exact List.not_le.1 fun hle => hdiffer (List.le_antisymm hbehind hle)

namespace FileTree

variable {tree : FileTree} {place : Location} {directory name : Text}

theorem pairwise_names (tree : FileTree) (place : Location) :
    (tree.names place).Pairwise (· < ·) :=
  Text.pairwise_sort (Text.nodup_eraseDups _)

theorem exists_place_of_list {names : List Text} (h : tree.list directory = .ok names) :
    ∃ place, names = tree.names place := by
  unfold list at h
  cases hfind : tree.find directory with
  | error error =>
      rw [hfind] at h
      contradiction
  | ok found =>
      obtain ⟨place, node⟩ := found
      rw [hfind] at h
      cases node with
      | directory => exact ⟨place, (Except.ok.inj h).symm⟩
      | file | device | link => contradiction

theorem isDirectory_root (tree : FileTree) : tree.isDirectory ['/'] = true := by
  have hroot : tree.node? [] = some .directory := rfl
  have hwalk : tree.walk maxLinks [] (Path.steps ['/']) = .ok [] :=
    (walk_dot maxLinks [] hroot).trans (by rw [walk])
  have hfind : tree.find ['/'] = .ok ([], .directory) := by
    rw [find_eq_seek (by decide), seek_eq tree (by decide) (by decide), hwalk]
    rfl
  rw [isDirectory, hfind]

end FileTree

namespace DirectoryMatcher

variable {matcher : DirectoryMatcher} {tree : FileTree} {directory segment name : Text}

theorem pairwise_namesIn (matcher : DirectoryMatcher) (tree : FileTree)
    (directory segment : Text) : (matcher.namesIn tree directory segment).Pairwise (· < ·) := by
  unfold namesIn
  split
  · exact .nil
  split
  · exact List.pairwise_singleton _ _
  split
  · exact List.pairwise_singleton _ _
  split
  · exact .nil
  · rename_i names hlist
    obtain ⟨place, rfl⟩ := FileTree.exists_place_of_list hlist
    exact (tree.pairwise_names place).filter _

theorem eq_or_accepts_of_mem_namesIn (h : name ∈ matcher.namesIn tree directory segment) :
    segment ≠ [] ∧ name = segment ∨
      ∃ place, name ∈ tree.names place ∧ Glob.accepts segment name = true := by
  unfold namesIn at h
  split at h
  · contradiction
  rename_i hne
  split at h
  · exact .inl ⟨hne, List.mem_singleton.1 h⟩
  split at h
  · exact .inl ⟨hne, List.mem_singleton.1 h⟩
  split at h
  · contradiction
  · rename_i names hlist
    obtain ⟨place, rfl⟩ := FileTree.exists_place_of_list hlist
    obtain ⟨hname, hmatch⟩ := List.mem_filter.1 h
    exact .inr ⟨place, hname, (Bool.and_eq_true_iff.1 hmatch).2⟩

theorem isComponent_of_mem_namesIn (htree : tree.IsNamed) (hsegment : '/' ∉ segment)
    (h : name ∈ matcher.namesIn tree directory segment) : Path.IsComponent name := by
  rcases eq_or_accepts_of_mem_namesIn h with ⟨hne, rfl⟩ | ⟨place, hplace, -⟩
  · exact ⟨hne, hsegment⟩
  · have hname := htree.isName hplace
    exact ⟨hname.1, hname.2.1⟩

theorem namesIn_dots (matcher : DirectoryMatcher) (tree : FileTree) (directory : Text)
    (h : segment = "." ∨ segment = "..") : matcher.namesIn tree directory segment = [segment] := by
  have hne : segment ≠ [] := by rcases h with rfl | rfl <;> decide
  rw [namesIn, if_neg hne, if_pos h]

theorem mem_namesIn_iff_of_absent (hne : segment ≠ []) (hdots : ¬(segment = "." ∨ segment = ".."))
    (habsent : '/' ∈ segment ∨ tree.isPresent (Path.join directory segment) = false) :
    name ∈ matcher.namesIn tree directory segment ↔
      ∃ names, tree.list directory = .ok names ∧ name ∈ names ∧
        matcher.admits tree directory name = true ∧ Glob.accepts segment name = true := by
  have hliteral :
      (!segment.contains '/' && tree.isPresent (Path.join directory segment)) = false := by
    rcases habsent with hslash | habsent
    · simp [hslash]
    · rw [habsent, Bool.and_false]
  rw [namesIn, if_neg hne, if_neg hdots, hliteral, if_neg Bool.false_ne_true]
  cases hlist : tree.list directory with
  | error error => simp
  | ok names => simp [Glob.accepts]

end DirectoryMatcher

/-! ## Paths over names -/

namespace Path

def written (absolute : Bool) (names : List Text) : Text :=
  (if absolute then ['/'] else []) ++ Text.join "/" names

variable {absolute : Bool} {names : List Text} {name : Text}

theorem isComponent_of_mem_segments (path : Text) :
    ∀ segment ∈ segments path, IsComponent segment := fun _ hsegment =>
  have ⟨hne, hslash⟩ := FileTree.isName_of_mem_steps (List.mem_append_left _ hsegment)
  ⟨hne, hslash⟩

theorem isAbsolute_of_notMem (h : '/' ∉ name) : isAbsolute name = false := by
  simpa [isAbsolute] using fun hhead => h (List.mem_of_mem_head? hhead)

theorem written_nil (absolute : Bool) : written absolute [] = if absolute then ['/'] else [] :=
  List.append_nil _

theorem getLast?_written_concat (absolute : Bool) (names : List Text) (hname : name ≠ []) :
    (written absolute (names ++ [name])).getLast? = name.getLast? := by
  have hlast : name.getLast? = some (name.getLast hname) := List.getLast?_eq_some_getLast hname
  by_cases hnil : names = []
  · simp [written, hnil, Text.join, List.getLast?_append, hlast]
  · simp [written, Text.join_concat _ hnil, List.getLast?_append,
      List.getLast?_cons_of_ne_nil hname, hlast]

theorem written_concat (hnames : ∀ name ∈ names, IsComponent name) (name : Text) :
    written absolute (names ++ [name]) = PathCompleter.extend (written absolute names) name := by
  induction names using List.reverseRecOn with
  | nil => cases absolute <;> rfl
  | append_singleton names last _ =>
      obtain ⟨hne, hslash⟩ := hnames last (by simp)
      have hlast := getLast?_written_concat absolute names hne
      have hend : (written absolute (names ++ [last])).getLast? ≠ some '/' := by
        rw [hlast]
        exact fun hend => hslash (List.mem_of_getLast? hend)
      have hpath : written absolute (names ++ [last]) ≠ [] := by
        intro hnil
        rw [hnil] at hlast
        exact hne (List.getLast?_eq_none_iff.1 hlast.symm)
      rw [PathCompleter.extend, if_neg (not_or.2 ⟨hpath, hend⟩), written,
        Text.join_concat _ (by simp), written]
      simp

theorem segments_written (hnames : ∀ name ∈ names, IsComponent name) :
    segments (written absolute names) = names := by
  induction names using List.reverseRecOn with
  | nil => cases absolute <;> rfl
  | append_singleton names name ih =>
      have hbefore : ∀ name ∈ names, IsComponent name := fun name hname =>
        hnames name (List.mem_append_left _ hname)
      obtain ⟨hne, hslash⟩ := hnames name (by simp)
      rw [written_concat hbefore, PathCompleter.extend_eq_join _ (isAbsolute_of_notMem hslash),
        segments_join hne hslash, ih hbefore]

end Path

/-! ## What a walk matches -/

theorem append_lt_append {first second : List Text} (hlength : first.length = second.length)
    (h : first < second) (rest rest' : List Text) : first ++ rest < second ++ rest' := by
  induction first generalizing second with
  | nil =>
      rw [List.length_eq_zero_iff.1 hlength.symm] at h
      exact absurd h (List.lt_irrefl [])
  | cons name first ih =>
      cases second with
      | nil => contradiction
      | cons other second =>
          rw [List.cons_append, List.cons_append, List.cons_lt_cons_iff]
          rcases List.cons_lt_cons_iff.1 h with hlt | ⟨heq, hlt⟩
          · exact .inl hlt
          · exact .inr ⟨heq, ih (Nat.succ.inj hlength) hlt⟩

namespace PathCompleter

variable {completer : PathCompleter} {absolute : Bool} {segments names : List Text}
  {segment name : Text}

def place (completer : PathCompleter) (absolute : Bool) (names : List Text) : Text :=
  let path := Path.written absolute names
  if path = [] then completer.base else Path.join completer.base path

/-- There is a name for every segment, which the segment matches in the directory before it. -/
structure IsMatch (completer : PathCompleter) (absolute : Bool) (segments names : List Text) :
    Prop where
  length_eq : names.length = segments.length
  matched : ∀ i (hname : i < names.length) (hsegment : i < segments.length),
    names[i] ∈ completer.matcher.namesIn completer.host.tree
      (completer.place absolute (names.take i)) segments[i]
  directory : ∀ i, 0 < i → i < names.length →
    completer.host.tree.isDirectory (completer.place absolute (names.take i)) = true

def leadsOn (completer : PathCompleter) (absolute : Bool) (names : List Text) : Bool :=
  names = [] || completer.host.tree.isDirectory (completer.place absolute names)

theorem isMatch_nil_iff : completer.IsMatch absolute [] names ↔ names = [] := by
  constructor
  · exact fun h => List.length_eq_zero_iff.1 h.length_eq
  · rintro rfl
    exact ⟨rfl, fun i hname => absurd hname (Nat.not_lt_zero i),
      fun i _ hname => absurd hname (Nat.not_lt_zero i)⟩

theorem isMatch_concat_iff :
    completer.IsMatch absolute (segments ++ [segment]) (names ++ [name]) ↔
      completer.IsMatch absolute segments names ∧ completer.leadsOn absolute names = true ∧
        name ∈ completer.matcher.namesIn completer.host.tree (completer.place absolute names)
          segment := by
  constructor
  · intro h
    have hlength : names.length = segments.length := by simpa using h.length_eq
    refine ⟨⟨hlength, fun i hname hsegment => ?_, fun i hpos hname => ?_⟩, ?_, ?_⟩
    · have hmatched := h.matched i (by simp; omega) (by simp; omega)
      rwa [List.getElem_append_left hname, List.getElem_append_left hsegment,
        List.take_append_of_le_length (Nat.le_of_lt hname)] at hmatched
    · have hdirectory := h.directory i hpos (by simp; omega)
      rwa [List.take_append_of_le_length (Nat.le_of_lt hname)] at hdirectory
    · rw [leadsOn, Bool.or_eq_true, decide_eq_true_eq]
      refine or_iff_not_imp_left.2 fun hne => ?_
      have hdirectory := h.directory names.length (List.length_pos_iff.2 hne) (by simp)
      rwa [List.take_left] at hdirectory
    · have hmatched := h.matched names.length (by simp) (by simp [hlength])
      rw [List.take_left, List.getElem_concat_length rfl] at hmatched
      simpa [hlength] using hmatched
  · rintro ⟨h, hleads, hname⟩
    have hlength := h.length_eq
    refine ⟨by simp [hlength], fun i hname' hsegment' => ?_, fun i hpos hname' => ?_⟩
    · by_cases hlast : i < names.length
      · rw [List.getElem_append_left hlast, List.getElem_append_left (hlength ▸ hlast),
          List.take_append_of_le_length (Nat.le_of_lt hlast)]
        exact h.matched i hlast (hlength ▸ hlast)
      · obtain rfl : i = names.length := by
          rw [List.length_append, List.length_singleton] at hname'
          omega
        rw [List.take_left, List.getElem_concat_length rfl]
        simpa [hlength] using hname
    · rw [List.length_append, List.length_singleton] at hname'
      rw [List.take_append_of_le_length (Nat.le_of_lt_succ hname')]
      by_cases hlast : i < names.length
      · exact h.directory i hpos hlast
      · obtain rfl : i = names.length := by omega
        rw [List.take_length]
        rw [leadsOn, Bool.or_eq_true, decide_eq_true_eq] at hleads
        exact hleads.resolve_left (List.length_pos_iff.1 hpos)

theorem directory?_written (completer : PathCompleter) (absolute : Bool)
    (hnames : ∀ name ∈ names, Path.IsComponent name) :
    completer.directory? (Path.written absolute names) =
      if completer.leadsOn absolute names then some (completer.place absolute names)
      else none := by
  by_cases hnil : names = []
  · subst hnil
    rw [directory?, leadsOn, place, Path.written_nil]
    cases absolute with
    | false => rfl
    | true =>
        have hroot : Path.join completer.base ['/'] = ['/'] := rfl
        simp [hroot, FileTree.isDirectory_root]
  · have hpath : Path.written absolute names ≠ [] := fun hpath =>
      hnil ((Path.segments_written hnames).symm.trans (congrArg Path.segments hpath))
    simp [directory?, leadsOn, place, hpath, hnil]

def following (completer : PathCompleter) (absolute : Bool) (segment : Text)
    (names : List Text) : List (List Text) :=
  if completer.leadsOn absolute names then
    (completer.matcher.namesIn completer.host.tree (completer.place absolute names) segment).map
      (names ++ [·])
  else []

theorem mem_following {next : List Text} :
    next ∈ completer.following absolute segment names ↔
      ∃ name, completer.leadsOn absolute names = true ∧
        name ∈ completer.matcher.namesIn completer.host.tree (completer.place absolute names)
          segment ∧ next = names ++ [name] := by
  unfold following
  split
  · rename_i hleads
    simp [hleads, eq_comm]
  · rename_i hleads
    simp [hleads]

theorem step_written (hnames : ∀ name ∈ names, Path.IsComponent name) (segment : Text) :
    completer.step segment (Path.written absolute names) =
      (completer.following absolute segment names).map (Path.written absolute) := by
  rw [step, directory?_written completer absolute hnames, following]
  split
  · rename_i hdirectory
    split at hdirectory
    · contradiction
    · rename_i hleads
      rw [if_neg hleads, List.map_nil]
  · rename_i directory hdirectory
    obtain ⟨hleads, hplace⟩ := Option.ite_none_right_eq_some.1 hdirectory
    rw [if_pos hleads, ← Option.some.inj hplace, List.map_map]
    exact List.map_congr_left fun name _ => (Path.written_concat hnames name).symm

theorem pairwise_following (completer : PathCompleter) (absolute : Bool) (segment : Text)
    (names : List Text) : (completer.following absolute segment names).Pairwise (· < ·) := by
  unfold following
  split
  · rw [List.pairwise_map]
    refine (DirectoryMatcher.pairwise_namesIn _ _ _ segment).imp fun hlt => ?_
    exact List.append_left_lt (List.cons_lt_cons_iff.2 (.inl hlt))
  · exact .nil

theorem IsMatch.isComponent (h : completer.IsMatch absolute segments names)
    (htree : completer.host.tree.IsNamed) (hsegments : ∀ segment ∈ segments, '/' ∉ segment) :
    ∀ name ∈ names, Path.IsComponent name := by
  intro name hname
  obtain ⟨i, hi, rfl⟩ := List.getElem_of_mem hname
  have hsegment : i < segments.length := h.length_eq ▸ hi
  exact DirectoryMatcher.isComponent_of_mem_namesIn htree
    (hsegments _ (List.getElem_mem hsegment)) (h.matched i hi hsegment)

theorem walk_concat (completer : PathCompleter) (segments : List Text) (segment : Text)
    (found : List Text) :
    completer.walk (segments ++ [segment]) found =
      (completer.walk segments found).flatMap (completer.step segment) := by
  rw [walk, List.foldl_append]
  rfl

theorem exists_rows_of_walk (completer : PathCompleter) (htree : completer.host.tree.IsNamed)
    (absolute : Bool) (segments : List Text) (hsegments : ∀ segment ∈ segments, '/' ∉ segment) :
    ∃ rows : List (List Text),
      completer.walk segments [Path.written absolute []] = rows.map (Path.written absolute) ∧
        rows.Pairwise (· < ·) ∧
          ∀ names, names ∈ rows ↔ completer.IsMatch absolute segments names := by
  induction segments using List.reverseRecOn with
  | nil =>
      refine ⟨[[]], rfl, List.pairwise_singleton _ _, fun names => ?_⟩
      rw [List.mem_singleton, isMatch_nil_iff]
  | append_singleton segments segment ih =>
      have hbefore : ∀ segment ∈ segments, '/' ∉ segment := fun segment hsegment =>
        hsegments segment (List.mem_append_left _ hsegment)
      obtain ⟨rows, hwalk, hpairwise, hmem⟩ := ih hbefore
      refine ⟨rows.flatMap (completer.following absolute segment), ?_, ?_, fun next => ?_⟩
      · have hstep : ∀ names ∈ rows, completer.step segment (Path.written absolute names) =
            (completer.following absolute segment names).map (Path.written absolute) := by
          intro names hnames
          exact step_written (((hmem names).1 hnames).isComponent htree hbefore) segment
        rw [walk_concat, hwalk, List.flatMap_map, List.map_flatMap]
        exact List.flatMap_congr hstep
      · rw [List.pairwise_flatMap]
        refine ⟨fun names _ => completer.pairwise_following absolute segment names, ?_⟩
        refine hpairwise.imp_of_mem fun {first second} hfirst hsecond hlt => ?_
        have hlength : first.length = second.length :=
          ((hmem first).1 hfirst).length_eq.trans ((hmem second).1 hsecond).length_eq.symm
        intro next hnext next' hnext'
        obtain ⟨name, -, -, rfl⟩ := mem_following.1 hnext
        obtain ⟨name', -, -, rfl⟩ := mem_following.1 hnext'
        exact append_lt_append hlength hlt [name] [name']
      · rw [List.mem_flatMap]
        constructor
        · rintro ⟨names, hnames, hnext⟩
          obtain ⟨name, hleads, hname, rfl⟩ := mem_following.1 hnext
          exact isMatch_concat_iff.2 ⟨(hmem names).1 hnames, hleads, hname⟩
        · intro hmatch
          have hne : next ≠ [] := by
            rintro rfl
            simpa using hmatch.length_eq
          rw [← List.dropLast_concat_getLast hne] at hmatch ⊢
          obtain ⟨hnames, hleads, hname⟩ := isMatch_concat_iff.1 hmatch
          exact ⟨_, (hmem _).2 hnames, mem_following.2 ⟨_, hleads, hname, rfl⟩⟩

def isFromRoot (completer : PathCompleter) (pattern : Text) : Bool :=
  Path.isAbsolute (completer.expanded pattern)

def segmentsOf (completer : PathCompleter) (pattern : Text) : List Text :=
  Path.segments (completer.expanded pattern)

theorem slash_notMem_segmentsOf (completer : PathCompleter) (pattern : Text) :
    ∀ segment ∈ completer.segmentsOf pattern, '/' ∉ segment := fun segment hsegment =>
  (Path.isComponent_of_mem_segments _ segment hsegment).slash_notMem

theorem matchSegments?_eq_none_iff {pattern : Text} :
    completer.matchSegments? pattern = none ↔ completer.segmentsOf pattern = [] := by
  simp only [matchSegments?, segmentsOf]
  split
  · simpa
  · rename_i hne
    simpa using fun hnil => hne hnil

theorem exists_rows_of_matchSegments? (htree : completer.host.tree.IsNamed) {pattern : Text}
    (h : completer.segmentsOf pattern ≠ []) :
    ∃ rows : List (List Text),
      completer.matchSegments? pattern =
          some (rows.map (Path.written (completer.isFromRoot pattern))) ∧
        rows.Pairwise (· < ·) ∧
          ∀ names, names ∈ rows ↔
            completer.IsMatch (completer.isFromRoot pattern) (completer.segmentsOf pattern)
              names := by
  obtain ⟨rows, hwalk, hpairwise, hmem⟩ := completer.exists_rows_of_walk htree
    (completer.isFromRoot pattern) _ (completer.slash_notMem_segmentsOf pattern)
  refine ⟨rows, ?_, hpairwise, hmem⟩
  rw [← hwalk, Path.written_nil]
  simp only [matchSegments?]
  split
  · contradiction
  · rfl

/-- A pattern without segments is none, and any other lists the paths that have a name for
each of its segments, which the segment matches in the directory before it.  They are in
order of their names, and tildes are put back afterwards. -/
theorem matchPattern?_product {completer : PathCompleter} (htree : completer.host.tree.IsNamed)
    (pattern : Text) :
    (completer.matchPattern? pattern = none ↔ completer.segmentsOf pattern = []) ∧
    (completer.segmentsOf pattern ≠ [] →
      ∃ rows : List (List Text),
        let paths := rows.map (Path.written (completer.isFromRoot pattern))
        completer.matchSegments? pattern = some paths ∧
        completer.matchPattern? pattern =
          some (paths.map fun path => (completer.collapseTilde? path).getD path) ∧
        rows.Pairwise (· < ·) ∧ paths.Nodup ∧
        (∀ names, names ∈ rows ↔
          completer.IsMatch (completer.isFromRoot pattern) (completer.segmentsOf pattern) names) ∧
        ∀ names ∈ rows, names.length = (completer.segmentsOf pattern).length ∧
          Path.segments (Path.written (completer.isFromRoot pattern) names) = names ∧
          ∀ (i : Nat) (segment : Text), segment = "." ∨ segment = ".." →
            (completer.segmentsOf pattern)[i]? = some segment → names[i]? = some segment) := by
  constructor
  · rw [matchPattern?, Option.map_eq_none_iff, matchSegments?_eq_none_iff]
  · intro hne
    obtain ⟨rows, hmatched, hpairwise, hmem⟩ := exists_rows_of_matchSegments? htree hne
    have hsegments : ∀ names ∈ rows,
        Path.segments (Path.written (completer.isFromRoot pattern) names) = names :=
      fun names hnames => Path.segments_written
        (((hmem names).1 hnames).isComponent htree (completer.slash_notMem_segmentsOf pattern))
    refine ⟨rows, hmatched, ?_, hpairwise, ?_, hmem, fun names hnames => ?_⟩
    · rw [matchPattern?, hmatched]
      rfl
    · have hnodup : rows.Nodup := by
        apply hpairwise.imp
        intro first second hlt heq
        subst heq
        exact List.lt_irrefl first hlt
      refine hnodup.map_on fun first hfirst second hsecond heq => ?_
      rw [← hsegments first hfirst, heq, hsegments second hsecond]
    · have hmatch := (hmem names).1 hnames
      refine ⟨hmatch.length_eq, hsegments names hnames, fun i segment hdots hsegment => ?_⟩
      obtain ⟨hi, rfl⟩ := List.getElem?_eq_some_iff.1 hsegment
      have hname := hmatch.matched i (hmatch.length_eq ▸ hi) hi
      rw [DirectoryMatcher.namesIn_dots _ _ _ hdots] at hname
      rw [← List.mem_singleton.1 hname, List.getElem?_eq_getElem]

end PathCompleter

namespace ProductExample

def tree : FileTree :=
  ⟨[(["a"], .directory), (["a", "f"], .file [] false), (["b"], .file [] false),
    (["c"], .link "a")]⟩

def completer : PathCompleter := ⟨{ tree, homes := [] }, {}, "/", none⟩

end ProductExample

theorem PathCompleter.matchPattern?_product_link :
    ProductExample.tree.IsNamed ∧
      ProductExample.completer.matchSegments? "*/./f" = some [("a/./f" : Text), "c/./f"] ∧
      ProductExample.completer.IsMatch false ["*", ".", "f"] ["c", ".", "f"] := by
  have htree : ProductExample.tree.IsNamed := by
    simp only [FileTree.IsNamed, FileTree.IsName]
    decide +kernel
  have hpaths : ProductExample.completer.matchSegments? "*/./f" =
      some [("a/./f" : Text), "c/./f"] := by cbv
  obtain ⟨-, hproduct⟩ :=
    @PathCompleter.matchPattern?_product ProductExample.completer htree "*/./f"
  obtain ⟨rows, hrows, -, -, -, hmem, hnames⟩ := hproduct (by decide +kernel)
  refine ⟨htree, hpaths, ?_⟩
  have hlink : ("c/./f" : Text) ∈ rows.map (Path.written false) := by
    have hwritten : [("a/./f" : Text), "c/./f"] = rows.map (Path.written false) :=
      Option.some.inj (hpaths.symm.trans hrows)
    rw [← hwritten]
    exact List.mem_cons_of_mem _ List.mem_cons_self
  obtain ⟨names, hrow, hwritten⟩ := List.mem_map.1 hlink
  obtain rfl : names = ["c", ".", "f"] := by
    rw [← (hnames names hrow).2.1]
    exact (congrArg Path.segments hwritten).trans (by decide +kernel)
  exact (hmem _).1 hrow

end CommandFrame

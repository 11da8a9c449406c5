import Mathlib
import CommandFrame.Proofs.FileTree.Slashes
import CommandFrame.Session

/-!
# Offered paths open what was matched

A path that is offered for a pattern is read with its tilde expanded, as it was
written with its tilde collapsed, so it leads where the matched path leads.  Only a
slash at the end of the home directory is lost on the way.
-/

namespace CommandFrame

theorem Text.dropStart?_eq_some {start text rest : Text} :
    dropStart? start text = some rest ↔ text = start ++ rest := by
  induction start generalizing text with
  | nil => simp [dropStart?, eq_comm]
  | cons s start ih =>
      cases text with
      | nil => simp [dropStart?]
      | cons c text =>
          by_cases hc : s = c
          · simp [dropStart?, hc, ih]
          · simp [dropStart?, hc, Ne.symm hc]

namespace Path

/-! ## Tildes -/

/-- What may follow a tilde: nothing, or a slash. -/
def FollowsTilde (rest : Text) : Prop := ∀ c, rest.head? = some c → c = '/'

theorem followsTilde_nil : FollowsTilde [] := fun _ h => absurd h.symm (Option.some_ne_none _)

theorem followsTilde_slash (rest : Text) : FollowsTilde ('/' :: rest) :=
  fun _ h => (Option.some.inj h).symm

theorem exists_trimSlashes_append (path : Text) :
    ∃ slashes, path = trimSlashes path ++ slashes ∧ ∀ c ∈ slashes, c = '/' := by
  refine ⟨(path.reverse.takeWhile (· = '/')).reverse, ?_, fun c hc => ?_⟩
  · rw [trimSlashes, ← List.reverse_append, List.takeWhile_append_dropWhile, List.reverse_reverse]
  · simpa using List.all_eq_true.1 List.all_takeWhile c (List.mem_reverse.1 hc)

theorem getLast?_trimSlashes (path : Text) : (trimSlashes path).getLast? ≠ some '/' := by
  rw [trimSlashes, List.getLast?_reverse]
  intro hhead
  simpa [hhead] using List.head?_dropWhile_not (· = '/') path.reverse

theorem expandTilde?_of_head? (homes : Text → Option Text) (home : Option Text) {path : Text}
    (h : path.head? ≠ some '~') : expandTilde? homes home path = none := by
  unfold expandTilde?
  split
  · exact absurd rfl h
  · rfl

theorem expandTilde?_cons (homes : Text → Option Text) (home : Option Text) {rest : Text}
    (h : FollowsTilde rest) : expandTilde? homes home ('~' :: rest) = home.map (· ++ rest) := by
  cases rest with
  | nil => rfl
  | cons c rest =>
      obtain rfl : c = '/' := h c rfl
      rfl

theorem exists_of_collapseTilde? {home : Option Text} {path short : Text}
    (h : collapseTilde? home path = some short) :
    ∃ directory rest, home = some directory ∧ trimSlashes directory ≠ [] ∧ FollowsTilde rest ∧
      path = trimSlashes directory ++ rest ∧ short = '~' :: rest := by
  cases home with
  | none => contradiction
  | some directory =>
      unfold collapseTilde? at h
      split at h
      · contradiction
      · contradiction
      · rename_i trimmed hne htrimmed
        obtain rfl : trimSlashes directory = trimmed := Option.some.inj htrimmed
        have hne : trimSlashes directory ≠ [] := fun hnil => hne (by rw [hnil])
        split at h
        · rename_i hdrop
          cases h
          exact ⟨directory, [], rfl, hne, followsTilde_nil,
            Text.dropStart?_eq_some.1 hdrop, rfl⟩
        · rename_i rest hdrop
          cases h
          exact ⟨directory, '/' :: rest, rfl, hne, followsTilde_slash rest,
            Text.dropStart?_eq_some.1 hdrop, rfl⟩
        · contradiction

theorem collapseTilde?_append {directory rest : Text} (h : trimSlashes directory ≠ [])
    (hrest : FollowsTilde rest) :
    collapseTilde? (some directory) (trimSlashes directory ++ rest) = some ('~' :: rest) := by
  have hdrop :
      Text.dropStart? (trimSlashes directory) (trimSlashes directory ++ rest) = some rest :=
    Text.dropStart?_eq_some.2 rfl
  unfold collapseTilde?
  split
  · contradiction
  · rename_i hnil
    exact absurd (Option.some.inj hnil) h
  · rename_i trimmed hne htrimmed
    obtain rfl : trimSlashes directory = trimmed := Option.some.inj htrimmed
    rw [hdrop]
    cases rest with
    | nil => rfl
    | cons c rest =>
        obtain rfl : c = '/' := hrest c rfl
        rfl

theorem collapseTilde?_trimSlashes {directory : Text} (h : trimSlashes directory ≠ []) :
    collapseTilde? (some directory) (trimSlashes directory) = some ['~'] := by
  simpa using collapseTilde?_append h followsTilde_nil

end Path

namespace FileTree

theorem seek_join_append_slash (tree : FileTree) {home : Text} (h : Path.trimSlashes home ≠ [])
    (directory rest : Text) :
    tree.seek (Path.join directory (home ++ '/' :: rest)) =
      tree.seek (Path.join directory (Path.trimSlashes home ++ '/' :: rest)) := by
  obtain ⟨slashes, hhome, hslashes⟩ := Path.exists_trimSlashes_append home
  have hjoin : Path.join directory (home ++ '/' :: rest) =
      Path.join directory (Path.trimSlashes home) ++ slashes ++ '/' :: rest := by
    rw [← Path.join_append h, ← hhome, ← Path.join_append (by rw [hhome]; simp [h])]
  rw [hjoin, Path.join_append h, seek, seek, follow_append_slashes _ _ _ hslashes]

theorem seek_join_trimSlashes (tree : FileTree) {home : Text} (h : Path.trimSlashes home ≠ [])
    (directory : Text) :
    tree.seek (Path.join directory home) =
      if home.getLast? = some '/' then
        asDirectory (tree.seek (Path.join directory (Path.trimSlashes home)))
      else tree.seek (Path.join directory (Path.trimSlashes home)) := by
  obtain ⟨slashes, hhome, hslashes⟩ := Path.exists_trimSlashes_append home
  by_cases hnone : slashes = []
  · rw [hnone, List.append_nil] at hhome
    rw [← hhome, if_neg (hhome ▸ Path.getLast?_trimSlashes home)]
  · have hend : (Path.join directory (Path.trimSlashes home)).getLast? ≠ some '/' := by
      rw [Path.getLast?_join h]
      exact Path.getLast?_trimSlashes home
    have hlast : home.getLast? = some '/' := by
      rw [hhome, List.getLast?_append, List.getLast?_eq_some_getLast hnone,
        hslashes _ (List.getLast_mem hnone)]
      rfl
    have hjoin :
        Path.join directory home = Path.join directory (Path.trimSlashes home) ++ slashes := by
      rw [← Path.join_append h, ← hhome]
    rw [if_pos hlast, hjoin,
      seek_append_slashes _ (Path.join_ne_nil h directory) hend hnone hslashes]

end FileTree

/-! ## What a walk of segments matches -/

theorem Path.join_join {first second : Text} (hsecond : second ≠ []) (directory : Text)
    (h : isAbsolute first = false) :
    join directory (join second first) = join (join directory second) first := by
  have hlast := getLast?_join hsecond directory
  have hne := join_ne_nil hsecond directory
  rw [join.eq_def second, join.eq_def (join directory second), hlast]
  simp only [h, hsecond, hne, false_or]
  split
  · contradiction
  · split
    · exact join_append hsecond directory first
    · exact join_append hsecond directory ('/' :: first)

theorem FileTree.eq_names_of_list {tree : FileTree} {directory : Text} {place : Location}
    {names : List Text} (hdirectory : tree.seek directory = .ok (place, .directory))
    (h : tree.list directory = .ok names) : names = tree.names place := by
  unfold list at h
  cases hfind : tree.find directory with
  | error error =>
      rw [hfind] at h
      contradiction
  | ok found =>
      obtain rfl : found = (place, .directory) :=
        Except.ok.inj ((seek_of_find hfind).symm.trans hdirectory)
      rw [hfind] at h
      exact (Except.ok.inj h).symm

theorem DirectoryMatcher.head?_of_mem_namesIn {matcher : DirectoryMatcher} {tree : FileTree}
    {directory pattern name : Text} {place : Location}
    (hdirectory : tree.seek directory = .ok (place, .directory))
    (hnames : ∀ name ∈ tree.names place, name.head? ≠ some '~')
    (h : name ∈ matcher.namesIn tree directory pattern) : name.head? ≠ some '~' := by
  unfold namesIn at h
  split at h
  · contradiction
  · rename_i hne
    split at h
    · rename_i hdots
      obtain rfl : name = pattern := List.mem_singleton.1 h
      rcases hdots with rfl | rfl <;> decide
    · rename_i hdots
      split at h
      · rename_i hpresent
        obtain rfl : name = pattern := List.mem_singleton.1 h
        rw [Bool.and_eq_true, Bool.not_eq_true', ← Bool.not_eq_true, List.contains_iff_mem]
          at hpresent
        have hname : FileTree.IsName name := ⟨hne, hpresent.1, not_or.1 hdots⟩
        exact hnames name (FileTree.mem_names_of_isPresent hdirectory hname hpresent.2)
      · split at h
        · contradiction
        · rename_i names hlist
          have hmem : name ∈ names := (List.mem_filter.1 h).1
          exact hnames name (FileTree.eq_names_of_list hdirectory hlist ▸ hmem)

namespace PathCompleter

variable {completer : PathCompleter} {segment found next : Text}

theorem forall_mem_walk {P : Text → Prop} {start segments : List Text}
    (hstart : ∀ found ∈ start, P found)
    (hstep : ∀ segment found next, P found → next ∈ completer.step segment found → P next) :
    ∀ found ∈ completer.walk segments start, P found := by
  induction segments generalizing start with
  | nil => exact hstart
  | cons segment segments ih =>
      refine ih fun next hnext => ?_
      obtain ⟨found, hfound, hnext⟩ := List.mem_flatMap.1 hnext
      exact hstep segment found next (hstart found hfound) hnext

theorem exists_of_mem_step (h : next ∈ completer.step segment found) :
    ∃ directory name, completer.directory? found = some directory ∧
      name ∈ completer.matcher.namesIn completer.host.tree directory segment ∧
      next = extend found name := by
  unfold step at h
  split at h
  · contradiction
  · rename_i directory hdirectory
    obtain ⟨name, hname, rfl⟩ := List.mem_map.1 h
    exact ⟨directory, name, hdirectory, hname, rfl⟩

theorem head?_extend (hfound : found ≠ []) (name : Text) :
    (extend found name).head? = found.head? := by
  cases found with
  | nil => contradiction
  | cons c found =>
      unfold extend
      split <;> rfl

theorem extend_eq_join (found : Text) {name : Text} (h : Path.isAbsolute name = false) :
    extend found name = Path.join found name := by
  simp [extend, Path.join, h]

theorem join_extend {directory name : Text} (h : completer.directory? found = some directory)
    (hname : Path.isAbsolute name = false) :
    Path.join completer.base (extend found name) = Path.join directory name := by
  unfold directory? at h
  split at h
  · rename_i hfound
    cases h
    rw [hfound]
    rfl
  · rename_i hfound
    obtain ⟨-, hsome⟩ := Option.ite_none_right_eq_some.1 h
    obtain rfl := Option.some.inj hsome
    rw [extend_eq_join found hname, Path.join_join hfound _ hname]

theorem head?_of_mem_step {place : Location}
    (hbase : completer.host.tree.seek completer.base = .ok (place, .directory))
    (hnames : ∀ name ∈ completer.host.tree.names place, name.head? ≠ some '~')
    (hfound : found.head? ≠ some '~') (h : next ∈ completer.step segment found) :
    next.head? ≠ some '~' := by
  obtain ⟨directory, name, hdirectory, hname, rfl⟩ := exists_of_mem_step h
  by_cases hnil : found = []
  · subst hnil
    cases hdirectory
    exact DirectoryMatcher.head?_of_mem_namesIn hbase hnames hname
  · rwa [head?_extend hnil]

theorem exists_step_of_matchSegments? {place : Location} {pattern : Text} {matched : List Text}
    (hbase : completer.host.tree.seek completer.base = .ok (place, .directory))
    (hnames : ∀ name ∈ completer.host.tree.names place, name.head? ≠ some '~')
    (h : completer.matchSegments? pattern = some matched) :
    ∀ found ∈ matched, found.head? ≠ some '~' ∧
      ∃ before segment, found ∈ completer.step segment before := by
  have hstart : ∀ start ∈ [if Path.isAbsolute (completer.expanded pattern) then ['/'] else []],
      List.head? start ≠ some '~' := by
    intro start hstart
    rw [List.mem_singleton.1 hstart]
    split <;> decide
  simp only [matchSegments?] at h
  cases hsegments : Path.segments (completer.expanded pattern) with
  | nil =>
      rw [hsegments] at h
      contradiction
  | cons first rest =>
      rw [hsegments] at h
      cases h
      intro found hfound
      refine ⟨forall_mem_walk hstart (fun _ _ _ => head?_of_mem_step hbase hnames) found hfound, ?_⟩
      rw [← List.dropLast_concat_getLast (List.cons_ne_nil first rest), walk, List.foldl_append]
        at hfound
      obtain ⟨before, -, hstep⟩ := List.mem_flatMap.1 hfound
      exact ⟨before, _, hstep⟩

end PathCompleter

namespace Session

/-! ## Opening what is offered -/

/-- The path is the home directory without the slashes that it is written with, and what
is there is no directory. -/
def IsFalseHome (session : Session) (tree : FileTree) (found : Text) : Prop :=
  ∃ home location node, session.home = some home ∧ home.getLast? = some '/' ∧
    Path.trimSlashes home = found ∧ found ≠ [] ∧
    tree.seek (Path.join session.cwd found) = .ok (location, node) ∧ node ≠ .directory

/-- A matched path and what is offered for it. -/
structure Offers (session : Session) (host : Host) (found path : Text) : Prop where
  entry : ∃ before directory segment name,
    (session.pathCompleter host).directory? before = some directory ∧
      name ∈ (session.pathCompleter host).matcher.namesIn host.tree directory segment ∧
      found = PathCompleter.extend before name ∧
      (Path.isAbsolute name = false → Path.join session.cwd found = Path.join directory name)
  path_eq : path = ((session.pathCompleter host).collapseTilde? found).getD found
  seek_eq : ¬session.IsFalseHome host.tree found →
    host.tree.seek (session.filePath host path) = host.tree.seek (Path.join session.cwd found)
  find_eq : ¬session.IsFalseHome host.tree found →
    Text.byteLength (session.filePath host path) ≤ FileTree.maxPath →
      host.tree.find (session.filePath host path) =
        host.tree.seek (Path.join session.cwd found)
  seek_falseHome : session.IsFalseHome host.tree found →
    host.tree.seek (session.filePath host path) = .error .notDirectory

variable {session : Session} {host : Host} {found : Text}

theorem filePath_of_head? (hhead : found.head? ≠ some '~') :
    session.filePath host found = Path.join session.cwd found := by
  have hexpand : (session.pathCompleter host).expandTilde? found = none :=
    Path.expandTilde?_of_head? _ _ hhead
  rw [filePath, PathCompleter.expanded, hexpand, Option.getD_none]

theorem filePath_tilde {home rest : Text} (hhome : session.home = some home)
    (hrest : Path.FollowsTilde rest) :
    session.filePath host ('~' :: rest) = Path.join session.cwd (home ++ rest) := by
  have hexpand : (session.pathCompleter host).expandTilde? ('~' :: rest) = some (home ++ rest) :=
    (Path.expandTilde?_cons _ _ hrest).trans (congrArg (Option.map (· ++ rest)) hhome)
  rw [filePath, PathCompleter.expanded, hexpand, Option.getD_some]

theorem seek_filePath_collapsed (hhead : found.head? ≠ some '~')
    (htrue : ¬session.IsFalseHome host.tree found) :
    host.tree.seek (session.filePath host
        (((session.pathCompleter host).collapseTilde? found).getD found)) =
      host.tree.seek (Path.join session.cwd found) := by
  cases hcollapse : (session.pathCompleter host).collapseTilde? found with
  | none => rw [Option.getD_none, filePath_of_head? hhead]
  | some short =>
      obtain ⟨home, rest, hhome, hne, hrest, rfl, rfl⟩ := Path.exists_of_collapseTilde? hcollapse
      change session.home = some home at hhome
      rw [Option.getD_some, filePath_tilde hhome hrest]
      cases rest with
      | nil =>
          rw [List.append_nil] at htrue ⊢
          rw [List.append_nil, FileTree.seek_join_trimSlashes _ hne]
          split
          · rename_i hslash
            refine FileTree.asDirectory_eq_self_iff.2 fun location node hseek => ?_
            exact Decidable.byContradiction fun hnode =>
              htrue ⟨home, location, node, hhome, hslash, rfl, hne, hseek, hnode⟩
          · rfl
      | cons c rest =>
          obtain rfl : c = '/' := hrest c rfl
          exact FileTree.seek_join_append_slash _ hne _ _

theorem seek_filePath_falseHome (h : session.IsFalseHome host.tree found) :
    host.tree.seek (session.filePath host
        (((session.pathCompleter host).collapseTilde? found).getD found)) =
      .error .notDirectory := by
  obtain ⟨home, location, node, hhome, hslash, rfl, hne, hseek, hnode⟩ := h
  have hcollapse : (session.pathCompleter host).collapseTilde? (Path.trimSlashes home) =
      some ['~'] := by
    rw [PathCompleter.collapseTilde?, ← Path.collapseTilde?_trimSlashes hne, ← hhome]
    rfl
  rw [hcollapse, Option.getD_some, filePath_tilde hhome Path.followsTilde_nil, List.append_nil,
    FileTree.seek_join_trimSlashes _ hne, if_pos hslash, hseek, FileTree.asDirectory_of_ne hnode]

theorem offers_collapsed {before directory segment name : Text}
    (hdirectory : (session.pathCompleter host).directory? before = some directory)
    (hname : name ∈ (session.pathCompleter host).matcher.namesIn host.tree directory segment)
    (hhead : (PathCompleter.extend before name).head? ≠ some '~') :
    session.Offers host (PathCompleter.extend before name)
      (((session.pathCompleter host).collapseTilde? (PathCompleter.extend before name)).getD
        (PathCompleter.extend before name)) where
  entry := ⟨before, directory, segment, name, hdirectory, hname, rfl,
    PathCompleter.join_extend hdirectory⟩
  path_eq := rfl
  seek_eq := seek_filePath_collapsed hhead
  find_eq htrue hlength :=
    (FileTree.find_eq_seek hlength).trans (seek_filePath_collapsed hhead htrue)
  seek_falseHome := seek_filePath_falseHome

/-- What is offered for a pattern leads to the entry that the walk over its segments has
matched, if no name in the working directory begins with a tilde: always, except where
the home directory is written with a slash at its end and is no directory. -/
theorem offers_of_matchPattern? {here : Location} {pattern : Text} {paths : List Text}
    (hcwd : host.tree.seek session.cwd = .ok (here, .directory))
    (hnames : ∀ name ∈ host.tree.names here, name.head? ≠ some '~')
    (hpaths : (session.pathCompleter host).matchPattern? pattern = some paths) :
    ∃ matched, (session.pathCompleter host).matchSegments? pattern = some matched ∧
      ∀ path ∈ paths, ∃ found ∈ matched, session.Offers host found path := by
  obtain ⟨matched, hmatched, rfl⟩ := Option.map_eq_some_iff.1 hpaths
  refine ⟨matched, hmatched, fun path hpath => ?_⟩
  obtain ⟨found, hfound, rfl⟩ := List.mem_map.1 hpath
  obtain ⟨hhead, before, segment, hstep⟩ :=
    PathCompleter.exists_step_of_matchSegments? hcwd hnames hmatched found hfound
  obtain ⟨directory, name, hdirectory, hname, rfl⟩ := PathCompleter.exists_of_mem_step hstep
  exact ⟨_, hfound, offers_collapsed hdirectory hname hhead⟩

end Session

namespace HomeExample

def tree : FileTree := ⟨[(["h"], .directory), (["h", "f"], .file [] false)]⟩

def host : Host := { tree, homes := [] }

def session (home : Text) : Session := ⟨{}, "/h", .new 0, .empty, some home⟩

end HomeExample

theorem offers_of_matchPattern?_below_home :
    ∃ matched, ((HomeExample.session "/h/").pathCompleter HomeExample.host).matchSegments? "~/f" =
        some matched ∧
      ∀ path ∈ [("~/f" : Text)], ∃ found ∈ matched,
        (HomeExample.session "/h/").Offers HomeExample.host found path := by
  have hcwd : HomeExample.tree.seek "/h" = .ok (["h"], .directory) := by cbv
  have hnames : ∀ name ∈ HomeExample.tree.names ["h"], name.head? ≠ some '~' := by decide +kernel
  have hpaths : ((HomeExample.session "/h/").pathCompleter HomeExample.host).matchPattern? "~/f" =
      some [("~/f" : Text)] := by cbv
  exact Session.offers_of_matchPattern? hcwd hnames hpaths

/-- The home directory is written as a directory, but is a file: the file is matched and
offered as a tilde, which then leads nowhere. -/
theorem seek_ne_of_home_file :
    Path.isAbsolute (HomeExample.session "/h/f/").cwd = true ∧
      HomeExample.tree.seek (HomeExample.session "/h/f/").cwd = .ok (["h"], .directory) ∧
      (∀ name ∈ HomeExample.tree.names ["h"], name.head? ≠ some '~') ∧
      ((HomeExample.session "/h/f/").pathCompleter HomeExample.host).matchSegments? "/h/f" =
        some [("/h/f" : Text)] ∧
      ((HomeExample.session "/h/f/").pathCompleter HomeExample.host).matchPattern? "/h/f" =
        some [("~" : Text)] ∧
      HomeExample.tree.seek (Path.join (HomeExample.session "/h/f/").cwd "/h/f") =
        .ok (["h", "f"], .file [] false) ∧
      HomeExample.tree.seek ((HomeExample.session "/h/f/").filePath HomeExample.host "~") =
        .error .notDirectory := by
  refine ⟨by cbv, by cbv, by decide +kernel, by cbv, by cbv, by cbv, by cbv⟩

end CommandFrame

import CommandFrame.Proofs.Path.Prefix

/-!
# Entries that are offered for the start of a name

For the start of a name the entries of the base directory are offered that the start with
a star behind it accepts, or the one entry that has the start with the star as its name.
So an entry that begins with the start can be missed, if characters of the start are
special.
-/

namespace CommandFrame

open Glob (HasLoneStars)

theorem FileTree.isName_append_star {typed : Text} (h : '/' ∉ typed) : IsName (typed ++ ['*']) := by
  refine ⟨by simp, by simp [h], ?_, ?_⟩
  · exact fun heq => absurd (congrArg List.getLast? heq) (by simp)
  · exact fun heq => absurd (congrArg List.getLast? heq) (by simp)

namespace DirectoryMatcher

/-- A name that begins with what is typed and is not to be hidden. -/
structure Shows (matcher : DirectoryMatcher) (tree : FileTree) (directory typed name : Text) :
    Prop where
  starts : typed <+: name
  admitted : matcher.admits tree directory name = true
  undotted : name.head? = some '.' → typed ≠ []

variable {matcher : DirectoryMatcher} {tree : FileTree} {directory typed name : Text}
  {place : Location}

theorem mem_namesIn_star_iff (hdirectory : tree.find directory = .ok (place, .directory))
    (hslash : '/' ∉ typed) (hname : name ∈ tree.names place)
    (hadmits : matcher.admits tree directory name = true) :
    name ∈ matcher.namesIn tree directory (typed ++ ['*']) ↔
      if tree.isPresent (Path.join directory (typed ++ ['*'])) then name = typed ++ ['*']
      else Glob.accepts (typed ++ ['*']) name = true := by
  have hlist : tree.list directory = .ok (tree.names place) := by
    rw [FileTree.list, hdirectory]
    rfl
  obtain ⟨hne, -, hdots⟩ := FileTree.isName_append_star hslash
  split
  · rename_i hpresent
    have hnames : matcher.namesIn tree directory (typed ++ ['*']) = [typed ++ ['*']] := by
      rw [namesIn, if_neg hne, if_neg (not_or.2 hdots), if_pos]
      simp [hpresent, hslash]
    rw [hnames, List.mem_singleton]
  · rename_i hpresent
    have habsent := Bool.eq_false_of_not_eq_true hpresent
    rw [mem_namesIn_iff_of_absent hne (not_or.2 hdots) (.inr habsent), hlist]
    simp [hname, hadmits]

end DirectoryMatcher

namespace PathCompleter

variable {completer : PathCompleter} {typed name : Text} {place : Location}

theorem matchStart?_of_name (htree : completer.host.tree.IsNamed)
    (hhome : ∀ home, completer.home = some home → Path.isAbsolute home = true)
    (hslash : '/' ∉ typed) (htilde : typed.head? ≠ some '~') :
    completer.matchStart? typed =
      some (completer.matcher.namesIn completer.host.tree completer.base (typed ++ ['*'])) := by
  have hslash' : '/' ∉ typed ++ ['*'] := by simp [hslash]
  have htilde' : (typed ++ ['*']).head? ≠ some '~' := by
    cases typed with
    | nil => decide
    | cons c typed => exact htilde
  have hexpanded : completer.expanded (typed ++ ['*']) = typed ++ ['*'] := by
    rw [expanded, expandTilde?, Path.expandTilde?_of_head? _ _ htilde', Option.getD_none]
  have hstep : completer.step (typed ++ ['*']) [] =
      completer.matcher.namesIn completer.host.tree completer.base (typed ++ ['*']) := by
    rw [step, directory?, if_pos rfl]
    exact List.map_id' _
  have hmatched : completer.matchSegments? (typed ++ ['*']) =
      some (completer.matcher.namesIn completer.host.tree completer.base (typed ++ ['*'])) := by
    simp only [matchSegments?, hexpanded, Path.segments_name (List.concat_ne_nil _ _) hslash',
      Path.isAbsolute_of_notMem hslash', walk, List.foldl_cons, List.foldl_nil]
    simp [hstep]
  rw [matchStart?, matchPattern?, hmatched, Option.map_some, Option.some.injEq]
  refine (List.map_congr_left fun name hname => ?_).trans (List.map_id _)
  have hrelative : '/' ∉ name :=
    (DirectoryMatcher.isComponent_of_mem_namesIn htree hslash' hname).slash_notMem
  cases hcollapse : completer.collapseTilde? name with
  | none => rfl
  | some short =>
      obtain ⟨habsolute, -⟩ := isAbsolute_of_collapseTilde? hhome hcollapse
      rw [Path.isAbsolute_of_notMem hrelative] at habsolute
      contradiction

/-- An entry that begins with the typed start and is not to be hidden is offered exactly if
the start with a star behind it accepts it; if an entry has the start with the star as its
name, only that one is.  Without a bracket the start accepts what begins with it, except
that stars which stand together accept nothing but themselves. -/
theorem offers_shown_iff {completer : PathCompleter} {typed name : Text} {place : Location}
    (htree : completer.host.tree.IsNamed)
    (hhome : ∀ home, completer.home = some home → Path.isAbsolute home = true)
    (hbase : completer.host.tree.find completer.base = .ok (place, .directory))
    (hslash : '/' ∉ typed) (htilde : typed.head? ≠ some '~')
    (hname : name ∈ completer.host.tree.names place)
    (hshows : completer.matcher.Shows completer.host.tree completer.base typed name) :
    ∃ paths, completer.matchStart? typed = some paths ∧
      (name ∈ paths ↔
        if completer.host.tree.isPresent (Path.join completer.base (typed ++ ['*'])) then
          name = typed ++ ['*']
        else Glob.accepts (typed ++ ['*']) name = true) ∧
      ('[' ∉ typed → (Glob.accepts (typed ++ ['*']) name = true ↔
        HasLoneStars (typed ++ ['*']) ∨ typed = ['*'] ∨ name = typed ++ ['*'])) ∧
      ('[' ∉ typed → HasLoneStars (typed ++ ['*']) →
        typed ++ ['*'] ∉ completer.host.tree.names place → name ∈ paths) := by
  obtain ⟨rest, rfl⟩ := hshows.starts
  have hslashName : '/' ∉ typed ++ rest := (htree.isName hname).2.1
  have hdot : typed = [] → rest.head? ≠ some '.' := by
    rintro rfl hhead
    exact hshows.undotted hhead rfl
  have hmem := DirectoryMatcher.mem_namesIn_star_iff hbase hslash hname hshows.admitted
  have haccepts : '[' ∉ typed → (Glob.accepts (typed ++ ['*']) (typed ++ rest) = true ↔
      HasLoneStars (typed ++ ['*']) ∨ typed = ['*'] ∨ typed ++ rest = typed ++ ['*']) := by
    intro hbracket
    rw [Glob.accepts_append_star_iff hbracket hslashName hdot, List.append_cancel_left_eq]
  refine ⟨_, matchStart?_of_name htree hhome hslash htilde, hmem, haccepts, ?_⟩
  intro hbracket hstars hnone
  rw [hmem, if_neg]
  · exact (haccepts hbracket).2 (.inl hstars)
  · exact fun hpresent => hnone (FileTree.mem_names_of_isPresent (FileTree.seek_of_find hbase)
      (FileTree.isName_append_star hslash) hpresent)

end PathCompleter

namespace VisibleExample

def tree : FileTree :=
  ⟨[(["a[1].txt"], .file [] false), (["b*c"], .file [] false), (["d*"], .file [] false),
    (["de"], .file [] false), (["f?g"], .file [] false)]⟩

def completer : PathCompleter := ⟨{ tree, homes := [] }, {}, "/", none⟩

theorem isNamed_tree : tree.IsNamed := by
  simp only [FileTree.IsNamed, FileTree.IsName]
  decide +kernel

theorem find_base : tree.find "/" = .ok ([], .directory) := by cbv

theorem names_base :
    tree.names [] = [("a[1].txt" : Text), "b*c", "d*", "de", "f?g"] := by cbv

end VisibleExample

theorem PathCompleter.offers_shown_iff_mark :
    ∃ paths, VisibleExample.completer.matchStart? "f?" = some paths ∧ ("f?g" : Text) ∈ paths := by
  have hname : ("f?g" : Text) ∈ VisibleExample.tree.names [] := by
    rw [VisibleExample.names_base]
    decide +kernel
  have hother : ("f?" : Text) ++ ['*'] ∉ VisibleExample.tree.names [] := by
    rw [VisibleExample.names_base]
    decide +kernel
  have hshows : VisibleExample.completer.matcher.Shows VisibleExample.tree "/" "f?" "f?g" :=
    ⟨⟨"g", rfl⟩, by decide +kernel, by decide +kernel⟩
  obtain ⟨paths, hpaths, -, -, hoffered⟩ :=
    PathCompleter.offers_shown_iff VisibleExample.isNamed_tree (fun _ hnone => by contradiction)
      VisibleExample.find_base (by decide +kernel) (by decide +kernel) hname hshows
  exact ⟨paths, hpaths, hoffered (by decide +kernel) (by decide +kernel) hother⟩

/-- A bracket is read as a set, stars that stand together as no pattern, and an entry that is
named as the pattern stands for all others. -/
theorem PathCompleter.not_always_offers_shown :
    VisibleExample.tree.find VisibleExample.completer.base = .ok ([], .directory) ∧
      VisibleExample.tree.names [] = [("a[1].txt" : Text), "b*c", "d*", "de", "f?g"] ∧
      VisibleExample.completer.matcher.Shows VisibleExample.tree "/" "a[1" "a[1].txt" ∧
      VisibleExample.completer.matchStart? "a[1" = some [] ∧
      VisibleExample.completer.matcher.Shows VisibleExample.tree "/" "b*" "b*c" ∧
      VisibleExample.completer.matchStart? "b*" = some [] ∧
      VisibleExample.completer.matcher.Shows VisibleExample.tree "/" "d" "de" ∧
      VisibleExample.completer.matchStart? "d" = some [("d*" : Text)] := by
  refine ⟨VisibleExample.find_base, VisibleExample.names_base, ⟨⟨"].txt", rfl⟩, ?_, ?_⟩, by cbv,
    ⟨⟨"c", rfl⟩, ?_, ?_⟩, by cbv, ⟨⟨"e", rfl⟩, ?_, ?_⟩, by cbv⟩
  all_goals decide +kernel

end CommandFrame

import CommandFrame.Proofs.Path.Prefix

/-!
# A tilde that is put back and expanded again

A tilde takes the place of the home directory in a path that is the directory or goes on
with a slash behind it.  Slashes at the end of the home directory do not count for that,
but they are there again when the tilde is expanded.  So the path is the same but for
slashes, and quite the same if the home directory does not end in one.
-/

namespace CommandFrame

namespace Path

variable {home path rest : Text}

theorem trimSlashes_eq_self (h : home.getLast? ≠ some '/') : trimSlashes home = home := by
  obtain ⟨slashes, hhome, hslashes⟩ := exists_trimSlashes_append home
  have hnil : slashes = [] := by
    by_contra hne
    apply h
    rw [hhome, List.getLast?_append_of_ne_nil _ hne, List.getLast?_eq_some_getLast hne,
      hslashes _ (List.getLast_mem hne)]
  simpa [hnil] using hhome.symm

theorem collapseTilde?_eq_some_iff {home : Option Text} {short : Text} :
    collapseTilde? home path = some short ↔
      ∃ directory rest, home = some directory ∧ trimSlashes directory ≠ [] ∧
        FollowsTilde rest ∧ path = trimSlashes directory ++ rest ∧ short = '~' :: rest := by
  constructor
  · exact exists_of_collapseTilde?
  · rintro ⟨directory, rest, rfl, hne, hrest, rfl, rfl⟩
    exact collapseTilde?_append hne hrest

theorem collapseTilde?_eq_none_of_ne {c : Char} (h : c ≠ '/') (home rest : Text) :
    collapseTilde? (some home) (trimSlashes home ++ c :: rest) = none := by
  apply Option.eq_none_iff_forall_ne_some.2
  intro short hshort
  obtain ⟨directory, below, hhome, -, hfollows, hpath, -⟩ := exists_of_collapseTilde? hshort
  cases hhome
  rw [← List.append_cancel_left hpath] at hfollows
  exact h (hfollows c rfl)

theorem segments_home_append (home : Text) (h : FollowsTilde rest) :
    segments (home ++ rest) = segments (trimSlashes home ++ rest) := by
  rw [segments_append_follows h, segments_append_follows h, segments_trimSlashes]

theorem isAbsolute_home_append (h : trimSlashes home ≠ []) (rest : Text) :
    isAbsolute (home ++ rest) = isAbsolute (trimSlashes home ++ rest) := by
  obtain ⟨slashes, hhome, -⟩ := exists_trimSlashes_append home
  have hhead : isAbsolute home = isAbsolute (trimSlashes home) := by
    conv_lhs => rw [hhome, isAbsolute_append h]
  have hne : home ≠ [] := by
    rintro rfl
    exact h rfl
  rw [isAbsolute_append hne, isAbsolute_append h, hhead]

end Path

namespace PathCompleter

/-- A tilde is put back in the home directory, slashes at its end left out, and below it,
and nowhere else.  Expanded again it leads through the same segments, from the root or not
as before, and gives the path itself if the home directory does not end in a slash. -/
theorem collapse_expand (completer : PathCompleter) (path : Text) :
    (∀ short, completer.collapseTilde? path = some short ↔
      ∃ home rest, completer.home = some home ∧ Path.trimSlashes home ≠ [] ∧
        Path.FollowsTilde rest ∧ path = Path.trimSlashes home ++ rest ∧ short = '~' :: rest) ∧
    (∀ home short, completer.home = some home → completer.collapseTilde? path = some short →
      ∃ full, completer.expandTilde? short = some full ∧
        Path.segments full = Path.segments path ∧
        Path.isAbsolute full = Path.isAbsolute path ∧
        (home.getLast? ≠ some '/' → full = path)) ∧
    ∀ home c rest, completer.home = some home → c ≠ '/' →
      path = Path.trimSlashes home ++ c :: rest → completer.collapseTilde? path = none := by
  refine ⟨fun short => Path.collapseTilde?_eq_some_iff, ?_, ?_⟩
  · intro home short hhome hcollapse
    obtain ⟨directory, rest, hdirectory, hne, hrest, rfl, rfl⟩ :=
      Path.exists_of_collapseTilde? hcollapse
    obtain rfl : home = directory := Option.some.inj (hhome.symm.trans hdirectory)
    have hexpand : completer.expandTilde? ('~' :: rest) = some (home ++ rest) := by
      rw [expandTilde?, Path.expandTilde?_cons _ _ hrest, hhome, Option.map_some]
    refine ⟨home ++ rest, hexpand, Path.segments_home_append home hrest,
      Path.isAbsolute_home_append hne rest, ?_⟩
    intro hlast
    rw [Path.trimSlashes_eq_self hlast]
  · rintro home c rest hhome hc rfl
    rw [collapseTilde?, hhome]
    exact Path.collapseTilde?_eq_none_of_ne hc home rest

end PathCompleter

end CommandFrame

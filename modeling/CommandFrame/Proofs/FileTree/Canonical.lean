import CommandFrame.FileTree.Walk

/-!
# Canonical locations

A walk ends at a location whose names are ordinary ones and which is below
directories all the way, whatever links and dots the path had.
-/

namespace CommandFrame

namespace Text

theorem not_mem_of_mem_splitOn {cut : Char → Bool} {text piece : Text}
    (h : piece ∈ splitOn cut text) : ∀ c ∈ piece, cut c = false := by
  induction text generalizing piece with
  | nil =>
      obtain rfl : piece = [] := by simpa [splitOn] using h
      simp
  | cons c text ih =>
      unfold splitOn at h
      split at h
      · rcases List.mem_cons.1 h with rfl | hrest
        · simp
        · exact ih hrest
      · rename_i hcut
        split at h
        · obtain rfl : piece = [c] := by simpa using h
          simpa using hcut
        · rename_i first pieces hsplit
          rw [hsplit, List.forall_mem_cons] at ih
          rcases List.mem_cons.1 h with rfl | hrest
          · exact List.forall_mem_cons.2 ⟨by simpa using hcut, ih.1⟩
          · exact ih.2 piece hrest

end Text

namespace FileTree

/-- A name that an entry of a directory can have. -/
def IsName (name : Text) : Prop := name ≠ [] ∧ '/' ∉ name ∧ name ≠ "." ∧ name ≠ ".."

/-- The directories on the way to a location are there, and no link is followed. -/
structure Leads (tree : FileTree) (location : Location) : Prop where
  names : ∀ name ∈ location, IsName name
  above : ∀ place, place <+: location → place ≠ location → tree.node? place = some .directory

structure IsCanonical (tree : FileTree) (location : Location) : Prop where
  names : ∀ name ∈ location, IsName name
  directories : ∀ place, place <+: location → tree.node? place = some .directory

/-- The locations are made of names that entries can have. -/
def IsNamed (tree : FileTree) : Prop := ∀ entry ∈ tree.nodes, ∀ name ∈ entry.1, IsName name

variable {tree : FileTree} {here location : Location}

theorem IsNamed.isName (h : tree.IsNamed) {name : Text} (hname : name ∈ tree.names location) :
    IsName name := by
  rw [names, Text.sort, List.mem_mergeSort, List.mem_eraseDups, List.mem_filterMap] at hname
  obtain ⟨entry, hentry, hlast⟩ := hname
  obtain ⟨-, hlast⟩ := Option.ite_none_right_eq_some.1 hlast
  exact h entry hentry name (List.mem_of_getLast? hlast)

theorem leads_root (tree : FileTree) : tree.Leads [] where
  names := by simp
  above place hplace hne := absurd (List.prefix_nil.1 hplace) hne

theorem Leads.dropLast (h : tree.Leads here) : tree.Leads here.dropLast where
  names name hname := h.names name (List.dropLast_subset here hname)
  above place hplace hne := by
    refine h.above place (hplace.trans (List.dropLast_prefix here)) ?_
    rintro rfl
    exact hne (hplace.eq_of_length_le (by simp))

theorem Leads.concat (h : tree.Leads here) (hhere : tree.node? here = some .directory)
    {name : Text} (hname : IsName name) : tree.Leads (here ++ [name]) where
  names other hother := by
    rcases List.mem_append.1 hother with hold | hnew
    · exact h.names other hold
    · exact List.mem_singleton.1 hnew ▸ hname
  above place hplace hne := by
    rcases List.prefix_concat_iff.1 hplace with heq | hbefore
    · exact absurd heq hne
    · by_cases hlast : place = here
      · rw [hlast, hhere]
      · exact h.above place hbefore hlast

theorem isName_of_mem_steps {path step : Text} (h : step ∈ Path.steps path) :
    step ≠ [] ∧ '/' ∉ step := by
  rcases List.mem_append.1 h with hsegment | hdot
  · obtain ⟨hpiece, hne⟩ := List.mem_filter.1 hsegment
    refine ⟨by simpa using hne, fun hslash => ?_⟩
    exact absurd (Text.not_mem_of_mem_splitOn hpiece '/' hslash) (by decide)
  · split at hdot
    · obtain rfl : step = ['.'] := by simpa using hdot
      decide
    · simp at hdot

theorem leads_of_walk {links : Nat} {steps : List Text} (hhere : tree.Leads here)
    (hsteps : ∀ step ∈ steps, step ≠ [] ∧ '/' ∉ step)
    (h : tree.walk links here steps = .ok location) : tree.Leads location := by
  fun_induction walk tree links here steps with
  | case1 =>
      cases h
      exact hhere
  | case2 => contradiction
  | case3 links here rest hdirectory ih => exact ih hhere (List.forall_mem_cons.1 hsteps).2 h
  | case4 links here rest hdirectory hdot ih =>
      exact ih hhere.dropLast (List.forall_mem_cons.1 hsteps).2 h
  | case5 => contradiction
  | case6 links here step hdirectory hdot hdots =>
      cases h
      have hstep := hsteps step List.mem_cons_self
      exact hhere.concat (Decidable.not_not.1 hdirectory) ⟨hstep.1, hstep.2, hdot, hdots⟩
  | case7 => contradiction
  | case8 => contradiction
  | case9 here step rest hdirectory hdot hdots hshort target links hlink ih =>
      refine ih ?_ ?_ h
      · split
        · exact leads_root tree
        · exact hhere
      · exact List.forall_mem_append.2
          ⟨fun step => isName_of_mem_steps, (List.forall_mem_cons.1 hsteps).2⟩
  | case10 here step rest hdirectory hdot hdots hshort node links hzero hlink hnode ih =>
      rw [List.forall_mem_cons] at hsteps
      exact ih (hhere.concat (Decidable.not_not.1 hdirectory) ⟨hsteps.1.1, hsteps.1.2, hdot, hdots⟩)
        hsteps.2 h

theorem leads_of_follow {path : Text} (h : tree.follow path = .ok location) :
    tree.Leads location := by
  unfold follow at h
  split at h
  · contradiction
  split at h
  · contradiction
  rw [ite_self] at h
  exact leads_of_walk (leads_root tree) (fun step => isName_of_mem_steps) h

theorem isCanonical_of_seek {path : Text} (h : tree.seek path = .ok (location, .directory)) :
    tree.IsCanonical location := by
  unfold seek at h
  cases hfollow : tree.follow path with
  | error error =>
      rw [hfollow] at h
      contradiction
  | ok place =>
      rw [hfollow] at h
      change tree.nodeAt place = _ at h
      unfold nodeAt at h
      split at h
      · rename_i node hnode
        cases h
        have hleads := leads_of_follow hfollow
        refine ⟨hleads.names, fun start hstart => ?_⟩
        by_cases hlast : start = location
        · rw [hlast, hnode]
        · exact hleads.above start hstart hlast
      · contradiction

end FileTree

end CommandFrame

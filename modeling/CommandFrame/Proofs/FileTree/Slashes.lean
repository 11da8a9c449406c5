import CommandFrame.Proofs.FileTree.Canonical

/-!
# Slashes in paths

What a walk makes of slashes: doubled ones mean nothing, and one at the end asks for
a directory.  A name is found in the directory that the path before it leads to.
-/

namespace CommandFrame

namespace Text

variable {cut : Char → Bool}

theorem splitOn_ne_nil (cut : Char → Bool) (text : Text) : splitOn cut text ≠ [] := by
  cases text with
  | nil => exact List.cons_ne_nil _ _
  | cons c text =>
      unfold splitOn
      split
      · exact List.cons_ne_nil _ _
      · split <;> exact List.cons_ne_nil _ _

theorem splitOn_append_cons {c : Char} (h : cut c = true) (before after : Text) :
    splitOn cut (before ++ c :: after) = splitOn cut before ++ splitOn cut after := by
  induction before with
  | nil => simp [splitOn, h]
  | cons d before ih =>
      rw [List.cons_append, splitOn, splitOn]
      split
      · rw [ih, List.cons_append]
      · obtain ⟨piece, pieces, hpieces⟩ := List.exists_cons_of_ne_nil (splitOn_ne_nil cut before)
        simp only [ih, hpieces, List.cons_append]

theorem splitOn_eq_singleton {text : Text} (h : ∀ c ∈ text, cut c = false) :
    splitOn cut text = [text] := by
  induction text with
  | nil => rfl
  | cons c text ih =>
      rw [List.forall_mem_cons] at h
      simp [splitOn, h.1, ih h.2]

end Text

namespace Path

variable {slashes : Text}

theorem segments_append_slash (before after : Text) :
    segments (before ++ '/' :: after) = segments before ++ segments after := by
  rw [segments, Text.splitOn_append_cons (by simp), List.filter_append]
  rfl

theorem segments_slashes (h : ∀ c ∈ slashes, c = '/') : segments slashes = [] := by
  induction slashes with
  | nil => rfl
  | cons c slashes ih =>
      rw [List.forall_mem_cons] at h
      have happend := segments_append_slash [] slashes
      rw [h.1]
      exact happend.trans (ih h.2)

theorem segments_append_slashes (path : Text) (h : ∀ c ∈ slashes, c = '/') :
    segments (path ++ slashes) = segments path := by
  cases slashes with
  | nil => rw [List.append_nil]
  | cons c slashes =>
      rw [List.forall_mem_cons] at h
      rw [h.1, segments_append_slash, segments_slashes h.2, List.append_nil]

theorem segments_name {name : Text} (hne : name ≠ []) (h : '/' ∉ name) :
    segments name = [name] := by
  have hcut : ∀ c ∈ name, decide (c = '/') = false := by
    intro c hc
    simpa using fun heq : c = '/' => h (heq ▸ hc)
  rw [segments, Text.splitOn_eq_singleton hcut]
  simp [hne]

theorem segments_join {name : Text} (hne : name ≠ []) (h : '/' ∉ name) (directory : Text) :
    segments (join directory name) = segments directory ++ [name] := by
  have habsolute : ¬isAbsolute name = true := by
    simpa [isAbsolute] using fun hhead => h (List.mem_of_mem_head? hhead)
  rw [join, if_neg habsolute]
  split
  · rename_i hend
    rcases hend with rfl | hend
    · exact segments_name hne h
    · obtain ⟨before, rfl⟩ := List.getLast?_eq_some_iff.1 hend
      rw [List.append_assoc, List.singleton_append, segments_append_slash, segments_append_slash,
        segments_name hne h]
      exact congrArg (· ++ [name]) (List.append_nil _).symm
  · rw [segments_append_slash, segments_name hne h]

theorem steps_of_getLast? {path : Text} (h : path.getLast? ≠ some '/') :
    steps path = segments path := by
  rw [steps, if_neg h, List.append_nil]

theorem isAbsolute_append {before : Text} (h : before ≠ []) (after : Text) :
    isAbsolute (before ++ after) = isAbsolute before := by
  cases before with
  | nil => contradiction
  | cons c before => rfl

theorem join_append {before : Text} (h : before ≠ []) (directory after : Text) :
    join directory (before ++ after) = join directory before ++ after := by
  unfold join
  rw [isAbsolute_append h]
  split
  · rfl
  · split <;> simp

theorem join_ne_nil {path : Text} (h : path ≠ []) (directory : Text) :
    join directory path ≠ [] := by
  unfold join
  split
  · exact h
  · split <;> simp [h]

theorem getLast?_join {path : Text} (h : path ≠ []) (directory : Text) :
    (join directory path).getLast? = path.getLast? := by
  have hlast : path.getLast? = some (path.getLast h) := List.getLast?_eq_some_getLast h
  unfold join
  split
  · rfl
  · split <;> simp [List.getLast?_append, List.getLast?_cons_of_ne_nil h, hlast]

end Path

namespace FileTree

variable {tree : FileTree} {here place : Location} {links : Nat}

/-! ## The steps of a walk -/

structure LooksUp (tree : FileTree) (here : Location) (step : Text) : Prop where
  directory : tree.node? here = some .directory
  ne_dot : step ≠ "."
  ne_dots : step ≠ ".."
  short : Text.byteLength step ≤ maxName

theorem LooksUp.of_not (hdirectory : ¬tree.node? here ≠ some .directory) {step : Text}
    (hdot : ¬step = ".") (hdots : ¬step = "..") (hshort : ¬maxName < Text.byteLength step) :
    tree.LooksUp here step :=
  ⟨Decidable.not_not.1 hdirectory, hdot, hdots, Nat.le_of_not_lt hshort⟩

theorem isPlain_of_walk {node : Node} (hzero : ∀ target, links = 0 → node = .link target → False)
    (hsucc : ∀ target left, links = left + 1 → node = .link target → False) (target : Text) :
    node ≠ .link target := by
  intro hlink
  cases links with
  | zero => exact hzero target rfl hlink
  | succ left => exact hsucc target left rfl hlink

section Steps

variable {step : Text} (links : Nat) (rest : List Text)

theorem walk_notDirectory (h : tree.node? here ≠ some .directory) :
    tree.walk links here (step :: rest) = .error .notDirectory := by
  rw [walk.eq_def]
  exact if_pos h

theorem walk_dot (h : tree.node? here = some .directory) :
    tree.walk links here ("." :: rest) = tree.walk links here rest := by
  rw [walk.eq_def]
  simp only [if_neg (not_not_intro h), if_true]

theorem walk_dots (h : tree.node? here = some .directory) :
    tree.walk links here (".." :: rest) = tree.walk links here.dropLast rest := by
  rw [walk.eq_def]
  simp only [if_neg (not_not_intro h), if_true]
  exact if_neg (by decide)

theorem walk_nameTooLong (h : tree.node? here = some .directory) (hdot : step ≠ ".")
    (hdots : step ≠ "..") (hlong : maxName < Text.byteLength step) :
    tree.walk links here (step :: rest) = .error .nameTooLong := by
  rw [walk.eq_def]
  simp only [if_neg (not_not_intro h), if_neg hdot, if_neg hdots, if_pos hlong]

theorem walk_missing (h : tree.LooksUp here step) (hnone : tree.node? (here ++ [step]) = none) :
    tree.walk links here (step :: rest) =
      if rest = [] then .ok (here ++ [step]) else .error .notFound := by
  rw [walk.eq_def]
  simp only [if_neg (not_not_intro h.directory), if_neg h.ne_dot, if_neg h.ne_dots,
    if_neg (Nat.not_lt.2 h.short), hnone]

theorem walk_tooManyLinks (h : tree.LooksUp here step) {target : Text}
    (hlink : tree.node? (here ++ [step]) = some (.link target)) :
    tree.walk 0 here (step :: rest) = .error .tooManyLinks := by
  rw [walk.eq_def]
  simp only [if_neg (not_not_intro h.directory), if_neg h.ne_dot, if_neg h.ne_dots,
    if_neg (Nat.not_lt.2 h.short), hlink]

theorem walk_link (h : tree.LooksUp here step) {target : Text}
    (hlink : tree.node? (here ++ [step]) = some (.link target)) :
    tree.walk (links + 1) here (step :: rest) =
      tree.walk links (if Path.isAbsolute target then [] else here)
        (Path.steps target ++ rest) := by
  rw [walk.eq_def]
  simp only [if_neg (not_not_intro h.directory), if_neg h.ne_dot, if_neg h.ne_dots,
    if_neg (Nat.not_lt.2 h.short), hlink]

theorem walk_node (h : tree.LooksUp here step) {node : Node}
    (hnode : tree.node? (here ++ [step]) = some node) (hplain : ∀ target, node ≠ .link target) :
    tree.walk links here (step :: rest) = tree.walk links (here ++ [step]) rest := by
  rw [walk.eq_def]
  simp only [if_neg (not_not_intro h.directory), if_neg h.ne_dot, if_neg h.ne_dots,
    if_neg (Nat.not_lt.2 h.short), hnode]
  cases node with
  | link target => exact absurd rfl (hplain target)
  | directory | file | device => rfl

end Steps

/-! ## Walks of more than one part -/

theorem walk_append {before : List Text} (h : tree.walk links here before = .ok place)
    (hplace : tree.node? place = some .directory) (after : List Text) :
    ∃ left, tree.walk links here (before ++ after) = tree.walk left place after := by
  fun_induction walk tree links here before with
  | case1 links here =>
      cases h
      exact ⟨links, rfl⟩
  | case2 => contradiction
  | case3 links here rest hdirectory ih =>
      obtain ⟨left, hleft⟩ := ih h
      exact ⟨left, (walk_dot links _ (Decidable.not_not.1 hdirectory)).trans hleft⟩
  | case4 links here rest hdirectory hdot ih =>
      obtain ⟨left, hleft⟩ := ih h
      exact ⟨left, (walk_dots links _ (Decidable.not_not.1 hdirectory)).trans hleft⟩
  | case5 => contradiction
  | case6 links here step hdirectory hdot hdots hshort hnone =>
      cases h
      rw [hnone] at hplace
      contradiction
  | case7 => contradiction
  | case8 => contradiction
  | case9 here step rest hdirectory hdot hdots hshort target links hlink ih =>
      obtain ⟨left, hleft⟩ := ih h
      rw [List.append_assoc] at hleft
      exact ⟨left, (walk_link links _ (.of_not hdirectory hdot hdots hshort) hlink).trans hleft⟩
  | case10 here step rest hdirectory hdot hdots hshort node links hzero hsucc hnode ih =>
      obtain ⟨left, hleft⟩ := ih h
      have hname := LooksUp.of_not hdirectory hdot hdots hshort
      exact ⟨left, (walk_node links _ hname hnode (isPlain_of_walk hzero hsucc)).trans hleft⟩

theorem Leads.node?_dropLast (h : tree.Leads here) (hhere : tree.node? here = some .directory) :
    tree.node? here.dropLast = some .directory := by
  by_cases hroot : here.dropLast = here
  · rw [hroot, hhere]
  · exact h.above here.dropLast (List.dropLast_prefix here) hroot

def asDirectory : Except FileError (Location × Node) → Except FileError (Location × Node)
  | .ok (location, .directory) => .ok (location, .directory)
  | .ok _ => .error .notDirectory
  | .error error => .error error

theorem asDirectory_eq_self_iff {found : Except FileError (Location × Node)} :
    asDirectory found = found ↔
      ∀ location node, found = .ok (location, node) → node = .directory := by
  unfold asDirectory
  split
  · simp +contextual
  · rename_i pair hpair
    simp only [reduceCtorEq, false_iff]
    intro h
    exact hpair pair.1 (Prod.ext rfl (h pair.1 pair.2 rfl))
  · simp

theorem asDirectory_of_ne {location : Location} {node : Node} (h : node ≠ .directory) :
    asDirectory (.ok (location, node)) = .error .notDirectory := by
  cases node with
  | directory => contradiction
  | file content executable => rfl
  | device => rfl
  | link target => rfl

theorem nodeAt_walk_concat_dot {steps : List Text} (hhere : tree.Leads here)
    (hnode : tree.node? here ≠ none) (hsteps : ∀ step ∈ steps, step ≠ [] ∧ '/' ∉ step) :
    (tree.walk links here (steps ++ [['.']])).bind tree.nodeAt =
      asDirectory ((tree.walk links here steps).bind tree.nodeAt) := by
  -- A walk that fails does so on its way, with the dot still to come; only where it ends does the
  -- dot ask for more.
  fun_induction walk tree links here steps with
  | case1 links here =>
      obtain ⟨node, hnode⟩ := Option.ne_none_iff_exists'.1 hnode
      rw [List.nil_append, walk.eq_def]
      cases node <;> simp [hnode, walk, nodeAt, asDirectory, Except.bind]
  | case2 links here step rest hdirectory =>
      rw [List.cons_append, walk_notDirectory links _ hdirectory]
      rfl
  | case3 links here rest hdirectory ih =>
      rw [List.cons_append, walk_dot links _ (Decidable.not_not.1 hdirectory)]
      exact ih hhere hnode (List.forall_mem_cons.1 hsteps).2
  | case4 links here rest hdirectory hdot ih =>
      have habove : tree.node? here.dropLast ≠ none := by
        rw [hhere.node?_dropLast (Decidable.not_not.1 hdirectory)]
        exact Option.some_ne_none _
      rw [List.cons_append, walk_dots links _ (Decidable.not_not.1 hdirectory)]
      exact ih hhere.dropLast habove (List.forall_mem_cons.1 hsteps).2
  | case5 links here step rest hdirectory hdot hdots hlong =>
      rw [List.cons_append,
        walk_nameTooLong links _ (Decidable.not_not.1 hdirectory) hdot hdots hlong]
      rfl
  | case6 links here step hdirectory hdot hdots hshort hnone =>
      rw [List.cons_append, walk_missing links _ (.of_not hdirectory hdot hdots hshort) hnone]
      simp only [Except.bind, nodeAt, hnone]
      rfl
  | case7 links here step rest hdirectory hdot hdots hshort hnone hrest =>
      rw [List.cons_append, walk_missing links _ (.of_not hdirectory hdot hdots hshort) hnone,
        if_neg (by simp)]
      rfl
  | case8 here step rest hdirectory hdot hdots hshort target hlink =>
      rw [List.cons_append, walk_tooManyLinks _ (.of_not hdirectory hdot hdots hshort) hlink]
      rfl
  | case9 here step rest hdirectory hdot hdots hshort target links hlink ih =>
      rw [List.cons_append, walk_link links _ (.of_not hdirectory hdot hdots hshort) hlink,
        ← List.append_assoc]
      refine ih ?_ ?_ ?_
      · split
        · exact leads_root tree
        · exact hhere
      · split
        · exact Option.some_ne_none _
        · exact hnode
      · exact List.forall_mem_append.2
          ⟨fun step => isName_of_mem_steps, (List.forall_mem_cons.1 hsteps).2⟩
  | case10 here step rest hdirectory hdot hdots hshort node links hzero hsucc hstep ih =>
      have hname := LooksUp.of_not hdirectory hdot hdots hshort
      rw [List.forall_mem_cons] at hsteps
      rw [List.cons_append, walk_node links _ hname hstep (isPlain_of_walk hzero hsucc)]
      refine ih (hhere.concat hname.directory ⟨hsteps.1.1, hsteps.1.2, hdot, hdots⟩) ?_ hsteps.2
      rw [hstep]
      exact Option.some_ne_none node

/-! ## Paths that differ in their slashes -/

theorem bind_nodeAt_eq_ok {walked : Except FileError Location} {found : Location × Node} :
    walked.bind tree.nodeAt = .ok found ↔
      walked = .ok found.1 ∧ tree.node? found.1 = some found.2 := by
  cases walked with
  | error error => simp [Except.bind]
  | ok location =>
      simp only [Except.bind, nodeAt, Except.ok.injEq]
      split
      · rename_i node hnode
        grind
      · rename_i hnone
        grind

theorem nul_notMem_of_seek {path : Text} {found : Location × Node}
    (h : tree.seek path = .ok found) : '\x00' ∉ path := by
  intro hnul
  simp [seek, follow, hnul, Bind.bind, Except.bind] at h

theorem ne_nil_of_seek {path : Text} {found : Location × Node}
    (h : tree.seek path = .ok found) : path ≠ [] := by
  rintro rfl
  simp [seek, follow, Bind.bind, Except.bind] at h

theorem seek_eq (tree : FileTree) {path : Text} (hnul : '\x00' ∉ path) (hne : path ≠ []) :
    tree.seek path = (tree.walk maxLinks [] (Path.steps path)).bind tree.nodeAt := by
  unfold seek follow
  rw [if_neg (by simpa using hnul), if_neg hne, ite_self]
  rfl

theorem follow_congr (tree : FileTree) {first second : Text}
    (hnul : '\x00' ∈ first ↔ '\x00' ∈ second) (hne : first = [] ↔ second = [])
    (hsteps : Path.steps first = Path.steps second) : tree.follow first = tree.follow second := by
  unfold follow
  simp only [List.contains_iff_mem, hnul, hne, hsteps, ite_self]

variable {slashes : Text}

theorem nul_notMem (h : ∀ c ∈ slashes, c = '/') : '\x00' ∉ slashes :=
  fun hmem => absurd (h _ hmem) (by decide)

theorem follow_append_slashes (tree : FileTree) (before after : Text)
    (h : ∀ c ∈ slashes, c = '/') :
    tree.follow (before ++ slashes ++ '/' :: after) = tree.follow (before ++ '/' :: after) := by
  refine follow_congr tree ?_ ?_ ?_
  · simp [nul_notMem h]
  · simp
  · simp only [Path.steps, Path.segments_append_slash, Path.segments_append_slashes before h,
      List.getLast?_append, List.getLast?_cons, Option.some_or]

theorem seek_append_slashes (tree : FileTree) {path : Text} (hpath : path ≠ [])
    (hend : path.getLast? ≠ some '/') (hslashes : slashes ≠ []) (h : ∀ c ∈ slashes, c = '/') :
    tree.seek (path ++ slashes) = asDirectory (tree.seek path) := by
  have hsteps : Path.steps (path ++ slashes) = Path.steps path ++ [['.']] := by
    have hlast : (path ++ slashes).getLast? = some '/' := by
      rw [List.getLast?_append, List.getLast?_eq_some_getLast hslashes,
        h _ (List.getLast_mem hslashes)]
      rfl
    rw [Path.steps_of_getLast? hend, Path.steps, if_pos hlast, Path.segments_append_slashes path h]
  by_cases hnul : '\x00' ∈ path
  · simp [seek, follow, hnul, asDirectory, Bind.bind, Except.bind]
  · have hnuls : '\x00' ∉ path ++ slashes := by simp [hnul, nul_notMem h]
    rw [seek_eq tree hnuls (by simp [hpath]), seek_eq tree hnul hpath, hsteps]
    exact nodeAt_walk_concat_dot (leads_root tree) (Option.some_ne_none _)
      (fun step => isName_of_mem_steps)

/-! ## Names in a directory -/

theorem mem_names {name : Text} (h : tree.node? (place ++ [name]) ≠ none) :
    name ∈ tree.names place := by
  rw [node?, if_neg (by simp), ne_eq, Option.map_eq_none_iff] at h
  obtain ⟨entry, hentry⟩ := Option.ne_none_iff_exists'.1 h
  have hat : entry.1 = place ++ [name] := by simpa using List.find?_some hentry
  have hmem : entry ∈ tree.nodes := List.mem_of_find?_eq_some hentry
  rw [names, Text.sort, List.mem_mergeSort, List.mem_eraseDups, List.mem_filterMap]
  exact ⟨entry, hmem, by simp [hat]⟩

theorem find_eq_seek {path : Text} (h : Text.byteLength path ≤ maxPath) :
    tree.find path = tree.seek path := by
  have hlong : ¬(!path.contains '\x00' && decide (maxPath < Text.byteLength path)) = true := by
    simp [Nat.not_lt.2 h]
  rw [find, resolve, if_neg hlong]
  rfl

theorem seek_of_find {path : Text} {found : Location × Node} (h : tree.find path = .ok found) :
    tree.seek path = .ok found := by
  unfold find resolve at h
  split at h
  · contradiction
  · exact h

theorem walk_segments_of_seek {path : Text} (h : tree.seek path = .ok (place, .directory)) :
    tree.walk maxLinks [] (Path.segments path) = .ok place ∧
      tree.node? place = some .directory := by
  rw [seek_eq tree (nul_notMem_of_seek h) (ne_nil_of_seek h)] at h
  have hsegments : (tree.walk maxLinks [] (Path.segments path)).bind tree.nodeAt =
      .ok (place, .directory) := by
    by_cases hend : path.getLast? = some '/'
    · rw [Path.steps, if_pos hend, nodeAt_walk_concat_dot (leads_root tree) (Option.some_ne_none _)
        (fun step hstep => isName_of_mem_steps (List.mem_append_left _ hstep))] at h
      unfold asDirectory at h
      split at h
      · rename_i heq
        rw [heq, h]
      · contradiction
      · contradiction
    · rwa [Path.steps_of_getLast? hend] at h
  exact bind_nodeAt_eq_ok.1 hsegments

theorem mem_names_of_isPresent {directory name : Text}
    (hdirectory : tree.seek directory = .ok (place, .directory)) (hname : IsName name)
    (h : tree.isPresent (Path.join directory name) = true) : name ∈ tree.names place := by
  obtain ⟨hne, hslash, hdot, hdots⟩ := hname
  obtain ⟨hwalk, hplace⟩ := walk_segments_of_seek hdirectory
  have hsteps : Path.steps (Path.join directory name) = Path.segments directory ++ [name] := by
    have hend : (Path.join directory name).getLast? ≠ some '/' := by
      rw [Path.getLast?_join hne]
      exact fun hlast => hslash (List.mem_of_getLast? hlast)
    rw [Path.steps_of_getLast? hend, Path.segments_join hne hslash]
  obtain ⟨found, hfound⟩ : ∃ found, tree.seek (Path.join directory name) = .ok found := by
    unfold isPresent at h
    cases hfind : tree.find (Path.join directory name) with
    | error error =>
        rw [hfind] at h
        contradiction
    | ok found => exact ⟨found, seek_of_find hfind⟩
  have hnul : '\x00' ∉ Path.join directory name := nul_notMem_of_seek hfound
  rw [seek_eq tree hnul (Path.join_ne_nil hne directory), hsteps] at hfound
  obtain ⟨left, hleft⟩ := walk_append hwalk hplace [name]
  obtain ⟨hend, hnode⟩ := bind_nodeAt_eq_ok.1 hfound
  refine mem_names fun hnone => ?_
  rw [hleft] at hend
  by_cases hlong : maxName < Text.byteLength name
  · rw [walk_nameTooLong left [] hplace hdot hdots hlong] at hend
    contradiction
  · have hlast : tree.LooksUp place name := ⟨hplace, hdot, hdots, Nat.le_of_not_lt hlong⟩
    rw [walk_missing left [] hlast hnone, if_pos rfl] at hend
    rw [← Except.ok.inj hend, hnone] at hnode
    contradiction

end FileTree

end CommandFrame

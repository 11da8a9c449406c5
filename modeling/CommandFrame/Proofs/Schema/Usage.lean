import Mathlib.Data.List.Perm.Basic
import CommandFrame.Proofs.Schema.Built
import CommandFrame.Schema.Usage

/-!
# The blocks of the usage text

The visible arguments fall into blocks: the visible members of each group, and each argument
without a group by itself.  The usage text shows every block once, in the order of their
first members, and so every visible argument once and no hidden one.
-/

namespace CommandFrame

/-! ## Text of a block -/

namespace UsageBlock

def brackets : UsageBlock → Text × Text
  | single argument => if argument.required then ("", "") else ("[", "]")
  | alternatives group _ => if group.isRequired then ("\x7b", "\x7d") else ("[", "]")

theorem line_eq (block : UsageBlock) :
    block.line = "  " ++ block.brackets.1 ++
      Text.join "|" (block.arguments.map Argument.usage) ++ block.brackets.2 ++ "\n" := by
  cases block with
  | single argument =>
      rw [line, brackets]
      split
      · simp [arguments, Text.join]
      · simp [arguments, Text.join]
  | alternatives group members =>
      rw [line, brackets]
      split
      · simp [arguments]
      · simp [arguments]

end UsageBlock

namespace Schema

/-- The visible arguments are arranged in blocks, in the order of their first members. -/
structure Arranges (schema : Schema) (showHidden : Bool) (blocks : List UsageBlock) :
    Prop where
  single : ∀ argument, .single argument ∈ blocks ↔
    argument ∈ schema.arguments ∧ argument.isShown showHidden = true ∧ argument.group = none
  alternatives : ∀ group members, .alternatives group members ∈ blocks ↔
    group ∈ schema.groups ∧ members ≠ [] ∧
      members = (schema.members group.number).filter (·.isShown showHidden)
  ordered : (blocks.map (·.arguments.head?)).Sublist (schema.arguments.map some)

section Blocks

variable {schema : Schema} {showHidden : Bool}

/-! ## The blocks that are shown -/

theorem bind_group?_eq_none_iff (hdeclared : schema.GroupsDeclared)
    (hnumbered : schema.GroupsNumbered) {argument : Argument}
    (hmem : argument ∈ schema.arguments) :
    argument.group.bind schema.group? = none ↔ argument.group = none := by
  rw [Option.bind_eq_none_iff]
  constructor
  · intro hnone
    cases hgroup : argument.group with
    | none => rfl
    | some number =>
        obtain ⟨group, hgroup', rfl⟩ := hdeclared argument hmem number hgroup
        have hfound := hnumbered.group?_eq_some_iff.2 ⟨hgroup', rfl⟩
        rw [hnone _ hgroup] at hfound
        contradiction
  · intro hnone number hnumber
    rw [hnone] at hnumber
    contradiction

theorem bind_group?_eq_some_iff (hnumbered : schema.GroupsNumbered) {argument : Argument}
    {group : Group} :
    argument.group.bind schema.group? = some group ↔
      group ∈ schema.groups ∧ argument.group = some group.number := by
  rw [Option.bind_eq_some_iff]
  constructor
  · rintro ⟨number, hnumber, hgroup⟩
    obtain ⟨hmem, rfl⟩ := hnumbered.group?_eq_some_iff.1 hgroup
    exact ⟨hmem, hnumber⟩
  · rintro ⟨hmem, hnumber⟩
    exact ⟨group.number, hnumber, hnumbered.group?_eq_some_iff.2 ⟨hmem, rfl⟩⟩

inductive Shows (schema : Schema) (showHidden : Bool) :
    List GroupNumber → List Argument → List UsageBlock → Prop
  | nil (shown : List GroupNumber) : Shows schema showHidden shown [] []
  | hidden {shown : List GroupNumber} {argument : Argument} {rest : List Argument}
      {blocks : List UsageBlock} (hhidden : argument.isShown showHidden = false)
      (hrest : Shows schema showHidden shown rest blocks) :
      Shows schema showHidden shown (argument :: rest) blocks
  | single {shown : List GroupNumber} {argument : Argument} {rest : List Argument}
      {blocks : List UsageBlock} (hvisible : argument.isShown showHidden = true)
      (hgroup : argument.group = none) (hrest : Shows schema showHidden shown rest blocks) :
      Shows schema showHidden shown (argument :: rest) (.single argument :: blocks)
  | again {shown : List GroupNumber} {argument : Argument} {rest : List Argument}
      {blocks : List UsageBlock} {group : Group} (hvisible : argument.isShown showHidden = true)
      (hmem : group ∈ schema.groups) (hgroup : argument.group = some group.number)
      (hagain : group.number ∈ shown) (hrest : Shows schema showHidden shown rest blocks) :
      Shows schema showHidden shown (argument :: rest) blocks
  | first {shown : List GroupNumber} {argument : Argument} {rest : List Argument}
      {blocks : List UsageBlock} {group : Group} (hvisible : argument.isShown showHidden = true)
      (hmem : group ∈ schema.groups) (hgroup : argument.group = some group.number)
      (hfirst : group.number ∉ shown)
      (hrest : Shows schema showHidden (group.number :: shown) rest blocks) :
      Shows schema showHidden shown (argument :: rest)
        (.alternatives group ((schema.members group.number).filter (·.isShown showHidden)) ::
          blocks)

theorem shows_blocksFrom (hdeclared : schema.GroupsDeclared) (hnumbered : schema.GroupsNumbered)
    {rest : List Argument} (hrest : ∀ argument ∈ rest, argument ∈ schema.arguments)
    (shown : List GroupNumber) :
    Shows schema showHidden shown rest (schema.blocksFrom showHidden shown rest) := by
  induction rest generalizing shown with
  | nil => exact .nil shown
  | cons argument rest ih =>
      rw [List.forall_mem_cons] at hrest
      obtain ⟨hargument, hothers⟩ := hrest
      rw [blocksFrom]
      split
      · rename_i hhidden
        exact .hidden (by simpa using hhidden) (ih hothers shown)
      rename_i hvisible
      rw [Bool.not_eq_true', Bool.not_eq_false] at hvisible
      split
      · rename_i hnone
        have hgroup := (bind_group?_eq_none_iff hdeclared hnumbered hargument).1 hnone
        exact .single hvisible hgroup (ih hothers shown)
      · rename_i group hsome
        obtain ⟨hmem, hgroup⟩ := (bind_group?_eq_some_iff hnumbered).1 hsome
        split
        · rename_i hagain
          exact .again hvisible hmem hgroup (by simpa using hagain) (ih hothers shown)
        · rename_i hfirst
          exact .first hvisible hmem hgroup (by simpa using hfirst) (ih hothers _)

namespace Shows

variable {shown : List GroupNumber} {rest : List Argument} {blocks : List UsageBlock}

theorem single_mem_iff (h : Shows schema showHidden shown rest blocks) (argument : Argument) :
    .single argument ∈ blocks ↔
      argument ∈ rest ∧ argument.isShown showHidden = true ∧ argument.group = none := by
  induction h with
  | nil => simp
  | hidden hhidden hrest ih => grind
  | single hvisible hgroup hrest ih => grind
  | again hvisible hmem hgroup hagain hrest ih => grind
  | first hvisible hmem hgroup hfirst hrest ih => grind

theorem alternatives_mem_iff (h : Shows schema showHidden shown rest blocks)
    (hnumbered : schema.GroupsNumbered) (group : Group) (members : List Argument) :
    .alternatives group members ∈ blocks ↔
      group ∈ schema.groups ∧ group.number ∉ shown ∧
        (∃ argument ∈ rest, argument.isShown showHidden = true ∧
          argument.group = some group.number) ∧
        members = (schema.members group.number).filter (·.isShown showHidden) := by
  induction h with
  | nil => simp
  | hidden hhidden hrest ih => grind
  | single hvisible hgroup hrest ih => grind
  | again hvisible hmem hgroup hagain hrest ih => grind
  | @first shown next rest blocks other hvisible hmem hgroup hfirst hrest ih =>
      rw [List.mem_cons, ih]
      constructor
      · rintro (heq | ⟨hlisted, hnew, ⟨argument, hargument, hshown⟩, hmembers⟩)
        · obtain ⟨rfl, rfl⟩ := UsageBlock.alternatives.inj heq
          exact ⟨hmem, hfirst, ⟨next, List.mem_cons_self, hvisible, hgroup⟩, rfl⟩
        · exact ⟨hlisted, fun hagain => hnew (List.mem_cons_of_mem _ hagain),
            ⟨argument, List.mem_cons_of_mem _ hargument, hshown⟩, hmembers⟩
      · rintro ⟨hlisted, hnew, ⟨argument, hargument, hshown, hmember⟩, rfl⟩
        by_cases hnumber : group.number = other.number
        · obtain rfl := hnumbered.eq_of_number hlisted hmem hnumber
          exact .inl rfl
        · refine .inr ⟨hlisted, by simp [hnumber, hnew], ⟨argument, ?_, hshown, hmember⟩, rfl⟩
          refine (List.mem_cons.1 hargument).resolve_left ?_
          rintro rfl
          exact hnumber (Option.some.inj (hmember.symm.trans hgroup))

end Shows

theorem mem_visible_iff {argument : Argument} {number : GroupNumber} :
    argument ∈ (schema.members number).filter (·.isShown showHidden) ↔
      argument ∈ schema.arguments ∧ argument.isShown showHidden = true ∧
        argument.group = some number := by
  rw [List.mem_filter, members, List.mem_filter, decide_eq_true_iff]
  exact and_right_comm.trans and_assoc

def ShownFrom (showHidden : Bool) (shown : List GroupNumber) (before : List Argument) : Prop :=
  ∀ argument ∈ before, argument.isShown showHidden = true →
    ∀ number, argument.group = some number → number ∈ shown

theorem ShownFrom.concat {shown : List GroupNumber} {before : List Argument}
    (h : ShownFrom showHidden shown before) (next : Argument)
    (hnext : next.isShown showHidden = true → ∀ number, next.group = some number →
      number ∈ shown) :
    ShownFrom showHidden shown (before ++ [next]) := by
  intro argument hargument
  rcases List.mem_append.1 hargument with hbefore | hlast
  · exact h argument hbefore
  · obtain rfl := List.mem_singleton.1 hlast
    exact hnext

theorem ShownFrom.cons {shown : List GroupNumber} {before : List Argument}
    (h : ShownFrom showHidden shown before) (number : GroupNumber) :
    ShownFrom showHidden (number :: shown) before :=
  fun argument hargument hvisible other hother =>
    List.mem_cons_of_mem _ (h argument hargument hvisible other hother)

theorem ShownFrom.head?_members {shown : List GroupNumber} {before rest : List Argument}
    (h : ShownFrom showHidden shown before) {next : Argument} {number : GroupNumber}
    (harguments : schema.arguments = before ++ next :: rest)
    (hvisible : next.isShown showHidden = true) (hgroup : next.group = some number)
    (hfirst : number ∉ shown) :
    ((schema.members number).filter (·.isShown showHidden)).head? = some next := by
  have hnone : (before.filter (·.group = some number)).filter (·.isShown showHidden) = [] := by
    rw [List.filter_filter, List.filter_eq_nil_iff]
    intro argument hargument hmember
    rw [Bool.and_eq_true, decide_eq_true_iff] at hmember
    exact hfirst (h argument hargument hmember.1 number hmember.2)
  rw [members, harguments, List.filter_append, List.filter_append, hnone, List.nil_append,
    List.filter_cons_of_pos (by simpa using hgroup), List.filter_cons_of_pos hvisible,
    List.head?_cons]

theorem Shows.heads_sublist {shown : List GroupNumber} {before rest : List Argument}
    {blocks : List UsageBlock} (h : Shows schema showHidden shown rest blocks)
    (harguments : schema.arguments = before ++ rest)
    (hbefore : ShownFrom showHidden shown before) :
    (blocks.map (·.arguments.head?)).Sublist (rest.map some) := by
  induction h generalizing before with
  | nil => exact List.nil_sublist _
  | @hidden shown next rest blocks hhidden hrest ih =>
      have hread := hbefore.concat next fun hvisible => by simp [hhidden] at hvisible
      exact (ih (by simp [harguments]) hread).cons _
  | @single shown next rest blocks hvisible hgroup hrest ih =>
      have hread := hbefore.concat next fun _ number hnumber => by simp [hgroup] at hnumber
      exact (ih (by simp [harguments]) hread).cons_cons _
  | @again shown next rest blocks group hvisible hmem hgroup hagain hrest ih =>
      have hread := hbefore.concat next fun _ number hnumber => by
        rwa [← Option.some.inj (hgroup.symm.trans hnumber)]
      exact (ih (by simp [harguments]) hread).cons _
  | @first shown next rest blocks group hvisible hmem hgroup hfirst hrest ih =>
      have hread := (hbefore.cons group.number).concat next fun _ number hnumber => by
        rw [← Option.some.inj (hgroup.symm.trans hnumber)]
        exact List.mem_cons_self
      rw [List.map_cons, List.map_cons, UsageBlock.arguments,
        hbefore.head?_members harguments hvisible hgroup hfirst]
      exact (ih (by simp [harguments]) hread).cons_cons _

theorem arranges_blocks (hdeclared : schema.GroupsDeclared)
    (hnumbered : schema.GroupsNumbered) :
    schema.Arranges showHidden (schema.blocks showHidden) := by
  have hshows : Shows schema showHidden [] schema.arguments (schema.blocks showHidden) :=
    shows_blocksFrom hdeclared hnumbered (fun _ hargument => hargument) []
  refine ⟨hshows.single_mem_iff, fun group members => ?_, ?_⟩
  · rw [hshows.alternatives_mem_iff hnumbered]
    constructor
    · rintro ⟨hgroup, -, ⟨argument, hargument, hvisible, hmember⟩, rfl⟩
      have hshown := mem_visible_iff.2 ⟨hargument, hvisible, hmember⟩
      exact ⟨hgroup, List.ne_nil_of_mem hshown, rfl⟩
    · rintro ⟨hgroup, hmembers, rfl⟩
      obtain ⟨argument, hargument⟩ := List.exists_mem_of_ne_nil _ hmembers
      exact ⟨hgroup, List.not_mem_nil, ⟨argument, mem_visible_iff.1 hargument⟩, rfl⟩
  · exact hshows.heads_sublist (List.nil_append _).symm
      fun _ hargument => absurd hargument List.not_mem_nil

/-! ## What an arrangement shows -/

/-- The block an argument belongs to. -/
inductive Place (schema : Schema) (showHidden : Bool) (argument : Argument) : UsageBlock → Prop
  | alone (hgroup : argument.group = none) : Place schema showHidden argument (.single argument)
  | member {group : Group} (hmem : group ∈ schema.groups)
      (hgroup : argument.group = some group.number) :
      Place schema showHidden argument
        (.alternatives group ((schema.members group.number).filter (·.isShown showHidden)))

theorem GroupsDeclared.exists_place (hdeclared : schema.GroupsDeclared) (showHidden : Bool)
    {argument : Argument} (hmem : argument ∈ schema.arguments) :
    ∃ block, schema.Place showHidden argument block := by
  cases hgroup : argument.group with
  | none => exact ⟨_, .alone hgroup⟩
  | some number =>
      obtain ⟨group, hlisted, rfl⟩ := hdeclared argument hmem number hgroup
      exact ⟨_, .member hlisted hgroup⟩

theorem GroupsNumbered.place_unique (hnumbered : schema.GroupsNumbered) {argument : Argument}
    {block other : UsageBlock} (hblock : schema.Place showHidden argument block)
    (hother : schema.Place showHidden argument other) : block = other := by
  cases hblock with
  | alone hgroup =>
      cases hother with
      | alone => rfl
      | member hmem' hgroup' => simp [hgroup] at hgroup'
  | member hmem hgroup =>
      cases hother with
      | alone hgroup' => simp [hgroup] at hgroup'
      | member hmem' hgroup' =>
          have hnumber := Option.some.inj (hgroup.symm.trans hgroup')
          rw [hnumbered.eq_of_number hmem hmem' hnumber]

theorem NamesDiffer.map_some_nodup (h : schema.NamesDiffer) : (schema.arguments.map some).Nodup :=
  h.nodup.map fun _ _ => Option.some.inj

namespace Arranges

variable {blocks : List UsageBlock}

theorem mem_iff (h : schema.Arranges showHidden blocks) {argument : Argument}
    {block : UsageBlock} :
    block ∈ blocks ∧ argument ∈ block.arguments ↔
      argument ∈ schema.arguments ∧ argument.isShown showHidden = true ∧
        schema.Place showHidden argument block := by
  constructor
  · rintro ⟨hblock, hargument⟩
    cases block with
    | single other =>
        obtain rfl := List.mem_singleton.1 hargument
        obtain ⟨hmem, hvisible, hgroup⟩ := (h.single argument).1 hblock
        exact ⟨hmem, hvisible, .alone hgroup⟩
    | alternatives group members =>
        obtain ⟨hlisted, -, rfl⟩ := (h.alternatives group members).1 hblock
        obtain ⟨hmem, hvisible, hgroup⟩ := mem_visible_iff.1 hargument
        exact ⟨hmem, hvisible, .member hlisted hgroup⟩
  · rintro ⟨hmem, hvisible, hplace⟩
    cases hplace with
    | alone hgroup =>
        exact ⟨(h.single argument).2 ⟨hmem, hvisible, hgroup⟩, List.mem_singleton_self argument⟩
    | member hlisted hgroup =>
        have hargument := mem_visible_iff.2 ⟨hmem, hvisible, hgroup⟩
        exact ⟨(h.alternatives _ _).2 ⟨hlisted, List.ne_nil_of_mem hargument, rfl⟩, hargument⟩

theorem heads_nodup (h : schema.Arranges showHidden blocks) (hnames : schema.NamesDiffer) :
    (blocks.map (·.arguments.head?)).Nodup :=
  h.ordered.nodup hnames.map_some_nodup

theorem nodup_arguments (h : schema.Arranges showHidden blocks) (hnames : schema.NamesDiffer)
    {block : UsageBlock} (hblock : block ∈ blocks) : block.arguments.Nodup := by
  cases block with
  | single argument => exact List.nodup_singleton argument
  | alternatives group members =>
      obtain ⟨-, -, rfl⟩ := (h.alternatives group members).1 hblock
      exact (hnames.nodup.filter _).filter _

theorem perm_visible (h : schema.Arranges showHidden blocks) (hnames : schema.NamesDiffer)
    (hdeclared : schema.GroupsDeclared) (hnumbered : schema.GroupsNumbered) :
    (blocks.flatMap UsageBlock.arguments).Perm
      (schema.arguments.filter (·.isShown showHidden)) := by
  have hdisjoint : blocks.Pairwise fun block other =>
      List.Disjoint block.arguments other.arguments := by
    refine (h.heads_nodup hnames).of_map _ |>.imp_of_mem ?_
    intro block other hblock hother hne argument hargument hargument'
    obtain ⟨-, -, hplace⟩ := h.mem_iff.1 ⟨hblock, hargument⟩
    obtain ⟨-, -, hplace'⟩ := h.mem_iff.1 ⟨hother, hargument'⟩
    exact hne (hnumbered.place_unique hplace hplace')
  have hnodup : (blocks.flatMap UsageBlock.arguments).Nodup :=
    List.nodup_flatMap.2 ⟨fun block hblock => h.nodup_arguments hnames hblock, hdisjoint⟩
  rw [List.perm_ext_iff_of_nodup hnodup (hnames.nodup.filter _)]
  intro argument
  rw [List.mem_flatMap, List.mem_filter]
  constructor
  · rintro ⟨block, hshown⟩
    obtain ⟨hmem, hvisible, -⟩ := h.mem_iff.1 hshown
    exact ⟨hmem, hvisible⟩
  · rintro ⟨hmem, hvisible⟩
    obtain ⟨block, hplace⟩ := hdeclared.exists_place showHidden hmem
    exact ⟨block, h.mem_iff.2 ⟨hmem, hvisible, hplace⟩⟩

theorem unique (h : schema.Arranges showHidden blocks) {others : List UsageBlock}
    (hothers : schema.Arranges showHidden others) (hnames : schema.NamesDiffer) :
    others = blocks := by
  have hmem : ∀ block, block ∈ others ↔ block ∈ blocks := by
    intro block
    cases block with
    | single argument => rw [h.single, hothers.single]
    | alternatives group members => rw [h.alternatives, hothers.alternatives]
  have hperm : others.Perm blocks :=
    (List.perm_ext_iff_of_nodup (.of_map _ (hothers.heads_nodup hnames))
      (.of_map _ (h.heads_nodup hnames))).2 hmem
  have hheads : others.map (·.arguments.head?) = blocks.map (·.arguments.head?) :=
    (hnames.map_some_nodup.perm_iff_eq_of_sublist hothers.ordered h.ordered).1 (hperm.map _)
  refine List.ext_getElem hperm.length_eq fun i hi hi' => ?_
  refine List.inj_on_of_nodup_map (h.heads_nodup hnames) ((hmem _).1 (List.getElem_mem hi))
    (List.getElem_mem hi') ?_
  have hhead := List.getElem_of_eq hheads (i := i) (by simpa using hi)
  rwa [List.getElem_map, List.getElem_map] at hhead

end Arranges

end Blocks

/-! ## The usage text -/

/-- The usage names the command, shows the blocks of the one arrangement there is, each with the
descriptions of its arguments if it is verbose, and ends with `-help`.  Every visible argument
is shown once. -/
theorem usage_shows_blocks {name : Text} {declarations : List Declaration} {schema : Schema}
    (h : build name declarations = .ok schema) (showHidden verbose : Bool) :
    ∃ blocks, schema.Arranges showHidden blocks ∧
      (∀ others, schema.Arranges showHidden others → others = blocks) ∧
      schema.usage showHidden verbose =
        name ++ "\n" ++
          blocks.flatMap (fun block =>
            ("  " ++ block.brackets.1 ++ Text.join "|" (block.arguments.map Argument.usage) ++
              block.brackets.2 ++ "\n" : Text) ++
              if verbose then block.arguments.flatMap Argument.description else []) ++
          "  [-help]\n" ∧
      (blocks.flatMap UsageBlock.arguments).Perm
        (schema.arguments.filter (·.isShown showHidden)) ∧
      ((blocks.flatMap UsageBlock.arguments).map (·.name)).Nodup := by
  have hnames := namesDiffer_of_build h
  have hdeclared := groupsDeclared_of_build h
  have hnumbered := groupsNumbered_of_build h
  have harranges : schema.Arranges showHidden (schema.blocks showHidden) :=
    arranges_blocks hdeclared hnumbered
  have hperm := harranges.perm_visible hnames hdeclared hnumbered
  have hunique : ∀ others, schema.Arranges showHidden others →
      others = schema.blocks showHidden :=
    fun others hothers => harranges.unique hothers hnames
  refine ⟨schema.blocks showHidden, harranges, hunique, ?_, hperm, ?_⟩
  · simp only [usage, name_of_build h, UsageBlock.render, UsageBlock.line_eq]
  · exact (hperm.map _).nodup_iff.2 (hnames.sublist (List.filter_sublist.map _))

/-! A schema whose groups are interleaved.  The first member of one is hidden, and the only
member of the last. -/

namespace Interleaved

def declarations : List Declaration :=
  [.group .optional, .group .required, .group .optional,
    .argument "-all" .boolean "" "", .refine (.group 1), .refine .hidden,
    .argument "-byte" .integer "n" "where to start", .refine (.group 2),
    .argument "-count" .integer "n" "", .refine (.group 1),
    .argument "-depth" .integer "n" "", .refine (.group 2), .refine (.label "deep" 9),
    .argument "file" .string "file" "", .refine .required,
    .argument "-extra" .boolean "" "", .refine (.group 3), .refine .hidden]

def all : Argument := ⟨1, "all", true, .boolean, "", "", false, true, false, false, some 1, []⟩

def byte : Argument :=
  ⟨2, "byte", true, .integer, "n", "where to start", false, false, false, false, some 2, []⟩

def count : Argument :=
  ⟨3, "count", true, .integer, "n", "", false, false, false, false, some 1, []⟩

def depth : Argument :=
  ⟨4, "depth", true, .integer, "n", "", false, false, false, false, some 2, [("deep", 9)]⟩

def file : Argument := ⟨5, "file", false, .string, "file", "", true, false, false, false, none, []⟩

def extra : Argument := ⟨6, "extra", true, .boolean, "", "", false, true, false, false, some 3, []⟩

def schema : Schema :=
  ⟨"seek", [all, byte, count, depth, file, extra],
    [⟨1, .optional⟩, ⟨2, .required⟩, ⟨3, .optional⟩]⟩

end Interleaved

theorem usage_shows_blocks_interleaved :
    build "seek" Interleaved.declarations = .ok Interleaved.schema ∧
    Interleaved.schema.Arranges false
      [.alternatives ⟨2, .required⟩ [Interleaved.byte, Interleaved.depth],
        .alternatives ⟨1, .optional⟩ [Interleaved.count], .single Interleaved.file] ∧
    Interleaved.schema.usage false true =
      "seek\n" ++ "  \x7b-byte <n>|-depth <n>\x7d\n" ++ "      -byte <n>: where to start\n" ++
        "      values: deep\n" ++ "  [-count <n>]\n" ++ "  <file>\n" ++ "  [-help]\n" := by
  have hbuild : build "seek" Interleaved.declarations = .ok Interleaved.schema := by cbv
  obtain ⟨blocks, harranges, hunique, husage, -⟩ := usage_shows_blocks hbuild false true
  obtain rfl : Interleaved.schema.blocks false = blocks :=
    hunique _ (arranges_blocks (groupsDeclared_of_build hbuild) (groupsNumbered_of_build hbuild))
  refine ⟨hbuild, ?_, ?_⟩
  · exact harranges
  · rw [husage]
    rfl

end Schema

end CommandFrame

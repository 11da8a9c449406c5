import CommandFrame.Proofs.Schema.Usage

/-!
# Schemas as they are declared

A built schema has the arguments and the groups of its declarations, in their order and
numbered from 1.  A declaration is refused exactly if it repeats a name or joins a group that
there is not, and the refinements behind an argument change that argument alone.
-/

namespace CommandFrame

inductive Declares : Text → Text → Bool → Prop
  | option (name : Text) : Declares ('-' :: name) name true
  | positional {name : Text} (h : name.head? ≠ some '-') : Declares name name false

theorem declares_readName (declared : Text) :
    Declares declared (Schema.readName declared).1 (Schema.readName declared).2 := by
  unfold Schema.readName
  split
  · exact .option _
  · rename_i hdash
    refine .positional fun hhead => ?_
    obtain ⟨name, hname⟩ := List.head?_eq_some_iff.1 hhead
    exact hdash name hname

theorem Declares.readName_eq {declared name : Text} {isOption : Bool}
    (h : Declares declared name isOption) : Schema.readName declared = (name, isOption) := by
  cases h with
  | option => rfl
  | positional hhead =>
      unfold Schema.readName
      split
      · exact absurd rfl hhead
      · rfl

def Declaration.isArgument : Declaration → Bool
  | .argument .. => true
  | .group _ | .refine _ => false

def Declaration.isGroup : Declaration → Bool
  | .group _ => true
  | .argument .. | .refine _ => false

/-- The argument has the name, the kind and the texts that it is declared with. -/
inductive Argument.IsOf (argument : Argument) : Declaration → Prop
  | intro {declared : Text} (h : Declares declared argument.name argument.isOption) :
      argument.IsOf (.argument declared argument.type argument.short argument.long)

inductive Group.IsOf (group : Group) : Declaration → Prop
  | intro : group.IsOf (.group group.kind)

namespace Argument

def bare (argument : Argument) : Argument where
  index := argument.index
  name := argument.name
  isOption := argument.isOption
  type := argument.type
  short := argument.short
  long := argument.long

theorem isOf_bare_iff {argument : Argument} {declaration : Declaration} :
    argument.bare.IsOf declaration ↔ argument.IsOf declaration :=
  ⟨fun ⟨h⟩ => ⟨h⟩, fun ⟨h⟩ => ⟨h⟩⟩

theorem bare_refine (argument : Argument) (refinement : Refinement) :
    (argument.refine refinement).bare = argument.bare := by
  cases refinement <;> rfl

theorem bare_foldl_refine (argument : Argument) (refinements : List Refinement) :
    (refinements.foldl refine argument).bare = argument.bare := by
  induction refinements generalizing argument with
  | nil => rfl
  | cons refinement refinements ih =>
      rw [List.foldl_cons, ih, bare_refine]

end Argument

namespace Schema

variable {schema after : Schema} {declaration : Declaration} {declarations : List Declaration}

/-! ## What is declared -/

/-- The schema has the arguments and the groups of the declarations and no others. -/
structure IsOf (schema : Schema) (declarations : List Declaration) : Prop where
  arguments : List.Forall₂ Argument.IsOf schema.arguments
    (declarations.filter Declaration.isArgument)
  groups : List.Forall₂ Group.IsOf schema.groups (declarations.filter Declaration.isGroup)

theorem forall₂_bare_iff {arguments : List Argument} :
    List.Forall₂ Argument.IsOf (arguments.map Argument.bare) declarations ↔
      List.Forall₂ Argument.IsOf arguments declarations := by
  rw [List.forall₂_map_left_iff]
  simp only [Argument.isOf_bare_iff]

theorem filter_concat_of_not {test : Declaration → Bool} (h : test declaration = false) :
    (declarations ++ [declaration]).filter test = declarations.filter test := by
  rw [List.filter_append, List.filter_cons_of_neg (by simp [h]), List.filter_nil, List.append_nil]

theorem IsOf.declare (h : schema.IsOf declarations)
    (hdeclare : schema.declare declaration = .ok after) :
    after.IsOf (declarations ++ [declaration]) := by
  obtain ⟨harguments, hgroups⟩ := h
  cases declaration with
  | group kind =>
      cases hdeclare
      refine ⟨?_, ?_⟩
      · rw [filter_concat_of_not rfl]
        exact harguments
      · rw [List.filter_append]
        exact List.rel_append hgroups (.cons .intro .nil)
  | argument declared type short long =>
      obtain ⟨-, rfl⟩ := addArgument_eq_ok hdeclare
      refine ⟨?_, ?_⟩
      · rw [List.filter_append]
        exact List.rel_append harguments (.cons ⟨declares_readName declared⟩ .nil)
      · rw [filter_concat_of_not rfl]
        exact hgroups
  | refine refinement =>
      obtain rfl := arguments_of_refine hdeclare
      refine ⟨?_, ?_⟩
      · rw [filter_concat_of_not rfl, ← forall₂_bare_iff,
          map_modifyLast fun argument => argument.bare_refine refinement, forall₂_bare_iff]
        exact harguments
      · rw [filter_concat_of_not rfl]
        exact hgroups

theorem isOf_of_build {name : Text} (h : build name declarations = .ok schema) :
    schema.IsOf declarations :=
  run_induction (motive := fun declarations schema => schema.IsOf declarations) ⟨.nil, .nil⟩
    (fun _ _ _ _ hbefore hdeclare => hbefore.declare hdeclare) h

/-! ## Indices -/

def ArgumentsNumbered (schema : Schema) : Prop :=
  schema.arguments.map (·.index) = List.range' 1 schema.arguments.length

theorem ArgumentsNumbered.declare (h : schema.ArgumentsNumbered)
    (hdeclare : schema.declare declaration = .ok after) : after.ArgumentsNumbered := by
  cases declaration with
  | group kind =>
      cases hdeclare
      exact h
  | argument declared type short long =>
      obtain ⟨-, rfl⟩ := addArgument_eq_ok hdeclare
      rw [ArgumentsNumbered, List.map_append, List.length_append, h, List.length_singleton,
        List.range'_1_concat]
      simp [Nat.add_comm]
  | refine refinement =>
      obtain rfl := arguments_of_refine hdeclare
      have hindices := map_modifyLast (g := fun argument => argument.bare.index)
        (fun argument => congrArg Argument.index (argument.bare_refine refinement)) schema.arguments
      have hlength := congrArg List.length hindices
      rw [List.length_map, List.length_map] at hlength
      rw [ArgumentsNumbered, hlength]
      exact hindices.trans h

theorem argumentsNumbered_of_build {name : Text} (h : build name declarations = .ok schema) :
    schema.ArgumentsNumbered :=
  build_induction (motive := ArgumentsNumbered) rfl
    (fun _ _ _ hbefore hdeclare => hbefore.declare hdeclare) h

/-! ## Refused declarations -/

/-- The schema has an argument of the name that the declaration is for, or it has no group that
the declaration is for. -/
inductive Refuses (schema : Schema) : Declaration → DeclarationError → Prop
  | repeated {declared name : Text} {isOption : Bool} (hdeclares : Declares declared name isOption)
      (h : name ∈ schema.arguments.map (·.name)) (type : ArgumentType) (short long : Text) :
      schema.Refuses (.argument declared type short long) (.repeated schema.name name)
  | undeclaredGroup {number : GroupNumber} (h : number ∉ schema.groups.map (·.number)) :
      schema.Refuses (.refine (.group number)) (.undeclaredGroup schema.name number)

theorem isSome_group?_iff {number : GroupNumber} :
    (schema.group? number).isSome = true ↔ number ∈ schema.groups.map (·.number) := by
  simp [group?]

theorem addArgument_eq_error_iff {declared short long : Text} {type : ArgumentType}
    {error : DeclarationError} :
    schema.addArgument declared type short long = .error error ↔
      (readName declared).1 ∈ schema.arguments.map (·.name) ∧
        error = .repeated schema.name (readName declared).1 := by
  have hany : schema.arguments.any (·.name = (readName declared).1) = true ↔
      (readName declared).1 ∈ schema.arguments.map (·.name) := by simp
  rw [← hany]
  simp only [addArgument]
  split
  · rename_i hrepeated
    simp [hrepeated, eq_comm]
  · rename_i hnew
    simp [hnew]

theorem declare_eq_error_iff {error : DeclarationError} :
    schema.declare declaration = .error error ↔ schema.Refuses declaration error := by
  constructor
  · intro h
    cases declaration with
    | group kind => contradiction
    | argument declared type short long =>
        obtain ⟨hmem, rfl⟩ := addArgument_eq_error_iff.1 h
        exact .repeated (declares_readName declared) hmem type short long
    | refine refinement =>
        cases refinement with
        | group number =>
            simp only [Schema.declare, Schema.refine] at h
            split at h
            · contradiction
            · rename_i hnone
              cases h
              exact .undeclaredGroup (mt isSome_group?_iff.2 hnone)
        | required | hidden | multiple | path | label => contradiction
  · rintro (⟨hdeclares, hmem, type, short, long⟩ | hnone)
    · refine addArgument_eq_error_iff.2 ?_
      rw [hdeclares.readName_eq]
      exact ⟨hmem, rfl⟩
    · exact if_neg (mt isSome_group?_iff.1 hnone)

/-! ## Refinements -/

theorem refine_concat {earlier : List Argument} {last : Argument} {refinement : Refinement}
    (hlast : schema.arguments = earlier ++ [last]) (h : schema.refine refinement = .ok after) :
    after = { schema with arguments := earlier ++ [last.refine refinement] } := by
  rw [arguments_of_refine h, hlast, modifyLast_concat]

theorem foldlM_refine {earlier : List Argument} {last : Argument} {refinements : List Refinement}
    (hlast : schema.arguments = earlier ++ [last])
    (h : (refinements.map .refine).foldlM declare schema = .ok after) :
    after = { schema with arguments := earlier ++ [refinements.foldl Argument.refine last] } := by
  induction refinements generalizing schema last with
  | nil =>
      cases h
      rw [List.foldl_nil, ← hlast]
  | cons refinement refinements ih =>
      obtain ⟨refined, hrefine, hrest⟩ := foldlM_cons_eq_ok_iff.1 h
      obtain rfl := refine_concat hlast hrefine
      have hafter := ih rfl hrest
      exact hafter

theorem exists_added {declared short long : Text} {type : ArgumentType}
    {refinements : List Refinement}
    (h : (.argument declared type short long :: refinements.map .refine).foldlM declare schema =
      .ok after) :
    ∃ added : Argument, added.IsOf (.argument declared type short long) ∧
      added.index = schema.arguments.length + 1 ∧
      after = { schema with arguments := schema.arguments ++ [added] } := by
  obtain ⟨extended, hadd, hrest⟩ := foldlM_cons_eq_ok_iff.1 h
  obtain ⟨-, rfl⟩ := addArgument_eq_ok hadd
  have hafter := foldlM_refine rfl hrest
  refine ⟨_, ?_, ?_, hafter⟩
  · rw [← Argument.isOf_bare_iff, Argument.bare_foldl_refine]
    exact ⟨declares_readName declared⟩
  · exact congrArg Argument.index (Argument.bare_foldl_refine _ refinements)

/-! ## Declarations -/

/-- What the readers of a schema rely on. -/
structure IsConsistent (schema : Schema) : Prop where
  names : schema.NamesDiffer
  arguments : schema.ArgumentsNumbered
  groups : schema.GroupsNumbered
  members : schema.GroupsDeclared

/-- Whatever is declared, and in whichever order: if nothing is refused, the schema has the
arguments and the groups that were declared, and it refuses what would break it. -/
theorem built_as_declared {name : Text} (h : build name declarations = .ok schema) :
    schema.IsOf declarations ∧ schema.IsConsistent ∧
    (∀ declaration error,
      schema.declare declaration = .error error ↔ schema.Refuses declaration error) ∧
    (∀ declared type short long (refinements : List Refinement) after,
      (.argument declared type short long :: refinements.map .refine).foldlM declare schema =
          .ok after →
        ∃ added : Argument, added.IsOf (.argument declared type short long) ∧
          added.index = schema.arguments.length + 1 ∧
          after = { schema with arguments := schema.arguments ++ [added] }) ∧
    ∀ option argument, schema.option? option = some argument ↔
      argument ∈ schema.arguments ∧ argument.isOption = true ∧ argument.name = option := by
  have hnames : schema.NamesDiffer := namesDiffer_of_build h
  refine ⟨isOf_of_build h, ?_, ?_, ?_, ?_⟩
  · exact ⟨hnames, argumentsNumbered_of_build h, groupsNumbered_of_build h,
      groupsDeclared_of_build h⟩
  · exact fun _ _ => declare_eq_error_iff
  · exact fun _ _ _ _ _ _ => exists_added
  · exact fun _ _ => hnames.option?_eq_some_iff

theorem built_as_declared_interleaved :
    build "seek" Interleaved.declarations = .ok Interleaved.schema ∧
    Interleaved.schema.IsOf Interleaved.declarations ∧ Interleaved.schema.IsConsistent ∧
    Interleaved.schema.declare (.argument "-file" .none "" "") = .error (.repeated "seek" "file") ∧
    Interleaved.schema.declare (.refine (.group 4)) = .error (.undeclaredGroup "seek" 4) ∧
    Interleaved.schema.option? "depth" = some Interleaved.depth := by
  have hbuild : build "seek" Interleaved.declarations = .ok Interleaved.schema := by cbv
  obtain ⟨hof, hconsistent, hrefuses, -, hoption⟩ := built_as_declared hbuild
  refine ⟨hbuild, hof, hconsistent, ?_, ?_, ?_⟩
  · exact (hrefuses _ _).2 (.repeated (.option "file") (by decide) ..)
  · exact (hrefuses _ _).2 (.undeclaredGroup (by decide))
  · exact (hoption _ _).2 ⟨by decide, rfl, rfl⟩

end Schema

end CommandFrame

import Mathlib.Data.List.Induction
import Mathlib.Data.List.Nodup
import CommandFrame.Schema.Declaration

/-!
# Built schemas

What the empty schema has and every declaration keeps, a built schema has.  In
particular its arguments are told apart by their names.
-/

namespace CommandFrame

theorem Argument.name_refine (argument : Argument) (refinement : Refinement) :
    (argument.refine refinement).name = argument.name := by
  cases refinement <;> rfl

namespace Schema

theorem foldlM_cons_eq_ok_iff {schema after : Schema} {declaration : Declaration}
    {declarations : List Declaration} :
    (declaration :: declarations).foldlM declare schema = .ok after ↔
      ∃ next, schema.declare declaration = .ok next ∧
        declarations.foldlM declare next = .ok after := by
  rw [List.foldlM_cons]
  cases schema.declare declaration <;> simp [bind, Except.bind]

theorem build_concat_eq_ok_iff {name : Text} {declarations : List Declaration}
    {declaration : Declaration} {after : Schema} :
    build name (declarations ++ [declaration]) = .ok after ↔
      ∃ schema, build name declarations = .ok schema ∧ schema.declare declaration = .ok after := by
  rw [build, List.foldlM_append, ← build]
  simp only [List.foldlM_cons, List.foldlM_nil, bind_pure]
  cases build name declarations <;> simp [bind, Except.bind]

theorem run_induction {motive : List Declaration → Schema → Prop} {name : Text}
    (start : motive [] (.empty name))
    (step : ∀ declarations schema declaration after, motive declarations schema →
      schema.declare declaration = .ok after → motive (declarations ++ [declaration]) after)
    {declarations : List Declaration} {schema : Schema}
    (h : build name declarations = .ok schema) : motive declarations schema := by
  induction declarations using List.reverseRecOn generalizing schema with
  | nil =>
      cases h
      exact start
  | append_singleton declarations declaration ih =>
      obtain ⟨before, hbefore, hdeclare⟩ := build_concat_eq_ok_iff.1 h
      exact step declarations before declaration schema (ih hbefore) hdeclare

theorem build_induction {motive : Schema → Prop} {name : Text} (start : motive (.empty name))
    (step : ∀ schema declaration after, motive schema →
      schema.declare declaration = .ok after → motive after)
    {declarations : List Declaration} {schema : Schema}
    (h : build name declarations = .ok schema) : motive schema :=
  run_induction (motive := fun _ schema => motive schema) start
    (fun _ schema declaration after => step schema declaration after) h

theorem addArgument_eq_ok {schema after : Schema} {declared short long : Text}
    {type : ArgumentType} (h : schema.addArgument declared type short long = .ok after) :
    (readName declared).1 ∉ schema.arguments.map (·.name) ∧
      after = { schema with
        arguments := schema.arguments ++
          [{ index := schema.arguments.length + 1, name := (readName declared).1,
             isOption := (readName declared).2, type, short, long }] } := by
  simp only [addArgument] at h
  split at h
  · contradiction
  · rename_i hnew
    cases h
    exact ⟨by simpa using hnew, rfl⟩

theorem arguments_of_refine {schema after : Schema} {refinement : Refinement}
    (h : schema.refine refinement = .ok after) :
    after = { schema with arguments := modifyLast (·.refine refinement) schema.arguments } := by
  unfold Schema.refine at h
  split at h
  · split at h
    · cases h
      rfl
    · contradiction
  · cases h
    rfl

theorem name_of_declare {schema after : Schema} {declaration : Declaration}
    (h : schema.declare declaration = .ok after) : after.name = schema.name := by
  cases declaration with
  | group kind =>
      cases h
      rfl
  | argument declared type short long =>
      obtain ⟨-, rfl⟩ := addArgument_eq_ok h
      rfl
  | refine refinement =>
      obtain rfl := arguments_of_refine h
      rfl

theorem name_of_build {name : Text} {declarations : List Declaration} {schema : Schema}
    (h : build name declarations = .ok schema) : schema.name = name :=
  build_induction (motive := fun schema => schema.name = name) rfl
    (fun _ _ _ hname hdeclare => (name_of_declare hdeclare).trans hname) h

theorem map_modifyLast {α : Type} {f : Argument → Argument} {g : Argument → α}
    (h : ∀ argument, g (f argument) = g argument) (arguments : List Argument) :
    (modifyLast f arguments).map g = arguments.map g := by
  fun_induction modifyLast f arguments with
  | case1 => rfl
  | case2 argument => simp [h]
  | case3 argument next rest ih => simp [ih]

theorem modifyLast_concat (f : Argument → Argument) (earlier : List Argument) (last : Argument) :
    modifyLast f (earlier ++ [last]) = earlier ++ [f last] := by
  induction earlier with
  | nil => rfl
  | cons first earlier ih =>
      rw [List.cons_append, List.cons_append, ← ih]
      cases earlier <;> rfl

def NamesDiffer (schema : Schema) : Prop := (schema.arguments.map (·.name)).Nodup

theorem NamesDiffer.declare {schema after : Schema} {declaration : Declaration}
    (hnames : schema.NamesDiffer) (h : schema.declare declaration = .ok after) :
    after.NamesDiffer := by
  cases declaration with
  | group kind =>
      cases h
      exact hnames
  | argument declared type short long =>
      obtain ⟨hfresh, rfl⟩ := addArgument_eq_ok h
      rw [NamesDiffer, List.map_append, List.map_singleton, ← List.concat_eq_append]
      exact List.Nodup.concat hfresh hnames
  | refine refinement =>
      obtain rfl := arguments_of_refine h
      rw [NamesDiffer, map_modifyLast fun argument => argument.name_refine refinement]
      exact hnames

theorem namesDiffer_of_build {name : Text} {declarations : List Declaration} {schema : Schema}
    (h : build name declarations = .ok schema) : schema.NamesDiffer :=
  build_induction List.nodup_nil (fun _ _ _ hnames hdeclare => hnames.declare hdeclare) h

theorem NamesDiffer.nodup {schema : Schema} (h : schema.NamesDiffer) : schema.arguments.Nodup :=
  List.Nodup.of_map _ h

theorem NamesDiffer.eq_of_name {schema : Schema} (h : schema.NamesDiffer)
    {first second : Argument} (hfirst : first ∈ schema.arguments)
    (hsecond : second ∈ schema.arguments) (hname : first.name = second.name) : first = second :=
  List.inj_on_of_nodup_map h hfirst hsecond hname

theorem find?_eq_some_iff_mem {α : Type} {test : α → Bool} {members : List α} {member : α}
    (h : ∀ first ∈ members, ∀ second ∈ members, test first = true → test second = true →
      first = second) :
    members.find? test = some member ↔ member ∈ members ∧ test member = true := by
  refine ⟨fun hfound => ⟨List.mem_of_find?_eq_some hfound, List.find?_some hfound⟩, ?_⟩
  rintro ⟨hmem, htest⟩
  obtain ⟨found, hfound⟩ := Option.isSome_iff_exists.1 (List.find?_isSome.2 ⟨member, hmem, htest⟩)
  rw [hfound, h found (List.mem_of_find?_eq_some hfound) member hmem (List.find?_some hfound) htest]

theorem NamesDiffer.option?_eq_some_iff {schema : Schema} (h : schema.NamesDiffer) {name : Text}
    {argument : Argument} :
    schema.option? name = some argument ↔
      argument ∈ schema.arguments ∧ argument.isOption = true ∧ argument.name = name := by
  rw [option?, find?_eq_some_iff_mem, Bool.and_eq_true, decide_eq_true_eq]
  intro first hfirst second hsecond hname hsame
  rw [Bool.and_eq_true, decide_eq_true_eq] at hname hsame
  exact h.eq_of_name hfirst hsecond (hname.2.trans hsame.2.symm)

/-! ## Groups -/

def GroupsNumbered (schema : Schema) : Prop :=
  schema.groups.map (·.number) = List.range' 1 schema.groups.length

theorem GroupsNumbered.addGroup {schema : Schema} (h : schema.GroupsNumbered)
    (kind : GroupKind) : (schema.addGroup kind).GroupsNumbered := by
  rw [GroupsNumbered, Schema.addGroup, List.map_append, List.length_append, h,
    List.length_singleton, List.range'_1_concat]
  simp [Nat.add_comm]

theorem GroupsNumbered.declare {schema after : Schema} {declaration : Declaration}
    (hgroups : schema.GroupsNumbered) (h : schema.declare declaration = .ok after) :
    after.GroupsNumbered := by
  cases declaration with
  | group kind =>
      cases h
      exact hgroups.addGroup kind
  | argument declared type short long =>
      obtain ⟨-, rfl⟩ := addArgument_eq_ok h
      exact hgroups
  | refine refinement =>
      obtain rfl := arguments_of_refine h
      exact hgroups

theorem groupsNumbered_of_build {name : Text} {declarations : List Declaration}
    {schema : Schema} (h : build name declarations = .ok schema) : schema.GroupsNumbered :=
  build_induction (motive := GroupsNumbered) rfl
    (fun _ _ _ hgroups hdeclare => hgroups.declare hdeclare) h

theorem GroupsNumbered.eq_of_number {schema : Schema} (h : schema.GroupsNumbered)
    {first second : Group} (hfirst : first ∈ schema.groups) (hsecond : second ∈ schema.groups)
    (hnumber : first.number = second.number) : first = second := by
  have hnodup : (schema.groups.map (·.number)).Nodup := by
    rw [h]
    exact List.nodup_range'
  exact List.inj_on_of_nodup_map hnodup hfirst hsecond hnumber

theorem mem_groups_of_group? {schema : Schema} {number : GroupNumber} {group : Group}
    (h : schema.group? number = some group) : group ∈ schema.groups ∧ group.number = number :=
  ⟨List.mem_of_find?_eq_some h, by simpa using List.find?_some h⟩

theorem GroupsNumbered.group?_eq_some_iff {schema : Schema} (h : schema.GroupsNumbered)
    {number : GroupNumber} {group : Group} :
    schema.group? number = some group ↔ group ∈ schema.groups ∧ group.number = number := by
  rw [group?, find?_eq_some_iff_mem, decide_eq_true_eq]
  intro first hfirst second hsecond hnumber hsame
  rw [decide_eq_true_eq] at hnumber hsame
  exact h.eq_of_number hfirst hsecond (hnumber.trans hsame.symm)

def GroupsDeclared (schema : Schema) : Prop :=
  ∀ argument ∈ schema.arguments, ∀ number, argument.group = some number →
    ∃ group ∈ schema.groups, group.number = number

theorem mem_modifyLast {f : Argument → Argument} {arguments : List Argument}
    {argument : Argument} (h : argument ∈ modifyLast f arguments) :
    argument ∈ arguments ∨ ∃ last ∈ arguments, argument = f last := by
  fun_induction modifyLast f arguments with
  | case1 => contradiction
  | case2 last =>
      obtain rfl := List.mem_singleton.1 h
      exact .inr ⟨last, List.mem_cons_self, rfl⟩
  | case3 first next rest ih =>
      rcases List.mem_cons.1 h with rfl | h
      · exact .inl List.mem_cons_self
      · rcases ih h with hmem | ⟨last, hlast, rfl⟩
        · exact .inl (List.mem_cons_of_mem _ hmem)
        · exact .inr ⟨last, List.mem_cons_of_mem _ hlast, rfl⟩

theorem exists_group_of_refine {schema after : Schema} {number : GroupNumber}
    (h : schema.refine (.group number) = .ok after) :
    ∃ group ∈ schema.groups, group.number = number := by
  simp only [Schema.refine] at h
  split at h
  · rename_i hsome
    obtain ⟨group, hgroup⟩ := Option.isSome_iff_exists.1 hsome
    exact ⟨group, mem_groups_of_group? hgroup⟩
  · contradiction

theorem GroupsDeclared.declare {schema after : Schema} {declaration : Declaration}
    (hgroups : schema.GroupsDeclared) (h : schema.declare declaration = .ok after) :
    after.GroupsDeclared := by
  cases declaration with
  | group kind =>
      cases h
      intro argument hargument number hnumber
      obtain ⟨group, hgroup, hsame⟩ := hgroups argument hargument number hnumber
      exact ⟨group, List.mem_append_left _ hgroup, hsame⟩
  | argument declared type short long =>
      obtain ⟨-, rfl⟩ := addArgument_eq_ok h
      intro argument hargument number hnumber
      rcases List.mem_append.1 hargument with hargument | hargument
      · exact hgroups argument hargument number hnumber
      · obtain rfl := List.mem_singleton.1 hargument
        contradiction
  | refine refinement =>
      obtain rfl := arguments_of_refine h
      intro argument hargument number hnumber
      rcases mem_modifyLast hargument with hargument | ⟨last, hlast, rfl⟩
      · exact hgroups argument hargument number hnumber
      · cases refinement with
        | group joined =>
            obtain rfl : joined = number := Option.some.inj hnumber
            have hjoined : ∃ group ∈ schema.groups, group.number = joined :=
              exists_group_of_refine h
            exact hjoined
        | required | hidden | multiple | path | label => exact hgroups last hlast number hnumber

theorem groupsDeclared_of_build {name : Text} {declarations : List Declaration}
    {schema : Schema} (h : build name declarations = .ok schema) : schema.GroupsDeclared :=
  build_induction (fun _ hargument => absurd hargument List.not_mem_nil)
    (fun _ _ _ hgroups hdeclare => hgroups.declare hdeclare) h

end Schema

end CommandFrame

import CommandFrame.Proofs.Arguments.Occurrences
import CommandFrame.Proofs.Schema.Built

/-!
# Bound options are well typed

What an option is set to has the shape of its type, and of every group no more
members are set than it allows, and one where it asks for one.
-/

namespace CommandFrame

theorem Decimal.signed?_range {text : Text} {i : Int} (h : signed? text = some i) :
    -(Nat.pow 2 63 : Int) ≤ i ∧ i < Nat.pow 2 63 := by
  have hfilter := (Option.filter_eq_some_iff.1 h).2
  simpa using hfilter

/-- The values that an argument can be set to. -/
inductive Argument.Admits (argument : Argument) : Value → Prop
  | flag (htype : argument.type = .boolean) : Admits argument (.bool true)
  | truth (htype : argument.type = .stringBool) (b : Bool) : Admits argument (.bool b)
  | integer (htype : argument.type = .integer) {i : Int} (hlower : -(Nat.pow 2 63 : Int) ≤ i)
      (hupper : i < Nat.pow 2 63) : Admits argument (.int i)
  | real (htype : argument.type = .real) (r : Decimal.Binary64) : Admits argument (.real r)
  | word (htype : argument.type = .string) (hmultiple : argument.multiple = false)
      (text : Text) : Admits argument (.str text)
  | words (htype : argument.type = .string) (hmultiple : argument.multiple = false)
      {items : List Text} (hseveral : 2 ≤ items.length) : Admits argument (.list items)
  | lists (htype : argument.type = .string) (hmultiple : argument.multiple = true)
      (items : List Text) : Admits argument (.list items)

namespace Argument

variable {argument : Argument} {value : Value}

theorem Admits.type_ne_none (h : argument.Admits value) : argument.type ≠ .none := by
  cases h <;> simp_all

theorem Admits.eq_list (h : argument.Admits value) (htype : argument.type = .string)
    (hmultiple : argument.multiple = true) : ∃ items, value = .list items := by
  cases h <;> simp_all

theorem Admits.eq_str_or_list (h : argument.Admits value) (htype : argument.type = .string) :
    (∃ text, value = .str text) ∨ ∃ items, value = .list items := by
  cases h <;> simp_all

theorem admits_of_valueOf? {values : List (Option Text)}
    (h : argument.valueOf? values = some value) : argument.Admits value := by
  unfold valueOf? at h
  cases htype : argument.type with
  | none => simp [htype] at h
  | boolean =>
      simp only [htype] at h
      split at h
      · contradiction
      · cases h
        exact .flag htype
  | integer =>
      simp only [htype, Option.bind_eq_some_iff, Option.map_eq_some_iff] at h
      obtain ⟨text, -, i, hi, rfl⟩ := h
      obtain ⟨hlower, hupper⟩ := Decimal.signed?_range hi
      exact .integer htype hlower hupper
  | real =>
      simp only [htype, Option.bind_eq_some_iff, Option.map_eq_some_iff] at h
      obtain ⟨text, -, r, -, rfl⟩ := h
      exact .real htype r
  | stringBool =>
      simp only [htype, Option.bind_eq_some_iff, Option.map_eq_some_iff] at h
      obtain ⟨text, -, b, -, rfl⟩ := h
      exact .truth htype b
  | string =>
      cases hmultiple : argument.multiple with
      | true =>
          simp only [htype, hmultiple, ↓reduceIte] at h
          split at h
          · contradiction
          · cases h
            exact .lists htype hmultiple _
      | false =>
          simp only [htype, hmultiple, Bool.false_eq_true, ↓reduceIte] at h
          split at h
          · contradiction
          · cases h
            exact .word htype hmultiple _
          · rename_i hnone hone
            cases h
            refine .words htype hmultiple ?_
            match htexts : values.filterMap id with
            | [] => exact absurd htexts hnone
            | [text] => exact absurd htexts (hone text)
            | _ :: _ :: _ => simp

theorem Gives.string {text : Option Text} {given : Given} (h : argument.Gives text given) :
    (∀ word, given = .word word → argument.type = .string) ∧
      ∀ words, given = .words words → argument.type = .string ∧ argument.multiple = true := by
  cases h with
  | flag htakes =>
      split <;> simp
  | valued htakes hread =>
      unfold read? at hread
      constructor
      · rintro word rfl
        split at hread <;> simp_all
      · rintro words rfl
        split at hread
        case h_6 htype =>
          refine ⟨htype, ?_⟩
          by_cases hmultiple : argument.multiple = true
          · exact hmultiple
          · simp [hmultiple] at hread
        all_goals simp at hread

end Argument

/-! ## Groups -/

namespace Schema

variable {schema : Schema} {values : NameMap Value}

/-- As many members of the group are set as it allows. -/
def Satisfies (schema : Schema) (values : NameMap Value) (group : Group) : Prop :=
  let bound := (schema.members group.number).filter fun member => values.contains member.name
  bound.length ≤ 1 ∧ (group.isRequired = true → bound.length = 1)

theorem countP_memberNames (number : GroupNumber) :
    (schema.memberNames number).countP values.contains =
      ((schema.members number).filter fun member => values.contains member.name).length := by
  rw [memberNames, List.countP_map, List.countP_eq_length_filter]
  rfl

theorem satisfies_of_checkGroups {groups : List Group}
    (h : schema.checkGroups values groups = .ok ()) :
    ∀ group ∈ groups, schema.Satisfies values group := by
  induction groups with
  | nil => simp
  | cons group groups ih =>
      simp only [checkGroups, countP_memberNames] at h
      split at h
      · contradiction
      split at h
      · contradiction
      rename_i hsome hfew
      refine List.forall_mem_cons.2 ⟨⟨by omega, ?_⟩, ih h⟩
      intro hrequired
      simp only [hrequired, and_true] at hsome
      omega

theorem mem_arguments_of_option? {name : Text} {argument : Argument}
    (h : schema.option? name = some argument) :
    argument ∈ schema.arguments ∧ argument.isOption = true ∧ argument.name = name := by
  have hfound := List.find?_some h
  rw [Bool.and_eq_true, decide_eq_true_eq] at hfound
  exact ⟨List.mem_of_find?_eq_some h, hfound⟩

end Schema

/-! ## Bindings -/

theorem Chunk.admits_of_bindAll {schema : Schema} {chunks : List Chunk}
    (hchunks : ∀ chunk ∈ chunks, chunk.OfSchema schema) {name : Text} {value : Value}
    (h : (bindAll chunks).get? name = some value) :
    ∃ argument, schema.option? name = some argument ∧ argument.Admits value := by
  rw [get?_bindAll hchunks, Option.bind_eq_some_iff] at h
  obtain ⟨argument, hoption, hvalue⟩ := h
  exact ⟨argument, hoption, Argument.admits_of_valueOf? hvalue⟩

theorem Chunk.joins_of_ofSchema {schema : Schema} {before : List Chunk} {argument : Argument}
    {text : Option Text} {given : Given} {value : Value}
    (hbefore : ∀ chunk ∈ before, chunk.OfSchema schema)
    (hchunk : (Chunk.option argument text given).OfSchema schema)
    (h : (bindAll before).get? argument.name = some value) :
    (∀ word, given = .word word → (∃ text, value = .str text) ∨ ∃ items, value = .list items) ∧
      ∀ words, given = .words words → ∃ items, value = .list items := by
  obtain ⟨hoption, hgives⟩ := hchunk
  obtain ⟨hword, hwords⟩ := hgives.string
  obtain ⟨found, hfound, hadmits⟩ := admits_of_bindAll hbefore h
  obtain rfl := Option.some.inj (hoption.symm.trans hfound)
  constructor
  · intro word hgiven
    exact hadmits.eq_str_or_list (hword word hgiven)
  · intro words hgiven
    obtain ⟨htype, hmultiple⟩ := hwords words hgiven
    exact hadmits.eq_list htype hmultiple

namespace Schema

/-- In a parse that binds options, each of them is declared once and set to a value
of its type, and the groups are satisfied.  Occurrences that are joined to what
the option is set to find a value to join. -/
theorem parse_well_typed {name : Text} {declarations : List Declaration} {schema : Schema}
    (hbuild : build name declarations = .ok schema) (debug : Bool) (words : List Text) :
    (∀ bindings, schema.parse debug words = .ok (.bound bindings) →
      (∀ option value, bindings.value? option = some value →
        ∃ argument ∈ schema.arguments, argument.name = option ∧ argument.isOption = true ∧
          argument.type ≠ .none ∧ argument.Admits value ∧
          ∀ other ∈ schema.arguments, other.name = option → other = argument) ∧
      ∀ group ∈ schema.groups, schema.Satisfies bindings.values group) ∧
    ∀ chunks, Chunk.readAll schema words = .ok chunks →
      ∀ before argument text given after,
        chunks = before ++ .option argument text given :: after →
        ∀ value, (Chunk.bindAll before).get? argument.name = some value →
          (∀ word, given = .word word →
            (∃ text, value = .str text) ∨ ∃ items, value = .list items) ∧
          ∀ words, given = .words words → ∃ items, value = .list items := by
  constructor
  · intro bindings hparse
    obtain ⟨chunks, hread, hgroups, hvalues, -⟩ := bound_of_parse hparse
    have hchunks := Chunk.ofSchema_of_readAll hread
    refine ⟨?_, hvalues ▸ satisfies_of_checkGroups hgroups⟩
    intro option value hvalue
    rw [Bindings.value?, hvalues] at hvalue
    obtain ⟨argument, hoption, hadmits⟩ := Chunk.admits_of_bindAll hchunks hvalue
    obtain ⟨hlisted, hdash, rfl⟩ := mem_arguments_of_option? hoption
    refine ⟨argument, hlisted, rfl, hdash, hadmits.type_ne_none, hadmits, ?_⟩
    intro other hother hname
    exact (namesDiffer_of_build hbuild).eq_of_name hother hlisted hname
  · rintro chunks hread before argument text given after rfl value hvalue
    have hchunks := Chunk.ofSchema_of_readAll hread
    rw [List.forall_mem_append, List.forall_mem_cons] at hchunks
    exact Chunk.joins_of_ofSchema hchunks.1 hchunks.2.1 hvalue

namespace Choice

def declarations : List Declaration :=
  [.group .required, .argument "-a" .boolean "" "", .refine (.group 1),
    .argument "-b" .string "b" "", .refine (.group 1), .argument "file" .string "file" "",
    .refine (.group 1)]

def letter : Argument := ⟨2, "b", true, .string, "b", "", false, false, false, false, some 1, []⟩

def schema : Schema :=
  ⟨"pick", [⟨1, "a", true, .boolean, "", "", false, false, false, false, some 1, []⟩, letter,
    ⟨3, "file", false, .string, "file", "", false, false, false, false, some 1, []⟩],
    [⟨1, .required⟩]⟩

end Choice

theorem parse_well_typed_repeated :
    build "pick" Choice.declarations = .ok Choice.schema ∧
    ∃ bindings, Choice.schema.parse false ["-b", "x", "file", "-b", "y"] = .ok (.bound bindings) ∧
      bindings.value? "b" = some (.list ["x", "y"]) ∧
      Choice.letter.Admits (.list ["x", "y"]) ∧
      Choice.schema.Satisfies bindings.values ⟨1, .required⟩ := by
  have hbuild : build "pick" Choice.declarations = .ok Choice.schema := by cbv
  have hread : Chunk.readAll Choice.schema ["-b", "x", "file", "-b", "y"] =
      .ok [.option Choice.letter (some "x") (.word "x"), .positional "file",
        .option Choice.letter (some "y") (.word "y")] := by
    cbv
  have hparse := parse_of_readAll hread false
  have hvalue : (Chunk.bindAll [.option Choice.letter (some "x") (.word "x"), .positional "file",
      .option Choice.letter (some "y") (.word "y")]).get? "b" = some (.list ["x", "y"]) := rfl
  obtain ⟨hbound, -⟩ := parse_well_typed hbuild false ["-b", "x", "file", "-b", "y"]
  obtain ⟨hvalues, hgroups⟩ := hbound _ hparse
  obtain ⟨argument, hlisted, hname, -, -, hadmits, -⟩ := hvalues _ _ hvalue
  have hletter : argument = Choice.letter :=
    (namesDiffer_of_build hbuild).eq_of_name hlisted (by decide) hname
  exact ⟨hbuild, _, hparse, hvalue, hletter ▸ hadmits, hgroups _ List.mem_cons_self⟩

end Schema

end CommandFrame

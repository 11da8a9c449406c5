import CommandFrame.Proofs.Arguments.Terminator
import CommandFrame.Proofs.Arguments.WellTyped
import CommandFrame.Proofs.Decimal.Integer
import CommandFrame.Proofs.WordList.RoundTrip

/-!
# Bindings that are spelled out

Bindings can be written as words again: each option with what it is set to, in the order of
names, and the positional words behind the terminator.  A parse of these words comes to the
same bindings.
-/

namespace CommandFrame

/-! ## Spelling -/

def Value.strings : Value → List Text
  | str s => [s]
  | list items => items
  | int _ | real _ | bool _ => []

/-- What to give to an option for a value: its name alone to a flag, the strings one by one
to a plain string, and the value as it is shown to all others. -/
def Argument.spelling (argument : Argument) (value : Value) : List (Option Text) :=
  match argument.type with
  | .boolean => [none]
  | .string =>
      if argument.multiple then [some value.render] else value.strings.map some
  | .none | .integer | .real | .stringBool => [some value.render]

def Schema.spell (schema : Schema) (entry : Text × Value) : List Text :=
  match schema.option? entry.1 with
  | none => []
  | some argument =>
      (argument.spelling entry.2).flatMap fun given => ('-' :: entry.1) :: given.toList

def Bindings.spelled (bindings : Bindings) (schema : Schema) : List Text :=
  bindings.values.entries.flatMap schema.spell ++ ("--" : Text) :: bindings.positionals

/-! ## Values -/

namespace Argument

variable {argument : Argument} {value : Value}

theorem spelling_cases (h : argument.Admits value) (hreal : argument.type ≠ .real) :
    (∃ text given, argument.spelling value = [text] ∧ argument.Gives text given ∧
      Chunk.accumulate none given = some value) ∨
    ∃ items, value = .list items ∧ argument.spelling value = items.map some ∧
      2 ≤ items.length ∧ argument.type = .string ∧ argument.multiple = false := by
  cases h with
  | flag htype =>
      refine .inl ⟨none, .flag, by rw [spelling, htype], ?_, rfl⟩
      have hgives : argument.Gives none _ := .flag (by rw [htype]; rfl)
      rwa [if_pos htype] at hgives
  | truth htype b =>
      refine .inl ⟨some (Value.bool b).render, .bool b, by rw [spelling, htype], ?_, rfl⟩
      refine .valued (by rw [htype]; rfl) ?_
      rw [read?, htype]
      cases b <;> rfl
  | @integer htype i hlower hupper =>
      refine .inl ⟨some (Value.int i).render, .int i, by rw [spelling, htype], ?_, rfl⟩
      refine .valued (by rw [htype]; rfl) ?_
      simp only [read?, htype, Value.render, Decimal.trim_ofInt,
        Decimal.signed?_ofInt hlower hupper, Option.map_some]
  | real htype => exact absurd htype hreal
  | word htype hmultiple text =>
      refine .inl ⟨some text, .word text, ?_, ?_, rfl⟩
      · simp [spelling, htype, hmultiple, Value.strings]
      · exact .valued (by rw [htype]; rfl) (by simp [read?, htype, hmultiple])
  | @words htype hmultiple items hseveral =>
      refine .inr ⟨items, rfl, ?_, hseveral, htype, hmultiple⟩
      simp [spelling, htype, hmultiple, Value.strings]
  | lists htype hmultiple items =>
      refine .inl ⟨some (Value.list items).render, .words items, ?_, ?_, rfl⟩
      · simp [spelling, htype, hmultiple]
      · refine .valued (by rw [htype]; rfl) ?_
        obtain ⟨elements, hread, hitems⟩ := WordList.readElements_merge items
        simp only [read?, htype, hmultiple, Value.render, WordList.split_of_readElements hread,
          hitems]
        rfl

theorem gives_of_mem_spelling (h : argument.Admits value) (hreal : argument.type ≠ .real)
    {text : Option Text} (hmem : text ∈ argument.spelling value) :
    ∃ given, argument.Gives text given := by
  obtain ⟨only, given, hspelling, hgives, -⟩ | ⟨items, -, hspelling, -, htype, hmultiple⟩ :=
    spelling_cases h hreal
  · obtain rfl : text = only := by simpa [hspelling] using hmem
    exact ⟨given, hgives⟩
  · rw [hspelling, List.mem_map] at hmem
    obtain ⟨item, -, rfl⟩ := hmem
    exact ⟨.word item, .valued (by rw [htype]; rfl) (by simp [read?, htype, hmultiple])⟩

theorem valueOf?_spelling (h : argument.Admits value) (hreal : argument.type ≠ .real) :
    argument.valueOf? (argument.spelling value) = some value := by
  obtain ⟨text, given, hspelling, hgives, hvalue⟩ |
    ⟨items, rfl, hspelling, hseveral, htype, hmultiple⟩ := spelling_cases h hreal
  · have haccumulate := hgives.accumulate_eq []
    rw [valueOf?_nil, hvalue] at haccumulate
    rw [hspelling]
    exact haccumulate.symm
  · rw [hspelling, valueOf?, htype]
    rcases items with _ | ⟨first, _ | ⟨second, rest⟩⟩
    · simp at hseveral
    · simp at hseveral
    · simp [hmultiple]

theorem spelling_ne_nil (h : argument.Admits value) (hreal : argument.type ≠ .real) :
    argument.spelling value ≠ [] := by
  intro hnil
  have hvalue := valueOf?_spelling h hreal
  rw [hnil, valueOf?_nil] at hvalue
  contradiction

def given (argument : Argument) : Option Text → Given
  | none => if argument.type = .boolean then .flag else .nothing
  | some text => (argument.read? text).getD .nothing

theorem Gives.eq_given {text : Option Text} {given : Given} (h : argument.Gives text given) :
    given = argument.given text := by
  cases h with
  | flag htakes => rfl
  | valued htakes hread => rw [Argument.given, hread, Option.getD_some]

end Argument

/-! ## Chunks -/

namespace Chunk

def giving (argument : Argument) (text : Option Text) : Chunk :=
  .option argument text (argument.given text)

variable {schema : Schema} {argument : Argument} {text : Option Text} {given : Given}

theorem readable_giving (hlists : Lists schema argument) (h : argument.Gives text given) :
    Readable schema (giving argument text) := by
  have hgiven := h.eq_given
  subst hgiven
  generalize hsome : argument.given text = given at h
  cases h with
  | flag htakes =>
      refine ⟨'-' :: argument.name, [], rfl, fun behind => ?_⟩
      rw [giving, hsome]
      exact .flag behind hlists htakes
  | @valued value given htakes hread =>
      refine ⟨'-' :: argument.name, [value], rfl, fun behind => ?_⟩
      rw [giving, hsome]
      exact .valued behind hlists htakes hread

theorem ofSchema_giving (hlists : Lists schema argument) (h : argument.Gives text given) :
    (giving argument text).OfSchema schema :=
  ⟨hlists.option?_eq, h.eq_given ▸ h⟩

theorem valuesOf_map_giving (name : Text) (argument : Argument) (texts : List (Option Text)) :
    valuesOf name (texts.map (giving argument)) = if argument.name = name then texts else [] := by
  induction texts with
  | nil => simp [valuesOf]
  | cons text texts ih =>
      rw [List.map_cons, giving, valuesOf_cons_option, ih]
      split <;> rfl

theorem lists_of_readAll {words : List Text} {chunks : List Chunk}
    (h : readAll schema words = .ok chunks) (hmem : .option argument text given ∈ chunks) :
    Lists schema argument := by
  have hall : ∀ chunk ∈ chunks, ∀ argument text given,
      chunk = .option argument text given → Lists schema argument := by
    refine forall_of_readAll ?_ ?_ h
    · intro word argument text given heq
      contradiction
    · intro word rest chunk after heffect argument text given heq
      subst heq
      cases heffect with
      | flag rest hlists => exact hlists
      | valued rest hlists => exact hlists
  exact hall _ hmem _ _ _ rfl

theorem exists_of_valuesOf_ne_nil {name : Text} {chunks : List Chunk}
    (h : valuesOf name chunks ≠ []) :
    ∃ argument text given, .option argument text given ∈ chunks ∧ argument.name = name := by
  obtain ⟨text, htext⟩ := List.exists_mem_of_ne_nil _ h
  obtain ⟨chunk, hchunk, hvalue⟩ := List.mem_filterMap.1 htext
  cases chunk with
  | option argument value given =>
      refine ⟨argument, value, given, hchunk, ?_⟩
      by_contra hname
      simp [hname] at hvalue
  | positional | help | hidden | terminator => simp at hvalue

end Chunk

/-! ## Entries -/

namespace Schema

variable {schema : Schema}

/-- Words can set the option to what the entry says. -/
structure CanSet (schema : Schema) (entry : Text × Value) (argument : Argument) : Prop where
  name_eq : argument.name = entry.1
  lists : Chunk.Lists schema argument
  admits : argument.Admits entry.2
  type_ne_real : argument.type ≠ .real

def spellChunks (schema : Schema) (entry : Text × Value) : List Chunk :=
  match schema.option? entry.1 with
  | none => []
  | some argument => (argument.spelling entry.2).map (Chunk.giving argument)

theorem flatMap_words_spellChunks (entry : Text × Value) :
    (schema.spellChunks entry).flatMap Chunk.words = schema.spell entry := by
  unfold spellChunks spell
  cases hoption : schema.option? entry.1 with
  | none => rfl
  | some argument =>
      rw [← name_of_option? hoption, List.flatMap_map]
      rfl

namespace CanSet

variable {entry : Text × Value} {argument : Argument}

theorem option?_eq (h : schema.CanSet entry argument) :
    schema.option? entry.1 = some argument := by
  rw [← h.name_eq]
  exact h.lists.option?_eq

theorem spellChunks_eq (h : schema.CanSet entry argument) :
    schema.spellChunks entry = (argument.spelling entry.2).map (Chunk.giving argument) := by
  rw [spellChunks, h.option?_eq]

theorem readable (h : schema.CanSet entry argument) :
    ∀ chunk ∈ schema.spellChunks entry, chunk.Readable schema ∧ chunk.OfSchema schema ∧
      ∃ text given, chunk = .option argument text given := by
  rw [h.spellChunks_eq, List.forall_mem_map]
  intro text htext
  obtain ⟨given, hgives⟩ := Argument.gives_of_mem_spelling h.admits h.type_ne_real htext
  exact ⟨Chunk.readable_giving h.lists hgives, Chunk.ofSchema_giving h.lists hgives, text, _, rfl⟩

theorem valuesOf_spellChunks (h : schema.CanSet entry argument) (name : Text) :
    Chunk.valuesOf name (schema.spellChunks entry) =
      if entry.1 = name then argument.spelling entry.2 else [] := by
  rw [h.spellChunks_eq, Chunk.valuesOf_map_giving, h.name_eq]

theorem asksHidden_spellChunks (h : schema.CanSet entry argument) :
    Chunk.asksHidden (schema.spellChunks entry) = decide (entry.1 = "hidden") := by
  have hsome := Argument.spelling_ne_nil h.admits h.type_ne_real
  rw [h.spellChunks_eq, ← h.name_eq]
  cases hspelling : argument.spelling entry.2 with
  | nil => exact absurd hspelling hsome
  | cons text texts => simp [Chunk.asksHidden, Chunk.giving]

end CanSet

theorem exists_canSet_of_parse
    (hreal : ∀ argument ∈ schema.arguments, argument.isOption = true → argument.type ≠ .real)
    {debug : Bool} {words : List Text} {bindings : Bindings}
    (h : schema.parse debug words = .ok (.bound bindings)) :
    ∀ entry ∈ bindings.values.entries, ∃ argument, schema.CanSet entry argument := by
  rintro ⟨name, value⟩ hentry
  obtain ⟨chunks, hread, -, hvalues, -⟩ := bound_of_parse h
  have hget := NameMap.get?_eq_some_iff.2 hentry
  rw [hvalues, Chunk.get?_bindAll (Chunk.ofSchema_of_readAll hread),
    Option.bind_eq_some_iff] at hget
  obtain ⟨argument, hoption, hvalue⟩ := hget
  obtain ⟨hlisted, hdash, hname⟩ := mem_arguments_of_option? hoption
  have hgiven : Chunk.valuesOf name chunks ≠ [] := by
    intro hnil
    rw [hnil, Argument.valueOf?_nil] at hvalue
    contradiction
  obtain ⟨found, text, given, hchunk, hfound⟩ := Chunk.exists_of_valuesOf_ne_nil hgiven
  have hlists := Chunk.lists_of_readAll hread hchunk
  have hsame := hlists.option?_eq
  rw [hfound, hoption] at hsame
  obtain rfl := Option.some.inj hsame
  exact ⟨argument, hname, hlists, Argument.admits_of_valueOf? hvalue, hreal _ hlisted hdash⟩

section

variable {entries : List (Text × Value)}
  (h : ∀ entry ∈ entries, ∃ argument, schema.CanSet entry argument)

include h

theorem readable_spellChunks :
    ∀ chunk ∈ entries.flatMap schema.spellChunks,
      chunk.Readable schema ∧ chunk.OfSchema schema ∧
        ∃ argument text given, chunk = .option argument text given := by
  intro chunk hchunk
  obtain ⟨entry, hentry, hmem⟩ := List.mem_flatMap.1 hchunk
  obtain ⟨argument, hset⟩ := h entry hentry
  obtain ⟨hreadable, hschema, hoption⟩ := hset.readable chunk hmem
  exact ⟨hreadable, hschema, argument, hoption⟩

theorem valuesOf_flatMap_spellChunks_eq_nil {name : Text}
    (hname : ∀ entry ∈ entries, entry.1 ≠ name) :
    Chunk.valuesOf name (entries.flatMap schema.spellChunks) = [] := by
  rw [Chunk.valuesOf, List.filterMap_flatMap, List.flatMap_eq_nil_iff]
  intro entry hentry
  obtain ⟨argument, hset⟩ := h entry hentry
  exact (hset.valuesOf_spellChunks name).trans (if_neg (hname entry hentry))

theorem valueOf?_flatMap_spellChunks
    (hincreasing : entries.Pairwise fun first second => first.1 < second.1) (name : Text) :
    ((schema.option? name).bind fun argument =>
        argument.valueOf? (Chunk.valuesOf name (entries.flatMap schema.spellChunks))) =
      NameMap.find? name entries := by
  induction entries with
  | nil =>
      cases schema.option? name with
      | none => rfl
      | some argument => exact argument.valueOf?_nil
  | cons entry rest ih =>
      obtain ⟨hhead, hrest⟩ := List.pairwise_cons.1 hincreasing
      rw [List.forall_mem_cons] at h
      obtain ⟨⟨argument, hset⟩, hothers⟩ := h
      rw [List.flatMap_cons, Chunk.valuesOf_append, hset.valuesOf_spellChunks, NameMap.find?]
      by_cases hname : entry.1 = name
      · subst hname
        have hdiffer : ∀ other ∈ rest, other.1 ≠ entry.1 := by
          intro other hother hsame
          have hlt := hhead other hother
          rw [hsame] at hlt
          exact List.lt_irrefl entry.1 hlt
        have hnone := valuesOf_flatMap_spellChunks_eq_nil hothers hdiffer
        rw [hnone, List.append_nil, if_pos rfl, if_pos rfl, hset.option?_eq, Option.bind_some]
        exact Argument.valueOf?_spelling hset.admits hset.type_ne_real
      · rw [if_neg hname, if_neg hname]
        exact ih hothers hrest

theorem asksHidden_flatMap_spellChunks :
    Chunk.asksHidden (entries.flatMap schema.spellChunks) =
      (NameMap.find? "hidden" entries).isSome := by
  induction entries with
  | nil => rfl
  | cons entry rest ih =>
      rw [List.forall_mem_cons] at h
      obtain ⟨⟨argument, hset⟩, hothers⟩ := h
      have hhead := hset.asksHidden_spellChunks
      have hrest := ih hothers
      rw [Chunk.asksHidden] at hhead hrest ⊢
      rw [List.flatMap_cons, List.any_append, hhead, hrest, NameMap.find?]
      by_cases hname : entry.1 = ("hidden" : Text)
      · rw [if_pos hname, decide_eq_true hname]
        rfl
      · rw [if_neg hname, decide_eq_false hname]
        rfl

end

end Schema

/-! ## The parse -/

namespace Chunk

variable {chunks : List Chunk}
  (h : ∀ chunk ∈ chunks, ∃ argument text given, chunk = .option argument text given)

include h

theorem positionals_eq_nil : positionals chunks = [] := by
  refine List.filterMap_eq_nil_iff.2 fun chunk hchunk => ?_
  obtain ⟨argument, text, given, rfl⟩ := h chunk hchunk
  rfl

theorem notMem_of_options {chunk : Chunk}
    (hchunk : ∀ argument text given, chunk ≠ .option argument text given) : chunk ∉ chunks := by
  intro hmem
  obtain ⟨argument, text, given, heq⟩ := h chunk hmem
  exact hchunk argument text given heq

theorem asksHelp_eq_false : asksHelp chunks = false := by
  have hnone : .help ∉ chunks := notMem_of_options h (by simp)
  simpa [asksHelp] using hnone

end Chunk

namespace Schema

theorem finish_of_not_asksHelp {schema : Schema} {chunks : List Chunk}
    (h : Chunk.asksHelp chunks = false) (debug : Bool) :
    schema.finish debug chunks =
      (schema.checkGroups (Chunk.bindAll chunks) schema.groups).map fun _ =>
        .bound ⟨Chunk.bindAll chunks, Chunk.positionals chunks, Chunk.asksHidden chunks, none⟩ := by
  simp [finish, h]

/-- Bindings that words are parsed to are what the words that spell them are parsed to, with
any strings in them and any numbers of 64 bits. -/
theorem parse_spelled {schema : Schema}
    (hreal : ∀ argument ∈ schema.arguments, argument.isOption = true → argument.type ≠ .real)
    {debug : Bool} {words : List Text} {bindings : Bindings}
    (h : schema.parse debug words = .ok (.bound bindings)) (again : Bool) :
    schema.parse again (bindings.spelled schema) =
      .ok (.bound { bindings with showHidden := bindings.has "hidden", help := none }) := by
  have hset := exists_canSet_of_parse hreal h
  obtain ⟨first, -, hgroups, hvalues, -⟩ := bound_of_parse h
  have hchunks := readable_spellChunks hset
  have hoptions := fun chunk hchunk => (hchunks chunk hchunk).2.2
  have hopen : .terminator ∉ bindings.values.entries.flatMap schema.spellChunks :=
    Chunk.notMem_of_options hoptions (by simp)
  have hwords : (bindings.values.entries.flatMap schema.spellChunks).flatMap Chunk.words =
      bindings.values.entries.flatMap schema.spell := by
    rw [List.flatMap_assoc]
    exact List.flatMap_congr fun entry _ => flatMap_words_spellChunks entry
  have hread := Chunk.readAll_append (fun chunk hchunk => (hchunks chunk hchunk).1) hopen
    (("--" : Text) :: bindings.positionals)
  rw [hwords, Chunk.readAll_terminator] at hread
  have hbind : Chunk.bindAll (bindings.values.entries.flatMap schema.spellChunks) =
      bindings.values := by
    refine NameMap.ext_get? fun name => ?_
    rw [Chunk.get?_bindAll fun chunk hchunk => (hchunks chunk hchunk).2.1]
    exact valueOf?_flatMap_spellChunks hset bindings.values.increasing name
  have hjudged : schema.checkGroups bindings.values schema.groups = .ok () := hvalues ▸ hgroups
  calc schema.parse again (bindings.spelled schema)
    _ = schema.finish again (bindings.values.entries.flatMap schema.spellChunks ++
          Chunk.terminated bindings.positionals) := parse_of_readAll hread again
    _ = (schema.finish again (bindings.values.entries.flatMap schema.spellChunks)).map
          (·.addPositionals bindings.positionals) := finish_append_terminated ..
    _ = .ok (.bound { bindings with showHidden := bindings.has "hidden", help := none }) := by
      rw [finish_of_not_asksHelp (Chunk.asksHelp_eq_false hoptions), hbind, hjudged,
        Chunk.positionals_eq_nil hoptions, asksHidden_flatMap_spellChunks hset]
      rfl

namespace Spelling

def flag : Argument :=
  ⟨1, "b", true, .boolean, "", "", false, false, false, false, some 1, []⟩

def count : Argument :=
  ⟨2, "i", true, .integer, "i", "", false, false, false, false, none, []⟩

def list : Argument :=
  ⟨3, "m", true, .string, "m", "", false, false, true, false, none, []⟩

def label : Argument :=
  ⟨4, "s", true, .string, "s", "", false, false, false, false, none, []⟩

def truth : Argument :=
  ⟨5, "t", true, .stringBool, "t", "", false, false, false, false, none, []⟩

def schema : Schema := ⟨"t", [flag, count, list, label, truth], [⟨1, .required⟩]⟩

def given : List Text :=
  ["-m", "a \x7bc ;\x7d -b", "-s", "-i", "-t", "YES", "-b", "-i", " -9223372036854775808",
    "-s", "--", "x", "--", "-y", ""]

def spelled : List Text :=
  ["-b", "-i", "-9223372036854775808", "-m", "a \x7bc ;\x7d -b", "-s", "-i", "-s", "--",
    "-t", "1", "--", "x", "-y", ""]

end Spelling

theorem parse_spelled_strings :
    ∃ bindings, Spelling.schema.parse false Spelling.given = .ok (.bound bindings) ∧
      bindings.spelled Spelling.schema = Spelling.spelled ∧
      Spelling.schema.parse true Spelling.spelled = .ok (.bound bindings) := by
  have hlists : Chunk.Lists Spelling.schema Spelling.list := ⟨by decide, by decide, rfl⟩
  have hitems : Spelling.list.read? "a \x7bc ;\x7d -b" = some (.words ["a", "c ;", "-b"]) := by
    cbv
  have hlist : Chunk.Effect Spelling.schema "-m" Spelling.given.tail
      (.ok (.option Spelling.list (some "a \x7bc ;\x7d -b") (.words ["a", "c ;", "-b"]),
        Spelling.given.drop 2)) :=
    .valued _ hlists rfl hitems
  have hothers : Chunk.readAll Spelling.schema (Spelling.given.drop 2) =
      .ok [.option Spelling.label (some "-i") (.word "-i"),
        .option Spelling.truth (some "YES") (.bool true),
        .option Spelling.flag none .flag,
        .option Spelling.count (some " -9223372036854775808") (.int (-9223372036854775808)),
        .option Spelling.label (some "--") (.word "--"), .positional "x", .terminator,
        .positional "-y", .positional ""] := by
    cbv
  have hread := hlist.readAll_eq_map (by simp)
  rw [hothers] at hread
  have hparse := parse_of_readAll hread false
  have hreal : ∀ argument ∈ Spelling.schema.arguments, argument.isOption = true →
      argument.type ≠ .real := by
    decide
  refine ⟨_, hparse, ?_, ?_⟩
  · rfl
  · exact parse_spelled hreal hparse true

end Schema

end CommandFrame

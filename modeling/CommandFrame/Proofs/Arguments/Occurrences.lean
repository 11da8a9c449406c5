import CommandFrame.Proofs.Arguments.Reading
import CommandFrame.Proofs.NameMap

/-!
# What was given to each option

The words of all options come mixed.  What an option is set to depends on the
values given to that option alone, in their order, and so a parse depends on
these, on the positional words, and on whether help or the hidden options were
asked for.
-/

namespace CommandFrame

/-! ## Values of an option -/

def Chunk.valuesOf (name : Text) (chunks : List Chunk) : List (Option Text) :=
  chunks.filterMap fun
    | .option argument value _ => if argument.name = name then some value else none
    | _ => none

/-- What an option is set to when it is given values: strings are collected,
and of other values the last one counts. -/
def Argument.valueOf? (argument : Argument) (values : List (Option Text)) : Option Value :=
  let texts := values.filterMap id
  match argument.type with
  | .none => none
  | .boolean => if values = [] then none else some (.bool true)
  | .integer => texts.getLast?.bind fun text => (Decimal.signed? (Text.trim text)).map .int
  | .real => texts.getLast?.bind fun text => (Decimal.Binary64.parse? (Text.trim text)).map .real
  | .stringBool => texts.getLast?.bind fun text => (readBool? text).map .bool
  | .string =>
      if argument.multiple then
        if values = [] then none
        else some (.list (texts.flatMap fun text => (WordList.split text).toOption.getD []))
      else
        match texts with
        | [] => none
        | [text] => some (.str text)
        | texts => some (.list texts)

/-- What one more occurrence of an option gives, with its value. -/
inductive Argument.Gives (argument : Argument) : Option Text → Given → Prop
  | flag (htakes : argument.type.takesValue = false) :
      Gives argument none (if argument.type = .boolean then .flag else .nothing)
  | valued {text : Text} {given : Given} (htakes : argument.type.takesValue = true)
      (hread : argument.read? text = some given) : Gives argument (some text) given

theorem Argument.valueOf?_nil (argument : Argument) : argument.valueOf? [] = none := by
  unfold valueOf?
  cases argument.type with
  | string => cases argument.multiple <;> rfl
  | _ => rfl

theorem Argument.Gives.accumulate_eq {argument : Argument} {value : Option Text} {given : Given}
    (h : argument.Gives value given) (values : List (Option Text)) :
    Chunk.accumulate (argument.valueOf? values) given = argument.valueOf? (values ++ [value]) := by
  cases h with
  | flag htakes =>
      cases htype : argument.type <;> simp_all [valueOf?, Chunk.accumulate, ArgumentType.takesValue]
  | @valued text _ htakes hread =>
      have htexts : (values ++ [some text]).filterMap id = values.filterMap id ++ [text] := by
        rw [List.filterMap_append]
        rfl
      cases htype : argument.type with
      | none | boolean => simp [htype, ArgumentType.takesValue] at htakes
      | integer =>
          simp only [read?, htype, Option.map_eq_some_iff] at hread
          obtain ⟨i, hi, rfl⟩ := hread
          simp [valueOf?, htype, Chunk.accumulate, hi]
      | real =>
          simp only [read?, htype, Option.map_eq_some_iff] at hread
          obtain ⟨r, hr, rfl⟩ := hread
          simp [valueOf?, htype, Chunk.accumulate, hr]
      | stringBool =>
          simp only [read?, htype, Option.map_eq_some_iff] at hread
          obtain ⟨b, hb, rfl⟩ := hread
          simp [valueOf?, htype, Chunk.accumulate, hb]
      | string =>
          by_cases hmultiple : argument.multiple = true
          · simp only [read?, htype, hmultiple, ↓reduceIte, Option.map_eq_some_iff] at hread
            obtain ⟨words, hwords, rfl⟩ := hread
            simp only [valueOf?, htype, hmultiple, htexts, List.flatMap_append]
            by_cases hnone : values = []
            · simp [hnone, Chunk.accumulate, hwords]
            · simp [hnone, Chunk.accumulate, hwords]
          · simp only [read?, htype, hmultiple, Bool.false_eq_true, ↓reduceIte,
              Option.some.injEq] at hread
            subst hread
            simp only [valueOf?, htype, hmultiple, htexts]
            cases values.filterMap id with
            | nil => simp [Chunk.accumulate]
            | cons first rest => cases rest <;> simp [Chunk.accumulate]

namespace Chunk

variable {schema : Schema} {chunk : Chunk} {chunks : List Chunk} {values : NameMap Value}

theorem valuesOf_append (name : Text) (first second : List Chunk) :
    valuesOf name (first ++ second) = valuesOf name first ++ valuesOf name second :=
  List.filterMap_append

theorem valuesOf_cons_option (name : Text) (argument : Argument) (value : Option Text)
    (given : Given) (chunks : List Chunk) :
    valuesOf name (.option argument value given :: chunks) =
      if argument.name = name then value :: valuesOf name chunks else valuesOf name chunks := by
  by_cases hname : argument.name = name
  · simp [valuesOf, hname]
  · simp [valuesOf, hname]

theorem accumulate_eq_none {before : Option Value} {given : Given}
    (h : accumulate before given = none) : before = none := by
  cases given with
  | nothing => exact h
  | word | words =>
      simp only [accumulate] at h
      split at h <;> contradiction
  | flag | int | real | bool => contradiction

theorem get?_bind_option (values : NameMap Value) (argument : Argument) (value : Option Text)
    (given : Given) (name : Text) :
    (bind values (.option argument value given)).get? name =
      if argument.name = name then accumulate (values.get? name) given else values.get? name := by
  simp only [bind]
  split
  · rename_i bound hbound
    rw [NameMap.get?_insert]
    split
    · rename_i hname
      rw [← hname, hbound]
    · rfl
  · rename_i hnone
    split
    · rename_i hname
      rw [← hname, hnone, accumulate_eq_none hnone]
    · rfl

def OfSchema (schema : Schema) : Chunk → Prop
  | .option argument value given =>
      schema.option? argument.name = some argument ∧ argument.Gives value given
  | _ => True

theorem Effect.ofSchema {word : Text} {rest after : List Text}
    (h : Effect schema word rest (.ok (chunk, after))) : chunk.OfSchema schema := by
  cases h with
  | flag rest hlists htakes => exact ⟨hlists.option?_eq, .flag htakes⟩
  | valued rest hlists htakes hread => exact ⟨hlists.option?_eq, .valued htakes hread⟩
  | positional | help | terminator | hidden => trivial

theorem get?_bind {name : Text} {given : List (Option Text)} (hchunk : chunk.OfSchema schema)
    (h : values.get? name = (schema.option? name).bind (·.valueOf? given)) :
    (bind values chunk).get? name =
      (schema.option? name).bind (·.valueOf? (given ++ valuesOf name [chunk])) := by
  cases chunk with
  | option argument value occurrence =>
      obtain ⟨hoption, hgives⟩ := hchunk
      rw [get?_bind_option]
      by_cases hname : argument.name = name
      · subst hname
        rw [hoption, Option.bind_some] at h ⊢
        rw [if_pos rfl, h, hgives.accumulate_eq, valuesOf_cons_option, if_pos rfl]
        rfl
      · rw [if_neg hname, h, valuesOf_cons_option, if_neg hname]
        simp [valuesOf]
  | positional | help | hidden | terminator => simpa [valuesOf, bind] using h

theorem get?_foldl_bind {name : Text} {given : List (Option Text)}
    (hchunks : ∀ chunk ∈ chunks, chunk.OfSchema schema)
    (h : values.get? name = (schema.option? name).bind (·.valueOf? given)) :
    (chunks.foldl bind values).get? name =
      (schema.option? name).bind (·.valueOf? (given ++ valuesOf name chunks)) := by
  induction chunks generalizing values given with
  | nil => simpa [valuesOf] using h
  | cons chunk chunks ih =>
      rw [List.forall_mem_cons] at hchunks
      have hrest := ih hchunks.2 (get?_bind hchunks.1 h)
      rw [List.append_assoc, ← valuesOf_append] at hrest
      exact hrest

theorem get?_bindAll (hchunks : ∀ chunk ∈ chunks, chunk.OfSchema schema) (name : Text) :
    (bindAll chunks).get? name = (schema.option? name).bind (·.valueOf? (valuesOf name chunks)) := by
  have hstart : (NameMap.empty : NameMap Value).get? name =
      (schema.option? name).bind (·.valueOf? []) := by
    cases schema.option? name with
    | none => rfl
    | some argument => exact argument.valueOf?_nil.symm
  exact get?_foldl_bind hchunks hstart

/-! ## Reading chunks again -/

/-- Whatever follows it, the chunk is what its words are read as. -/
def Readable (schema : Schema) (chunk : Chunk) : Prop :=
  ∃ word own, chunk.words = word :: own ∧
    ∀ behind, Effect schema word (own ++ behind) (.ok (chunk, behind))

theorem readAll_append (hchunks : ∀ chunk ∈ chunks, Readable schema chunk)
    (hopen : .terminator ∉ chunks) (rest : List Text) :
    readAll schema (chunks.flatMap words ++ rest) =
      (readAll schema rest).map (chunks ++ ·) := by
  induction chunks with
  | nil =>
      rw [List.flatMap_nil, List.nil_append]
      cases readAll schema rest <;> rfl
  | cons chunk chunks ih =>
      rw [List.forall_mem_cons] at hchunks
      rw [List.mem_cons, not_or] at hopen
      obtain ⟨word, own, hwords, hread⟩ := hchunks.1
      rw [List.flatMap_cons, hwords, List.append_assoc, List.cons_append,
        (hread _).readAll_eq_map (Ne.symm hopen.1), ih hchunks.2 hopen.2]
      cases readAll schema rest <;> rfl

theorem Effect.exists_of_readAll {word : Text} {rest after : List Text}
    (heffect : Effect schema word rest (.ok (chunk, after))) (hchunk : chunk ≠ .terminator)
    (h : readAll schema (word :: rest) = .ok chunks) :
    ∃ others, readAll schema after = .ok others ∧ chunks = chunk :: others := by
  rw [heffect.readAll_eq_map hchunk] at h
  cases hothers : readAll schema after with
  | error error =>
      rw [hothers] at h
      contradiction
  | ok others =>
      rw [hothers] at h
      exact ⟨others, rfl, (Except.ok.inj h).symm⟩

theorem forall_of_readAll {P : Chunk → Prop} (positional : ∀ word, P (.positional word))
    (effect : ∀ {word rest chunk after}, Effect schema word rest (.ok (chunk, after)) → P chunk)
    {texts : List Text} (h : readAll schema texts = .ok chunks) : ∀ chunk ∈ chunks, P chunk := by
  induction texts using reading_induction schema generalizing chunks with
  | nil =>
      rw [readAll] at h
      cases h
      simp
  | terminator rest =>
      rw [readAll_terminator] at h
      cases h
      refine List.forall_mem_cons.2 ⟨effect (.terminator rest), ?_⟩
      exact List.forall_mem_map.2 fun word _ => positional word
  | chunk word rest chunk after heffect hchunk ih =>
      obtain ⟨others, hothers, rfl⟩ := heffect.exists_of_readAll hchunk h
      exact List.forall_mem_cons.2 ⟨effect heffect, ih hothers⟩
  | error word rest error heffect =>
      rw [heffect.readAll_eq_error] at h
      contradiction

theorem ofSchema_of_readAll {texts : List Text} (h : readAll schema texts = .ok chunks) :
    ∀ chunk ∈ chunks, chunk.OfSchema schema :=
  forall_of_readAll (fun _ => trivial) Effect.ofSchema h

theorem flatMap_words_of_readAll {texts : List Text} (h : readAll schema texts = .ok chunks) :
    chunks.flatMap words = texts := by
  induction texts using reading_induction schema generalizing chunks with
  | nil =>
      rw [readAll] at h
      cases h
      rfl
  | terminator rest =>
      rw [readAll_terminator] at h
      cases h
      rw [List.flatMap_cons, List.flatMap_map]
      have hrest : rest.flatMap (fun word => words (.positional word)) = rest := by
        simp [words]
      rw [hrest]
      rfl
  | chunk word rest chunk after heffect hchunk ih =>
      obtain ⟨others, hothers, rfl⟩ := heffect.exists_of_readAll hchunk h
      obtain ⟨own, hwords, rfl, -⟩ := heffect.words_eq
      rw [List.flatMap_cons, ih hothers, hwords]
      rfl
  | error word rest error heffect =>
      rw [heffect.readAll_eq_error] at h
      contradiction

theorem readAll_flatMap_words {texts : List Text} (h : readAll schema texts = .ok chunks) :
    readAll schema (chunks.flatMap words) = .ok chunks := by
  rw [flatMap_words_of_readAll h, h]

theorem readAll_split {before after : List Chunk} {texts : List Text}
    (h : readAll schema texts = .ok (before ++ after)) (hopen : .terminator ∉ before) :
    (∀ chunk ∈ before, Readable schema chunk) ∧
      readAll schema (after.flatMap words) = .ok after := by
  induction texts using reading_induction schema generalizing before with
  | nil =>
      have hnil := Except.ok.inj (h.symm.trans (by rw [readAll] : readAll schema [] = .ok []))
      obtain ⟨rfl, rfl⟩ := List.append_eq_nil_iff.1 hnil
      exact ⟨by simp, by rw [List.flatMap_nil, readAll]⟩
  | terminator rest =>
      cases before with
      | nil => exact ⟨by simp, readAll_flatMap_words h⟩
      | cons chunk before =>
          have hhead := Except.ok.inj ((readAll_terminator schema rest).symm.trans h)
          exact absurd ((List.cons.inj hhead).1 ▸ List.mem_cons_self) hopen
  | chunk word rest chunk behind heffect hchunk ih =>
      cases before with
      | nil => exact ⟨by simp, readAll_flatMap_words h⟩
      | cons first before =>
          obtain ⟨others, hothers, hcons⟩ := heffect.exists_of_readAll hchunk h
          obtain ⟨rfl, rfl⟩ := List.cons.inj hcons
          obtain ⟨own, hwords, -, hread⟩ := heffect.words_eq
          obtain ⟨hbefore, hafter⟩ := ih hothers (fun hmem => hopen (List.mem_cons_of_mem _ hmem))
          exact ⟨List.forall_mem_cons.2 ⟨⟨word, own, hwords, hread⟩, hbefore⟩, hafter⟩
  | error word rest error heffect =>
      rw [heffect.readAll_eq_error] at h
      contradiction

theorem readAll_append_of_ok {texts : List Text} (h : readAll schema texts = .ok chunks)
    (hopen : .terminator ∉ chunks) (rest : List Text) :
    readAll schema (texts ++ rest) = (readAll schema rest).map (chunks ++ ·) := by
  have hsplit : readAll schema texts = .ok (chunks ++ []) := by
    rw [List.append_nil, h]
  obtain ⟨hreadable, -⟩ := readAll_split hsplit hopen
  rw [← readAll_append hreadable hopen, flatMap_words_of_readAll h]

/-- The same was given to each option and besides. -/
structure GiveAlike (first second : List Chunk) : Prop where
  values : ∀ name, valuesOf name first = valuesOf name second
  positionals : positionals first = positionals second
  help : asksHelp first = asksHelp second
  hidden : asksHidden first = asksHidden second

theorem GiveAlike.of_perm {first second : List Chunk} (hperm : first.Perm second)
    (hvalues : ∀ name, valuesOf name first = valuesOf name second)
    (hpositionals : Chunk.positionals first = Chunk.positionals second) :
    GiveAlike first second where
  values := hvalues
  positionals := hpositionals
  help := hperm.contains_eq
  hidden := hperm.any_eq

theorem GiveAlike.append {first second : List Chunk} (h : GiveAlike first second)
    (after : List Chunk) : GiveAlike (first ++ after) (second ++ after) where
  values name := by rw [valuesOf_append, valuesOf_append, h.values]
  positionals := by
    have hpositionals := h.positionals
    simp only [Chunk.positionals, List.filterMap_append] at hpositionals ⊢
    rw [hpositionals]
  help := by
    have hhelp := h.help
    simp only [asksHelp, List.contains_append] at hhelp ⊢
    rw [hhelp]
  hidden := by
    have hhidden := h.hidden
    simp only [asksHidden, List.any_append] at hhidden ⊢
    rw [hhidden]

end Chunk

namespace Schema

open Chunk (GiveAlike readAll valuesOf)

theorem finish_congr {schema : Schema} (debug : Bool) {first second : List Chunk}
    (hfirst : ∀ chunk ∈ first, chunk.OfSchema schema)
    (hsecond : ∀ chunk ∈ second, chunk.OfSchema schema) (h : GiveAlike first second) :
    schema.finish debug first = schema.finish debug second := by
  have hvalues : Chunk.bindAll first = Chunk.bindAll second := by
    refine NameMap.ext_get? fun name => ?_
    rw [Chunk.get?_bindAll hfirst, Chunk.get?_bindAll hsecond, h.values]
  simp only [finish, h.help, h.hidden, h.positionals, hvalues]

theorem parse_of_readAll {schema : Schema} {words : List Text} {chunks : List Chunk}
    (h : readAll schema words = .ok chunks) (debug : Bool) :
    schema.parse debug words = schema.finish debug chunks := by
  rw [parse, h]

/-- A parse of words that can be read depends on the values of each option, the
positional words, and the words `-help` and `-hidden`, and on nothing else. -/
theorem parse_determined {schema : Schema} {words : List Text} {chunks : List Chunk}
    (h : readAll schema words = .ok chunks) (debug : Bool) :
    (∀ bindings, schema.parse debug words = .ok (.bound bindings) →
      bindings.positionals = Chunk.positionals chunks ∧
      ∀ name, bindings.value? name = (schema.option? name).bind (·.valueOf? (valuesOf name chunks))) ∧
    (∀ otherWords others, readAll schema otherWords = .ok others → GiveAlike others chunks →
      schema.parse debug otherWords = schema.parse debug words) ∧
    ∀ before after reordered, chunks = before ++ after → .terminator ∉ before →
      reordered.Perm before → (∀ name, valuesOf name reordered = valuesOf name before) →
      Chunk.positionals reordered = Chunk.positionals before →
      words = before.flatMap Chunk.words ++ after.flatMap Chunk.words ∧
        schema.parse debug (reordered.flatMap Chunk.words ++ after.flatMap Chunk.words) =
          schema.parse debug words := by
  have hchunks := Chunk.ofSchema_of_readAll h
  have halike : ∀ otherWords others, readAll schema otherWords = .ok others →
      GiveAlike others chunks → schema.parse debug otherWords = schema.parse debug words := by
    intro otherWords others hothers hsame
    rw [parse_of_readAll h, parse_of_readAll hothers]
    exact finish_congr debug (Chunk.ofSchema_of_readAll hothers) hchunks hsame
  refine ⟨?_, halike, ?_⟩
  · intro bindings hparse
    rw [parse_of_readAll h] at hparse
    obtain ⟨hvalues, hpositionals⟩ := bindings_of_finish hparse
    refine ⟨hpositionals, fun name => ?_⟩
    rw [Bindings.value?, hvalues, Chunk.get?_bindAll hchunks]
  · rintro before after reordered rfl hopen hperm hvalues hpositionals
    obtain ⟨hbefore, hafter⟩ := Chunk.readAll_split h hopen
    have hreordered := Chunk.readAll_append
      (fun chunk hchunk => hbefore chunk (hperm.mem_iff.1 hchunk))
      (fun hmem => hopen (hperm.mem_iff.1 hmem)) (after.flatMap Chunk.words)
    rw [hafter] at hreordered
    refine ⟨?_, halike _ _ hreordered ((GiveAlike.of_perm hperm hvalues hpositionals).append after)⟩
    rw [← List.flatMap_append, Chunk.flatMap_words_of_readAll h]

namespace Mixed

def count : Argument :=
  ⟨1, "n", true, .integer, "n", "", false, false, false, false, none, []⟩

def label : Argument :=
  ⟨2, "s", true, .string, "s", "", false, false, false, false, none, []⟩

end Mixed

def mixed : Schema := ⟨"t", [Mixed.count, Mixed.label], []⟩

theorem parse_determined_mixed :
    (∃ bindings, mixed.parse false ["-s", "a", "-n", "1", "-s", "b"] = .ok (.bound bindings) ∧
      bindings.value? "s" = some (.list ["a", "b"])) ∧
    mixed.parse false ["-n", "1", "-s", "a", "-s", "b"] =
      mixed.parse false ["-s", "a", "-n", "1", "-s", "b"] := by
  have hread : readAll mixed ["-s", "a", "-n", "1", "-s", "b"] =
      .ok [.option Mixed.label (some "a") (.word "a"), .option Mixed.count (some "1") (.int 1),
        .option Mixed.label (some "b") (.word "b")] := by
    cbv
  obtain ⟨hbound, -, hreorder⟩ := parse_determined hread false
  constructor
  · refine ⟨_, parse_of_readAll hread false, ?_⟩
    exact ((hbound _ (parse_of_readAll hread false)).2 "s").trans rfl
  · refine (hreorder _ [] [.option Mixed.count (some "1") (.int 1),
      .option Mixed.label (some "a") (.word "a"), .option Mixed.label (some "b") (.word "b")]
      (List.append_nil _).symm (by decide) (by decide) ?_ (by decide)).2
    intro name
    by_cases hlabel : Mixed.label.name = name
    · subst hlabel
      rfl
    · simp [Chunk.valuesOf_cons_option, hlabel]

end Schema

end CommandFrame

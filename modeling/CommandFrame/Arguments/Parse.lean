import CommandFrame.Arguments.Chunk

/-!
# Parsing argument words

A parse reads the words into chunks, binds the options, and checks the groups
of the schema.  Asking for help ends it before the groups are checked, unless
debugging is on.
-/

namespace CommandFrame

inductive Parsed
  | bound (bindings : Bindings)
  | help (usage : Text)

namespace Chunk

/-- The value of an option after one more occurrence.  Words of a repeated
option make up a list; otherwise the last value counts. -/
def accumulate (before : Option Value) : Given → Option Value
  | .nothing => before
  | .flag => some (.bool true)
  | .int i => some (.int i)
  | .real r => some (.real r)
  | .bool b => some (.bool b)
  | .word word =>
      match before with
      | some (.str first) => some (.list [first, word])
      | some (.list items) => some (.list (items ++ [word]))
      | _ => some (.str word)
  | .words words =>
      match before with
      | some (.list items) => some (.list (items ++ words))
      | _ => some (.list words)

def bind (values : NameMap Value) : Chunk → NameMap Value
  | .option argument _ given =>
      match accumulate (values.get? argument.name) given with
      | some value => values.insert argument.name value
      | none => values
  | _ => values

def bindAll (chunks : List Chunk) : NameMap Value := chunks.foldl bind .empty

def positionals (chunks : List Chunk) : List Text :=
  chunks.filterMap fun
    | .positional word => some word
    | _ => none

def asksHelp (chunks : List Chunk) : Bool := chunks.contains .help

/-- A declared option `hidden` counts as the word `-hidden` too. -/
def asksHidden (chunks : List Chunk) : Bool :=
  chunks.any fun
    | .hidden => true
    | .option argument _ _ => argument.name = "hidden"
    | _ => false

end Chunk

namespace Schema

def checkGroups (schema : Schema) (values : NameMap Value) :
    List Group → Except ParseError Unit
  | [] => .ok ()
  | group :: rest =>
      let members := schema.memberNames group.number
      let given := members.countP values.contains
      if given = 0 ∧ group.isRequired then .error (.groupRequirement members)
      else if 1 < given then .error (.groupExclusivity members)
      else schema.checkGroups values rest

def finish (schema : Schema) (debug : Bool) (chunks : List Chunk) :
    Except ParseError Parsed :=
  let showHidden := Chunk.asksHidden chunks
  let help :=
    if Chunk.asksHelp chunks then some (schema.usage showHidden false) else none
  match help, debug with
  | some usage, false => .ok (.help usage)
  | _, _ =>
      let values := Chunk.bindAll chunks
      (schema.checkGroups values schema.groups).map fun _ =>
        .bound ⟨values, Chunk.positionals chunks, showHidden, help⟩

def parse (schema : Schema) (debug : Bool) (words : List Text) : Except ParseError Parsed :=
  match Chunk.readAll schema words with
  | .error error => .error error
  | .ok chunks => schema.finish debug chunks

end Schema

end CommandFrame

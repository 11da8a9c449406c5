import CommandFrame.Text.Basic

/-!
# What a command takes

A schema lists the arguments of a command in the order of their declaration:
options, which start with `-`, and positionals.  Arguments can belong to a
group, of which at most one member may be given.
-/

namespace CommandFrame

inductive ArgumentType
  | none
  | boolean
  | integer
  | real
  | string
  | stringBool
  deriving DecidableEq, Repr

namespace ArgumentType

def takesValue : ArgumentType → Bool
  | none | boolean => false
  | integer | real | string | stringBool => true

def fixedValues? : ArgumentType → Option (List Text)
  | stringBool => some ["0", "1"]
  | string => Option.none
  | none | boolean | integer | real => some []

end ArgumentType

abbrev GroupNumber := Nat

inductive GroupKind
  | optional
  | required
  deriving DecidableEq, Repr

structure Group where
  number : GroupNumber
  kind : GroupKind
  deriving DecidableEq, Repr

def Group.isRequired (group : Group) : Bool := group.kind = .required

structure Argument where
  /-- The place in the order of declaration, from 1. -/
  index : Nat
  name : Text
  isOption : Bool
  type : ArgumentType
  short : Text
  long : Text
  required : Bool := false
  hidden : Bool := false
  multiple : Bool := false
  path : Bool := false
  group : Option GroupNumber := Option.none
  labels : List (Text × Int) := []
  deriving DecidableEq, Repr

structure Schema where
  name : Text
  arguments : List Argument
  groups : List Group
  deriving DecidableEq, Repr

namespace Schema

def empty (name : Text) : Schema := ⟨name, [], []⟩

def group? (schema : Schema) (number : GroupNumber) : Option Group :=
  schema.groups.find? (·.number = number)

def option? (schema : Schema) (name : Text) : Option Argument :=
  schema.arguments.find? fun argument => argument.isOption && argument.name = name

def positionals (schema : Schema) : List Argument :=
  schema.arguments.filter fun argument => !argument.isOption

def argument? (schema : Schema) (name : Text) : Option Argument :=
  schema.option? name <|> schema.positionals.find? (·.name = name)

def optionNames (schema : Schema) (withHidden : Bool) : List Text :=
  (schema.arguments.filter fun argument =>
    argument.isOption && (withHidden || !argument.hidden)).map fun argument =>
      '-' :: argument.name

def members (schema : Schema) (number : GroupNumber) : List Argument :=
  schema.arguments.filter (·.group = some number)

def memberNames (schema : Schema) (number : GroupNumber) : List Text :=
  (schema.members number).map (·.name)

def labelValue? (schema : Schema) (option label : Text) : Option Int := do
  let argument ← schema.option? option
  let entry ← argument.labels.find? (·.1 = label)
  return entry.2

end Schema

end CommandFrame

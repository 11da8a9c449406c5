import CommandFrame.Schema.Basic

/-!
# Declaring a schema

A schema is built by declarations: a group, an argument, or a refinement of
the argument declared last.  A name may be declared once, and an argument may
join a declared group only.
-/

namespace CommandFrame

inductive Refinement
  | required
  | hidden
  | multiple
  | path
  | group (number : GroupNumber)
  | label (label : Text) (value : Int)
  deriving DecidableEq, Repr

inductive Declaration
  | group (kind : GroupKind)
  | argument (name : Text) (type : ArgumentType) (short long : Text)
  | refine (refinement : Refinement)
  deriving DecidableEq, Repr

inductive DeclarationError
  | repeated (command name : Text)
  | undeclaredGroup (command : Text) (number : GroupNumber)
  deriving DecidableEq, Repr

def DeclarationError.message : DeclarationError → Text
  | .repeated command name => command ++ ": argument `" ++ name ++ "' declared twice"
  | .undeclaredGroup command number =>
      command ++ ": undeclared argument group GroupId(" ++ Text.ofNat number ++ ")"

def Argument.refine (argument : Argument) : Refinement → Argument
  | .required => { argument with required := true }
  | .hidden => { argument with hidden := true }
  | .multiple => { argument with multiple := true }
  | .path => { argument with path := true }
  | .group number => { argument with group := some number }
  | .label label value => { argument with labels := argument.labels ++ [(label, value)] }

namespace Schema

def modifyLast (f : Argument → Argument) : List Argument → List Argument
  | [] => []
  | [argument] => [f argument]
  | argument :: next :: rest => argument :: modifyLast f (next :: rest)

def readName : Text → Text × Bool
  | '-' :: name => (name, true)
  | name => (name, false)

def addGroup (schema : Schema) (kind : GroupKind) : Schema :=
  { schema with groups := schema.groups ++ [⟨schema.groups.length + 1, kind⟩] }

def addArgument (schema : Schema) (declared : Text) (type : ArgumentType)
    (short long : Text) : Except DeclarationError Schema :=
  let (name, isOption) := readName declared
  if schema.arguments.any (·.name = name) then .error (.repeated schema.name name)
  else
    let index := schema.arguments.length + 1
    .ok { schema with
      arguments := schema.arguments ++ [{ index, name, isOption, type, short, long }] }

def refine (schema : Schema) (refinement : Refinement) : Except DeclarationError Schema :=
  let refined :=
    { schema with arguments := modifyLast (·.refine refinement) schema.arguments }
  match refinement with
  | .group number =>
      if (schema.group? number).isSome then .ok refined
      else .error (.undeclaredGroup schema.name number)
  | _ => .ok refined

def declare (schema : Schema) : Declaration → Except DeclarationError Schema
  | .group kind => .ok (schema.addGroup kind)
  | .argument name type short long => schema.addArgument name type short long
  | .refine refinement => schema.refine refinement

def build (name : Text) (declarations : List Declaration) : Except DeclarationError Schema :=
  declarations.foldlM declare (empty name)

def ofDeclarations (name : Text) (declarations : List Declaration)
    (valid : (build name declarations).isOk = true) : Schema :=
  match build name declarations, valid with
  | .ok schema, _ => schema

end Schema

end CommandFrame

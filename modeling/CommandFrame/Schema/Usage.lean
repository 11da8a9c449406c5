import CommandFrame.Schema.Basic

/-!
# The usage text

The usage names the command and shows its arguments in blocks: the members of
a group together, where the first of them was declared, and every other
argument on its own.  Hidden arguments are left out unless they are asked for.
-/

namespace CommandFrame

def Argument.usage (argument : Argument) : Text :=
  if !argument.isOption then "<" ++ argument.short ++ ">"
  else if argument.type.takesValue then "-" ++ argument.name ++ " <" ++ argument.short ++ ">"
  else '-' :: argument.name

def Argument.isShown (showHidden : Bool) (argument : Argument) : Bool :=
  showHidden || !argument.hidden

def Argument.longLine (argument : Argument) : Text :=
  if argument.long = [] then []
  else "      " ++ argument.usage ++ ": " ++ argument.long ++ "\n"

def Argument.labelsLine (argument : Argument) : Text :=
  if argument.labels = [] then []
  else "      values: " ++ Text.join ", " (argument.labels.map (·.1)) ++ "\n"

def Argument.description (argument : Argument) : Text :=
  argument.longLine ++ argument.labelsLine

inductive UsageBlock
  | single (argument : Argument)
  | alternatives (group : Group) (members : List Argument)
  deriving DecidableEq, Repr

namespace UsageBlock

def arguments : UsageBlock → List Argument
  | single argument => [argument]
  | alternatives _ members => members

def line : UsageBlock → Text
  | single argument =>
      if argument.required then "  " ++ argument.usage ++ "\n"
      else "  [" ++ argument.usage ++ "]\n"
  | alternatives group members =>
      let choice := Text.join "|" (members.map Argument.usage)
      if group.isRequired then "  \x7b" ++ choice ++ "\x7d\n"
      else "  [" ++ choice ++ "]\n"

def render (verbose : Bool) (block : UsageBlock) : Text :=
  block.line ++ if verbose then block.arguments.flatMap Argument.description else []

end UsageBlock

namespace Schema

/-- The blocks of arguments still to be shown, without the groups in `shown`. -/
def blocksFrom (schema : Schema) (showHidden : Bool) (shown : List GroupNumber) :
    List Argument → List UsageBlock
  | [] => []
  | argument :: rest =>
      if !argument.isShown showHidden then schema.blocksFrom showHidden shown rest
      else
        match argument.group.bind schema.group? with
        | none => .single argument :: schema.blocksFrom showHidden shown rest
        | some group =>
            if shown.contains group.number then schema.blocksFrom showHidden shown rest
            else
              .alternatives group
                  ((schema.members group.number).filter (·.isShown showHidden)) ::
                schema.blocksFrom showHidden (group.number :: shown) rest

def blocks (schema : Schema) (showHidden : Bool) : List UsageBlock :=
  schema.blocksFrom showHidden [] schema.arguments

def usage (schema : Schema) (showHidden verbose : Bool) : Text :=
  schema.name ++ "\n" ++ (schema.blocks showHidden).flatMap (·.render verbose) ++
    "  [-help]\n"

end Schema

end CommandFrame

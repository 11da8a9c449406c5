import CommandFrame.Decimal.Shortest
import CommandFrame.NameMap
import CommandFrame.WordList.Merge

/-!
# Values of options
-/

namespace CommandFrame

open Decimal (Binary64)

/-- A truth value: `0`, `false` or `no`, and `1`, `true` or `yes`, in letters of
either case.  No letter outside ASCII has one of theirs as its lower case. -/
def readBool? (word : Text) : Option Bool :=
  let word := word.map Char.toLower
  if word ∈ [("0" : Text), "false", "no"] then some false
  else if word ∈ [("1" : Text), "true", "yes"] then some true
  else none

inductive Value
  | int (i : Int)
  | real (r : Binary64)
  | str (s : Text)
  | list (items : List Text)
  | bool (b : Bool)
  deriving DecidableEq, Repr

def Value.render : Value → Text
  | .int i => Text.ofInt i
  | .real r => r.render
  | .str s => s
  | .list items => WordList.merge items
  | .bool b => if b then "1" else "0"

structure Bindings where
  values : NameMap Value
  positionals : List Text
  showHidden : Bool
  help : Option Text

namespace Bindings

def has (bindings : Bindings) (name : Text) : Bool := bindings.values.contains name

def value? (bindings : Bindings) (name : Text) : Option Value := bindings.values.get? name

def intOr (bindings : Bindings) (name : Text) (fallback : Int) : Int :=
  match bindings.value? name with
  | some (.int i) => i
  | _ => fallback

def realOr (bindings : Bindings) (name : Text) (fallback : Binary64) : Binary64 :=
  match bindings.value? name with
  | some (.real r) => r
  | _ => fallback

def strOr (bindings : Bindings) (name : Text) (fallback : Text) : Text :=
  match bindings.value? name with
  | some (.str s) => s
  | some (.list (first :: _)) => first
  | _ => fallback

def strings (bindings : Bindings) (name : Text) : List Text :=
  match bindings.value? name with
  | some (.str s) => [s]
  | some (.list items) => items
  | _ => []

def boolOr (bindings : Bindings) (name : Text) (fallback : Bool) : Bool :=
  match bindings.value? name with
  | some (.bool b) => b
  | _ => fallback

end Bindings

end CommandFrame

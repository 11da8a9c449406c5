import Mathlib.Data.List.Find
import CommandFrame.Schema.Usage

/-!
# A schema without its hidden arguments

What is shown of a schema unless its hidden arguments are asked for is what is shown of the
schema without them.  Only a hidden option that is asked for by its name makes a difference.
-/

namespace CommandFrame.Schema

def visible (schema : Schema) : Schema :=
  { schema with arguments := schema.arguments.filter (!·.hidden) }

section

variable (schema : Schema)

@[simp] theorem name_visible : schema.visible.name = schema.name := rfl

theorem members_visible (number : GroupNumber) :
    schema.visible.members number = (schema.members number).filter (!·.hidden) := by
  simp [members, visible, List.filter_filter, Bool.and_comm]

theorem optionNames_visible (withHidden : Bool) :
    schema.visible.optionNames withHidden = schema.optionNames false := by
  simp only [optionNames, visible, List.filter_filter]
  congr 2
  funext argument
  cases argument.hidden <;> simp

theorem blocksFrom_visible (shown : List GroupNumber) (rest : List Argument) :
    schema.visible.blocksFrom true shown (rest.filter (!·.hidden)) =
      schema.blocksFrom false shown rest := by
  -- A hidden argument is skipped in one schema and absent from the other; the groups seen so far
  -- stay the same.
  induction rest generalizing shown with
  | nil => rfl
  | cons argument rest ih =>
      cases hhidden : argument.hidden with
      | true => simp [blocksFrom, Argument.isShown, hhidden, ih]
      | false =>
          have hgroup : schema.visible.group? = schema.group? := rfl
          simp [blocksFrom, Argument.isShown, hhidden, ih, members_visible, hgroup]

theorem usage_visible (verbose : Bool) :
    schema.visible.usage true verbose = schema.usage false verbose := by
  rw [usage, usage, name_visible, blocks, blocks, ← blocksFrom_visible]
  rfl

end

variable {schema : Schema}

/-- A hidden option has the name. -/
def Hides (schema : Schema) (option : Text) : Prop :=
  ∃ argument ∈ schema.arguments,
    argument.isOption = true ∧ argument.hidden = true ∧ argument.name = option

theorem option?_visible {option : Text} (h : ¬schema.Hides option) :
    schema.visible.option? option = schema.option? option := by
  rw [option?, option?, visible, List.find?_filter]
  refine List.find?_congr fun argument hargument => ?_
  cases hhidden : argument.hidden with
  | false => simp
  | true =>
      have hother : ¬(argument.isOption = true ∧ argument.name = option) :=
        fun hnamed => h ⟨argument, hargument, hnamed.1, hhidden, hnamed.2⟩
      simpa using hother

end CommandFrame.Schema

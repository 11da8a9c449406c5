import CommandFrame.Text.Basic

/-!
# Backslash escapes

A backslash stands for the character after it, except that `\n` is a newline
and `\t` a tab.  At the end of a text it stands for itself.
-/

namespace CommandFrame.Text

def escaped (c : Char) : Char :=
  if c = 'n' then '\n' else if c = 't' then '\t' else c

def unescape : Text → Text
  | '\\' :: c :: rest => escaped c :: unescape rest
  | c :: rest => c :: unescape rest
  | [] => []

@[simp] theorem unescape_nil : unescape [] = [] := rfl

@[simp] theorem unescape_pair (c : Char) (rest : Text) :
    unescape ('\\' :: c :: rest) = escaped c :: unescape rest := by
  rw [unescape]

theorem unescape_cons {c : Char} (h : c ≠ '\\') (rest : Text) :
    unescape (c :: rest) = c :: unescape rest := by
  rw [unescape]
  simp [h]

end CommandFrame.Text

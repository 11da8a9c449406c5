import CommandFrame.Text.Basic

/-!
# UTF-8

Bytes are read one character at a time.  A lead byte fixes how many
continuation bytes follow and the range of the first of them, which excludes
overlong forms, surrogates and values past `10FFFF`.  The longest part that
begins like a character and goes wrong is one fault.
-/

namespace CommandFrame

abbrev Bytes := List UInt8

namespace Utf8

/-- What a lead byte announces: the continuation bytes it wants, the range of
the first of them, and its own share of the code point. -/
structure Lead where
  owed : Nat
  low : Nat
  high : Nat
  value : Nat
  deriving DecidableEq, Repr

def lead? (b : Nat) : Option Lead :=
  if b ≤ 0x7F then some ⟨0, 0x80, 0xBF, b⟩
  else if 0xC2 ≤ b ∧ b ≤ 0xDF then some ⟨1, 0x80, 0xBF, b - 0xC0⟩
  else if b = 0xE0 then some ⟨2, 0xA0, 0xBF, 0⟩
  else if b = 0xED then some ⟨2, 0x80, 0x9F, 0xD⟩
  else if 0xE1 ≤ b ∧ b ≤ 0xEF then some ⟨2, 0x80, 0xBF, b - 0xE0⟩
  else if b = 0xF0 then some ⟨3, 0x90, 0xBF, 0⟩
  else if 0xF1 ≤ b ∧ b ≤ 0xF3 then some ⟨3, 0x80, 0xBF, b - 0xF0⟩
  else if b = 0xF4 then some ⟨3, 0x80, 0x8F, 4⟩
  else none

def readTail (low high value : Nat) : Nat → Bytes → Option Char × Bytes
  | 0, bytes => (some (Char.ofNat value), bytes)
  | _ + 1, [] => (none, [])
  | owed + 1, b :: bytes =>
      if low ≤ b.toNat ∧ b.toNat ≤ high then
        readTail 0x80 0xBF (value * 64 + b.toNat % 64) owed bytes
      else (none, b :: bytes)

def readChar (b : UInt8) (bytes : Bytes) : Option Char × Bytes :=
  match lead? b.toNat with
  | none => (none, bytes)
  | some lead => readTail lead.low lead.high lead.value lead.owed bytes

theorem length_readTail_le (low high value owed : Nat) (bytes : Bytes) :
    (readTail low high value owed bytes).2.length ≤ bytes.length := by
  fun_induction readTail low high value owed bytes with
  | case1 => simp
  | case2 => simp
  | case3 _ _ _ owed b bytes _ ih => exact Nat.le_succ_of_le ih
  | case4 => simp

theorem length_readChar_le (b : UInt8) (bytes : Bytes) :
    (readChar b bytes).2.length ≤ bytes.length := by
  unfold readChar
  split
  · exact Nat.le_refl _
  · exact length_readTail_le ..

def read : Bytes → List (Option Char)
  | [] => []
  | b :: bytes => (readChar b bytes).1 :: read (readChar b bytes).2
termination_by bytes => bytes.length
decreasing_by exact Nat.lt_succ_of_le (length_readChar_le b bytes)

def decode? (bytes : Bytes) : Option Text := (read bytes).mapM id

def decodeLossy (bytes : Bytes) : Text :=
  (read bytes).map fun c => c.getD '\uFFFD'

end Utf8

end CommandFrame

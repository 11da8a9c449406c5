import CommandFrame.Proofs.Text.Offset

/-!
# Cuts that can fail

A text can be cut at a byte offset only if the offset is an end of the text or lies
between two of its characters.  A cut at any other offset has no result.
-/

namespace CommandFrame.Text

def upTo? (text : Text) (offset : Nat) : Option Text :=
  let (before, _) := splitBytes offset text
  if byteLength before = offset then some before else none

def from? (text : Text) (offset : Nat) : Option Text :=
  let (before, after) := splitBytes offset text
  if byteLength before = offset then some after else none

/-- What stands between two offsets, of which the second is not before the first. -/
def slice? (text : Text) (start stop : Nat) : Option Text :=
  if start ≤ stop then (text.from? start).bind (·.upTo? (stop - start)) else none

variable {text rest : Text} {offset : Nat}

theorem upTo?_append (before after : Text) :
    (before ++ after).upTo? (byteLength before) = some before := by
  simp [upTo?, splitBytes_byteLength_append]

theorem from?_append (before after : Text) :
    (before ++ after).from? (byteLength before) = some after := by
  simp [from?, splitBytes_byteLength_append]

theorem upTo?_eq_some_iff {before : Text} :
    text.upTo? offset = some before ↔
      ∃ after, text = before ++ after ∧ byteLength before = offset := by
  constructor
  · intro h
    simp only [upTo?, Option.ite_none_right_eq_some, Option.some.injEq] at h
    obtain ⟨hlength, rfl⟩ := h
    exact ⟨_, (splitBytes_append offset text).symm, hlength⟩
  · rintro ⟨after, rfl, rfl⟩
    exact upTo?_append before after

theorem from?_eq_some_iff :
    text.from? offset = some rest ↔
      ∃ before, text = before ++ rest ∧ byteLength before = offset := by
  constructor
  · intro h
    simp only [from?, Option.ite_none_right_eq_some, Option.some.injEq] at h
    obtain ⟨hlength, rfl⟩ := h
    exact ⟨_, (splitBytes_append offset text).symm, hlength⟩
  · rintro ⟨before, rfl, rfl⟩
    exact from?_append before rest

theorem fst_splitBytes {before : Text} (h : text.upTo? offset = some before) :
    (splitBytes offset text).1 = before := by
  obtain ⟨after, rfl, rfl⟩ := upTo?_eq_some_iff.1 h
  rw [splitBytes_byteLength_append]

theorem snd_splitBytes (h : text.from? offset = some rest) : (splitBytes offset text).2 = rest := by
  obtain ⟨before, rfl, rfl⟩ := from?_eq_some_iff.1 h
  rw [splitBytes_byteLength_append]

example : from? "é" 1 = none ∧ from? "é" 3 = none ∧ from? "é" 2 = some [] := by decide

@[simp] theorem from?_zero (text : Text) : text.from? 0 = some text := from?_append [] text

theorem from?_add {first second : Text} (h : text.from? offset = some (first ++ second)) :
    text.from? (offset + byteLength first) = some second := by
  obtain ⟨before, rfl, rfl⟩ := from?_eq_some_iff.1 h
  rw [← List.append_assoc, ← byteLength_append]
  exact from?_append _ second

theorem from?_cons {c : Char} (h : text.from? offset = some (c :: rest)) :
    text.from? (offset + c.utf8Size) = some rest :=
  from?_add (show text.from? offset = some ([c] ++ rest) from h)

theorem slice?_add {first second : Text} (h : text.from? offset = some (first ++ second)) :
    text.slice? offset (offset + byteLength first) = some first := by
  rw [slice?, if_pos (Nat.le_add_right offset _), h, Option.bind_some, Nat.add_sub_cancel_left]
  exact upTo?_append first second

def boundaryUpTo? (text : Text) : Nat → Option Nat
  | 0 => if (text.from? 0).isSome then some 0 else none
  | offset + 1 =>
      if (text.from? (offset + 1)).isSome then some (offset + 1) else text.boundaryUpTo? offset

theorem splitBytes_of_le {low high : Nat} (hle : low ≤ high)
    (h : byteLength (splitBytes high text).1 ≤ low) :
    splitBytes low text = splitBytes high text := by
  induction text generalizing low high with
  | nil => rfl
  | cons c text ih =>
      rw [splitBytes] at h
      rw [splitBytes, splitBytes]
      by_cases hhigh : c.utf8Size ≤ high
      · rw [if_pos hhigh, byteLength_cons] at h
        have hrest : splitBytes (low - c.utf8Size) text = splitBytes (high - c.utf8Size) text :=
          ih (by omega) (by omega)
        rw [if_pos hhigh, if_pos (by omega), hrest]
      · rw [if_neg hhigh, if_neg (by omega)]

theorem boundaryUpTo?_eq (text : Text) (offset : Nat) :
    text.boundaryUpTo? offset = some (byteLength (splitBytes offset text).1) := by
  induction offset with
  | zero => simp [boundaryUpTo?]
  | succ offset ih =>
      have hle := byteLength_splitBytes_le (offset + 1) text
      rw [boundaryUpTo?]
      by_cases hcut : byteLength (splitBytes (offset + 1) text).1 = offset + 1
      · simp [from?, hcut]
      · have hsame : splitBytes offset text = splitBytes (offset + 1) text :=
          splitBytes_of_le (Nat.le_add_right offset 1) (by omega)
        rw [if_neg (by simp [from?, hcut]), ih, hsame]

theorem boundaryUpTo?_min (text : Text) (cursor : Nat) :
    text.boundaryUpTo? (min cursor (byteLength text)) =
      some (byteLength (splitBytes cursor text).1) := by
  have hcursor := byteLength_splitBytes_le cursor text
  have hend : byteLength (splitBytes cursor text).1 ≤ byteLength text :=
    byteLength_le_of_prefix ⟨_, splitBytes_append cursor text⟩
  rw [boundaryUpTo?_eq, splitBytes_of_le (Nat.min_le_left ..) (by omega)]

end CommandFrame.Text

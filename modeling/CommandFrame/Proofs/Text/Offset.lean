import CommandFrame.Text.Basic

/-!
# Byte offsets into a text

An offset that lies between two characters cuts a text into what stands before
it and what stands after it.
-/

namespace CommandFrame.Text

@[simp] theorem splitBytes_zero (text : Text) : splitBytes 0 text = ([], text) := by
  cases text with
  | nil => rfl
  | cons c rest =>
      have hsize := c.utf8Size_pos
      rw [splitBytes, if_neg (by omega)]

theorem splitBytes_byteLength_append (before after : Text) :
    splitBytes (byteLength before) (before ++ after) = (before, after) := by
  induction before with
  | nil => simp
  | cons c before ih =>
      rw [List.cons_append, splitBytes, if_pos (by simp)]
      simp [ih]

theorem byteLength_splitBytes_le (count : Nat) (text : Text) :
    byteLength (splitBytes count text).1 ≤ count := by
  induction text generalizing count with
  | nil => simp [splitBytes]
  | cons c rest ih =>
      unfold splitBytes
      split
      · have hrest := ih (count - c.utf8Size)
        simp only [byteLength_cons]
        omega
      · simp

theorem le_byteLength_splitBytes {count : Nat} {before : Text} (h : byteLength before ≤ count)
    (after : Text) : byteLength before ≤ byteLength (splitBytes count (before ++ after)).1 := by
  induction before generalizing count with
  | nil => simp
  | cons c before ih =>
      rw [byteLength_cons] at h
      have hrest := ih (show byteLength before ≤ count - c.utf8Size by omega)
      rw [List.cons_append, splitBytes, if_pos (by omega)]
      simp only [byteLength_cons]
      omega

theorem append_inj_of_byteLength {first second before after : Text}
    (h : first ++ second = before ++ after) (hlength : byteLength first = byteLength before) :
    first = before ∧ second = after := by
  have hcut := splitBytes_byteLength_append first second
  rw [h, hlength, splitBytes_byteLength_append] at hcut
  exact ⟨(congrArg Prod.fst hcut).symm, (congrArg Prod.snd hcut).symm⟩

theorem byteLength_eq_zero {text : Text} (h : byteLength text = 0) : text = [] := by
  cases text with
  | nil => rfl
  | cons c rest =>
      have hsize := c.utf8Size_pos
      simp at h
      omega

theorem byteLength_pos {text : Text} (h : text ≠ []) : 0 < byteLength text :=
  Nat.pos_of_ne_zero fun hzero => h (byteLength_eq_zero hzero)

theorem byteLength_le_of_prefix {first second : Text} (h : first <+: second) :
    byteLength first ≤ byteLength second := by
  obtain ⟨rest, rfl⟩ := h
  simp

theorem eq_of_prefix_of_byteLength_le {first second : Text} (h : first <+: second)
    (hlength : byteLength second ≤ byteLength first) : second = first := by
  obtain ⟨rest, rfl⟩ := h
  rw [byteLength_append] at hlength
  obtain rfl := byteLength_eq_zero (show byteLength rest = 0 by omega)
  rw [List.append_nil]

/-- The offset lies at an end of the text or between two of its characters. -/
def IsBoundary (text : Text) (offset : Nat) : Prop :=
  ∃ before after, text = before ++ after ∧ byteLength before = offset

def slice (text : Text) (start stop : Nat) : Text :=
  (splitBytes (stop - start) (splitBytes start text).2).1

theorem slice_append (before middle after : Text) :
    slice (before ++ middle ++ after) (byteLength before)
      (byteLength before + byteLength middle) = middle := by
  have hcount : byteLength before + byteLength middle - byteLength before = byteLength middle := by
    omega
  rw [slice, List.append_assoc, splitBytes_byteLength_append, hcount,
    splitBytes_byteLength_append]

end CommandFrame.Text

import Mathlib.Data.List.Basic
import Mathlib.Data.List.TakeWhile
import CommandFrame.Decimal.Integer
import CommandFrame.Text.Blank

/-!
# Integers that are written and read

A number in the signed 64-bit range is read from what is written for it, which holds no
blanks.
-/

namespace CommandFrame

theorem Text.trim_eq_self {text : Text} (h : ∀ c ∈ text, isBlankChar c = false) :
    trim text = text := by
  have hstart : text.dropWhile isBlankChar = text := by
    refine List.dropWhile_eq_self_iff.2 fun _ => ?_
    exact Bool.eq_false_iff.1 (h _ (List.getElem_mem _))
  have hend : text.reverse.dropWhile isBlankChar = text.reverse := by
    refine List.dropWhile_eq_self_iff.2 fun _ => ?_
    exact Bool.eq_false_iff.1 (h _ (List.mem_reverse.1 (List.getElem_mem _)))
  rw [trim, trimStart, hstart, trimEnd, hend, List.reverse_reverse]

namespace Decimal

theorem digit?_of_isDigit {c : Char} (h : c.isDigit = true) :
    digit? c = some (c.toNat - '0'.toNat) := by
  simp only [Char.isDigit, Bool.and_eq_true, decide_eq_true_eq] at h
  exact if_pos h

theorem isBlankChar_of_isDigit {c : Char} (h : c.isDigit = true) :
    Text.isBlankChar c = false := by
  obtain ⟨hlower, hupper⟩ := Char.isDigit_iff_toNat.1 h
  change 48 ≤ c.toNat at hlower
  change c.toNat ≤ 57 at hupper
  simp [Text.isBlankChar, Text.blankRanges]
  omega

theorem isDigit_of_mem_ofNat {n : Nat} {c : Char} (h : c ∈ Text.ofNat n) : c.isDigit = true :=
  Nat.isDigit_of_mem_toDigits (by decide) (by decide) h

theorem ofDigits_of_isDigit {digits : Text} (h : ∀ c ∈ digits, c.isDigit = true) :
    ofDigits digits = Nat.ofDigitChars 10 digits 0 := by
  rw [ofDigits, Nat.ofDigitChars_eq_foldl]
  apply List.foldl_ext
  intro n c hc
  rw [digit?_of_isDigit (h c hc)]
  rfl

theorem natural?_ofNat (n : Nat) : natural? (Text.ofNat n) = some n := by
  have hdigits : (Text.ofNat n).all isDigit = true := by
    rw [List.all_eq_true]
    intro c hc
    rw [isDigit, digit?_of_isDigit (isDigit_of_mem_ofNat hc)]
    rfl
  rw [natural?, if_pos ⟨Nat.toDigits_ne_nil, hdigits⟩,
    ofDigits_of_isDigit fun c => isDigit_of_mem_ofNat]
  exact congrArg some Nat.ofDigitChars_ten_toDigits

theorem signed?_ofNat (n : Nat) :
    signed? (Text.ofNat n) = (some (n : Int)).filter fun i =>
      -(Nat.pow 2 63 : Int) ≤ i ∧ i < Nat.pow 2 63 := by
  have hdigits : ∀ c ∈ Text.ofNat n, c.isDigit = true := fun c => isDigit_of_mem_ofNat
  have hnatural := natural?_ofNat n
  unfold signed?
  split
  · rename_i digits heq
    have hminus := hdigits '-' (heq ▸ List.mem_cons_self)
    contradiction
  · rename_i digits heq
    have hplus := hdigits '+' (heq ▸ List.mem_cons_self)
    contradiction
  · rw [hnatural]
    rfl

theorem signed?_ofInt {i : Int} (hlower : -(Nat.pow 2 63 : Int) ≤ i)
    (hupper : i < Nat.pow 2 63) : signed? (Text.ofInt i) = some i := by
  have hrange : decide (-(Nat.pow 2 63 : Int) ≤ i ∧ i < Nat.pow 2 63) = true :=
    decide_eq_true ⟨hlower, hupper⟩
  cases i with
  | ofNat n =>
      rw [Text.ofInt, signed?_ofNat]
      exact Option.filter_eq_some_iff.2 ⟨rfl, hrange⟩
  | negSucc n =>
      simp only [Text.ofInt, signed?, natural?_ofNat]
      exact Option.filter_eq_some_iff.2 ⟨rfl, hrange⟩

theorem trim_ofInt (i : Int) : Text.trim (Text.ofInt i) = Text.ofInt i := by
  apply Text.trim_eq_self
  intro c hc
  cases i with
  | ofNat n => exact isBlankChar_of_isDigit (isDigit_of_mem_ofNat hc)
  | negSucc n =>
      rcases List.mem_cons.1 hc with rfl | hc
      · decide
      · exact isBlankChar_of_isDigit (isDigit_of_mem_ofNat hc)

end Decimal

end CommandFrame

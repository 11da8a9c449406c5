import CommandFrame.Proofs.Text.Candidates
import CommandFrame.Proofs.Text.Cut

/-!
# The greatest common start

The common start of some texts is found by byte lengths as well: the first text is cut again
and again, behind the last character that agrees with the next text.  Every cut is in place,
and what is left is the greatest text that all of them start with.
-/

namespace CommandFrame.Text

namespace Indexed

def charIndices (offset : Nat) : Text → List (Nat × Char)
  | [] => []
  | c :: rest => (offset, c) :: charIndices (offset + c.utf8Size) rest

def sharedLength (first second : Text) : Nat :=
  let agreeing := ((charIndices 0 first).zip second).takeWhile fun pair => pair.1.2 == pair.2
  match agreeing.getLast? with
  | none => 0
  | some ((index, c), _) => index + c.utf8Size

/-- Cuts a start for one text after the other, until nothing of it is left. -/
def narrow? : Text → List Text → Option Text
  | start, [] => some start
  | start, text :: rest => do
      let shared ← start.upTo? (sharedLength start text)
      if shared = [] then return [] else narrow? shared rest

def commonStart? : List Text → Option Text
  | [] => some []
  | text :: rest => narrow? text rest

/-! ## Characters that agree -/

theorem charIndices_append (offset : Nat) (first second : Text) :
    charIndices offset (first ++ second) =
      charIndices offset first ++ charIndices (offset + byteLength first) second := by
  induction first generalizing offset with
  | nil => rfl
  | cons c first ih =>
      rw [List.cons_append, charIndices, ih, byteLength_cons, Nat.add_assoc]
      rfl

theorem length_charIndices (offset : Nat) (text : Text) :
    (charIndices offset text).length = text.length := by
  induction text generalizing offset with
  | nil => rfl
  | cons c text ih => rw [charIndices, List.length_cons, ih, List.length_cons]

theorem takeWhile_zip_charIndices (offset : Nat) (first second : Text) :
    ((charIndices offset first).zip second).takeWhile (fun pair => pair.1.2 == pair.2) =
      (charIndices offset (sharedStart first second)).zip (sharedStart first second) := by
  induction first generalizing offset second with
  | nil => rfl
  | cons a first ih =>
      cases second with
      | nil => rfl
      | cons b second =>
          rw [charIndices, List.zip_cons_cons, sharedStart]
          by_cases hab : a = b
          · rw [if_pos hab, List.takeWhile_cons_of_pos (by simpa using hab), ih, hab]
            rfl
          · rw [if_neg hab, List.takeWhile_cons_of_neg (by simpa using hab)]
            rfl

theorem sharedLength_eq (first second : Text) :
    sharedLength first second = byteLength (sharedStart first second) := by
  rw [sharedLength, takeWhile_zip_charIndices]
  generalize sharedStart first second = shared
  rcases List.eq_nil_or_concat shared with rfl | ⟨before, c, rfl⟩
  · rfl
  · rw [List.concat_eq_append, charIndices_append, List.zip_append (length_charIndices 0 before)]
    simp [charIndices]

/-! ## Cutting -/

theorem foldl_sharedStart_nil (rest : List Text) : rest.foldl sharedStart [] = [] := by
  obtain ⟨hnil, -⟩ := foldl_sharedStart_prefix [] rest
  exact List.prefix_nil.1 hnil

theorem narrow?_eq (start : Text) (rest : List Text) :
    narrow? start rest = some (rest.foldl sharedStart start) := by
  induction rest generalizing start with
  | nil => rfl
  | cons text rest ih =>
      have hcut : start.upTo? (sharedLength start text) = some (sharedStart start text) := by
        obtain ⟨behind, hstart⟩ := sharedStart_prefix_left start text
        exact upTo?_eq_some_iff.2 ⟨behind, hstart.symm, (sharedLength_eq start text).symm⟩
      rw [narrow?, hcut, List.foldl_cons]
      by_cases hnil : sharedStart start text = []
      · simp [hnil, foldl_sharedStart_nil]
      · simp [hnil, ih]

theorem commonStart?_eq (texts : List Text) : commonStart? texts = some (commonStart texts) := by
  cases texts with
  | nil => rfl
  | cons text rest => exact narrow?_eq text rest

end Indexed

/-! ## The greatest start -/

/-- The text is a start of all the texts, cut off between two characters of each, and every
other start of them all is a start of it. -/
structure IsGreatestStart (texts : List Text) (shared : Text) : Prop where
  cut_eq : ∀ text ∈ texts, text.upTo? (byteLength shared) = some shared
  prefix_iff : ∀ start, start <+: shared ↔ ∀ text ∈ texts, start <+: text

variable {texts others : List Text}

theorem isGreatestStart_commonStart (h : texts ≠ []) :
    IsGreatestStart texts (commonStart texts) where
  cut_eq text htext := by
    obtain ⟨behind, htext⟩ := commonStart_prefix htext
    exact htext ▸ upTo?_append (commonStart texts) behind
  prefix_iff start := by
    constructor
    · intro hstart text htext
      have hshared := commonStart_prefix htext
      exact hstart.trans hshared
    · exact prefix_commonStart h

theorem IsGreatestStart.unique {first second : Text} (hfirst : IsGreatestStart texts first)
    (hsecond : IsGreatestStart texts second) : first = second := by
  have hle : first <+: second :=
    (hsecond.prefix_iff first).2 ((hfirst.prefix_iff first).1 (List.prefix_refl first))
  have hge : second <+: first :=
    (hfirst.prefix_iff second).2 ((hsecond.prefix_iff second).1 (List.prefix_refl second))
  exact hle.eq_of_length_le hge.length_le

theorem IsGreatestStart.congr {shared : Text} (h : IsGreatestStart texts shared)
    (hmem : ∀ text, text ∈ others ↔ text ∈ texts) : IsGreatestStart others shared where
  cut_eq text htext := h.cut_eq text ((hmem text).1 htext)
  prefix_iff start := by simp only [hmem, h.prefix_iff]

theorem commonStart_congr (hmem : ∀ text, text ∈ others ↔ text ∈ texts) :
    commonStart others = commonStart texts := by
  by_cases hnil : texts = []
  · subst hnil
    rw [List.eq_nil_iff_forall_not_mem.2 fun text htext => List.not_mem_nil ((hmem text).1 htext)]
  · have hothers : others ≠ [] := by
      obtain ⟨text, htext⟩ := List.exists_mem_of_ne_nil _ hnil
      exact List.ne_nil_of_mem ((hmem text).2 htext)
    exact (isGreatestStart_commonStart hothers).unique
      ((isGreatestStart_commonStart hnil).congr hmem)

/-- The common start is the greatest one, whatever the order and the repeats of the texts.  Of
candidates for what is typed it goes on from there, and it is exact if they are one text. -/
theorem commonStart_greatest (texts : List Text) :
    Indexed.commonStart? texts = some (commonStart texts) ∧
    (texts ≠ [] → IsGreatestStart texts (commonStart texts)) ∧
    (∀ others, (∀ text, text ∈ others ↔ text ∈ texts) →
      commonStart others = commonStart texts) ∧
    (∀ typed, candidatesFor typed texts ≠ [] →
      typed <+: commonStart (candidatesFor typed texts)) ∧
    (isExact texts = true ↔ texts ≠ [] ∧ ∀ first ∈ texts, ∀ second ∈ texts, first = second) ∧
    ∀ typed, isExact (candidatesFor typed texts) = true ↔
      ∃! text, text ∈ texts ∧ typed <+: text := by
  refine ⟨Indexed.commonStart?_eq texts, isGreatestStart_commonStart, ?_, ?_, isExact_iff, ?_⟩
  · intro others hmem
    exact commonStart_congr hmem
  · intro typed hfound
    exact prefix_commonStart_candidatesFor hfound
  · intro typed
    exact isExact_candidatesFor_iff

theorem commonStart_greatest_bytes :
    IsGreatestStart ["ñandú", "ñame"] "ña" ∧ byteLength "ña" = 3 ∧
      commonStart ["ñame", "ñandú", "ñame"] = "ña" ∧
      ("ñ" : Text) <+: commonStart (candidatesFor "ñ" ["ñandú", "ñame"]) := by
  obtain ⟨-, hgreatest, hsame, hcandidates, -⟩ := commonStart_greatest ["ñandú", "ñame"]
  have hmem (text : Text) : text ∈ [("ñame" : Text), "ñandú", "ñame"] ↔
      text ∈ [("ñandú" : Text), "ñame"] := by
    simp [or_comm]
  exact ⟨hgreatest (by decide), by decide, hsame _ hmem, hcandidates "ñ" (by decide)⟩

end CommandFrame.Text

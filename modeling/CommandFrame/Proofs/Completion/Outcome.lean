import Mathlib.Logic.Basic
import Mathlib.Logic.ExistsUnique
import CommandFrame.Proofs.Completion.Query

/-!
# What a completion comes to

Candidates are offered exactly if there is a choice and nothing can be put into the
line without making it.  Otherwise a completion edits the word under the cursor, and
the rest of the line stays as it is.
-/

namespace CommandFrame

open Line (Token Quote)

/-! ## The word under the cursor -/

/-- The part of a line that a completion is about. -/
structure Line.Place where
  start : Nat
  stop : Nat
  quote : Quote
  typed : Text
  deriving DecidableEq, Repr

/-- The token that the cursor is in, or a new word where the cursor is. -/
def Line.placeAt (arity : Line.Arity) (line : Text) (cursor : Nat) : Line.Place :=
  let offset := Text.byteLength (Text.splitBytes cursor line).1
  match (Line.tokens arity line).find? (·.contains offset) with
  | some token => ⟨token.start, token.stop, token.quote, token.value⟩
  | none => ⟨offset, offset, .bare, []⟩

def Catalog.targetAt? (catalog : Catalog) (host : Host) (session : Session) (line : Text)
    (cursor : Nat) : Option CompletionTarget :=
  (Focus.find? catalog.arity line cursor).bind (·.target? catalog host session)

namespace Focus

theorem map_splitAt? (test : Token → Bool) (tokens : List Token) :
    (splitAt? test tokens).map (·.2.1) = tokens.find? test := by
  induction tokens with
  | nil => rfl
  | cons token tokens ih =>
      rw [splitAt?, List.find?_cons, ← ih]
      cases test token with
      | true => rfl
      | false => cases splitAt? test tokens <;> rfl

theorem placeAt_of_find {arity : Line.Arity} {line : Text} {cursor : Nat} {focus : Focus}
    (h : find? arity line cursor = some focus) :
    Line.placeAt arity line cursor =
      ⟨focus.token.start, focus.token.stop, focus.token.quote, focus.typed⟩ := by
  have hbare := (standsIn_of_find h).2
  unfold find? at h
  simp only at h
  rw [Line.placeAt, ← map_splitAt?]
  split at h
  · rename_i found hfound
    cases h
    obtain ⟨⟨before, token, after⟩, hsplit, rfl⟩ := Option.map_eq_some_iff.1 hfound
    rw [hsplit]
    rfl
  · rename_i hnone
    obtain ⟨⟨before, token, after⟩, hsplit, rfl⟩ := Option.map_eq_some_iff.1 h
    have hstart := (splitAt?_eq_some hsplit).2
    have hquote : token.quote = .bare := hbare hnone
    rw [Option.map_eq_none_iff.1 hnone]
    simp only [decide_eq_true_eq] at hstart
    simp only [hstart, hquote, Option.map_none]

end Focus

/-! ## Offering a choice -/

namespace CompletionTarget

variable {target : CompletionTarget} {typed : Text}

/-- The longest text that all candidates for the typed text start with. -/
def IsShared (target : CompletionTarget) (typed shared : Text) : Prop :=
  ∀ start, start <+: shared ↔ ∀ text ∈ target.candidates, typed <+: text → start <+: text

/-- The candidates for a typed text that leave a choice, and no more of it than
that they start with the text. -/
structure IsChoice (target : CompletionTarget) (typed : Text) (found : List Text) : Prop where
  mem_iff : ∀ text, text ∈ found ↔ text ∈ target.candidates ∧ typed <+: text
  distinct : found.Nodup
  ordered : found.Pairwise (Text.Precedes target.candidates)
  several : 2 ≤ found.length
  shared : target.IsShared typed typed

theorem isShared_iff (hfound : Text.candidatesFor typed target.candidates ≠ []) {shared : Text} :
    target.IsShared typed shared ↔ target.shared typed = shared := by
  have hgreatest : target.IsShared typed (target.shared typed) := by
    intro start
    constructor
    · intro hstart text htext htyped
      exact hstart.trans (Text.commonStart_prefix (Text.mem_candidatesFor.2 ⟨htext, htyped⟩))
    · intro hall
      refine Text.prefix_commonStart hfound fun text htext => ?_
      obtain ⟨hlisted, htyped⟩ := Text.mem_candidatesFor.1 htext
      exact hall text hlisted htyped
  constructor
  · intro h
    have hle : shared <+: target.shared typed :=
      (hgreatest shared).2 ((h shared).1 (List.prefix_refl shared))
    have hge : target.shared typed <+: shared :=
      (h _).2 ((hgreatest _).1 (List.prefix_refl _))
    exact hge.eq_of_length_le hle.length_le
  · rintro rfl
    exact hgreatest

theorem candidatesFor_ne_nil (h : target.HasChoice typed) :
    Text.candidatesFor typed target.candidates ≠ [] := by
  obtain ⟨first, hfirst, -, -, htyped, -⟩ := h
  exact List.ne_nil_of_mem (Text.mem_candidatesFor.2 ⟨hfirst, htyped⟩)

theorem isChoice_candidatesFor (hchoice : target.HasChoice typed)
    (hshared : target.IsShared typed typed) :
    target.IsChoice typed (Text.candidatesFor typed target.candidates) := by
  have hordered := Text.pairwise_candidatesFor typed target.candidates
  obtain ⟨first, hfirst, second, hsecond, htyped, htyped', hne⟩ := hchoice
  have hfirst := Text.mem_candidatesFor.2 ⟨hfirst, htyped⟩
  have hsecond := Text.mem_candidatesFor.2 ⟨hsecond, htyped'⟩
  refine ⟨fun text => Text.mem_candidatesFor, Text.nodup_of_pairwise hordered, hordered, ?_,
    hshared⟩
  generalize Text.candidatesFor typed target.candidates = found at hfirst hsecond
  match found with
  | [text] =>
      rw [List.mem_singleton] at hfirst hsecond
      exact absurd (hfirst.trans hsecond.symm) hne
  | _ :: _ :: _ => simp

theorem IsChoice.eq_candidatesFor {found : List Text} (h : target.IsChoice typed found) :
    found = Text.candidatesFor typed target.candidates := by
  refine Text.eq_of_pairwise h.ordered (Text.pairwise_candidatesFor typed target.candidates) ?_
  exact fun text => (h.mem_iff text).trans Text.mem_candidatesFor.symm

theorem IsChoice.hasChoice {found : List Text} (h : target.IsChoice typed found) :
    target.HasChoice typed := by
  obtain ⟨hmem, hdistinct, -, hseveral, -⟩ := h
  match found with
  | [] | [_] => contradiction
  | first :: second :: rest =>
      obtain ⟨hfirst, htyped⟩ := (hmem first).1 (by simp)
      obtain ⟨hsecond, htyped'⟩ := (hmem second).1 (by simp)
      refine ⟨first, hfirst, second, hsecond, htyped, htyped', ?_⟩
      rintro rfl
      simp at hdistinct

end CompletionTarget

theorem Focus.reduce_eq_candidates_iff {focus : Focus} {line : Text} {target : CompletionTarget}
    {found : List Text} :
    focus.reduce line target = .candidates found ↔ target.IsChoice focus.typed found := by
  constructor
  · intro h
    have hfound : Text.candidatesFor focus.typed target.candidates ≠ [] := by
      intro hnone
      simp [reduce, hnone] at h
    obtain ⟨hoffers, hreplaces⟩ := reduce_of_found line hfound
    by_cases hchoice : target.shared focus.typed = focus.typed ∧ target.HasChoice focus.typed
    · rw [hoffers hchoice] at h
      cases h
      exact CompletionTarget.isChoice_candidatesFor hchoice.2
        ((CompletionTarget.isShared_iff hfound).2 hchoice.1)
    · rw [hreplaces hchoice, replace_eq] at h
      split at h <;> contradiction
  · intro h
    have hfound := CompletionTarget.candidatesFor_ne_nil h.hasChoice
    rw [h.eq_candidatesFor]
    exact (reduce_of_found line hfound).1
      ⟨(CompletionTarget.isShared_iff hfound).1 h.shared, h.hasChoice⟩

theorem Catalog.complete_eq (catalog : Catalog) (host : Host) (session : Session)
    (line : Text) (cursor : Nat) :
    (catalog.targetAt? host session line cursor = none ∧
      catalog.complete host session line cursor = .unchanged) ∨
    ∃ focus target, Focus.find? catalog.arity line cursor = some focus ∧
      catalog.targetAt? host session line cursor = some target ∧
      catalog.complete host session line cursor = focus.reduce line target := by
  cases hfocus : Focus.find? catalog.arity line cursor with
  | none => simp [complete, targetAt?, hfocus]
  | some focus =>
      cases htarget : focus.target? catalog host session with
      | none => simp [complete, targetAt?, hfocus, htarget]
      | some target => simp [complete, targetAt?, hfocus, htarget]

/-- Candidates are offered exactly if they are the choice that the typed text leaves, and
whenever there is such a choice. -/
theorem Catalog.complete_eq_candidates_iff (catalog : Catalog) (host : Host) (session : Session)
    (line : Text) (cursor : Nat) :
    (∀ found, catalog.complete host session line cursor = .candidates found ↔
      ∃ target, catalog.targetAt? host session line cursor = some target ∧
        target.IsChoice (Line.placeAt catalog.arity line cursor).typed found) ∧
    ((∃ found, catalog.complete host session line cursor = .candidates found) ↔
      ∃ target, catalog.targetAt? host session line cursor = some target ∧
        target.HasChoice (Line.placeAt catalog.arity line cursor).typed ∧
        target.IsShared (Line.placeAt catalog.arity line cursor).typed
          (Line.placeAt catalog.arity line cursor).typed) := by
  rcases catalog.complete_eq host session line cursor with
    ⟨hnone, hcomplete⟩ | ⟨focus, target, hfocus, htarget, hcomplete⟩
  · simp [hnone, hcomplete]
  · rw [Focus.placeAt_of_find hfocus, hcomplete, htarget]
    simp only [Focus.reduce_eq_candidates_iff, Option.some.injEq, exists_eq_left', true_and,
      implies_true]
    constructor
    · rintro ⟨found, hchoice⟩
      exact ⟨hchoice.hasChoice, hchoice.shared⟩
    · rintro ⟨hchoice, hshared⟩
      exact ⟨_, CompletionTarget.isChoice_candidatesFor hchoice hshared⟩

example : (Catalog.offering ["ab", "b", "ac", "ab"]).complete .bare .bare "t a" 3 =
    .candidates ["ab", "ac"] := by decide +kernel

/-! ## Editing the line -/

namespace CompletionTarget

/-- The only candidate for a bare word ends the word. -/
def EndsWord (target : CompletionTarget) (place : Line.Place) : Prop :=
  place.quote = .bare ∧ (∃! text, text ∈ target.candidates ∧ place.typed <+: text) ∧
    target.exactSpace = true

theorem endsWord_place_iff {target : CompletionTarget} {place : Line.Place} :
    target.EndsWord place ↔ (target.endsWord place.typed && place.quote = .bare) = true := by
  rw [EndsWord, ← Text.isExact_candidatesFor_iff, endsWord]
  simp [and_comm]

instance (target : CompletionTarget) (place : Line.Place) : Decidable (target.EndsWord place) :=
  decidable_of_iff _ endsWord_place_iff.symm

end CompletionTarget

namespace Text

def beginsBlank (text : Text) : Bool := text.head? = some ' ' || text.head? = some '\t'

def endsBlank (text : Text) : Bool := text.getLast? = some ' ' || text.getLast? = some '\t'

theorem exists_eq_cons_of_beginsBlank {text : Text} (h : text.beginsBlank = true) :
    ∃ c rest, text = c :: rest ∧ (c = ' ' ∨ c = '\t') := by
  cases text with
  | nil => contradiction
  | cons c rest => exact ⟨c, rest, rfl, by simpa [beginsBlank] using h⟩

end Text

/-- A part of a line is written over, and a space may be put behind it. -/
structure Edit where
  before : Text
  old : Text
  written : Text
  space : Text
  rest : Text

namespace Edit

def line (edit : Edit) : Text := edit.before ++ edit.old ++ edit.rest

def completed (edit : Edit) : Text := edit.before ++ edit.written ++ edit.space ++ edit.rest

/-- The edit writes what the candidates share over the word in its place, and leaves the
cursor at the byte offset `after`. -/
structure Completes (edit : Edit) (target : CompletionTarget) (place : Line.Place) (after : Nat) :
    Prop where
  start_eq : place.start = Text.byteLength edit.before
  stop_eq : place.stop = Text.byteLength (edit.before ++ edit.old)
  written_eq : ∃ shared, target.IsShared place.typed shared ∧
    edit.written = place.quote.escape shared
  space_eq : edit.space =
    if target.EndsWord place ∧ edit.rest.beginsBlank = false then [' '] else []
  after_eq : after = place.start + Text.byteLength edit.written +
    if target.EndsWord place then 1 else 0
  changes : edit.completed ≠ edit.line ∨ after ≠ place.stop

variable {edit : Edit} {target : CompletionTarget} {place : Line.Place} {after : Nat}

theorem Completes.exists_landing (h : edit.Completes target place after) :
    ∃ passed left, edit.completed = passed ++ left ∧ Text.byteLength passed = after ∧
      (target.EndsWord place → passed.endsBlank = true) := by
  have hstart := h.start_eq
  have hafter := h.after_eq
  have hspace := h.space_eq
  by_cases hends : target.EndsWord place
  · obtain ⟨c, left, hbehind, hc⟩ : ∃ c left, edit.space ++ edit.rest = c :: left ∧
        (c = ' ' ∨ c = '\t') := by
      cases hblank : edit.rest.beginsBlank with
      | true =>
          rw [hspace, if_neg (by simp [hblank])]
          exact Text.exists_eq_cons_of_beginsBlank hblank
      | false =>
          rw [hspace, if_pos ⟨hends, hblank⟩]
          exact ⟨' ', edit.rest, rfl, .inl rfl⟩
    refine ⟨edit.before ++ edit.written ++ [c], left, ?_, ?_, fun _ => ?_⟩
    · simp [completed, hbehind]
    · have hsize : c.utf8Size = 1 := by rcases hc with rfl | rfl <;> rfl
      rw [hafter, hstart, if_pos hends]
      simp [hsize, Nat.add_assoc]
    · simpa [Text.endsBlank] using hc
  · refine ⟨edit.before ++ edit.written, edit.space ++ edit.rest, ?_, ?_, fun h => absurd h hends⟩
    · simp [completed]
    · rw [hafter, hstart, if_neg hends, Text.byteLength_append, Nat.add_zero]

end Edit

theorem Focus.exists_edit {arity : Line.Arity} {line completed : Text} {cursor after : Nat}
    {focus : Focus} {target : CompletionTarget} (hfocus : find? arity line cursor = some focus)
    (h : focus.reduce line target = .replaced completed after) :
    ∃ edit : Edit, edit.line = line ∧ edit.completed = completed ∧
      edit.Completes target (Line.placeAt arity line cursor) after := by
  obtain ⟨hfound, -, -, -⟩ := reduce_replaced h
  obtain ⟨hoffers, hreplaces⟩ := reduce_of_found line hfound
  have hchoice : ¬(target.shared focus.typed = focus.typed ∧ target.HasChoice focus.typed) := by
    intro hchoice
    rw [hoffers hchoice] at h
    contradiction
  obtain ⟨before, rest, hline, hstart, hreplace, -⟩ :=
    exists_replace hfocus (target.shared focus.typed) (target.endsWord focus.typed)
  rw [hreplaces hchoice, hreplace] at h
  obtain ⟨⟨passed, tail, reached, hplace⟩, -⟩ := standsIn_of_find hfocus
  rw [placeAt_of_find hfocus]
  rcases ite_eq_iff.1 h with ⟨-, hunchanged⟩ | ⟨hchanges, hreplaced⟩
  · contradiction
  obtain ⟨rfl, rfl⟩ := Completion.replaced.inj hreplaced
  let space : Text :=
    if (target.endsWord focus.typed && focus.token.quote = .bare) && !rest.beginsBlank then [' ']
    else []
  refine ⟨⟨before, focus.token.text, focus.token.quote.escape (target.shared focus.typed), space,
    rest⟩, hline.symm, rfl, ?_⟩
  constructor
  · exact hstart.symm
  · rw [Text.byteLength_append, hstart]
    exact hplace.stop_eq
  · exact ⟨_, (CompletionTarget.isShared_iff hfound).2 rfl, rfl⟩
  · simp [space, CompletionTarget.endsWord_place_iff]
  · simp [CompletionTarget.endsWord_place_iff, hstart]
  · rw [Edit.line, ← hline]
    exact not_and_or.1 hchanges

/-- A completion that changes the line edits the word under the cursor: it writes what the
candidates share over it.  The cursor is then behind the word, and behind a blank if the
word has ended. -/
theorem Catalog.complete_edits {catalog : Catalog} {host : Host} {session : Session}
    {line completed : Text} {cursor after : Nat}
    (h : catalog.complete host session line cursor = .replaced completed after) :
    ∃ target, ∃ edit : Edit, catalog.targetAt? host session line cursor = some target ∧
      edit.line = line ∧ edit.completed = completed ∧
      edit.Completes target (Line.placeAt catalog.arity line cursor) after ∧
      after ≤ Text.byteLength completed ∧ Text.IsBoundary completed after ∧
      (target.EndsWord (Line.placeAt catalog.arity line cursor) →
        (Text.splitBytes after completed).1.endsBlank = true) := by
  rcases catalog.complete_eq host session line cursor with
    ⟨-, hcomplete⟩ | ⟨focus, target, hfocus, htarget, hcomplete⟩
  · rw [hcomplete] at h
    contradiction
  · rw [hcomplete] at h
    obtain ⟨edit, hline, rfl, hedit⟩ := Focus.exists_edit hfocus h
    obtain ⟨passed, left, hlanding, rfl, hblank⟩ := hedit.exists_landing
    refine ⟨target, edit, htarget, hline, rfl, hedit, ?_, ⟨passed, left, hlanding, rfl⟩, ?_⟩
    · exact Text.byteLength_le_of_prefix ⟨left, hlanding.symm⟩
    · rw [hlanding, Text.splitBytes_byteLength_append]
      exact hblank

theorem Catalog.complete_edits_before_blank :
    (Catalog.offering ["éa b"]).complete .bare .bare "t é x" 3 = .replaced "t éa\\ b x" 9 ∧
      ∃ edit : Edit, edit.line = "t é x" ∧ edit.completed = "t éa\\ b x" ∧
        edit.Completes ⟨["éa b"], true⟩ ⟨2, 4, .bare, "é"⟩ 9 ∧
        (Text.splitBytes 9 "t éa\\ b x").1.endsBlank = true := by
  have hcomplete : (Catalog.offering ["éa b"]).complete .bare .bare "t é x" 3 =
      .replaced "t éa\\ b x" 9 := by decide +kernel
  have hplace : Line.placeAt (Catalog.offering ["éa b"]).arity "t é x" 3 =
      ⟨2, 4, .bare, "é"⟩ := by decide +kernel
  obtain ⟨target, edit, htarget, hline, hcompleted, hedit, -, -, hblank⟩ :=
    Catalog.complete_edits hcomplete
  obtain rfl : (⟨["éa b"], true⟩ : CompletionTarget) = target :=
    Option.some.inj (Eq.trans (by decide +kernel) htarget)
  rw [hplace] at hedit hblank
  exact ⟨hcomplete, edit, hline, hcompleted, hedit, hblank (by decide +kernel)⟩

end CommandFrame

import Mathlib.Logic.ExistsUnique
import CommandFrame.Text.Candidates

/-!
# What candidates share

The common start of some texts is the longest text that they all start with.
Typing it selects the same candidates as what was typed before.
-/

namespace CommandFrame.Text

theorem startsWith_iff {start text : Text} : startsWith start text = true ↔ start <+: text :=
  List.isPrefixOf_iff_prefix

theorem sharedStart_prefix_left (first second : Text) : sharedStart first second <+: first := by
  induction first generalizing second with
  | nil => exact List.nil_prefix
  | cons a first ih =>
      cases second with
      | nil => exact List.nil_prefix
      | cons b second =>
          unfold sharedStart
          split
          · exact List.cons_prefix_cons.2 ⟨rfl, ih second⟩
          · exact List.nil_prefix

theorem sharedStart_prefix_right (first second : Text) : sharedStart first second <+: second := by
  induction first generalizing second with
  | nil => exact List.nil_prefix
  | cons a first ih =>
      cases second with
      | nil => exact List.nil_prefix
      | cons b second =>
          unfold sharedStart
          split
          · rename_i hab
            exact List.cons_prefix_cons.2 ⟨hab, ih second⟩
          · exact List.nil_prefix

theorem prefix_sharedStart {start first second : Text} (hfirst : start <+: first)
    (hsecond : start <+: second) : start <+: sharedStart first second := by
  induction start generalizing first second with
  | nil => exact List.nil_prefix
  | cons c start ih =>
      obtain ⟨first, rfl⟩ := hfirst
      obtain ⟨second, rfl⟩ := hsecond
      simp only [List.cons_append, sharedStart, if_pos]
      exact List.cons_prefix_cons.2 ⟨rfl, ih (List.prefix_append ..) (List.prefix_append ..)⟩

theorem foldl_sharedStart_prefix (first : Text) (rest : List Text) :
    rest.foldl sharedStart first <+: first ∧
      ∀ text ∈ rest, rest.foldl sharedStart first <+: text := by
  induction rest generalizing first with
  | nil => exact ⟨List.prefix_refl first, by simp⟩
  | cons second rest ih =>
      obtain ⟨hfirst, hrest⟩ := ih (sharedStart first second)
      refine ⟨hfirst.trans (sharedStart_prefix_left first second), ?_⟩
      rintro text (_ | ⟨_, htext⟩)
      · exact hfirst.trans (sharedStart_prefix_right first second)
      · exact hrest text htext

theorem prefix_foldl_sharedStart {start first : Text} {rest : List Text} (hfirst : start <+: first)
    (hrest : ∀ text ∈ rest, start <+: text) : start <+: rest.foldl sharedStart first := by
  induction rest generalizing first with
  | nil => exact hfirst
  | cons second rest ih =>
      rw [List.forall_mem_cons] at hrest
      exact ih (prefix_sharedStart hfirst hrest.1) hrest.2

theorem commonStart_prefix {texts : List Text} {text : Text} (h : text ∈ texts) :
    commonStart texts <+: text := by
  cases texts with
  | nil => contradiction
  | cons first rest =>
      obtain ⟨hfirst, hrest⟩ := foldl_sharedStart_prefix first rest
      rcases List.mem_cons.1 h with rfl | htext
      · exact hfirst
      · exact hrest text htext

theorem prefix_commonStart {start : Text} {texts : List Text} (hne : texts ≠ [])
    (h : ∀ text ∈ texts, start <+: text) : start <+: commonStart texts := by
  cases texts with
  | nil => contradiction
  | cons first rest =>
      rw [List.forall_mem_cons] at h
      exact prefix_foldl_sharedStart h.1 h.2

theorem commonStart_mem_of_isExact {texts : List Text} (h : isExact texts = true) :
    commonStart texts ∈ texts := by
  cases texts with
  | nil => contradiction
  | cons first rest =>
      simp only [isExact, Bool.and_eq_true, List.all_eq_true, decide_eq_true_eq] at h
      have hfirst := h.2 first List.mem_cons_self
      exact hfirst ▸ List.mem_cons_self

theorem mem_candidatesFor {typed text : Text} {candidates : List Text} :
    text ∈ candidatesFor typed candidates ↔ text ∈ candidates ∧ typed <+: text := by
  rw [candidatesFor, List.mem_eraseDups, List.mem_filter, startsWith_iff]

theorem prefix_commonStart_candidatesFor {typed : Text} {candidates : List Text}
    (h : candidatesFor typed candidates ≠ []) :
    typed <+: commonStart (candidatesFor typed candidates) :=
  prefix_commonStart h fun _ htext => (mem_candidatesFor.1 htext).2

theorem candidatesFor_commonStart {typed : Text} {candidates : List Text}
    (h : candidatesFor typed candidates ≠ []) :
    candidatesFor (commonStart (candidatesFor typed candidates)) candidates =
      candidatesFor typed candidates := by
  have hfilter : ∀ text ∈ candidates,
      startsWith (commonStart (candidatesFor typed candidates)) text = startsWith typed text := by
    intro text htext
    rw [Bool.eq_iff_iff, startsWith_iff, startsWith_iff]
    constructor
    · intro hshared
      exact (prefix_commonStart_candidatesFor h).trans hshared
    · intro htyped
      exact commonStart_prefix (mem_candidatesFor.2 ⟨htext, htyped⟩)
  have hall := List.filter_congr hfilter
  rw [candidatesFor, hall, candidatesFor]

theorem isExact_iff {texts : List Text} :
    isExact texts = true ↔ texts ≠ [] ∧ ∀ first ∈ texts, ∀ second ∈ texts, first = second := by
  simp only [isExact, Bool.and_eq_true, Bool.not_eq_true', List.isEmpty_eq_false_iff,
    List.all_eq_true, decide_eq_true_eq]
  refine and_congr_right fun hne => ⟨?_, ?_⟩
  · intro h first hfirst second hsecond
    rw [h first hfirst, h second hsecond]
  · intro h text htext
    have hshared : text <+: commonStart texts :=
      prefix_commonStart hne fun other hother => h text htext other hother ▸ List.prefix_refl text
    have hback := commonStart_prefix htext
    exact hshared.eq_of_length_le hback.length_le

theorem isExact_candidatesFor_iff {typed : Text} {candidates : List Text} :
    isExact (candidatesFor typed candidates) = true ↔
      ∃! text, text ∈ candidates ∧ typed <+: text := by
  simp only [← mem_candidatesFor, isExact_iff]
  constructor
  · rintro ⟨hfound, hsame⟩
    obtain ⟨text, htext⟩ := List.exists_mem_of_ne_nil _ hfound
    exact ⟨text, htext, fun other hother => hsame other hother text htext⟩
  · rintro ⟨text, htext, hunique⟩
    exact ⟨List.ne_nil_of_mem htext, fun first hfirst second hsecond =>
      (hunique first hfirst).trans (hunique second hsecond).symm⟩

/-! ## Order -/

def Precedes (texts : List Text) (first second : Text) : Prop :=
  texts.idxOf first < texts.idxOf second

theorem idxOf_cons_of_ne {text other : Text} (h : other ≠ text) (texts : List Text) :
    (text :: texts).idxOf other = texts.idxOf other + 1 := by
  rw [List.idxOf_cons, beq_false_of_ne (Ne.symm h), cond_false]

theorem pairwise_eraseDups_filter (test : Text → Bool) (texts : List Text) :
    (texts.filter test).eraseDups.Pairwise (Precedes texts) := by
  induction texts generalizing test with
  | nil => simp
  | cons text texts ih =>
      have hkept {test : Text → Bool} (htext : test text = false) :
          (texts.filter test).eraseDups.Pairwise (Precedes (text :: texts)) := by
        refine (ih test).imp_of_mem fun hfirst hsecond hprecedes => ?_
        have hne {other : Text} (hother : other ∈ (texts.filter test).eraseDups) :
            other ≠ text := by
          rintro rfl
          rw [List.mem_eraseDups, List.mem_filter, htext] at hother
          exact absurd hother.2 (by decide)
        rw [Precedes, idxOf_cons_of_ne (hne hfirst), idxOf_cons_of_ne (hne hsecond)]
        exact Nat.succ_lt_succ hprecedes
      cases htest : test text with
      | false =>
          rw [List.filter_cons_of_neg (by simp [htest])]
          exact hkept htest
      | true =>
          rw [List.filter_cons_of_pos htest, List.eraseDups_cons, List.filter_filter,
            List.pairwise_cons]
          refine ⟨fun other hother => ?_, hkept (by simp)⟩
          rw [List.mem_eraseDups, List.mem_filter] at hother
          have hne : other ≠ text := by simpa using (Bool.and_eq_true_iff.1 hother.2).1
          rw [Precedes, List.idxOf_cons_self, idxOf_cons_of_ne hne]
          exact Nat.succ_pos _

theorem nodup_of_pairwise {texts found : List Text} (h : found.Pairwise (Precedes texts)) :
    found.Nodup := by
  refine h.imp fun hprecedes => ?_
  rintro rfl
  exact Nat.lt_irrefl _ hprecedes

theorem eq_of_pairwise {texts first second : List Text} (hfirst : first.Pairwise (Precedes texts))
    (hsecond : second.Pairwise (Precedes texts))
    (hmem : ∀ text, text ∈ first ↔ text ∈ second) : first = second := by
  have hperm :=
    (List.perm_ext_iff_of_nodup (nodup_of_pairwise hfirst) (nodup_of_pairwise hsecond)).2 hmem
  exact hperm.eq_of_pairwise (fun _ _ _ _ hlt hgt => absurd hgt (Nat.lt_asymm hlt)) hfirst hsecond

theorem pairwise_candidatesFor (typed : Text) (candidates : List Text) :
    (candidatesFor typed candidates).Pairwise (Precedes candidates) :=
  pairwise_eraseDups_filter (startsWith typed) candidates

end CommandFrame.Text

import CommandFrame.History
import Mathlib.Data.List.Chain
import Mathlib.Data.List.DropRight

/-!
# The history as the end of a log

A log keeps every line that a history would ever have kept.  The history holds
the last lines of the log, and the number of a line is its place in the log.
-/

namespace CommandFrame

namespace Text

theorem isBlank_trimEnd (text : Text) : isBlank (trimEnd text) = isBlank text := by
  rw [isBlank, isBlank, trimEnd, List.all_reverse, ← List.all_reverse (l := text)]
  induction text.reverse with
  | nil => rfl
  | cons c rest ih =>
      by_cases hc : isBlankChar c = true
      · rw [List.dropWhile_cons_of_pos hc, ih, List.all_cons, hc, Bool.true_and]
      · rw [List.dropWhile_cons_of_neg hc]

end Text

namespace History

/-- Receives a line without the blanks at its end, unless it is blank or repeats
the last one. -/
def logLine (log : List Text) (line : Text) : List Text :=
  if Text.isBlank line ∨ log.getLast? = some (Text.trimEnd line) then log
  else log ++ [Text.trimEnd line]

def log (lines : List Text) : List Text := lines.foldl logLine []

def numberedLog (lines : List Text) : List (Nat × Text) :=
  ((log lines).zipIdx 1).map Prod.swap

def appendAll (history : History) (lines : List Text) : History := lines.foldl append history

/-! ## The log -/

theorem prefix_logLine (log : List Text) (line : Text) : log <+: logLine log line := by
  unfold logLine
  split
  · exact List.prefix_rfl
  · exact List.prefix_append ..

theorem isChain_logLine {log : List Text} (h : log.IsChain (· ≠ ·)) (line : Text) :
    (logLine log line).IsChain (· ≠ ·) := by
  unfold logLine
  split
  · exact h
  · rename_i hnew
    refine List.isChain_append.2 ⟨h, List.isChain_singleton _, ?_⟩
    intro last hlast next hnext heq
    obtain rfl : Text.trimEnd line = next := by simpa using hnext
    exact hnew (.inr (heq ▸ hlast))

theorem log_concat (lines : List Text) (line : Text) :
    log (lines ++ [line]) = logLine (log lines) line := List.foldl_concat ..

theorem isChain_log (lines : List Text) : (log lines).IsChain (· ≠ ·) := by
  induction lines using List.reverseRecOn with
  | nil => exact List.isChain_nil
  | append_singleton lines line ih =>
      rw [log_concat]
      exact isChain_logLine ih line

theorem prefix_log_append (lines more : List Text) : log lines <+: log (lines ++ more) := by
  induction more using List.reverseRecOn with
  | nil => simp
  | append_singleton more line ih =>
      rw [← List.append_assoc, log_concat]
      exact ih.trans (prefix_logLine _ line)

/-! ## What the history keeps of it -/

/-- The history holds as much of the end of the log as it can, and knows where
in the log that begins. -/
structure KeepsEnd (history : History) (log : List Text) : Prop where
  lines_eq : history.lines = log.rtake history.capacity
  first_eq : 0 < history.capacity → history.first = log.length - history.capacity + 1

theorem keepsEnd_new (capacity : Nat) : (new capacity).KeepsEnd [] where
  lines_eq := by simp [new]
  first_eq _ := by simp [new]

theorem capacity_append (history : History) (line : Text) :
    (history.append line).capacity = history.capacity := by
  simp only [append]
  split
  · rfl
  · split <;> rfl

theorem capacity_appendAll (history : History) (lines : List Text) :
    (history.appendAll lines).capacity = history.capacity := by
  induction lines generalizing history with
  | nil => rfl
  | cons line lines ih => exact (ih _).trans (capacity_append history line)

variable {history : History} {log : List Text}

theorem KeepsEnd.length_eq (h : history.KeepsEnd log) :
    history.length = min history.capacity log.length := by
  rw [length, h.lines_eq, List.rtake, List.length_drop]
  omega

theorem KeepsEnd.nthLast?_zero (h : history.KeepsEnd log) (hcapacity : 0 < history.capacity) :
    history.nthLast? 0 = log.getLast? := by
  rw [nthLast?, ← List.head?_eq_getElem?, List.head?_reverse, h.lines_eq, List.rtake,
    List.getLast?_drop]
  split
  · rename_i hempty
    obtain rfl : log = [] := List.eq_nil_of_length_eq_zero (by omega)
    rfl
  · rfl

theorem KeepsEnd.append (h : history.KeepsEnd log) (line : Text) :
    (history.append line).KeepsEnd (logLine log line) := by
  have hlength := h.length_eq
  by_cases hcapacity : history.capacity = 0
  · have hsame : history.append line = history := by simp [History.append, hcapacity]
    rw [hsame]
    refine ⟨?_, fun hpos => absurd hcapacity (Nat.ne_of_gt hpos)⟩
    rw [h.lines_eq, hcapacity]
    simp
  have hpos : 0 < history.capacity := Nat.pos_of_ne_zero hcapacity
  have hnewest := h.nthLast?_zero hpos
  by_cases hignored : Text.isBlank line = true ∨ log.getLast? = some (Text.trimEnd line)
  · have hsame : history.append line = history := by
      simp [History.append, Text.isBlank_trimEnd, hnewest, hcapacity, hignored]
    rw [hsame, logLine, if_pos hignored]
    exact h
  rw [logLine, if_neg hignored]
  have hfirst := h.first_eq hpos
  by_cases hfull : history.length = history.capacity
  · have hmade : history.append line =
        { history with
          first := history.first + 1
          lines := history.lines.tail ++ [Text.trimEnd line] } := by
      simp [History.append, Text.isBlank_trimEnd, hnewest, hcapacity, hignored, hfull]
    rw [hmade]
    refine ⟨?_, fun _ => ?_⟩
    · have hdropped : log.length + 1 - history.capacity = log.length - history.capacity + 1 := by
        omega
      rw [h.lines_eq, List.rtake, List.rtake, List.tail_drop, List.length_append,
        List.length_singleton, hdropped, List.drop_append_of_le_length (by omega)]
    · simp only [List.length_append, List.length_singleton]
      omega
  · have hmade : history.append line =
        { history with lines := history.lines ++ [Text.trimEnd line] } := by
      simp [History.append, Text.isBlank_trimEnd, hnewest, hcapacity, hignored, hfull]
    rw [hmade]
    refine ⟨?_, fun _ => ?_⟩
    · have hnone : log.length - history.capacity = 0 := by omega
      have hnone' : log.length + 1 - history.capacity = 0 := by omega
      rw [h.lines_eq, List.rtake, List.rtake, List.length_append, List.length_singleton, hnone,
        hnone', List.drop_zero, List.drop_zero]
    · simp only [List.length_append, List.length_singleton]
      omega

theorem keepsEnd_appendAll (capacity : Nat) (lines : List Text) :
    ((new capacity).appendAll lines).KeepsEnd (History.log lines) := by
  induction lines using List.reverseRecOn with
  | nil => exact keepsEnd_new capacity
  | append_singleton lines line ih =>
      rw [appendAll, List.foldl_concat, log_concat]
      exact ih.append line

theorem KeepsEnd.nthLast?_eq (h : history.KeepsEnd log) (back : Nat) :
    history.nthLast? back = if back < history.length then log.reverse[back]? else none := by
  rw [nthLast?, h.lines_eq, List.rtake_eq_reverse_take_reverse, List.reverse_reverse,
    List.getElem?_take, h.length_eq]
  by_cases hlog : back < log.length
  · have hkept : back < min history.capacity log.length ↔ back < history.capacity := by omega
    simp only [hkept]
  · have hnone : log.reverse[back]? = none := by simpa using hlog
    simp [hnone]

/-! ## Numbers -/

theorem KeepsEnd.numbered_eq (h : history.KeepsEnd log) :
    history.numbered = ((log.zipIdx 1).map Prod.swap).rtake history.capacity := by
  by_cases hcapacity : history.capacity = 0
  · simp [numbered, h.lines_eq, hcapacity]
  have hfirst := h.first_eq (Nat.pos_of_ne_zero hcapacity)
  refine List.ext_getElem? fun place => ?_
  rw [numbered, h.lines_eq, hfirst, List.rtake, List.rtake, List.getElem?_map, List.getElem?_zipIdx,
    List.getElem?_drop, List.getElem?_drop, List.getElem?_map, List.getElem?_zipIdx,
    List.length_map, List.length_zipIdx]
  cases log[log.length - history.capacity + place]? with
  | none => rfl
  | some line =>
      simp only [Option.map_some, Prod.swap_prod_mk, Option.some.injEq, Prod.mk.injEq, and_true]
      omega

theorem mem_drop_numberedLog {lines : List Text} {count number : Nat} {line : Text} :
    (number, line) ∈ (numberedLog lines).drop count ↔
      count < number ∧ (History.log lines)[number - 1]? = some line := by
  simp only [numberedLog, List.mem_iff_getElem?, List.getElem?_drop, List.getElem?_map,
    List.getElem?_zipIdx, Option.map_map, Option.map_eq_some_iff, Function.comp_apply,
    Prod.swap_prod_mk, Prod.mk.injEq]
  constructor
  · rintro ⟨place, found, hfound, rfl, rfl⟩
    rw [show 1 + (count + place) - 1 = count + place by omega]
    exact ⟨by omega, hfound⟩
  · rintro ⟨hcount, hline⟩
    refine ⟨number - 1 - count, line, ?_, by omega, rfl⟩
    rw [show count + (number - 1 - count) = number - 1 by omega]
    exact hline

theorem numberedLog_keeps {lines : List Text} (more : List Text) {number : Nat} {line : Text}
    (h : (number, line) ∈ numberedLog lines) : (number, line) ∈ numberedLog (lines ++ more) := by
  obtain ⟨others, hothers⟩ := prefix_log_append lines more
  rw [← List.drop_zero (l := numberedLog _), mem_drop_numberedLog] at h ⊢
  refine ⟨h.1, ?_⟩
  rw [← hothers, List.getElem?_append_left (List.getElem?_eq_some_iff.1 h.2).1]
  exact h.2

variable {lines : List Text}

theorem KeepsEnd.mem_numbered_iff (h : history.KeepsEnd (History.log lines))
    (hcapacity : 0 < history.capacity) {number : Nat} {line : Text} :
    (number, line) ∈ history.numbered ↔
      history.first ≤ number ∧ (number, line) ∈ numberedLog lines := by
  have hlength : (numberedLog lines).length = (History.log lines).length := by simp [numberedLog]
  have hfirst := h.first_eq hcapacity
  rw [h.numbered_eq, ← numberedLog, List.rtake, hlength, mem_drop_numberedLog,
    ← List.drop_zero (l := numberedLog lines), mem_drop_numberedLog, hfirst, Nat.succ_le_iff]
  constructor
  · rintro ⟨hplace, hline⟩
    exact ⟨hplace, by omega, hline⟩
  · rintro ⟨hplace, -, hline⟩
    exact ⟨hplace, hline⟩

theorem KeepsEnd.getLast?_numbered (h : history.KeepsEnd log) (hcapacity : 0 < history.capacity) :
    history.numbered.getLast? = log.getLast?.map fun line => (log.length, line) := by
  rw [h.numbered_eq, List.rtake, List.getLast?_drop, List.getLast?_map, List.getLast?_zipIdx]
  cases hlast : log.getLast? with
  | none => simp
  | some line =>
      have hne : log ≠ [] := by
        rintro rfl
        contradiction
      have hpos := List.length_pos_iff.2 hne
      rw [if_neg (by simp; omega)]
      simp only [Option.map_some, Prod.swap_prod_mk, Option.some.injEq, Prod.mk.injEq, and_true]
      omega

theorem appendAll_append (history : History) (lines more : List Text) :
    history.appendAll (lines ++ more) = (history.appendAll lines).appendAll more :=
  List.foldl_append

/-- The history of the lines entered is the end of their log, as long as there is
room for, each line under its place in the log; and a line stays there with its
number until the history begins behind it. -/
theorem appendAll_keeps_end (capacity : Nat) (lines : List Text) :
    let history := (new capacity).appendAll lines
    let log := History.log lines
    let kept := min capacity log.length
    history.lines = log.rtake kept ∧
      history.length = kept ∧
      history.numbered = (numberedLog lines).rtake kept ∧
      (0 < capacity → history.numbered.getLast? = log.getLast?.map fun line => (log.length, line)) ∧
      history.lines.IsChain (· ≠ ·) ∧
      (∀ back, history.nthLast? back = if back < history.length then log.reverse[back]? else none) ∧
      (∀ more, ∀ entry ∈ history.numbered,
        (entry ∈ (history.appendAll more).numbered ↔
          (history.appendAll more).first ≤ entry.1)) := by
  intro history log kept
  have hkeeps : history.KeepsEnd log := keepsEnd_appendAll capacity lines
  have hcapacity : history.capacity = capacity := capacity_appendAll (new capacity) lines
  have hkept {α : Type} {entries : List α} (hlength : entries.length = log.length) :
      entries.rtake history.capacity = entries.rtake kept := by
    rw [List.rtake, List.rtake, hlength, hcapacity]
    congr 1
    omega
  refine ⟨?_, ?_, ?_, ?_, ?_, hkeeps.nthLast?_eq, ?_⟩
  · rw [hkeeps.lines_eq, hkept rfl]
  · rw [hkeeps.length_eq, hcapacity]
  · rw [hkeeps.numbered_eq, hkept (by simp), numberedLog]
  · intro hpos
    exact hkeeps.getLast?_numbered (hcapacity ▸ hpos)
  · rw [hkeeps.lines_eq]
    exact (isChain_log lines).drop _
  · rintro more ⟨number, line⟩ hentry
    have hpos : 0 < history.capacity := by
      refine Nat.pos_of_ne_zero fun hzero => ?_
      rw [hkeeps.numbered_eq, hzero, List.rtake_zero] at hentry
      exact absurd hentry List.not_mem_nil
    have hlater := keepsEnd_appendAll capacity (lines ++ more)
    rw [appendAll_append] at hlater
    have hpos' : 0 < (history.appendAll more).capacity := by rwa [capacity_appendAll]
    have hlogged := numberedLog_keeps more ((hkeeps.mem_numbered_iff hpos).1 hentry).2
    rw [hlater.mem_numbered_iff hpos']
    exact and_iff_left hlogged

example : ((new 2).appendAll ["echo 1", "echo 1", "  ", "echo 2", "echo 3\n"]).numbered =
    [(2, ("echo 2" : Text)), (3, ("echo 3" : Text))] := by decide

end History

end CommandFrame

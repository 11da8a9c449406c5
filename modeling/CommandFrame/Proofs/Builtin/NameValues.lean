import Mathlib.Data.List.Forall2
import CommandFrame.Builtin.Complete
import CommandFrame.Proofs.NameMap
import CommandFrame.Proofs.WordList.RoundTrip

/-!
# Names and values as a list of lists

A name and its value are a list of two items, and lists of any texts are items of a list
again.  Of a list of lists those of two items are read, and of these the last of a name counts.
-/

namespace CommandFrame.Builtin

/-- The list of the lists that hold a name and its value. -/
def writeNameValues (entries : List (Text × Text)) : Text :=
  WordList.merge (entries.map fun entry => WordList.merge [entry.1, entry.2])

/-- The last list of two items that begins with the name gives it the value. -/
def Gives (lists : List (List Text)) (name value : Text) : Prop :=
  ∃ before after, lists = before ++ [name, value] :: after ∧ ∀ other, [name, other] ∉ after

/-! ## Results of several items -/

section

variable {α β ε : Type} {f : α → Except ε β} {items : List α} {item : α} {result : β} {error : ε}

theorem map_eq_error_iff {found : Except ε α} {g : α → β} :
    found.map g = .error error ↔ found = .error error := by
  cases found <;> simp [Except.map]

theorem mapM_cons_of_ok (h : f item = .ok result) (items : List α) :
    (item :: items).mapM f = (items.mapM f).map (result :: ·) := by
  rw [List.mapM_cons, h]
  rfl

theorem mapM_cons_of_error (h : f item = .error error) (items : List α) :
    (item :: items).mapM f = .error error := by
  rw [List.mapM_cons, h]
  rfl

theorem mapM_eq_ok_iff {results : List β} :
    items.mapM f = .ok results ↔
      List.Forall₂ (fun item result => f item = .ok result) items results := by
  induction items generalizing results with
  | nil => cases results <;> simp [pure, Except.pure]
  | cons item items ih =>
      cases hitem : f item with
      | error error =>
          rw [mapM_cons_of_error hitem]
          cases results <;> simp [hitem]
      | ok result =>
          rw [mapM_cons_of_ok hitem]
          cases hrest : items.mapM f <;> cases results <;> simp [Except.map, hitem, ← ih, hrest]

theorem mapM_of_error {before : List α}
    (hbefore : ∀ earlier ∈ before, ∃ result, f earlier = .ok result)
    (hitem : f item = .error error) (after : List α) :
    (before ++ item :: after).mapM f = .error error := by
  induction before with
  | nil => exact mapM_cons_of_error hitem after
  | cons first before ih =>
      obtain ⟨⟨result, hfirst⟩, hrest⟩ := List.forall_mem_cons.1 hbefore
      rw [List.cons_append, mapM_cons_of_ok hfirst, ih hrest]
      rfl

theorem exists_error_of_mapM (h : items.mapM f = .error error) :
    ∃ before item after, items = before ++ item :: after ∧
      (∀ earlier ∈ before, ∃ result, f earlier = .ok result) ∧ f item = .error error := by
  induction items with
  | nil => contradiction
  | cons item items ih =>
      cases hitem : f item with
      | error other =>
          rw [mapM_cons_of_error hitem, Except.error.injEq] at h
          exact ⟨[], item, items, rfl, by simp, h ▸ hitem⟩
      | ok result =>
          rw [mapM_cons_of_ok hitem, map_eq_error_iff] at h
          obtain ⟨before, failing, after, rfl, hbefore, hfails⟩ := ih h
          refine ⟨item :: before, failing, after, rfl, ?_, hfails⟩
          exact List.forall_mem_cons.2 ⟨⟨result, hitem⟩, hbefore⟩

end

/-! ## Pairs -/

def pair? : List Text → Option (Text × Text)
  | [name, value] => some (name, value)
  | _ => none

theorem pair?_eq_some_iff {list : List Text} {entry : Text × Text} :
    pair? list = some entry ↔ list = [entry.1, entry.2] := by
  unfold pair?
  split
  · simp [Prod.ext_iff]
  · rename_i hother
    simp only [false_iff, reduceCtorEq]
    exact hother entry.1 entry.2

theorem gives_concat_iff {lists : List (List Text)} {list : List Text} {name value : Text} :
    Gives (lists ++ [list]) name value ↔
      list = [name, value] ∨ (∀ other, list ≠ [name, other]) ∧ Gives lists name value := by
  constructor
  · rintro ⟨before, after, heq, hafter⟩
    rcases List.eq_nil_or_concat after with rfl | ⟨after, last, rfl⟩
    · exact .inl (List.append_singleton_inj.1 heq).2
    · rw [List.concat_eq_append] at heq hafter
      rw [← List.cons_append, ← List.append_assoc] at heq
      obtain ⟨rfl, rfl⟩ := List.append_singleton_inj.1 heq
      refine .inr ⟨?_, before, after, rfl, fun other hother => ?_⟩
      · rintro other rfl
        exact hafter other (List.mem_append_right _ List.mem_cons_self)
      · exact hafter other (List.mem_append_left _ hother)
  · rintro (rfl | ⟨hlist, before, after, rfl, hafter⟩)
    · exact ⟨lists, [], rfl, fun _ => List.not_mem_nil⟩
    · refine ⟨before, after ++ [list], by simp, fun other hother => ?_⟩
      rcases List.mem_append.1 hother with hmem | hmem
      · exact hafter other hmem
      · exact hlist other (List.mem_singleton.1 hmem).symm

theorem last?_pairs_iff {lists : List (List Text)} {name value : Text} :
    NameMap.last? (lists.filterMap pair?) name = some value ↔ Gives lists name value := by
  -- From the end, where the list stands that counts.
  induction lists using List.reverseRecOn with
  | nil => simp [NameMap.last?, Gives]
  | append_singleton lists list ih =>
      rw [gives_concat_iff, List.filterMap_append, ← ih]
      cases hpair : pair? list with
      | none =>
          have hlist (other : Text) : list ≠ [name, other] := by
            rintro rfl
            contradiction
          simp [hpair, hlist]
      | some entry =>
          obtain rfl := pair?_eq_some_iff.1 hpair
          rw [List.filterMap_cons_some hpair, List.filterMap_nil, NameMap.last?_concat]
          by_cases hname : entry.1 = name
          · simp [hname]
          · simp [hname]

theorem readNameValues_eq {text : Text} {items : List Text} (h : WordList.split text = .ok items) :
    readNameValues text =
      (items.mapM WordList.split).map fun lists => .ofList (lists.filterMap pair?) := by
  rw [readNameValues, h]
  change (items.mapM WordList.split).bind _ = _
  cases items.mapM WordList.split <;> rfl

theorem readNameValues_writeNameValues (entries : List (Text × Text)) :
    readNameValues (writeNameValues entries) = .ok (.ofList entries) := by
  obtain ⟨elements, hread, hitems⟩ :=
    WordList.readElements_merge (entries.map fun entry => WordList.merge [entry.1, entry.2])
  have hsplit := WordList.split_of_readElements hread
  have hlists : (elements.map WordList.Element.item).mapM WordList.split =
      .ok (entries.map fun entry => [entry.1, entry.2]) := by
    rw [hitems, mapM_eq_ok_iff, List.forall₂_map_left_iff, List.forall₂_map_right_iff,
      List.forall₂_same]
    intro entry _
    obtain ⟨elements, hread, hitems⟩ := WordList.readElements_merge [entry.1, entry.2]
    rw [WordList.split_of_readElements hread, hitems]
  have hpairs : (entries.map fun entry => [entry.1, entry.2]).filterMap pair? = entries := by
    rw [List.filterMap_map]
    exact List.filterMap_some
  rw [writeNameValues, readNameValues_eq hsplit, hlists, Except.map, hpairs]

theorem exists_readNameValues {text : Text} {items : List Text} {lists : List (List Text)}
    (hitems : WordList.split text = .ok items)
    (hlists : List.Forall₂ (fun item list => WordList.split item = .ok list) items lists) :
    ∃ values, readNameValues text = .ok values ∧
      ∀ name value, values.get? name = some value ↔ Gives lists name value := by
  refine ⟨.ofList (lists.filterMap pair?), ?_, fun name value => ?_⟩
  · rw [readNameValues_eq hitems, mapM_eq_ok_iff.2 hlists]
    rfl
  · rw [NameMap.get?_ofList, last?_pairs_iff]

theorem readNameValues_eq_error_iff {text : Text} {fault : WordList.Fault} :
    readNameValues text = .error fault ↔
      WordList.split text = .error fault ∨
        ∃ before item after, WordList.split text = .ok (before ++ item :: after) ∧
          (∀ earlier ∈ before, ∃ list, WordList.split earlier = .ok list) ∧
          WordList.split item = .error fault := by
  cases hsplit : WordList.split text with
  | error other =>
      rw [readNameValues, hsplit]
      simp [bind, Except.bind]
  | ok items =>
      rw [readNameValues_eq hsplit, map_eq_error_iff, or_iff_right (by simp)]
      constructor
      · intro h
        obtain ⟨before, item, after, rfl, hbefore, hitem⟩ := exists_error_of_mapM h
        exact ⟨before, item, after, rfl, hbefore, hitem⟩
      · rintro ⟨before, item, after, hitems, hbefore, hitem⟩
        rw [Except.ok.inj hitems]
        exact mapM_of_error hbefore hitem after

/-- Names and values of any characters read back, in whichever order they are written.  Of
other lists of lists, the pairs are read, and the last of a name counts; an item that is no
list is a fault. -/
theorem name_values_read_back :
    (∀ (values : NameValues) entries, entries.Perm values.entries →
      readNameValues (writeNameValues entries) = .ok values) ∧
    (∀ text items lists, WordList.split text = .ok items →
      List.Forall₂ (fun item list => WordList.split item = .ok list) items lists →
        ∃ values, readNameValues text = .ok values ∧
          ∀ name value, values.get? name = some value ↔ Gives lists name value) ∧
    ∀ text fault, readNameValues text = .error fault ↔
      WordList.split text = .error fault ∨
        ∃ before item after, WordList.split text = .ok (before ++ item :: after) ∧
          (∀ earlier ∈ before, ∃ list, WordList.split earlier = .ok list) ∧
          WordList.split item = .error fault := by
  refine ⟨fun values entries hperm => ?_, fun text items lists => ?_, fun text fault => ?_⟩
  · rw [readNameValues_writeNameValues, NameMap.ofList_of_perm hperm]
  · exact exists_readNameValues
  · exact readNameValues_eq_error_iff

theorem name_values_read_back_quoted :
    readNameValues (writeNameValues [("\x7d\x7b", "a\\"), ("", "\"b;")]) =
      .ok (.ofList [("", "\"b;"), ("\x7d\x7b", "a\\")]) ∧
    ∃ values, readNameValues "{x 1} odd {x 2} {x 3 4} {}" = .ok values ∧
      values.get? "x" = some "2" := by
  obtain ⟨hwritten, hlists, -⟩ := name_values_read_back
  have hsplit : WordList.split "{x 1} odd {x 2} {x 3 4} {}" =
      .ok ["x 1", "odd", "x 2", "x 3 4", ""] := by cbv
  have hitems : [("x 1" : Text), "odd", "x 2", "x 3 4", ""].mapM WordList.split =
      .ok [["x", "1"], ["odd"], ["x", "2"], ["x", "3", "4"], []] := by cbv
  obtain ⟨values, hread, hgives⟩ := hlists _ _ _ hsplit (mapM_eq_ok_iff.1 hitems)
  refine ⟨hwritten _ _ (by decide), values, hread, (hgives "x" "2").2 ?_⟩
  exact ⟨[["x", "1"], ["odd"]], [["x", "3", "4"], []], rfl, by simp⟩

end CommandFrame.Builtin

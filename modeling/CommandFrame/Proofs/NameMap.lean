import Mathlib.Data.List.Induction
import CommandFrame.NameMap

/-!
# Entries of maps

An entry is in a map exactly if it is found there, and maps in which the same
is found are equal.  When entries are set in order, the last of a name counts.
-/

namespace CommandFrame.NameMap

variable {α : Type} {first second map : NameMap α}

theorem find?_eq_some_iff {entries : List (Text × α)}
    (h : entries.Pairwise fun first second => first.1 < second.1) {name : Text} {value : α} :
    find? name entries = some value ↔ (name, value) ∈ entries := by
  induction entries with
  | nil => simp [find?]
  | cons head rest ih =>
      obtain ⟨key, found⟩ := head
      obtain ⟨hhead, hrest⟩ := List.pairwise_cons.1 h
      unfold find?
      split
      · rename_i hkey
        subst hkey
        constructor
        · intro hfound
          cases hfound
          exact List.mem_cons_self
        · rintro (_ | ⟨_, hlater⟩)
          · rfl
          · exact absurd (hhead _ hlater) (List.lt_irrefl key)
      · rename_i hkey
        rw [ih hrest, List.mem_cons, or_iff_right]
        rintro ⟨⟩
        exact hkey rfl

theorem get?_eq_some_iff {name : Text} {value : α} :
    map.get? name = some value ↔ (name, value) ∈ map.entries :=
  find?_eq_some_iff map.increasing

theorem mem_values_of_get? {name : Text} {value : α} (h : map.get? name = some value) :
    value ∈ map.values :=
  List.mem_map_of_mem (get?_eq_some_iff.1 h)

theorem nodup_entries (map : NameMap α) : map.entries.Nodup := by
  refine map.increasing.imp ?_
  rintro earlier later hlt rfl
  exact List.lt_irrefl _ hlt

theorem ext_get? (h : ∀ name, first.get? name = second.get? name) : first = second := by
  have hsame : first.entries.Perm second.entries := by
    refine (List.perm_ext_iff_of_nodup first.nodup_entries second.nodup_entries).2 ?_
    rintro ⟨name, value⟩
    rw [← get?_eq_some_iff, ← get?_eq_some_iff, h]
  refine ext (hsame.eq_of_pairwise ?_ first.increasing second.increasing)
  intro earlier later _ _ hlt hgt
  exact absurd hgt (List.lt_asymm hlt)

def setAll (map : NameMap α) (entries : List (Text × α)) : NameMap α :=
  entries.foldl (fun map entry => map.insert entry.1 entry.2) map

def last? (entries : List (Text × α)) (name : Text) : Option α :=
  (entries.reverse.find? fun entry => entry.1 = name).map (·.2)

theorem setAll_append (map : NameMap α) (earlier later : List (Text × α)) :
    map.setAll (earlier ++ later) = (map.setAll earlier).setAll later :=
  List.foldl_append

theorem last?_concat (entries : List (Text × α)) (entry : Text × α) (name : Text) :
    last? (entries ++ [entry]) name =
      if entry.1 = name then some entry.2 else last? entries name := by
  rw [last?, last?, List.reverse_append]
  by_cases hname : entry.1 = name
  · simp [hname]
  · simp [hname]

theorem get?_setAll (map : NameMap α) (entries : List (Text × α)) (name : Text) :
    (map.setAll entries).get? name = (last? entries name).or (map.get? name) := by
  induction entries using List.reverseRecOn with
  | nil => rfl
  | append_singleton entries entry ih =>
      rw [setAll_append]
      change ((map.setAll entries).insert entry.1 entry.2).get? name = _
      rw [get?_insert, ih, last?_concat]
      split
      · rfl
      · rfl

theorem get?_ofList (entries : List (Text × α)) (name : Text) :
    (ofList entries).get? name = last? entries name := by
  change (empty.setAll entries).get? name = _
  rw [get?_setAll, get?_empty, Option.or_none]

theorem last?_eq_some_iff {entries : List (Text × α)}
    (h : entries.Pairwise fun first second => first.1 ≠ second.1) {name : Text} {value : α} :
    last? entries name = some value ↔ (name, value) ∈ entries := by
  induction entries using List.reverseRecOn with
  | nil => simp [last?]
  | append_singleton entries entry ih =>
      obtain ⟨key, found⟩ := entry
      obtain ⟨hearlier, -, hdiffer⟩ := List.pairwise_append.1 h
      rw [last?_concat, List.mem_append, List.mem_singleton, Prod.mk.injEq]
      split
      · rename_i hname
        have hnew : (name, value) ∉ entries := fun hmem =>
          hdiffer _ hmem _ (List.mem_singleton_self _) hname.symm
        rw [or_iff_right hnew, Option.some.injEq, eq_comm (a := found)]
        exact (and_iff_right hname.symm).symm
      · rename_i hname
        simp [ih hearlier, Ne.symm hname]

/-- The entries of a map make the map again, in whichever order. -/
theorem ofList_of_perm {entries : List (Text × α)} (h : entries.Perm map.entries) :
    ofList entries = map := by
  have hdiffer : entries.Pairwise fun first second => first.1 ≠ second.1 := by
    refine (h.pairwise_iff fun hne => Ne.symm hne).2 (map.increasing.imp fun hlt => ?_)
    exact fun hsame => List.lt_irrefl _ (hsame ▸ hlt)
  refine ext_get? fun name => Option.ext fun value => ?_
  rw [get?_ofList, last?_eq_some_iff hdiffer, get?_eq_some_iff, h.mem_iff]

end CommandFrame.NameMap

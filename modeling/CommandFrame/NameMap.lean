import CommandFrame.Text.Basic

/-!
# Maps with names as keys

A map keeps its entries in strictly increasing order of their names, so that
two maps with the same entries are equal and listing one needs no sorting.
-/

namespace CommandFrame

structure NameMap (α : Type) where
  entries : List (Text × α)
  increasing : entries.Pairwise fun first second => first.1 < second.1

namespace NameMap

variable {α β : Type}

def empty : NameMap α := ⟨[], .nil⟩

def find? (name : Text) : List (Text × α) → Option α
  | [] => none
  | (key, value) :: rest => if key = name then some value else find? name rest

def get? (map : NameMap α) (name : Text) : Option α := find? name map.entries

def contains (map : NameMap α) (name : Text) : Bool := (map.get? name).isSome

def keys (map : NameMap α) : List Text := map.entries.map (·.1)

def values (map : NameMap α) : List α := map.entries.map (·.2)

def place (name : Text) (value : α) : List (Text × α) → List (Text × α)
  | [] => [(name, value)]
  | entry :: rest =>
      if name < entry.1 then (name, value) :: entry :: rest
      else if entry.1 < name then entry :: place name value rest
      else (name, value) :: rest

theorem mem_place {name : Text} {value : α} {entries : List (Text × α)}
    {entry : Text × α} (h : entry ∈ place name value entries) :
    entry = (name, value) ∨ entry ∈ entries := by
  induction entries with
  | nil => simpa [place] using h
  | cons head rest ih =>
      unfold place at h
      split at h
      · simpa using h
      · split at h
        · rcases List.mem_cons.1 h with h | h
          · exact .inr (h ▸ List.mem_cons_self)
          · exact (ih h).imp_right (List.mem_cons_of_mem _)
        · rcases List.mem_cons.1 h with h | h
          · exact .inl h
          · exact .inr (List.mem_cons_of_mem _ h)

theorem increasing_place (name : Text) (value : α) {entries : List (Text × α)}
    (h : entries.Pairwise fun first second => first.1 < second.1) :
    (place name value entries).Pairwise fun first second => first.1 < second.1 := by
  induction entries with
  | nil => simp [place]
  | cons head rest ih =>
      have ⟨hhead, hrest⟩ := List.pairwise_cons.1 h
      unfold place
      split
      · rename_i hlt
        refine List.pairwise_cons.2 ⟨fun entry hentry => ?_, h⟩
        rcases List.mem_cons.1 hentry with rfl | hentry
        · exact hlt
        · exact List.lt_trans hlt (hhead entry hentry)
      · split
        · rename_i hlt
          refine List.pairwise_cons.2 ⟨fun entry hentry => ?_, ih hrest⟩
          rcases mem_place hentry with rfl | hentry
          · exact hlt
          · exact hhead entry hentry
        · rename_i hge hle
          have heq : head.1 = name := List.le_antisymm hge hle
          exact List.pairwise_cons.2 ⟨fun entry hentry => heq ▸ hhead entry hentry, hrest⟩

def insert (map : NameMap α) (name : Text) (value : α) : NameMap α :=
  ⟨place name value map.entries, increasing_place name value map.increasing⟩

def ofList (entries : List (Text × α)) : NameMap α :=
  entries.foldl (fun map (name, value) => map.insert name value) empty

def mapValues (f : α → β) (map : NameMap α) : NameMap β :=
  ⟨map.entries.map fun (name, value) => (name, f value), by
    simpa [List.pairwise_map] using map.increasing⟩

@[ext] theorem ext {first second : NameMap α} (h : first.entries = second.entries) :
    first = second := by
  cases first; cases second; cases h; rfl

theorem find?_place (name key : Text) (value : α) (entries : List (Text × α)) :
    find? key (place name value entries) =
      if name = key then some value else find? key entries := by
  induction entries with
  | nil => rfl
  | cons head rest ih =>
      unfold place
      split
      · simp [find?]
      · split
        · rename_i hlt
          simp only [find?, ih]
          split
          · rename_i hkey
            rw [if_neg]
            rintro rfl
            exact List.lt_irrefl _ (hkey ▸ hlt)
          · rfl
        · rename_i hge hle
          have heq : head.1 = name := List.le_antisymm hge hle
          by_cases hkey : name = key <;> simp [find?, heq, hkey]

@[simp] theorem get?_insert (map : NameMap α) (name key : Text) (value : α) :
    (map.insert name value).get? key = if name = key then some value else map.get? key :=
  find?_place name key value map.entries

@[simp] theorem get?_empty (key : Text) : (empty : NameMap α).get? key = none := rfl

end NameMap

end CommandFrame

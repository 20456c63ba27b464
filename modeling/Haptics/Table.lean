/-!
# Tables

Finite maps whose entries are listed by ascending key. Main statement: `find?_insert`, a table
remembers the last value inserted for each key and nothing else.
-/

namespace Haptics

/-- A finite map as the list of its entries. -/
structure Table (κ : Type) (α : Type) where
  entries : List (κ × α) := []

namespace Table
variable {κ α : Type}

instance : Inhabited (Table κ α) := ⟨{}⟩

def keys (t : Table κ α) : List κ := t.entries.map (·.1)

def isEmpty (t : Table κ α) : Bool := t.entries.isEmpty

variable [DecidableEq κ]

def find? (t : Table κ α) (k : κ) : Option α :=
  (t.entries.find? (·.1 == k)).map (·.2)

def contains (t : Table κ α) (k : κ) : Bool := (t.find? k).isSome

def erase (t : Table κ α) (k : κ) : Table κ α := ⟨t.entries.filter (·.1 != k)⟩

/-- Applies `f` to the value at `k`, if there is one. -/
def modify (t : Table κ α) (k : κ) (f : α → α) : Table κ α :=
  ⟨t.entries.map fun (key, value) => if key = k then (key, f value) else (key, value)⟩

@[simp] theorem find?_empty (k : κ) : ({} : Table κ α).find? k = none := rfl

theorem find?_erase (t : Table κ α) (k k' : κ) :
    (t.erase k).find? k' = if k' = k then none else t.find? k' := by
  have hp : ∀ e : κ × α, (decide (e.1 != k) && decide (e.1 == k')) =
      if k' = k then false else decide (e.1 == k') := by
    intro e
    by_cases he : e.1 = k'
    · by_cases hk : k' = k <;> simp [he, hk]
    · simp [he]
  unfold find? erase
  by_cases h : k' = k
  · subst h
    simp [List.find?_filter]
  · simp only [List.find?_filter, h, if_false] at hp ⊢
    congr 2
    funext e
    have := hp e
    by_cases he : e.1 = k' <;> simp_all

theorem find?_modify (t : Table κ α) (k k' : κ) (f : α → α) :
    (t.modify k f).find? k' = if k' = k then (t.find? k').map f else t.find? k' := by
  obtain ⟨es⟩ := t
  unfold find? modify
  dsimp only
  induction es with
  | nil => simp
  | cons e es ih =>
    have hkey : (if e.1 = k then (e.1, f e.2) else (e.1, e.2)).1 = e.1 := by split <;> rfl
    rw [List.map_cons, List.find?_cons, List.find?_cons, hkey]
    by_cases he : e.1 = k'
    · by_cases hk : k' = k <;> simp [he, hk]
    · rw [beq_eq_false_iff_ne.mpr he]
      exact ih

variable [LT κ] [DecidableLT κ]

/-- Puts an entry in front of the first larger key. -/
def place (k : κ) (v : α) : List (κ × α) → List (κ × α)
  | [] => [(k, v)]
  | e :: es => if k < e.1 then (k, v) :: e :: es else e :: place k v es

/-- Sets the value at `k`. -/
def insert (t : Table κ α) (k : κ) (v : α) : Table κ α := ⟨place k v (t.erase k).entries⟩

/-- The table of a list of entries, the last of two entries with one key winning. -/
def ofList (es : List (κ × α)) : Table κ α := es.foldl (fun t e => t.insert e.1 e.2) {}

private theorem find?_place (k k' : κ) (v : α) (es : List (κ × α)) (h : ∀ e ∈ es, e.1 ≠ k) :
    (place k v es).find? (·.1 == k') = if k' = k then some (k, v) else es.find? (·.1 == k') := by
  induction es with
  | nil =>
    by_cases hk : k = k'
    · simp [place, hk]
    · simp [place, hk, Ne.symm hk]
  | cons e es ih =>
    have he : e.1 ≠ k := h e (by simp)
    have ih := ih fun e' he' => h e' (by simp [he'])
    unfold place
    split
    · by_cases hk : k = k'
      · simp [hk]
      · simp [hk, Ne.symm hk]
    · by_cases hek : e.1 = k'
      · have : k' ≠ k := hek ▸ he
        simp [hek, this]
      · simp [hek, ih]

theorem find?_insert (t : Table κ α) (k k' : κ) (v : α) :
    (t.insert k v).find? k' = if k' = k then some v else t.find? k' := by
  have hne : ∀ e ∈ (t.erase k).entries, e.1 ≠ k := by simp [erase]
  have he := find?_erase t k k'
  unfold find? at he ⊢
  simp only [insert, find?_place k k' v _ hne]
  split
  · rfl
  · rename_i hk
    simpa [hk] using he

end Table
end Haptics

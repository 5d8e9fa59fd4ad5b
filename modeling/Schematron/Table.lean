namespace Schematron

/-- Values by key, in the order of the keys and with one value for each. -/
abbrev Table (α : Type) := List (String × α)

namespace Table

variable {α : Type}

/-- A value of the same key is replaced. -/
def insert (key : String) (value : α) : Table α → Table α
  | [] => [(key, value)]
  | (k, v) :: rest =>
    if key = k then (key, value) :: rest
    else if key < k then (key, value) :: (k, v) :: rest
    else (k, v) :: insert key value rest

def get? (table : Table α) (key : String) : Option α := table.lookup key

def erase (key : String) : Table α → Table α
  | [] => []
  | (k, v) :: rest => if key = k then erase key rest else (k, v) :: erase key rest

def ofList (entries : List (String × α)) : Table α :=
  entries.foldl (fun table (k, v) => table.insert k v) []

theorem get?_cons (key k : String) (v : α) (rest : Table α) :
    get? ((k, v) :: rest) key = if key = k then some v else rest.get? key := by
  unfold get?
  rw [List.lookup_cons]
  by_cases h : key = k
  · simp [h]
  · simp [h, beq_eq_false_iff_ne.mpr h]

theorem get?_insert_self (key : String) (value : α) (table : Table α) :
    (table.insert key value).get? key = some value := by
  induction table with
  | nil => simp [insert, get?_cons]
  | cons entry rest ih =>
    obtain ⟨k, v⟩ := entry
    unfold insert
    split
    · simp [get?_cons]
    split
    · simp [get?_cons]
    · rename_i hne _
      simp [get?_cons, hne, ih]

theorem get?_insert_ne {key other : String} (h : other ≠ key) (value : α) (table : Table α) :
    (table.insert key value).get? other = table.get? other := by
  induction table with
  | nil => simp [insert, get?_cons, h]
  | cons entry rest ih =>
    obtain ⟨k, v⟩ := entry
    unfold insert
    split
    · rename_i hk
      simp [get?_cons, ← hk, h]
    split
    · simp [get?_cons, h]
    · simp [get?_cons, ih]

/-- Entries of different keys may be made in any order. -/
theorem insert_comm {key other : String} (h : key ≠ other) (value value' : α) (table : Table α) :
    (table.insert key value).insert other value' = (table.insert other value').insert key value := by
  have hlt : key < other ∨ other < key := by
    rcases String.le_total key other with hle | hle
    · exact .inl (String.not_le.mp fun hge => h (String.le_antisymm hle hge))
    · exact .inr (String.not_le.mp fun hge => h (String.le_antisymm hge hle))
  induction table with
  | nil =>
    rcases hlt with hlt | hlt
    · simp [insert, h, Ne.symm h, hlt, String.lt_asymm hlt]
    · simp [insert, h, Ne.symm h, hlt, String.lt_asymm hlt]
  | cons entry rest ih =>
    obtain ⟨k, v⟩ := entry
    grind [insert, → String.lt_trans, → String.lt_asymm]

theorem get?_erase_self (key : String) (table : Table α) : (table.erase key).get? key = none := by
  induction table with
  | nil => rfl
  | cons entry rest ih =>
    obtain ⟨k, v⟩ := entry
    unfold erase
    split
    · exact ih
    · rename_i h
      rw [get?_cons, if_neg h, ih]

theorem get?_erase_ne {key other : String} (h : other ≠ key) (table : Table α) :
    (table.erase key).get? other = table.get? other := by
  induction table with
  | nil => rfl
  | cons entry rest ih =>
    obtain ⟨k, v⟩ := entry
    unfold erase
    split
    · rename_i hk
      rw [ih, get?_cons, if_neg (hk ▸ h)]
    · rw [get?_cons, get?_cons, ih]

/-- The keys rise, so that none comes twice. -/
def Ordered (table : Table α) : Prop := table.Pairwise fun entry later => entry.1 < later.1

theorem eq_or_mem_of_mem_insert {key : String} {value : α} {table : Table α} {entry : String × α}
    (h : entry ∈ table.insert key value) : entry.1 = key ∨ entry ∈ table := by
  induction table with
  | nil => exact .inl (congrArg Prod.fst (List.mem_singleton.mp h))
  | cons first rest ih =>
    obtain ⟨k, v⟩ := first
    unfold insert at h
    split at h
    · rcases List.mem_cons.mp h with rfl | h
      · exact .inl rfl
      · exact .inr (List.mem_cons_of_mem _ h)
    split at h
    · rcases List.mem_cons.mp h with rfl | h
      · exact .inl rfl
      · exact .inr h
    · rcases List.mem_cons.mp h with rfl | h
      · exact .inr List.mem_cons_self
      · exact (ih h).imp_right (List.mem_cons_of_mem _)

theorem Ordered.insert {table : Table α} (h : table.Ordered) (key : String) (value : α) :
    (table.insert key value).Ordered := by
  induction table with
  | nil => exact List.pairwise_singleton _ _
  | cons first rest ih =>
    obtain ⟨k, v⟩ := first
    obtain ⟨hfirst, hrest⟩ := List.pairwise_cons.mp h
    unfold Table.insert
    split
    · rename_i heq
      subst heq
      exact List.pairwise_cons.mpr ⟨hfirst, hrest⟩
    split
    · rename_i hlt
      refine List.pairwise_cons.mpr ⟨fun entry hentry => ?_, h⟩
      rcases List.mem_cons.mp hentry with rfl | hentry
      · exact hlt
      · exact String.lt_trans hlt (hfirst entry hentry)
    · rename_i hne hge
      have hgt : k < key := by
        refine String.not_le.mp fun hle => hne (String.le_antisymm hle ?_)
        exact String.not_lt.mp hge
      refine List.pairwise_cons.mpr ⟨fun entry hentry => ?_, ih hrest⟩
      rcases eq_or_mem_of_mem_insert hentry with heq | hentry
      · exact heq ▸ hgt
      · exact hfirst entry hentry

theorem erase_sublist (key : String) (table : Table α) : (table.erase key).Sublist table := by
  induction table with
  | nil => exact .slnil
  | cons first rest ih =>
    obtain ⟨k, v⟩ := first
    unfold erase
    split
    · exact .cons _ ih
    · exact .cons_cons _ ih

theorem Ordered.erase {table : Table α} (h : table.Ordered) (key : String) : (table.erase key).Ordered :=
  List.Pairwise.sublist (erase_sublist key table) h

theorem Ordered.nodup_keys {table : Table α} (h : table.Ordered) : (table.map (·.1)).Nodup := by
  refine List.pairwise_map.mpr (h.imp fun {entry later} hlt heq => ?_)
  rw [heq] at hlt
  exact String.lt_irrefl _ hlt

theorem mem_keys {table : Table α} {key : String} :
    key ∈ table.map (·.1) ↔ ∃ value, table.get? key = some value := by
  induction table with
  | nil => exact iff_of_false List.not_mem_nil nofun
  | cons first rest ih =>
    obtain ⟨k, v⟩ := first
    rw [List.map_cons, List.mem_cons, get?_cons, ih]
    split
    · rename_i heq
      exact iff_of_true (.inl heq) ⟨v, rfl⟩
    · rename_i hne
      exact or_iff_right hne

end Table

end Schematron

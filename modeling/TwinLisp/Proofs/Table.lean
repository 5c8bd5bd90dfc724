import Mathlib.Data.List.Nodup
import TwinLisp.Table

/-! The entries of a table after insertions. -/

namespace TwinLisp.Table

variable {α : Type}

theorem mem_insert {t : Table α} {name : String} {value : α} {entry : String × α}
    (h : entry ∈ t.insert name value) : entry = (name, value) ∨ entry ∈ t := by
  induction t with
  | nil => exact .inl (List.mem_singleton.mp h)
  | cons pair rest ih =>
    obtain ⟨key, old⟩ := pair
    unfold Table.insert at h
    split at h
    · -- the entry of this name is replaced
      rcases List.mem_cons.mp h with rfl | h
      · exact .inl rfl
      · exact .inr (List.mem_cons_of_mem _ h)
    · rcases List.mem_cons.mp h with rfl | h
      · exact .inr List.mem_cons_self
      · exact (ih h).imp_right (List.mem_cons_of_mem _)

theorem mem_insertAll {t : Table α} {pairs : List (String × α)} {entry : String × α}
    (h : entry ∈ t.insertAll pairs) : entry ∈ pairs ∨ entry ∈ t := by
  induction pairs generalizing t with
  | nil => exact .inr h
  | cons pair pairs ih =>
    rcases ih h with h | h
    · exact .inl (List.mem_cons_of_mem _ h)
    · rcases mem_insert h with rfl | h
      · exact .inl List.mem_cons_self
      · exact .inr h

/-- A value that is found stands in the table under its name. -/
theorem mem_of_get? {t : Table α} {name : String} {value : α} (h : t.get? name = some value) :
    (name, value) ∈ t := by
  induction t with
  | nil => cases h
  | cons pair rest ih =>
    obtain ⟨key, old⟩ := pair
    unfold Table.get? at h
    split at h
    next same =>
      cases h
      exact same ▸ List.mem_cons_self
    next => exact List.mem_cons_of_mem _ (ih h)

/-- Everything that a name stands for, hidden pairs included. -/
def entries (t : Table α) (name : String) : List α :=
  (t.filter (·.1 == name)).map (·.2)

theorem entries_cons_same (name : String) (value : α) (t : Table α) :
    entries ((name, value) :: t) name = value :: t.entries name := by
  simp [entries]

theorem entries_cons_other {name other : String} (value : α) (t : Table α) (h : name ≠ other) :
    entries ((name, value) :: t) other = t.entries other := by
  simp [entries, h]

/-- Of several entries for a name the first one counts. -/
theorem get?_eq_head? (t : Table α) (name : String) : t.get? name = (t.entries name).head? := by
  induction t with
  | nil => rfl
  | cons pair rest ih =>
    obtain ⟨key, old⟩ := pair
    by_cases h : key = name
    · subst h
      simp [get?, entries_cons_same]
    · rw [entries_cons_other old rest h, ← ih]
      simp [get?, h]

/-- An entry is inserted in front of those of its name. -/
theorem entries_insert (t : Table α) (name other : String) (value : α) :
    (t.insert name value).entries other =
      if name = other then value :: (t.entries other).tail else t.entries other := by
  induction t with
  | nil =>
    split
    next same =>
      subst same
      exact entries_cons_same name value []
    next different => exact entries_cons_other value [] different
  | cons pair rest ih =>
    obtain ⟨key, old⟩ := pair
    -- inserting goes down to the first entry of the name and replaces it
    by_cases hk : key = name
    · subst hk
      split
      next same =>
        subst same
        simp [insert, entries_cons_same]
      next different => simp [insert, entries_cons_other _ _ different]
    · simp only [insert, if_neg hk]
      by_cases ho : key = other
      · subst ho
        rw [entries_cons_same, entries_cons_same, ih, if_neg (Ne.symm hk), if_neg (Ne.symm hk)]
      · rw [entries_cons_other _ _ ho, entries_cons_other _ _ ho, ih]

/-- The last of the inserted pairs counts, in place of what the name stood for. -/
theorem entries_insertAll (t : Table α) (pairs : List (String × α)) (name : String) :
    (t.insertAll pairs).entries name =
      match (entries pairs name).getLast? with
      | some value => value :: (t.entries name).tail
      | none => t.entries name := by
  induction pairs generalizing t with
  | nil => rfl
  | cons pair pairs ih =>
    obtain ⟨key, value⟩ := pair
    change entries (insertAll (t.insert key value) pairs) name = _
    -- pairs are inserted from the front, so the last one of a name stays
    rw [ih, entries_insert]
    by_cases h : key = name
    · subst h
      rw [entries_cons_same, if_pos rfl, List.getLast?_cons]
      cases (entries pairs key).getLast? <;> rfl
    · rw [entries_cons_other value pairs h, if_neg h]

theorem entries_ne_nil {t : Table α} {name : String} (h : name ∈ t.map (·.1)) :
    t.entries name ≠ [] := by
  obtain ⟨pair, mem, rfl⟩ := List.mem_map.mp h
  refine List.ne_nil_of_mem (a := pair.2) ?_
  exact List.mem_map.mpr ⟨pair, List.mem_filter.mpr ⟨mem, beq_self_eq_true _⟩, rfl⟩

theorem entries_eq_nil {t : Table α} {name : String} (h : name ∉ t.map (·.1)) :
    t.entries name = [] := by
  unfold entries
  rw [List.map_eq_nil_iff, List.filter_eq_nil_iff]
  exact fun pair mem same => h (List.mem_map.mpr ⟨pair, mem, eq_of_beq same⟩)

theorem mem_of_mem_entries {t : Table α} {name : String} {value : α} (h : value ∈ t.entries name) :
    (name, value) ∈ t := by
  obtain ⟨⟨key, _⟩, mem, rfl⟩ := List.mem_map.mp h
  obtain ⟨held, same⟩ := List.mem_filter.mp mem
  cases eq_of_beq same
  exact held

/-- An insertion keeps the names in their order; a new one is the last. -/
theorem keys_insert (t : Table α) (name : String) (value : α) :
    (t.insert name value).map (·.1) =
      if name ∈ t.map (·.1) then t.map (·.1) else t.map (·.1) ++ [name] := by
  induction t with
  | nil => rfl
  | cons pair rest ih =>
    obtain ⟨key, old⟩ := pair
    -- a name keeps its place, a new one goes to the end
    by_cases hk : key = name
    · subst hk
      simp [insert]
    · simp only [insert, if_neg hk, List.map_cons, ih, List.mem_cons, Ne.symm hk, false_or]
      split
      · rfl
      · rfl

/-- Inserting replaces an entry, so names stay distinct. -/
theorem Distinct.insert {t : Table α} (h : t.Distinct) (name : String) (value : α) :
    (t.insert name value).Distinct := by
  unfold Distinct
  rw [keys_insert]
  split
  next => exact h
  next new =>
    have apart : (t.map (·.1)).Disjoint [name] := List.disjoint_singleton.mpr new
    exact List.Nodup.append h (List.nodup_singleton name) apart

theorem Distinct.insertAll {t : Table α} (h : t.Distinct) (pairs : List (String × α)) :
    (t.insertAll pairs).Distinct := by
  induction pairs generalizing t with
  | nil => exact h
  | cons pair pairs ih => exact ih (h.insert pair.1 pair.2)

theorem Distinct.perm {t t' : Table α} (h : t.Distinct) (perm : t.Perm t') : t'.Distinct :=
  (perm.map Prod.fst).nodup_iff.mp h

/-- Without a second pair of the name, what it stands for is what it is paired with. -/
theorem Distinct.get?_eq_some_iff {t : Table α} (h : t.Distinct) {name : String} {value : α} :
    t.get? name = some value ↔ (name, value) ∈ t := by
  constructor
  · exact mem_of_get?
  · intro mem
    induction t with
    | nil => cases mem
    | cons pair rest ih =>
      obtain ⟨key, old⟩ := pair
      obtain ⟨new, distinct⟩ := List.nodup_cons.mp h
      rcases List.mem_cons.mp mem with same | mem
      · cases same
        exact if_pos rfl
      · -- the first pair is one of another name
        have other : key ≠ name := by
          rintro rfl
          exact new (List.mem_map.mpr ⟨_, mem, rfl⟩)
        rw [get?, if_neg other]
        exact ih distinct mem

/-- In a table without duplicates the order does not matter. -/
theorem Distinct.get?_perm {t t' : Table α} (h : t.Distinct) (perm : t.Perm t') (name : String) :
    t'.get? name = t.get? name := by
  apply Option.ext
  intro value
  rw [(h.perm perm).get?_eq_some_iff, h.get?_eq_some_iff]
  exact perm.mem_iff.symm

theorem Distinct.getLast?_entries {t : Table α} (h : t.Distinct) (name : String) :
    (t.entries name).getLast? = t.get? name := by
  induction t with
  | nil => rfl
  | cons pair rest ih =>
    obtain ⟨key, value⟩ := pair
    obtain ⟨new, distinct⟩ := List.nodup_cons.mp h
    by_cases same : key = name
    · subst same
      rw [entries_cons_same, entries_eq_nil new, get?, if_pos rfl]
      rfl
    · rw [entries_cons_other _ _ same, ih distinct, get?, if_neg same]

end TwinLisp.Table

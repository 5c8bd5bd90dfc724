/-! Finite maps from names, kept as lists of pairs. -/

namespace TwinLisp

/-- Pairs of a name and what it stands for; the first pair of a name counts. -/
abbrev Table (α : Type) := List (String × α)

namespace Table

variable {α : Type}

def get? (t : Table α) (name : String) : Option α :=
  match t with
  | [] => none
  | (key, value) :: rest => if key = name then some value else get? rest name

/-- No name has two pairs, so that the order of the pairs does not matter. -/
def Distinct (t : Table α) : Prop :=
  (t.map (·.1)).Nodup

/-- Lets a name stand for a value, in place of what it stood for. -/
def insert (t : Table α) (name : String) (value : α) : Table α :=
  match t with
  | [] => [(name, value)]
  | (key, old) :: rest =>
    if key = name then (name, value) :: rest else (key, old) :: insert rest name value

def insertAll (t : Table α) (pairs : List (String × α)) : Table α :=
  pairs.foldl (fun t (name, value) => insert t name value) t

theorem get?_insert (t : Table α) (name other : String) (value : α) :
    get? (insert t name value) other = if name = other then some value else get? t other := by
  induction t with
  | nil => rfl
  | cons pair rest ih =>
    obtain ⟨key, old⟩ := pair
    by_cases hk : key = name
    · subst hk
      by_cases ho : key = other <;> simp [insert, get?, ho]
    · by_cases ho : key = other
      · subst ho
        simp [insert, get?, hk, Ne.symm hk]
      · simp [insert, get?, hk, ho, ih]

end Table

end TwinLisp

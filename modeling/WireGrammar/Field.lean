/-!
# Named fields

A record is a list of named fields.  Where it stands for a finite map the list is kept sorted by
name, so that two maps with the same entries are the same list.

* `Field` — a name and what it names.
* `Fields.get?` — the entry of a name; the first one counts.
* `Fields.insert` — add or replace an entry, keeping the order (`get?_insert`).
* `Fields.ofList` — the map that a list of entries describes; the last entry of a name wins.
-/

set_option autoImplicit false
namespace WireGrammar

/-- A name and what it names. -/
structure Field (α : Type) where
  name : String
  val : α
deriving DecidableEq, Repr

namespace Fields

variable {α : Type}

/-- The entry called `name`. -/
def get? (name : String) : List (Field α) → Option α
  | [] => none
  | f :: fs => if f.name = name then some f.val else get? name fs

/-- Add the entry `name`, replacing one of that name, in a list sorted by name. -/
def insert (name : String) (val : α) : List (Field α) → List (Field α)
  | [] => [⟨name, val⟩]
  | f :: fs =>
    if f.name = name then ⟨name, val⟩ :: fs
    else if name < f.name then ⟨name, val⟩ :: f :: fs
    else f :: insert name val fs

/-- The map described by a list of entries, later entries replacing earlier ones. -/
def ofList (entries : List (Field α)) : List (Field α) :=
  entries.foldl (fun fs f => insert f.name f.val fs) []

/-- **Looking up after an insertion** finds the inserted entry under its own name and nothing new
under any other. -/
theorem get?_insert (name key : String) (val : α) (fs : List (Field α)) :
    get? key (insert name val fs) = if name = key then some val else get? key fs := by
  induction fs with
  | nil => simp [insert, get?]
  | cons f fs ih =>
    unfold insert
    split
    · next h => by_cases hk : name = key <;> simp [get?, h, hk]
    · next h =>
      split
      · simp [get?]
      · by_cases hf : f.name = key
        · have : name ≠ key := fun hn => h (hf.trans hn.symm)
          simp [get?, hf, this]
        · simp [get?, hf, ih]

end Fields
end WireGrammar

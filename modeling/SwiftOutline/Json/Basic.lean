/-!
# JSON values

Values with their fields in the order in which they are written.
-/

namespace SwiftOutline

/-- A JSON value. A number is `mantissa` divided by ten to the power `places`; the literal of an
integer has no places. -/
inductive Json where
  | null
  | bool (b : Bool)
  | num (mantissa : Int) (places : Nat)
  | str (s : String)
  | arr (items : List Json)
  | obj (fields : List (String × Json))
deriving Inhabited

namespace Json

/-! ## Building values -/

/-- A natural number. -/
def nat (n : Nat) : Json := num n 0

/-- A value that may be missing, which is then `null`. -/
def option {α : Type} (toJson : α → Json) : Option α → Json
  | none => null
  | some a => toJson a

/-- A list of values. -/
def list {α : Type} (toJson : α → Json) (items : List α) : Json := arr (items.map toJson)

/-! ## Reading values -/

def bool? : Json → Option Bool
  | bool b => some b
  | _ => none

def string? : Json → Option String
  | str s => some s
  | _ => none

/-- The natural number below `bound` that the literal of an integer stands for. -/
def natural? (bound : Nat) : Json → Option Nat
  | num m 0 => if 0 ≤ m && m < bound then some m.toNat else none
  | _ => none

def items? : Json → Option (List Json)
  | arr items => some items
  | _ => none

def fields? : Json → Option (List (String × Json))
  | obj fields => some fields
  | _ => none

/-- The value of a field of an object. -/
def get? (name : String) (j : Json) : Option Json := j.fields?.bind (List.lookup name)

/-- The items of a list, each read in the same way. -/
def list? {α : Type} (read : Json → Option α) (j : Json) : Option (List α) :=
  j.items?.bind (·.mapM read)

/-- A field that must be there. -/
def field? {α : Type} (name : String) (read : Json → Option α) (j : Json) : Option α :=
  (j.get? name).bind read

/-- A field that may be missing or `null`. -/
def optionalField? {α : Type} (name : String) (read : Json → Option α) (j : Json) :
    Option (Option α) :=
  match j.get? name with
  | none => some none
  | some null => some none
  | some value => (read value).map some

/-! ## Order of fields -/

mutual

/-- The value with the fields of all objects in the order of their names. -/
def sortKeys : Json → Json
  | arr items => arr (sortItems items)
  | obj fields => obj ((sortFields fields).mergeSort fun a b => a.1 ≤ b.1)
  | j => j

def sortItems : List Json → List Json
  | [] => []
  | j :: js => sortKeys j :: sortItems js

def sortFields : List (String × Json) → List (String × Json)
  | [] => []
  | (name, j) :: fields => (name, sortKeys j) :: sortFields fields

end

/-! ## Size -/

theorem sizeOf_lt_of_mem_items {items : List Json} {j : Json} (h : j ∈ items) :
    sizeOf j < sizeOf (arr items) := by
  have := List.sizeOf_lt_of_mem h
  simp only [arr.sizeOf_spec]
  omega

/-- Each value read from a list comes from one of its items. -/
theorem exists_item_of_mem_list? {α : Type} {read : Json → Option α} {j : Json} {as : List α}
    {a : α} (h : j.list? read = some as) (ha : a ∈ as) :
    ∃ item, read item = some a ∧ sizeOf item < sizeOf j := by
  cases j with
  | arr items =>
    have hm : items.mapM read = some as := h
    have hex : ∃ item ∈ items, read item = some a := by
      clear h
      induction items generalizing as with
      | nil =>
        cases hm
        cases ha
      | cons item items ih =>
        rw [List.mapM_cons] at hm
        obtain ⟨b, hb, hm⟩ := Option.bind_eq_some_iff.mp hm
        obtain ⟨bs, hbs, hm⟩ := Option.bind_eq_some_iff.mp hm
        cases hm
        rcases List.mem_cons.mp ha with rfl | ha
        · exact ⟨item, List.mem_cons_self, hb⟩
        · obtain ⟨item', hmem, hread⟩ := ih ha hbs
          exact ⟨item', List.mem_cons_of_mem _ hmem, hread⟩
    obtain ⟨item, hitem, hread⟩ := hex
    exact ⟨item, hread, sizeOf_lt_of_mem_items hitem⟩
  | null => cases h
  | bool => cases h
  | num => cases h
  | str => cases h
  | obj => cases h

theorem mem_of_lookup {name : String} {j : Json} {fields : List (String × Json)}
    (h : fields.lookup name = some j) : ∃ key, (key, j) ∈ fields := by
  induction fields with
  | nil => simp at h
  | cons p fields ih =>
    obtain ⟨key, value⟩ := p
    rw [List.lookup_cons] at h
    split at h
    · cases h
      exact ⟨key, List.mem_cons_self⟩
    · obtain ⟨key', hmem⟩ := ih h
      exact ⟨key', List.mem_cons_of_mem _ hmem⟩

theorem sizeOf_lt_of_get? {name : String} {j value : Json} (h : j.get? name = some value) :
    sizeOf value < sizeOf j := by
  cases j with
  | obj fields =>
    obtain ⟨key, hmem⟩ := mem_of_lookup (show fields.lookup name = some value from h)
    have hlt := List.sizeOf_lt_of_mem hmem
    simp only [Prod.mk.sizeOf_spec] at hlt
    simp only [obj.sizeOf_spec]
    omega
  | null => cases h
  | bool => cases h
  | num => cases h
  | str => cases h
  | arr => cases h

end Json

end SwiftOutline

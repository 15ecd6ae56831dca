import Mathlib.Data.List.Perm.Basic
import SwiftOutline.Json.Basic

/-!
# `Reading` — reading back what was written

The lemmas here say what a reader finds in an object, field by field from the front, and that a list or a
missing value is read back as it was written. Together they let `simp` read any object whose fields are
written out.
-/

namespace SwiftOutline

open List
namespace Json

variable {α : Type} {name key : String} {fields : List (String × Json)} {read : Json → Option α}

/-! ## Plain values -/

@[simp] theorem string?_str (s : String) : string? (str s) = some s := rfl

@[simp] theorem bool?_bool (b : Bool) : bool? (bool b) = some b := rfl

theorem natural?_nat {bound n : Nat} (h : n < bound) : natural? bound (nat n) = some n := by
  have hlt : (n : Int) < bound := by exact_mod_cast h
  simp [natural?, nat, hlt]

/-! ## Fields -/

theorem get?_obj : (obj fields).get? name = fields.lookup name := rfl

theorem get?_cons_self (value : Json) : (obj ((name, value) :: fields)).get? name = some value := by
  simp [get?_obj]

theorem get?_cons_of_ne (h : name ≠ key) (value : Json) :
    (obj ((key, value) :: fields)).get? name = (obj fields).get? name := by
  rw [get?_obj, get?_obj, lookup_cons, beq_false_of_ne h]

theorem get?_eq_none (h : name ∉ fields.map Prod.fst) : (obj fields).get? name = none := by
  rw [get?_obj, lookup_eq_none_iff]
  intro p hp
  rw [bne_iff_ne]
  rintro rfl
  exact h (mem_map_of_mem hp)

variable {front : List (String × Json)} {as : List α}

/-- Fields of other names in front are passed over. -/
theorem get?_append (h : name ∉ front.map Prod.fst) :
    (obj (front ++ fields)).get? name = (obj fields).get? name := by
  have hnone : front.lookup name = none := get?_eq_none h
  rw [get?_obj, get?_obj, lookup_append, hnone, Option.none_or]

@[simp] theorem field?_cons_self (value : Json) :
    (obj ((name, value) :: fields)).field? name read = read value := by
  rw [field?, get?_cons_self, Option.bind_some]

@[simp] theorem field?_cons_of_ne (h : name ≠ key) (value : Json) :
    (obj ((key, value) :: fields)).field? name read = (obj fields).field? name read := by
  rw [field?, get?_cons_of_ne h, field?]

@[simp] theorem field?_append (h : name ∉ front.map Prod.fst) :
    (obj (front ++ fields)).field? name read = (obj fields).field? name read := by
  rw [field?, get?_append h, field?]

@[simp] theorem optionalField?_append (h : name ∉ front.map Prod.fst) :
    (obj (front ++ fields)).optionalField? name read = (obj fields).optionalField? name read := by
  rw [optionalField?, get?_append h, optionalField?]

@[simp] theorem optionalField?_cons_of_ne (h : name ≠ key) (value : Json) :
    (obj ((key, value) :: fields)).optionalField? name read = (obj fields).optionalField? name read := by
  rw [optionalField?, get?_cons_of_ne h, optionalField?]

/-- A value that may be missing is read back if it is never written as `null`. -/
theorem optionalField?_cons_self {write : α → Json} {o : Option α}
    (h : ∀ a ∈ o, read (write a) = some a ∧ write a ≠ null) :
    (obj ((name, option write o) :: fields)).optionalField? name read = some o := by
  cases o with
  | none => simp [optionalField?, get?_cons_self, option]
  | some a =>
    obtain ⟨hread, hnull⟩ := h a rfl
    rw [optionalField?, get?_cons_self, option]
    split
    · next heq => cases heq
    · next heq => exact absurd (Option.some.inj heq) hnull
    · next value heq =>
      cases heq
      rw [hread, Option.map_some]

@[simp] theorem optionalField?_cons_str (o : Option String) :
    (obj ((name, option str o) :: fields)).optionalField? name string? = some o := by
  apply optionalField?_cons_self
  intro s _
  exact ⟨rfl, by simp⟩

/-! ## Lists -/

/-- Items are read together if each one is read, and give one value each. -/
theorem mapM_eq_some_iff {β : Type} {f : β → Option α} {bs : List β} :
    bs.mapM f = some as ↔ List.Forall₂ (fun b a => f b = some a) bs as := by
  induction bs generalizing as with
  | nil =>
    rw [forall₂_nil_left_iff]
    simp [eq_comm]
  | cons b bs ih =>
    rw [forall₂_cons_left_iff, mapM_cons]
    simp only [Option.bind_eq_bind, Option.bind_eq_some_iff, Option.pure_def, Option.some.injEq, ih]
    constructor
    · rintro ⟨a, ha, rest, hrest, rfl⟩
      exact ⟨a, rest, ha, hrest, rfl⟩
    · rintro ⟨a, rest, ha, hrest, rfl⟩
      exact ⟨a, ha, rest, hrest, rfl⟩

/-- Items in another order are read as the same values in another order. -/
theorem mapM_of_perm {β : Type} {f : β → Option α} {bs cs : List β} (h : cs.Perm bs)
    (has : bs.mapM f = some as) : ∃ as', cs.mapM f = some as' ∧ as'.Perm as := by
  obtain ⟨as', has', hperm⟩ := perm_comp_forall₂ h (mapM_eq_some_iff.mp has)
  exact ⟨as', mapM_eq_some_iff.mpr has', hperm⟩

theorem list?_list {write : α → Json} (h : ∀ a ∈ as, read (write a) = some a) :
    (list write as).list? read = some as := by
  show (as.map write).mapM read = some as
  rw [mapM_eq_some_iff, forall₂_map_left_iff, forall₂_same]
  exact h

@[simp] theorem list?_strings (as : List String) : (list str as).list? string? = some as :=
  list?_list fun _ _ => rfl

end Json
end SwiftOutline

import SwiftOutline.Grammar.TypeExpr

/-!
# What introduces a declaration

A declaration begins with attributes, then modifiers, then its keyword. Whether one begins here is
found by looking ahead to the keyword; only then are the tokens read.
-/

namespace SwiftOutline

variable {F : Type} [Append F] [Yield F]

/-! ## Words -/

/-- Words that introduce a declaration. -/
def declarationKeywords : List String :=
  ["import", "class", "struct", "enum", "actor", "protocol", "extension", "func", "init", "deinit",
   "subscript", "var", "let", "typealias", "associatedtype", "case", "operator", "precedencegroup"]

/-- Modifiers of declarations. -/
def modifierWords : List String :=
  ["public", "private", "fileprivate", "internal", "open", "package", "static", "class", "final",
   "override", "mutating", "nonmutating", "lazy", "weak", "unowned", "dynamic", "optional",
   "required", "convenience", "indirect", "prefix", "postfix", "infix", "nonisolated",
   "distributed", "consuming", "borrowing", "__consuming", "isolated"]

/-- Modifiers that take a detail in parentheses, as in `private(set)`. -/
def detailedModifiers : List String :=
  ["public", "private", "fileprivate", "internal", "open", "package", "unowned", "nonisolated"]

/-- The details that modifiers take. -/
def modifierDetails : List String := ["set", "safe", "unsafe"]

/-- Keywords of members that may follow `class` as a modifier. -/
def classMemberKeywords : List String := ["func", "var", "let", "subscript", "typealias", "init"]

/-! ## Looking ahead -/

/-- The tokens after the parts of a dotted name that follow its first word. -/
def afterDottedName : List Token → List Token
  | dot :: word :: rest =>
    if dot.text == "." && word.isWord && dot.isAdjacent then afterDottedName rest
    else dot :: word :: rest
  | ts => ts

theorem length_afterDottedName_le (ts : List Token) :
    (afterDottedName ts).length ≤ ts.length := by
  fun_induction afterDottedName ts with
  | case1 dot word rest _ ih =>
    simp only [List.length_cons]
    omega
  | case2 => exact Nat.le_refl _
  | case3 => exact Nat.le_refl _

/-- The tokens after the attribute whose `@` is the next token. -/
def afterAttribute? : List Token → Option (List Token)
  | _ :: word :: rest =>
    if word.isWord then
      let rest := afterDottedName rest
      if seesAdjacent "(" rest then (takeGroup 0 rest).map (·.2) else some rest
    else none
  | _ => none

theorem length_lt_of_afterAttribute? {ts rest : List Token} (h : afterAttribute? ts = some rest) :
    rest.length < ts.length := by
  unfold afterAttribute? at h
  split at h
  · next first word tail =>
    have hle := length_afterDottedName_le tail
    split at h
    · simp only at h
      split at h
      · obtain ⟨p, hp, rfl⟩ := Option.map_eq_some_iff.mp h
        have hlt := length_lt_of_takeGroup hp
        simp only [List.length_cons]
        omega
      · cases h
        simp only [List.length_cons]
        omega
    · cases h
  · cases h

/-- The tokens after the attributes ahead; `none` if one of them is malformed. -/
def afterAttributes? (ts : List Token) : Option (List Token) :=
  if seesKind .atSign ts then
    match _h : afterAttribute? ts with
    | some rest => afterAttributes? rest
    | none => none
  else some ts
termination_by ts.length
decreasing_by exact length_lt_of_afterAttribute? _h

/-- The number of tokens in the modifier ahead, if there is one. The word `class` is a modifier only
before a member keyword or another modifier. -/
def modifierLength? (ts : List Token) : Option Nat :=
  let word := textAt 0 ts
  let next := textAt 1 ts
  if !(seesWord ts && modifierWords.contains word) then none
  else if word == "class" && !(modifierWords.contains next || classMemberKeywords.contains next) then
    none
  else if detailedModifiers.contains word && next == "(" &&
      modifierDetails.contains (textAt 2 ts) && textAt 3 ts == ")" then
    some 4
  else some 1

theorem pos_of_modifierLength? {ts : List Token} {n : Nat} (h : modifierLength? ts = some n) :
    0 < n ∧ 0 < ts.length := by
  unfold modifierLength? at h
  simp only at h
  split at h
  · cases h
  · next hw =>
    have hts : 0 < ts.length := by
      cases ts with
      | nil => simp [seesWord, isWordAt] at hw
      | cons t ts => simp
    split at h
    · cases h
    · split at h <;> cases h <;> exact ⟨by omega, hts⟩

/-- The tokens after the modifiers ahead. -/
def afterModifiers (ts : List Token) : List Token :=
  match _h : modifierLength? ts with
  | some n => afterModifiers (ts.drop n)
  | none => ts
termination_by ts.length
decreasing_by
  have := pos_of_modifierLength? _h
  simp only [List.length_drop]
  omega

/-- The next token is the keyword of a declaration. The word `actor` is one only if a name follows. -/
def seesDeclarationKeyword : Lookahead := fun ts =>
  seesWord ts && declarationKeywords.contains (textAt 0 ts) && (!sees "actor" ts || isWordAt 1 ts)

/-- The tokens from the keyword on of the declaration that begins here; `none` if none does. -/
def declarationStart? (ts : List Token) : Option (List Token) := do
  let rest := afterModifiers (← afterAttributes? ts)
  if seesDeclarationKeyword rest then some rest else none

/-! ## Reading -/

namespace Rule

/-- Reads a modifier. -/
def declModifier : Rule F :=
  node .declModifier fun ts => bumps ((modifierLength? ts).getD 1) ts

/-- Reads one or more modifiers. -/
def modifierList : Rule F :=
  node .modifierList (many (fun ts => (modifierLength? ts).isSome) declModifier)

/-- Reads the attributes, modifiers and keyword of a declaration. -/
def introducer : Rule F :=
  optional (seesKind .atSign) attributeList ++
    optional (fun ts => (modifierLength? ts).isSome) modifierList ++ bump

end Rule

end SwiftOutline

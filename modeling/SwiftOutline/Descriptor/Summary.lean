import SwiftOutline.Descriptor.Basic

/-!
# Summaries of descriptors

A descriptor as indented lines, one for each descriptor in it and one for each side of a closure.
-/

namespace SwiftOutline

/-- Words for the effects of a closure and for how long it lives. -/
def ClosureTraits.effectWords (t : ClosureTraits) : List String :=
  (if t.isAsync then ["async"] else []) ++
    (if t.isThrowing then ["throws"] else []) ++
    (if t.isEscaping then ["escaping"] else if t.isAutoEscaping then ["auto-escaping"] else [])

namespace Descriptor

/-- Two blanks for each level. -/
def indent (level : Nat) : String := String.ofList (List.replicate (2 * level) ' ')

/-- The line of a descriptor itself. -/
def headline (level : Nat) (d : Descriptor) : String :=
  indent level ++ d.variant ++ " " ++ d.description ++ (if d.isOptional then " optional" else "")

/-- The line with the effects of a closure, if it has any. -/
def effectLine (level : Nat) (t : ClosureTraits) : List String :=
  if t.effectWords.isEmpty then []
  else [indent level ++ "[" ++ " ".intercalate t.effectWords ++ "]"]

mutual

/-- The lines of a descriptor and of all descriptors in it. -/
def summaryLines (level : Nat) : Descriptor → List String
  | standard f ps => headline level (standard f ps) :: listSummaryLines (level + 1) ps
  | tuple f args => headline level (tuple f args) :: listSummaryLines (level + 1) args
  | closure f is os t =>
    headline level (closure f is os t) :: (effectLine (level + 1) t ++
      [indent (level + 1) ++ "inputs " ++ describeList is] ++ listSummaryLines (level + 2) is ++
      [indent (level + 1) ++ "outputs " ++ describeList os] ++ listSummaryLines (level + 2) os)

/-- The lines of several descriptors. -/
def listSummaryLines (level : Nat) : List Descriptor → List String
  | [] => []
  | d :: ds => summaryLines level d ++ listSummaryLines level ds

end

/-- The summary of a descriptor. A text in it that goes over several lines is left as it is. -/
def summary (d : Descriptor) : String := String.join ((summaryLines 0 d).map (· ++ "\n"))

end Descriptor

end SwiftOutline

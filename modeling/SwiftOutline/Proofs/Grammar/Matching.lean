import SwiftOutline.Proofs.Grammar.Brackets

/-!
# `Matching` — brackets that are nested by kind

Where brackets are nested by kind, all that is open at some place is closed by the end of the text. A run
of tokens counts its brackets from where it begins, and its count never exceeds the number of brackets
that are open, whatever stood before the run. So a directive that is put behind the text ends each run
that the end of the text has ended.
-/

namespace SwiftOutline

open List

/-! ## Brackets -/

/-- The closing bracket that goes with an opening one. -/
def closerOf (opener : String) : String :=
  if opener = "(" then ")" else if opener = "[" then "]" else "\x7d"

/-- The brackets in the tokens are nested by kind, where those in `stack` stand open, the innermost first. -/
def bracketsMatch (stack : List String) : List Token → Bool
  | [] => stack.isEmpty
  | t :: ts =>
    if isOpener t then bracketsMatch (t.text :: stack) ts
    else if isCloser t then stack.head?.any (t.text == closerOf ·) && bracketsMatch stack.tail ts
    else bracketsMatch stack ts

/-- What one token does to the brackets that are open. -/
inductive BracketStep (t : Token) : List String → List String → Prop where
  | opens {stack : List String} (h : isOpener t = true) : BracketStep t stack (t.text :: stack)
  | closes {opener : String} {stack : List String} (h : isCloser t = true) (htext :
    t.text = closerOf opener) :
      BracketStep t (opener :: stack) stack
  | other {stack : List String} (hopen : isOpener t = false) (hclose : isCloser t = false) :
    BracketStep t stack stack

theorem bracketsMatch_cons {t : Token} {ts : List Token} {stack : List String}
    (h : bracketsMatch stack (t :: ts) = true) :
    ∃ after, BracketStep t stack after ∧ bracketsMatch after ts = true := by
  rw [bracketsMatch] at h
  split at h
  · next hopen => exact ⟨_, .opens hopen, h⟩
  · next hopen =>
    split at h
    · next hclose =>
      cases stack with
      | nil => cases h
      | cons opener outer =>
        rw [Bool.and_eq_true] at h
        exact ⟨outer, .closes hclose (eq_of_beq h.1), h.2⟩
    · next hclose => exact ⟨stack, .other (Bool.eq_false_iff.mpr hopen) (Bool.eq_false_iff.mpr hclose), h⟩

/-- Some brackets that stand open before the tokens are closed in them, each by one of its own kind. -/
def Closable (ts : List Token) : Prop := ∃ stack, bracketsMatch stack ts = true

theorem Closable.of_append {before ts : List Token} (h : Closable (before ++ ts)) : Closable ts := by
  induction before with
  | nil => exact h
  | cons t before ih =>
    obtain ⟨stack, hstack⟩ := h
    obtain ⟨after, -, hafter⟩ := bracketsMatch_cons hstack
    exact ih ⟨after, hafter⟩

/-! ## Counts of open brackets -/

/-- A count that is not above the number of open brackets stays so. -/
theorem BracketStep.depthAfter_le {t : Token} {stack after : List String} (h : BracketStep t stack after)
    {depth : Nat} (hdepth : depth ≤ stack.length) : depthAfter depth t ≤ after.length := by
  unfold depthAfter
  cases h with
  | opens hopen =>
    rw [if_pos hopen, length_cons]
    omega
  | closes hclose _ =>
    rw [length_cons] at hdepth
    rw [if_neg (Bool.eq_false_iff.mp (not_isOpener_of_isCloser hclose)), if_pos hclose]
    omega
  | other hopen hclose =>
    rw [if_neg (Bool.eq_false_iff.mp hopen), if_neg (Bool.eq_false_iff.mp hclose)]
    exact hdepth

/-- The brackets that requirements count. -/
def isCounted (opener : String) : Bool := opener == "(" || opener == "["

/-- The count of requirements after a token, which leaves braces out. -/
def countAfter (depth : Nat) (t : Token) : Nat :=
  if t.text == "(" || t.text == "[" then depth + 1
  else if t.text == ")" || t.text == "]" then depth - 1
  else depth

theorem BracketStep.countAfter_le {t : Token} {stack after : List String} (h : BracketStep t stack after)
    (hlex : t.Lexical) {depth : Nat} (hdepth : depth ≤ stack.countP isCounted) :
    countAfter depth t ≤ after.countP isCounted := by
  cases h with
  | opens hopen =>
    rw [countP_cons, countAfter]
    by_cases hcounted : isCounted t.text = true
    · have hparen : (t.text == "(" || t.text == "[") = true := hcounted
      rw [if_pos hparen, if_pos hcounted]
      omega
    · have hparen : ¬ (t.text == "(" || t.text == "[") = true := hcounted
      rw [if_neg hparen]
      split <;> omega
  | @closes opener stack hclose htext =>
    rw [countP_cons] at hdepth
    rw [countAfter, htext, closerOf]
    by_cases hparen : opener = "("
    · subst hparen
      have hcounted : isCounted "(" = true := rfl
      rw [if_pos hcounted] at hdepth
      show depth - 1 ≤ _
      omega
    · by_cases hbracket : opener = "["
      · subst hbracket
        have hcounted : isCounted "[" = true := rfl
        rw [if_pos hcounted] at hdepth
        show depth - 1 ≤ _
        omega
      · have hcounted : isCounted opener = false := by simp [isCounted, hparen, hbracket]
        rw [if_neg (Bool.eq_false_iff.mp hcounted)] at hdepth
        rw [if_neg hparen, if_neg hbracket]
        show depth ≤ _
        omega
  | other hopen hclose =>
    -- what has the text of an opening bracket is one
    have hparen : ¬ (t.text == "(" || t.text == "[") = true := by
      intro htext
      have hopens := hlex.isOpener (by
        simp only [Bool.or_eq_true, beq_iff_eq] at htext
        rcases htext with htext | htext <;> rw [htext] <;> rfl)
      rw [hopen] at hopens
      cases hopens
    rw [countAfter, if_neg hparen]
    split <;> omega

/-! ## Runs in front of a directive -/

/-- The directive that ends conditional compilation, on a line of its own. -/
def EndsClause (more : List Token) : Prop :=
  ∃ e, more = [e] ∧ e.kind = .poundDirective ∧ e.text = "#endif" ∧ e.newlineBefore = true

section

variable {more : List Token} (hmore : EndsClause more)
include hmore

theorem EndsClause.ends : seesClauseEnd more = true := by
  obtain ⟨e, rfl, -, htext, -⟩ := hmore
  rw [seesClauseEnd, show sees "#endif" [e] = true from beq_iff_eq.mpr htext, Bool.or_true]

theorem runEnds_directive (comma begun : Bool) (t : Token) (ts : List Token) :
    runEnds comma begun (t :: (ts ++ more)) = runEnds comma begun (t :: ts) := by
  obtain ⟨e, rfl, -, htext, -⟩ := hmore
  cases ts with
  | nil =>
    have hobservers : seesObservers [t, e] = seesObservers [t] := by
      show (_ && ["willSet", "didSet"].contains e.text) = (_ && ["willSet", "didSet"].contains "")
      rw [htext]
      rfl
    rw [nil_append, runEnds, runEnds, hobservers]
    rfl
  | cons u ts => rfl

/-- **A run ends in front of the directive** where it has ended with the text. -/
theorem takeRun_directive {comma begun : Bool} {depth : Nat} {stack : List String} {ts : List Token}
    (hmatch : bracketsMatch stack ts = true) (hdepth : depth ≤ stack.length) :
    takeRun comma begun depth (ts ++ more) =
      ((takeRun comma begun depth ts).1, (takeRun comma begun depth ts).2 ++ more) := by
  induction ts generalizing begun depth stack with
  | nil =>
    have hclause := hmore.ends
    obtain ⟨e, rfl, -⟩ := hmore
    -- nothing is open any more
    have hnil : stack = [] := isEmpty_iff.mp hmatch
    subst hnil
    have hzero : depth = 0 := Nat.le_zero.mp hdepth
    have hends : runEnds comma begun [e] = true := by
      rw [runEnds, hclause, Bool.or_true, Bool.true_or]
    rw [nil_append, takeRun, takeRun, hends, hzero]
    rfl
  | cons t ts ih =>
    obtain ⟨after, hstep, hafter⟩ := bracketsMatch_cons hmatch
    rw [cons_append, takeRun, takeRun, runEnds_directive hmore]
    split
    · rfl
    · rw [ih hafter (hstep.depthAfter_le hdepth)]

/-- **Requirements end in front of the directive** where they have ended with the text. -/
theorem takeRequirements_directive {last : String} {begun : Bool} {depth : Nat} {stack : List String}
    {ts : List Token} (hlex : ∀ t ∈ ts, t.Lexical) (hmatch : bracketsMatch stack ts = true)
    (hdepth : depth ≤ stack.countP isCounted) : takeRequirements last begun depth (ts ++ more) =
      ((takeRequirements last begun depth ts).1, (takeRequirements last begun depth ts).2 ++ more) := by
  induction ts generalizing last begun depth stack with
  | nil =>
    have hclause := hmore.ends
    obtain ⟨e, rfl, -⟩ := hmore
    have hnil : stack = [] := isEmpty_iff.mp hmatch
    subst hnil
    have hzero : depth = 0 := Nat.le_zero.mp hdepth
    have hends : requirementsEnd last begun [e] = true := by
      rw [requirementsEnd, hclause, Bool.or_true, Bool.true_or]
    rw [nil_append, takeRequirements, takeRequirements, hends, hzero]
    rfl
  | cons t ts ih =>
    obtain ⟨after, hstep, hafter⟩ := bracketsMatch_cons hmatch
    have hcount := hstep.countAfter_le (hlex t mem_cons_self) hdepth
    have hsame : requirementsEnd last begun (t :: (ts ++ more)) = requirementsEnd last begun (t :: ts) := rfl
    rw [cons_append, takeRequirements, takeRequirements, hsame]
    split
    · rfl
    · rw [countAfter] at hcount
      simp only [ih (fun u hu => hlex u (mem_cons_of_mem t hu)) hafter hcount]

end

end SwiftOutline

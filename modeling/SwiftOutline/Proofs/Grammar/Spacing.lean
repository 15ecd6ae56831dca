import SwiftOutline.Proofs.Grammar.LawfulRules

/-!
# `Spacing` — where the grammar of types sees white space and comments

A gap between two tokens shows in the reading of a type at few places only: at the parenthesis after `throws`,
at the parenthesis after the name of an attribute, and at a dot in such a name. There the grammar asks whether
the token touches the one in front of it. All other spacing is free.
-/

namespace SwiftOutline

/-! ## Where the grammar asks -/

/-- The tokens, given with the nearest first, end with the name of an attribute: `@` and a word, perhaps with
    dots and more words. -/
def endsAttributeName : List Token → Bool
  | word :: mark :: before =>
    word.isWord && (mark.kind == .atSign || (mark.text == "." && endsAttributeName before))
  | _ => false

/-- How a type is read may depend on whether this token touches the one in front of it. The tokens
    `before` are given with the nearest first. -/
def asksTouch (before : List Token) (t : Token) : Bool :=
  (t.text == "(" && before.head?.any fun u => u.text == "throws" || u.text == "rethrows") ||
    ((t.text == "(" || t.text == ".") && endsAttributeName before)

/-- Wherever it is asked for, the change keeps whether a token touches the one in front of it. -/
def TouchKept (g : Token → Token) : List Token → List Token → Prop
  | _, [] => True
  | before, t :: ts =>
    (asksTouch before t = true → (g t).isAdjacent = t.isAdjacent) ∧ TouchKept g (t :: before) ts

/-- The change keeps all spacing that is asked for in these tokens, whatever stands in front of them. -/
def SpacingKept (g : Token → Token) (ts : List Token) : Prop := ∃ before, TouchKept g before ts

section

variable {g : Token → Token} {before ts : List Token}

theorem TouchKept.append {us : List Token} (h : TouchKept g before (us ++ ts)) :
    TouchKept g (us.reverse ++ before) ts := by
  induction us generalizing before with
  | nil => exact h
  | cons u us ih =>
    rw [List.reverse_cons, List.append_assoc]
    exact ih h.2

/-- A question about a touching token has the same answer, if it is asked at such a token. -/
theorem TouchKept.seesAdjacent_map (h : TouchKept g before ts) (hg : Token.Respaces g) {text : String}
    (hasks : ∀ t : Token, t.text = text → asksTouch before t = true) :
    seesAdjacent text (ts.map g) = seesAdjacent text ts := by
  cases ts with
  | nil => rfl
  | cons t ts =>
    show ((g t).text == text && (g t).isAdjacent) = (t.text == text && t.isAdjacent)
    rw [hg.text t]
    by_cases ht : t.text = text
    · rw [h.1 (hasks t ht)]
    · rw [beq_false_of_ne ht, Bool.false_and, Bool.false_and]

/-- The parenthesis that may follow `throws`. -/
theorem TouchKept.afterThrows {t : Token} (h : TouchKept g before (t :: ts)) (hg : Token.Respaces g)
    (ht : (t.text == "throws" || t.text == "rethrows") = true) :
    seesAdjacent "(" (ts.map g) = seesAdjacent "(" ts := by
  apply TouchKept.seesAdjacent_map h.2 hg
  intro u hu
  simp [asksTouch, hu, ht]

theorem SpacingKept.seesFunctionArrow_map (h : SpacingKept g ts) (hg : Token.Respaces g) :
    seesFunctionArrow (ts.map g) = seesFunctionArrow ts := by
  obtain ⟨before, h⟩ := h
  apply SwiftOutline.seesFunctionArrow_map hg
  rintro t rest ⟨us, rfl⟩ ht
  exact h.append.afterThrows hg ht

end

/-- A change of the gaps that keeps the spacing that is asked for in these tokens. -/
def SpacingChange (g : Token → Token) (ts : List Token) : Prop := Token.Respaces g ∧ SpacingKept g ts

instance changes_spacing : Changes SpacingChange where
  respaces h := h.1
  rest h := by
    obtain ⟨hg, before, h⟩ := h
    exact ⟨hg, _, h.append⟩

/-! ## Attributes and effects -/

namespace Rule

open Lookahead

/-- The change keeps all spacing that is asked for, in front stands the name of an attribute. -/
def NameKept (g : Token → Token) (ts : List Token) : Prop :=
  ∃ before, endsAttributeName before = true ∧ TouchKept g before ts

section

variable {g : Token → Token} {ts rest : List Token} {f : List Tree}

theorem nameKept_seesAdjacent (h : NameKept g ts) (hg : Token.Respaces g) {text : String}
    (htext : text = "(" ∨ text = ".") : seesAdjacent text (ts.map g) = seesAdjacent text ts := by
  obtain ⟨before, hname, h⟩ := h
  apply h.seesAdjacent_map hg
  rintro t rfl
  rcases htext with ht | ht
  · simp [asksTouch, ht, hname]
  · simp [asksTouch, ht, hname]

/-- `@` and a word are the name of an attribute. -/
theorem nameKept_of_word (h : SpacingKept g ts) (hat : seesKind .atSign ts = true) {what : String}
    (hok : (bump ++ expectWord what : Rule) ts = .ok (f, rest)) : NameKept g rest := by
  obtain ⟨before, h⟩ := h
  obtain ⟨f₁, mid, f₂, hmark, hword, rfl⟩ := seq_eq_ok hok
  obtain ⟨rfl, rfl⟩ := bumps_eq_ok hmark
  unfold expectWord require either at hword
  split at hword
  · next hsees =>
    obtain ⟨rfl, rfl⟩ := bumps_eq_ok hword
    match ts with
    | [] => cases hat
    | [t] => cases hsees
    | t :: word :: ts =>
      refine ⟨word :: t :: before, ?_, h.2.2⟩
      have hkind : (t.kind == .atSign) = true := hat
      have hisWord : word.isWord = true := hsees
      simp [endsAttributeName, hkind, hisWord]
  · cases hword

/-- A dot and a word go on with the name. -/
theorem nameKept_of_dot (h : NameKept g ts) (hask : (seesAdjacent "." ts && isWordAt 1 ts) = true)
    (hok : bumps 2 ts = .ok (f, rest)) : NameKept g rest := by
  obtain ⟨before, hname, h⟩ := h
  obtain ⟨rfl, rfl⟩ := bumps_eq_ok hok
  obtain ⟨hdot, hword⟩ := Bool.and_eq_true_iff.mp hask
  match ts with
  | [] => cases hdot
  | [t] => cases hword
  | dot :: word :: ts =>
    refine ⟨word :: dot :: before, ?_, h.2.2⟩
    have htext : dot.text == "." := (Bool.and_eq_true_iff.mp hdot).1
    have hisWord : word.isWord = true := hword
    simp [endsAttributeName, hname, htext, hisWord]

theorem nameKept_of_dots (h : NameKept g ts)
    (hok : many (fun ts => seesAdjacent "." ts && isWordAt 1 ts) (bumps 2) ts = .ok (f, rest)) :
    NameKept g rest := by
  refine many_induction (motive := fun ts _ rest => NameKept g ts → NameKept g rest) ?_ ?_ ?_ hok h
  · intro ts _ h
    exact h
  · intro ts f rest hask hok _ h
    exact nameKept_of_dot h hask hok
  · intro ts f mid f' rest hask hok _ _ ih h
    exact ih (nameKept_of_dot h hask hok)

/-- **An attribute is read the same after a change that keeps the spacing that is asked for.** The name
    is what the questions about the dots and the parenthesis depend on, so it is followed through the
    rule. -/
theorem commutes_declAttribute (hg : Token.Respaces g) (h : SpacingKept g ts)
    (hat : seesKind .atSign ts = true) : Commutes g declAttribute ts := by
  have hdotted ⦃ts : List Token⦄ (h : NameKept g ts) :
      (seesAdjacent "." (ts.map g) && isWordAt 1 (ts.map g)) = (seesAdjacent "." ts && isWordAt 1 ts) := by
    rw [nameKept_seesAdjacent h hg (.inr rfl), isWordAt_map hg]
  refine Commutes.node _ (Commutes.seq (Commutes.seq ?_ ?_) ?_)
  · have hname : Rule.LawfulFor SpacingChange (bump ++ expectWord "attribute name") :=
      lawful_bump.seq (lawful_expectWord _)
    exact hname.commutes ⟨hg, h⟩
  · intro f mid hok
    apply commutes_many (P := NameKept g) (fun _ h => hdotted h) ?_ ?_ (nameKept_of_word h hat hok)
    · intro ts _ _
      exact bumps_map g 2 ts
    · intro ts f mid h hask hok
      exact nameKept_of_dot h hask hok
  · intro f rest hok
    obtain ⟨f₁, mid, f₂, hname, hdots, rfl⟩ := seq_eq_ok hok
    have hkept := nameKept_of_dots (nameKept_of_word h hat hname) hdots
    apply Commutes.either (nameKept_seesAdjacent hkept hg (.inl rfl))
    · intro _
      exact (commutes_group hg rest).node _
    · intro _
      rfl

end

theorem gapBlind_attributeList : LawfulFor SpacingChange attributeList := by
  apply LawfulFor.node
  apply lawfulFor_many (natural_seesKind .atSign) lawful_declAttribute.keeps
  intro g ts h hat
  exact commutes_declAttribute h.1 h.2 hat

theorem gapBlind_effect : LawfulFor SpacingChange effect where
  keeps := lawful_effect.keeps
  commutes {g ts} h := by
    apply Commutes.either (naturalFor_seesThrows h)
    · intro hthrows
      -- the parenthesis stands directly after the word that was seen
      apply Commutes.seq (lawful_bump.commutes h)
      intro f rest hok
      obtain ⟨rfl, rfl⟩ := bumps_eq_ok hok
      obtain ⟨hg, before, h⟩ := h
      cases ts with
      | nil => cases hthrows
      | cons t ts =>
        apply Commutes.either (h.afterThrows hg hthrows)
        · intro _
          exact commutes_group hg ts
        · intro _
          rfl
    · intro _
      exact lawful_bump.commutes h

/-- **Types see no spacing but what is asked for.** -/
instance typeChanges_spacing : TypeChanges SpacingChange where
  arrow _ _ h := h.2.seesFunctionArrow_map h.1
  attributes := gapBlind_attributeList
  effects := (gapBlind_effect.many natural_seesEffect).node _

end Rule

end SwiftOutline

import SwiftOutline.Proofs.Descriptor.InFile

/-!
# `Accessors` — accessor blocks are read back

The accessors of a variable are found in the flat run of tokens of its block, by the bracket depth and by
the tokens on both sides of a word. A block that is written as a list of accessors is found to hold just
these: an accessor begins behind the brace that opens the block, behind the body of another, or behind a
word that can only end one, and the bodies, in which any words may stand, lie deeper than the scan looks.
-/

namespace SwiftOutline

open List

/-! ## Brackets among words -/

def isOpening (word : String) : Bool := ["\x7b", "(", "["].contains word

def isClosing (word : String) : Bool := ["\x7d", ")", "]"].contains word

/-- The brackets in the words are closed among them, and so are `depth` further ones; no others are. -/
def nestsFrom (depth : Nat) : List String → Bool
  | [] => depth == 0
  | w :: ws =>
    if isOpening w then nestsFrom (depth + 1) ws
    else if isClosing w then depth != 0 && nestsFrom (depth - 1) ws
    else nestsFrom depth ws

theorem not_isOpening_of_isClosing {word : String} (h : isClosing word = true) : isOpening word = false := by
  simp only [isClosing, contains_eq_mem, mem_cons, not_mem_nil, or_false,
    decide_eq_true_eq] at h
  rcases h with rfl | rfl | rfl <;> rfl

variable {ws : List String} {t : Token}

/-- What one word does to the brackets that are open. -/
theorem nestsFrom_cons {w : String} {depth : Nat} (h : nestsFrom depth (w :: ws) = true) :
    (isOpening w = true ∧ nestsFrom (depth + 1) ws = true) ∨
      (isClosing w = true ∧ ∃ outer, depth = outer + 1 ∧ nestsFrom outer ws = true) ∨
      (isOpening w = false ∧ isClosing w = false ∧ nestsFrom depth ws = true) := by
  rw [nestsFrom] at h
  split at h
  · next hopen => exact .inl ⟨hopen, h⟩
  · next hopen =>
    split at h
    · next hclose =>
      rw [Bool.and_eq_true, bne_iff_ne] at h
      obtain ⟨outer, rfl⟩ := Nat.exists_eq_succ_of_ne_zero h.1
      exact .inr (.inl ⟨hclose, outer, rfl, h.2⟩)
    · next hclose => exact .inr (.inr ⟨Bool.eq_false_iff.mpr hopen, Bool.eq_false_iff.mpr hclose, h⟩)

theorem nestsFrom_opening {w : String} (h : isOpening w = true) (depth : Nat) (ws : List String) :
    nestsFrom depth (w :: ws) = nestsFrom (depth + 1) ws :=
  if_pos h

theorem nestsFrom_closing {w : String} (h : isClosing w = true) (depth : Nat) (ws : List String) :
    nestsFrom (depth + 1) (w :: ws) = nestsFrom depth ws := by
  have hopen := Bool.eq_false_iff.mp (not_isOpening_of_isClosing h)
  exact (if_neg hopen).trans (if_pos h)

theorem nestsFrom_of_plain {w : String} (hopen : isOpening w = false) (hclose : isClosing w = false)
    (depth : Nat) (ws : List String) : nestsFrom depth (w :: ws) = nestsFrom depth ws := by
  rw [nestsFrom, hopen, hclose]
  rfl

/-- Words that close all that they open make no difference to what follows. -/
theorem nestsFrom_append {inner : Nat} (h : nestsFrom inner ws = true) (depth : Nat) (vs : List String) :
    nestsFrom (depth + inner) (ws ++ vs) = nestsFrom depth vs := by
  induction ws generalizing inner with
  | nil =>
    rw [show inner = 0 from eq_of_beq h]
    rfl
  | cons w ws ih =>
    rw [cons_append]
    rcases nestsFrom_cons h with ⟨hopen, hws⟩ | ⟨hclose, outer, rfl, hws⟩ | ⟨hopen, hclose, hws⟩
    · rw [nestsFrom_opening hopen, Nat.add_assoc, ih hws]
    · rw [← Nat.add_assoc, nestsFrom_closing hclose, ih hws]
    · rw [nestsFrom_of_plain hopen hclose, ih hws]

/-- A group makes no difference to what follows it. -/
theorem nestsFrom_group {o c : String} (ho : isOpening o = true) (hc : isClosing c = true)
    (h : nestsFrom 0 ws = true) (depth : Nat) (vs : List String) :
    nestsFrom depth (o :: (ws ++ [c]) ++ vs) = nestsFrom depth vs := by
  rw [cons_append, nestsFrom_opening ho, append_assoc]
  exact (nestsFrom_append h (depth + 1) (c :: vs)).trans (nestsFrom_closing hc depth vs)

/-! ## Accessors -/

/-- An accessor as it is written: a modifier, its name, a word in parentheses, effects and a body in
braces, of which all but the name may be missing. Behind a word in parentheses a body must follow. -/
structure Accessor where
  modifier : Option String
  name : String
  parameter : Option String
  effects : List String
  body : Option (List String)
  modifier_mem : ∀ w ∈ modifier, w ∈ ["mutating", "nonmutating"]
  name_mem : name ∈ accessorNames
  parameter_plain : ∀ w ∈ parameter, isOpening w = false ∧ isClosing w = false
  effects_mem : ∀ w ∈ effects, w ∈ ["async", "throws"]
  body_nests : ∀ ws ∈ body, nestsFrom 0 ws = true
  body_of_parameter : parameter.isSome = true → body.isSome = true

namespace Accessor

def parameterWords (a : Accessor) : List String :=
  match a.parameter with
  | none => []
  | some w => "(" :: ([w] ++ [")"])

def bodyWords (a : Accessor) : List String :=
  match a.body with
  | none => []
  | some ws => "\x7b" :: (ws ++ ["\x7d"])

/-- The words of an accessor, one for each token. -/
def words (a : Accessor) : List String :=
  a.modifier.toList ++ a.name :: (a.parameterWords ++ (a.effects ++ a.bodyWords))

theorem mem_accessorEffects_of_modifier (a : Accessor) : ∀ w ∈ a.modifier.toList, w ∈ accessorEffects := by
  have hall : ∀ w ∈ ["mutating", "nonmutating"], w ∈ accessorEffects := by decide
  intro w hw
  exact hall w (a.modifier_mem w (Option.mem_toList.mp hw))

theorem mem_accessorEffects_of_effects (a : Accessor) : ∀ w ∈ a.effects, w ∈ accessorEffects := by
  have hall : ∀ w ∈ ["async", "throws"], w ∈ accessorEffects := by decide
  intro w hw
  exact hall w (a.effects_mem w hw)

end Accessor

/-- No effect and no modifier is a bracket or the name of an accessor. -/
theorem plain_of_mem_accessorEffects : ∀ w ∈ accessorEffects,
    isOpening w = false ∧ isClosing w = false ∧ accessorNames.contains w = false := by
  decide

/-- No name of an accessor is a bracket. -/
theorem plain_of_mem_accessorNames : ∀ w ∈ accessorNames, isOpening w = false ∧ isClosing w = false := by
  decide

theorem nestsFrom_effects (h : ∀ w ∈ ws, w ∈ accessorEffects) (depth : Nat) (vs : List String) :
    nestsFrom depth (ws ++ vs) = nestsFrom depth vs := by
  induction ws with
  | nil => rfl
  | cons w ws ih =>
    obtain ⟨hopen, hclose, -⟩ := plain_of_mem_accessorEffects w (h w mem_cons_self)
    rw [cons_append, nestsFrom_of_plain hopen hclose, ih fun v hv => h v (mem_cons_of_mem w hv)]

/-- An accessor closes the brackets that it opens. -/
theorem Accessor.nestsFrom_words (a : Accessor) (depth : Nat) (vs : List String) :
    nestsFrom depth (a.words ++ vs) = nestsFrom depth vs := by
  have hparameter : nestsFrom depth (a.parameterWords ++ (a.effects ++ a.bodyWords ++ vs)) =
      nestsFrom depth (a.effects ++ a.bodyWords ++ vs) := by
    rw [parameterWords]
    split
    · rfl
    · next w hw =>
      obtain ⟨hopen, hclose⟩ := a.parameter_plain w hw
      exact nestsFrom_group rfl rfl (nestsFrom_of_plain hopen hclose 0 []) depth _
  have hbody : nestsFrom depth (a.bodyWords ++ vs) = nestsFrom depth vs := by
    rw [bodyWords]
    split
    · rfl
    · next ws hws => exact nestsFrom_group rfl rfl (a.body_nests ws hws) depth vs
  obtain ⟨hopen, hclose⟩ := plain_of_mem_accessorNames a.name a.name_mem
  rw [words, append_assoc, nestsFrom_effects a.mem_accessorEffects_of_modifier, cons_append,
    nestsFrom_of_plain hopen hclose, append_assoc, hparameter, append_assoc,
    nestsFrom_effects a.mem_accessorEffects_of_effects, hbody]

theorem nestsFrom_accessors (accessors : List Accessor) :
    nestsFrom 0 (accessors.flatMap Accessor.words) = true := by
  induction accessors with
  | nil => rfl
  | cons a accessors ih => rw [flatMap_cons, a.nestsFrom_words, ih]

/-! ## The scan -/

/-- Behind the word an accessor may begin. -/
def opensItem (last : String) : Bool :=
  last == "\x7b" || last == "\x7d" || accessorNames.contains last || accessorEffects.contains last

/-- The word makes what stands in front of it a value. -/
def marksValue (next : String) : Bool := [".", "=", "?", "["].contains next

section

variable {t : Token} {ts : List Token} {last : String} {depth : Nat}

theorem accessorsFrom_cons (last : String) (depth : Nat) (t : Token) (ts : List Token) :
    accessorsFrom last depth (t :: ts) =
      if isOpening t.text then accessorsFrom t.text (depth + 1) ts
      else if isClosing t.text then accessorsFrom t.text (depth - 1) ts
      else if depth == 1 && accessorNames.contains t.text && (t.newlineBefore || opensItem last) &&
          !marksValue (textAt 0 ts) then
        t.text :: accessorsFrom t.text depth ts
      else accessorsFrom t.text depth ts := by
  rw [accessorsFrom, opensItem, textAt, List.head?_eq_getElem?, ← Bool.or_assoc,
    ← Bool.or_assoc, ← Bool.or_assoc]
  rfl

theorem accessorsFrom_opening (h : isOpening t.text = true) (last : String) (depth : Nat) (ts : List Token) :
    accessorsFrom last depth (t :: ts) = accessorsFrom t.text (depth + 1) ts := by
  rw [accessorsFrom_cons, if_pos h]

theorem accessorsFrom_closing (h : isClosing t.text = true) (last : String) (depth : Nat) (ts : List Token) :
    accessorsFrom last depth (t :: ts) = accessorsFrom t.text (depth - 1) ts := by
  rw [accessorsFrom_cons, if_neg (Bool.eq_false_iff.mp (not_isOpening_of_isClosing h)), if_pos h]

/-- A word is passed over inside brackets of the block, and if it names no accessor. -/
theorem accessorsFrom_passed (hopen : isOpening t.text = false) (hclose : isClosing t.text = false)
    (h : depth ≠ 1 ∨ accessorNames.contains t.text = false) (last : String) (ts : List Token) :
    accessorsFrom last depth (t :: ts) = accessorsFrom t.text depth ts := by
  rw [accessorsFrom_cons, if_neg (Bool.eq_false_iff.mp hopen), if_neg (Bool.eq_false_iff.mp hclose)]
  refine if_neg ?_
  simp only [Bool.and_eq_true, beq_iff_eq]
  rintro ⟨⟨⟨hone, hname⟩, -⟩, -⟩
  rcases h with h | h
  · exact h hone
  · rw [h] at hname
    cases hname

theorem accessorsFrom_name (hname : t.text ∈ accessorNames) (hlast : opensItem last = true)
    (hnext : marksValue (textAt 0 ts) = false) :
    accessorsFrom last 1 (t :: ts) = t.text :: accessorsFrom t.text 1 ts := by
  obtain ⟨hopen, hclose⟩ := plain_of_mem_accessorNames t.text hname
  rw [accessorsFrom_cons, if_neg (Bool.eq_false_iff.mp hopen),
    if_neg (Bool.eq_false_iff.mp hclose), hlast, hnext, contains_iff_mem.mpr hname, Bool.or_true]
  rfl

/-- The scan passes over what is left of a group, deeper than the accessors of the block. -/
theorem accessorsFrom_inside {inner : Nat} (h : nestsFrom inner (ts.map Token.text) = true) {close : Token}
    (hclose : isClosing close.text = true) (last : String) (rest : List Token) :
    accessorsFrom last (2 + inner) (ts ++ close :: rest) = accessorsFrom close.text 1 rest := by
  induction ts generalizing inner last with
  | nil =>
    rw [show inner = 0 from eq_of_beq h, nil_append, accessorsFrom_closing hclose]
  | cons t ts ih =>
    rw [cons_append]
    rcases nestsFrom_cons h with ⟨hopen, hts⟩ | ⟨hcloses, outer, rfl, hts⟩ | ⟨hopen, hcloses, hts⟩
    · rw [accessorsFrom_opening hopen, Nat.add_assoc, ih hts]
    · rw [accessorsFrom_closing hcloses, ← Nat.add_assoc, Nat.add_sub_cancel, ih hts]
    · rw [accessorsFrom_passed hopen hcloses (.inl (by omega)), ih hts]

/-- **The scan passes over a group.** -/
theorem accessorsFrom_group {o c : String} {ws : List String} (ho : isOpening o = true)
    (hc : isClosing c = true) (hnests : nestsFrom 0 ws = true) (hts : ts.map Token.text = o :: (ws ++ [c]))
    (last : String) (rest : List Token) : accessorsFrom last 1 (ts ++ rest) = accessorsFrom c 1 rest := by
  obtain ⟨opening, inside, rfl, rfl, hinside⟩ := map_eq_cons_iff.mp hts
  obtain ⟨ts, closing, rfl, rfl, hclosing⟩ := map_eq_append_iff.mp hinside
  obtain ⟨close, closing, rfl, rfl, hnil⟩ := map_eq_cons_iff.mp hclosing
  rw [map_eq_nil_iff.mp hnil, cons_append, accessorsFrom_opening ho, append_assoc]
  exact accessorsFrom_inside hnests hc opening.text rest

/-- **The scan passes over effects and modifiers**, behind which an accessor may begin. -/
theorem accessorsFrom_effects (hts : ∀ t ∈ ts, t.text ∈ accessorEffects) (last : String) (rest : List Token) :
    ∃ after, accessorsFrom last 1 (ts ++ rest) = accessorsFrom after 1 rest ∧
      (opensItem last = true → opensItem after = true) := by
  induction ts generalizing last with
  | nil => exact ⟨last, rfl, id⟩
  | cons t ts ih =>
    have ht := hts t mem_cons_self
    obtain ⟨hopen, hclose, hname⟩ := plain_of_mem_accessorEffects t.text ht
    obtain ⟨after, hscan, hafter⟩ := ih (fun u hu => hts u (mem_cons_of_mem t hu)) t.text
    refine ⟨after, ?_, fun _ => hafter ?_⟩
    · rw [cons_append, accessorsFrom_passed hopen hclose (.inr hname), hscan]
    · rw [opensItem, contains_iff_mem.mpr ht, Bool.or_true]

/-- What follows a word is what the next tokens begin with, or what follows them if there are none. -/
theorem marksValue_append {ws : List String} (hts : ts.map Token.text = ws)
    (hws : ∀ w ∈ ws.head?, marksValue w = false) {rest : List Token}
    (hrest : marksValue (textAt 0 rest) = false) : marksValue (textAt 0 (ts ++ rest)) = false := by
  subst hts
  cases ts with
  | nil => exact hrest
  | cons t ts => exact hws t.text rfl

end

namespace Accessor

variable (a : Accessor)

theorem marksValue_parameterWords : ∀ w ∈ a.parameterWords.head?, marksValue w = false := by
  rw [parameterWords]
  split
  · exact fun w hw => absurd hw (Option.not_mem_none w)
  · exact fun w hw => Option.mem_some.mp hw ▸ rfl

theorem marksValue_bodyWords : ∀ w ∈ a.bodyWords.head?, marksValue w = false := by
  rw [bodyWords]
  split
  · exact fun w hw => absurd hw (Option.not_mem_none w)
  · exact fun w hw => Option.mem_some.mp hw ▸ rfl

theorem marksValue_effects : ∀ w ∈ a.effects.head?, marksValue w = false := by
  have hall : ∀ w ∈ accessorEffects, marksValue w = false := by decide
  exact fun w hw => hall w (a.mem_accessorEffects_of_effects w (mem_of_mem_head? hw))

/-- An accessor begins with its modifier or its name. -/
theorem marksValue_words (vs : List String) : ∀ w ∈ (a.words ++ vs).head?, marksValue w = false := by
  have heffects : ∀ w ∈ accessorEffects, marksValue w = false := by decide
  have hnames : ∀ w ∈ accessorNames, marksValue w = false := by decide
  intro w hw
  rw [words] at hw
  cases hmodifier : a.modifier with
  | none =>
    rw [hmodifier] at hw
    exact Option.mem_some.mp hw ▸ hnames a.name a.name_mem
  | some m =>
    rw [hmodifier] at hw
    have hm : m ∈ accessorEffects := a.mem_accessorEffects_of_modifier m (Option.mem_toList.mpr hmodifier)
    exact Option.mem_some.mp hw ▸ heffects m hm

/-- **The scan over one accessor** finds its name, and behind it another may begin. -/
theorem accessorsFrom_words {ts rest : List Token} {last : String} (hts : ts.map Token.text = a.words)
    (hlast : opensItem last = true) (hrest : marksValue (textAt 0 rest) = false) :
    ∃ after, opensItem after = true ∧ accessorsFrom last 1 (ts ++ rest) =
      a.name :: accessorsFrom after 1 rest := by
  obtain ⟨modifier, named, rfl, hmodifier, hnamed⟩ := map_eq_append_iff.mp hts
  obtain ⟨name, more, rfl, hname, hmore⟩ := map_eq_cons_iff.mp hnamed
  obtain ⟨parameter, more, rfl, hparameter, hmore⟩ := map_eq_append_iff.mp hmore
  obtain ⟨effects, body, rfl, heffects, hbody⟩ := map_eq_append_iff.mp hmore
  -- the name is found, since an accessor may begin there and nothing behind it makes it a value
  have hfound (last : String) (hlast : opensItem last = true) :
      accessorsFrom last 1 (name :: (parameter ++ (effects ++ (body ++ rest)))) =
        a.name :: accessorsFrom a.name 1 (parameter ++ (effects ++ (body ++ rest))) := by
    rw [← hname]
    refine accessorsFrom_name (hname ▸ a.name_mem) hlast
      (marksValue_append hparameter a.marksValue_parameterWords ?_)
    exact marksValue_append heffects a.marksValue_effects
      (marksValue_append hbody a.marksValue_bodyWords hrest)
  have hmodified (t : Token) (ht : t ∈ modifier) : t.text ∈ accessorEffects :=
    a.mem_accessorEffects_of_modifier t.text (hmodifier ▸ mem_map_of_mem ht)
  obtain ⟨before, hscan, hbefore⟩ :=
    accessorsFrom_effects hmodified last (name :: (parameter ++ (effects ++ (body ++ rest))))
  have hstart : accessorsFrom last 1 ((modifier ++ name :: (parameter ++ (effects ++ body))) ++ rest) =
      a.name :: accessorsFrom a.name 1 (parameter ++ (effects ++ (body ++ rest))) := by
    rw [← hfound before (hbefore hlast), ← hscan]
    simp only [append_assoc, cons_append]
  have hword (t : Token) (ht : t ∈ effects) : t.text ∈ accessorEffects :=
    a.mem_accessorEffects_of_effects t.text (heffects ▸ mem_map_of_mem ht)
  rw [hstart]
  cases hgroup : a.body with
  | none =>
    -- without a body there is no parameter either, so only effects stand behind the name
    have hno : a.parameter = none := by
      cases hp : a.parameter with
      | none => rfl
      | some w =>
        have hsome := a.body_of_parameter (by rw [hp]; rfl)
        rw [hgroup] at hsome
        cases hsome
    rw [parameterWords, hno, map_eq_nil_iff] at hparameter
    rw [bodyWords, hgroup, map_eq_nil_iff] at hbody
    obtain ⟨after, hend, hafter⟩ := accessorsFrom_effects hword a.name rest
    refine ⟨after, hafter ?_, ?_⟩
    · rw [opensItem, contains_iff_mem.mpr a.name_mem, Bool.or_true, Bool.true_or]
    · rw [hparameter, hbody, nil_append, nil_append, hend]
  | some ws =>
    -- the scan comes out of the body behind its brace, whatever stands in front of it
    rw [bodyWords, hgroup] at hbody
    have hpass : ∃ last, accessorsFrom a.name 1 (parameter ++ (effects ++ (body ++ rest))) =
        accessorsFrom last 1 (effects ++ (body ++ rest)) := by
      rw [parameterWords] at hparameter
      split at hparameter
      · exact ⟨a.name, by rw [map_eq_nil_iff.mp hparameter, nil_append]⟩
      · next w hw =>
        obtain ⟨hopen, hclose⟩ := a.parameter_plain w hw
        exact ⟨")", accessorsFrom_group rfl rfl (nestsFrom_of_plain hopen hclose 0 []) hparameter a.name _⟩
    obtain ⟨last, hpass⟩ := hpass
    obtain ⟨after, hend, -⟩ := accessorsFrom_effects hword last (body ++ rest)
    refine ⟨"\x7d", rfl, ?_⟩
    rw [hpass, hend, accessorsFrom_group rfl rfl (a.body_nests ws hgroup) hbody]

end Accessor

/-- **The scan over the inside of a block** finds the names of all its accessors. -/
theorem accessorsFrom_block {accessors : List Accessor} {ts : List Token} {last : String} {close : Token}
    (hts : ts.map Token.text = accessors.flatMap Accessor.words) (hlast : opensItem last = true)
    (hclose : close.text = "\x7d") : accessorsFrom last 1 (ts ++ [close]) = accessors.map Accessor.name := by
  have hend : marksValue (textAt 0 [close]) = false := by
    rw [show textAt 0 [close] = close.text from rfl, hclose]
    rfl
  induction accessors generalizing ts last with
  | nil =>
    rw [map_eq_nil_iff.mp hts, nil_append, accessorsFrom_closing (by rw [hclose]; rfl)]
    rfl
  | cons a accessors ih =>
    obtain ⟨first, ts, rfl, hfirst, hts⟩ := map_eq_append_iff.mp hts
    have hnext : marksValue (textAt 0 (ts ++ [close])) = false := by
      refine marksValue_append hts ?_ hend
      cases accessors with
      | nil => exact fun w hw => absurd hw (Option.not_mem_none w)
      | cons b accessors => exact b.marksValue_words _
    obtain ⟨after, hafter, hscan⟩ := a.accessorsFrom_words hfirst hlast hnext
    rw [append_assoc, hscan, ih hts hafter, List.map_cons]

/-! ## Variables with a block -/

theorem isOpener_eq_isOpening (h : t.Lexical) : isOpener t = isOpening t.text := by
  have hsame : ["(", "[", "\x7b"].contains t.text = isOpening t.text := by
    simp only [isOpening, contains_cons, contains_nil, Bool.or_false]
    rw [Bool.or_comm, Bool.or_assoc, Bool.or_comm, Bool.or_assoc, Bool.or_comm (t.text == "(")]
  cases hopen : isOpening t.text with
  | true => exact h.isOpener (hsame.trans hopen)
  | false => rw [isOpener, hsame, hopen, Bool.and_false]

theorem isCloser_eq_isClosing (h : t.Lexical) : isCloser t = isClosing t.text := by
  have hsame : [")", "]", "\x7d"].contains t.text = isClosing t.text := by
    simp only [isClosing, contains_cons, contains_nil, Bool.or_false]
    rw [Bool.or_comm, Bool.or_assoc, Bool.or_comm, Bool.or_assoc, Bool.or_comm (t.text == ")")]
  cases hclose : isClosing t.text with
  | true => exact h.isCloser (hsame.trans hclose)
  | false => rw [isCloser, hsame, hclose, Bool.and_false]

/-- A group ends at the bracket behind words that close all that they open. -/
theorem takeGroup_nests {ts : List Token} {inner : Nat} {close : Token} (hlex : ∀ t ∈ ts, t.Lexical)
    (h : nestsFrom inner (ts.map Token.text) = true) (hclose : isCloser close = true) (rest : List Token) :
    takeGroup (inner + 1) (ts ++ close :: rest) = some (ts ++ [close], rest) := by
  induction ts generalizing inner with
  | nil =>
    rw [show inner = 0 from eq_of_beq h, nil_append, takeGroup, depthAfter, hclose,
      not_isOpener_of_isCloser hclose]
    rfl
  | cons t ts ih =>
    have ht := hlex t mem_cons_self
    have hts := fun u hu => hlex u (mem_cons_of_mem t hu)
    rw [cons_append, takeGroup, depthAfter, isOpener_eq_isOpening ht, isCloser_eq_isClosing ht]
    rcases nestsFrom_cons h with ⟨hopen, hrest⟩ | ⟨hcloses, outer, rfl, hrest⟩ | ⟨hopen, hcloses, hrest⟩
    · rw [hopen, if_pos rfl, if_neg (by simp), ih hts hrest]
      rfl
    · rw [hcloses, not_isOpening_of_isClosing hcloses, if_neg Bool.false_ne_true, if_pos rfl,
        if_neg (by simp), Nat.add_sub_cancel, ih hts hrest]
      rfl
    · rw [hopen, hcloses, if_neg Bool.false_ne_true, if_neg Bool.false_ne_true,
        if_neg (by simp), ih hts hrest]
      rfl

/-- The tree of a variable with a type that is a name and with a block. -/
def blockTree (keyword name colon type : Token) (block : List Token) : Tree :=
  .node .variableDecl
    [.token keyword,
     .node .patternBinding
      [.node .pattern [.token name], .node .typeClause [.token colon, .node .identifierType [.token type]],
       .node .accessorBlock (block.map .token)]]

theorem tokens_blockTree (keyword name colon type : Token) (block : List Token) :
    (blockTree keyword name colon type block).tokens = keyword :: name :: colon :: type :: block := by
  simp [blockTree]

/-- The token with this text, of the class that the text has. -/
def Token.spelled (t : Token) (kind : TokenKind) (text : String) : Token :=
  ⟨kind, t.lead, text, t.start, t.newlineBefore⟩

theorem Token.Lexical.eq_spelled (h : t.Lexical) {text : String} {kind : TokenKind} (htext : t.text = text)
    (hkind : lexicalKind? text = some kind) : t = t.spelled kind text := by
  rw [spelled, ← h.kind_of_text htext hkind, ← htext]

namespace Rule

variable {n : Nat} {keyword name colon : Token}

/-- A name in front of a brace is a type. -/
theorem type_before_brace (type brace : Token) (ts : List Token) :
    Rule.type (n + 1) (type.spelled .identifier "Int" :: brace.spelled .punct "\x7b" :: ts) =
      .ok ([.node .identifierType [.token (type.spelled .identifier "Int")]],
        brace.spelled .punct "\x7b" :: ts) := by
  have hprimary : primaryType (Rule.type n)
      (type.spelled .identifier "Int" :: brace.spelled .punct "\x7b" :: ts) =
      .ok (_, _) := rfl
  exact wrapping_ok (wrapping_ok hprimary (wrappings_of_none rfl _)) (wrappings_of_none rfl _)

/-- **A variable with a block is read**, on however many lines. -/
theorem item_blockTree {type brace close : Token} {ts : List Token} (hlex : ∀ t ∈ ts, t.Lexical)
    (hnests : nestsFrom 0 (ts.map Token.text) = true) (hclose : isCloser close = true) :
    item (n + 2) (keyword.spelled .keyword "var" :: name.spelled .identifier "x" ::
        colon.spelled .punct ":" :: type.spelled .identifier "Int" :: brace.spelled .punct "\x7b" ::
        (ts ++ [close])) =
      .ok ([blockTree (keyword.spelled .keyword "var") (name.spelled .identifier "x")
        (colon.spelled .punct ":") (type.spelled .identifier "Int")
        (brace.spelled .punct "\x7b" :: (ts ++ [close]))], []) := by
  have hpattern (us : List Token) : node .pattern (either (sees "(") group (expectWord "pattern"))
      (name.spelled .identifier "x" :: us) = .ok (_, us) :=
    node_ok ((either_of_no rfl).trans (expectWord_cons "pattern" rfl _))
  have hclause : optional (sees ":") (node .typeClause (bump ++ Rule.type (n + 1)))
      (colon.spelled .punct ":" :: _) =
      .ok (_, _) := (either_of_yes rfl).trans
        (node_ok (seq_ok (bump_cons _ _) (type_before_brace type brace (ts ++ [close]))))
  have hgroup : group (brace.spelled .punct "\x7b" :: (ts ++ [close])) =
      .ok ((brace.spelled .punct "\x7b" :: (ts ++ [close])).map .token, []) :=
    group_ok (congrArg (Option.map _) (takeGroup_nests hlex hnests hclose []))
  have hblock : optional (sees "\x7b") accessorBlock (brace.spelled .punct "\x7b" :: (ts ++ [close])) =
      .ok (_, []) :=
    (either_of_yes rfl).trans (node_ok hgroup)
  have hbinding : patternBinding (Rule.type (n + 1)) _ = .ok (_, []) :=
    node_ok (seq_ok (seq_ok (seq_ok (hpattern _) hclause) (optional_of_no rfl)) hblock)
  have hrest : variableRest (Rule.type (n + 1)) _ = .ok (_, []) := seq_ok hbinding (many_of_not rfl)
  exact item_of_keyword (keyword.spelled .keyword "var") .variableDecl rfl
    (show "var" ∈ _ by decide) rfl hrest

end Rule

/-- The accessors are all observers, as it is decided for a block with accessors. -/
theorem observesOnly_iff {accessors : List String} (h : accessors ≠ []) :
    Place.observesOnly accessors = true ↔ ∀ name ∈ accessors, name = "willSet" ∨ name = "didSet" := by
  rw [Place.observesOnly, isEmpty_eq_false_iff.mpr h]
  simp

/-- The record of a variable with a block. -/
theorem outlineOf_block {source : String} {keyword name colon type : Token} {block : List Token}
    (hparse : parseSource source = .ok (.node .sourceFile [blockTree keyword name colon type block])) : ∃ o r,
    outlineOf source = .ok o ∧ o.bindings = [r] ∧ r.header.name = name.text ∧
      r.accessors = accessorsFrom "" 0 block ∧
      r.isComputed = !Place.observesOnly (accessorsFrom "" 0 block) := by
  have htokens : (Tree.node .accessorBlock (block.map .token)).tokens = block := by simp
  have hrecord : ∃ o, outlineOf source = .ok o ∧
      o.bindings.map (fun r => (r.header.name, r.accessors, r.isComputed)) =
      [((Tree.node .pattern [.token name]).text,
        accessorsFrom "" 0 (Tree.node .accessorBlock (block.map .token)).tokens,
        !Place.observesOnly (accessorsFrom "" 0 (Tree.node .accessorBlock (block.map .token)).tokens))] := by
    refine ⟨_, outlineOf_file hparse, ?_⟩
    rw [blockTree, Place.visited_prune rfl]
    rfl
  obtain ⟨o, ho, hbindings⟩ := hrecord
  obtain ⟨r, hr, hfields⟩ := map_eq_singleton_iff.mp hbindings
  rw [htokens, Prod.mk.injEq, Prod.mk.injEq] at hfields
  have hname : (Tree.node .pattern [.token name]).text = name.text := by simp [Tree.text, Token.joined]
  exact ⟨o, r, ho, hr, hfields.1.trans hname, hfields.2⟩

/-- **The accessors of a block are found.** Take any text that is `var x: Int` and a block, written on
lines as one likes, and let the block be a list of accessors: each may have a modifier in front of its
name, and behind it a word in parentheses, effects, and a body in which any words stand that close the
brackets they open; only a word in parentheses needs a body behind it. The text is accepted, and its
outline has one variable. The accessors of the variable are the ones that the block is written with, in
order, and it is computed unless all of them are observers. -/
theorem accessor_block_read_back {source : String} {tokens : List Token} {accessors : List Accessor}
    (htokens : tokenize source = .ok tokens)
    (hwords : tokens.map Token.text = "var" :: "x" :: ":" :: "Int" :: "\x7b" ::
      (accessors.flatMap Accessor.words ++ ["\x7d"]))
    (hne : accessors ≠ []) : ∃ o r,
    outlineOf source = .ok o ∧ o.bindings = [r] ∧ r.header.name = "x" ∧
      r.accessors = accessors.map Accessor.name ∧
      (r.isComputed = false ↔ ∀ a ∈ accessors, a.name = "willSet" ∨ a.name = "didSet") := by
  have hlex : ∀ t ∈ tokens, t.Lexical := lexical_of_tokensFrom htokens
  obtain ⟨keyword, tokens, rfl, hkeyword, hwords⟩ := map_eq_cons_iff.mp hwords
  obtain ⟨name, tokens, rfl, hname, hwords⟩ := map_eq_cons_iff.mp hwords
  obtain ⟨colon, tokens, rfl, hcolon, hwords⟩ := map_eq_cons_iff.mp hwords
  obtain ⟨type, tokens, rfl, htype, hwords⟩ := map_eq_cons_iff.mp hwords
  obtain ⟨brace, tokens, rfl, hbrace, hwords⟩ := map_eq_cons_iff.mp hwords
  obtain ⟨inside, closing, rfl, hinside, hclosing⟩ := map_eq_append_iff.mp hwords
  obtain ⟨close, rfl, hclose⟩ := map_eq_singleton_iff.mp hclosing
  simp only [forall_mem_cons, forall_mem_append] at hlex
  obtain ⟨hlex₁, hlex₂, hlex₃, hlex₄, hlex₅, hlex₆, hlex₇, -⟩ := hlex
  have hcloser : isCloser close = true := by
    rw [isCloser_eq_isClosing hlex₇, hclose]
    rfl
  have hnests : nestsFrom 0 (inside.map Token.text) = true := by
    rw [hinside]
    exact nestsFrom_accessors accessors
  have hparse : parseSource source =
      .ok (.node .sourceFile [blockTree keyword name colon type (brace :: (inside ++ [close]))]) := by
    refine parseSource_of_item (by rw [htokens, tokens_blockTree]) ?_ (by simp [blockTree])
    rw [tokens_blockTree, hlex₁.eq_spelled hkeyword rfl, hlex₂.eq_spelled hname rfl,
      hlex₃.eq_spelled hcolon rfl, hlex₄.eq_spelled htype rfl, hlex₅.eq_spelled hbrace rfl]
    exact Rule.item_blockTree hlex₆ hnests hcloser
  have hfound : accessorsFrom "" 0 (brace :: (inside ++ [close])) = accessors.map Accessor.name := by
    rw [accessorsFrom_opening (by rw [hbrace]; rfl), hbrace]
    exact accessorsFrom_block hinside rfl hclose
  obtain ⟨o, r, ho, hbindings, hheader, haccessors, hcomputed⟩ := outlineOf_block hparse
  refine ⟨o, r, ho, hbindings, hheader.trans hname, haccessors.trans hfound, ?_⟩
  rw [hcomputed, hfound, Bool.not_eq_false', observesOnly_iff (by simpa using hne)]
  simp only [forall_mem_map]

/-- Accessors with and without bodies on a few lines, and the words of accessors in their bodies. -/
theorem accessor_block_read_back_modify : ∃ source o r,
    source = "var x: Int \x7b\n get async throws mutating set(get) \x7b get = [\x7b set \x7d] \x7d" ++
      " _modify\n\x7b init \x7d\n\x7d" ∧
    outlineOf source = .ok o ∧ o.bindings = [r] ∧ r.header.name = "x" ∧
    r.accessors = ["get", "set", "_modify"] ∧ r.isComputed = true := by
  have hblock {source : String} {tokens : List Token} := @accessor_block_read_back source tokens
    [⟨none, "get", none, ["async", "throws"], none, by simp, by decide, by simp, by simp, by simp, by simp⟩,
      ⟨some "mutating", "set", some "get", [], some ["get", "=", "[", "\x7b", "set", "\x7d", "]"],
        by simp, by decide, by simp [isOpening, isClosing], by simp, by rintro ws ⟨⟩; decide, by simp⟩,
      ⟨none, "_modify", none, [], some ["init"], by simp, by decide, by simp, by simp,
        by rintro ws ⟨⟩; decide, by simp⟩]
  refine (exists_ok_of_test (by decide +kernel)).elim fun tokens h =>
    (hblock h.1 h.2 (cons_ne_nil _ _)).elim fun o hr => hr.elim fun r hr =>
      ⟨_, o, r, rfl, hr.1, hr.2.1, hr.2.2.1, hr.2.2.2.1, Bool.of_not_eq_false fun hfalse => ?_⟩
  have hobserves := hr.2.2.2.2.mp hfalse _ mem_cons_self
  exact absurd hobserves (show ¬("get" = "willSet" ∨ "get" = "didSet") by decide)

end SwiftOutline

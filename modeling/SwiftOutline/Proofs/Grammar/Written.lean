import SwiftOutline.Proofs.Grammar.Parameter
import SwiftOutline.Proofs.Grammar.TypeRoundTrip
import SwiftOutline.Proofs.Token.Seam

/-!
# `Written` — parameters written out as a function type

Parameters are written out one after the other, each with its names, its type as it stood in the source,
an ellipsis and its default value. With parentheses around them and an arrow behind they are the text of
a function type. The text is split into the tokens that the parameters were read from and the signs
between them: at each place where two texts meet stands a character that ends the token before it.
-/

namespace SwiftOutline

open Token List

/-! ## Tokens -/

namespace Token

/-- A run of tokens behind another gap, without places. -/
def written (lead : String) : List Token → List Token
  | [] => []
  | t :: ts => (t.led lead :: ts).map unplaced

/-- A sign behind a gap that breaks no line. -/
def sign (kind : TokenKind) (lead text : String) : Token := ⟨kind, lead, text, 0, false⟩

def comma : Token := sign .punct "" ","

def colon : Token := sign .punct "" ":"

def dots : Token := sign .ellipsis "" "..."

def equals : Token := sign .punct " " "="

def openParen : Token := sign .punct "" "("

def closeParen : Token := sign .punct "" ")"

def arrow : Token := sign .arrow " " "->"

def void : Token := sign .identifier " " "Void"

variable {ts : List Token} {lead : String}

theorem layout_written (lead : String) (hne : ts ≠ []) :
    layout (written lead ts) = lead.toList ++ (joined ts).toList := by
  obtain ⟨t, ts, rfl⟩ := exists_cons_of_ne_nil hne
  rw [written, layout_map_unplaced, layout_cons, toList_joined]
  rfl

theorem joined_written (lead : String) (ts : List Token) : joined (written lead ts) = joined ts := by
  cases ts with
  | nil => rfl
  | cons t ts =>
    rw [written, joined_unplaced]
    rfl

/-- What writing does to the tokens of a run that begins with `first`. -/
def writing (lead : String) (first u : Token) : Token := (if u = first then u.led lead else u).unplaced

theorem writing_of_ne {first u : Token} (h : u ≠ first) : writing lead first u = u.unplaced := by
  rw [writing, if_neg h]

theorem map_writing {t : Token} (h : t ∉ ts) : (t :: ts).map (writing lead t) = written lead (t :: ts) := by
  rw [written, List.map_cons, List.map_cons, writing, if_pos rfl]
  congr 1
  refine map_congr_left fun u hu => writing_of_ne ?_
  rintro rfl
  exact h hu

theorem Lexical.of_eq {t u : Token} (h : t.Lexical) (hkind : u.kind = t.kind) (htext : u.text = t.text) :
    u.Lexical := by
  obtain ⟨c, cs, hcs, hscan⟩ := h
  exact ⟨c, cs, by rw [htext, hcs], by rw [hkind, hscan]⟩

theorem lexical_written (h : ∀ t ∈ ts, t.Lexical) : ∀ u ∈ written lead ts, u.Lexical := by
  cases ts with
  | nil => nofun
  | cons t ts =>
    intro u hu
    rcases mem_cons.mp hu with rfl | hu
    · exact (h t mem_cons_self).of_eq rfl rfl
    · obtain ⟨v, hv, rfl⟩ := mem_map.mp hu
      exact (h v (mem_cons_of_mem t hv)).of_eq rfl rfl

end Token

namespace Parameter

variable {all : List Token}

/-- What the parameter says beside its type. -/
def labels (p : Parameter all) : Labels := labelsOf p.names p.variadic p.value

/-- The parameter in one line: names, type, ellipsis and default value. -/
def description (p : Parameter all) : String :=
  let names :=
    if p.labels.name.isEmpty then ""
    else if p.labels.secondName.isEmpty then p.labels.name ++ ": "
    else p.labels.name ++ " " ++ p.labels.secondName ++ ": "
  names ++ joined p.type ++ (if p.variadic then "..." else "") ++
    (p.labels.defaultArgument.map (" = " ++ ·)).getD ""

/-- The names and the colon behind them. -/
def labelTokens (lead : String) (p : Parameter all) : List Token :=
  match p.names with
  | [] => []
  | [w] => written lead [w] ++ [colon]
  | w :: v :: _ => written lead [w] ++ (written " " [v] ++ [colon])

/-- The type, which a space sets off from the colon. -/
def typeTokens (lead : String) (p : Parameter all) : List Token :=
  written (if p.names.isEmpty then lead else " ") p.type

/-- The default value behind its equals sign. -/
def valueTokens (p : Parameter all) : List Token :=
  match p.value with
  | none => []
  | some v => equals :: written " " v

/-- What follows the type. -/
def restTokens (p : Parameter all) : List Token := (if p.variadic then [dots] else []) ++ p.valueTokens

/-- The tokens that the parameter is written with, behind a gap. -/
def tokens (lead : String) (p : Parameter all) : List Token :=
  p.labelTokens lead ++ (p.typeTokens lead ++ p.restTokens)

/-- The tokens of a list of parameters with commas between them. -/
def listTokens (lead : String) : List (Parameter all) → List Token
  | [] => []
  | [p] => p.tokens lead
  | p :: q :: ps => p.tokens lead ++ comma :: listTokens " " (q :: ps)

/-- The tokens of a function type with these parameters that returns nothing. -/
def functionTokens (ps : List (Parameter all)) : List Token :=
  openParen :: (listTokens "" ps ++ [closeParen, arrow, void])

/-- The text of a function type with these parameters that returns nothing. -/
def functionText (ps : List (Parameter all)) : String :=
  "(" ++ String.intercalate ", " (ps.map description) ++ ")" ++ " -> Void"

theorem type_ne_nil (p : Parameter all) : p.type ≠ [] := by
  intro hnil
  obtain ⟨u, hu⟩ := p.type_read
  rw [hnil] at hu
  cases hu

/-! ## The text -/

theorem layout_labelTokens (lead : String) (p : Parameter all) (hlex : ∀ t ∈ all, t.Lexical) :
    layout (p.labelTokens lead) ++ (if p.names.isEmpty then lead else " ").toList =
      lead.toList ++ (if p.labels.name.isEmpty then ""
        else if p.labels.secondName.isEmpty then p.labels.name ++ ": "
        else p.labels.name ++ " " ++ p.labels.secondName ++ ": ").toList := by
  have hne : ∀ w ∈ p.names, w.text.isEmpty = false := fun w hw => by
    have htext := (hlex w (p.isWord w hw).1).text_ne_empty
    simpa using htext
  have hlength := p.length_names
  unfold labelTokens labels labelsOf
  match hnames : p.names, hne, hlength with
  | [], _, _ => simp [layout]
  | [w], hne, _ =>
    have hw := hne w (by simp)
    simp [layout, written, led, unplaced, colon, sign, hw]
  | [w, v], hne, _ =>
    have hw := hne w (by simp)
    have hv := hne v (by simp)
    simp [layout, written, led, unplaced, colon, sign, hw, hv]

theorem layout_restTokens (p : Parameter all) :
    layout p.restTokens = (if p.variadic then "..." else "").toList ++
      ((p.labels.defaultArgument.map (" = " ++ ·)).getD "").toList := by
  have hdots : layout (if p.variadic then [dots] else []) = (if p.variadic then "..." else "").toList := by
    cases p.variadic <;> rfl
  rw [restTokens, layout_append, hdots, valueTokens, labels, labelsOf]
  congr 1
  cases hvalue : p.value with
  | none => rfl
  | some v =>
    rw [layout_cons, layout_written " " (p.value_read v hvalue).1]
    simp [equals, sign]

theorem layout_tokens (lead : String) (p : Parameter all) (hlex : ∀ t ∈ all, t.Lexical) :
    layout (p.tokens lead) = lead.toList ++ p.description.toList := by
  have hlabels := p.layout_labelTokens lead hlex
  rw [tokens, layout_append, layout_append, typeTokens, layout_written _ p.type_ne_nil,
    layout_restTokens, append_assoc, ← append_assoc, hlabels, description]
  simp only [String.toList_append, append_assoc]

theorem layout_listTokens (lead : String) (ps : List (Parameter all)) (hne : ps ≠ [])
    (hlex : ∀ t ∈ all, t.Lexical) :
    layout (listTokens lead ps) = lead.toList ++ (String.intercalate ", " (ps.map description)).toList := by
  induction ps generalizing lead with
  | nil => exact absurd rfl hne
  | cons p ps ih =>
    cases ps with
    | nil =>
      rw [listTokens, layout_tokens lead p hlex]
      simp
    | cons q ps =>
      rw [listTokens, layout_append, layout_cons, layout_tokens lead p hlex, ih " " (cons_ne_nil q ps)]
      simp [comma, sign]

/-- **The text of a function type is that of its tokens.** -/
theorem layout_functionTokens (ps : List (Parameter all)) (hne : ps ≠ []) (hlex : ∀ t ∈ all, t.Lexical) :
    layout (functionTokens ps) = (functionText ps).toList := by
  rw [functionTokens, layout_cons, layout_append, layout_listTokens "" ps hne hlex, functionText]
  simp [openParen, closeParen, arrow, void, sign, layout]

/-! ## Splitting the text -/

/-- The text of the tokens begins with a comma or a closing parenthesis. -/
def Closes (more : List Token) : Prop := ∃ cs, layout more = ',' :: cs ∨ layout more = ')' :: cs

theorem Closes.seam {more : List Token} (h : Closes more) (front : List Char) : Seam front (layout more) := by
  obtain ⟨cs, h | h⟩ := h <;> rw [h] <;> exact .mark (by decide) (by decide)

section

variable {source : String} (htokenize : tokenize source = .ok all) {more : List Token} (hmore : Rereads more)
include htokenize hmore

variable {lead : String}

theorem rereads_written {ts : List Token} (hin : ts <:+: all) (hne : ts ≠ [])
    (hseam : Seam (joined ts).toList (layout more)) (hlead : lead = "" ∨ lead = " ") :
    Rereads (written lead ts ++ more) := by
  obtain ⟨t, ts, rfl⟩ := exists_cons_of_ne_nil hne
  obtain ⟨before, after, rfl⟩ := hin
  rw [tokenize, append_assoc] at htokenize
  obtain ⟨pos, cs, hcs⟩ := tokensFrom_append htokenize
  rw [toList_joined] at hseam
  exact rereads_run hcs hmore hseam hlead

theorem rereads_word {w : Token} (hw : w ∈ all) {c : Char} {cs : List Char} (hlayout : layout more = c :: cs)
    (hc : isSeam c = true) (hdot : c ≠ '.') (hlead : lead = "" ∨ lead = " ") :
    Rereads (written lead [w] ++ more) := by
  refine rereads_written htokenize hmore ?_ (cons_ne_nil w []) ?_ hlead
  · obtain ⟨before, after, rfl⟩ := append_of_mem hw
    exact ⟨before, after, by rw [append_assoc]; rfl⟩
  · rw [hlayout]
    exact .mark hc hdot

theorem rereads_labelTokens (p : Parameter all)
    (hlead : lead = "" ∨ lead = " ") : Rereads (p.labelTokens lead ++ more) := by
  have hlength := p.length_names
  have hwords := p.isWord
  have hcolon : Rereads (colon :: more) :=
    hmore.cons ⟨.inl rfl, rfl⟩ rfl ⟨':', [], rfl, by decide, by decide, fun _ => rfl⟩
  unfold labelTokens
  match p.names, hlength, hwords with
  | [], _, _ => exact hmore
  | [w], _, hwords =>
    have hw := (hwords w (by simp)).1
    show Rereads (written lead [w] ++ [colon] ++ more)
    rw [append_assoc]
    exact rereads_word htokenize hcolon hw rfl (by decide) (by decide) hlead
  | [w, v], _, hwords =>
    have hw := (hwords w (by simp)).1
    have hv := (hwords v (by simp)).1
    -- the colon ends the second name, and the space in front of it the first
    have hsecond := rereads_word htokenize hcolon hv rfl (by decide) (by decide) (.inr rfl)
    have hspace : layout (written " " [v] ++ colon :: more) =
        ' ' :: (v.text.toList ++ layout (colon :: more)) := by
      rw [layout_append, layout_written " " (cons_ne_nil v []), toList_joined]
      simp [layout]
    show Rereads (written lead [w] ++ (written " " [v] ++ [colon]) ++ more)
    rw [append_assoc, append_assoc]
    exact rereads_word htokenize hsecond hw hspace (by decide) (by decide) hlead

/-- What follows the type of a parameter. -/
theorem rereads_restTokens (p : Parameter all) (hcloses : Closes more) : Rereads (p.restTokens ++ more) := by
  have hvalue : Rereads (p.valueTokens ++ more) := by
    unfold valueTokens
    cases hv : p.value with
    | none => exact hmore
    | some v =>
      obtain ⟨hne, stop, hin, -⟩ := p.value_read v hv
      have hrun := rereads_written htokenize hmore
          (List.IsInfix.trans (prefix_append v [stop]).isInfix hin) hne
        (hcloses.seam _) (.inr rfl)
      exact hrun.cons ⟨.inr rfl, rfl⟩ rfl ⟨'=', [], rfl, by decide, by decide, fun _ => rfl⟩
  rw [restTokens, append_assoc]
  cases p.variadic with
  | false => exact hvalue
  | true => exact hvalue.cons ⟨.inl rfl, rfl⟩ rfl ⟨'.', ['.', '.'], rfl, by decide, by decide, fun _ => rfl⟩

theorem rereads_tokens (p : Parameter all) (hcloses : Closes more) (hlead : lead = "" ∨ lead = " ") :
    Rereads (p.tokens lead ++ more) := by
  have hrest := rereads_restTokens htokenize hmore p hcloses
  -- a space, an ellipsis or the token that closes the parameter stands behind the type
  have hseam : Seam (joined p.type).toList (layout (p.restTokens ++ more)) := by
    rw [restTokens, valueTokens]
    cases p.variadic with
    | true => exact .dots p.type_undotted
    | false =>
      cases p.value with
      | none => exact hcloses.seam _
      | some v => exact .mark (show isSeam ' ' = true by decide) (by decide)
  have hgap : (if p.names.isEmpty then lead else " ") = "" ∨
      (if p.names.isEmpty then lead else " ") = " " := by
    split
    · exact hlead
    · exact .inr rfl
  have htype := rereads_written htokenize hrest p.type_isInfix p.type_ne_nil hseam hgap
  rw [tokens, append_assoc, append_assoc]
  exact rereads_labelTokens htokenize htype p hlead

/-- **A list of parameters is split into the tokens it was written from.** -/
theorem rereads_listTokens (ps : List (Parameter all)) (hcloses : Closes more)
    (hlead : lead = "" ∨ lead = " ") : Rereads (listTokens lead ps ++ more) := by
  induction ps generalizing lead with
  | nil => exact hmore
  | cons p ps ih =>
    cases ps with
    | nil => exact rereads_tokens htokenize hmore p hcloses hlead
    | cons q ps =>
      have hcomma : Rereads (comma :: (listTokens " " (q :: ps) ++ more)) :=
        (ih (.inr rfl)).cons ⟨.inl rfl, rfl⟩ rfl ⟨',', [], rfl, by decide, by decide, fun _ => rfl⟩
      rw [listTokens, append_assoc, cons_append]
      exact rereads_tokens htokenize hcomma p ⟨_, .inl rfl⟩ hlead

end

theorem rereads_functionTokens {source : String} (htokenize : tokenize source = .ok all)
    (ps : List (Parameter all)) : Rereads (functionTokens ps) := by
  -- from the end of the text to its beginning
  have hvoid : Rereads [void] :=
    rereads_nil.cons ⟨.inr rfl, rfl⟩ rfl ⟨'V', ['o', 'i', 'd'], rfl, by decide, by decide, fun _ => rfl⟩
  have harrow : Rereads [arrow, void] :=
    hvoid.cons ⟨.inr rfl, rfl⟩ rfl ⟨'-', ['>'], rfl, by decide, by decide, fun _ => rfl⟩
  have hclose : Rereads [closeParen, arrow, void] :=
    harrow.cons ⟨.inl rfl, rfl⟩ rfl ⟨')', [], rfl, by decide, by decide, fun _ => rfl⟩
  have hlist := rereads_listTokens htokenize hclose ps ⟨_, .inr rfl⟩ (.inl rfl)
  exact hlist.cons ⟨.inl rfl, rfl⟩ rfl ⟨'(', [], rfl, by decide, by decide, fun _ => rfl⟩

end Parameter

end SwiftOutline

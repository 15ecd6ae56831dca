import SwiftOutline.Proofs.Token.Scans

/-!
# `Swap` — scans with other text behind

A scan asks for a character behind what it takes only to see where that ends. So it finds the same gap or
the same token where other text stands behind, if nothing that a token may go on with begins there that
did not begin there before. Text that is cut short is such text.
-/

namespace SwiftOutline

open List

/-! ## Other text -/

/-- The characters that may stand at a seam between two texts. -/
def isSeam (c : Char) : Bool := [' ', '\n', ',', ')', ':', '.'].contains c

variable {c : Char} {g : Gap} {cs before hashes : List Char} {p : List Char × List Char} {l : Lexeme}

theorem isSeam_cases (h : isSeam c = true) :
    c = ' ' ∨ c = '\n' ∨ c = ',' ∨ c = ')' ∨ c = ':' ∨ c = '.' := by
  simpa [isSeam] using h

theorem isIdentifierPart_seam (hc : isSeam c = true) : isIdentifierPart c = false := by
  rcases isSeam_cases hc with rfl | rfl | rfl | rfl | rfl | rfl <;> decide

/-- Text that a token may go on with: it has no character of a seam, or is a point in front of a digit. -/
def GoesOn (ds : List Char) : Prop := (∀ c ∈ ds, isSeam c = false) ∨ ∃ d, d.isDigit = true ∧ ds = ['.', d]

/-- What a token may go on with begins `rest` only where it begins `before`. -/
def Tamer (rest before : List Char) : Prop := ∀ ds, GoesOn ds → ds <+: rest → ds <+: before

section

variable {rest before : List Char}

theorem Tamer.of_isPrefix (h : rest <+: before) : Tamer rest before := fun _ _ hds => hds.trans h

/-- Text without a character of a seam comes about nowhere in what was scanned. -/
theorem Tamer.append (h : Tamer rest before) {ds : List Char} (hds : ∀ c ∈ ds, isSeam c = false)
    (text : List Char) (hstarts : ds <+: text ++ rest) : ds <+: text ++ before := by
  induction text generalizing ds with
  | nil => exact h ds (.inl hds) hstarts
  | cons c text ih =>
    cases ds with
    | nil => exact List.nil_prefix
    | cons d ds =>
      obtain ⟨rfl, htail⟩ := cons_prefix_cons.mp hstarts
      exact cons_prefix_cons.mpr ⟨rfl, ih (fun c hc => hds c (mem_cons_of_mem d hc)) htail⟩

/-- A character that is no seam stood there before. -/
theorem Tamer.exists_cons {d : Char} {ds : List Char} (h : Tamer (d :: ds) before) (hd : isSeam d = false) :
    ∃ es, before = d :: es := by
  obtain ⟨es, rfl⟩ := h [d] (.inl fun c hc => mem_singleton.mp hc ▸ hd) ⟨ds, rfl⟩
  exact ⟨es, rfl⟩

end

/-! ## Gaps -/

variable {pos : Nat} {c : Char} {cs rest : List Char}

/-- No gap begins where a scan has stopped, also if the text behind is cut short. -/
theorem scanGap_rest {mode : GapMode} (h : scanGap mode pos cs = .ok g) (pos' : Nat)
    (hrest : rest <+: g.rest) : scanGap .between pos' rest = .ok ⟨[], false, rest⟩ := by
  fun_induction scanGap mode pos cs generalizing g with
  | case1 => cases h
  | case2 =>
    cases h
    rw [prefix_nil.mp hrest]
    rfl
  | case6 pos c cs hline hblock hblank =>
    cases h
    cases rest with
    | nil => rfl
    | cons d rest =>
      -- a cut that leaves anything leaves the character at which the scan stopped
      obtain ⟨rfl, hstarts⟩ := cons_prefix_cons.mp hrest
      obtain ⟨more, rfl⟩ := hstarts
      refine scanGap_stop (Bool.not_eq_true _ ▸ hblank) (opensComment_eq_false ?_ ?_) pos'
      · rintro ds hd rfl
        exact hline _ hd rfl
      · rintro ds hd rfl
        exact hblock _ hd rfl
  | case3 _ _ ih | case4 _ _ ih | case5 _ _ _ _ _ _ ih | case7 _ _ ih | case8 _ _ _ _ ih
  | case9 _ _ _ _ ih | case10 _ _ _ ih | case11 _ _ _ _ ih | case12 _ _ _ _ _ _ _ _ ih =>
    obtain ⟨a, ha, rfl⟩ := ok_of_map_eq_ok h
    exact ih ha hrest

/-- What was scanned in front of a gap, with the gap and the scan that goes on behind it. -/
theorem map_push_push (x : Except LexError Gap) (front : List Char) (newline : Bool) (a : Gap) :
    (x.map (·.push a.text a.newline)).map (·.push front newline) =
      x.map (·.push (a.push front newline).text (a.push front newline).newline) := by
  cases x with
  | error e => rfl
  | ok b => simp only [Except.map, Gap.push, append_assoc, Bool.or_assoc]

/-- The text that is left of a block comment is not empty. -/
theorem text_ne_nil_of_scanGap_block {start depth pos : Nat}
    (h : scanGap (.block start depth) pos cs = .ok g) : g.text ≠ [] := by
  obtain ⟨opened, pieces, htext, hcloses, -⟩ := isTrivia_of_scanGap h
  rw [htext]
  exact append_ne_nil_of_left_ne_nil hcloses.ne_nil _

/-- **A scan goes on where a gap has ended**, whatever stands there, if something stood there before.
Where the text has ended a line comment may have been open, so there a line feed must follow, or
nothing. -/
theorem scanGap_swap {mode : GapMode} (h : scanGap mode pos cs = .ok g)
    (hrest : g.rest ≠ [] ∨ rest = [] ∨ ∃ ds, rest = '\n' :: ds) : scanGap mode pos (g.text ++ rest) =
      (scanGap .between (pos + Text.byteSize g.text) rest).map (·.push g.text g.newline) := by
  -- the scan of `front` and of the gap behind it, in one
  have hjoin {mode : GapMode} {pos : Nat} {newline : Bool} {a : Gap} (front : List Char)
      (hscan : scanGap mode (pos + Text.byteSize front) (a.text ++ rest) =
        (scanGap .between (pos + Text.byteSize front + Text.byteSize a.text) rest).map
          (·.push a.text a.newline)) :
      (scanGap mode (pos + Text.byteSize front) (a.text ++ rest)).map (·.push front newline) =
        (scanGap .between (pos + Text.byteSize (a.push front newline).text) rest).map
          (·.push (a.push front newline).text (a.push front newline).newline) := by
    rw [hscan, map_push_push, Gap.push_text, Text.byteSize_append, Nat.add_assoc]
  have hpush (x : Except LexError Gap) : x = x.map (·.push [] false) := by cases x <;> rfl
  fun_induction scanGap mode pos cs generalizing g with
  | case1 => cases h
  | case2 mode pos hmode =>
    cases h
    refine Eq.trans ?_ (hpush _)
    rcases hrest.resolve_left fun hne => hne rfl with rfl | ⟨ds, rfl⟩
    · cases mode with
      | block start depth => exact absurd rfl (hmode start depth)
      | between | line => rfl
    · cases mode with
      | block start depth => exact absurd rfl (hmode start depth)
      | between => rfl
      | line => exact (scanGap_blank (by decide) pos ds).symm
  | case6 pos c cs hline hblock hblank =>
    cases h
    exact hpush _
  | case5 pos c cs _ _ hblank ih =>
    obtain ⟨a, ha, rfl⟩ := ok_of_map_eq_ok h
    exact (scanGap_blank hblank pos _).trans (hjoin [c] (ih ha hrest))
  | case8 pos c cs hline ih =>
    obtain ⟨a, ha, rfl⟩ := ok_of_map_eq_ok h
    exact (if_neg hline).trans (hjoin [c] (ih ha hrest))
  | case12 start depth pos c cs hopen hlast hmore ih =>
    obtain ⟨a, ha, rfl⟩ := ok_of_map_eq_ok h
    have hmark : startsMark (c :: (a.text ++ rest)) = false := by
      have hne := text_ne_nil_of_scanGap_block ha
      have hcs := startsMark_eq_false hopen hlast hmore
      rw [← scanGap_append ha, startsMark_append hne] at hcs
      rw [startsMark_append hne, hcs]
    exact (scanGap_inside hmark start depth pos).trans (hjoin [c] (ih ha hrest))
  | case3 pos cs ih =>
    obtain ⟨a, ha, rfl⟩ := ok_of_map_eq_ok h
    exact hjoin ['/', '/'] (ih ha hrest)
  | case7 pos cs ih =>
    obtain ⟨a, ha, rfl⟩ := ok_of_map_eq_ok h
    exact hjoin ['\n'] (ih ha hrest)
  | case4 _ _ ih | case9 _ _ _ _ ih =>
    obtain ⟨a, ha, rfl⟩ := ok_of_map_eq_ok h
    exact hjoin ['/', '*'] (ih ha hrest)
  | case10 _ _ _ ih | case11 _ _ _ _ ih =>
    obtain ⟨a, ha, rfl⟩ := ok_of_map_eq_ok h
    exact hjoin ['*', '/'] (ih ha hrest)

/-- **A gap does not hang on what is cut off behind it**, nor on where it begins. -/
theorem scanGap_cut (h : scanGap .between pos cs = .ok g) (pos' : Nat) (hrest : rest <+: g.rest) :
    scanGap .between pos' (g.text ++ rest) = .ok ⟨g.text, g.newline, rest⟩ := by
  refine scanGap_at (show scanGap .between pos _ = _ from ?_) pos'
  have hends : g.rest ≠ [] ∨ rest = [] ∨ ∃ ds, rest = '\n' :: ds := by
    by_cases hnil : g.rest = []
    · exact .inr (.inl (prefix_nil.mp (hnil ▸ hrest)))
    · exact .inl hnil
  rw [scanGap_swap h hends, scanGap_rest h _ hrest]
  show Except.ok _ = _
  simp only [Gap.push, append_nil, Bool.or_false]

/-! ## Runs of characters -/

section

variable {p : Char → Bool} {cs rest : List Char} (hp : ∀ c, p c = true → isSeam c = false)
  (hrest : Tamer rest (cs.dropWhile p))
include hp hrest

/-- What stands behind a run does not begin with a character of the run. -/
theorem takeWhile_eq_nil_swap : rest.takeWhile p = [] := by
  cases rest with
  | nil => rfl
  | cons d rest =>
    rw [takeWhile_cons]
    split
    · next hd =>
      obtain ⟨es, hes⟩ := hrest.exists_cons (hp d hd)
      have hhead := List.head?_dropWhile_not p cs
      rw [hes] at hhead
      exact absurd hd (Bool.eq_false_iff.mp hhead)
    · rfl

theorem takeWhile_swap : (cs.takeWhile p ++ rest).takeWhile p = cs.takeWhile p := by
  rw [takeWhile_append_of_pos (all_eq_true.mp all_takeWhile), takeWhile_eq_nil_swap hp hrest,
    append_nil]

theorem dropWhile_swap : (cs.takeWhile p ++ rest).dropWhile p = rest := by
  rw [dropWhile_append_of_pos (all_eq_true.mp all_takeWhile)]
  have hall := takeWhile_append_dropWhile (p := p) (l := rest)
  rw [takeWhile_eq_nil_swap hp hrest, nil_append] at hall
  exact hall

end

theorem isSeam_of_isIdentifierPart (c : Char) (h : isIdentifierPart c = true) : isSeam c = false := by
  rw [Bool.eq_false_iff]
  intro hc
  rw [isIdentifierPart_seam hc] at h
  cases h

/-- A name in backticks ends with its own backtick. -/
theorem scanEscaped_swap {text rest' : List Char} (h : scanEscaped cs = some (text, rest'))
    (rest : List Char) : scanEscaped (text ++ rest) = some (text, rest) := by
  fun_induction scanEscaped cs generalizing text rest' with
  | case1 => cases h
  | case2 cs =>
    cases h
    rfl
  | case3 => cases h
  | case4 c cs hquote hfeed ih =>
    obtain ⟨p, hp, heq⟩ := Option.map_eq_some_iff.mp h
    cases heq
    rw [cons_append, scanEscaped, if_neg hquote, if_neg hfeed, ih hp]
    rfl

/-! ## Numbers -/

/-- A digit is always part of a number. -/
theorem scanNumber_digit (radix : Bool) (last : Char) (hc : c.isDigit = true) (cs : List Char) :
    (scanNumber radix last (c :: cs)).1.head? = some c := by
  have hcontinues : numberContinues radix last c cs = true := by
    simp [numberContinues, Char.isAlphanum, hc]
  rw [scanNumber, if_pos hcontinues]
  rfl

/-- Only a point asks what comes after it, and then takes that. -/
theorem numberContinues_swap {radix : Bool} {last : Char}
    (h : numberContinues radix last c cs = true) (rest : List Char) :
    numberContinues radix last c ((scanNumber radix c cs).1 ++ rest) = true := by
  cases hpoint : (c == '.' && cs.head?.any Char.isDigit) with
  | false =>
    unfold numberContinues at h ⊢
    rw [hpoint] at h
    simp only [Bool.or_eq_true] at h ⊢
    exact h.imp_left fun hleft => .inl (hleft.resolve_right Bool.false_ne_true)
  | true =>
    rw [Bool.and_eq_true] at hpoint
    cases cs with
    | nil => cases hpoint.2
    | cons d cs =>
      have hd : d.isDigit = true := hpoint.2
      have hhead : ((scanNumber radix c (d :: cs)).1 ++ rest).head? = some d := by
        rw [List.head?_append, scanNumber_digit radix c hd]
        rfl
      unfold numberContinues
      rw [hpoint.1, hhead]
      simp [hd]

/-- A number goes on with a character of no seam, or with a point in front of a digit. -/
theorem Tamer.numberContinues {radix : Bool} {last : Char} (h : Tamer (c :: cs) before)
    (hc : numberContinues radix last c cs = true) :
    ∃ d ds, before = d :: ds ∧ SwiftOutline.numberContinues radix last d ds = true := by
  cases hpoint : (c == '.' && cs.head?.any Char.isDigit) with
  | true =>
    rw [Bool.and_eq_true] at hpoint
    obtain rfl := eq_of_beq hpoint.1
    cases cs with
    | nil => cases hpoint.2
    | cons e cs =>
      have he : e.isDigit = true := hpoint.2
      obtain ⟨ds, rfl⟩ := h ['.', e] (.inr ⟨e, he, rfl⟩) ⟨cs, rfl⟩
      exact ⟨'.', e :: ds, rfl, by simp [SwiftOutline.numberContinues, he]⟩
  | false =>
    simp only [SwiftOutline.numberContinues, hpoint, Bool.or_false] at hc
    have hseam : isSeam c = false := by
      rw [Bool.eq_false_iff]
      intro hc'
      rcases isSeam_cases hc' with rfl | rfl | rfl | rfl | rfl | rfl <;> cases hc
    obtain ⟨ds, rfl⟩ := h.exists_cons hseam
    refine ⟨c, ds, rfl, ?_⟩
    simp only [SwiftOutline.numberContinues, Bool.or_eq_true] at hc ⊢
    exact hc.imp_left .inl

/-- By `numberContinues_swap`, one character after another. -/
theorem scanNumber_swap (radix : Bool) (last : Char) (cs : List Char)
    (hrest : Tamer rest (scanNumber radix last cs).2.2) :
    scanNumber radix last ((scanNumber radix last cs).1 ++ rest) =
      ((scanNumber radix last cs).1, (scanNumber radix last cs).2.1, rest) := by
  -- where the number has ended it does not go on
  have hends {last : Char} {before : List Char} (hrest : Tamer rest before)
      (hbefore : ∀ d ds, before = d :: ds → ¬ numberContinues radix last d ds = true) :
      scanNumber radix last rest = ([], false, rest) := by
    cases rest with
    | nil => rfl
    | cons c rest =>
      rw [scanNumber, if_neg]
      intro hc
      obtain ⟨d, ds, hds, hd⟩ := hrest.numberContinues hc
      exact hbefore d ds hds hd
  induction cs generalizing last with
  | nil => exact hends hrest (by rintro d ds ⟨⟩)
  | cons c cs ih =>
    rw [scanNumber] at hrest ⊢
    by_cases hc : numberContinues radix last c cs = true
    · rw [if_pos hc] at hrest ⊢
      simp only [cons_append]
      rw [scanNumber, if_pos (numberContinues_swap hc rest), ih c hrest]
    · rw [if_neg hc] at hrest ⊢
      refine hends hrest ?_
      rintro d ds ⟨⟩
      exact hc

/-- The text begins with the mark of a radix. -/
def startsRadix (cs : List Char) : Bool :=
  cs.take 2 == ['0', 'x'] || cs.take 2 == ['0', 'o'] || cs.take 2 == ['0', 'b']

theorem startsRadix_iff :
    startsRadix cs = true ↔ ∃ mark ∈ [['0', 'x'], ['0', 'o'], ['0', 'b']], mark <+: cs := by
  simp [startsRadix, prefix_iff_eq_take, @eq_comm _ (cs.take 2), or_assoc]

/-- A radix that is seen now was seen before. -/
theorem Tamer.startsRadix {rest : List Char} (h : Tamer rest before) (text : List Char)
    (hstarts : startsRadix (text ++ rest) = true) : startsRadix (text ++ before) = true := by
  obtain ⟨mark, hmark, hmarked⟩ := startsRadix_iff.mp hstarts
  have hseam : ∀ mark ∈ [['0', 'x'], ['0', 'o'], ['0', 'b']], ∀ c ∈ mark, isSeam c = false := by simp [isSeam]
  exact startsRadix_iff.mpr ⟨mark, hmark, h.append (hseam mark hmark) text hmarked⟩

theorem exists_of_startsRadix (h : startsRadix cs = true) : ∃ a b ds, cs = a :: b :: ds := by
  cases cs with
  | nil => cases h
  | cons a cs =>
    cases cs with
    | nil => simp [startsRadix] at h
    | cons b ds => exact ⟨a, b, ds, rfl⟩

/-- The number that the scan of its digits gives, with what was skipped before them. -/
def numeralOf (skipped : List Char) (scanned : List Char × Bool × List Char) : Lexeme :=
  ⟨if scanned.2.1 then .floatLiteral else .integerLiteral, skipped ++ scanned.1, scanned.2.2⟩

theorem scanNumeral_plain (h : startsRadix cs = false) :
    scanNumeral cs = numeralOf [] (scanNumber false '\x00' cs) := by
  unfold startsRadix at h
  simp only [scanNumeral, h, if_neg Bool.false_ne_true, drop_zero, take_zero]
  rfl

theorem scanNumeral_radix {a b : Char} (h : startsRadix (a :: b :: cs) = true) :
    scanNumeral (a :: b :: cs) = numeralOf [a, b] (scanNumber true '\x00' cs) := by
  unfold startsRadix at h
  simp only [scanNumeral, h, if_true]
  rfl

/-- By `scanNumber_swap`, with or without a radix. -/
theorem scanNumeral_swap (cs : List Char) (hrest : Tamer rest (scanNumeral cs).rest) :
    scanNumeral ((scanNumeral cs).text ++ rest) = ⟨(scanNumeral cs).kind, (scanNumeral cs).text, rest⟩ := by
  cases hradix : startsRadix cs with
  | true =>
    obtain ⟨a, b, cs, rfl⟩ := exists_of_startsRadix hradix
    rw [scanNumeral_radix hradix] at hrest ⊢
    have hradix' : startsRadix (a :: b :: ((scanNumber true '\x00' cs).1 ++ rest)) = true := hradix
    show scanNumeral (a :: b :: ((scanNumber true '\x00' cs).1 ++ rest)) = _
    rw [scanNumeral_radix hradix', scanNumber_swap _ _ _ hrest]
    rfl
  | false =>
    have hradix' : startsRadix ((scanNumeral cs).text ++ rest) = false := by
      rw [Bool.eq_false_iff]
      intro hstarts
      have hstarts' := hrest.startsRadix _ hstarts
      rw [scanNumeral_append, hradix] at hstarts'
      cases hstarts'
    rw [scanNumeral_plain hradix']
    rw [scanNumeral_plain hradix] at hrest ⊢
    show numeralOf [] (scanNumber false '\x00' ((scanNumber false '\x00' cs).1 ++ rest)) = _
    rw [scanNumber_swap _ _ _ hrest]
    rfl

/-! ## Strings -/

theorem text_ne_nil_of_scanString {s : OpenString} {outer : List OpenString}
    (h : scanString s outer pos cs = .ok p) : p.1 ≠ [] := by
  rw [scanString_eq] at h
  rcases hstep : stringStep s outer pos cs with _ | ⟨text, _ | ⟨o, os⟩⟩ <;> rw [hstep] at h
  · cases h
  · cases h
    exact (exists_of_stringStep hstep).1
  · obtain ⟨a, -, rfl⟩ := ok_of_map_eq_ok h
    exact append_ne_nil_of_left_ne_nil (exists_of_stringStep hstep).1 _

theorem isSeam_quotes : ∀ c ∈ ['"', '"'], isSeam c = false := by simp [isSeam]

/-- **A string does not hang on what stands behind it.** -/
theorem scanString_swap {s : OpenString} {outer : List OpenString}
    (h : scanString s outer pos cs = .ok p) (hrest : Tamer rest p.2) :
    scanString s outer pos (p.1 ++ rest) = .ok (p.1, rest) := by
  induction s, outer, pos, cs using scanString_induction generalizing p with
  | step s outer pos cs ih =>
    rw [scanString_eq] at h
    rcases hstep : stringStep s outer pos cs with _ | ⟨text, _ | ⟨o, os⟩⟩ <;> rw [hstep] at h
    · cases h
    · cases h
      have hagain := stringStep_swap hstep (hrest _ (.inl isSeam_quotes)) (.inl rfl)
      rw [scanString_eq, hagain]
      show Except.ok (text, (text ++ rest).drop text.length) = _
      rw [drop_left]
    · obtain ⟨a, ha, rfl⟩ := ok_of_map_eq_ok h
      have hbehind := scanString_append ha
      have hne : cs.drop text.length ≠ [] := by
        rw [← hbehind]
        exact append_ne_nil_of_left_ne_nil (text_ne_nil_of_scanString ha) _
      have hagain : stringStep s outer pos (text ++ (a.1 ++ rest)) = some (text, o :: os) :=
        stringStep_swap hstep (fun hquotes => hbehind ▸ hrest.append isSeam_quotes a.1 hquotes) (.inr hne)
      rw [pushFront_fst, append_assoc, scanString_eq, hagain]
      show (scanString o os _ ((text ++ (a.1 ++ rest)).drop text.length)).map _ = _
      rw [drop_left, ih text o os hstep ha hrest]
      rfl

/-- The number of quotes, besides the one in front of the text, that open a string. -/
def openingQuotes (cs : List Char) : Nat := if cs.take 2 = ['"', '"'] then 2 else 0

/-- With other text behind its opening quotes a string is opened by the same quotes, if no more come about. -/
theorem openingQuotes_swap {ds : List Char}
    (h : ['"', '"'] <+: cs.take (openingQuotes cs) ++ ds → ['"', '"'] <+: cs) :
    openingQuotes (cs.take (openingQuotes cs) ++ ds) = openingQuotes cs ∧
      (cs.take (openingQuotes cs) ++ ds).take (openingQuotes cs) = cs.take (openingQuotes cs) ∧
      (cs.take (openingQuotes cs) ++ ds).drop (openingQuotes cs) = ds := by
  by_cases hcs : cs.take 2 = ['"', '"']
  · have htwo : openingQuotes cs = 2 := if_pos hcs
    rw [htwo, hcs]
    exact ⟨if_pos rfl, rfl, rfl⟩
  · have hzero : openingQuotes cs = 0 := if_neg hcs
    rw [hzero, take_zero, nil_append] at h ⊢
    refine ⟨if_neg fun hds => hcs ?_, rfl, rfl⟩
    exact (prefix_iff_eq_take.mp (h (prefix_iff_eq_take.mpr hds.symm))).symm

/-- The mark is found where it was. -/
theorem splitAfter_swap {mark : List Char} (hmark : mark ≠ []) (hseam : ∀ c ∈ mark, isSeam c = false)
    (h : splitAfter mark cs = some p) (hrest : Tamer rest p.2) :
    splitAfter mark (p.1 ++ rest) = some (p.1, rest) := by
  fun_induction splitAfter mark cs generalizing p with
  | case1 => cases h
  | case2 c cs hm =>
    cases h
    obtain ⟨m, ms, rfl⟩ := exists_cons_of_ne_nil hmark
    have hself : (m :: ms).isPrefixOf (m :: (ms ++ rest)) = true :=
      List.isPrefixOf_iff_prefix.mpr (prefix_append (m :: ms) rest)
    show splitAfter (m :: ms) (m :: (ms ++ rest)) = _
    rw [splitAfter, if_pos hself, ← cons_append, drop_left]
  | case3 c cs hm ih =>
    obtain ⟨a, ha, rfl⟩ := Option.map_eq_some_iff.mp h
    have hm' : ¬ mark.isPrefixOf (c :: (a.1 ++ rest)) = true := by
      rw [List.isPrefixOf_iff_prefix, ← splitAfter_append ha] at hm
      rw [List.isPrefixOf_iff_prefix]
      exact fun hstarts => hm (hrest.append hseam (c :: a.1) hstarts)
    show splitAfter mark (c :: (a.1 ++ rest)) = _
    rw [splitAfter, if_neg hm', ih ha hrest]
    rfl

/-- What closes a raw string that `hashes` hash signs and a quote with `quotes` more of them open. -/
def rawMark (hashes quotes : Nat) : List Char :=
  List.replicate (quotes + 1) '"' ++ List.replicate hashes '#'

theorem isSeam_rawMark (hashes quotes : Nat) : ∀ c ∈ rawMark hashes quotes, isSeam c = false := by
  intro c hc
  rcases List.mem_append.mp hc with hc | hc <;> rw [List.eq_of_mem_replicate hc] <;> decide

/-- A raw string is split behind its closing mark. -/
theorem scanRawString_eq (hashes : List Char) (pos : Nat) (cs : List Char) :
    scanRawString hashes.length pos (hashes ++ '"' :: cs) =
      match splitAfter (rawMark hashes.length (openingQuotes cs)) (cs.drop (openingQuotes cs)) with
      | some p => .ok (pushFront (hashes ++ '"' :: cs.take (openingQuotes cs)) p)
      | none => .error (.unterminatedString pos) := by
  have htake (n : Nat) : (hashes ++ '"' :: cs).take (hashes.length + (n + 1)) =
      hashes ++ '"' :: cs.take n := by
    rw [List.take_length_add_append, List.take_succ_cons]
  have hdrop (n : Nat) : (hashes ++ '"' :: cs).drop (hashes.length + (n + 1)) = cs.drop n := by
    rw [drop_length_add_append, drop_succ_cons]
  rw [scanRawString, drop_left]
  by_cases hcs : cs.take 2 = ['"', '"']
  · have htwo : openingQuotes cs = 2 := if_pos hcs
    have hthree : ('"' :: cs).take 3 = ['"', '"', '"'] := by rw [take_succ_cons, hcs]
    simp only [htwo, if_pos hthree, htake 2, hdrop 2]
    rfl
  · have hzero : openingQuotes cs = 0 := if_neg hcs
    have hthree : ¬ ('"' :: cs).take 3 = ['"', '"', '"'] := by
      rw [take_succ_cons]
      intro heq
      exact hcs (tail_eq_of_cons_eq heq)
    simp only [hzero, if_neg hthree, htake 0, hdrop 0]
    rfl

/-- By `splitAfter_swap`. -/
theorem scanRawString_swap
    (h : scanRawString hashes.length pos (hashes ++ '"' :: cs) = .ok p) (hrest : Tamer rest p.2) :
    ∃ text, p.1 = hashes ++ '"' :: text ∧
      scanRawString hashes.length pos (hashes ++ '"' :: (text ++ rest)) = .ok (p.1, rest) := by
  rw [scanRawString_eq] at h
  split at h
  · next q hq =>
    cases h
    refine ⟨cs.take (openingQuotes cs) ++ q.1, by simp, ?_⟩
    have hcs : cs.take (openingQuotes cs) ++ q.1 ++ q.2 = cs := by
      rw [List.append_assoc, splitAfter_append hq, List.take_append_drop]
    have hopens : ['"', '"'] <+: cs.take (openingQuotes cs) ++ (q.1 ++ rest) → ['"', '"'] <+: cs := by
      intro hstarts
      rw [← List.append_assoc] at hstarts
      exact hcs ▸ hrest.append isSeam_quotes _ hstarts
    obtain ⟨hquotes, htake, hdrop⟩ := openingQuotes_swap hopens
    have hmark : rawMark hashes.length (openingQuotes cs) ≠ [] := List.cons_ne_nil _ _
    rw [List.append_assoc, scanRawString_eq, hquotes, htake, hdrop,
      splitAfter_swap hmark (isSeam_rawMark _ _) hq hrest]
    simp [pushFront]
  · cases h

/-! ## Hash signs and punctuation -/

/-- The text begins a raw string, its first hash sign apart. -/
def StartsRaw (cs : List Char) : Prop :=
  ∃ hashes ds, hashes.all (· == '#') = true ∧ cs = hashes ++ '"' :: ds

theorem takeWhile_hashes (h : hashes.all (· == '#') = true) (cs : List Char) :
    (hashes ++ '"' :: cs).takeWhile (· == '#') = hashes := by
  rw [List.takeWhile_append_of_pos (List.all_eq_true.mp h)]
  exact List.append_nil hashes

/-- Hash signs and a quote behind them. -/
theorem startsRaw_iff (cs : List Char) :
    (cs.drop (cs.takeWhile (· == '#')).length).head? = some '"' ↔ StartsRaw cs := by
  constructor
  · intro h
    obtain ⟨ds, hds⟩ := List.head?_eq_some_iff.mp h
    refine ⟨cs.takeWhile (· == '#'), ds, all_takeWhile, ?_⟩
    have htake : cs.take (cs.takeWhile (· == '#')).length = cs.takeWhile (· == '#') :=
      (prefix_iff_eq_take.mp (List.takeWhile_prefix _)).symm
    rw [← hds]
    conv => rhs; arg 1; rw [← htake]
    exact (take_append_drop _ cs).symm
  · rintro ⟨hashes, ds, hhashes, rfl⟩
    rw [takeWhile_hashes hhashes, drop_left]
    rfl

/-- A raw string that begins now began before. -/
theorem Tamer.startsRaw {rest : List Char} (h : Tamer rest before) (hraw : StartsRaw rest) :
    StartsRaw before := by
  obtain ⟨hashes, ds, hhashes, rfl⟩ := hraw
  have hseam : ∀ c ∈ hashes ++ ['"'], isSeam c = false := by
    intro c hc
    rcases List.mem_append.mp hc with hc | hc
    · rw [eq_of_beq (List.all_eq_true.mp hhashes c hc)]
      decide
    · rw [List.mem_singleton.mp hc]
      decide
  obtain ⟨es, rfl⟩ := h (hashes ++ ['"']) (.inl hseam) ⟨ds, append_assoc ..⟩
  exact ⟨hashes, es, hhashes, append_assoc ..⟩

theorem scanPound_raw (h : hashes.all (· == '#') = true) (pos : Nat)
    (cs : List Char) :
    scanPound pos (hashes ++ '"' :: cs) =
      (scanRawString ('#' :: hashes).length pos ('#' :: hashes ++ '"' :: cs)).map fun p =>
        ⟨.stringLiteral, p.1, p.2⟩ := by
  have hraw := (startsRaw_iff _).mpr ⟨hashes, cs, h, rfl⟩
  rw [scanPound, if_pos hraw, takeWhile_hashes h]
  rfl

theorem scanPound_directive (hraw : ¬ StartsRaw cs) (hstart : cs.head?.any isIdentifierStart = true)
    (pos : Nat) : scanPound pos cs =
      .ok ⟨.poundDirective, '#' :: cs.takeWhile isIdentifierPart, cs.dropWhile isIdentifierPart⟩ := by
  rw [scanPound, if_neg (mt (startsRaw_iff cs).mp hraw), if_pos hstart]

theorem scanPound_alone (hraw : ¬ StartsRaw cs) (hstart : ¬ cs.head?.any isIdentifierStart = true)
    (pos : Nat) : scanPound pos cs = .ok ⟨.punct, ['#'], cs⟩ := by
  rw [scanPound, if_neg (mt (startsRaw_iff cs).mp hraw), if_neg hstart]

theorem not_startsRaw_of_start (h : cs.head?.any isIdentifierStart = true) : ¬ StartsRaw cs := by
  rintro ⟨hashes, ds, hhashes, rfl⟩
  cases hashes with
  | nil =>
    have hquote : isIdentifierStart '"' = true := h
    exact absurd hquote (by decide)
  | cons c hashes =>
    have hc : c = '#' := eq_of_beq (List.all_eq_true.mp hhashes c List.mem_cons_self)
    have hhash : isIdentifierStart '#' = true := hc ▸ h
    exact absurd hhash (by decide)

/-- A raw string, a directive or a lone hash sign. -/
theorem scanPound_swap (h : scanPound pos cs = .ok l) (hrest : Tamer rest l.rest) :
    ∃ ds, l.text = '#' :: ds ∧ scanPound pos (ds ++ rest) = .ok ⟨l.kind, l.text, rest⟩ := by
  by_cases hraw : StartsRaw cs
  · obtain ⟨hashes, cs, hhashes, rfl⟩ := hraw
    rw [scanPound_raw hhashes] at h
    obtain ⟨p, hp, rfl⟩ := ok_of_map_eq_ok h
    obtain ⟨text, htext, hagain⟩ := scanRawString_swap hp hrest
    refine ⟨hashes ++ '"' :: text, htext, ?_⟩
    rw [append_assoc, cons_append, scanPound_raw hhashes, hagain]
    rfl
  · by_cases hstart : cs.head?.any isIdentifierStart = true
    · rw [scanPound_directive hraw hstart] at h
      cases h
      have hstart' : (cs.takeWhile isIdentifierPart ++ rest).head?.any isIdentifierStart = true := by
        cases cs with
        | nil => cases hstart
        | cons c cs =>
          rw [takeWhile_cons, if_pos (isIdentifierPart_of_start hstart)]
          exact hstart
      refine ⟨_, rfl, ?_⟩
      rw [scanPound_directive (not_startsRaw_of_start hstart') hstart',
        takeWhile_swap isSeam_of_isIdentifierPart hrest, dropWhile_swap isSeam_of_isIdentifierPart hrest]
    · rw [scanPound_alone hraw hstart] at h
      cases h
      refine ⟨[], rfl, scanPound_alone (fun hnew => hraw (hrest.startsRaw hnew)) ?_ pos⟩
      intro hnew
      cases rest with
      | nil => cases hnew
      | cons d rest =>
        obtain ⟨es, rfl⟩ := hrest.exists_cons (isSeam_of_isIdentifierPart d (isIdentifierPart_of_start hnew))
        exact hstart hnew

/-- The tokens of punctuation with more than one character. -/
def longPuncts : List (List Char) := [['-', '>'], ['.', '.', '.'], ['.', '.', '<']]

/-- No longer mark is found than before. -/
theorem scanPunct_swap (h : scanPunct c cs = some l)
    (hrest : ∀ mark ∈ longPuncts, mark <+: l.text ++ rest → mark <+: l.text ++ l.rest) :
    ∃ ds, l.text = c :: ds ∧ scanPunct c (ds ++ rest) = some ⟨l.kind, l.text, rest⟩ := by
  unfold scanPunct at h
  split at h
  · cases h
    exact ⟨[], rfl, rfl⟩
  · cases h
    exact ⟨[], rfl, rfl⟩
  · cases h
    exact ⟨['>'], rfl, rfl⟩
  · cases h
    exact ⟨['.', '.'], rfl, rfl⟩
  · cases h
    exact ⟨['.', '<'], rfl, rfl⟩
  · next hat hback harrow hellipsis hrange =>
    split at h
    · next hpunct =>
      cases h
      refine ⟨[], rfl, ?_⟩
      -- a longer token would have been there before
      have hlong (mark : List Char) (hmark : c :: mark ∈ longPuncts) (ds : List Char) (hds :
          rest = mark ++ ds) :
          ∃ es, cs = mark ++ es := by
        obtain ⟨es, hes⟩ := hrest (c :: mark) hmark ⟨ds, by rw [hds]; rfl⟩
        exact ⟨es, (List.cons.inj hes).2.symm⟩
      rw [nil_append, scanPunct.eq_def]
      split
      · exact (hat rfl).elim
      · exact (hback rfl).elim
      · obtain ⟨es, hes⟩ := hlong ['>'] (by decide) _ rfl
        exact (harrow es rfl hes).elim
      · obtain ⟨es, hes⟩ := hlong ['.', '.'] (by decide) _ rfl
        exact (hellipsis es rfl hes).elim
      · obtain ⟨es, hes⟩ := hlong ['.', '<'] (by decide) _ rfl
        exact (hrange es rfl hes).elim
      · rw [if_pos hpunct]
    · cases h

/-! ## Tokens -/

/-- Behind the token `text` other text may stand in place of `before`. -/
structure Swap (text before rest : List Char) : Prop where
  tamer : Tamer rest before
  puncts : ∀ mark ∈ longPuncts, mark <+: text ++ rest → mark <+: text ++ before

/-- The character begins a sign: a token of any other sort begins with another one. -/
def startsSign (c : Char) : Bool :=
  !(isIdentifierStart c || c == '\x60' || c == '$' || c.isDigit || c == '"' || c == '#')

/-- What is read as the token at the start of `c :: cs`, by the sort of token. -/
inductive Scanned (pos : Nat) : Char → List Char → Lexeme → Prop where
  | word {c : Char} {cs : List Char} (hstart : isIdentifierStart c = true) :
    Scanned pos c cs (scanIdentifier (c :: cs))
  | escaped {cs : List Char} {p : List Char × List Char} (hp : scanEscaped cs = some p) :
      Scanned pos '\x60' cs ⟨.identifier, '\x60' :: p.1, p.2⟩
  | dollar {cs : List Char} :
      Scanned pos '$' cs ⟨.identifier, '$' :: cs.takeWhile isIdentifierPart, cs.dropWhile isIdentifierPart⟩
  | numeral {c : Char} {cs : List Char} (hstart : isIdentifierStart c = false) (hdigit : c.isDigit = true) :
      Scanned pos c cs (scanNumeral (c :: cs))
  | string {cs : List Char} {p : List Char × List Char}
      (hp : scanString ⟨openingQuotes cs = 2, pos, 0⟩ [] (pos + 1 + openingQuotes cs)
        (cs.drop (openingQuotes cs)) = .ok p) :
      Scanned pos '"' cs ⟨.stringLiteral, '"' :: (cs.take (openingQuotes cs) ++ p.1), p.2⟩
  | pound {cs : List Char} {l : Lexeme} (hl : scanPound pos cs = .ok l) : Scanned pos '#' cs l
  | sign {c : Char} {cs : List Char} {l : Lexeme} (hc : startsSign c = true) (hl : scanPunct c cs = some l) :
    Scanned pos c cs l

/-- By the cases of `scanLexeme`, in their order. -/
theorem scanned_of_scanLexeme (h : scanLexeme pos c cs = .ok l) : Scanned pos c cs l := by
  unfold scanLexeme at h
  split at h
  · next hstart =>
    cases h
    exact .word hstart
  next hstart =>
  split at h
  · next hquoted =>
    subst hquoted
    split at h
    · next p hp =>
      cases h
      exact .escaped hp
    · cases h
  next hquoted =>
  split at h
  · next hdollar =>
    subst hdollar
    cases h
    exact .dollar
  next hdollar =>
  split at h
  · next hdigit =>
    cases h
    exact .numeral (Bool.eq_false_iff.mpr hstart) hdigit
  next hdigit =>
  split at h
  · next hstring =>
    subst hstring
    obtain ⟨p, hp, rfl⟩ := ok_of_map_eq_ok h
    exact .string hp
  next hstring =>
  split at h
  · next hpound =>
    subst hpound
    exact .pound h
  next hpound =>
  split at h
  · next hl =>
    cases h
    exact .sign (by simp [startsSign, hstart, hquoted, hdollar, hdigit, hstring, hpound]) hl
  · cases h

theorem ne_of_isDigit {d : Char} (hc : c.isDigit = true) (hd : d.isDigit = false) : c ≠ d := by
  rintro rfl
  exact absurd hc (Bool.eq_false_iff.mp hd)

/-- Each case rules out those in front of it. -/
theorem Scanned.scanLexeme_eq (h : Scanned pos c cs l) : scanLexeme pos c cs = .ok l := by
  unfold scanLexeme
  cases h with
  | word hstart => rw [if_pos hstart]
  | escaped hp => simp only [hp]; rfl
  | dollar => rfl
  | numeral hstart hdigit =>
    have hquoted : c ≠ '\x60' := ne_of_isDigit hdigit (by decide)
    have hdollar : c ≠ '$' := ne_of_isDigit hdigit (by decide)
    simp only [hstart, Bool.false_eq_true, if_false, if_neg hquoted, if_neg hdollar, if_pos hdigit]
  | string hp =>
    show Except.map _ (scanString ⟨openingQuotes cs = 2, pos, 0⟩ [] (pos + 1 + openingQuotes cs)
      (cs.drop (openingQuotes cs))) = _
    rw [hp]
    rfl
  | pound hl => exact hl
  | sign hc hl =>
    simp only [startsSign, Bool.not_eq_true', Bool.or_eq_false_iff, beq_eq_false_iff_ne] at hc
    obtain ⟨⟨⟨⟨⟨hstart, hquoted⟩, hdollar⟩, hdigit⟩, hstring⟩, hpound⟩ := hc
    simp only [hstart, hdigit, Bool.false_eq_true, if_false, if_neg hquoted, if_neg hdollar, if_neg hstring,
      if_neg hpound, hl]

/-- **A token does not hang on what stands behind it.** -/
theorem scanLexeme_swap (h : scanLexeme pos c cs = .ok l) (hrest : Swap l.text l.rest rest) :
    ∃ ds, l.text = c :: ds ∧ scanLexeme pos c (ds ++ rest) = .ok ⟨l.kind, l.text, rest⟩ := by
  have htamer := hrest.tamer
  cases scanned_of_scanLexeme h with
  | word hstart =>
    have htext : (scanIdentifier (c :: cs)).text = c :: cs.takeWhile isIdentifierPart := by
      simp only [scanIdentifier, List.takeWhile_cons, if_pos (isIdentifierPart_of_start hstart)]
    have htamer' : Tamer rest ((c :: cs).dropWhile isIdentifierPart) := htamer
    refine ⟨cs.takeWhile isIdentifierPart, htext, ?_⟩
    rw [(Scanned.word hstart).scanLexeme_eq, ← List.cons_append, ← htext]
    simp only [scanIdentifier, takeWhile_swap isSeam_of_isIdentifierPart htamer',
      dropWhile_swap isSeam_of_isIdentifierPart htamer']
  | escaped hp => exact ⟨_, rfl, (Scanned.escaped (scanEscaped_swap hp rest)).scanLexeme_eq⟩
  | dollar =>
    refine ⟨_, rfl, ?_⟩
    rw [Scanned.dollar.scanLexeme_eq, takeWhile_swap isSeam_of_isIdentifierPart htamer,
      dropWhile_swap isSeam_of_isIdentifierPart htamer]
  | numeral hstart hdigit =>
    obtain ⟨d, ds, hds⟩ := List.exists_cons_of_ne_nil
      (show (scanNumeral (c :: cs)).text ≠ [] from scanNumeral_text_ne_nil hdigit)
    have happend := scanNumeral_append (c :: cs)
    rw [hds] at happend
    obtain ⟨rfl, -⟩ := List.cons.inj happend
    refine ⟨ds, hds, ?_⟩
    rw [(Scanned.numeral hstart hdigit).scanLexeme_eq, ← List.cons_append, ← hds, scanNumeral_swap _ htamer]
  | @string _ p hp =>
    have hcs : cs.take (openingQuotes cs) ++ p.1 ++ p.2 = cs := by
      rw [List.append_assoc, scanString_append hp]
      exact List.take_append_drop _ cs
    have hopens : ['"', '"'] <+: cs.take (openingQuotes cs) ++ (p.1 ++ rest) → ['"', '"'] <+: cs := by
      intro hstarts
      rw [← List.append_assoc] at hstarts
      exact hcs ▸ htamer.append isSeam_quotes _ hstarts
    obtain ⟨hquotes, htake, hdrop⟩ := openingQuotes_swap hopens
    have hagain : Scanned pos '"' (cs.take (openingQuotes cs) ++ (p.1 ++ rest)) _ := .string (by
      rw [hquotes, hdrop]
      exact scanString_swap hp htamer)
    refine ⟨cs.take (openingQuotes cs) ++ p.1, rfl, ?_⟩
    rw [append_assoc, hagain.scanLexeme_eq, hquotes, htake]
  | pound hl =>
    obtain ⟨ds, hds, hagain⟩ := scanPound_swap hl htamer
    exact ⟨ds, hds, (Scanned.pound hagain).scanLexeme_eq⟩
  | sign hc hl =>
    obtain ⟨ds, hds, hagain⟩ := scanPunct_swap hl hrest.puncts
    exact ⟨ds, hds, (Scanned.sign hc hagain).scanLexeme_eq⟩

/-- **A token does not hang on what is cut off behind it**, nor on where it begins. -/
theorem scanLexeme_cut (h : scanLexeme pos c cs = .ok l) (pos' : Nat) (hrest : rest <+: l.rest) :
    ∃ ds, l.text = c :: ds ∧ scanLexeme pos' c (ds ++ rest) = .ok ⟨l.kind, l.text, rest⟩ := by
  refine scanLexeme_swap (scanLexeme_at h pos') ⟨.of_isPrefix hrest, fun mark _ hmark => hmark.trans ?_⟩
  exact (prefix_append_right_inj l.text).mpr hrest

end SwiftOutline

import Mathlib.Data.List.Nodup
import SwiftOutline.Descriptor.Codec
import SwiftOutline.Proofs.Json.Reading

/-!
# `Entries` — lists of descriptors as JSON

A list of descriptors is written as entries that carry an index, and read by sorting the entries. So the
order of entries does not matter where the indexes tell them apart, and where they do not, the order of
the text decides.
-/

namespace SwiftOutline

open List

/-! ## The order of entries -/

namespace Entry

/-- `sorted` holds the entries that are given in the order of their indexes, and those of one index in
the order in which they are given. -/
structure Ranks (given sorted : List Entry) : Prop where
  perm : sorted.Perm given
  ordered : sorted.Pairwise fun a b => a.index ≤ b.index
  stable : ∀ n, sorted.filter (·.index == n) = given.filter (·.index == n)

theorem ranks_mergeSort (given : List Entry) :
    Ranks given (given.mergeSort fun a b => a.index ≤ b.index) := by
  have htrans : ∀ a b c : Entry, decide (a.index ≤ b.index) = true → decide (b.index ≤ c.index) = true →
      decide (a.index ≤ c.index) = true := by
    intro a b c hab hbc
    simp only [decide_eq_true_eq] at hab hbc ⊢
    exact Nat.le_trans hab hbc
  have htotal : ∀ a b : Entry, (decide (a.index ≤ b.index) || decide (b.index ≤ a.index)) = true := by
    intro a b
    simp only [Bool.or_eq_true, decide_eq_true_eq]
    exact Nat.le_total a.index b.index
  have hperm := mergeSort_perm given fun a b => decide (a.index ≤ b.index)
  refine ⟨hperm, ?_, ?_⟩
  · simpa using pairwise_mergeSort htrans htotal given
  · intro n
    -- entries of one index are in order already, so sorting keeps them as they are
    have hequal : (given.filter (·.index == n)).Pairwise fun a b => decide (a.index ≤ b.index) = true := by
      apply pairwise_of_forall_mem_list
      intro a ha b hb
      have ha' := (mem_filter.mp ha).2
      have hb' := (mem_filter.mp hb).2
      simp only [beq_iff_eq] at ha' hb'
      simp [ha', hb']
    have hsub := (sublist_mergeSort htrans htotal hequal filter_sublist).filter (·.index == n)
    rw [filter_filter, filter_congr (fun _ _ => Bool.and_self _)] at hsub
    exact (hsub.eq_of_length (hperm.filter _).length_eq.symm).symm

/-- Entries whose indexes rise are found again in any order of them. -/
theorem mergeSort_eq_of_perm {given sorted : List Entry} (hperm : given.Perm sorted)
    (hrising : sorted.Pairwise fun a b => a.index < b.index) :
    given.mergeSort (fun a b => a.index ≤ b.index) = sorted := by
  have hranks := ranks_mergeSort given
  have hnodup : (sorted.map Entry.index).Nodup := by
    rw [List.Nodup, pairwise_map]
    exact hrising.imp fun hlt => Nat.ne_of_lt hlt
  refine List.Perm.eq_of_pairwise ?_ hranks.ordered (hrising.imp fun hlt => Nat.le_of_lt hlt)
    (hranks.perm.trans hperm)
  intro a b ha hb hab hba
  have ha' : a ∈ sorted := (hranks.perm.trans hperm).mem_iff.mp ha
  exact inj_on_of_nodup_map hnodup ha' hb (Nat.le_antisymm hab hba)

/-- The entries of a list as they are given; a list that is missing has none. -/
def given? : Option Json → Option (List Entry)
  | none => some []
  | some list => list.list? ofJson?

theorem fieldOfJson?_eq (name : String) (j : Json) :
    fieldOfJson? name j =
      (given? (j.get? name)).map fun entries => entries.mergeSort fun a b => a.index ≤ b.index := by
  unfold fieldOfJson?
  cases j.get? name with
  | none => simp [given?]
  | some list => rfl

/-- The entries of a list, once in order, have the property. -/
def Arranged (list : Option Json) (P : List Entry → Prop) : Prop :=
  ∃ given sorted, given? list = some given ∧ Ranks given sorted ∧ P sorted

end Entry

/-! ## Reading, level by level -/

namespace Descriptor

/-- The descriptors that entries stand for. -/
def ofEntries? (entries : List Entry) : Option (List Descriptor) :=
  entries.mapM fun e => ofPayload? e.variant e.payload

/-- The descriptors in a nested list of a payload. -/
def nested? (name : String) (j : Json) : Option (List Descriptor) :=
  (Entry.fieldOfJson? name j).bind ofEntries?

theorem ofPayload?_standard (j : Json) :
    ofPayload? "standard" j = (do
      let fields ← Fields.ofJson? j
      let parameters ← nested? "parameters" j
      return .standard fields parameters) := by
  rw [ofPayload?, nested?]
  congr 1
  funext fields
  split <;> simp_all [ofEntries?]

theorem ofPayload?_tuple (j : Json) :
    ofPayload? "tuple" j = (do
      let fields ← Fields.ofJson? j
      let arguments ← nested? "arguments" j
      return .tuple fields arguments) := by
  rw [ofPayload?, nested?]
  congr 1
  funext fields
  split <;> simp_all [ofEntries?]

theorem ofPayload?_closure (j : Json) :
    ofPayload? "closure" j = (do
      let fields ← Fields.ofJson? j
      let traits ← ClosureTraits.ofJson? j
      let inputs ← nested? "inputs" j
      let outputs ← nested? "outputs" j
      return .closure fields inputs outputs traits) := by
  rw [ofPayload?, nested?, nested?]
  congr 1
  funext fields
  congr 1
  funext traits
  split
  · simp_all [ofEntries?]
  · next hnone =>
    cases hin : Entry.fieldOfJson? "inputs" j with
    | none => simp
    | some entries =>
      cases hout : Entry.fieldOfJson? "outputs" j with
      | none => simp
      | some entries' => exact absurd hout (hnone entries entries' hin)

/-- What a payload must hold to be read as a descriptor, by the variant. -/
theorem ofPayload?_eq_some {variant : String} {j : Json} {d : Descriptor}
    (h : ofPayload? variant j = some d) : match d with
    | standard f ps => variant = "standard" ∧ Fields.ofJson? j = some f ∧ nested? "parameters" j = some ps
    | tuple f args => variant = "tuple" ∧ Fields.ofJson? j = some f ∧ nested? "arguments" j = some args
    | closure f is os t => variant = "closure" ∧ Fields.ofJson? j = some f ∧
      ClosureTraits.ofJson? j = some t ∧
        nested? "inputs" j = some is ∧ nested? "outputs" j = some os := by
  by_cases hs : variant = "standard"
  · subst hs
    simp only [ofPayload?_standard, Option.bind_eq_bind, Option.bind_eq_some_iff, Option.pure_def,
      Option.some.injEq] at h
    obtain ⟨f, hf, ps, hps, rfl⟩ := h
    exact ⟨rfl, hf, hps⟩
  · by_cases ht : variant = "tuple"
    · subst ht
      simp only [ofPayload?_tuple, Option.bind_eq_bind, Option.bind_eq_some_iff, Option.pure_def,
        Option.some.injEq] at h
      obtain ⟨f, hf, args, hargs, rfl⟩ := h
      exact ⟨rfl, hf, hargs⟩
    · by_cases hc : variant = "closure"
      · subst hc
        simp only [ofPayload?_closure, Option.bind_eq_bind, Option.bind_eq_some_iff, Option.pure_def,
          Option.some.injEq] at h
        obtain ⟨f, hf, t, ht, is, his, os, hos, rfl⟩ := h
        exact ⟨rfl, hf, ht, his, hos⟩
      · -- no other variant is known
        rw [ofPayload?] at h
        · cases h
        · exact hs
        · exact ht
        · exact hc

/-! ## Lists in order -/

mutual

/-- The payload says what the descriptor says, and its lists hold their descriptors in the order of the
indexes, those of one index as they are given. -/
def ReadFrom (variant : String) (j : Json) : Descriptor → Prop
  | standard f ps =>
    variant = "standard" ∧ Fields.ofJson? j = some f ∧
      Entry.Arranged (j.get? "parameters") fun sorted => EachReadFrom sorted ps
  | tuple f args =>
    variant = "tuple" ∧ Fields.ofJson? j = some f ∧
      Entry.Arranged (j.get? "arguments") fun sorted => EachReadFrom sorted args
  | closure f is os t =>
    variant = "closure" ∧ Fields.ofJson? j = some f ∧ ClosureTraits.ofJson? j = some t ∧
      (Entry.Arranged (j.get? "inputs") fun sorted => EachReadFrom sorted is) ∧
      (Entry.Arranged (j.get? "outputs") fun sorted => EachReadFrom sorted os)

/-- Each entry is read as one descriptor. -/
def EachReadFrom : List Entry → List Descriptor → Prop
  | [], [] => True
  | e :: entries, d :: ds => d.ReadFrom e.variant e.payload ∧ EachReadFrom entries ds
  | _, _ => False

end

theorem EachReadFrom.length_eq : {entries : List Entry} → {ds : List Descriptor} → EachReadFrom entries ds →
    entries.length = ds.length
  | [], [], _ => rfl
  | _ :: _, _ :: _, h => by
    rw [EachReadFrom] at h
    simp [h.2.length_eq]
  | [], _ :: _, h => by simp [EachReadFrom] at h
  | _ :: _, [], h => by simp [EachReadFrom] at h

/-- A nested list is in order if its entries are read one by one. -/
theorem arranged_of_nested? {ds : List Descriptor}
    (hread : ∀ {entries}, ofEntries? entries = some ds → EachReadFrom entries ds) {name : String} {j : Json}
    (h : nested? name j = some ds) : Entry.Arranged (j.get? name) fun sorted => EachReadFrom sorted ds := by
  rw [nested?, Entry.fieldOfJson?_eq] at h
  obtain ⟨sorted, hsorted, hds⟩ := Option.bind_eq_some_iff.mp h
  obtain ⟨given, hgiven, rfl⟩ := Option.map_eq_some_iff.mp hsorted
  exact ⟨given, _, hgiven, Entry.ranks_mergeSort given, hread hds⟩

mutual

/-- **Reading puts every list in order.** -/
theorem readFrom_of_ofPayload? : (d : Descriptor) → {variant : String} → {j : Json} →
    ofPayload? variant j = some d → d.ReadFrom variant j
  | standard f ps, variant, j, h => by
    obtain ⟨hv, hf, hps⟩ := ofPayload?_eq_some h
    rw [ReadFrom]
    exact ⟨hv, hf, arranged_of_nested? (eachReadFrom_of_ofEntries? ps) hps⟩
  | tuple f args, variant, j, h => by
    obtain ⟨hv, hf, hargs⟩ := ofPayload?_eq_some h
    rw [ReadFrom]
    exact ⟨hv, hf, arranged_of_nested? (eachReadFrom_of_ofEntries? args) hargs⟩
  | closure f is os t, variant, j, h => by
    obtain ⟨hv, hf, ht, his, hos⟩ := ofPayload?_eq_some h
    rw [ReadFrom]
    exact ⟨hv, hf, ht, arranged_of_nested? (eachReadFrom_of_ofEntries? is) his,
      arranged_of_nested? (eachReadFrom_of_ofEntries? os) hos⟩

theorem eachReadFrom_of_ofEntries? : (ds : List Descriptor) → {entries : List Entry} →
    ofEntries? entries = some ds → EachReadFrom entries ds
  | [], entries, h => by
    cases Json.mapM_eq_some_iff.mp h
    simp [EachReadFrom]
  | d :: ds, entries, h => by
    cases Json.mapM_eq_some_iff.mp h with
    | cons hd hds =>
      rw [EachReadFrom]
      exact ⟨readFrom_of_ofPayload? d hd, eachReadFrom_of_ofEntries? ds (Json.mapM_eq_some_iff.mpr hds)⟩

end

/-! ## Lists that can be numbered -/

mutual

/-- Each list inside the descriptor is short enough for its entries to be numbered, as every list in
memory is. -/
def Fits : Descriptor → Prop
  | standard _ ps => ps.length ≤ wordBound ∧ EachFits ps
  | tuple _ args => args.length ≤ wordBound ∧ EachFits args
  | closure _ is os _ => (is.length ≤ wordBound ∧ EachFits is) ∧ os.length ≤ wordBound ∧ EachFits os

def EachFits : List Descriptor → Prop
  | [] => True
  | d :: ds => d.Fits ∧ EachFits ds

end

/-- The list is short enough for its entries to be numbered, and so are the lists inside. -/
def ListFits (ds : List Descriptor) : Prop := ds.length ≤ wordBound ∧ EachFits ds

end Descriptor

/-! ## Rearranged lists -/

/-- The names of the fields of a descriptor that hold lists of descriptors. -/
def nestedLists : List String := ["parameters", "arguments", "inputs", "outputs"]

/-- What a JSON value stands for: a list of entries, or the payload of one of them. -/
inductive EntryPart where
  | entries
  | payload

/-- The second value is the first one rearranged. The entries of a list may stand in any order, in a
nested list as well. A nested list that is empty and a field that is `null` may be left out. -/
inductive Rearranged : EntryPart → Json → Json → Prop
  | nil : Rearranged .entries (.arr []) (.arr [])
  | entry {kind index p q : Json} {es fs : List Json} (hpayload : Rearranged .payload p q)
      (hrest : Rearranged .entries (.arr es) (.arr fs)) :
      Rearranged .entries (.arr (.obj [("kind", kind), ("index", index), ("payload", p)] :: es))
        (.arr (.obj [("kind", kind), ("index", index), ("payload", q)] :: fs))
  | perm {j : Json} {fs gs : List Json} (h : Rearranged .entries j (.arr fs)) (hperm : gs.Perm fs) :
      Rearranged .entries j (.arr gs)
  | noFields : Rearranged .payload (.obj []) (.obj [])
  | keep {fs gs : List (String × Json)} (name : String) (value : Json)
      (h : Rearranged .payload (.obj fs) (.obj gs)) :
      Rearranged .payload (.obj ((name, value) :: fs)) (.obj ((name, value) :: gs))
  | inside {fs gs : List (String × Json)} {name : String} {j k : Json} (hname : name ∈ nestedLists)
      (hlist : Rearranged .entries j k) (h : Rearranged .payload (.obj fs) (.obj gs)) :
      Rearranged .payload (.obj ((name, j) :: fs)) (.obj ((name, k) :: gs))
  | dropEmpty {fs gs : List (String × Json)} {name : String} (hname : name ∈ nestedLists)
      (h : Rearranged .payload (.obj fs) (.obj gs)) :
      Rearranged .payload (.obj ((name, .arr []) :: fs)) (.obj gs)
  | dropNull {fs gs : List (String × Json)} (name : String) (h : Rearranged .payload (.obj fs) (.obj gs)) :
      Rearranged .payload (.obj ((name, .null) :: fs)) (.obj gs)

namespace Rearranged

/-- An entry with its payload rearranged. -/
def OfEntry (e f : Json) : Prop :=
  ∃ kind index p q, e = .obj [("kind", kind), ("index", index), ("payload", p)] ∧
    f = .obj [("kind", kind), ("index", index), ("payload", q)] ∧ Rearranged .payload p q

/-- A rearranged list holds its entries, each rearranged inside, in some order. -/
theorem exists_perm {j k : Json} (h : Rearranged .entries j k) :
    ∃ es fs gs, j = .arr es ∧ k = .arr gs ∧ List.Forall₂ OfEntry es fs ∧ gs.Perm fs := by
  generalize hpart : EntryPart.entries = part at h
  induction h with
  | nil => exact ⟨[], [], [], rfl, rfl, .nil, .nil⟩
  | entry hpayload _ _ ih =>
    obtain ⟨es, fs, gs, hes, hgs, hall, hperm⟩ := ih rfl
    cases hes
    cases hgs
    exact ⟨_, _, _, rfl, rfl, .cons ⟨_, _, _, _, rfl, rfl, hpayload⟩ hall, hperm.cons _⟩
  | perm _ hperm' ih =>
    obtain ⟨es, fs, gs, rfl, hgs, hall, hperm⟩ := ih rfl
    cases hgs
    exact ⟨es, fs, _, rfl, rfl, hall, hperm'.trans hperm⟩
  | noFields | keep | inside | dropEmpty | dropNull => cases hpart

/-- What may become of a field. -/
def Kept (name : String) (before after : Option Json) : Prop :=
  after = before ∨ (before = some .null ∧ after = none) ∨
    (name ∈ nestedLists ∧ ∃ j, before = some j ∧
      (j = .arr [] ∧ after = none ∨ ∃ k, after = some k ∧ Rearranged .entries j k))

variable {name : String} {fs : List (String × Json)}

/-- Nothing comes of a field that is not there. -/
theorem Kept.eq_none {after : Option Json} (h : Kept name none after) : after = none := by
  rcases h with h | ⟨h, -⟩ | ⟨-, j, h, -⟩
  · exact h
  · cases h
  · cases h

/-- A field that may be left out, in front of fields of other names. -/
theorem Kept.of_dropped {key : String} {value : Json} {after : Option Json}
    (hdrop : Kept key (some value) none) (hkey : key ∉ fs.map Prod.fst)
    (h : Kept name ((Json.obj fs).get? name) after) :
    Kept name ((Json.obj ((key, value) :: fs)).get? name) after := by
  by_cases hname : name = key
  · -- no other field has this name, so there is none left
    subst hname
    rw [Json.get?_eq_none hkey] at h
    rw [Json.get?_cons_self, h.eq_none]
    exact hdrop
  · rw [Json.get?_cons_of_ne hname]
    exact h

/-- A field that stays in front. -/
theorem Kept.of_cons {key : String} {value value' : Json} {gs : List (String × Json)}
    (hstay : Kept key (some value) (some value'))
    (h : Kept name ((Json.obj fs).get? name) ((Json.obj gs).get? name)) :
    Kept name ((Json.obj ((key, value) :: fs)).get? name) ((Json.obj ((key, value') :: gs)).get? name) := by
  by_cases hname : name = key
  · subst hname
    rw [Json.get?_cons_self, Json.get?_cons_self]
    exact hstay
  · rw [Json.get?_cons_of_ne hname, Json.get?_cons_of_ne hname]
    exact h

/-- **Each field is kept**, is rearranged inside, or could be left out. -/
theorem get?_kept {k : Json} (h : Rearranged .payload (.obj fs) k) (hnodup : (fs.map Prod.fst).Nodup)
    (name : String) : Kept name ((Json.obj fs).get? name) (k.get? name) := by
  generalize hpart : EntryPart.payload = part at h
  generalize hj : Json.obj fs = j at h
  induction h generalizing fs with
  | noFields => exact .inl rfl
  | keep key value _ ih =>
    cases hj
    exact .of_cons (.inl rfl) (ih hnodup.of_cons hpart rfl)
  | inside hkey hlist _ _ ih =>
    cases hj
    exact .of_cons (.inr (.inr ⟨hkey, _, rfl, .inr ⟨_, rfl, hlist⟩⟩)) (ih hnodup.of_cons hpart rfl)
  | dropEmpty hkey _ ih =>
    cases hj
    exact .of_dropped (.inr (.inr ⟨hkey, _, rfl, .inl ⟨rfl, rfl⟩⟩)) hnodup.notMem
      (ih hnodup.of_cons hpart rfl)
  | dropNull key _ ih =>
    cases hj
    exact .of_dropped (.inr (.inl ⟨rfl, rfl⟩)) hnodup.notMem (ih hnodup.of_cons hpart rfl)
  | nil | entry | perm => cases hpart

/-! ### What is read from a rearranged payload -/

section

variable {j k : Json} (h : ∀ name, Kept name (j.get? name) (k.get? name))
include h

theorem field?_eq {α : Type} {name : String} {read : Json → Option α} (hname : name ∉ nestedLists)
    (hnull : read .null = none) : k.field? name read = j.field? name read := by
  rw [Json.field?, Json.field?]
  rcases h name with heq | ⟨hbefore, hafter⟩ | ⟨hlist, -⟩
  · rw [heq]
  · rw [hbefore, hafter]
    exact hnull.symm
  · exact absurd hlist hname

theorem optionalField?_eq {α : Type} {name : String} {read : Json → Option α} (hname : name ∉ nestedLists) :
    k.optionalField? name read = j.optionalField? name read := by
  rw [Json.optionalField?, Json.optionalField?]
  rcases h name with heq | ⟨hbefore, hafter⟩ | ⟨hlist, -⟩
  · rw [heq]
  · rw [hbefore, hafter]
  · exact absurd hlist hname

theorem fields_eq : Fields.ofJson? k = Fields.ofJson? j := by
  unfold Fields.ofJson?
  simp (disch := decide) only [field?_eq h, optionalField?_eq h]

theorem closureTraits_eq : ClosureTraits.ofJson? k = ClosureTraits.ofJson? j := by
  unfold ClosureTraits.ofJson?
  simp (disch := decide) only [field?_eq h]

end

/-- Fields in front may stay as they are. -/
theorem keep_append (fs : List (String × Json)) {gs hs : List (String × Json)}
    (h : Rearranged .payload (.obj gs) (.obj hs)) :
    Rearranged .payload (.obj (fs ++ gs)) (.obj (fs ++ hs)) := by
  induction fs with
  | nil => exact h
  | cons field fs ih => exact .keep field.1 field.2 ih

theorem refl_payload (fs : List (String × Json)) : Rearranged .payload (.obj fs) (.obj fs) := by
  simpa using keep_append fs .noFields

end Rearranged

/-! ## Reading what was written -/

theorem Fields.ofJson?_toFields (f : Fields) (rest : List (String × Json)) :
    Fields.ofJson? (.obj (f.toFields ++ rest)) = some f := by
  simp [Fields.ofJson?, Fields.toFields]

theorem ClosureTraits.ofJson?_toFields (t : ClosureTraits) (f : Fields) (is os : Json) :
    ClosureTraits.ofJson? (.obj (f.toFields ++ ("inputs", is) :: ("outputs", os) :: t.toFields)) =
      some t := by
  simp [ClosureTraits.ofJson?, ClosureTraits.toFields, Fields.toFields]

theorem Entry.ofJson?_obj {variant : String} {index : Nat} (h : index < wordBound) (payload : Json) :
    Entry.ofJson? (.obj [("kind", .str variant), ("index", .nat index), ("payload", payload)]) =
      some ⟨variant, index, payload⟩ := by
  simp [Entry.ofJson?, Json.natural?_nat h, Json.get?_cons_of_ne, Json.get?_cons_self]

namespace Descriptor

theorem rearranged_refl (index : Nat) (ds : List Descriptor) :
    Rearranged .entries (.arr (entriesFrom index ds)) (.arr (entriesFrom index ds)) := by
  induction ds generalizing index with
  | nil =>
    rw [entriesFrom]
    exact .nil
  | cons d ds ih =>
    rw [entriesFrom]
    refine .entry ?_ (ih (index + 1))
    cases d <;> rw [payload] <;> exact Rearranged.refl_payload _

/-- Entries, with their payloads rearranged but in their own order, are read as the descriptors that they
were written for. -/
def ReadBack (ds : List Descriptor) : Prop :=
  ∀ ⦃index : Nat⦄ ⦃fs : List Json⦄, index + ds.length ≤ wordBound →
    List.Forall₂ Rearranged.OfEntry (entriesFrom index ds) fs →
    ∃ entries, fs.mapM Entry.ofJson? = some entries ∧ (∀ e ∈ entries, index ≤ e.index) ∧
      entries.Pairwise (fun a b => a.index < b.index) ∧ ofEntries? entries = some ds

variable {ds : List Descriptor}

/-- Entries that are read back in their own order are read back in any order. -/
theorem ReadBack.listOfJson? (hds : ReadBack ds) (hfit : ds.length ≤ wordBound) {list : Json}
    (h : Rearranged .entries (listToJson ds) list) : Descriptor.listOfJson? list = some ds := by
  obtain ⟨es, fs, gs, hes, rfl, hall, hperm⟩ := h.exists_perm
  cases hes
  obtain ⟨entries, hentries, -, hrising, hread⟩ := hds (by simpa using hfit) hall
  obtain ⟨given, hgiven, hperm'⟩ := Json.mapM_of_perm hperm hentries
  have hlist : (Json.arr gs).list? Entry.ofJson? = some given := hgiven
  rw [Descriptor.listOfJson?, Entry.listOfJson?, hlist, Option.map_some,
    Entry.mergeSort_eq_of_perm hperm' hrising]
  exact hread

/-- A nested list is read back, also if it was left out. -/
theorem ReadBack.nested? (hds : ReadBack ds) (hfit : ds.length ≤ wordBound) {name : String} {j k : Json}
    (hkept : Rearranged.Kept name (j.get? name) (k.get? name)) (hj : j.get? name = some (listToJson ds)) :
    Descriptor.nested? name k = some ds := by
  have hpresent : ∀ list, k.get? name = some list →
      Descriptor.nested? name k = Descriptor.listOfJson? list := by
    intro list hlist
    rw [Descriptor.nested?, Entry.fieldOfJson?, hlist]
    rfl
  rw [hj] at hkept
  rcases hkept with heq | ⟨hnull, -⟩ | ⟨-, list, hlist, ⟨hempty, hnone⟩ | ⟨list', hlist', hrearranged⟩⟩
  · rw [hpresent _ heq]
    exact hds.listOfJson? hfit (rearranged_refl 0 ds)
  · cases hnull
  · -- the list was left out, so there is nothing in it
    cases hlist
    have hnil : ds = [] := by
      cases ds with
      | nil => rfl
      | cons d ds => simp [listToJson, entriesFrom] at hempty
    subst hnil
    rw [Descriptor.nested?, Entry.fieldOfJson?, hnone]
    rfl
  · cases hlist
    rw [hpresent _ hlist']
    exact hds.listOfJson? hfit hrearranged

mutual

/-- **A rearranged payload is read as the descriptor it was written for.** -/
theorem ofPayload?_rearranged : (d : Descriptor) → d.Fits → {k : Json} → Rearranged .payload d.payload k →
    ofPayload? d.variant k = some d
  | standard f ps, hfit, k, h => by
    rw [payload] at h
    rw [Fits] at hfit
    have hkept := Rearranged.get?_kept h (by simp [Fields.toFields])
    have hps := (readBack_of_fits ps hfit.2).nested? hfit.1 (hkept "parameters")
      (by simp [Fields.toFields, listToJson, Json.get?_cons_of_ne, Json.get?_cons_self])
    simp [variant, ofPayload?_standard, Rearranged.fields_eq hkept, Fields.ofJson?_toFields, hps]
  | tuple f args, hfit, k, h => by
    rw [payload] at h
    rw [Fits] at hfit
    have hkept := Rearranged.get?_kept h (by simp [Fields.toFields])
    have hargs := (readBack_of_fits args hfit.2).nested? hfit.1 (hkept "arguments")
      (by simp [Fields.toFields, listToJson, Json.get?_cons_of_ne, Json.get?_cons_self])
    simp [variant, ofPayload?_tuple, Rearranged.fields_eq hkept, Fields.ofJson?_toFields, hargs]
  | closure f is os t, hfit, k, h => by
    rw [payload] at h
    rw [Fits] at hfit
    have hkept := Rearranged.get?_kept h (by simp [Fields.toFields, ClosureTraits.toFields])
    have his := (readBack_of_fits is hfit.1.2).nested? hfit.1.1 (hkept "inputs")
      (by simp [Fields.toFields, listToJson, Json.get?_cons_of_ne, Json.get?_cons_self])
    have hos := (readBack_of_fits os hfit.2.2).nested? hfit.2.1 (hkept "outputs")
      (by simp [Fields.toFields, listToJson, Json.get?_cons_of_ne, Json.get?_cons_self])
    simp [variant, ofPayload?_closure, Rearranged.fields_eq hkept, Rearranged.closureTraits_eq hkept,
      Fields.ofJson?_toFields, ClosureTraits.ofJson?_toFields, his, hos]

theorem readBack_of_fits : (ds : List Descriptor) → EachFits ds → ReadBack ds
  | [], _, index, fs, _, h => by
    rw [entriesFrom] at h
    cases h
    exact ⟨[], rfl, by simp, .nil, rfl⟩
  | d :: ds, hfit, index, fs, hindex, h => by
    rw [entriesFrom] at h
    rw [EachFits] at hfit
    rw [length_cons] at hindex
    cases h with
    | cons hentry hrest =>
      obtain ⟨kind, number, p, q, heq, rfl, hpayload⟩ := hentry
      cases heq
      obtain ⟨entries, hentries, hfrom, hrising, hds⟩ := readBack_of_fits ds hfit.2 (by omega) hrest
      have hread : Entry.ofJson? (.obj [("kind", .str d.variant), ("index", .nat index), ("payload", q)]) =
          some ⟨d.variant, index, q⟩ := Entry.ofJson?_obj (by omega) q
      refine ⟨⟨d.variant, index, q⟩ :: entries, ?_, ?_, ?_, ?_⟩
      · simp [hread, hentries]
      · intro e he
        rcases mem_cons.mp he with rfl | he
        · exact Nat.le_refl index
        · exact Nat.le_of_succ_le (hfrom e he)
      · exact .cons (fun e he => hfrom e he) hrising
      · have hd := ofPayload?_rearranged d hfit.1 hpayload
        rw [ofEntries?] at hds
        simp [ofEntries?, hd, hds]

end

theorem listOfJson?_listToJson (h : ListFits ds) : listOfJson? (listToJson ds) = some ds :=
  (readBack_of_fits ds h.2).listOfJson? h.1 (rearranged_refl 0 ds)

theorem ofJson?_toJson {d : Descriptor} (h : d.Fits) : ofJson? d.toJson = some d := by
  have hpayload : Rearranged .payload d.payload d.payload := by
    cases d <;> rw [payload] <;> exact Rearranged.refl_payload _
  simp [ofJson?, toJson, Json.get?_cons_of_ne, Json.get?_cons_self, ofPayload?_rearranged d h hpayload]

/-- **Reading undoes writing in any order.** A list of descriptors is read back from every rearrangement
    of what it is written as. Whatever a list is read from, it holds one descriptor for each entry, in
    order at every level, and it is read back when it is written. -/
theorem entries_read_in_any_order :
    (∀ ds v, ListFits ds → Rearranged .entries (listToJson ds) v → listOfJson? v = some ds) ∧
      ∀ v ds, listOfJson? v = some ds →
        (∃ items, v = .arr items ∧ ds.length = items.length) ∧
        (Entry.Arranged (some v) fun sorted => EachReadFrom sorted ds) ∧
        (ListFits ds → listOfJson? (listToJson ds) = some ds) := by
  refine ⟨fun ds v hfit h => (readBack_of_fits ds hfit.2).listOfJson? hfit.1 h, ?_⟩
  intro v ds h
  have hread : Entry.Arranged (some v) fun sorted => EachReadFrom sorted ds := by
    obtain ⟨sorted, hsorted, hds⟩ := Option.bind_eq_some_iff.mp h
    obtain ⟨given, hgiven, rfl⟩ := Option.map_eq_some_iff.mp hsorted
    exact ⟨given, _, hgiven, Entry.ranks_mergeSort given, eachReadFrom_of_ofEntries? ds hds⟩
  refine ⟨?_, hread, listOfJson?_listToJson⟩
  obtain ⟨given, sorted, hgiven, hranks, hall⟩ := hread
  obtain ⟨items, hitems, hmap⟩ := Option.bind_eq_some_iff.mp hgiven
  cases v with
  | arr items' =>
    cases hitems
    refine ⟨items, rfl, ?_⟩
    rw [← hall.length_eq, hranks.perm.length_eq, (Json.mapM_eq_some_iff.mp hmap).length_eq]
  | null | bool | num | str | obj => cases hitems

/-- Two entries, and the two arguments of the tuple among them, come back from the wrong order. The plain
types come without their empty lists, and one of them without a default argument. -/
theorem entries_read_in_any_order_swapped :
    let entry (kind : String) (index : Nat) (payload : List (String × Json)) : Json :=
      .obj [("kind", .str kind), ("index", .nat index), ("payload", .obj payload)]
    let plain (type : String) := (Fields.ofType type).toFields
    let v : Json := .arr [entry "standard" 1 ((plain "C").take 5 ++ (plain "C").drop 6),
      entry "tuple" 0 (plain "(A, B)" ++
        [("arguments", .arr [entry "standard" 1 (plain "B"), entry "standard" 0 (plain "A")])])]
    let ds := [.tuple (Fields.ofType "(A, B)") [.ofType "A", .ofType "B"], .ofType "C"]
    ListFits ds ∧ Rearranged .entries (listToJson ds) v ∧ listOfJson? v = some ds ∧
      listOfJson? (listToJson ds) = some ds := by
  intro entry plain v ds
  have hfit : ListFits ds := by
    simp [ds, ListFits, EachFits, Fits, ofType, wordBound]
  have hplain : ∀ type, Rearranged .payload (ofType type).payload (.obj (plain type)) := by
    intro type
    rw [ofType, payload]
    simpa [plain, entriesFrom] using Rearranged.keep_append (plain type) (.dropEmpty (by decide) .noFields)
  have hC : Rearranged .payload (ofType "C").payload (.obj ((plain "C").take 5 ++ (plain "C").drop 6)) := by
    rw [ofType, payload, entriesFrom]
    exact Rearranged.keep_append ((plain "C").take 5) (.dropNull "default_argument"
      (Rearranged.keep_append ((plain "C").drop 6) (.dropEmpty (by decide) .noFields)))
  have harguments : Rearranged .entries (.arr (entriesFrom 0 [ofType "A", ofType "B"]))
      (.arr [entry "standard" 1 (plain "B"), entry "standard" 0 (plain "A")]) := by
    simp only [entriesFrom]
    exact .perm (.entry (hplain "A") (.entry (hplain "B") .nil)) (.swap _ _ _)
  have htuple : Rearranged .payload (tuple (Fields.ofType "(A, B)") [ofType "A", ofType "B"]).payload
      (.obj (plain "(A, B)" ++
        [("arguments", .arr [entry "standard" 1 (plain "B"), entry "standard" 0 (plain "A")])])) := by
    rw [payload]
    exact Rearranged.keep_append (plain "(A, B)") (.inside (by decide) harguments .noFields)
  have hv : Rearranged .entries (listToJson ds) v := by
    simp only [ds, listToJson, entriesFrom]
    exact .perm (.entry htuple (.entry hC .nil)) (.swap _ _ _)
  have hread : listOfJson? v = some ds := entries_read_in_any_order.1 ds v hfit hv
  exact ⟨hfit, hv, hread, (entries_read_in_any_order.2 v ds hread).2.2 hfit⟩

end Descriptor
end SwiftOutline

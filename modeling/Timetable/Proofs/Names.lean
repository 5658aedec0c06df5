import Timetable.Proofs.Agreement
import Timetable.Proofs.Denotation
import Timetable.Proofs.Renaming
import Timetable.Proofs.RoundTrip

/-!
# Names are spellings

Months and days of the week have names, several for each, and letter case means nothing in them.  An
expression ends alike whichever of its spellings a name has.  An accepted expression stands for the
same fields when numerals take the places of all names in it.  The converse of that fails: `4/2` is
a period, and `Wed/2` is nothing.

A name comes alone or at both ends of a range.  Numerals must take the places of both names then,
which is why all names of a term are exchanged for names or all of them for numerals.

## Main definitions

* `TimeUnit.Synonyms`, `TimeUnit.Numeralizes`: what may take the place of a name in a unit.
* `Expression.Respelled`: an expression with its names spelled differently.
* `Expression.Numbered`: an expression with numerals in the places of its names.

## Main statements

* `Field.Spelled.exists_alike`: with its names exchanged a text spells a field that is alike.
* `Fields.parse_names`: names are spellings.
-/

namespace Timetable

/-! ## In the place of a name -/

namespace TimeUnit

/-- Names that stand for the same ordinal of a unit or both for none. -/
structure Synonyms (u : TimeUnit) (n m : Text) : Prop where
  isName_left : n.isName = true
  isName_right : m.isName = true
  ordinalOfName?_eq : u.ordinalOfName? m = u.ordinalOfName? n

/-- A name that stands for an ordinal of a unit, and a numeral of this ordinal. -/
def Numeralizes (u : TimeUnit) (n m : Text) : Prop :=
  ∃ v : Nat, u.ordinalOfName? n = some (v : Int) ∧ Text.Numeral.Spelled v m

/-- Whatever `Q` puts in the places of some names are synonyms of them, or numerals of them all. -/
def Translates (u : TimeUnit) (Q : Text → Text → Prop) (names : List Text) : Prop :=
  (∀ n ∈ names, ∀ m, Q n m → u.Synonyms n m) ∨ ∀ n ∈ names, ∀ m, Q n m → u.Numeralizes n m

variable {u : TimeUnit} {n m : Text} {Q : Text → Text → Prop}

theorem Synonyms.symm (h : u.Synonyms n m) : u.Synonyms m n where
  isName_left := h.isName_right
  isName_right := h.isName_left
  ordinalOfName?_eq := h.ordinalOfName?_eq.symm

theorem Synonyms.agrees (h : u.Synonyms n m) :
    Agrees Eq (u.ordinalOfName n) (u.ordinalOfName m) := by
  rw [ordinalOfName, ordinalOfName, h.ordinalOfName?_eq]
  cases u.ordinalOfName? n with
  | none => exact .error rfl
  | some v => exact .refl _

theorem translates_synonyms (names : List Text) : u.Translates u.Synonyms names :=
  .inl fun _ _ _ h => h

end TimeUnit

/-! ## The names of a term -/

/-- The names at the ends of a base. -/
def Base.names : Base → List Text
  | namedRange s t => [s, t]
  | _ => []

/-- The names in a term. -/
def Term.names : Term → List Text
  | base b => b.names
  | name s => [s]
  | period b _ => b.names

section Resolution

variable {u : TimeUnit} {n : Text} {xs : List Int}

/-- What has ordinals in a unit has known names only. -/
theorem Base.known_of_ordinals {b : Base} (h : b.ordinals u = .ok xs) (hn : n ∈ b.names) :
    ∃ v, u.ordinalOfName? n = some v := by
  cases b with
  | namedRange s t =>
    obtain ⟨first, hfirst, h⟩ := bind_eq_ok_iff.1 h
    obtain ⟨last, hlast, -⟩ := bind_eq_ok_iff.1 h
    rcases List.mem_pair.1 hn with rfl | rfl
    · exact ⟨first, TimeUnit.ordinalOfName_eq_ok_iff.1 hfirst⟩
    · exact ⟨last, TimeUnit.ordinalOfName_eq_ok_iff.1 hlast⟩
  | _ => cases hn

theorem Term.known_of_ordinals {a : Term} (h : a.ordinals u = .ok xs) (hn : n ∈ a.names) :
    ∃ v, u.ordinalOfName? n = some v := by
  cases a with
  | base b => exact Base.known_of_ordinals h hn
  | name s =>
    obtain ⟨v, hv, -⟩ := bind_eq_ok_iff.1 h
    obtain rfl := List.mem_singleton.1 hn
    exact ⟨v, TimeUnit.ordinalOfName_eq_ok_iff.1 hv⟩
  | period b k =>
    obtain ⟨reach, hreach, -⟩ := bind_eq_ok_iff.1 h
    cases b with
    | point _ => cases hn
    | _ =>
      rw [Base.reach_eq_ordinals rfl] at hreach
      exact Base.known_of_ordinals hreach hn

/-- A range of names is alike one of synonyms. -/
theorem Base.alike_namedRange {s t s' t' : Text} (hs : u.Synonyms s s') (ht : u.Synonyms t t') :
    (namedRange s t).Alike u (.namedRange s' t') := by
  have hordinals : Agrees Eq ((namedRange s t).ordinals u) ((namedRange s' t').ordinals u) :=
    hs.agrees.bind_same fun _ => ht.agrees.bind_same fun _ => .refl _
  exact ⟨hordinals, hordinals, by simp⟩

/-- A range of names is alike one of numerals. -/
theorem Base.alike_range {s t : Text} {v w : Int} (hs : u.ordinalOfName? s = some v)
    (ht : u.ordinalOfName? t = some w) : (namedRange s t).Alike u (.range v w) := by
  have hordinals : (namedRange s t).ordinals u = (range v w).ordinals u := by
    simp only [ordinals, TimeUnit.ordinalOfName_eq_ok_iff.2 hs,
      TimeUnit.ordinalOfName_eq_ok_iff.2 ht, bind, Except.bind]
  have hagrees : Agrees Eq ((namedRange s t).ordinals u) ((range v w).ordinals u) :=
    hordinals ▸ .refl _
  exact ⟨hagrees, hagrees, by simp⟩

theorem Term.alike_name {s t : Text} (h : u.Synonyms s t) : (name s).Alike u (.name t) where
  ordinals := h.agrees.bind_same fun _ => .refl _
  all_iff := by simp

theorem Term.alike_point {s : Text} {v : Int} (h : u.ordinalOfName? s = some v) :
    (name s).Alike u (.base (.point v)) where
  ordinals := by
    simp only [ordinals, TimeUnit.ordinalOfName_eq_ok_iff.2 h, bind, Except.bind]
    exact .refl _
  all_iff := by simp

end Resolution

/-! ## Texts with their names exchanged -/

section Texts

variable {anyMark : Bool} {u : TimeUnit} {Q : Text → Text → Prop} {s t : Text}

theorem Text.Numeral.Spelled.isAlpha_eq_false {k : Nat} (h : Numeral.Spelled k s) :
    ∀ c ∈ s, c.isAlpha = false := by
  intro c hc
  rw [Bool.eq_false_iff]
  intro halpha
  have hlo := toNat_of_isAlpha halpha
  have hhi := toNat_of_isDigit (h.isDigit c hc)
  omega

/-- With its names exchanged the text of a base spells one that is alike. -/
theorem Base.Spelled.exists_alike {b : Base} (h : b.Spelled anyMark s) (hQ : u.Translates Q b.names)
    (ht : Text.Renamed (fun _ => Q) s t) : ∃ c : Base, c.Spelled anyMark t ∧ b.Alike u c := by
  have hsame : (∀ c ∈ s, c.isAlpha = false) → ∃ c : Base, c.Spelled anyMark t ∧ b.Alike u c := by
    intro hs
    rw [ht.eq_of_isAlpha_eq_false hs]
    exact ⟨b, h, .refl b⟩
  cases h with
  | all => exact hsame (List.forall_mem_singleton.2 rfl)
  | any _ => exact hsame (List.forall_mem_singleton.2 rfl)
  | point hs => exact hsame hs.isAlpha_eq_false
  | range hm hn =>
    apply hsame
    rw [List.forall_mem_append, List.forall_mem_cons]
    exact ⟨hm.isAlpha_eq_false, by decide, hn.isAlpha_eq_false⟩
  | namedRange hm hn =>
    obtain ⟨m', n', rfl, hm', hn'⟩ := Text.Renamed.append_cons (by decide) ht
    have hm' := hm'.of_isName hm
    have hn' := hn'.of_isName hn
    rcases hQ with hQ | hQ
    · have hfirst := hQ _ (by simp [names]) _ hm'
      have hlast := hQ _ (by simp [names]) _ hn'
      exact ⟨_, .namedRange hfirst.isName_right hlast.isName_right, alike_namedRange hfirst hlast⟩
    · obtain ⟨v, hv, hfirst⟩ := hQ _ (by simp [names]) _ hm'
      obtain ⟨w, hw, hlast⟩ := hQ _ (by simp [names]) _ hn'
      exact ⟨_, .range hfirst hlast, alike_range hv hw⟩

/-- With its names exchanged the text of a term spells one that is alike. -/
theorem Term.Spelled.exists_alike {a : Term} (h : a.Spelled anyMark s) (hQ : u.Translates Q a.names)
    (ht : Text.Renamed (fun _ => Q) s t) : ∃ b : Term, b.Spelled anyMark t ∧ a.Alike u b := by
  cases h with
  | base hb =>
    obtain ⟨c, hc, halike⟩ := hb.exists_alike hQ ht
    exact ⟨_, .base hc, halike.term⟩
  | name hs =>
    have ht := ht.of_isName hs
    rcases hQ with hQ | hQ
    · have hsynonyms := hQ _ (by simp [names]) _ ht
      exact ⟨_, .name hsynonyms.isName_right, alike_name hsynonyms⟩
    · obtain ⟨v, hv, hnumeral⟩ := hQ _ (by simp [names]) _ ht
      exact ⟨_, .base (.point hnumeral), alike_point hv⟩
  | period hb hk hpos =>
    obtain ⟨s', k', rfl, hs', hk'⟩ := Text.Renamed.append_cons (by decide) ht
    obtain ⟨c, hc, halike⟩ := hb.exists_alike hQ hs'
    rw [hk'.eq_of_isAlpha_eq_false hk.isAlpha_eq_false]
    exact ⟨_, .period hc hk hpos, halike.period (Int.natCast_pos.2 hpos)⟩

theorem Term.exists_alike_of_intercalate {terms : List Term} {pieces : List Text}
    (h : List.Forall₂ (Term.Spelled anyMark) terms pieces) (hne : pieces ≠ [])
    (hQ : ∀ a ∈ terms, u.Translates Q a.names)
    (ht : Text.Renamed (fun _ => Q) ([','].intercalate pieces) t) :
    ∃ terms' pieces', t = [','].intercalate pieces' ∧ pieces' ≠ [] ∧
      List.Forall₂ (Term.Spelled anyMark) terms' pieces' ∧
      List.Forall₂ (Term.Alike u) terms terms' := by
  induction h generalizing t with
  | nil => exact absurd rfl hne
  | @cons a piece terms pieces ha hterms ih =>
    obtain ⟨hQa, hQ⟩ := List.forall_mem_cons.1 hQ
    cases hterms with
    | nil =>
      rw [List.intercalate_singleton] at ht
      obtain ⟨b, hb, halike⟩ := ha.exists_alike hQa ht
      exact ⟨[b], [t], (List.intercalate_singleton).symm, by simp, .cons hb .nil, .cons halike .nil⟩
    | cons hnext hterms =>
      rw [List.intercalate_cons_cons, List.append_assoc, List.singleton_append] at ht
      obtain ⟨s', t', rfl, hs', ht'⟩ := Text.Renamed.append_cons (by decide) ht
      obtain ⟨b, hb, halike⟩ := ha.exists_alike hQa hs'
      obtain ⟨terms', pieces', rfl, hne', hspelled, halikes⟩ := ih (by simp) hQ ht'
      obtain ⟨q, rest, rfl⟩ := List.exists_cons_of_ne_nil hne'
      refine ⟨b :: terms', s' :: q :: rest, ?_, by simp, .cons hb hspelled, .cons halike halikes⟩
      rw [List.intercalate_cons_cons, List.append_assoc, List.singleton_append]

/-- With its names exchanged the text of a field spells one that is resolved alike. -/
theorem Field.Spelled.exists_alike {f : Field} (h : f.Spelled anyMark s)
    (hs : ∀ c ∈ s, Text.isBlank c = false) (hQ : ∀ a ∈ f.terms, u.Translates Q a.names)
    (ht : Text.Renamed (fun _ => Q) s t) : ∃ g : Field, g.Spelled anyMark t ∧
      Agrees Eq (Selection.ofField u f) (Selection.ofField u g) := by
  obtain ⟨pieces, hne, hterms, hpad⟩ := h
  have hsolid := Field.solid_intercalate (Field.solid_of_mem hterms)
  obtain rfl := hpad.eq_of_isBlank_eq_false hsolid.isBlank_eq_false hs
  obtain ⟨terms', pieces', rfl, hne', hspelled, halikes⟩ :=
    Term.exists_alike_of_intercalate hterms hne hQ ht
  have hsolid' := Field.solid_intercalate (Field.solid_of_mem hspelled)
  exact ⟨⟨terms'⟩, ⟨pieces', hne', hspelled, .refl hsolid'.isBlank_eq_false⟩,
    Selection.agrees_ofField halikes⟩

end Texts

/-! ## Expressions with their names exchanged -/

namespace Expression

/-- The unit of the field that a name in an expression stands in, given the number of fields from
the name to the end. -/
def unitAt (e : Text) (left : Nat) : Option TimeUnit :=
  TimeUnit.inOrder[(Text.splitFields e).length - left]?

/-- An expression, and what it is with other texts in the places of its names; `Q` says which text
may be in the place of a name, given the unit of its field. -/
def Renamed (Q : Option TimeUnit → Text → Text → Prop) (e e' : Text) : Prop :=
  Text.Renamed (fun left => Q (unitAt e left)) e e'

/-- Another spelling of a name: any name may be in another letter case, and one that the unit of its
field knows may be any other name of the same ordinal. -/
inductive Respells : Option TimeUnit → Text → Text → Prop where
  | cased {place : Option TimeUnit} {n m : Text} (hm : m.isName = true)
      (h : m.map Char.toLower = n.map Char.toLower) : Respells place n m
  | named {u : TimeUnit} {n m : Text} {v : Int} (hm : m.isName = true) (hn : u.Names n v)
      (h : u.Names m v) : Respells (some u) n m

/-- An expression with its names spelled differently. -/
def Respelled (e e' : Text) : Prop :=
  Renamed Respells e e'

/-- The shortest numeral of the ordinal that a name stands for in the unit of its field; the name
itself if it stands for none there. -/
def numeralOf (place : Option TimeUnit) (n : Text) : Text :=
  match place.bind fun u => u.ordinalOfName? n with
  | some v => Text.Numeral.write v.toNat
  | none => n

/-- An expression with numerals in the places of its names, as far as these are known: of those in
the field of months and in that of days of the week, since the other units have no names. -/
def Numbered (e e' : Text) : Prop :=
  Renamed (fun place n m => m = numeralOf place n) e e'

section Places

variable {Q : Option TimeUnit → Text → Text → Prop} {e e' n m : Text} {u : TimeUnit}

theorem Respells.isWord {place : Option TimeUnit} (h : Respells place n m) : Text.IsWord m := by
  cases h with
  | cased hm _ => exact Text.isWord_of_isName hm
  | named hm _ _ => exact Text.isWord_of_isName hm

theorem Respells.synonyms (hn : n.isName = true) (h : Respells (some u) n m) :
    u.Synonyms n m := by
  cases h with
  | cased hm h => exact ⟨hn, hm, by rw [TimeUnit.ordinalOfName?, TimeUnit.ordinalOfName?, h]⟩
  | named hm hnames h =>
    rw [← TimeUnit.ordinalOfName?_eq_some_iff] at hnames h
    exact ⟨hn, hm, h.trans hnames.symm⟩

theorem numeralOf_spelled {v : Int} (h : u.ordinalOfName? n = some v) :
    u.Numeralizes n (numeralOf (some u) n) := by
  obtain ⟨hv, hlength⟩ := TimeUnit.toNat_of_holds (TimeUnit.holds_of_ordinalOfName? h)
  refine ⟨v.toNat, by rw [hv, h], ?_⟩
  rw [numeralOf, Option.bind_some, h]
  exact Text.Numeral.spelled_write (hlength.trans (by decide))

theorem isWord_numeralOf (place : Option TimeUnit) (hn : n.isName = true) :
    Text.IsWord (numeralOf place n) := by
  cases hplace : place.bind fun u => u.ordinalOfName? n with
  | none =>
    rw [numeralOf, hplace]
    exact Text.isWord_of_isName hn
  | some v =>
    obtain ⟨u, rfl, hv⟩ := Option.bind_eq_some_iff.1 hplace
    obtain ⟨k, -, hspelled⟩ := numeralOf_spelled hv
    exact hspelled.isWord

/-- The number of fields from one of them to the end tells the unit that it restricts. -/
theorem placewise_of_renamedFields {places units : List TimeUnit} (before : List TimeUnit)
    {total : Nat} {ps qs : List Text}
    (h : Text.RenamedFields (fun left => Q places[total - left]?) ps qs)
    (hplaces : places = before ++ units) (htotal : total = before.length + ps.length)
    (hlength : ps.length ≤ units.length) :
    Placewise (fun u p q => Text.Renamed (fun _ => Q (some u)) p q) units ps qs := by
  induction h generalizing before units with
  | nil => exact .nil
  | @cons p q ps qs hp _ ih =>
    rw [List.length_cons] at htotal hlength
    obtain ⟨u, units, rfl⟩ : ∃ u units', units = u :: units' :=
      List.exists_cons_of_length_pos (by omega)
    have hat : places[total - (ps.length + 1)]? = some u := by
      rw [hplaces, show total - (ps.length + 1) = before.length by omega]
      simp
    rw [hat] at hp
    refine .cons hp (ih (before ++ [u]) ?_ ?_ (by simpa using hlength))
    · rw [hplaces, List.append_assoc, List.singleton_append]
    · rw [List.length_append, List.length_singleton]
      omega

variable (hQ : ∀ place n m, n.isName = true → Q place n m → Text.IsWord m)

include hQ

theorem Renamed.length_splitFields (h : Renamed Q e e') :
    (Text.splitFields e').length = (Text.splitFields e).length :=
  (Text.Renamed.splitFields (fun _ => hQ _) h).length_eq

theorem Renamed.head?_ne (h : Renamed Q e e') (hmark : e.head? ≠ some shorthandMark) :
    e'.head? ≠ some shorthandMark :=
  Text.Renamed.head?_ne (fun _ => hQ _) h (by decide) hmark

/-- When names are exchanged in an expression they are exchanged in each of its fields for what may
be in their places there. -/
theorem Renamed.placewise (h : Renamed Q e e') (hcount : WellCounted e) :
    Placewise (fun u p q => (∀ c ∈ p, Text.isBlank c = false) ∧ (∀ c ∈ q, Text.isBlank c = false) ∧
        Text.Renamed (fun _ => Q (some u)) p q)
      TimeUnit.inOrder (Text.splitFields e) (Text.splitFields e') := by
  have hfields := Text.Renamed.splitFields (fun _ => hQ _) h
  have hplaces := placewise_of_renamedFields [] hfields rfl (by simp) hcount.length_le
  refine hplaces.imp fun u p q hp hq hrenamed => ⟨?_, ?_, hrenamed⟩
  · exact fun c hc => Text.isBlank_eq_false_of_mem_splitFields (List.of_mem_zip hp).2 hc
  · exact fun c hc => Text.isBlank_eq_false_of_mem_splitFields (List.of_mem_zip hq).2 hc

end Places

/-- Fields with their names spelled differently are read and resolved alike. -/
theorem agrees_readField {u : TimeUnit} {p q : Text} (hp : ∀ c ∈ p, Text.isBlank c = false)
    (hq : ∀ c ∈ q, Text.isBlank c = false) (h : Text.Renamed (fun _ => u.Synonyms) p q) :
    Agrees (fun f g => Agrees Eq (Selection.ofField u f) (Selection.ofField u g))
      (readField u p) (readField u q) := by
  cases hread : readField u p with
  | ok f =>
    have hf : SpelledAt (u, p) f := readField_eq_ok_iff.1 hread
    obtain ⟨g, hg, halike⟩ :=
      Field.Spelled.exists_alike hf hp (fun a _ => TimeUnit.translates_synonyms a.names) h
    have hspelled : SpelledAt (u, q) g := hg
    rw [readField_eq_ok_iff.2 hspelled]
    exact .ok halike
  | error r =>
    have hmalformed : Malformed (u, p) r := readField_eq_error_iff.1 hread
    obtain ⟨rfl, hnone⟩ := hmalformed
    have hback : Text.Renamed (fun _ => u.Synonyms) q p :=
      (h.flip fun _ _ _ h => h.isName_right).mono fun _ _ _ _ h => h.symm
    have hmalformed : Malformed (u, q) (.malformedFieldOf u q) := by
      refine ⟨rfl, fun g hg => ?_⟩
      obtain ⟨f, hf, -⟩ := Field.Spelled.exists_alike hg hq
        (fun a _ => TimeUnit.translates_synonyms a.names) hback
      exact hnone f hf
    rw [readField_eq_error_iff.2 hmalformed]
    exact .error rfl

/-- Expressions with their names spelled differently are read and resolved alike. -/
theorem Respelled.agrees {e e' : Text} (h : Respelled e e')
    (hmark : e.head? ≠ some shorthandMark) :
    Agrees Eq (read e >>= Fields.ofFieldList) (read e' >>= Fields.ofFieldList) := by
  have hword : ∀ place n m, n.isName = true → Respells place n m → Text.IsWord m :=
    fun _ _ _ _ h => h.isWord
  have hlength := Renamed.length_splitFields hword h
  rw [read, read, if_neg hmark, if_neg (Renamed.head?_ne hword h hmark)]
  by_cases hcount : WellCounted e
  · have hcount' : WellCounted e' := by rwa [WellCounted, hlength]
    rw [readLonghand_of_wellCounted hcount, readLonghand_of_wellCounted hcount']
    have hread := (Renamed.placewise hword h hcount).imp fun u p q _ _ h =>
      agrees_readField h.1 h.2.1 (h.2.2.mono fun _ _ _ hn h => h.synonyms hn)
    exact (Agrees.mapM_zip hread).bind fun _ _ hfields => Fields.agrees_ofFieldList hfields
  · have hcount' : ¬WellCounted e' := by rwa [WellCounted, hlength]
    rw [readLonghand_of_not_wellCounted hcount, readLonghand_of_not_wellCounted hcount', hlength]
    exact .error rfl

/-- Numerals in the places of the names of a field that is resolved. -/
theorem exists_readField_of_numbered {u : TimeUnit} {p q : Text} {f : Field} {s : Selection u}
    (hp : ∀ c ∈ p, Text.isBlank c = false)
    (h : Text.Renamed (fun _ n m => m = numeralOf (some u) n) p q)
    (hread : readField u p = .ok f) (hf : Selection.ofField u f = .ok s) :
    ∃ g, readField u q = .ok g ∧ Agrees Eq (Selection.ofField u f) (Selection.ofField u g) := by
  have hspelled : SpelledAt (u, p) f := readField_eq_ok_iff.1 hread
  have htranslates : ∀ a ∈ f.terms, u.Translates (fun n m => m = numeralOf (some u) n) a.names := by
    intro a ha
    obtain ⟨xs, hxs⟩ := (Selection.exists_ofField_iff.1 ⟨s, hf⟩).1 a ha
    refine .inr fun n hn m hm => ?_
    obtain ⟨v, hv⟩ := Term.known_of_ordinals hxs hn
    rw [hm]
    exact numeralOf_spelled hv
  obtain ⟨g, hg, halike⟩ := Field.Spelled.exists_alike hspelled hp htranslates h
  have hspelled' : SpelledAt (u, q) g := hg
  exact ⟨g, readField_eq_ok_iff.2 hspelled', halike⟩

/-- With numerals in the places of its names an accepted expression stands for the same fields. -/
theorem Numbered.read_bind_eq_ok {e e' : Text} {F : Fields} (h : Numbered e e')
    (hmark : e.head? ≠ some shorthandMark) (hF : (read e >>= Fields.ofFieldList) = .ok F) :
    (read e' >>= Fields.ofFieldList) = .ok F := by
  have hword : ∀ place n m, n.isName = true → m = numeralOf place n → Text.IsWord m := by
    rintro place n _ hn rfl
    exact isWord_numeralOf place hn
  have hlength := Renamed.length_splitFields hword h
  rw [read, if_neg hmark] at hF
  rw [read, if_neg (Renamed.head?_ne hword h hmark)]
  obtain ⟨fields, hread, hresolve⟩ := bind_eq_ok_iff.1 hF
  have hcount : WellCounted e := by
    by_contra hcount
    rw [readLonghand_of_not_wellCounted hcount] at hread
    cases hread
  have hcount' : WellCounted e' := by rwa [WellCounted, hlength]
  rw [readLonghand_of_wellCounted hcount, mapM_eq_ok_iff] at hread
  have hpieces := Renamed.placewise hword h hcount
  have hread : Placewise (fun u p f => readField u p = .ok f) TimeUnit.inOrder
      (Text.splitFields e) fields := .of_forall₂_zip hcount.length_le hread
  have hfields := hread.imp fun u p f _ hf h =>
    And.intro h (Fields.ofField_of_ofFieldList hresolve hf)
  obtain ⟨fields', hread', halike⟩ : ∃ fields',
      Placewise (fun u q g => readField u q = .ok g) TimeUnit.inOrder (Text.splitFields e')
        fields' ∧
      Placewise (fun u f g => Agrees Eq (Selection.ofField u f) (Selection.ofField u g))
        TimeUnit.inOrder fields fields' := by
    apply hpieces.exists_placewise hfields
    rintro u p q f ⟨hp, -, hrenamed⟩ ⟨hread, hf⟩
    exact exists_readField_of_numbered hp hrenamed hread hf
  rw [readLonghand_of_wellCounted hcount', places, mapM_eq_ok_iff.2 hread'.forall₂_zip]
  exact ((Agrees.eq_iff.1 (Fields.agrees_ofFieldList halike)).1 F).1 hresolve

theorem exists_numbered (e : Text) : ∃ e', Numbered e e' := by
  apply Text.exists_renamed
  intro left n _
  exact ⟨numeralOf (unitAt e left) n, rfl⟩

end Expression

namespace Fields

/-- An expression that is no shorthand ends alike when its names are spelled differently: in any
letter case and, where the unit of its field knows a name, as any other name of the same ordinal.
It stands for the same fields or is rejected for the same kind of problem, about the same unit and
the same numbers.  If it stands for fields then numerals can take the places of the names of its
months and of its days of the week, and it stands for the same fields. -/
theorem parse_names :
    (∀ e e' : Text, e.head? ≠ some Expression.shorthandMark → Expression.Respelled e e' →
      (∀ F, parse e = .ok F ↔ parse e' = .ok F) ∧
      ∀ r, parse e = .error r →
        ∃ r', parse e' = .error r' ∧ r'.problem.withoutTexts = r.problem.withoutTexts) ∧
    ∀ (e : Text) (F : Fields), e.head? ≠ some Expression.shorthandMark → parse e = .ok F →
      (∃ e', Expression.Numbered e e') ∧ ∀ e', Expression.Numbered e e' → parse e' = .ok F := by
  constructor
  · intro e e' hmark h
    have hagrees := h.agrees hmark
    rw [← mapError_problem_parse, ← mapError_problem_parse, Agrees.eq_iff] at hagrees
    obtain ⟨hok, herror⟩ := hagrees
    refine ⟨fun F => ?_, fun r hr => ?_⟩
    · simpa only [mapError_eq_ok_iff] using hok F
    · obtain ⟨q, hq, hkind⟩ := herror r.problem (mapError_eq_error_iff.2 ⟨r, hr, rfl⟩)
      obtain ⟨r', hr', rfl⟩ := mapError_eq_error_iff.1 hq
      exact ⟨r', hr', hkind⟩
  · intro e F hmark hF
    refine ⟨Expression.exists_numbered e, fun e' h => ?_⟩
    rw [parse_eq_ok_iff] at hF ⊢
    exact h.read_bind_eq_ok hmark hF

/-- A month and a range of weekdays spelled differently and as numerals; an unknown month stays
unknown. -/
theorem parse_names_weekdays :
    (∃ F, parse "0 0 9 ? MAR tue-Fri".toList = .ok F ∧
      parse "0 0 9 ? march Tuesday-fRI".toList = .ok F ∧
      parse "0 0 9 ? 3 3-6".toList = .ok F) ∧
    ∃ r r', parse "0 0 9 ? Mars *".toList = .error r ∧ parse "0 0 9 ? mARS *".toList = .error r' ∧
      r'.problem.withoutTexts = r.problem.withoutTexts := by
  obtain ⟨hrespelled, hnumbered⟩ := parse_names
  obtain ⟨F, hF⟩ : ∃ F, parse "0 0 9 ? MAR tue-Fri".toList = .ok F :=
    exists_ok_of_isSome (by decide)
  have hnames : ∀ {u : TimeUnit} {n : Text} {v : Int}, u.ordinalOfName? n = some v → u.Names n v :=
    TimeUnit.ordinalOfName?_eq_some_iff.1
  have hspelling : Expression.Respelled "0 0 9 ? MAR tue-Fri".toList
      "0 0 9 ? march Tuesday-fRI".toList := by
    refine .keep_append (w := "0 0 9 ? ".toList) rfl ?_
    refine .name (n := "MAR".toList) (m := "march".toList) rfl rfl ?_ (.keep rfl ?_)
    · exact @Expression.Respells.named .months _ _ 3 rfl (hnames (by decide)) (hnames (by decide))
    refine .name (n := "tue".toList) (m := "Tuesday".toList) rfl rfl ?_ (.keep rfl ?_)
    · exact @Expression.Respells.named .daysOfWeek _ _ 3 rfl (hnames (by decide))
        (hnames (by decide))
    exact .name (n := "Fri".toList) (m := "fRI".toList) rfl rfl (.cased rfl rfl) .nil
  have hnumerals : Expression.Numbered "0 0 9 ? MAR tue-Fri".toList "0 0 9 ? 3 3-6".toList := by
    refine .keep_append (w := "0 0 9 ? ".toList) rfl ?_
    refine .name (n := "MAR".toList) (m := "3".toList) rfl rfl (by decide) (.keep rfl ?_)
    refine .name (n := "tue".toList) (m := "3".toList) rfl rfl (by decide) (.keep rfl ?_)
    exact .name (n := "Fri".toList) (m := "6".toList) rfl rfl (by decide) .nil
  have hunknown : Expression.Respelled "0 0 9 ? Mars *".toList "0 0 9 ? mARS *".toList := by
    refine .keep_append (w := "0 0 9 ? ".toList) rfl ?_
    refine .name (n := "Mars".toList) (m := "mARS".toList) rfl rfl (.cased rfl rfl) ?_
    exact .keep rfl (.keep rfl .nil)
  have hrejected : parse "0 0 9 ? Mars *".toList =
      .error ⟨.unknownName .months "Mars".toList, none⟩ := rfl
  obtain ⟨r', hr', hkind⟩ := (hrespelled _ _ (by decide) hunknown).2 _ hrejected
  exact ⟨⟨F, hF, ((hrespelled _ _ (by decide) hspelling).1 F).1 hF,
    (hnumbered _ F (by decide) hF).2 _ hnumerals⟩, _, r', hrejected, hr', hkind⟩

/-- A numeral may be accepted where a name is not. -/
example : Field.parse true "Wed/2".toList = .error (.malformedField "Wed/2".toList) ∧
    Field.parse true "4/2".toList = .ok ⟨[.period (.point 4) 2]⟩ := by
  decide

end Fields

end Timetable

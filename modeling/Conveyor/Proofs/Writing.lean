/-
Conveyor.Proofs.Writing — settings that are written down are read back.

The text of each field spells a value that says what the field holds
(`exists_fieldText`), and the texts of several fields together spell members that list
them (`exists_members`). The rest is what `Conveyor.Proofs.Reading` says of any object:
all six fields of the standard settings are replaced, so nothing of these is left.
-/
import Conveyor.Proofs.Reading

namespace Conveyor

/-! ## Names and codes -/

theorem Field.isPlain_name (f : Field) : ∀ c ∈ f.name.toList, Piece.IsPlain c := by
  cases f <;> simp [Field.name, Piece.IsPlain]

theorem WhenFull.isPlain_code (p : WhenFull) : ∀ c ∈ p.code.toList, Piece.IsPlain c := by
  cases p <;> simp [WhenFull.code, Piece.IsPlain]

/-! ## Fields -/

namespace Settings

open Json

theorem quoted_toList (text : String) : (quoted text).toList = '"' :: (text.toList ++ ['"']) := by
  simp [quoted]

theorem toString_text (text : String) : toString text = text := rfl

/-- What is written for a field says what the field holds. -/
theorem exists_fieldText (s : Settings) (f : Field) :
    ∃ json, f.Says (s.get f) json ∧ Spelled json (s.fieldText f).toList := by
  cases f with
  | channels => exact ⟨_, .channels _, spelled_word _⟩
  | room => exact ⟨_, .room _, spelled_word _⟩
  | batch =>
    simp only [get, fieldText]
    cases s.batch with
    | none => exact ⟨_, .noBatch, by simpa using Spelled.null⟩
    | some n => exact ⟨_, .batch n, spelled_word n⟩
  | policy =>
    refine ⟨_, .policy (.name (Piece.textOf?_ofText _)), ?_⟩
    rw [fieldText, quoted_toList]
    exact .string (Piece.spelled_ofText _ s.policy.isPlain_code)
  | cycle =>
    have hsums : s.cycle.Sums s.cycle.seconds.toNat s.cycle.nanos :=
      ⟨s.cycle.seconds.toNat_lt_size, s.cycle.nanos_lt.trans (by decide), rfl⟩
    have hsecs := entrySpelled_ofText "secs" (by simp [Piece.IsPlain])
      (spelled_word s.cycle.seconds)
    have hnanos := entrySpelled_ofText "nanos" (by simp [Piece.IsPlain])
      (spelled_ofNat s.cycle.nanos)
    refine ⟨_, .cycle (.members hsums (Piece.textOf?_ofText "secs")
      (Piece.textOf?_ofText "nanos")), ?_⟩
    simpa [fieldText, quoted_toList, toString_text] using
      Spelled.object (.cons hsecs (.last hnanos))
  | metered =>
    simp only [get, fieldText]
    cases s.metered with
    | false => exact ⟨_, .metered false, by simpa using Spelled.no⟩
    | true => exact ⟨_, .metered true, by simpa using Spelled.yes⟩

/-- The text of one field with its name. -/
theorem exists_member (s : Settings) (f : Field) :
    ∃ json, f.Says (s.get f) json ∧
      EntrySpelled (Piece.ofText f.name, json) (quoted f.name ++ ":" ++ s.fieldText f).toList := by
  obtain ⟨json, hsays, hjson⟩ := s.exists_fieldText f
  refine ⟨json, hsays, ?_⟩
  simpa [quoted_toList] using entrySpelled_ofText f.name f.isPlain_name hjson

/-- What is written for several fields lists them. -/
theorem exists_members (s : Settings) (fields : List Field) (hne : fields ≠ [])
    (hnodup : fields.Nodup) :
    ∃ members, (Given.only fields s.get).Lists members ∧ EntriesSpelled members
      (",".intercalate (fields.map fun f => quoted f.name ++ ":" ++ s.fieldText f)).toList := by
  induction fields with
  | nil => exact absurd rfl hne
  | cons f fields ih =>
    obtain ⟨hnew, hnodup⟩ := List.nodup_cons.mp hnodup
    obtain ⟨json, hsays, hspelled⟩ := s.exists_member f
    have hlists : ∀ {members}, (Given.only fields s.get).Lists members →
        (Given.only (f :: fields) s.get).Lists ((Piece.ofText f.name, json) :: members) := by
      intro members h
      rw [← Given.only_cons]
      exact .field (Piece.textOf?_ofText _) hsays (if_neg hnew) h
    cases fields with
    | nil => exact ⟨_, hlists .nil, .last hspelled⟩
    | cons g fields =>
      obtain ⟨members, hmembers, hrest⟩ := ih (by simp) hnodup
      refine ⟨_, hlists hmembers, ?_⟩
      have h := EntriesSpelled.cons hspelled hrest
      simpa [String.intercalate_cons_cons] using h

/-- All fields replaced leave nothing of what there was. -/
theorem replace_all (s t : Settings) : t.replace (.only Field.all s.get) = s := by
  refine ext_get fun f => ?_
  have hmem : f ∈ Field.all := by cases f <;> decide
  simp [Given.only, hmem]

/-- **Settings that are written down are read back**, whatever they are: a text need not
pass the check that a carrier makes. -/
theorem read?_write (s : Settings) : read? s.write = some s := by
  obtain ⟨members, hlists, hspelled⟩ := s.exists_members Field.all (by decide) (by decide)
  have htext : Json.Padded (.object members) s.write.toList := by
    simpa [write] using (Spelled.object hspelled).padded
  rw [read?_of_padded htext]
  exact ofMembers?_eq_some_iff.mpr ⟨_, hlists, by simp, (replace_all s standard).symm⟩

end Settings

end Conveyor

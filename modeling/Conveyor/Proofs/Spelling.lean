/-
Conveyor.Proofs.Spelling — how numbers, plain texts and members are spelled.

The grammar of `Conveyor.Json.Grammar` leaves a writer many choices. Here are the
plain ones: a number by its decimal digits (`spelled_ofNat`), a text without quotes,
backslashes and control characters by itself (`spelled_ofText`), and a member by its
name and its value with nothing in between (`entrySpelled_ofText`).
-/
import Conveyor.Settings.Given

namespace Conveyor

/-! ## Numbers -/

namespace Json

/-- The digits of a number stand for it. -/
theorem natOfDigits_toDigits (n : Nat) : natOfDigits (Nat.toDigits 10 n) = n :=
  Nat.ofDigitChars_toDigits (by decide) (by decide)

theorem isDigits_toDigits (n : Nat) : IsDigits (Nat.toDigits 10 n) :=
  ⟨Nat.toDigits_ne_nil, fun _ => Nat.isDigit_of_mem_toDigits (by decide) (by decide)⟩

/-- Only zero starts with a zero. -/
theorem head_toDigits {n : Nat} (h : n ≠ 0) :
    ∃ d ds, Nat.toDigits 10 n = d :: ds ∧ d ≠ '0' := by
  induction n using Nat.strongRecOn with
  | ind n ih =>
    by_cases hn : n < 10
    · refine ⟨_, _, Nat.toDigits_of_lt_base hn, ?_⟩
      have hdigit : ∀ n : Fin 10, n.val ≠ 0 → n.val.digitChar ≠ '0' := by decide
      exact hdigit ⟨n, hn⟩ h
    · obtain ⟨d, ds, hds, hd⟩ := ih (n / 10) (by omega) (by omega)
      exact ⟨d, _, by rw [Nat.toDigits_of_base_le (by decide) (by omega), hds]; rfl, hd⟩

/-- Decimal digits are a row as the grammar wants it. -/
theorem whole_toDigits (n : Nat) : Whole n (Nat.toDigits 10 n) := by
  by_cases h : n = 0
  · subst h
    exact .zero
  · obtain ⟨d, ds, hds, hd⟩ := head_toDigits h
    have hwhole := Whole.digits hd (hds ▸ isDigits_toDigits n)
    rwa [← hds, natOfDigits_toDigits] at hwhole

/-- A number is spelled by its decimal digits. -/
theorem spelled_ofNat (n : Nat) : Spelled (.ofNat n) (toString n).toList := by
  have h : Numeral.Unsigned false _ _ := .mk (whole_toDigits n) .absent .absent
  rw [List.append_nil, List.append_nil] at h
  rw [Nat.toString_eq_ofList_toDigits, String.toList_ofList]
  exact .number (.positive h)

theorem spelled_word (n : UInt64) : Spelled (.ofNat n.toNat) (toString n).toList :=
  spelled_ofNat n.toNat

end Json

/-! ## Plain strings -/

/-- A character that stands for itself between quotes. -/
def Piece.IsPlain (c : Char) : Prop := c ≠ '"' ∧ c ≠ '\\' ∧ 0x20 ≤ c.toNat

namespace Piece

/-- Characters that stand for themselves spell themselves. -/
theorem spelled_map_char {cs : List Char} (h : ∀ c ∈ cs, IsPlain c) :
    Spelled (cs.map .char) cs := by
  induction cs with
  | nil => exact .nil
  | cons c cs ih =>
    obtain ⟨hquote, hslash, hcontrol⟩ := h c (by simp)
    exact .plain hquote hslash hcontrol (ih fun d hd => h d (by simp [hd]))

theorem spelled_ofText (text : String) (h : ∀ c ∈ text.toList, IsPlain c) :
    Spelled (ofText text) text.toList :=
  spelled_map_char h

end Piece

/-! ## Values and members -/

namespace Json

variable {json : Json} {cs : List Char}

theorem isBlanks_nil : IsBlanks [] := by simp [IsBlanks]

/-- No blanks are needed around a value. -/
theorem Spelled.padded (h : Spelled json cs) : Padded json cs := by
  simpa using Padded.mk isBlanks_nil h isBlanks_nil

/-- A name between quotes, a colon and a value make a member. -/
theorem entrySpelled_ofText (name : String) (hname : ∀ c ∈ name.toList, Piece.IsPlain c)
    (h : Spelled json cs) :
    EntrySpelled (Piece.ofText name, json) ('"' :: (name.toList ++ '"' :: ':' :: cs)) :=
  .mk isBlanks_nil (Piece.spelled_ofText name hname) isBlanks_nil h.padded

end Json

end Conveyor

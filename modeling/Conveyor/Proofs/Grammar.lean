/-
Conveyor.Proofs.Grammar — the reader accepts what the grammar spells, and nothing else.

For each part of a value there are two lemmas. One says that the reader takes exactly
the characters that spell the part, whatever follows them (`…_of_spelled`); the other
that it never takes anything else (`spelled_of_…`). A numeral has no closing sign, so
the first needs to know that what follows does not go on with it (`Ends`).

Both go by induction on the fuel of the reader. Two units for each character are enough
(`Completes`), which is what `Json.ofChars?` provides; so a text is read exactly if it
spells a value, and the value is the one that it spells (`ofChars?_eq_some_iff`).
-/
import Conveyor.Json.Grammar
import Mathlib.Data.List.DropRight
import Mathlib.Data.List.TakeWhile

namespace Conveyor.Json

variable {cs bs ds rest rest' : List Char} {fuel : Nat} {j : Json}

/-! ## Blanks -/

theorem IsBlanks.append (h : IsBlanks bs) (h' : IsBlanks cs) : IsBlanks (bs ++ cs) := by
  intro c hc
  rcases List.mem_append.mp hc with hc | hc
  · exact h c hc
  · exact h' c hc

/-- The reader passes over blanks, whatever follows them. -/
theorem skipBlanks_append (h : IsBlanks bs) (cs : List Char) :
    skipBlanks (bs ++ cs) = skipBlanks cs := by
  simp [skipBlanks, List.dropWhile_append_of_pos h]

theorem skipBlanks_of_isBlanks (h : IsBlanks bs) : skipBlanks bs = [] := by
  simpa [skipBlanks] using skipBlanks_append h []

/-- It stops at the first character that is no blank. -/
theorem skipBlanks_cons {c : Char} (h : isBlank c = false) (cs : List Char) :
    skipBlanks (c :: cs) = c :: cs := by
  simp [skipBlanks, h]

theorem skipBlanks_skipBlanks (cs : List Char) : skipBlanks (skipBlanks cs) = skipBlanks cs :=
  List.dropWhile_idempotent ..

/-- What is skipped are blanks. -/
theorem exists_blanks (cs : List Char) : ∃ bs, IsBlanks bs ∧ cs = bs ++ skipBlanks cs :=
  ⟨cs.takeWhile isBlank, fun _ => List.mem_takeWhile_imp, List.takeWhile_append_dropWhile.symm⟩

/-! ## Strings -/

/-- A string is read up to its closing quote. -/
theorem readPieces_of_spelled {ps : List Piece} (h : Piece.Spelled ps cs) (rest : List Char) :
    readPieces (cs ++ '"' :: rest) = some (ps, rest) := by
  induction h with
  | nil => simp [readPieces]
  | plain _ hb hc _ ih => simp [readPieces, hb, Nat.not_lt.mpr hc, ih]
  | @escape c d ps cs hd _ ih =>
    have hu : c ≠ 'u' := by
      rintro rfl
      cases hd
    simp [readPieces, hu, hd, ih]
  | unit ha hb hc hd _ ih => simp [readPieces, ha, hb, hc, hd, ih]

/-- What was read as a string was spelled up to a quote. -/
theorem spelled_of_readPieces {ps : List Piece} (h : readPieces cs = some (ps, rest)) :
    ∃ ns, Piece.Spelled ps ns ∧ cs = ns ++ '"' :: rest := by
  induction cs using readPieces.induct generalizing ps rest with
  | case1 => simp [readPieces] at h
  | case2 cs =>
    simp only [readPieces, Option.some.injEq, Prod.mk.injEq] at h
    obtain ⟨rfl, rfl⟩ := h
    exact ⟨[], .nil, rfl⟩
  | case3 a b c d cs ih =>
    simp only [readPieces, Option.bind_eq_bind, Option.bind_eq_some_iff, Option.pure_def,
      Option.some.injEq, Prod.mk.injEq, Prod.exists] at h
    obtain ⟨i, hi, k, hk, l, hl, m, hm, qs, rest', hread, rfl, rfl⟩ := h
    obtain ⟨ns, hns, rfl⟩ := ih hread
    exact ⟨_, .unit hi hk hl hm hns, rfl⟩
  | case4 c cs hu ih =>
    rw [readPieces.eq_4 c cs hu] at h
    simp only [Option.bind_eq_bind, Option.bind_eq_some_iff, Option.pure_def,
      Option.some.injEq, Prod.mk.injEq, Prod.exists] at h
    obtain ⟨d, hd, qs, rest', hread, rfl, rfl⟩ := h
    obtain ⟨ns, hns, rfl⟩ := ih hread
    exact ⟨_, .escape hd hns, rfl⟩
  | case5 c cs hq hu he hbad _ =>
    rw [readPieces.eq_5 c cs hq hu he, if_pos hbad] at h
    cases h
  | case6 c cs hq hu he hgood ih =>
    rw [readPieces.eq_5 c cs hq hu he, if_neg hgood] at h
    simp only [Option.bind_eq_bind, Option.bind_eq_some_iff, Option.pure_def,
      Option.some.injEq, Prod.mk.injEq, Prod.exists] at h
    obtain ⟨qs, rest', hread, rfl, rfl⟩ := h
    obtain ⟨ns, hns, rfl⟩ := ih hread
    obtain ⟨hb, hc⟩ := not_or.mp hgood
    exact ⟨_, .plain hq hb (Nat.not_lt.mp hc) hns, rfl⟩

/-! ## Numerals -/

/-- What follows does not go on with a row of digits. -/
def EndsDigits (rest : List Char) : Prop := ∀ c ∈ rest.head?, c.isDigit = false

/-- What follows does not go on with a numeral. -/
def Ends (rest : List Char) : Prop :=
  ∀ c ∈ rest.head?, c.isDigit = false ∧ c ≠ '.' ∧ c ≠ 'e' ∧ c ≠ 'E'

theorem Ends.endsDigits (h : Ends rest) : EndsDigits rest := fun c hc => (h c hc).1

/-- Blanks after a numeral end it, as what follows them would. -/
theorem ends_append (h : IsBlanks bs) (hr : Ends rest) : Ends (bs ++ rest) := by
  cases bs with
  | nil => exact hr
  | cons b bs =>
    intro c hc
    obtain rfl : b = c := by simpa using hc
    have hb := h b (by simp)
    simp only [isBlank, Bool.or_eq_true, decide_eq_true_eq] at hb
    rcases hb with ((rfl | rfl) | rfl) | rfl <;> decide

/-- A row of digits is read to its end. -/
theorem readDigits_append (h : IsDigits ds) (hr : EndsDigits rest) :
    readDigits (ds ++ rest) = some (ds, rest) := by
  have hnone : rest.takeWhile Char.isDigit = [] ∧ rest.dropWhile Char.isDigit = rest := by
    cases rest with
    | nil => simp
    | cons c rest => simp [hr c (by simp)]
  have htake : (ds ++ rest).takeWhile Char.isDigit = ds := by
    rw [List.takeWhile_append_of_pos h.2, hnone.1, List.append_nil]
  have hdrop : (ds ++ rest).dropWhile Char.isDigit = rest := by
    rw [List.dropWhile_append_of_pos h.2, hnone.2]
  cases ds with
  | nil => exact absurd rfl h.1
  | cons d ds => simp only [readDigits, htake, hdrop]

theorem spelled_of_readDigits (h : readDigits cs = some (ds, rest)) :
    IsDigits ds ∧ cs = ds ++ rest := by
  have hall : ∀ c ∈ cs.takeWhile Char.isDigit, c.isDigit = true := fun _ => List.mem_takeWhile_imp
  unfold readDigits at h
  split at h
  · cases h
  · next hne =>
    cases h
    exact ⟨⟨hne, hall⟩, List.takeWhile_append_dropWhile.symm⟩

/-- The digits before the point are read; a zero stands alone. -/
theorem readWhole_of_spelled {n : Nat} (h : Whole n cs) (hr : EndsDigits rest) :
    readWhole (cs ++ rest) = some (n, rest) := by
  cases h with
  | zero => rfl
  | @digits d ds hd hds =>
    have hread := readDigits_append hds hr
    rw [List.cons_append] at hread
    simp [readWhole, hd, hread]

theorem spelled_of_readWhole {n : Nat} (h : readWhole cs = some (n, rest)) :
    ∃ ds, Whole n ds ∧ cs = ds ++ rest := by
  unfold readWhole at h
  split at h
  · cases h
    exact ⟨_, .zero, rfl⟩
  · next hzero =>
    obtain ⟨⟨ds, rest'⟩, hread, hn⟩ := Option.map_eq_some_iff.mp h
    cases hn
    obtain ⟨hds, rfl⟩ := spelled_of_readDigits hread
    cases ds with
    | nil => exact absurd rfl hds.1
    | cons d ds =>
      refine ⟨_, .digits ?_ hds, rfl⟩
      rintro rfl
      exact hzero _ rfl

/-- The point and the digits behind it are read, or none are there. -/
theorem readFraction_of_spelled {b : Bool} (h : Fraction b cs) (hr : EndsDigits rest)
    (hpoint : '.' ∉ rest.head?) : readFraction (cs ++ rest) = some (b, rest) := by
  cases h with
  | absent =>
    cases rest with
    | nil => rfl
    | cons c rest =>
      have hc : c ≠ '.' := by simpa using hpoint
      simp [readFraction, hc]
  | present hds => simp [readFraction, readDigits_append hds hr]

theorem spelled_of_readFraction {b : Bool} (h : readFraction cs = some (b, rest)) :
    ∃ fs, Fraction b fs ∧ cs = fs ++ rest := by
  unfold readFraction at h
  split at h
  · obtain ⟨⟨ds, rest'⟩, hread, hb⟩ := Option.map_eq_some_iff.mp h
    cases hb
    obtain ⟨hds, rfl⟩ := spelled_of_readDigits hread
    exact ⟨_, .present hds, rfl⟩
  · cases h
    exact ⟨[], .absent, rfl⟩

/-- A digit is no sign. -/
theorem skipSign_of_digits (h : IsDigits ds) (rest : List Char) :
    skipSign (ds ++ rest) = ds ++ rest := by
  cases ds with
  | nil => exact absurd rfl h.1
  | cons d ds =>
    have hd : d.isDigit = true := h.2 d (by simp)
    have hplus : d ≠ '+' := by
      rintro rfl
      cases hd
    have hminus : d ≠ '-' := by
      rintro rfl
      cases hd
    simp [skipSign, hplus, hminus]

/-- What is passed over before an exponent is a sign, or nothing. -/
theorem exists_skipSign (cs : List Char) :
    ∃ sign, (sign = [] ∨ sign = ['+'] ∨ sign = ['-']) ∧ cs = sign ++ skipSign cs := by
  unfold skipSign
  split
  · exact ⟨['+'], by simp, rfl⟩
  · exact ⟨['-'], by simp, rfl⟩
  · exact ⟨[], by simp, rfl⟩

/-- The exponent is read with its sign, or none is there. -/
theorem readExponent_of_spelled {b : Bool} (h : Exponent b cs) (hr : Ends rest) :
    readExponent (cs ++ rest) = some (b, rest) := by
  cases h with
  | absent =>
    cases rest with
    | nil => rfl
    | cons c rest =>
      obtain ⟨-, -, he, hE⟩ := hr c (by simp)
      simp [readExponent, he, hE]
  | @present e sign ds he hsign hds =>
    have hskip : skipSign (sign ++ (ds ++ rest)) = ds ++ rest := by
      rcases hsign with rfl | rfl | rfl
      · exact skipSign_of_digits hds rest
      · rfl
      · rfl
    have hread := readDigits_append hds hr.endsDigits
    rcases he with rfl | rfl <;> simp [readExponent, hskip, hread]

theorem spelled_of_readExponent {b : Bool} (h : readExponent cs = some (b, rest)) :
    ∃ es, Exponent b es ∧ cs = es ++ rest := by
  have present : ∀ {e : Char} {ds : List Char}, e = 'e' ∨ e = 'E' →
      ((readDigits (skipSign ds)).map fun read => (false, read.2)) = some (b, rest) →
      ∃ es, Exponent b es ∧ e :: ds = es ++ rest := by
    intro e ds he h
    obtain ⟨⟨es, rest'⟩, hread, hb⟩ := Option.map_eq_some_iff.mp h
    cases hb
    obtain ⟨hes, hskip⟩ := spelled_of_readDigits hread
    obtain ⟨sign, hsign, hds⟩ := exists_skipSign ds
    exact ⟨_, .present he hsign hes, by rw [hds, hskip]; simp⟩
  unfold readExponent at h
  split at h
  · exact present (.inl rfl) h
  · exact present (.inr rfl) h
  · cases h
    exact ⟨[], .absent, rfl⟩

/-- An exponent goes on neither with the digits before it nor with a point. -/
theorem Exponent.endsDigits {b : Bool} (h : Exponent b cs) (hr : Ends rest) :
    EndsDigits (cs ++ rest) ∧ '.' ∉ (cs ++ rest).head? := by
  cases h with
  | absent => exact ⟨hr.endsDigits, fun hc => (hr '.' hc).2.1 rfl⟩
  | present he => rcases he with rfl | rfl <;> simp [EndsDigits]

/-- Nor does a fraction go on with the digits before it. -/
theorem Fraction.endsDigits {b : Bool} (h : Fraction b cs) (hr : EndsDigits rest) :
    EndsDigits (cs ++ rest) := by
  cases h with
  | absent => exact hr
  | present => simp [EndsDigits]

/-- The three parts of a numeral are read one after the other. -/
theorem readUnsigned_of_spelled {negative : Bool} {n : Numeral} (h : n.Unsigned negative cs)
    (hr : Ends rest) : readUnsigned negative (cs ++ rest) = some (n, rest) := by
  obtain ⟨hw, hf, he⟩ := h
  obtain ⟨hdigits, hpoint⟩ := he.endsDigits hr
  simp [readUnsigned, readWhole_of_spelled hw (hf.endsDigits hdigits),
    readFraction_of_spelled hf hdigits hpoint, readExponent_of_spelled he hr]

/-- What was read behind the sign spells the three parts. -/
theorem spelled_of_readUnsigned {negative : Bool} {n : Numeral}
    (h : readUnsigned negative cs = some (n, rest)) :
    ∃ ds, n.Unsigned negative ds ∧ cs = ds ++ rest := by
  simp only [readUnsigned, Option.bind_eq_bind, Option.bind_eq_some_iff, Option.pure_def,
    Option.some.injEq, Prod.mk.injEq, Prod.exists] at h
  obtain ⟨whole, cs₁, hwhole, noPoint, cs₂, hpoint, noExponent, cs₃, hexponent, rfl, rfl⟩ := h
  obtain ⟨ws, hw, rfl⟩ := spelled_of_readWhole hwhole
  obtain ⟨fs, hf, rfl⟩ := spelled_of_readFraction hpoint
  obtain ⟨es, he, rfl⟩ := spelled_of_readExponent hexponent
  exact ⟨_, .mk hw hf he, by simp⟩

/-- A numeral starts with a digit, once its sign is off. -/
theorem Whole.exists_digit {n : Nat} (h : Whole n cs) :
    ∃ c cs', cs = c :: cs' ∧ c.isDigit = true := by
  cases h with
  | zero => exact ⟨_, _, rfl, rfl⟩
  | digits _ hds => exact ⟨_, _, rfl, hds.2 _ (by simp)⟩

/-- A numeral starts with a digit or with a sign. -/
theorem exists_of_numeral {n : Numeral} (h : n.Spelled cs) :
    ∃ c cs', cs = c :: cs' ∧ (c.isDigit = true ∨ c = '-') := by
  cases h with
  | positive h =>
    obtain ⟨hw, -, -⟩ := h
    obtain ⟨c, cs', rfl, hc⟩ := hw.exists_digit
    exact ⟨c, _, rfl, .inl hc⟩
  | negative h => exact ⟨_, _, rfl, .inr rfl⟩

/-- A numeral is read to its end, with or without a sign. -/
theorem readNumeral_of_spelled {n : Numeral} (h : n.Spelled cs) (hr : Ends rest) :
    readNumeral (cs ++ rest) = some (n, rest) := by
  cases h with
  | positive h =>
    have hread := readUnsigned_of_spelled h hr
    obtain ⟨hw, -, -⟩ := h
    obtain ⟨c, cs', rfl, hc⟩ := hw.exists_digit
    have hminus : c ≠ '-' := by
      rintro rfl
      cases hc
    simp only [List.cons_append] at hread ⊢
    simpa [readNumeral, hminus] using hread
  | negative h => simp [readNumeral, readUnsigned_of_spelled h hr]

/-- What was read as a numeral spells it. -/
theorem spelled_of_readNumeral {n : Numeral} (h : readNumeral cs = some (n, rest)) :
    ∃ ds, n.Spelled ds ∧ cs = ds ++ rest := by
  unfold readNumeral at h
  split at h
  · obtain ⟨ds, hds, rfl⟩ := spelled_of_readUnsigned h
    exact ⟨_, .negative hds, rfl⟩
  · obtain ⟨ds, hds, rfl⟩ := spelled_of_readUnsigned h
    exact ⟨_, .positive hds, rfl⟩

/-! ## Values start with a sign of their own -/

/-- A value starts with a character that is no blank and closes no array. -/
theorem Spelled.exists_head (h : Spelled j cs) :
    ∃ c cs', cs = c :: cs' ∧ isBlank c = false ∧ c ≠ ']' := by
  cases h with
  | number h =>
    obtain ⟨c, cs', rfl, hc⟩ := exists_of_numeral h
    refine ⟨c, cs', rfl, ?_⟩
    rcases hc with hc | rfl
    · refine ⟨?_, ?_⟩
      · by_contra hb
        simp only [isBlank, Bool.not_eq_false, Bool.or_eq_true, decide_eq_true_eq] at hb
        rcases hb with ((rfl | rfl) | rfl) | rfl <;> cases hc
      · rintro rfl
        cases hc
    · decide
  | _ => exact ⟨_, _, rfl, by decide, by decide⟩

/-- What the first character of a value says of the blanks before it. -/
theorem Spelled.skipBlanks (h : Spelled j cs) (hb : IsBlanks bs) (rest : List Char) :
    skipBlanks (bs ++ (cs ++ rest)) = cs ++ rest := by
  obtain ⟨c, cs', rfl, hc, -⟩ := h.exists_head
  rw [skipBlanks_append hb, List.cons_append, skipBlanks_cons hc]

/-- More blanks before a value. -/
theorem Padded.blanks (hb : IsBlanks bs) (h : Padded j cs) : Padded j (bs ++ cs) := by
  obtain ⟨hb', hj, he⟩ := h
  rw [← List.append_assoc]
  exact .mk (hb.append hb') hj he

/-- Blanks may stand before the first value. -/
theorem ItemsSpelled.blanks {items : List Json} (hb : IsBlanks bs) (h : ItemsSpelled items cs) :
    ItemsSpelled items (bs ++ cs) := by
  cases h with
  | last h => exact .last (h.blanks hb)
  | cons h hs =>
    rw [← List.append_assoc]
    exact .cons (h.blanks hb) hs

theorem EntrySpelled.blanks {e : Entry} (hb : IsBlanks bs) (h : EntrySpelled e cs) :
    EntrySpelled e (bs ++ cs) := by
  obtain ⟨hb', hn, hb'', hj⟩ := h
  rw [← List.append_assoc]
  exact .mk (hb.append hb') hn hb'' hj

/-- Blanks may stand before the first name. -/
theorem EntriesSpelled.blanks {entries : List Entry} (hb : IsBlanks bs)
    (h : EntriesSpelled entries cs) : EntriesSpelled entries (bs ++ cs) := by
  cases h with
  | last h => exact .last (h.blanks hb)
  | cons h hs =>
    rw [← List.append_assoc]
    exact .cons (h.blanks hb) hs

/-! ## Blanks make no difference to the reader -/

/-- A value is read alike with blanks before it and without. -/
theorem readValue_skipBlanks (fuel : Nat) (cs : List Char) :
    readValue fuel (skipBlanks cs) = readValue fuel cs := by
  cases fuel with
  | zero => rfl
  | succ fuel => simp only [readValue, skipBlanks_skipBlanks]

/-- So are the values of an array. -/
theorem readItems_skipBlanks (fuel : Nat) (cs : List Char) :
    readItems fuel (skipBlanks cs) = readItems fuel cs := by
  cases fuel with
  | zero => rfl
  | succ fuel => simp only [readItems, readValue_skipBlanks]

/-- So are the members of an object. -/
theorem readMembers_skipBlanks (fuel : Nat) (cs : List Char) :
    readMembers fuel (skipBlanks cs) = readMembers fuel cs := by
  cases fuel with
  | zero => rfl
  | succ fuel => simp only [readMembers, skipBlanks_skipBlanks]

/-! ## What is spelled is read -/

/-- No value starts with the bracket that closes an array. -/
theorem Padded.exists_skipBlanks (h : Padded j cs) (rest : List Char) :
    ∃ c cs', skipBlanks (cs ++ rest) = c :: cs' ∧ c ≠ ']' := by
  cases h with
  | @mk j bs cs bs' hb hj _ =>
    obtain ⟨c, cs', rfl, -, hc⟩ := hj.exists_head
    refine ⟨c, cs' ++ (bs' ++ rest), ?_, hc⟩
    rw [List.append_assoc, List.append_assoc, hj.skipBlanks hb, List.cons_append]

theorem ItemsSpelled.exists_skipBlanks {items : List Json} (h : ItemsSpelled items cs)
    (rest : List Char) : ∃ c cs', skipBlanks (cs ++ rest) = c :: cs' ∧ c ≠ ']' := by
  cases h with
  | last h => exact h.exists_skipBlanks rest
  | cons h _ =>
    rw [List.append_assoc]
    exact h.exists_skipBlanks _

/-- A name starts with a quote. -/
theorem EntrySpelled.exists_skipBlanks {e : Entry} (h : EntrySpelled e cs) (rest : List Char) :
    ∃ cs', skipBlanks (cs ++ rest) = '"' :: cs' := by
  obtain ⟨hb, -, -, -⟩ := h
  rw [List.append_assoc, skipBlanks_append hb]
  exact ⟨_, skipBlanks_cons (by decide) _⟩

theorem EntriesSpelled.exists_skipBlanks {entries : List Entry} (h : EntriesSpelled entries cs)
    (rest : List Char) : ∃ cs', skipBlanks (cs ++ rest) = '"' :: cs' := by
  cases h with
  | last h => exact h.exists_skipBlanks rest
  | cons h _ =>
    rw [List.append_assoc]
    exact h.exists_skipBlanks _

/-- With this much fuel the reader takes everything that is spelled with few enough
characters. -/
structure Completes (fuel : Nat) : Prop where
  value : ∀ {j cs bs rest}, Spelled j cs → IsBlanks bs → Ends rest → 2 * cs.length ≤ fuel →
    readValue fuel (bs ++ (cs ++ rest)) = some (j, rest)
  items : ∀ {items cs} (rest), ItemsSpelled items cs → 2 * cs.length + 1 ≤ fuel →
    readItems fuel (cs ++ ']' :: rest) = some (items, rest)
  entries : ∀ {entries cs} (rest), EntriesSpelled entries cs → 2 * cs.length + 1 ≤ fuel →
    readMembers fuel (cs ++ '}' :: rest) = some (entries, rest)

/-- Nothing is spelled with no characters. -/
theorem Completes.zero : Completes 0 where
  value hj _ _ hf := by
    obtain ⟨c, cs', rfl, -⟩ := hj.exists_head
    simp at hf
  items _ _ hf := by simp at hf
  entries _ _ hf := by simp at hf

namespace Completes

/-- A value is read if its parts are, with one unit of fuel more. -/
theorem value_succ (h : Completes fuel) (hj : Spelled j cs) (hb : IsBlanks bs)
    (hr : Ends rest) (hf : 2 * cs.length ≤ fuel + 1) :
    readValue (fuel + 1) (bs ++ (cs ++ rest)) = some (j, rest) := by
  have hskip := hj.skipBlanks hb rest
  rw [readValue, hskip]
  cases hj with
  | null | yes | no => rfl
  | number hn =>
    have hread := readNumeral_of_spelled hn hr
    obtain ⟨c, cs', rfl, hc⟩ := exists_of_numeral hn
    simp only [List.cons_append] at hread ⊢
    -- A digit or a sign starts nothing else.
    split
    case h_7 => simp [hread]
    all_goals
      next heq =>
        obtain ⟨rfl, -⟩ := List.cons.inj heq
        rcases hc with hc | hc <;> cases hc
  | @string ps cs hps =>
    have hread := readPieces_of_spelled hps rest
    simp [hread]
  | @emptyArray bs' hbs =>
    have hclose : skipBlanks (bs' ++ ']' :: rest) = ']' :: rest := by
      rw [skipBlanks_append hbs, skipBlanks_cons (by decide)]
    simp [hclose]
  | @array items cs hitems =>
    have hread := h.items rest hitems (by simp at hf; omega)
    obtain ⟨c, cs', hcs, hc⟩ := hitems.exists_skipBlanks (']' :: rest)
    rw [← readItems_skipBlanks, hcs] at hread
    simp [hcs, hc, hread]
  | @emptyObject bs' hbs =>
    have hclose : skipBlanks (bs' ++ '}' :: rest) = '}' :: rest := by
      rw [skipBlanks_append hbs, skipBlanks_cons (by decide)]
    simp [hclose]
  | @object entries cs hentries =>
    have hread := h.entries rest hentries (by simp at hf; omega)
    obtain ⟨cs', hcs⟩ := hentries.exists_skipBlanks ('}' :: rest)
    rw [← readMembers_skipBlanks, hcs] at hread
    simp [hcs, hread]

/-- Behind a value, blanks and then a sign that does not go on with it. -/
theorem padded (h : Completes fuel) (rest : List Char) (hj : Padded j cs) {c : Char}
    (hc : isBlank c = false) (hends : Ends (c :: rest)) (hf : 2 * cs.length ≤ fuel) :
    ∃ bs, readValue fuel (cs ++ c :: rest) = some (j, bs ++ c :: rest) ∧
      skipBlanks (bs ++ c :: rest) = c :: rest := by
  cases hj with
  | @mk j bs cs bs' hb hj hb' =>
    simp only [List.length_append] at hf
    refine ⟨bs', ?_, ?_⟩
    · rw [List.append_assoc, List.append_assoc]
      exact h.value hj hb (ends_append hb' hends) (by omega)
    · rw [skipBlanks_append hb', skipBlanks_cons hc]

/-- The values of an array are read one by one, each with the fuel that is left. -/
theorem items_succ (h : Completes fuel) {items : List Json} (hs : ItemsSpelled items cs)
    (hf : 2 * cs.length + 1 ≤ fuel + 1) :
    readItems (fuel + 1) (cs ++ ']' :: rest) = some (items, rest) := by
  cases hs with
  | last hj =>
    obtain ⟨bs, hread, hskip⟩ := h.padded rest hj (c := ']') (by decide)
      (by simp [Ends]) (by omega)
    simp [readItems, hread, hskip]
  | @cons j items cs ds hj hs =>
    simp only [List.length_append, List.length_cons] at hf
    obtain ⟨bs, hread, hskip⟩ := h.padded (ds ++ ']' :: rest) hj (c := ',') (by decide)
      (by simp [Ends]) (by omega)
    have hrest := h.items rest hs (by omega)
    simp [readItems, hread, hskip, hrest]

/-- The reader comes to the name, to the colon behind it, to the value, and to the sign
behind that. -/
theorem entry (h : Completes fuel) (rest : List Char) {e : Entry} (he : EntrySpelled e cs)
    {c : Char} (hc : isBlank c = false) (hends : Ends (c :: rest)) (hf : 2 * cs.length ≤ fuel) :
    ∃ ns ds es fs, skipBlanks (cs ++ c :: rest) = '"' :: ns ∧
      readPieces ns = some (e.1, ds) ∧ skipBlanks ds = ':' :: es ∧
      readValue fuel es = some (e.2, fs) ∧ skipBlanks fs = c :: rest := by
  cases he with
  | @mk name j bs ns bs' cs hb hn hb' hj =>
    simp only [List.length_append, List.length_cons] at hf
    obtain ⟨fs, hread, hskip⟩ := h.padded rest hj hc hends (by omega)
    refine ⟨ns ++ '"' :: (bs' ++ ':' :: (cs ++ c :: rest)), bs' ++ ':' :: (cs ++ c :: rest),
      cs ++ c :: rest, fs ++ c :: rest, ?_, readPieces_of_spelled hn _, ?_, hread, hskip⟩
    · rw [List.append_assoc, skipBlanks_append hb, List.cons_append, skipBlanks_cons (by decide)]
      simp
    · rw [skipBlanks_append hb', skipBlanks_cons (by decide)]

/-- The members of an object are read one by one, each with the fuel that is left. -/
theorem entries_succ (h : Completes fuel) {entries : List Entry}
    (hs : EntriesSpelled entries cs) (hf : 2 * cs.length + 1 ≤ fuel + 1) :
    readMembers (fuel + 1) (cs ++ '}' :: rest) = some (entries, rest) := by
  cases hs with
  | last he =>
    obtain ⟨name, ns, ds, bs, hquote, hname, hcolon, hread, hskip⟩ :=
      h.entry rest he (c := '}') (by decide) (by simp [Ends]) (by omega)
    simp [readMembers, hquote, hname, hcolon, hread, hskip]
  | @cons e entries cs ds he hs =>
    simp only [List.length_append, List.length_cons] at hf
    obtain ⟨name, ns, ds', bs, hquote, hname, hcolon, hread, hskip⟩ :=
      h.entry (ds ++ '}' :: rest) he (c := ',') (by decide) (by simp [Ends]) (by omega)
    have hrest := h.entries rest hs (by omega)
    simp [readMembers, hquote, hname, hcolon, hread, hskip, hrest]

theorem succ (h : Completes fuel) : Completes (fuel + 1) where
  value hj hb hr hf := h.value_succ hj hb hr hf
  items _ hs hf := h.items_succ hs hf
  entries _ hs hf := h.entries_succ hs hf

end Completes

/-- Two units of fuel for each character are enough. -/
theorem completes (fuel : Nat) : Completes fuel := by
  induction fuel with
  | zero => exact .zero
  | succ fuel ih => exact ih.succ

/-! ## What is read is spelled -/

/-- With this much fuel the reader takes nothing but what is spelled. -/
structure Sound (fuel : Nat) : Prop where
  value : ∀ {j cs rest}, readValue fuel cs = some (j, rest) →
    ∃ bs ds, IsBlanks bs ∧ Spelled j ds ∧ cs = bs ++ (ds ++ rest)
  items : ∀ {items cs rest}, readItems fuel cs = some (items, rest) →
    ∃ ds, ItemsSpelled items ds ∧ cs = ds ++ ']' :: rest
  entries : ∀ {entries cs rest}, readMembers fuel cs = some (entries, rest) →
    ∃ ds, EntriesSpelled entries ds ∧ cs = ds ++ '}' :: rest

theorem Sound.zero : Sound 0 where
  value h := by simp [readValue] at h
  items h := by simp [readItems] at h
  entries h := by simp [readMembers] at h

namespace Sound

/-- A value that was read is spelled, if its parts are. -/
theorem value_succ (h : Sound fuel) (hread : readValue (fuel + 1) cs = some (j, rest)) :
    ∃ bs ds, IsBlanks bs ∧ Spelled j ds ∧ cs = bs ++ (ds ++ rest) := by
  obtain ⟨bs, hb, hcs⟩ := exists_blanks cs
  suffices ∃ ds, Spelled j ds ∧ skipBlanks cs = ds ++ rest by
    obtain ⟨ds, hds, hskip⟩ := this
    exact ⟨bs, ds, hb, hds, hskip ▸ hcs⟩
  rw [readValue] at hread
  split at hread
  · cases hread
    exact ⟨_, .null, by assumption⟩
  · cases hread
    exact ⟨_, .yes, by assumption⟩
  · cases hread
    exact ⟨_, .no, by assumption⟩
  · next hskip =>
    obtain ⟨⟨ps, ds⟩, hps, hj⟩ := Option.map_eq_some_iff.mp hread
    cases hj
    obtain ⟨ns, hns, rfl⟩ := spelled_of_readPieces hps
    exact ⟨_, .string hns, by simp [hskip]⟩
  · next ds hskip =>
    obtain ⟨bs', hb', hds⟩ := exists_blanks ds
    split at hread
    · next hclose =>
      cases hread
      exact ⟨_, .emptyArray hb', by rw [hskip, hds, hclose]; simp⟩
    · obtain ⟨⟨items, es⟩, hitems, hj⟩ := Option.map_eq_some_iff.mp hread
      cases hj
      obtain ⟨es, hes, hskip'⟩ := h.items hitems
      exact ⟨_, .array (hes.blanks hb'), by rw [hskip, hds, hskip']; simp⟩
  · next ds hskip =>
    obtain ⟨bs', hb', hds⟩ := exists_blanks ds
    split at hread
    · next hclose =>
      cases hread
      exact ⟨_, .emptyObject hb', by rw [hskip, hds, hclose]; simp⟩
    · obtain ⟨⟨entries, es⟩, hentries, hj⟩ := Option.map_eq_some_iff.mp hread
      cases hj
      obtain ⟨es, hes, hskip'⟩ := h.entries hentries
      exact ⟨_, .object (hes.blanks hb'), by rw [hskip, hds, hskip']; simp⟩
  · obtain ⟨⟨n, es⟩, hn, hj⟩ := Option.map_eq_some_iff.mp hread
    cases hj
    obtain ⟨ds, hds, hskip⟩ := spelled_of_readNumeral hn
    exact ⟨ds, .number hds, hskip⟩

/-- A value that is read before another sign is spelled up to that sign. -/
theorem padded (h : Sound fuel) (hread : readValue fuel cs = some (j, rest)) {c : Char}
    {ds : List Char} (hskip : skipBlanks rest = c :: ds) :
    ∃ es, Padded j es ∧ cs = es ++ c :: ds := by
  obtain ⟨bs, es, hb, hj, rfl⟩ := h.value hread
  obtain ⟨bs', hb', hrest⟩ := exists_blanks rest
  refine ⟨_, .mk hb hj hb', ?_⟩
  rw [hrest, hskip]
  simp

/-- Values that were read up to a bracket are spelled so. -/
theorem items_succ (h : Sound fuel) {items : List Json}
    (hread : readItems (fuel + 1) cs = some (items, rest)) :
    ∃ ds, ItemsSpelled items ds ∧ cs = ds ++ ']' :: rest := by
  simp only [readItems, Option.bind_eq_bind, Option.bind_eq_some_iff, Prod.exists] at hread
  obtain ⟨j, cs', hj, hread⟩ := hread
  split at hread
  · next hskip =>
    cases hread
    obtain ⟨es, hes, rfl⟩ := h.padded hj hskip
    exact ⟨es, .last hes, rfl⟩
  · next hskip =>
    simp only [Option.bind_eq_some_iff, Prod.exists, Option.pure_def, Option.some.injEq,
      Prod.mk.injEq] at hread
    obtain ⟨items', rest', hitems, rfl, rfl⟩ := hread
    obtain ⟨ds, hds, rfl⟩ := h.items hitems
    obtain ⟨es, hes, rfl⟩ := h.padded hj hskip
    exact ⟨_, .cons hes hds, by simp⟩
  · cases hread

/-- Members that were read up to a brace are spelled so. -/
theorem entries_succ (h : Sound fuel) {entries : List Entry}
    (hread : readMembers (fuel + 1) cs = some (entries, rest)) :
    ∃ ds, EntriesSpelled entries ds ∧ cs = ds ++ '}' :: rest := by
  obtain ⟨bs, hb, hcs⟩ := exists_blanks cs
  rw [readMembers] at hread
  split at hread
  · next ns hquote =>
    simp only [Option.bind_eq_bind, Option.bind_eq_some_iff, Prod.exists] at hread
    obtain ⟨name, ds, hname, hread⟩ := hread
    obtain ⟨ns', hns, rfl⟩ := spelled_of_readPieces hname
    obtain ⟨bs', hb', hds⟩ := exists_blanks ds
    split at hread
    · next es hcolon =>
      simp only [Option.bind_eq_some_iff, Prod.exists] at hread
      obtain ⟨j, fs, hj, hread⟩ := hread
      -- The name, the colon and the value, up to the sign behind them.
      have hentry : ∀ {c : Char} {gs : List Char}, skipBlanks fs = c :: gs →
          ∃ us, EntrySpelled (name, j) us ∧ cs = us ++ c :: gs := by
        intro c gs hskip
        obtain ⟨us, hus, rfl⟩ := h.padded hj hskip
        refine ⟨_, .mk hb hns hb' hus, ?_⟩
        rw [hcs, hquote, hds, hcolon]
        simp
      split at hread
      · next hskip =>
        cases hread
        obtain ⟨us, hus, rfl⟩ := hentry hskip
        exact ⟨us, .last hus, rfl⟩
      · next hskip =>
        simp only [Option.bind_eq_some_iff, Prod.exists, Option.pure_def, Option.some.injEq,
          Prod.mk.injEq] at hread
        obtain ⟨entries', rest', hentries, rfl, rfl⟩ := hread
        obtain ⟨vs, hvs, rfl⟩ := h.entries hentries
        obtain ⟨us, hus, hcs⟩ := hentry hskip
        exact ⟨_, .cons hus hvs, by rw [hcs]; simp⟩
      · cases hread
    · cases hread
  · cases hread

theorem succ (h : Sound fuel) : Sound (fuel + 1) where
  value hread := h.value_succ hread
  items hread := h.items_succ hread
  entries hread := h.entries_succ hread

end Sound

/-- Whatever the fuel, nothing is read that is not spelled. -/
theorem sound (fuel : Nat) : Sound fuel := by
  induction fuel with
  | zero => exact .zero
  | succ fuel ih => exact ih.succ

/-! ## Whole texts -/

/-- **A text is read exactly if it spells a value**, and then it is that value. -/
theorem ofChars?_eq_some_iff : ofChars? cs = some j ↔ Padded j cs := by
  constructor
  · intro h
    simp only [ofChars?, Option.bind_eq_bind, Option.bind_eq_some_iff, Prod.exists] at h
    obtain ⟨j', rest, hread, h⟩ := h
    split at h
    · next hempty =>
      cases h
      obtain ⟨bs, ds, hb, hj, rfl⟩ := (sound _).value hread
      obtain ⟨bs', hb', hrest⟩ := exists_blanks rest
      rw [List.isEmpty_iff.mp hempty, List.append_nil] at hrest
      exact .mk hb hj (hrest ▸ hb')
    · cases h
  · rintro ⟨hb, hj, hb'⟩
    have hends := ends_append hb' (by simp [Ends] : Ends [])
    rw [List.append_nil] at hends
    rw [ofChars?, (completes _).value hj hb hends (by simp only [List.length_append]; omega)]
    simp [skipBlanks_of_isBlanks hb']

/-- A text spells one value at most. -/
theorem Padded.unique {j' : Json} (h : Padded j cs) (h' : Padded j' cs) : j = j' :=
  Option.some.inj ((ofChars?_eq_some_iff.mpr h).symm.trans (ofChars?_eq_some_iff.mpr h'))

end Conveyor.Json

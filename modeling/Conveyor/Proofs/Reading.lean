/-
Conveyor.Proofs.Reading — what a text gives is what the settings become.

`setField?_eq_some_iff` says of one field which values are taken, and
`ofMembers?_eq_some_iff` of an object: it is read exactly if its members list some
fields, and then these are replaced and no others. So it does not matter in which
order they stand, nor what stands between them; and a field that is there twice is
listed by nothing. An array comes to the same as an object with the first fields.
-/
import Conveyor.Proofs.Grammar
import Conveyor.Proofs.Spelling
import Conveyor.Settings.Given
import Mathlib.Data.List.Forall2

namespace Conveyor

variable {json : Json}

/-! ## Texts of plain characters -/

namespace Piece

theorem chars?_map_char (cs : List Char) : chars? (cs.map .char) = some cs := by
  induction cs with
  | nil => rfl
  | cons c cs ih => simp [chars?, ih]

/-- Pieces of plain characters spell the text that they were made from. -/
@[simp] theorem textOf?_ofText (text : String) : Json.textOf? (ofText text) = some text := by
  simp [Json.textOf?, ofText, chars?_map_char]

end Piece

/-! ## Sizes -/

namespace Json

/-- A size is given by its plain numeral and by nothing else. -/
theorem nat?_eq_some_iff {bound n : Nat} :
    json.nat? bound = some n ↔ json = .ofNat n ∧ n ≤ bound := by
  cases json with
  | number m =>
    obtain ⟨negative, whole, plain⟩ := m
    simp only [nat?, Numeral.nat?, ofNat, Option.ite_none_right_eq_some, Option.some.injEq,
      Json.number.injEq, Numeral.mk.injEq, Bool.not_eq_true]
    constructor
    · rintro ⟨⟨rfl, rfl, h⟩, rfl⟩
      exact ⟨⟨rfl, rfl, rfl⟩, h⟩
    · rintro ⟨⟨rfl, rfl, rfl⟩, h⟩
      exact ⟨⟨rfl, rfl, h⟩, rfl⟩
  | _ => simp [nat?, ofNat]

/-- The same for a 64-bit word, whose bound is no restriction. -/
theorem word?_eq_some_iff {n : UInt64} : json.word? = some n ↔ json = .ofNat n.toNat := by
  have hn := n.toNat_lt_size
  simp only [word?, Option.map_eq_some_iff, nat?_eq_some_iff]
  constructor
  · rintro ⟨m, ⟨rfl, hm⟩, rfl⟩
    have hlt : m < UInt64.size := by
      have : 0 < UInt64.size := by decide
      omega
    rw [UInt64.toNat_ofNat_of_lt' hlt]
  · rintro rfl
    exact ⟨n.toNat, ⟨rfl, by omega⟩, UInt64.ofNat_toNat⟩

end Json

/-! ## Policies and spans -/

theorem WhenFull.ofCode?_eq_some_iff {text : String} {p : WhenFull} :
    ofCode? text = some p ↔ text = p.code := by
  constructor
  · intro h
    exact (of_decide_eq_true (List.find?_some (p := fun p : WhenFull => p.code = text) h)).symm
  · rintro rfl
    exact ofCode?_code p

/-- A policy is read from exactly the values that say it. -/
theorem WhenFull.ofJson?_eq_some_iff {p : WhenFull} : ofJson? json = some p ↔ p.Says json := by
  have hname : ∀ name, (Json.textOf? name).bind ofCode? = some p ↔
      Json.textOf? name = some p.code := by
    intro name
    simp [Option.bind_eq_some_iff, ofCode?_eq_some_iff]
  constructor
  · intro h
    unfold ofJson? at h
    split at h
    · exact .member ((hname _).mp h)
    · cases json with
      | string name => exact .name ((hname name).mp h)
      | _ => simp [Json.text?] at h
  · rintro (h | h)
    · exact (hname _).mpr h
    · exact (hname _).mpr h

namespace Span

variable {c : Span} {members : List Json.Entry} {r : UInt64 × Nat}

/-- Seconds and nanoseconds make a span of the same length, or there is none. -/
theorem ofParts?_eq_some_iff {seconds : UInt64} {nanos : Nat} :
    ofParts? seconds nanos = some c ↔
      c.seconds.toNat * nanosPerSecond + c.nanos = seconds.toNat * nanosPerSecond + nanos := by
  obtain ⟨cs, cn, hcn⟩ := c
  have hlt := cs.toNat_lt_size
  have hsum := Nat.div_add_mod nanos nanosPerSecond
  have hmod := Nat.mod_lt nanos nanosPerSecond_pos
  simp only [ofParts?, Option.ite_none_right_eq_some, Option.some.injEq, Span.mk.injEq]
  rw [← UInt64.toNat_inj]
  unfold nanosPerSecond at *
  constructor
  · rintro ⟨htotal, hseconds, rfl⟩
    rw [UInt64.toNat_ofNat_of_lt' htotal] at hseconds
    omega
  · intro h
    have htotal : seconds.toNat + nanos / 1000000000 = cs.toNat := by omega
    rw [htotal, UInt64.toNat_ofNat_of_lt' hlt]
    exact ⟨hlt, rfl, by omega⟩

/-- Parts that make up a span do so within the ranges of the parts. -/
theorem Sums.exists_word {seconds nanos : Nat} (h : c.Sums seconds nanos) :
    ∃ n : UInt64, n.toNat = seconds ∧ nanos < UInt32.size ∧ ofParts? n nanos = some c := by
  obtain ⟨hs, hn, hsum⟩ := h
  have hword := UInt64.toNat_ofNat_of_lt' hs
  exact ⟨.ofNat seconds, hword, hn, ofParts?_eq_some_iff.mpr (by rw [hword, hsum])⟩

/-- A member gives one of the parts, which has not been given yet. -/
theorem partsOfMembers?_cons {name : List Piece} {seconds : Option UInt64} {nanos : Option Nat} :
    partsOfMembers? ((name, json) :: members) seconds nanos = some r ↔
      (Json.textOf? name = some "secs" ∧ seconds = none ∧
        ∃ n : UInt64, json = .ofNat n.toNat ∧ partsOfMembers? members (some n) nanos = some r) ∨
      (Json.textOf? name = some "nanos" ∧ nanos = none ∧
        ∃ m, json = .ofNat m ∧ m < UInt32.size ∧
          partsOfMembers? members seconds (some m) = some r) := by
  have hsize : ∀ m, m ≤ UInt32.size - 1 ↔ m < UInt32.size := by
    intro m
    have : 0 < UInt32.size := by decide
    omega
  simp only [partsOfMembers?]
  split
  · next hname =>
    cases seconds with
    | some n => simp [hname]
    | none =>
      cases hword : json.word? with
      | none =>
        have hnot : ∀ n : UInt64, json ≠ .ofNat n.toNat := by
          intro n hn
          rw [Json.word?_eq_some_iff.mpr hn] at hword
          cases hword
        simp [hname, hnot]
      | some n =>
        obtain rfl := Json.word?_eq_some_iff.mp hword
        simp [hname, Json.ofNat, UInt64.toNat_inj]
  · next hname =>
    cases nanos with
    | some m => simp [hname]
    | none =>
      cases hnat : json.nat? (UInt32.size - 1) with
      | none =>
        have hnot : ∀ m, m < UInt32.size → json ≠ .ofNat m := by
          intro m hm hjson
          rw [Json.nat?_eq_some_iff.mpr ⟨hjson, (hsize m).mpr hm⟩] at hnat
          cases hnat
        simp only [hname, Option.some.injEq, String.reduceEq, false_and, false_or, true_and]
        refine iff_of_false (by simp) ?_
        rintro ⟨m, hjson, hm, -⟩
        exact hnot m hm hjson
      | some m =>
        obtain ⟨rfl, hm⟩ := Json.nat?_eq_some_iff.mp hnat
        simp [hname, Json.ofNat, (hsize m).mp hm]
  · next hsecs hnanos =>
    have hs : Json.textOf? name ≠ some "secs" := hsecs
    have hn : Json.textOf? name ≠ some "nanos" := hnanos
    simp [hs, hn]

/-- With both parts given, nothing more may come. -/
theorem partsOfMembers?_both {n : UInt64} {m : Nat} :
    partsOfMembers? members (some n) (some m) = some r ↔ members = [] ∧ r = (n, m) := by
  cases members with
  | nil => simp [partsOfMembers?, eq_comm]
  | cons e members =>
    obtain ⟨name, json⟩ := e
    simp [partsOfMembers?_cons]

/-- Both parts have to be there, once each, and nothing else. -/
theorem partsOfMembers?_eq_some_iff {n : UInt64} {m : Nat} :
    partsOfMembers? members none none = some (n, m) ↔
      ∃ a b, Json.textOf? a = some "secs" ∧ Json.textOf? b = some "nanos" ∧ m < UInt32.size ∧
        (members = [(a, .ofNat n.toNat), (b, .ofNat m)] ∨
          members = [(b, .ofNat m), (a, .ofNat n.toNat)]) := by
  constructor
  · intro h
    match members with
    | [] => simp [partsOfMembers?] at h
    | [(x, json)] =>
      simp only [partsOfMembers?_cons] at h
      simp [partsOfMembers?] at h
    | (x, json) :: (y, json') :: rest =>
      simp only [partsOfMembers?_cons, partsOfMembers?_both, Prod.mk.injEq, true_and,
        reduceCtorEq, false_and, and_false, or_false, false_or] at h
      rcases h with ⟨hx, n', rfl, hy, m', rfl, hm, rfl, rfl, rfl⟩ |
        ⟨hx, m', rfl, hm, hy, n', rfl, rfl, rfl, rfl⟩
      · exact ⟨x, y, hx, hy, hm, .inl rfl⟩
      · exact ⟨y, x, hy, hx, hm, .inr rfl⟩
  · rintro ⟨a, b, ha, hb, hm, rfl | rfl⟩ <;>
      simp [partsOfMembers?_cons, partsOfMembers?_both, ha, hb, hm]

/-- A span is read from exactly the values that say it. -/
theorem ofJson?_eq_some_iff : ofJson? json = some c ↔ c.Says json := by
  constructor
  · intro h
    unfold ofJson? at h
    split at h
    · simp only [Option.bind_eq_bind, Option.bind_eq_some_iff, Prod.exists] at h
      obtain ⟨n, m, hparts, hsum⟩ := h
      obtain ⟨a, b, ha, hb, hm, rfl | rfl⟩ := partsOfMembers?_eq_some_iff.mp hparts
      · exact .members ⟨n.toNat_lt_size, hm, ofParts?_eq_some_iff.mp hsum⟩ ha hb
      · exact .swapped ⟨n.toNat_lt_size, hm, ofParts?_eq_some_iff.mp hsum⟩ ha hb
    · simp only [Option.bind_eq_bind, Option.bind_eq_some_iff] at h
      obtain ⟨n, hn, m, hm, hsum⟩ := h
      obtain ⟨rfl, hbound⟩ := Json.nat?_eq_some_iff.mp hm
      obtain rfl := Json.word?_eq_some_iff.mp hn
      exact .items ⟨n.toNat_lt_size, Nat.lt_of_le_pred (by decide) hbound,
        ofParts?_eq_some_iff.mp hsum⟩
    · cases h
  · rintro (hsum | ⟨hsum, ha, hb⟩ | ⟨hsum, ha, hb⟩)
    · obtain ⟨n, rfl, hm, hspan⟩ := hsum.exists_word
      have hnat := Json.nat?_eq_some_iff.mpr ⟨rfl, Nat.le_sub_one_of_lt hm⟩
      simp only [ofJson?, Json.word?_eq_some_iff.mpr rfl, hnat, Option.bind_eq_bind,
        Option.bind_some, hspan]
    · obtain ⟨n, rfl, hm, hspan⟩ := hsum.exists_word
      simp [ofJson?, partsOfMembers?_eq_some_iff.mpr ⟨_, _, ha, hb, hm, .inl rfl⟩, hspan]
    · obtain ⟨n, rfl, hm, hspan⟩ := hsum.exists_word
      simp [ofJson?, partsOfMembers?_eq_some_iff.mpr ⟨_, _, ha, hb, hm, .inr rfl⟩, hspan]

end Span

namespace Settings

variable {s t : Settings} {f : Field}

/-- One field is read from exactly the values that say what it is to hold. -/
theorem setField?_eq_some_iff :
    s.setField? f json = some t ↔ ∃ v, f.Says v json ∧ t = s.put f v := by
  constructor
  · intro h
    unfold setField? at h
    split at h
    · obtain ⟨n, hn, rfl⟩ := Option.map_eq_some_iff.mp h
      exact ⟨n, Json.word?_eq_some_iff.mp hn ▸ .channels n, rfl⟩
    · obtain ⟨n, hn, rfl⟩ := Option.map_eq_some_iff.mp h
      exact ⟨n, Json.word?_eq_some_iff.mp hn ▸ .room n, rfl⟩
    · cases h
      exact ⟨_, .noBatch, rfl⟩
    · obtain ⟨n, hn, rfl⟩ := Option.map_eq_some_iff.mp h
      exact ⟨_, Json.word?_eq_some_iff.mp hn ▸ .batch n, rfl⟩
    · obtain ⟨p, hp, rfl⟩ := Option.map_eq_some_iff.mp h
      exact ⟨p, .policy (WhenFull.ofJson?_eq_some_iff.mp hp), rfl⟩
    · obtain ⟨c, hc, rfl⟩ := Option.map_eq_some_iff.mp h
      exact ⟨c, .cycle (Span.ofJson?_eq_some_iff.mp hc), rfl⟩
    · cases h
      exact ⟨_, .metered _, rfl⟩
    · cases h
  · rintro ⟨v, hv, rfl⟩
    cases hv with
    | channels n | room n => simp [setField?, Json.word?_eq_some_iff.mpr rfl, put]
    | noBatch => rfl
    | batch n =>
      have hword : (Json.ofNat n.toNat).word? = some n := Json.word?_eq_some_iff.mpr rfl
      unfold Json.ofNat at hword ⊢
      simp [setField?, hword, put]
    | policy hp => simp [setField?, WhenFull.ofJson?_eq_some_iff.mpr hp, put]
    | cycle hc => simp [setField?, Span.ofJson?_eq_some_iff.mpr hc, put]
    | metered b => rfl

/-! ## Replacing fields -/

/-- Settings are what their six fields are. -/
theorem ext_get (h : ∀ f, s.get f = t.get f) : s = t := by
  obtain ⟨channels, room, batch, policy, cycle, metered⟩ := s
  obtain rfl : channels = t.channels := h .channels
  obtain rfl : room = t.room := h .room
  obtain rfl : batch = t.batch := h .batch
  obtain rfl : policy = t.policy := h .policy
  obtain rfl : cycle = t.cycle := h .cycle
  obtain rfl : metered = t.metered := h .metered
  rfl

/-- Each field is written on its own. -/
theorem get_put (s : Settings) (f : Field) (v : f.Value) (g : Field) :
    (s.put f v).get g = if h : f = g then h ▸ v else s.get g := by
  cases f <;> cases g <;> rfl

/-- A field holds what was given for it, and otherwise what it held. -/
@[simp] theorem get_replace (s : Settings) (given : Given) (f : Field) :
    (s.replace given).get f = (given f).getD (s.get f) := by
  cases f <;> rfl

@[simp] theorem replace_nothing (s : Settings) : s.replace .nothing = s := rfl

/-- To replace a field and then others is to replace all of them. -/
theorem replace_put {given : Given} {v : f.Value} (h : given f = none) :
    (s.put f v).replace given = s.replace (given.add f v) := by
  refine ext_get fun g => ?_
  rw [get_replace, get_replace, get_put, Given.add]
  split
  · next hfg =>
    subst hfg
    simp [h]
  · rfl

end Settings

/-! ## Objects -/

theorem Field.eq_name_of_ofName? {f : Field} {text : String} (h : ofName? text = some f) :
    text = f.name :=
  (of_decide_eq_true (List.find?_some (p := fun f : Field => f.name = text) h)).symm

/-- A name that is not known is that of no field. -/
theorem Field.ne_name_of_ofName? {text : String} (h : ofName? text = none) (f : Field) :
    text ≠ f.name := by
  rintro rfl
  simp at h

/-- No two fields have one name. -/
theorem Field.name_injective {f g : Field} (h : f.name = g.name) : f = g := by
  simpa [h] using (ofName?_name f).symm

namespace Given

variable {given : Given} {members : List Json.Entry} {f : Field} {name : List Piece}

@[simp] theorem add_self (given : Given) (f : Field) (v : f.Value) : given.add f v f = some v := by
  simp [add]

theorem add_of_ne {g : Field} (given : Given) (v : f.Value) (h : f ≠ g) :
    given.add f v g = given g := by
  simp [add, h]

/-- A list of fields is given one field after the other. -/
theorem only_cons (f : Field) (fields : List Field) (values : (f : Field) → f.Value) :
    (only fields values).add f (values f) = only (f :: fields) values := by
  funext g
  by_cases hfg : f = g
  · subst hfg
    simp [only]
  · simp [add_of_ne _ _ hfg, only, Ne.symm hfg]

/-- A field that a member names is given. -/
theorem Lists.isSome (h : given.Lists members) (hmem : (name, json) ∈ members)
    (hname : Json.textOf? name = some f.name) : (given f).isSome := by
  induction h with
  | nil => cases hmem
  | @other _ name' text _ _ htext hne _ ih =>
    rcases List.mem_cons.mp hmem with heq | hmem
    · obtain ⟨rfl, rfl⟩ := Prod.mk.inj heq
      exact absurd (Option.some.inj (htext.symm.trans hname)) (hne f)
    · exact ih hmem
  | @field given g v _ _ _ htext _ _ _ ih =>
    by_cases hgf : g = f
    · subst hgf
      simp
    rw [add_of_ne given v hgf]
    rcases List.mem_cons.mp hmem with heq | hmem
    · obtain ⟨rfl, rfl⟩ := Prod.mk.inj heq
      exact absurd (Field.name_injective (Option.some.inj (htext.symm.trans hname))) hgf
    · exact ih hmem

/-- Members that list fields name no field twice. -/
theorem Lists.not_twice (h : given.Lists members) {a b : List Piece} {x y : Json}
    (ha : Json.textOf? a = some f.name) (hb : Json.textOf? b = some f.name) :
    ¬ [(a, x), (b, y)].Sublist members := by
  induction h with
  | nil => simp
  | other htext hne _ ih =>
    intro hsub
    cases hsub with
    | cons _ hsub => exact ih hsub
    | cons_cons _ hsub => exact hne f (Option.some.inj (htext.symm.trans ha))
  | @field given g v _ _ _ htext _ hfresh hl ih =>
    intro hsub
    cases hsub with
    | cons _ hsub => exact ih hsub
    | cons_cons _ hsub =>
      obtain rfl := Field.name_injective (Option.some.inj (htext.symm.trans ha))
      simpa [hfresh] using hl.isSome (List.singleton_sublist.mp hsub) hb

end Given

namespace Settings

variable {s t : Settings} {members : List Json.Entry} {given : Given}

/-- **An object is read exactly if its members list some fields** that no earlier member
has given; then these fields are replaced, and no others. -/
theorem ofMembers?_eq_some_iff {seen : List Field} :
    s.ofMembers? seen members = some t ↔
      ∃ given : Given, given.Lists members ∧ (∀ f ∈ seen, given f = none) ∧
        t = s.replace given := by
  constructor
  · intro h
    induction members generalizing s seen with
    | nil =>
      obtain rfl := Option.some.inj h
      exact ⟨.nothing, .nil, fun _ _ => rfl, rfl⟩
    | cons e members ih =>
      obtain ⟨name, json⟩ := e
      simp only [ofMembers?, Option.bind_eq_bind, Option.bind_eq_some_iff] at h
      obtain ⟨text, htext, h⟩ := h
      cases hf : Field.ofName? text with
      | none =>
        simp only [hf] at h
        obtain ⟨given, hl, hseen, rfl⟩ := ih h
        exact ⟨given, .other htext (Field.ne_name_of_ofName? hf) hl, hseen, rfl⟩
      | some f =>
        simp only [hf, Option.bind_eq_some_iff, Option.ite_none_left_eq_some] at h
        obtain ⟨hnew, s', hset, h⟩ := h
        obtain ⟨v, hv, rfl⟩ := setField?_eq_some_iff.mp hset
        obtain ⟨given, hl, hseen, rfl⟩ := ih h
        have hfresh : given f = none := hseen f (by simp)
        rw [Field.eq_name_of_ofName? hf] at htext
        refine ⟨given.add f v, .field htext hv hfresh hl, fun g hg => ?_, replace_put hfresh⟩
        rw [Given.add_of_ne given v (ne_of_mem_of_not_mem hg hnew).symm]
        exact hseen g (by simp [hg])
  · rintro ⟨given, hl, hseen, rfl⟩
    induction hl generalizing s seen with
    | nil => rfl
    | @other given name text json members htext hne _ ih =>
      have hf : Field.ofName? text = none := by
        cases hf : Field.ofName? text with
        | none => rfl
        | some f => exact absurd (Field.eq_name_of_ofName? hf) (hne f)
      simp [ofMembers?, htext, hf, ih hseen]
    | @field given f v name json members htext hv hfresh _ ih =>
      have hnew : f ∉ seen := fun hf => by simpa using hseen f hf
      have hseen' : ∀ g ∈ f :: seen, given g = none := by
        intro g hg
        rcases List.mem_cons.mp hg with rfl | hg
        · exact hfresh
        · rw [← Given.add_of_ne given v (ne_of_mem_of_not_mem hg hnew).symm]
          exact hseen g hg
      simp [ofMembers?, htext, hnew, setField?_eq_some_iff.mpr ⟨v, hv, rfl⟩, ih hseen',
        replace_put hfresh]

/-! ## Arrays -/

/-- Items that say values of the first fields replace these fields. -/
theorem ofItems?_of_says {values : (f : Field) → f.Value} {fields : List Field}
    {items : List Json} (left : List Field) (hnodup : fields.Nodup)
    (h : List.Forall₂ (fun f json => f.Says (values f) json) fields items) :
    s.ofItems? (fields ++ left) items = some (s.replace (.only fields values)) := by
  induction h generalizing s with
  | nil => simp [ofItems?]; rfl
  | @cons f json fields items hv _ ih =>
    obtain ⟨hnew, hnodup⟩ := List.nodup_cons.mp hnodup
    have hfresh : Given.only fields values f = none := if_neg hnew
    simp [ofItems?, setField?_eq_some_iff.mpr ⟨_, hv, rfl⟩, ih hnodup, replace_put hfresh,
      Given.only_cons]

/-! ## Texts -/

/-- A text is read as the value that it spells. -/
theorem read?_of_padded {text : String} (h : Json.Padded json text.toList) :
    read? text = ofJson? json := by
  simp [read?, Json.read?, Json.ofChars?_eq_some_iff.mpr h]

/-- **What a text gives is what the settings become.** An object that lists some fields, in
whatever order and with whatever other members, replaces these fields of the standard
settings and no others; an object with a field twice is refused; and an array gives the
first fields, so that it is read as the objects that list the same. -/
theorem read?_given :
    (∀ (text : String) (members : List Json.Entry) (given : Given),
      Json.Padded (.object members) text.toList → given.Lists members →
        read? text = some (standard.replace given)) ∧
    (∀ (text : String) (members : List Json.Entry) (f : Field) (a b : List Piece) (x y : Json),
      Json.Padded (.object members) text.toList → [(a, x), (b, y)].Sublist members →
        Json.textOf? a = some f.name → Json.textOf? b = some f.name → read? text = none) ∧
    ∀ (k : Nat) (values : (f : Field) → f.Value) (items : List Json) (text : String),
      List.Forall₂ (fun f json => f.Says (values f) json) (Field.all.take k) items →
        Json.Padded (.array items) text.toList →
          read? text = some (standard.replace (.only (Field.all.take k) values)) ∧
          ∀ (text' : String) (members : List Json.Entry),
            Json.Padded (.object members) text'.toList →
              (Given.only (Field.all.take k) values).Lists members → read? text' = read? text := by
  have hobject : ∀ (text : String) (members : List Json.Entry) (given : Given),
      Json.Padded (.object members) text.toList → given.Lists members →
        read? text = some (standard.replace given) := by
    intro text members given htext hl
    rw [read?_of_padded htext]
    exact ofMembers?_eq_some_iff.mpr ⟨given, hl, by simp, rfl⟩
  refine ⟨hobject, ?_, ?_⟩
  · intro text members f a b x y htext hsub ha hb
    rw [read?_of_padded htext, Option.eq_none_iff_forall_ne_some]
    intro t ht
    obtain ⟨given, hl, -, -⟩ := ofMembers?_eq_some_iff.mp ht
    exact hl.not_twice ha hb hsub
  · intro k values items text hitems htext
    have hnodup : (Field.all.take k).Nodup := (List.take_sublist k _).nodup (by decide)
    have hread : read? text = some (standard.replace (.only (Field.all.take k) values)) := by
      have h := ofItems?_of_says (s := standard) (Field.all.drop k) hnodup hitems
      rw [List.take_append_drop] at h
      rw [read?_of_padded htext]
      exact h
    refine ⟨hread, fun text' members htext' hl => ?_⟩
    exact (hobject text' members _ htext' hl).trans hread.symm

theorem read?_given_note :
    read? "\x7b \"note\" : [1, null], \"strategy\" : \"IF_POSSIBLE\", \"channel_size\" : 3 \x7d"
        = some { standard with channels := 3, policy := .refuse } ∧
      read? "\x7b\"channel_size\":3, \"channel_size\":null\x7d" = none ∧
      read? "[3, 16]" = some { standard with channels := 3, room := 16 } ∧
      read? "\x7b\"buffer_size\":16, \"channel_size\":3\x7d" = read? "[3, 16]" := by
  obtain ⟨hobject, htwice, harray⟩ := read?_given
  have hblank : Json.IsBlanks [' '] := by simp [Json.IsBlanks, Json.isBlank]
  have hone : Json.Spelled (.ofNat 1) ['1'] := Json.spelled_ofNat 1
  have hthree : Json.Spelled (.ofNat 3) ['3'] := Json.spelled_ofNat 3
  have hsixteen : Json.Spelled (.ofNat 16) ['1', '6'] := Json.spelled_ofNat 16
  have hchannels := Piece.spelled_ofText "channel_size" (by simp [Piece.IsPlain])
  let values : (f : Field) → f.Value := ({ standard with channels := 3, room := 16 } : Settings).get
  have hnote : Json.Padded
      (.object [(Piece.ofText "note", .array [.ofNat 1, .null]),
        (Piece.ofText "strategy", .string (Piece.ofText "IF_POSSIBLE")),
        (Piece.ofText "channel_size", .ofNat 3)])
      "\x7b \"note\" : [1, null], \"strategy\" : \"IF_POSSIBLE\", \"channel_size\" : 3 \x7d".toList := by
    have hlist := Json.Spelled.array (.cons hone.padded
      (.last (.mk hblank .null Json.isBlanks_nil)))
    have hcode := Json.Spelled.string
      (Piece.spelled_ofText "IF_POSSIBLE" (by simp [Piece.IsPlain]))
    have hname := Piece.spelled_ofText "note" (by simp [Piece.IsPlain])
    have hpolicy := Piece.spelled_ofText "strategy" (by simp [Piece.IsPlain])
    simpa using (Json.Spelled.object
      (.cons (.mk hblank hname hblank (.mk hblank hlist Json.isBlanks_nil))
        (.cons (.mk hblank hpolicy hblank (.mk hblank hcode Json.isBlanks_nil))
          (.last (.mk hblank hchannels hblank (.mk hblank hthree hblank)))))).padded
  have hlists : ((Given.nothing.add .channels (3 : UInt64)).add .policy .refuse).Lists
      [(Piece.ofText "note", .array [.ofNat 1, .null]),
        (Piece.ofText "strategy", .string (Piece.ofText "IF_POSSIBLE")),
        (Piece.ofText "channel_size", .ofNat 3)] :=
    .other (Piece.textOf?_ofText "note") (fun f => by cases f <;> decide)
      (.field (f := .policy) (by rfl) (.policy (.name (by rfl))) (by rfl)
        (.field (f := .channels) (by rfl) (.channels 3) (by rfl) .nil))
  have htwo : Json.Padded
      (.object [(Piece.ofText "channel_size", .ofNat 3), (Piece.ofText "channel_size", .null)])
      "\x7b\"channel_size\":3, \"channel_size\":null\x7d".toList := by
    simpa using (Json.Spelled.object
      (.cons (.mk Json.isBlanks_nil hchannels Json.isBlanks_nil hthree.padded)
        (.last (.mk hblank hchannels Json.isBlanks_nil Json.Spelled.null.padded)))).padded
  have hitems : Json.Padded (.array [.ofNat 3, .ofNat 16]) "[3, 16]".toList := by
    simpa using (Json.Spelled.array (.cons hthree.padded
      (.last (.mk hblank hsixteen Json.isBlanks_nil)))).padded
  have hmembers : Json.Padded
      (.object [(Piece.ofText "buffer_size", .ofNat 16), (Piece.ofText "channel_size", .ofNat 3)])
      "\x7b\"buffer_size\":16, \"channel_size\":3\x7d".toList := by
    have hroom := Piece.spelled_ofText "buffer_size" (by simp [Piece.IsPlain])
    simpa using (Json.Spelled.object
      (.cons (.mk Json.isBlanks_nil hroom Json.isBlanks_nil hsixteen.padded)
        (.last (.mk hblank hchannels Json.isBlanks_nil hthree.padded)))).padded
  obtain ⟨hread, hsame⟩ := harray 2 values [.ofNat 3, .ofNat 16] "[3, 16]"
    (.cons (.channels 3) (.cons (.room 16) .nil)) hitems
  refine ⟨hobject _ _ _ hnote hlists, ?_, hread, hsame _ _ hmembers ?_⟩
  · exact htwice _ _ .channels _ _ _ _ htwo (.refl _) (by rfl) (by rfl)
  · have hboth : (Given.nothing.add .channels (3 : UInt64)).add .room (16 : UInt64) =
        Given.only [.channels, .room] values := by
      funext f
      cases f <;> rfl
    show (Given.only [.channels, .room] values).Lists _
    rw [← hboth]
    exact .field (f := .room) (by rfl) (.room 16) (by rfl)
      (.field (f := .channels) (by rfl) (.channels 3) (by rfl) .nil)

end Settings

end Conveyor

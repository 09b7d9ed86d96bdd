import StyleResolution.Decimal.Numeral
import StyleResolution.Text.Name

/-! # What readers take

A reader of a token takes the longest text of its kind. So whatever it takes, it takes again in front
of any text that does not carry the token on.
-/

namespace StyleResolution

open Reader

namespace Reader

variable {α β : Type} {p q : Reader α} {f : α → Reader β} {s rest : List Char}

def Ends (kind : Char → Bool) (s : List Char) : Prop :=
  ∀ c ∈ s.head?, kind c = false

theorem bind_of_eq (h : p s = some (a, rest)) : (p >>= f) s = f a rest := by
  rw [bind_apply, h]

theorem bind_of_none (h : p s = none) : (p >>= f) s = none := by
  rw [bind_apply, h]

theorem orElse_of_none (h : p s = none) : (p <|> q) s = q s := by
  rw [orElse_apply, h]

theorem orElse_of_some (h : p s = some found) : (p <|> q) s = some found := by
  rw [orElse_apply, h]

theorem orElse_eq_left (h : p s = none → q s = none) : (p <|> q) s = p s := by
  rw [orElse_apply]
  cases read : p s with
  | none => exact h read
  | some found => rfl

theorem bind_eq_some :
    (p >>= f) s = some (b, rest) ↔ ∃ a mid, p s = some (a, mid) ∧ f a mid = some (b, rest) := by
  rw [bind_apply]
  cases p s with
  | none => simp
  | some found =>
    obtain ⟨a, mid⟩ := found
    simp [and_assoc]

theorem orElse_eq_some :
    (p <|> q) s = some found ↔ p s = some found ∨ p s = none ∧ q s = some found := by
  rw [orElse_apply]
  cases p s <;> simp

@[simp] theorem satisfy_cons (kind : Char → Bool) (c : Char) (s : List Char) :
    satisfy kind (c :: s) = if kind c then some (c, s) else none := rfl

@[simp] theorem char_cons (c d : Char) (s : List Char) :
    char c (d :: s) = if d = c then some (d, s) else none := by
  simp [char]

theorem satisfy_eq_some : satisfy kind s = some (c, rest) ↔ s = c :: rest ∧ kind c = true := by
  cases s with
  | nil => simp [satisfy]
  | cons d s => grind [satisfy]

theorem char_eq_some : char c s = some (d, rest) ↔ s = c :: rest ∧ d = c := by
  rw [char, satisfy_eq_some]
  grind

theorem opt_eq_some : opt p s = some (o, rest) ↔
      (∃ a, o = some a ∧ p s = some (a, rest)) ∨ o = none ∧ s = rest ∧ p s = none := by
  unfold opt
  grind

theorem opt_of_none (h : p s = none) : opt p s = some (none, s) := by
  rw [opt, h]

theorem opt_of_some (h : p s = some (a, rest)) : opt p s = some (some a, rest) := by
  rw [opt, h]

theorem takeWhile_append (all : cs.all kind = true) (ends : Ends kind rest) :
    (cs ++ rest).takeWhile kind = cs ∧ (cs ++ rest).dropWhile kind = rest := by
  have here := List.all_eq_true.mp all
  rw [List.takeWhile_append_of_pos here, List.dropWhile_append_of_pos here]
  cases rest with
  | nil => simp
  | cons c rest => simp [show kind c = false from ends c rfl]

theorem takeWhile_eq_some :
    takeWhile kind s = some (cs, rest) ↔ s = cs ++ rest ∧ cs.all kind = true ∧ Ends kind rest := by
  constructor
  · intro h
    cases h
    refine ⟨List.takeWhile_append_dropWhile.symm, List.all_takeWhile, fun c first => ?_⟩
    have other := List.head?_dropWhile_not kind s
    rw [first] at other
    simpa using other
  · intro h
    obtain ⟨rfl, all, ends⟩ := h
    obtain ⟨taken, left⟩ := takeWhile_append all ends
    rw [takeWhile, taken, left]

theorem takeWhile1_eq_some : takeWhile1 kind s = some (cs, rest) ↔
      s = cs ++ rest ∧ cs ≠ [] ∧ cs.all kind = true ∧ Ends kind rest := by
  have whole : takeWhile kind s = some (cs, rest) ↔ _ := takeWhile_eq_some
  simp only [takeWhile, Option.some.injEq, Prod.mk.injEq] at whole
  unfold takeWhile1
  grind

end Reader

open Reader (Ends)

namespace Text

theorem isAlpha_iff {c : Char} :
    c.isAlpha = true ↔ 65 ≤ c.toNat ∧ c.toNat ≤ 90 ∨ 97 ≤ c.toNat ∧ c.toNat ≤ 122 := by
  change (decide (c.val ≥ 65 ∧ c.val ≤ 90) || (decide (c.val ≥ 97) && decide (c.val ≤ 122))) = true
    ↔ _
  simp [UInt32.le_iff_toNat_le]

theorem isDigit_iff {c : Char} : c.isDigit = true ↔ 48 ≤ c.toNat ∧ c.toNat ≤ 57 := by
  simp [Char.isDigit, UInt32.le_iff_toNat_le]

theorem char_eq_iff {c d : Char} : c = d ↔ c.toNat = d.toNat := by
  simp [Char.ext_iff, ← UInt32.toNat_inj]

theorem dash_of_isIdentStart (h : isIdentStart c = true) : (c == '-') = false := by
  cases same : c == '-' with
  | false => rfl
  | true =>
    rw [beq_iff_eq.mp same] at h
    cases h

def IsIdent (cs : List Char) : Prop :=
  ∃ dashes first others, cs = dashes ++ first :: others ∧ (∀ c ∈ dashes, c = '-') ∧
    isIdentStart first = true ∧ others.all isNameChar = true

theorem IsIdent.first (h : IsIdent cs) :
    ∃ c rest, cs = c :: rest ∧ (c = '-' ∨ isIdentStart c = true) := by
  obtain ⟨dashes, first, others, rfl, isDash, starts, -⟩ := h
  cases dashes with
  | nil => exact ⟨first, others, rfl, .inr starts⟩
  | cons c dashes => exact ⟨c, _, rfl, .inl (isDash c (by simp))⟩

theorem readName_eq_some : readName s = some (cs, rest) ↔
    s = cs ++ rest ∧ cs ≠ [] ∧ cs.all isNameChar = true ∧ Ends isNameChar rest :=
  takeWhile1_eq_some

theorem readIdent_eq_some : readIdent s = some (cs, rest) ↔
    s = cs ++ rest ∧ IsIdent cs ∧ Ends isNameChar rest := by
  simp only [readIdent, bind_eq_some, takeWhile_eq_some, satisfy_eq_some,
    pure_apply, IsIdent, List.all_eq_true, beq_iff_eq]
  constructor
  · grind
  · intro h
    obtain ⟨rfl, ⟨dashes, first, others, rfl, isDash, starts, named⟩, ends⟩ := h
    have other : Ends (· == '-') (first :: others ++ rest) := by
      intro c here
      cases here
      exact dash_of_isIdentStart starts
    exact ⟨dashes, _, ⟨by simp, isDash, other⟩, first, _, ⟨rfl, starts⟩, others, rest,
      ⟨rfl, named, ends⟩, by simp⟩

theorem readMarked_eq_some : readMarked s = some (cs, rest) ↔
    ∃ mark name, cs = mark :: name ∧ (mark = '.' ∨ mark = '#') ∧ s = cs ++ rest ∧ name ≠ [] ∧
      name.all isNameChar = true ∧ Ends isNameChar rest := by
  simp only [readMarked, bind_eq_some, satisfy_eq_some, readName_eq_some,
    pure_apply]
  grind

end Text

namespace Decimal

theorem isNameChar_of_isDigit (h : isDigit c = true) : Text.isNameChar c = true := by
  have digit : c.isDigit = true := h
  simp [Text.isNameChar, Char.isAlphanum, digit]

theorem not_isDigit_of_isIdentStart (h : Text.isIdentStart c = true) : isDigit c = false := by
  cases digit : isDigit c with
  | false => rfl
  | true =>
    have digit := Text.isDigit_iff.mp digit
    simp [Text.isIdentStart, Text.isBeyondAscii, Text.isAlpha_iff, Text.char_eq_iff] at h
    omega

namespace Numeral

/-- There are digits, before the point or after it. -/
structure WellFormed (n : Numeral) : Prop where
  whole : n.whole.all isDigit = true
  fraction : n.fraction.all isDigit = true
  some : n.whole ≠ [] ∨ n.fraction ≠ []

def magnitude (n : Numeral) : List Char :=
  n.whole ++ if n.fraction.isEmpty then [] else '.' :: n.fraction

theorem chars_eq (n : Numeral) :
    n.chars = if n.negative then '-' :: n.magnitude else n.magnitude := by
  cases negative : n.negative <;> simp [chars, magnitude, negative]

theorem WellFormed.first {n : Numeral} (h : n.WellFormed) :
    ∃ c cs, n.magnitude = c :: cs ∧ (isDigit c = true ∨ c = '.') := by
  obtain ⟨negative, whole, fraction⟩ := n
  unfold magnitude
  cases whole with
  | cons c cs => exact ⟨c, _, rfl, .inl (List.all_eq_true.mp h.whole c (by simp))⟩
  | nil =>
    cases fraction with
    | nil => simpa using h.some
    | cons c cs => exact ⟨'.', c :: cs, rfl, .inr rfl⟩

theorem readFraction_eq_some : readFraction s = some (ds, rest) ↔
    s = '.' :: ds ++ rest ∧ ds ≠ [] ∧ ds.all isDigit = true ∧ Ends isDigit rest := by
  simp only [readFraction, bind_eq_some, char_eq_some, takeWhile1_eq_some]
  grind

theorem wellFormed_of_read (h : read s = some (n, rest)) : n.WellFormed ∧ s = n.chars ++ rest := by
  simp only [read, readMagnitude, bind_eq_some, opt_eq_some, char_eq_some,
    orElse_eq_some, takeWhile1_eq_some, readFraction_eq_some, pure_apply] at h
  obtain ⟨sign, afterSign, isSign, ⟨whole, fraction⟩, left, magnitude, h⟩ := h
  simp only [Option.some.injEq, Prod.mk.injEq] at h
  obtain ⟨rfl, rfl⟩ := h
  have signed : s = (if sign.isSome then ['-'] else []) ++ afterSign := by grind
  have digits : afterSign = whole ++ (if fraction.isEmpty then [] else '.' :: fraction) ++ left ∧
      whole.all isDigit = true ∧ fraction.all isDigit = true ∧ (whole ≠ [] ∨ fraction ≠ []) := by
    grind
  refine ⟨⟨digits.2.1, digits.2.2.1, digits.2.2.2⟩, ?_⟩
  rw [signed, digits.1]
  simp [chars]

theorem readFraction_of_ends (point : Ends (· == '.') rest) : readFraction rest = none := by
  cases rest with
  | nil => rfl
  | cons c rest =>
    have other : ¬ c = '.' := by simpa using point c rfl
    simp [readFraction, bind_apply, other]

theorem readMagnitude_append {n : Numeral} (h : n.WellFormed) (ends : Ends isDigit rest)
    (point : Ends (· == '.') rest) :
    readMagnitude (n.magnitude ++ rest) = some ((n.whole, n.fraction), rest) := by
  obtain ⟨negative, whole, fraction⟩ := n
  have none := readFraction_of_ends point
  simp only [readMagnitude, magnitude, bind_eq_some, opt_eq_some,
    orElse_eq_some, takeWhile1_eq_some, pure_apply]
  by_cases missing : whole = []
  · have some : fraction ≠ [] := h.some.resolve_left (by simp [missing])
    refine .inr ⟨?_, fraction, rest, ?_, by simp [missing]⟩
    · simp [missing, some, bind_apply, takeWhile1, isDigit]
    · exact readFraction_eq_some.mpr ⟨by simp [missing, some], some, h.fraction, ends⟩
  · by_cases plain : fraction = []
    · refine .inl ⟨whole, rest, ⟨by simp [plain], missing, h.whole, ends⟩, Option.none, rest, ?_⟩
      simp [none, plain]
    · have later : Ends isDigit ('.' :: fraction ++ rest) := by simp [Ends, isDigit]
      refine .inl ⟨whole, _, ⟨by simp [plain], missing, h.whole, later⟩, fraction, rest, ?_⟩
      simpa using readFraction_eq_some.mpr ⟨rfl, plain, h.fraction, ends⟩

theorem read_chars {n : Numeral} (h : n.WellFormed) (ends : Ends isDigit rest)
    (point : Ends (· == '.') rest) : read (n.chars ++ rest) = some (n, rest) := by
  have magnitude := readMagnitude_append h ends point
  obtain ⟨c, cs, here, first⟩ := h.first
  obtain ⟨negative, whole, fraction⟩ := n
  rw [chars_eq]
  cases negative with
  | true => simp [read, bind_apply, opt, magnitude]
  | false =>
    have unsigned : ¬ c = '-' := by
      rintro rfl
      simp [isDigit] at first
    rw [here] at magnitude ⊢
    rw [List.cons_append] at magnitude
    simp [read, bind_apply, opt, unsigned, magnitude]

theorem read_ident (h : Text.IsIdent cs) (after : List Char) : read (cs ++ after) = none := by
  cases found : read (cs ++ after) with
  | none => rfl
  | some result =>
    obtain ⟨n, rest⟩ := result
    obtain ⟨wellFormed, same⟩ := wellFormed_of_read found
    obtain ⟨d, ds, here, first⟩ := wellFormed.first
    obtain ⟨dashes, c, others, rfl, isDash, starts, -⟩ := h
    have other : c ≠ d ∧ '-' ≠ d ∧ c ≠ '-' := by
      have noDigit := not_isDigit_of_isIdentStart starts
      have noDash := Text.dash_of_isIdentStart starts
      refine ⟨?_, ?_, by simpa using noDash⟩
      · rintro rfl
        rcases first with digit | rfl
        · simp [digit] at noDigit
        · cases starts
      · rintro rfl
        simp [isDigit] at first
    rw [chars_eq, here] at same
    clear found
    cases negative : n.negative <;> rw [negative] at same <;>
      rcases dashes with _ | ⟨x, _ | ⟨y, dashes⟩⟩ <;> simp_all

end Numeral

end Decimal

end StyleResolution

import StyleResolution.Proofs.Text.Agreement

/-! # How values are spelled

A value is written with one blank on either side of an operator, one blank between the items of a
list and no parentheses of its own. `Spells` says which values can be told from their texts: every
operand binds at least as tightly as its operator asks for. Here it is shown that such a text starts
like a value, with a minus sign only if that is attached to something, and how the factors are read.
-/

namespace StyleResolution

open Reader Text

open Reader (Ends)

namespace Text

theorem toList_join (separator text : String) (more : List String) :
    (join separator (text :: more)).toList =
      text.toList ++ more.flatMap (fun t => separator.toList ++ t.toList) := by
  induction more generalizing text with
  | nil => simp
  | cons next more ih => simp [join_cons_cons, ih]

theorem toLower_cases (c : Char) : c.toLower = c ∨ c.isAlpha = true ∧ c.toLower.isAlpha = true := by
  by_cases upper : c.val ≥ 65 ∧ c.val ≤ 90
  · have low : 65 ≤ c.toNat := UInt32.le_iff_toNat_le.mp upper.1
    have high : c.toNat ≤ 90 := UInt32.le_iff_toNat_le.mp upper.2
    have lower : c.toLower.toNat = c.toNat + 32 := by
      rw [show c.toLower = ⟨c.val + 32, _⟩ from dif_pos upper]
      exact (UInt32.toNat_add ..).trans (Nat.mod_eq_of_lt (show c.toNat + 32 < _ by omega))
    simp only [isAlpha_iff, lower]
    omega
  · exact .inl (dif_neg upper)

theorem isNameChar_toLower (c : Char) : isNameChar c.toLower = isNameChar c := by
  cases toLower_cases c with
  | inl same => rw [same]
  | inr letters => simp [isNameChar, Char.isAlphanum, letters]

theorem eq_of_toLower {c d : Char} (noLetter : c.isAlpha = false) (same : c = d.toLower) : d = c := by
  rcases toLower_cases d with kept | letters
  · exact kept.symm.trans same.symm
  · simp [← same, noLetter] at letters

theorem isWhite_of_isNameChar (named : isNameChar c = true) (ascii : isBeyondAscii c = false) :
    isWhite c = false := by
  simp [isNameChar, isBeyondAscii, Char.isAlphanum, isAlpha_iff, isDigit_iff, char_eq_iff]
    at named ascii
  simp [isWhite]
  omega

end Text

namespace Value

/-- How tightly a value binds: a list separated by commas or less, a list separated by blanks or
    less, a sum or less, a product or less, or no operation at all. -/
inductive Level where
  | value
  | spaceList
  | expression
  | term
  | factor

/-- Whether a string in these quotes ends where its text does: the quote stands in the text only
    after a backslash, and no backslash is left without a character. -/
def isStringBody (quote : Char) : List Char → Bool
  | [] => true
  | [c] => c != '\\' && c != quote
  | c :: d :: rest =>
    if c == '\\' then isStringBody quote rest
    else c != quote && isStringBody quote (d :: rest)

def isAsciiName (cs : List Char) : Bool :=
  cs.all fun c => isNameChar c && !isBeyondAscii c

/-- The text of the first value spells the second, which is the same value apart from its numbers:
    those are the numbers that the texts of the numbers denote. -/
inductive Spells : Level → Value → Value → Prop where
  | keyword (name : String) (ident : Text.IsIdent name.toList)
      (ascii : isAsciiName name.toList = true) : Spells .factor (.keyword name) (.keyword name)
  | reference (name : String) (nonempty : name.toList ≠ []) (ascii : isAsciiName name.toList = true) :
      Spells .factor (.variable name) (.variable name)
  | indirect (name : String) (nonempty : name.toList ≠ []) (ascii : isAsciiName name.toList = true) :
      Spells .factor (.indirect name) (.indirect name)
  | color (digits : List Char) (valid : isColorDigits digits = true) :
      Spells .factor (.color (String.ofList ('#' :: digits))) (.color (String.ofList ('#' :: digits)))
  | quoted (text : String) (quote : Char) (isQuote : quote = '"' ∨ quote = '\'')
      (body : isStringBody quote text.toList = true) :
      Spells .factor (.quoted text quote) (.quoted text quote)
  | dimension (x : Float) (unit : String) (numeral : Decimal.Numeral)
      (denotes : Decimal.Numeral.read (Decimal.numberText x).toList = some (numeral, []))
      (isUnit : unit.toList = ['%'] ∨ unit.toList.all Char.isAlpha = true) :
      Spells .factor (.dimension ⟨x, unit⟩) (.dimension ⟨numeral.toFloat, unit⟩)
  | paren {v w : Value} (inner : Spells .spaceList v w) : Spells .factor (.paren v) (.paren w)
  | call (name : String) (ident : Text.IsIdent name.toList)
      (ascii : isAsciiName name.toList = true)
      (notUrl : name.toList.map Char.toLower ≠ ['u', 'r', 'l']) (args : List (Value × Value))
      (each : ∀ a ∈ args, Spells .spaceList a.1 a.2) :
      Spells .factor (.call name (args.map (·.1))) (.call name (args.map (·.2)))
  | ofFactor {v w : Value} (h : Spells .factor v w) : Spells .term v w
  | product {v w v' w' : Value} (op : Operator) (isProduct : op = .multiply ∨ op = .divide)
      (lhs : Spells .term v w) (rhs : Spells .factor v' w') :
      Spells .term (.operation op v v') (.operation op w w')
  | ofTerm {v w : Value} (h : Spells .term v w) : Spells .expression v w
  | sum {v w v' w' : Value} (op : Operator) (isSum : op = .add ∨ op = .subtract)
      (lhs : Spells .expression v w) (rhs : Spells .term v' w') :
      Spells .expression (.operation op v v') (.operation op w w')
  | spaces (items : List (Value × Value)) (nonempty : items ≠ [])
      (each : ∀ i ∈ items, Spells .expression i.1 i.2) :
      Spells .spaceList (collapse .space (items.map (·.1))) (collapse .space (items.map (·.2)))
  | commas (items : List (Value × Value)) (nonempty : items ≠ [])
      (each : ∀ i ∈ items, Spells .spaceList i.1 i.2) :
      Spells .value (collapse .comma (items.map (·.1))) (collapse .comma (items.map (·.2)))

theorem toList_text_collapse (first : Value × Value) (more : List (Value × Value)) :
    (collapse separator ((first :: more).map (·.1))).text.toList =
      first.1.text.toList ++ more.flatMap fun i => separator.text.toList ++ i.1.text.toList := by
  have whole : (collapse separator ((first :: more).map (·.1))).text =
      join separator.text (texts ((first :: more).map (·.1))) := by
    cases more <;> rfl
  rw [whole, texts_eq_map]
  simp [toList_join, List.flatMap_map]

/-! ## What a value starts with -/

/-- Whether a value may start with the character. -/
def isFirst (c : Char) : Bool :=
  isNameChar c || ['.', '@', '#', '"', '\'', '('].contains c

/-- The text starts like a value, and a minus sign in front is attached to what follows it. -/
def Opens : List Char → Prop
  | [] => False
  | c :: rest => isFirst c = true ∧ (c = '-' → startsAttached rest = true)

theorem Opens.ne (h : Opens (c :: s)) (other : isFirst d = false) : c ≠ d := by
  rintro rfl
  simp [h.1] at other

theorem Opens.ends (h : Opens s) : Ends isBlank s := by
  intro c first
  obtain ⟨rest, rfl⟩ := List.head?_eq_some_iff.mp first
  simp [isBlank, h.ne (d := ' ') (by decide), h.ne (d := '\t') (by decide),
    h.ne (d := '\r') (by decide), h.ne (d := '\n') (by decide)]

theorem isNameChar_of_isAsciiName (h : isAsciiName cs = true) : cs.all isNameChar = true := by
  simp only [isAsciiName, List.all_eq_true, Bool.and_eq_true] at h ⊢
  exact fun c member => (h c member).1

theorem opens_ident (ident : Text.IsIdent cs) (ascii : isAsciiName cs = true) (rest : List Char) :
    Opens (cs ++ rest) := by
  have visible (c) (member : c ∈ cs) : isNameChar c = true ∧ isWhite c = false := by
    have here := List.all_eq_true.mp ascii c member
    simp only [Bool.and_eq_true, Bool.not_eq_true'] at here
    exact ⟨here.1, isWhite_of_isNameChar here.1 here.2⟩
  obtain ⟨dashes, first, others, rfl, isDash, starts, -⟩ := ident
  rcases dashes with _ | ⟨c, _ | ⟨d, dashes⟩⟩
  · have noDash := dash_of_isIdentStart starts
    exact ⟨by simp [isFirst, visible], fun dash => by simp [dash] at noDash⟩
  · exact ⟨by simp [isFirst, visible], fun _ => by simp [startsAttached, visible]⟩
  · exact ⟨by simp [isFirst, visible], fun _ => by simp [startsAttached, visible]⟩

theorem first_of_numeral {n : Decimal.Numeral} (wellFormed : n.WellFormed) :
    ∃ c s, n.chars = c :: s ∧ (isNameChar c = true ∨ c = '.') ∧ c.isAlpha = false ∧
      (c = '-' → ∀ rest, startsAttached (s ++ rest) = true) := by
  obtain ⟨c, s, here, first⟩ := wellFormed.first
  have code : c = '.' ∨ isNameChar c = true ∧ 48 ≤ c.toNat ∧ c.toNat ≤ 57 := by
    cases first with
    | inl digit => exact .inr ⟨Decimal.isNameChar_of_isDigit digit, isDigit_iff.mp digit⟩
    | inr point => exact .inl point
  have plain : c.isAlpha = false ∧ c ≠ '-' ∧ isWhite c = false := by
    rcases code with rfl | code
    · decide
    · simp [← Bool.not_eq_true, isAlpha_iff, char_eq_iff, isWhite]
      omega
  rw [Decimal.Numeral.chars_eq, here]
  cases n.negative with
  | true => exact ⟨'-', _, rfl, .inl rfl, rfl, fun _ rest => by simp [startsAttached, plain]⟩
  | false => exact ⟨c, s, rfl, code.symm.imp_left And.left, plain.1, fun dash => absurd dash plain.2.1⟩

theorem opens_numeral {n : Decimal.Numeral} (wellFormed : n.WellFormed) (rest : List Char) :
    Opens (n.chars ++ rest) := by
  obtain ⟨c, s, here, first, -, attached⟩ := first_of_numeral wellFormed
  rw [here]
  refine ⟨?_, fun dash => attached dash rest⟩
  rcases first with named | rfl
  · simp [isFirst, named]
  · rfl

theorem Spells.opens (h : Spells level v w) (rest : List Char) : Opens (v.text.toList ++ rest) := by
  induction h generalizing rest with
  | keyword name ident ascii => exact opens_ident ident ascii rest
  | call name ident ascii =>
    simp only [text, String.toList_append, List.append_assoc]
    exact opens_ident ident ascii _
  | quoted text quote isQuote =>
    rcases isQuote with rfl | rfl <;> simp [Value.text, quotedText, Opens] <;> rfl
  | reference | indirect | color | paren => simp [text, Opens]; rfl
  | dimension x unit numeral denotes =>
    obtain ⟨wellFormed, same⟩ := Decimal.Numeral.wellFormed_of_read denotes
    rw [List.append_nil] at same
    simp only [text, Dimension.text, String.toList_append, List.append_assoc, same]
    exact opens_numeral wellFormed _
  | ofFactor _ ih | ofTerm _ ih => exact ih rest
  | product _ _ _ _ ih | sum _ _ _ _ ih =>
    simp only [text, String.toList_append, List.append_assoc]
    exact ih _
  | spaces items nonempty _ ih | commas items nonempty _ ih =>
    obtain ⟨i, more, rfl⟩ := List.exists_cons_of_ne_nil nonempty
    rw [toList_text_collapse, List.append_assoc]
    exact ih i (by simp) _

/-! ## What follows a value -/

def Next (cs s : List Char) : Prop :=
  ∀ c ∈ s.head?, c ∈ cs

theorem Next.mono (h : Next cs s) (sub : cs ⊆ cs') : Next cs' s :=
  fun c first => sub (h c first)

theorem Next.ends (h : Next cs s) (others : (cs.all fun c => !kind c) = true) : Ends kind s := by
  intro c first
  simpa using List.all_eq_true.mp others c (h c first)

theorem Next.elim {P : List Char → Prop} (h : Next cs s) (nil : P [])
    (each : ∀ c ∈ cs, ∀ s, P (c :: s)) : P s := by
  cases s with
  | nil => exact nil
  | cons c s => exact each c (h c rfl) s

/-- What may follow a factor. -/
def Closes : List Char → Prop :=
  Next [' ', ',', ')', ';']

theorem Closes.name (h : Closes s) : Ends isNameChar s :=
  Next.ends h (by decide)

theorem Closes.open (h : Closes s) : char '(' s = none :=
  Next.elim (P := fun s => char '(' s = none) h rfl (by simp)

theorem blanks_append (all : gap.all isBlank = true) (ends : Ends isBlank s) :
    blanks (gap ++ s) = some (gap, s) :=
  takeWhile_eq_some.mpr ⟨rfl, all, ends⟩

theorem blanks_of_ends (ends : Ends isBlank s) : blanks s = some ([], s) :=
  takeWhile_eq_some.mpr ⟨rfl, rfl, ends⟩

/-! ## Factors -/

theorem factor_of_first (plain : isNameChar c = true ∨ c = '.') (inner : Reader Value)
    (s : List Char) : factor inner (c :: s) =
      (readUrl <|> readDimension <|> readNegation inner <|> readCall inner <|> readKeyword)
        (c :: s) := by
  have other : c ∉ ['(', '~', '"', '\'', '@', '#'] := by
    intro member
    simp only [List.mem_cons, List.not_mem_nil, or_false] at member
    rcases member with rfl | rfl | rfl | rfl | rfl | rfl <;> revert plain <;> decide
  simp only [List.mem_cons, List.not_mem_nil, or_false, not_or] at other
  have noMark : ¬ '@' = c := fun same => other.2.2.2.2.1 same.symm
  simp [factor, orElse_apply, bind_apply, readParen, readQuoted, readVariable, readColor,
    opt, tag, word, noMark, other]

theorem readStringBody_append (isQuote : quote = '"' ∨ quote = '\'')
    (body : isStringBody quote cs = true) (rest : List Char) :
    readStringBody quote (cs ++ quote :: rest) = some (cs, quote :: rest) := by
  have noEscape : ¬ quote = '\\' := by rcases isQuote with rfl | rfl <;> decide
  have closing : readStringBody quote (quote :: rest) = some ([], quote :: rest) := by
    cases rest <;> simp [readStringBody, noEscape]
  fun_induction isStringBody quote cs with
  | case1 => exact closing
  | case2 c =>
    simp only [Bool.and_eq_true, bne_iff_ne] at body
    simp [readStringBody, body, closing]
  | case3 c d cs escape ih =>
    simp only [beq_iff_eq] at escape
    simp [readStringBody, escape, ih body]
  | case4 c d cs noEscape ih =>
    simp only [Bool.and_eq_true, bne_iff_ne] at body
    have read := ih body.2
    simp only [List.cons_append] at read
    simp_all [readStringBody]

theorem readUrl_of_name (named : cs.all isNameChar = true) (ends : Ends isNameChar rest)
    (other : cs.map Char.toLower ≠ ['u', 'r', 'l'] ∨ char '(' rest = none) :
    readUrl (cs ++ rest) = none := by
  refine bind_of_none ?_
  have lower (d e : Char) (same : d = e.toLower) : isNameChar e = isNameChar d := by
    rw [same, isNameChar_toLower]
  have paren (e : Char) : '(' = e.toLower → e = '(' := eq_of_toLower rfl
  have noName : isNameChar '(' = false := rfl
  have names : isNameChar 'u' = true ∧ isNameChar 'r' = true ∧ isNameChar 'l' = true :=
    ⟨rfl, rfl, rfl⟩
  rcases cs with _ | ⟨a, _ | ⟨b, _ | ⟨c, _ | ⟨d, cs⟩⟩⟩⟩ <;> rcases rest with _ | ⟨e, rest⟩ <;>
    simp [wordAnyCase] <;> grind [Ends, char_cons]

theorem readNegation_of_ident (ident : Text.IsIdent cs) (inner : Reader Value) (rest : List Char) :
    readNegation inner (cs ++ rest) = none := by
  obtain ⟨dashes, first, others, rfl, isDash, starts, -⟩ := ident
  have plain : first ≠ '-' ∧ first ≠ '@' ∧ first ≠ '(' := by
    refine ⟨?_, ?_, ?_⟩ <;> rintro rfl <;> cases starts
  rcases dashes with _ | ⟨c, _ | ⟨d, dashes⟩⟩
  · simp [readNegation, bind_apply, plain]
  · obtain rfl := isDash c (by simp)
    simp [readNegation, bind_apply, readVariable, readParen, orElse_apply, tag,
      word, plain, Ne.symm plain.2.1]
  · obtain rfl := isDash c (by simp)
    obtain rfl := isDash d (by simp)
    rfl

theorem factor_of_ident (ident : Text.IsIdent cs) (ascii : isAsciiName cs = true)
    (ends : Ends isNameChar rest)
    (other : cs.map Char.toLower ≠ ['u', 'r', 'l'] ∨ char '(' rest = none)
    (inner : Reader Value) :
    factor inner (cs ++ rest) = (readCall inner <|> readKeyword) (cs ++ rest) := by
  have named := isNameChar_of_isAsciiName ascii
  have noUrl := readUrl_of_name named ends other
  have noNumber : readDimension (cs ++ rest) = none :=
    bind_of_none (Decimal.Numeral.read_ident ident rest)
  have noNegation := readNegation_of_ident ident inner rest
  obtain ⟨c, cs, rfl, -⟩ := ident.first
  rw [List.cons_append] at noUrl noNumber noNegation ⊢
  rw [factor_of_first (.inl (List.all_eq_true.mp named c (by simp))), orElse_of_none noUrl,
    orElse_of_none noNumber, orElse_of_none noNegation]

theorem factor_keyword (ident : Text.IsIdent cs) (ascii : isAsciiName cs = true)
    (closes : Closes rest) (inner : Reader Value) :
    factor inner (cs ++ rest) = some (.keyword (String.ofList cs), rest) := by
  have name : readIdent (cs ++ rest) = some (cs, rest) :=
    readIdent_eq_some.mpr ⟨rfl, ident, closes.name⟩
  have noCall : readCall inner (cs ++ rest) = none :=
    (bind_of_eq name).trans (bind_of_none closes.open)
  rw [factor_of_ident ident ascii closes.name (.inr closes.open), orElse_of_none noCall]
  exact bind_of_eq name

section

variable (named : isAsciiName cs = true) (nonempty : cs ≠ []) (closes : Closes rest)

include named nonempty closes

theorem readName_append :
    readName (cs ++ rest) = some (cs, rest) :=
  readName_eq_some.mpr ⟨rfl, nonempty, isNameChar_of_isAsciiName named, closes.name⟩

theorem factor_variable (inner : Reader Value) :
    factor inner ('@' :: cs ++ rest) = some (.variable (String.ofList cs), rest) := by
  have name := readName_append named nonempty closes
  obtain ⟨c, cs, rfl⟩ := List.exists_cons_of_ne_nil nonempty
  have single : ¬ '@' = c := by
    rintro rfl
    cases named
  rw [List.cons_append] at name
  simp [factor, orElse_apply, bind_apply, readParen, readQuoted, readUrl, readVariable,
    opt, tag, word, wordAnyCase, single, name]

theorem factor_indirect (inner : Reader Value) :
    factor inner ('@' :: '@' :: cs ++ rest) = some (.indirect (String.ofList cs), rest) := by
  have name := readName_append named nonempty closes
  simp [factor, orElse_apply, bind_apply, readParen, readQuoted, readUrl, readVariable,
    opt, tag, word, wordAnyCase, name]

end

theorem isNameChar_of_isColorDigits (valid : isColorDigits ds = true) :
    ds.all isNameChar = true := by
  simp only [isColorDigits, Bool.and_eq_true, List.all_eq_true] at valid ⊢
  intro d member
  have hex := valid.2 d member
  simp [isHexDigit, isDigit_iff, Char.le_def, UInt32.le_iff_toNat_le] at hex
  simp [isNameChar, Char.isAlphanum, isAlpha_iff, isDigit_iff]
  omega

theorem factor_color (valid : isColorDigits ds = true) (closes : Closes rest)
    (inner : Reader Value) :
    factor inner ('#' :: ds ++ rest) = some (.color (String.ofList ('#' :: ds)), rest) := by
  have nonempty : ds ≠ [] := by
    rintro rfl
    cases valid
  have name : readName (ds ++ rest) = some (ds, rest) :=
    readName_eq_some.mpr ⟨rfl, nonempty, isNameChar_of_isColorDigits valid, closes.name⟩
  simp [factor, orElse_apply, bind_apply, readParen, readQuoted, readUrl, readVariable,
    readColor, opt, tag, word, wordAnyCase, name, valid]

theorem factor_quoted (isQuote : quote = '"' ∨ quote = '\'') (body : isStringBody quote cs = true)
    (rest : List Char) (inner : Reader Value) :
    factor inner (quote :: cs ++ quote :: rest) =
      some (.quoted (String.ofList cs) (some quote), rest) := by
  have read := readStringBody_append isQuote body rest
  rcases isQuote with rfl | rfl <;>
    simp [factor, orElse_apply, bind_apply, readParen, readQuoted, opt, read]

theorem factor_dimension {n : Decimal.Numeral} (wellFormed : n.WellFormed)
    (isUnit : unit = ['%'] ∨ unit.all Char.isAlpha = true) (closes : Closes rest)
    (inner : Reader Value) :
    factor inner (n.chars ++ (unit ++ rest)) =
      some (.dimension ⟨n.toFloat, String.ofList unit⟩, rest) := by
  have ends (kind : Char → Bool) (others : ([' ', ',', ')', ';', '%'].all fun c => !kind c) = true)
      (noLetter : ∀ c : Char, c.isAlpha = true → kind c = false) : Ends kind (unit ++ rest) := by
    cases unit with
    | nil => exact Next.ends (Next.mono closes (by simp)) others
    | cons c unit =>
      intro d first
      cases first
      rcases isUnit with percent | letters
      · cases percent
        simpa using List.all_eq_true.mp others '%' (by simp)
      · exact noLetter c (List.all_eq_true.mp letters c (by simp))
  have read : Decimal.Numeral.read (n.chars ++ (unit ++ rest)) = some (n, unit ++ rest) := by
    refine Decimal.Numeral.read_chars wellFormed
      (ends _ (by decide) fun c letter => ?_) (ends _ (by decide) fun c letter => ?_)
    · exact Decimal.not_isDigit_of_isIdentStart (by simp [isIdentStart, letter])
    · exact beq_eq_false_iff_ne.mpr (by rintro rfl; cases letter)
  have measured : ∃ found, opt ((do let c ← char '%'; pure [c]) <|>
      takeWhile1 Char.isAlpha) (unit ++ rest) = some (found, rest) ∧ found.getD [] = unit := by
    rcases isUnit with rfl | letters
    · exact ⟨some ['%'], by simp [opt, orElse_apply, bind_apply], rfl⟩
    · cases unit with
      | nil =>
        refine ⟨none, opt_of_none ?_, rfl⟩
        exact Next.elim (P := fun s => ((do let c ← char '%'; pure [c]) <|>
          takeWhile1 Char.isAlpha : Reader (List Char)) s = none) closes rfl
          (by simpa using ⟨fun _ => rfl, fun _ => rfl, fun _ => rfl, fun _ => rfl⟩)
      | cons c unit =>
        have noPercent : c ≠ '%' := by
          rintro rfl
          cases letters
        refine ⟨some (c :: unit), opt_of_some ((orElse_of_none ?_).trans
          (takeWhile1_eq_some.mpr ⟨rfl, by simp, letters, Next.ends closes (by decide)⟩)), rfl⟩
        exact bind_of_none (by simp [noPercent])
  obtain ⟨found, isFound, rfl⟩ := measured
  obtain ⟨c, s, here, first, noLetter, -⟩ := first_of_numeral wellFormed
  have noUrl (s : List Char) : readUrl (c :: s) = none := by
    have other : ¬ 'u' = c.toLower := by
      intro same
      rcases toLower_cases c with kept | letters
      · rw [← kept, ← same] at noLetter
        cases noLetter
      · simp [letters] at noLetter
    exact bind_of_none (by simp [wordAnyCase, other])
  rw [here, List.cons_append] at read ⊢
  rw [factor_of_first first, orElse_of_none (noUrl _)]
  exact orElse_of_some ((bind_of_eq read).trans (bind_of_eq isFound))

theorem factor_paren {inner : Reader Value} (opens : ∀ rest, Opens (cs ++ rest))
    (read : inner (cs ++ ')' :: rest) = some (w, ')' :: rest)) :
    factor inner ('(' :: cs ++ ')' :: rest) = some (.paren w, rest) := by
  have before := blanks_of_ends (opens (')' :: rest)).ends
  have after : blanks (')' :: rest) = some ([], ')' :: rest) := rfl
  simp [factor, orElse_apply, bind_apply, readParen, before, read, after]

end Value

end StyleResolution

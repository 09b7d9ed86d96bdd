import Mathlib.Data.List.DropRight
import StyleResolution.Selector.Reading
import StyleResolution.Proofs.Text.Tokens

/-! # Selectors are read back from their texts

The text of a selector has its simple selectors as they were read, attribute tests without blanks
around their parts, and combinators with one blank on either side. Simple selectors that stand next
to each other are told apart as before: each of them takes the longest text it can, and what follows
it starts with the character that followed it before, or is the end of the compound.
-/

namespace StyleResolution

open Reader Text

open Reader (Ends)

namespace Text

theorem trim_trim (cs : List Char) : trim (trim cs) = trim cs := by
  have kept : trimStart (trim cs) = trim cs := by
    have before : trim cs <+: trimStart cs := List.rdropWhile_prefix isWhite _
    cases trimmed : trim cs with
    | nil => rfl
    | cons c rest =>
      rw [trimmed] at before
      obtain ⟨after, all⟩ := before
      have visible := List.head?_dropWhile_not isWhite cs
      rw [show cs.dropWhile isWhite = c :: (rest ++ after) from all.symm] at visible
      simpa [trimStart] using visible
  rw [trim, kept]
  exact List.rdropWhile_idempotent isWhite _

theorem mem_of_mem_trim (h : c ∈ trim cs) : c ∈ cs :=
  (trimStart_suffix cs).mem ( ( List.rdropWhile_prefix isWhite _).mem h)

end Text

namespace Selector

/-- What follows a simple selector does not carry it on, given what followed it before. -/
structure Follows (before after : List Char) : Prop where
  name : Ends isNameChar before → Ends isNameChar after
  open_ : after.head? ≠ some '('

/-- What the reader takes starts as the text does, and the reader takes it again in front of what
    does not carry it on. -/
def TakesAgain (p : Reader (List Char)) : Prop :=
  ∀ {s cs rest : List Char}, p s = some (cs, rest) →
    (∃ c front back, s = c :: front ∧ cs = c :: back) ∧
    ∀ after, Follows rest after → p (cs ++ after) = some (cs, after)

theorem takeBalanced_again (h : takeBalanced depth s = some (body, rest)) (after : List Char) :
    takeBalanced depth (body ++ after) = some (body, after) := by
  fun_induction takeBalanced depth s generalizing body <;> cases h <;>
    simp_all [takeBalanced]

theorem readPseudoArgs_again (h : readPseudoArgs s = some (args, rest)) :
    (∃ body, args = '(' :: body) ∧ ∀ after, readPseudoArgs (args ++ after) = some (args, after) := by
  simp only [readPseudoArgs, bind_eq_some, char_eq_some, pure_apply] at h ⊢
  grind [takeBalanced_again]

theorem opt_readPseudoArgs_again {s rest after : List Char} {args : Option (List Char)}
    (h : opt readPseudoArgs s = some (args, rest)) (closed : after.head? ≠ some '(') :
    opt readPseudoArgs (args.getD [] ++ after) = some (args, after) := by
  cases opt_eq_some.mp h with
  | inl given =>
    obtain ⟨args, rfl, read⟩ := given
    exact opt_of_some ((readPseudoArgs_again read).2 after)
  | inr none =>
    obtain ⟨rfl, -, -⟩ := none
    apply opt_of_none
    cases after with
    | nil => rfl
    | cons c after =>
      have other : ¬ c = '(' := by simpa using closed
      simp [readPseudoArgs, bind_apply, other]

theorem readPseudo_again : TakesAgain readPseudo := by
  intro s cs rest h
  simp only [readPseudo, bind_eq_some, char_eq_some, pure_apply,
    readIdent_eq_some] at h ⊢
  obtain ⟨_, _, ⟨rfl, rfl⟩, second, _, isSecond, name, left, ⟨rfl, ident, ends⟩, args, _, isArgs, h⟩ := h
  simp only [Option.some.injEq, Prod.mk.injEq] at h
  obtain ⟨rfl, rfl⟩ := h
  refine ⟨⟨':', _, _, rfl, rfl⟩, fun after follows => ?_⟩
  have colon : opt (char ':') (second.toList ++ (name ++ (args.getD [] ++ after))) =
      some (second, name ++ (args.getD [] ++ after)) := by
    cases opt_eq_some.mp isSecond with
    | inl given =>
      obtain ⟨_, rfl, read⟩ := given
      obtain ⟨-, rfl⟩ := char_eq_some.mp read
      exact opt_of_some (by simp)
    | inr none =>
      obtain ⟨rfl, -, -⟩ := none
      obtain ⟨c, others, rfl, first⟩ := ident.first
      have other : ¬ c = ':' := by
        rintro rfl
        simp [isIdentStart, isBeyondAscii] at first
      exact opt_of_none (by simp [other])
  have stops : Ends isNameChar (args.getD [] ++ after) := by
    cases opt_eq_some.mp isArgs with
    | inl given =>
      obtain ⟨args, rfl, read⟩ := given
      obtain ⟨⟨body, rfl⟩, -⟩ := readPseudoArgs_again read
      simp [Ends, isNameChar, isBeyondAscii]
    | inr none =>
      obtain ⟨rfl, rfl, -⟩ := none
      exact follows.name ends
  exact ⟨':', _, ⟨by simp, rfl⟩, second, _, colon, name, _, ⟨rfl, ident, stops⟩, args, after,
    opt_readPseudoArgs_again isArgs follows.open_, rfl⟩

/-- The simple selector starts as it was written, and it is read again in front of what does not
    carry it on. -/
structure Rereads (p : Reader Simple) (s : List Char) (x : Simple) (rest : List Char) : Prop where
  first : ∃ c front back, s = c :: front ∧ x.text.toList = c :: back
  again : ∀ after, Follows rest after → p (x.text.toList ++ after) = some (x, after)

theorem attributeOf_name (plain : name.all (!isAttributeOperator ·) = true)
    (ends : Ends (!isAttributeOperator ·) tail) (other : tail.all (· != '=') = true) :
    attributeOf (name ++ tail) = .attribute (String.ofList (trim name)) none none := by
  obtain ⟨taken, left⟩ := takeWhile_append plain ends
  obtain ⟨-, none⟩ := takeWhile_append other (show Ends _ [] by simp [Ends])
  rw [List.append_nil] at none
  simp only [attributeOf, taken, left, none]

theorem attributeOf_test (plain : name.all (!isAttributeOperator ·) = true)
    (ends : Ends (!isAttributeOperator ·) (op ++ '=' :: value)) (other : op.all (· != '=') = true) :
    attributeOf (name ++ (op ++ '=' :: value)) = .attribute (String.ofList (trim name))
      (some (String.ofList (op ++ ['=']))) (some (String.ofList (trim value))) := by
  obtain ⟨taken, left⟩ := takeWhile_append plain ends
  obtain ⟨before, after⟩ := takeWhile_append other
    (show Ends (· != '=') ('=' :: value) by simp [Ends])
  simp only [attributeOf, taken, left, before, after]

/-- The text of an attribute test has the parts of the test in it, without blanks around them. -/
theorem attributeOf_again (content : List Char) :
    ∃ cs, (attributeOf content).text.toList = '[' :: cs ++ [']'] ∧
      attributeOf cs = attributeOf content ∧ ∀ c ∈ cs, c ∈ content := by
  obtain ⟨split, plain, ends⟩ := takeWhile_eq_some.mp
    (rfl : takeWhile (!isAttributeOperator ·) content = some (_, _))
  generalize content.takeWhile (!isAttributeOperator ·) = name at split plain
  generalize content.dropWhile (!isAttributeOperator ·) = tail at split ends
  have trimmed : (trim name).all (!isAttributeOperator ·) = true :=
    List.all_eq_true.mpr fun c member => List.all_eq_true.mp plain c (mem_of_mem_trim member)
  obtain ⟨parts, other, stops⟩ := takeWhile_eq_some.mp
    (rfl : takeWhile (· != '=') tail = some (_, _))
  generalize tail.takeWhile (· != '=') = op at parts other
  subst split
  cases operand : tail.dropWhile (· != '=') with
  | nil =>
    rw [operand, List.append_nil] at parts
    subst parts
    have again := attributeOf_name trimmed (show Ends _ [] by simp [Ends]) rfl
    rw [attributeOf_name plain ends other]
    refine ⟨trim name, by simp [Simple.text], ?_, fun c member => ?_⟩
    · simpa [trim_trim] using again
    · exact List.mem_append_left _ (mem_of_mem_trim member)
  | cons c value =>
    rw [operand] at parts stops
    have isEq : c = '=' := by simpa using stops c rfl
    subst isEq parts
    have starts : Ends (!isAttributeOperator ·) (op ++ '=' :: trim value) := by
      cases op <;> exact ends
    rw [attributeOf_test plain ends other]
    refine ⟨trim name ++ (op ++ '=' :: trim value), by simp [Simple.text], ?_, ?_⟩
    · rw [attributeOf_test trimmed starts other, trim_trim, trim_trim]
    · intro d member
      simp only [List.mem_append, List.mem_cons] at member ⊢
      exact member.imp mem_of_mem_trim (.imp_right (.imp_right mem_of_mem_trim))

theorem readAttribute_again (h : readAttribute s = some (x, rest)) :
    Rereads readAttribute s x rest := by
  simp only [readAttribute, bind_eq_some, char_eq_some, takeWhile_eq_some,
    pure_apply] at h
  obtain ⟨_, _, ⟨rfl, rfl⟩, content, _, ⟨rfl, inside, -⟩, _, _, ⟨rfl, rfl⟩, h⟩ := h
  cases h
  obtain ⟨cs, text, again, within⟩ := attributeOf_again content
  have plain : cs.all (· != ']') = true :=
    List.all_eq_true.mpr fun c member => List.all_eq_true.mp inside c (within c member)
  refine ⟨⟨'[', _, _, rfl, text⟩, fun after _ => ?_⟩
  simp only [readAttribute, bind_eq_some, char_eq_some, takeWhile_eq_some,
    pure_apply]
  exact ⟨'[', _, ⟨by rw [text]; rfl, rfl⟩, cs, ']' :: after, ⟨by simp, plain, by simp [Ends]⟩,
    ']', after, ⟨rfl, rfl⟩, by rw [again]⟩

theorem readPoint_none (h : literal readMarked ('.' :: t) = none) :
    (literal readPercentage <|> literal readIdent) ('.' :: t) = none := by
  have none : Decimal.Numeral.readFraction ('.' :: t) = none := by
    cases t with
    | nil => rfl
    | cons c t =>
      cases digit : Decimal.isDigit c with
      | false => simp [Decimal.Numeral.readFraction, bind_apply, takeWhile1, digit]
      | true =>
        have name := Decimal.isNameChar_of_isDigit digit
        simp [literal, readMarked, readName, bind_apply, takeWhile1,
          name] at h
  have number : literal readPercentage ('.' :: t) = .none := by
    simp [literal, readPercentage, Decimal.Numeral.read, Decimal.Numeral.readMagnitude,
      bind_apply, orElse_apply, opt, takeWhile1, Decimal.isDigit, none]
  rw [orElse_of_none number]
  rfl

/-- No simple selector starts with a blank, an opening parenthesis or a combinator. -/
theorem readSimple_none {c : Char} (h : c ∈ [' ', '\t', '\r', '\n', '(', '>', '+', '~'])
    (t : List Char) : readSimple (c :: t) = none := by
  simp only [List.mem_cons, List.not_mem_nil, or_false] at h
  rcases h with rfl | rfl | rfl | rfl | rfl | rfl | rfl | rfl <;> rfl

theorem readSimple_cons (c : Char) (t : List Char) : readSimple (c :: t) =
    if c = '&' then some (.wildcard, t)
    else if c = '.' ∨ c = '#' then literal readMarked (c :: t)
    else if c = ':' then literal readPseudo (c :: t)
    else if c = '*' then some (.literal "*", t)
    else if c = '[' then readAttribute (c :: t)
    else (literal readPercentage <|> literal readIdent) (c :: t) := by
  have wild : (do let _ ← char '&'; pure .wildcard : Reader Simple) (c :: t) =
      if c = '&' then some (.wildcard, t) else none := by
    by_cases h : c = '&' <;> simp [bind_apply, h]
  have star : (do let _ ← char '*'; pure (.literal "*") : Reader Simple) (c :: t) =
      if c = '*' then some (.literal "*", t) else none := by
    by_cases h : c = '*' <;> simp [bind_apply, h]
  have mark : ¬ (c = '.' ∨ c = '#') → literal readMarked (c :: t) = none := by
    intro h
    simp [literal, readMarked, bind_apply, h]
  have colon : c ≠ ':' → literal readPseudo (c :: t) = none := by
    intro h
    simp [literal, readPseudo, bind_apply, h]
  have bracket : c ≠ '[' → readAttribute (c :: t) = none := by
    intro h
    simp [readAttribute, bind_apply, h]
  unfold readSimple
  by_cases isWild : c = '&'
  · rw [if_pos isWild, orElse_of_some (wild.trans (if_pos isWild))]
  rw [if_neg isWild, orElse_of_none (wild.trans (if_neg isWild))]
  by_cases isMark : c = '.' ∨ c = '#'
  · rw [if_pos isMark]
    apply orElse_eq_left
    intro none
    rcases isMark with rfl | rfl
    · exact readPoint_none none
    · rfl
  rw [if_neg isMark, orElse_of_none (mark isMark)]
  by_cases isColon : c = ':'
  · rw [if_pos isColon]
    subst isColon
    exact orElse_eq_left fun _ => rfl
  rw [if_neg isColon, orElse_of_none (colon isColon)]
  by_cases isStar : c = '*'
  · rw [if_pos isStar, orElse_of_some (star.trans (if_pos isStar))]
  rw [if_neg isStar, orElse_of_none (star.trans (if_neg isStar))]
  by_cases isBracket : c = '['
  · rw [if_pos isBracket]
    subst isBracket
    exact orElse_eq_left fun _ => rfl
  rw [if_neg isBracket, orElse_of_none (bracket isBracket)]

theorem readMarked_again : TakesAgain readMarked := by
  intro s cs rest h
  obtain ⟨mark, name, rfl, isMark, split, some, named, ends⟩ := readMarked_eq_some.mp h
  exact ⟨⟨mark, _, name, split, rfl⟩, fun after follows => readMarked_eq_some.mpr
    ⟨mark, name, rfl, isMark, rfl, some, named, follows.name ends⟩⟩

theorem readIdent_again : TakesAgain readIdent := by
  intro s cs rest h
  obtain ⟨split, ident, ends⟩ := readIdent_eq_some.mp h
  obtain ⟨c, others, rfl, -⟩ := ident.first
  exact ⟨⟨c, _, others, split, rfl⟩, fun after follows =>
    readIdent_eq_some.mpr ⟨rfl, ident, follows.name ends⟩⟩

theorem readPercentage_again : TakesAgain readPercentage := by
  intro s cs rest h
  simp only [readPercentage, bind_eq_some, char_eq_some, pure_apply] at h ⊢
  obtain ⟨n, _, read, _, _, ⟨rfl, rfl⟩, h⟩ := h
  cases h
  obtain ⟨wellFormed, rfl⟩ := Decimal.Numeral.wellFormed_of_read read
  refine ⟨?_, fun after _ => ?_⟩
  · cases n.chars with
    | nil => exact ⟨'%', _, _, rfl, rfl⟩
    | cons c cs => exact ⟨c, _, _, rfl, rfl⟩
  have ends : Ends Decimal.isDigit ('%' :: after) := by simp [Ends, Decimal.isDigit]
  have again := Decimal.Numeral.read_chars wellFormed ends (by simp [Ends])
  exact ⟨n, '%' :: after, by simpa using again, '%', after, ⟨rfl, rfl⟩, rfl⟩

theorem literal_again (takes : TakesAgain p) (h : literal p s = some (x, rest)) :
    Rereads (literal p) s x rest := by
  simp only [literal, bind_eq_some, pure_apply] at h
  obtain ⟨cs, _, read, h⟩ := h
  cases h
  obtain ⟨⟨c, front, back, rfl, rfl⟩, again⟩ := takes read
  refine ⟨⟨c, front, back, rfl, by simp [Simple.text]⟩, fun after follows => ?_⟩
  rw [show (Simple.literal (String.ofList (c :: back))).text.toList = c :: back by simp [Simple.text]]
  exact bind_of_eq (again after follows)

theorem readWord_again (h : (literal readPercentage <|> literal readIdent) s = some (x, rest)) :
    Rereads (literal readPercentage <|> literal readIdent) s x rest := by
  cases orElse_eq_some.mp h with
  | inl number =>
    obtain ⟨first, again⟩ := literal_again readPercentage_again number
    exact ⟨first, fun after follows => orElse_of_some (again after follows)⟩
  | inr ident =>
    obtain ⟨first, again⟩ := literal_again readIdent_again ident.2
    refine ⟨first, fun after follows => ?_⟩
    have read := again after follows
    refine (orElse_of_none ?_).trans read
    obtain ⟨cs, _, found, -⟩ := bind_eq_some.mp read
    obtain ⟨same, ident, -⟩ := readIdent_eq_some.mp found
    rw [same]
    simp [literal, readPercentage, bind_apply, Decimal.Numeral.read_ident ident]

theorem readSimple_again (h : readSimple s = some (x, rest)) : Rereads readSimple s x rest := by
  cases s with
  | nil => cases h
  | cons c t =>
    have whole : ∀ {p : Reader Simple}, (∀ t, readSimple (c :: t) = p (c :: t)) →
        Rereads p (c :: t) x rest → Rereads readSimple (c :: t) x rest := by
      intro p same rereads
      refine ⟨rereads.first, fun after follows => ?_⟩
      have again := rereads.again after follows
      obtain ⟨_, _, back, ⟨⟩, text⟩ := rereads.first
      rw [text] at again ⊢
      exact (same _).trans again
    have kind := readSimple_cons c
    rw [kind] at h
    split at h
    · subst c
      cases h
      exact ⟨⟨'&', _, [], rfl, rfl⟩, fun after _ => rfl⟩
    · split at h
      · exact whole (fun t => by rw [kind]; simp [*]) (literal_again readMarked_again h)
      · split at h
        · exact whole (fun t => by rw [kind]; simp [*]) (literal_again readPseudo_again h)
        · split at h
          · subst c
            cases h
            exact ⟨⟨'*', _, [], rfl, rfl⟩, fun after _ => rfl⟩
          · split at h
            · exact whole (fun t => by rw [kind]; simp [*]) (readAttribute_again h)
            · exact whole (fun t => by rw [kind]; simp [*]) (readWord_again h)

/-! ## Compounds -/

/-- The text ends, or goes on with a blank. -/
def Stops (s : List Char) : Prop :=
  ∀ c ∈ s.head?, c = ' '

/-- The texts of simple selectors that stand next to each other. -/
def attachedText (xs : List Simple) : List Char :=
  xs.flatMap (·.text.toList)

theorem Follows.of_stops (stops : Stops after) (before : List Char) : Follows before after := by
  cases after with
  | nil => exact ⟨fun _ => by simp [Ends], by simp⟩
  | cons c after =>
    have blank : c = ' ' := stops c rfl
    subst blank
    exact ⟨fun _ => by simp [Ends, isNameChar, isBeyondAscii], by simp⟩

theorem many_readSimple_of_stops (stops : Stops after) :
    many readSimple after = some ([], after) := by
  have none : readSimple after = none := by
    cases after with
    | nil => rfl
    | cons c after => exact readSimple_none (by simp [show c = ' ' from stops c rfl]) after
  unfold many
  simp only [none]

/-- The first character of a simple selector. -/
def Opens (c : Char) : Prop :=
  c ∉ [' ', '\t', '\r', '\n', '(', '>', '+', '~']

/-- Simple selectors next to each other start as they were written, and they are read again in front
    of what ends them. -/
structure RereadsAll (s : List Char) (xs : List Simple) : Prop where
  first : xs = [] ∨ ∃ c front back, s = c :: front ∧ attachedText xs = c :: back ∧ Opens c
  again : ∀ after, Stops after →
    many readSimple (attachedText xs ++ after) = some (xs, after)

theorem RereadsAll.before (later : RereadsAll mid xs) (read : readSimple s = some (x, mid))
    (stops : Stops after) :
    readSimple (attachedText (x :: xs) ++ after) = some (x, attachedText xs ++ after) := by
  have follows : Follows mid (attachedText xs ++ after) := by
    cases later.first with
    | inl none =>
      subst none
      exact .of_stops stops mid
    | inr some =>
      obtain ⟨c, front, back, rfl, text, opens⟩ := some
      rw [text]
      refine ⟨fun ends d first => ends d first, fun paren => ?_⟩
      simp_all [Opens]
  simpa [attachedText] using (readSimple_again read).again _ follows

theorem attachedText_first (read : readSimple s = some (x, mid)) (xs : List Simple) :
    ∃ c front back, s = c :: front ∧ attachedText (x :: xs) = c :: back ∧ Opens c := by
  obtain ⟨c, front, back, rfl, text⟩ := (readSimple_again read).first
  refine ⟨c, front, back ++ attachedText xs, rfl, by simp [attachedText, text], fun other => ?_⟩
  rw [readSimple_none other] at read
  cases read

theorem many_readSimple_again (h : many readSimple s = some (xs, rest)) :
    RereadsAll s xs := by
  fun_induction many readSimple s generalizing xs with
  | case1 | case4 =>
    cases h
    exact ⟨.inl rfl, fun after stops => many_readSimple_of_stops stops⟩
  | case2 => cases h
  | case3 s x mid read shorter others left found ih =>
    cases h
    have later := ih found
    obtain ⟨c, front, back, start, text, opens⟩ := attachedText_first read others
    refine ⟨.inr ⟨c, front, back, start, text, opens⟩, fun after stops => ?_⟩
    have again := later.before read stops
    have nonempty : x.text.toList ≠ [] := by
      obtain ⟨_, _, _, _, text⟩ := (readSimple_again read).first
      simp [text]
    have less : (attachedText others ++ after).length <
        (attachedText (x :: others) ++ after).length := by
      have := List.length_pos_iff.mpr nonempty
      simp [attachedText]
      omega
    rw [many]
    simp only [again, if_pos less, later.again after stops]

theorem readCompound_again (h : readCompound combinator s = some (es, rest)) :
    ∃ x xs c back, es = ⟨combinator, x⟩ :: xs.map (⟨.attached, ·⟩) ∧
      attachedText (x :: xs) = c :: back ∧ Opens c ∧
      ∀ after, Stops after → readCompound combinator (c :: back ++ after) = some (es, after) := by
  obtain ⟨x, mid, read, h⟩ := bind_eq_some.mp h
  obtain ⟨xs, _, others, h⟩ := bind_eq_some.mp h
  cases h
  have later := many_readSimple_again others
  obtain ⟨c, front, back, -, text, opens⟩ := attachedText_first read xs
  refine ⟨x, xs, c, back, rfl, text, opens, fun after stops => ?_⟩
  rw [← text]
  exact (bind_of_eq (later.before read stops)).trans
    (bind_of_eq (later.again after stops))

/-! ## Selectors -/

theorem tailText_attached (xs : List Simple) (es : List Element) :
    (tailText (xs.map (⟨.attached, ·⟩) ++ es)).toList = attachedText xs ++ (tailText es).toList := by
  induction xs with
  | nil => simp [attachedText]
  | cons x xs ih =>
    simp only [List.map_cons, List.cons_append, tailText, Combinator.innerText,
      String.toList_append, ih]
    simp [attachedText]

theorem Opens.visible (opens : Opens c) : isBlank c = false := by
  simp_all [Opens, isBlank]

theorem dropWhile_blank (visible : isBlank c = false) (s : List Char) :
    (' ' :: c :: s).dropWhile isBlank = c :: s := by
  simp [visible, show isBlank ' ' = true from rfl]

theorem readCombinator_of_opens (opens : Opens c) (s : List Char) :
    readCombinator (c :: s) = none := by
  simp_all [Opens, readCombinator, orElse_apply, bind_apply]

theorem readCombinator_eq_some (h : readCombinator s = some (combinator, rest)) :
    ∃ mark, combinator.innerText.toList = [' ', mark, ' '] ∧
      combinator.leadingText.toList = [mark, ' '] ∧ isBlank mark = false ∧
      ∀ t, readCombinator (mark :: t) = some (combinator, t) := by
  simp only [readCombinator, orElse_eq_some, bind_eq_some, pure_apply] at h
  have which : combinator = .child ∨ combinator = .adjacent ∨ combinator = .sibling := by grind
  rcases which with rfl | rfl | rfl
  · exact ⟨'>', by simp [Combinator.innerText], by simp [Combinator.leadingText], rfl, fun _ => rfl⟩
  · exact ⟨'+', by simp [Combinator.innerText], by simp [Combinator.leadingText], rfl, fun _ => rfl⟩
  · exact ⟨'~', by simp [Combinator.innerText], by simp [Combinator.leadingText], rfl, fun _ => rfl⟩

theorem readNext_of_some (visible : isBlank c = false)
    (read : readCombinator (c :: s) = some (combinator, after)) :
    readNext (' ' :: c :: s) = readCompound combinator (after.dropWhile isBlank) := by
  simp [readNext, dropWhile_blank visible, read]

theorem readNext_of_none (visible : isBlank c = false) (none : readCombinator (c :: s) = none) :
    readNext (' ' :: c :: s) = readCompound .descendant (c :: s) := by
  simp [readNext, dropWhile_blank visible, none]

theorem tailText_compound (combinator : Combinator) (x : Simple) (xs : List Simple)
    (more : List Element) :
    (tailText (⟨combinator, x⟩ :: xs.map (⟨.attached, ·⟩) ++ more)).toList =
      combinator.innerText.toList ++ attachedText (x :: xs) ++ (tailText more).toList := by
  simp only [List.cons_append, tailText, String.toList_append, tailText_attached]
  simp [attachedText]

theorem readNext_again (h : readNext s = some (es, rest)) (more : List Element)
    (stops : Stops (tailText more).toList) :
    ∃ text, (tailText (es ++ more)).toList = ' ' :: text ++ (tailText more).toList ∧
      readNext (' ' :: text ++ (tailText more).toList) = some (es, (tailText more).toList) := by
  unfold readNext at h
  dsimp only at h
  split at h
  · rename_i combinator _ isCombinator
    obtain ⟨mark, inner, -, visible, read⟩ := readCombinator_eq_some isCombinator
    obtain ⟨x, xs, c, back, rfl, text, opens, again⟩ := readCompound_again h
    refine ⟨mark :: ' ' :: c :: back, by rw [tailText_compound, text, inner]; rfl, ?_⟩
    have skip : (' ' :: c :: back ++ (tailText more).toList).dropWhile isBlank =
        c :: back ++ (tailText more).toList := dropWhile_blank opens.visible _
    refine (readNext_of_some visible (read (' ' :: c :: back ++ _))).trans ?_
    rw [skip]
    exact again _ stops
  · split at h
    · obtain ⟨x, xs, c, back, rfl, text, opens, again⟩ := readCompound_again h
      refine ⟨c :: back, by rw [tailText_compound, text]; simp [Combinator.innerText], ?_⟩
      exact (readNext_of_none opens.visible (readCombinator_of_opens opens _)).trans
        (again _ stops)
    · cases h

theorem many_readNext_again (h : many readNext s = some (ess, rest)) :
    Stops (tailText ess.flatten).toList ∧
      many readNext (tailText ess.flatten).toList = some (ess, []) := by
  have nothing : many readNext [] = some ([], []) := by
    unfold many
    rfl
  fun_induction many readNext s generalizing ess with
  | case1 | case4 =>
    cases h
    exact ⟨by simp [Stops, tailText], nothing⟩
  | case2 => cases h
  | case3 s es mid read shorter others left found ih =>
    cases h
    obtain ⟨stops, later⟩ := ih found
    obtain ⟨text, written, again⟩ := readNext_again read others.flatten stops
    rw [List.flatten_cons, written]
    refine ⟨by simp [Stops], ?_⟩
    rw [many]
    have less : (tailText others.flatten).toList.length <
        (' ' :: text ++ (tailText others.flatten).toList).length := by
      rw [List.length_append, List.length_cons]
      omega
    simp only [again, if_pos less, later]

theorem text_compound (combinator : Combinator) (x : Simple) (xs : List Simple)
    (more : List Element) :
    (Selector.text ⟨⟨combinator, x⟩ :: xs.map (⟨.attached, ·⟩) ++ more⟩).toList =
      combinator.leadingText.toList ++ attachedText (x :: xs) ++ (tailText more).toList := by
  simp only [text, List.cons_append, String.toList_append, tailText_attached]
  simp [attachedText]

theorem read_again (h : read s = some (selector, rest)) :
    read selector.text.toList = some (selector, []) := by
  obtain ⟨leading, mid, isLeading, h⟩ := bind_eq_some.mp h
  obtain ⟨es, left, compound, h⟩ := bind_eq_some.mp h
  obtain ⟨ess, _, others, h⟩ := bind_eq_some.mp h
  cases h
  obtain ⟨stops, later⟩ := many_readNext_again others
  obtain ⟨x, xs, c, back, rfl, text, opens, again⟩ := readCompound_again compound
  have first := again _ stops
  rw [text_compound, text]
  have starts : opt (do let c ← readCombinator; let _ ← blanks; pure c)
      ((leading.getD .attached).leadingText.toList ++ c :: back ++ (tailText ess.flatten).toList) =
        some (leading, c :: back ++ (tailText ess.flatten).toList) := by
    cases opt_eq_some.mp isLeading with
    | inl given =>
      obtain ⟨combinator, rfl, read⟩ := given
      obtain ⟨_, _, isCombinator, read⟩ := bind_eq_some.mp read
      obtain ⟨_, _, -, read⟩ := bind_eq_some.mp read
      cases read
      obtain ⟨mark, -, written, -, read⟩ := readCombinator_eq_some isCombinator
      apply opt_of_some
      rw [Option.getD_some, written]
      refine (bind_of_eq (read _)).trans ?_
      have blanks : blanks (' ' :: c :: back ++ (tailText ess.flatten).toList) =
          some ([' '], c :: back ++ (tailText ess.flatten).toList) :=
        takeWhile_eq_some.mpr ⟨rfl, rfl, by simpa [Ends] using opens.visible⟩
      exact bind_of_eq blanks
    | inr none =>
      obtain ⟨rfl, -, -⟩ := none
      apply opt_of_none
      simp [Combinator.leadingText, bind_apply, readCombinator_of_opens opens]
  exact (bind_of_eq starts).trans ((bind_of_eq first).trans (bind_of_eq later))

end Selector

/-- Selectors are read back from their texts: whatever was read is read again from the text of the
    selector, and nothing is left. So selectors that were read and have the same text are the
    same. -/
theorem selectors_read_back (s rest : List Char) (selector : Selector)
    (read : Selector.read s = some (selector, rest)) :
    Selector.read selector.text.toList = some (selector, []) ∧
    ∀ s' rest' other, Selector.read s' = some (other, rest') → other.text = selector.text →
      other = selector := by
  have again := Selector.read_again read
  refine ⟨again, fun s' rest' other readOther same => ?_⟩
  have againOther := Selector.read_again readOther
  rw [same, again] at againOther
  cases againOther
  rfl

/-- Blanks in odd places, an attribute test with blanks, and arguments with parentheses. -/
def spacedSelector : List Char :=
  ">a.b:not(.c (d)) [ e ~=  f ]+ *::g,".toList

theorem spacedSelector_is_read_back :
    ∃ selector, Selector.read spacedSelector = some (selector, [',']) ∧
      selector.text = "> a.b:not(.c (d)) [e~=f] + *::g" ∧
      Selector.read selector.text.toList = some (selector, []) := by
  have texts : (Selector.read spacedSelector).map (fun found => (found.1.text, found.2)) =
      some ("> a.b:not(.c (d)) [e~=f] + *::g", [',']) := by
    decide +kernel
  cases read : Selector.read spacedSelector with
  | none => simp [read] at texts
  | some found =>
    obtain ⟨selector, rest⟩ := found
    simp only [read, Option.map_some, Option.some.injEq, Prod.mk.injEq] at texts
    obtain ⟨text, rfl⟩ := texts
    exact ⟨selector, rfl, text, (selectors_read_back _ _ selector read).1⟩

end StyleResolution

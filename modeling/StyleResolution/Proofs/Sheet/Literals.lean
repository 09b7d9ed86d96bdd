import StyleResolution.Proofs.Sheet.Comments
import StyleResolution.Proofs.Sheet.Progress
import StyleResolution.Proofs.Value.Spelling

/-! # Where blanking and the grammar agree about literals

Comments are blanked before a sheet is read, so the scan has a notion of strings and urls of its own.
It agrees with the grammar about strings that are closed, and about urls whose first closing
parenthesis is the last character. A parenthesis in the string of a url ends the url too early, and
what looks like a comment behind it is blanked.
-/

namespace StyleResolution.Comment

open Reader

open Reader (Shrinks)

/-- The string or url at the front of a text, as the grammar delimits it. A tilde in front of a
    string does not count. -/
def grammarLiteral : Reader (List Char) := fun s =>
  if s.head? == some '~' then none
  else match (Value.readQuoted <|> Value.readUrl) s with
    | some (_, rest) => some (s.take (s.length - rest.length), rest)
    | none => none

/-- A string that starts here is closed, and a url that starts here is one for the grammar, too, and
    ends with its first closing parenthesis. -/
structure Unambiguous (s : List Char) : Prop where
  string : ∀ c ∈ s.head?, (c = '"' ∨ c = '\'') → (Value.readQuoted s).isSome = true
  url : startsUrl s = true → ∃ v front rest, Value.readUrl s = some (v, rest) ∧
    s = front ++ ')' :: rest ∧ ')' ∉ front

/-- The places at which `piecesBy` looks for a literal. -/
def literalPlaces (literal : Reader (List Char)) : Nat → List Char → List (List Char)
  | 0, _ => []
  | _, [] => []
  | n + 1, '/' :: '*' :: rest => literalPlaces literal n (splitBlock rest).2
  | n + 1, '/' :: '/' :: rest => literalPlaces literal n (rest.dropWhile (· != '\n'))
  | n + 1, c :: rest =>
    (c :: rest) :: match literal (c :: rest) with
      | some (_, after) => literalPlaces literal n after
      | none => literalPlaces literal n rest

theorem piecesBy_congr
    (same : ∀ t ∈ literalPlaces literal n s, literal' t = literal t) :
    piecesBy literal' n s = piecesBy literal n s := by
  fun_induction piecesBy literal n s with
  | case1 | case2 => simp [piecesBy]
  | case3 n rest ih | case4 n rest ih =>
    simp only [literalPlaces] at same
    simp [piecesBy, ih same]
  | case5 n c rest notBlock notLine cs after read ih =>
    simp only [literalPlaces, read, List.forall_mem_cons] at same
    simp [piecesBy, same.1, ih same.2]
  | case6 n c rest notBlock notLine none ih =>
    simp only [literalPlaces, none, List.forall_mem_cons] at same
    simp [piecesBy, same.1, ih same.2]

/-! ## Strings -/

theorem readStringBody_splitString (noEscape : quote ≠ '\\')
    (read : Value.readStringBody quote s = some (body, rest)) :
    ∃ after, rest = quote :: after ∧ splitString quote s = (body ++ [quote], after) := by
  fun_induction Value.readStringBody quote s generalizing body with
  | case1 | case3 | case4 | case7 => simp at read
  | case2 | case6 =>
    simp only [Option.some.injEq, Prod.mk.injEq] at read
    obtain ⟨rfl, rfl⟩ := read
    simp_all [splitString]
  | case5 _ _ _ _ _ _ read' ih | case8 _ _ _ _ _ _ _ read' ih =>
    simp only [Option.some.injEq, Prod.mk.injEq] at read
    obtain ⟨rfl, rfl⟩ := read
    obtain ⟨after, rfl, split⟩ := ih read'
    simp_all [splitString]

theorem readLiteral_of_readQuoted (read : Value.readQuoted s = some (v, rest)) :
    ∃ t cs, (s = t ∨ s = '~' :: t) ∧ readLiteral t = some (cs, rest) := by
  simp only [Value.readQuoted, bind_eq_some, opt_eq_some, satisfy_eq_some,
    char_eq_some, pure_apply, Option.some.injEq, Prod.mk.injEq] at read
  obtain ⟨_, t, tilde, quote, inside, ⟨rfl, isQuote⟩, body, _, string, _, _, ⟨rfl, -⟩, -, rfl⟩ := read
  have noLetter : quote.toLower ≠ 'u' ∧ quote ≠ '\\' := by
    simp only [Bool.or_eq_true, beq_iff_eq] at isQuote
    rcases isQuote with rfl | rfl <;> decide
  obtain ⟨after, same, split⟩ := readStringBody_splitString noLetter.2 string
  obtain ⟨-, rfl⟩ := List.cons.inj same
  refine ⟨quote :: inside, _, ?_, by
    simp only [readLiteral, startsUrl_eq_false noLetter.1, isQuote, split]; rfl⟩
  rcases tilde with ⟨_, _, h, _⟩ | ⟨_, h, _⟩
  · exact .inr h
  · exact .inl h

/-! ## Urls -/

theorem splitUrl_append_paren (noParen : ')' ∉ front) (rest : List Char) :
    splitUrl (front ++ ')' :: rest) = (front ++ [')'], rest) := by
  induction front with
  | nil => simp [splitUrl]
  | cons c front ih =>
    simp only [List.mem_cons, not_or] at noParen
    simp [splitUrl, ih noParen.2, Ne.symm noParen.1]

/-- The grammar and the scan start a url at the same places, and the url ends with a parenthesis. -/
theorem of_readUrl (read : Value.readUrl s = some (v, rest)) :
    startsUrl s = true ∧ ∃ front, s = front ++ ')' :: rest := by
  simp only [Value.readUrl, bind_eq_some, char_eq_some, pure_apply,
    Option.some.injEq, Prod.mk.injEq] at read
  obtain ⟨_, afterName, name, _, afterBlanks, blanks, _, _, inside, _, _, blanks', _, _, ⟨rfl, rfl⟩,
    -, rfl⟩ := read
  have inner : Shrinks (Value.readQuoted <|> Value.readVariable <|> Value.readUrlText) :=
    inferInstance
  have within := (((Shrinks.suffix blanks').trans (inner.suffix inside)).trans
    (Shrinks.suffix blanks)).trans (Shrinks.suffix name)
  refine ⟨?_, within.imp fun front => Eq.symm⟩
  have paren (d : Char) : '(' = d.toLower → d = '(' := Text.eq_of_toLower rfl
  rcases s with _ | ⟨a, _ | ⟨b, _ | ⟨c, _ | ⟨d, s⟩⟩⟩⟩ <;> simp [wordAnyCase] at name
  grind [startsUrl]

theorem readLiteral_of_startsUrl (url : startsUrl (front ++ ')' :: rest) = true)
    (noParen : ')' ∉ front) :
    readLiteral (front ++ ')' :: rest) = some (front ++ [')'], rest) := by
  cases front with
  | nil => exact absurd url (by simp [startsUrl_eq_false])
  | cons c front =>
    simp only [List.mem_cons, not_or] at noParen
    simp only [List.cons_append] at url ⊢
    simp [readLiteral, url, splitUrl_append_paren noParen.2]

/-! ## Agreement -/

theorem blank_of_readLiteral (literal : readLiteral s = some (cs, rest)) :
    s = cs ++ rest ∧ blank s = cs ++ blank rest := by
  rcases s with _ | ⟨c, s⟩
  · simp [readLiteral] at literal
  obtain ⟨whole, -, copied⟩ := blankFrom_of_readLiteral literal
  have noSlash : c ≠ '/' := by
    rintro rfl
    simp [readLiteral, startsUrl_eq_false] at literal
  refine ⟨whole, ?_⟩
  unfold blank
  rw [← copied, blankFrom] <;> simp [noSlash]

theorem grammarLiteral_append (bare : (cs ++ rest).head? ≠ some '~')
    (read : (Value.readQuoted <|> Value.readUrl) (cs ++ rest) = some (v, rest)) :
    grammarLiteral (cs ++ rest) = some (cs, rest) := by
  simp [-List.head?_append, grammarLiteral, bare, read]

theorem readUrl_eq_none (other : startsUrl s = false) : Value.readUrl s = none :=
  Option.eq_none_iff_forall_ne_some.mpr fun _ read => by simp [(of_readUrl read).1] at other

theorem readQuoted_eq_none (other : c ≠ '"' ∧ c ≠ '\'' ∧ c ≠ '~') :
    Value.readQuoted (c :: s) = none := by
  simp [Value.readQuoted, bind_apply, opt, other]

theorem Unambiguous.readLiteral_eq (h : Unambiguous s) : readLiteral s = grammarLiteral s := by
  rcases s with _ | ⟨c, s⟩
  · rfl
  by_cases url : startsUrl (c :: s) = true
  · obtain ⟨v, front, rest, read, layout, noParen⟩ := h.url url
    have letter : c.toLower = 'u' := Decidable.byContradiction fun other => by
      simp [startsUrl_eq_false other] at url
    have other : c ≠ '"' ∧ c ≠ '\'' ∧ c ≠ '~' := by
      refine ⟨?_, ?_, ?_⟩ <;> rintro rfl <;> simp at letter
    have whole : c :: s = (front ++ [')']) ++ rest := by simp [layout]
    have bare : (c :: s).head? ≠ some '~' := by simp [other.2.2]
    replace read := (orElse_of_none (readQuoted_eq_none other)).trans read
    rw [layout, readLiteral_of_startsUrl (layout ▸ url) noParen, ← layout, whole]
    exact (grammarLiteral_append (whole ▸ bare) (whole ▸ read)).symm
  · have noUrl := readUrl_eq_none (Bool.eq_false_iff.mpr url)
    by_cases quoted : c = '"' ∨ c = '\''
    · obtain ⟨⟨v, rest⟩, read⟩ := Option.isSome_iff_exists.mp (h.string c rfl quoted)
      have bare : c ≠ '~' := by rcases quoted with rfl | rfl <;> decide
      obtain ⟨t, cs, rfl | tilde, literal⟩ := readLiteral_of_readQuoted read
      on_goal 2 => exact absurd (List.cons.inj tilde).1 bare
      have whole := (blankFrom_of_readLiteral literal).1
      rw [literal, whole]
      exact (grammarLiteral_append (whole ▸ by simp [bare])
        (orElse_of_some (whole ▸ read))).symm
    · simp only [not_or] at quoted
      have noLiteral : readLiteral (c :: s) = none := by simp [readLiteral, url, quoted]
      rw [noLiteral, grammarLiteral]
      by_cases tilde : c = '~'
      · simp [tilde]
      · simp [tilde, orElse_of_none (readQuoted_eq_none ⟨quoted.1, quoted.2, tilde⟩), noUrl]

/-- What is left of a comment is passed over where a rule is looked for. The rules behind it are the
    same as without it, wherever they stand. -/
theorem readBody_blanked (spanOf spanOf' : List Char → Span) (cs rest : List Char) :
    (Sheet.readBody spanOf (cs.map blanked ++ rest)).map Rule.allUnplaced =
      (Sheet.readBody spanOf' rest).map Rule.allUnplaced := by
  have skipped : (cs.map blanked ++ rest).dropWhile Text.isBlank = rest.dropWhile Text.isBlank := by
    apply List.dropWhile_append_of_pos
    intro d member
    obtain ⟨c, -, rfl⟩ := List.mem_map.mp member
    unfold blanked
    split <;> rfl
  rw [Sheet.readBody_unplaced, Sheet.readBody_unplaced, Sheet.readBody_eq, Sheet.rulesThen, skipped]
  rfl

/-- Blanking copies every string that the grammar reads, and goes on behind it. It copies every url up
    to its first closing parenthesis, which may be inside of the url's string, and goes on there. If
    no literal of a text is ambiguous, the comments that the grammar sees are blanked, and nothing
    else is: the sheet is read as with layout in their places. Between two rules, such layout is
    passed over, and the rules that follow differ in their positions only. -/
theorem blanking_agrees_with_grammar (s : List Char) :
    (∀ v rest, Value.readQuoted s = some (v, rest) →
      ∃ cs, s = cs ++ rest ∧ blank s = cs ++ blank rest) ∧
    (∀ v rest, Value.readUrl s = some (v, rest) →
      ∃ front back, s = front ++ ')' :: back ∧ ')' ∉ front ∧ rest <:+ back ∧
        blank s = front ++ ')' :: blank back) ∧
    ((∀ t ∈ literalPlaces grammarLiteral s.length s, Unambiguous t) →
      (piecesBy grammarLiteral s.length s).flatMap Piece.text = s ∧
        blank s = (piecesBy grammarLiteral s.length s).flatMap Piece.kept ∧
        (∀ file, Sheet.readText file s =
          Sheet.readText file ((piecesBy grammarLiteral s.length s).flatMap Piece.kept)) ∧
        ∀ cs, .comment cs ∈ piecesBy grammarLiteral s.length s → ∀ spanOf spanOf' rest,
          (Sheet.readBody spanOf ((Piece.comment cs).kept ++ rest)).map Rule.allUnplaced =
            (Sheet.readBody spanOf' rest).map Rule.allUnplaced) := by
  refine ⟨fun v rest read => ?_, fun v rest read => ?_, fun unambiguous => ?_⟩
  · obtain ⟨t, cs, rfl | rfl, literal⟩ := readLiteral_of_readQuoted read
    · exact ⟨cs, blank_of_readLiteral literal⟩
    · obtain ⟨rfl, copied⟩ := blank_of_readLiteral literal
      refine ⟨'~' :: cs, rfl, ?_⟩
      rw [List.cons_append, ← copied]
      simp [blank, blankFrom, afterPlain, startsUrl_eq_false]
  · obtain ⟨url, whole, rfl⟩ := of_readUrl read
    have paren : ')' ∈ whole ++ [')'] := by simp
    obtain ⟨front, back, split, noParen⟩ := List.eq_append_cons_of_mem paren
    have layout : whole ++ ')' :: rest = front ++ ')' :: (back ++ rest) := by
      simpa using congrArg (· ++ rest) split
    have copied := (blank_of_readLiteral (readLiteral_of_startsUrl (layout ▸ url) noParen)).2
    exact ⟨front, back ++ rest, layout, noParen, List.suffix_append .., by simpa [layout] using copied⟩
  · have same : pieces s = piecesBy grammarLiteral s.length s :=
      piecesBy_congr fun t place => (unambiguous t place).readLiteral_eq
    obtain ⟨whole, blanks⟩ := pieces_spec s
    rw [same] at whole blanks
    have settled : blank (blank s) = blank s := blankFrom_settled .plain s
    refine ⟨whole.symm, blanks, fun file => ?_, fun cs _ spanOf spanOf' rest =>
      readBody_blanked spanOf spanOf' cs rest⟩
    rw [← blanks, Sheet.readText, Sheet.readText, settled]

theorem slashes_in_url_are_kept :
    blank "url('//')/*c*/".toList = "url('//')     ".toList := by
  have only : literalPlaces grammarLiteral 14 "url('//')/*c*/".toList = ["url('//')/*c*/".toList] := by
    decide +kernel
  have unambiguous : Unambiguous "url('//')/*c*/".toList :=
    ⟨by simp, fun _ => ⟨.url (.quoted "//" (some '\'')), "url('//'".toList, "/*c*/".toList, by rfl,
      by decide, by decide⟩⟩
  have agreement := (blanking_agrees_with_grammar "url('//')/*c*/".toList).2.2 fun t place => by
    replace place : t ∈ literalPlaces grammarLiteral 14 "url('//')/*c*/".toList := place
    rw [only, List.mem_singleton] at place
    exact place ▸ unambiguous
  exact agreement.2.1.trans (by decide +kernel)

/-- A comment in the string of a url is blanked behind a parenthesis, and a comment behind a quote that
    is not closed is not blanked at all. -/
theorem string_of_url_is_blanked :
    Value.readUrl "url(\"x)/*y*/\")".toList =
      some (.url (.quoted "x)/*y*/" (some '"')), []) ∧
    Sheet.readText 0 "a: url(\"x)/*y*/\");".toList =
      .ok [.declaration ⟨"a", .url (.quoted "x)     " (some '"')), false, ⟨0, 1, 1⟩⟩] ∧
    Value.readQuoted "'s; /* x */".toList = none ∧
    blank "'s; /* x */".toList = "'s; /* x */".toList := by
  exact ⟨by rfl, by with_unfolding_all rfl, by decide +kernel, by decide +kernel⟩

end StyleResolution.Comment

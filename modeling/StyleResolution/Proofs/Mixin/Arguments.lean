import StyleResolution.Proofs.Value.ReadBack

/-! # Lists of arguments are read back

Which separator a list of arguments uses is found out by looking ahead for a semicolon, without
reading the arguments. The scan passes over the text of a value, whatever its strings and brackets
hold, and so it finds the separators only.
-/

namespace StyleResolution.Mixin

open Reader Text

open Value (Spells Next Closes Opens)
open Reader (Ends)

/-! ## Looking ahead -/

def isPassed (c : Char) : Bool :=
  !(c == '"' || c == '\'' || isOpening c || isClosing c || c == ';')

theorem isPassed_of_isNameChar (named : isNameChar c = true) : isPassed c = true := by
  cases passed : isPassed c with
  | true => rfl
  | false =>
    simp only [isPassed, isOpening, isClosing, Bool.not_eq_false', Bool.or_eq_true, beq_iff_eq] at passed
    rcases passed with (((rfl | rfl) | (rfl | rfl) | rfl) | (rfl | rfl) | rfl) | rfl <;> cases named

theorem findsSemicolon_cons (passed : isPassed c = true) :
    findsSemicolon (.plain depth) (c :: s) = findsSemicolon (.plain depth) s := by
  simp only [isPassed, Bool.not_eq_true', Bool.or_eq_false_iff] at passed
  simp [findsSemicolon, passed]

theorem findsSemicolon_append (passed : cs.all isPassed = true) :
    findsSemicolon (.plain depth) (cs ++ s) = findsSemicolon (.plain depth) s := by
  induction cs with
  | nil => rfl
  | cons c cs ih =>
    simp only [List.all_cons, Bool.and_eq_true] at passed
    rw [List.cons_append, findsSemicolon_cons passed.1, ih passed.2]

theorem isPassed_of_all {cs : List Char}
    (named : ∀ c ∈ cs, isNameChar c = true ∨ c = '.' ∨ c = '%') : cs.all isPassed = true := by
  refine List.all_eq_true.mpr fun c member => ?_
  rcases named c member with named | rfl | rfl
  · exact isPassed_of_isNameChar named
  · rfl
  · rfl

theorem isPassed_of_isAsciiName (ascii : Value.isAsciiName cs = true) : cs.all isPassed = true :=
  isPassed_of_all fun c member =>
    .inl (List.all_eq_true.mp (Value.isNameChar_of_isAsciiName ascii) c member)

theorem isPassed_numeral {n : Decimal.Numeral} (wellFormed : n.WellFormed) :
    n.chars.all isPassed = true := by
  refine isPassed_of_all fun c member => ?_
  have digit {ds : List Char} (all : ds.all Decimal.isDigit = true) (here : c ∈ ds) :
      isNameChar c = true :=
    Decimal.isNameChar_of_isDigit (List.all_eq_true.mp all c here)
  simp only [Decimal.Numeral.chars, List.mem_append] at member
  rcases member with (sign | whole) | fraction
  · split at sign <;> simp at sign
    exact .inl (sign ▸ rfl)
  · exact .inl (digit wellFormed.whole whole)
  · split at fraction <;> simp at fraction
    exact fraction.elim (fun point => .inr (.inl point)) fun here => .inl (digit wellFormed.fraction here)

theorem isPassed_unit (isUnit : unit = ['%'] ∨ unit.all Char.isAlpha = true) :
    unit.all isPassed = true := by
  rcases isUnit with rfl | letters
  · rfl
  · refine isPassed_of_all fun c member => .inl ?_
    simp [isNameChar, Char.isAlphanum, List.all_eq_true.mp letters c member]

theorem findsSemicolon_string (isQuote : quote = '"' ∨ quote = '\'')
    (body : Value.isStringBody quote cs = true) (depth : Nat) (s : List Char) :
    findsSemicolon (.inString depth quote) (cs ++ quote :: s) = findsSemicolon (.plain depth) s := by
  have noEscape : ¬ quote = '\\' := by rcases isQuote with rfl | rfl <;> decide
  fun_induction Value.isStringBody quote cs with
  | case1 => simp [findsSemicolon, noEscape]
  | case2 c =>
    simp only [Bool.and_eq_true, bne_iff_ne] at body
    simp [findsSemicolon, body, noEscape]
  | case3 c d cs escape ih =>
    simp only [beq_iff_eq] at escape
    simp [findsSemicolon, escape, ih body]
  | case4 c d cs noEscape ih =>
    simp only [Bool.and_eq_true, bne_iff_ne] at body
    have later := ih body.2
    simp only [List.cons_append] at later
    simp_all [findsSemicolon]

theorem findsSemicolon_flatMap {items : List ι} {chunk : ι → List Char}
    (each : ∀ i ∈ items, ∀ s,
      findsSemicolon (.plain depth) (chunk i ++ s) = findsSemicolon (.plain depth) s) (s : List Char) :
    findsSemicolon (.plain depth) (items.flatMap chunk ++ s) = findsSemicolon (.plain depth) s := by
  induction items with
  | nil => rfl
  | cons i items ih =>
    rw [List.flatMap_cons, List.append_assoc, each i (by simp), ih fun j member => each j (by simp [member])]

theorem findsSemicolon_text (h : Spells level v w) (depth : Nat) (s : List Char) :
    findsSemicolon (.plain depth) (v.text.toList ++ s) = findsSemicolon (.plain depth) s := by
  induction h generalizing depth s with
  | keyword name ident ascii => exact findsSemicolon_append (isPassed_of_isAsciiName ascii)
  | reference name _ ascii | indirect name _ ascii =>
    simp only [Value.text, String.toList_append, List.append_assoc]
    rw [findsSemicolon_append rfl, findsSemicolon_append (isPassed_of_isAsciiName ascii)]
  | color digits valid =>
    have named := List.all_eq_true.mp (Value.isNameChar_of_isColorDigits valid)
    simp only [Value.text, String.toList_ofList, List.cons_append]
    rw [findsSemicolon_cons rfl,
      findsSemicolon_append (isPassed_of_all fun c member => .inl (named c member))]
  | quoted text quote isQuote body =>
    have string := findsSemicolon_string isQuote body depth s
    rcases isQuote with rfl | rfl <;> simpa [Value.text, Value.quotedText, findsSemicolon] using string
  | dimension x unit numeral denotes isUnit =>
    obtain ⟨wellFormed, same⟩ := Decimal.Numeral.wellFormed_of_read denotes
    rw [List.append_nil] at same
    simp only [Value.text, Dimension.text, String.toList_append, List.append_assoc, same]
    rw [findsSemicolon_append (isPassed_numeral wellFormed), findsSemicolon_append (isPassed_unit isUnit)]
  | paren inner ih =>
    simpa [Value.text, findsSemicolon, isOpening, isClosing] using ih (depth + 1) (')' :: s)
  | call name ident ascii notUrl args each ih =>
    have inside : findsSemicolon (.plain (depth + 1))
        ((join ", " (Value.texts (args.map (·.1)))).toList ++ ')' :: s) =
          findsSemicolon (.plain (depth + 1)) (')' :: s) := by
      cases args with
      | nil => rfl
      | cons a args =>
        simp only [Value.texts_eq_map, List.map_cons, toList_join, List.flatMap_map,
          List.append_assoc]
        rw [ih a (by simp)]
        refine findsSemicolon_flatMap (fun i member s => ?_) _
        rw [List.append_assoc, findsSemicolon_append rfl, ih i (by simp [member])]
    simp only [Value.text, String.toList_append, List.append_assoc]
    rw [findsSemicolon_append (isPassed_of_isAsciiName ascii)]
    exact inside
  | ofFactor h ih | ofTerm h ih => exact ih depth s
  | product op isProduct lhs rhs ihLhs ihRhs | sum op isProduct lhs rhs ihLhs ihRhs =>
    simp only [Value.text, String.toList_append, List.append_assoc]
    rw [ihLhs, findsSemicolon_append rfl, findsSemicolon_append (by cases op <;> rfl),
      findsSemicolon_append rfl, ihRhs]
  | spaces items nonempty each ih | commas items nonempty each ih =>
    obtain ⟨first, more, rfl⟩ := List.exists_cons_of_ne_nil nonempty
    rw [Value.toList_text_collapse, List.append_assoc, ih first (by simp)]
    refine findsSemicolon_flatMap (fun i member s => ?_) s
    rw [List.append_assoc, findsSemicolon_append rfl, ih i (by simp [member])]

/-! ## One argument -/

/-- The argument as it is written: `value` or `@name: value`. -/
def argumentText (a : Argument) : List Char :=
  match a.name with
  | none => a.value.text.toList
  | some name => '@' :: name.toList ++ ':' :: ' ' :: a.value.text.toList

/-- The text of the first argument spells the second. -/
structure SpellsArgument (level : Value.Level) (a b : Argument) : Prop where
  name : b.name = a.name
  named : ∀ name ∈ a.name, name.toList ≠ [] ∧ Value.isAsciiName name.toList = true
  value : Spells level a.value b.value

theorem SpellsArgument.opens (h : SpellsArgument level a b) (s : List Char) :
    Opens (argumentText a ++ s) := by
  unfold argumentText
  split
  · exact h.value.opens s
  · exact ⟨rfl, fun dash => by cases dash⟩

theorem findsSemicolon_argument (h : SpellsArgument level a b) (s : List Char) :
    findsSemicolon (.plain 0) (argumentText a ++ s) = findsSemicolon (.plain 0) s := by
  have value := findsSemicolon_text h.value 0 s
  unfold argumentText
  split
  · exact value
  · rename_i name isNamed
    have passed := isPassed_of_isAsciiName (h.named name isNamed).2
    rw [List.cons_append, List.cons_append, findsSemicolon_cons rfl, List.append_assoc,
      findsSemicolon_append passed]
    exact (findsSemicolon_cons rfl).trans ((findsSemicolon_cons rfl).trans value)

theorem readAtNameColon_of_ne (other : c ≠ '@') (s : List Char) : readAtNameColon (c :: s) = none :=
  bind_of_none (bind_of_none (by simp [other]))

theorem readAtNameColon_of_first (first : isNameChar c = true ∨ c = '.') (s : List Char) :
    readAtNameColon (c :: s) = none := by
  refine readAtNameColon_of_ne ?_ s
  rintro rfl
  revert first
  decide

theorem readAtNameColon_ident (ident : Text.IsIdent cs) (ascii : Value.isAsciiName cs = true)
    (s : List Char) : readAtNameColon (cs ++ s) = none := by
  have named := List.all_eq_true.mp (Value.isNameChar_of_isAsciiName ascii)
  obtain ⟨c, cs, rfl, -⟩ := ident.first
  exact readAtNameColon_of_first (.inl (named c (by simp))) _

theorem spaced_colon_of_opens (opens : Opens s) : spaced ':' (' ' :: s) = none := by
  cases s with
  | nil => cases opens
  | cons c s =>
    have skipped : blanks ([' '] ++ c :: s) = some ([' '], c :: s) :=
      Value.blanks_append rfl opens.ends
    rw [List.singleton_append] at skipped
    simp [spaced, bind_apply, skipped, opens.ne (d := ':') rfl]

theorem readAtNameColon_text (h : Spells level v w) (closes : Closes s)
    (noColon : spaced ':' s = none) : readAtNameColon (v.text.toList ++ s) = none := by
  induction h generalizing s with
  | keyword name ident ascii => exact readAtNameColon_ident ident ascii s
  | reference name nonempty ascii =>
    have read : readAtName ('@' :: (name.toList ++ s)) = some (_, s) :=
      bind_of_eq (Value.readName_append ascii nonempty closes)
    simp only [Value.text, String.toList_append, List.append_assoc]
    exact (bind_of_eq read).trans (bind_of_none noColon)
  | indirect => simp only [Value.text, String.toList_append, List.append_assoc]; rfl
  | color | paren =>
    simpa [Value.text] using readAtNameColon_of_ne (by decide) _
  | quoted text quote isQuote body =>
    rcases isQuote with rfl | rfl <;>
      simpa [Value.text, Value.quotedText] using readAtNameColon_of_ne (by decide) _
  | dimension x unit numeral denotes isUnit =>
    obtain ⟨wellFormed, same⟩ := Decimal.Numeral.wellFormed_of_read denotes
    obtain ⟨c, cs, here, first, -⟩ := Value.first_of_numeral wellFormed
    rw [List.append_nil, here] at same
    simp only [Value.text, Dimension.text, String.toList_append, List.append_assoc, same]
    exact readAtNameColon_of_first first _
  | call name ident ascii =>
    simp only [Value.text, String.toList_append, List.append_assoc]
    exact readAtNameColon_ident ident ascii _
  | ofFactor h ih | ofTerm h ih => exact ih closes noColon
  | product op isProduct lhs rhs ihLhs ihRhs | sum op isProduct lhs rhs ihLhs ihRhs =>
    simp only [Value.text, String.toList_append, List.append_assoc]
    exact ihLhs (by simp [Closes, Next]) (by cases op <;> rfl)
  | spaces items nonempty each ih =>
    obtain ⟨first, more, rfl⟩ := List.exists_cons_of_ne_nil nonempty
    rw [Value.toList_text_collapse, List.append_assoc]
    cases more with
    | nil => exact ih first (by simp) closes noColon
    | cons i more =>
      refine ih first (by simp) (by simp [Closes, Next, Separator.text]) ?_
      simp only [List.flatMap_cons, List.append_assoc]
      exact spaced_colon_of_opens ((each i (by simp)).opens _)
  | commas items nonempty each ih =>
    obtain ⟨first, more, rfl⟩ := List.exists_cons_of_ne_nil nonempty
    rw [Value.toList_text_collapse, List.append_assoc]
    cases more with
    | nil => exact ih first (by simp) closes noColon
    | cons i more => exact ih first (by simp) (by simp [Closes, Next, Separator.text]) rfl

theorem readAtNameColon_named {name : String} (nonempty : name.toList ≠ [])
    (ascii : Value.isAsciiName name.toList = true) (opens : Opens s) :
    readAtNameColon ('@' :: (name.toList ++ ':' :: ' ' :: s)) = some (name, s) := by
  have atName : readAtName ('@' :: (name.toList ++ ':' :: ' ' :: s)) =
      some (String.ofList name.toList, ':' :: ([' '] ++ s)) :=
    bind_of_eq (readName_eq_some.mpr ⟨rfl, nonempty,
      Value.isNameChar_of_isAsciiName ascii, fun c first => by cases first; rfl⟩)
  rw [String.ofList_toList] at atName
  exact (bind_of_eq atName).trans (bind_of_eq (Value.spaced_append rfl rfl opens.ends))

theorem readArgument_text {follow : List Char} (h : SpellsArgument level a b)
    (reads : ∀ s, Next follow s → readItem semicolons (a.value.text.toList ++ s) = some (b.value, s))
    (sub : follow ⊆ [',', ')', ';']) (next : Next follow s) :
    readArgument semicolons (argumentText a ++ s) = some (b, s) := by
  have found : opt readAtNameColon (argumentText a ++ s) =
      some (b.name, a.value.text.toList ++ s) := by
    rw [h.name]
    unfold argumentText
    split
    · rename_i unnamed
      rw [unnamed]
      refine opt_of_none (readAtNameColon_text h.value (next.mono fun c here => ?_) ?_)
      · exact List.mem_cons_of_mem _ (sub here)
      · exact (next.mono sub).elim (P := fun s => spaced ':' s = none) rfl
          (by simpa using ⟨fun _ => rfl, fun _ => rfl, fun _ => rfl⟩)
    · rename_i name named
      obtain ⟨nonempty, ascii⟩ := h.named name named
      simpa [named] using opt_of_some
        (readAtNameColon_named nonempty ascii (h.value.opens s))
  exact (bind_of_eq found).trans (bind_of_eq (reads s next))

/-! ## Lists of arguments -/

/-- What separates arguments. -/
def mark (semicolons : Bool) : Char :=
  if semicolons then ';' else ','

/-- The tightness of the values that may stand between the separators. -/
def itemLevel (semicolons : Bool) : Value.Level :=
  if semicolons then .value else .spaceList

theorem readItem_text (h : Spells (itemLevel semicolons) v w)
    (next : Next [mark semicolons, ')'] s) :
    readItem semicolons (v.text.toList ++ s) = some (w, s) := by
  cases semicolons with
  | false => exact h.reads s (next.mono (by simp [mark]))
  | true => exact h.reads s (next.mono (by simp [mark]))

variable {first : Argument × Argument} {more : List (Argument × Argument)} {gap trail : List Char}

section

variable (each : ∀ a ∈ first :: more, SpellsArgument (itemLevel semicolons) a.1 a.2)
  (blank : gap.all isBlank = true)

include each blank

theorem readItems_arguments (ending : trail = [] ∨ trail = mark semicolons :: gap)
    (tail : List Char) :
    readItems readArgument semicolons (argumentText first.1 ++
      (more.flatMap (fun a => (mark semicolons :: gap) ++ argumentText a.1) ++
        (trail ++ ')' :: tail))) = some ((first :: more).map (·.2), tail) := by
  have visible : isBlank (mark semicolons) = false := by cases semicolons <;> rfl
  have closing : Ends isBlank (')' :: tail) := fun c here => by cases here; rfl
  have last : Next [mark semicolons, ')'] (trail ++ ')' :: tail) := by
    rcases ending with rfl | rfl <;> simp [Next]
  have done : (do let _ ← spaced (mark semicolons); readArgument semicolons : Reader Argument)
      (trail ++ ')' :: tail) = none := by
    rcases ending with rfl | rfl
    · cases semicolons <;> rfl
    · refine (bind_of_eq (Value.spaced_append visible blank closing)).trans ?_
      cases semicolons <;> rfl
  have items := Value.sepBy1_of_chunks (P := Next [mark semicolons, ')'])
    (spaced (mark semicolons)) (fun _ => mark semicolons :: gap)
    (fun a member s next => readArgument_text (each a member)
      (fun s next => readItem_text (each a member).value next) (by cases semicolons <;> simp [mark]) next)
    (fun a member s => ⟨by simp [Next], (), Value.spaced_append visible blank
      ((each a (by simp [member])).opens s).ends⟩) last done
  refine (bind_of_eq items).trans ?_
  rcases ending with rfl | rfl
  · cases semicolons <;> rfl
  · refine (bind_of_eq (Value.blanks_of_ends fun c here => by cases here; exact visible)).trans ?_
    have skipped := Value.blanks_append blank closing
    cases semicolons <;> simp [mark, bind_apply, opt, skipped]

theorem usesSemicolons_arguments
    (ending : trail = mark semicolons :: gap ∨ trail = [] ∧ semicolons = false) (tail : List Char) :
    usesSemicolons (argumentText first.1 ++
      (more.flatMap (fun a => (mark semicolons :: gap) ++ argumentText a.1) ++
        (trail ++ ')' :: tail))) = semicolons := by
  unfold usesSemicolons
  rw [findsSemicolon_argument (each first (by simp))]
  cases semicolons with
  | true =>
    obtain rfl := ending.resolve_right (by simp)
    cases more <;> rfl
  | false =>
    have gaps (c) (here : c ∈ gap) : isPassed c = true := by
      have layout := List.all_eq_true.mp blank c here
      simp only [isBlank, Bool.or_eq_true, beq_iff_eq] at layout
      rcases layout with ((rfl | rfl) | rfl) | rfl <;> rfl
    have passed : (mark false :: gap).all isPassed = true := by
      simpa [mark] using ⟨rfl, gaps⟩
    rw [findsSemicolon_flatMap fun a member s => by
      rw [List.append_assoc, findsSemicolon_append passed,
        findsSemicolon_argument (each a (by simp [member]))]]
    rcases ending with rfl | ⟨rfl, -⟩
    · rw [findsSemicolon_append passed]
      rfl
    · rfl

end

theorem readArguments_text (semicolons : Bool)
    (each : ∀ a ∈ first :: more, SpellsArgument (itemLevel semicolons) a.1 a.2)
    (blank : gap.all isBlank = true)
    (ending : trail = mark semicolons :: gap ∨ trail = [] ∧ semicolons = false) (tail : List Char) :
    readArguments ('(' :: (argumentText first.1 ++
      (more.flatMap (fun a => (mark semicolons :: gap) ++ argumentText a.1) ++
        (trail ++ ')' :: tail)))) = some ((first :: more).map (·.2), tail) := by
  have uses := usesSemicolons_arguments each blank ending tail
  have items := readItems_arguments each blank (ending.elim .inr fun h => .inl h.1) tail
  have opens := (each first (by simp)).opens
    (more.flatMap (fun a => (mark semicolons :: gap) ++ argumentText a.1) ++ (trail ++ ')' :: tail))
  generalize argumentText first.1 ++ _ = s at uses items opens ⊢
  have start : s.dropWhile isBlank = s :=
    congrArg Prod.snd (Option.some.inj (Value.blanks_of_ends opens.ends))
  unfold readArguments readParenthesized
  simp only [char_cons, if_true, start, uses]
  split
  · exact absurd rfl (opens.ne rfl)
  · exact items

theorem flatMap_trailing (chunk : ι → List α) (separator : List α) (first : ι) (more : List ι) :
    (first :: more).flatMap (fun i => chunk i ++ separator) =
      chunk first ++ (more.flatMap (fun i => separator ++ chunk i) ++ separator) := by
  induction more generalizing first with
  | nil => simp
  | cons next more ih => rw [List.flatMap_cons, ih]; simp

theorem spells_spaceList (h : Spells .value v w) (single : ∀ items, v ≠ .list .comma items) :
    Spells .spaceList v w := by
  cases h with
  | commas items nonempty each =>
    rcases items with _ | ⟨i, _ | ⟨j, items⟩⟩
    · exact absurd rfl nonempty
    · exact each i (by simp)
    · exact absurd rfl (single _)

/-- Arguments that are each followed by a semicolon are read back, also if their values are comma
    lists; without such values they are read back from a list with commas, too. What stands behind
    the parenthesis is left as it is. -/
theorem argument_lists_read_back
    (each : ∀ a ∈ first :: more, SpellsArgument .value a.1 a.2)
    (blank : gap.all isBlank = true) (tail : List Char) :
    readArguments ('(' :: ((first :: more).flatMap (fun a => argumentText a.1 ++ ';' :: gap) ++
      ')' :: tail)) = some ((first :: more).map (·.2), tail) ∧
    ((∀ a ∈ first :: more, ∀ items, a.1.value ≠ .list .comma items) →
      readArguments ('(' :: (argumentText first.1 ++
        more.flatMap (fun a => ',' :: gap ++ argumentText a.1) ++ ')' :: tail)) =
        some ((first :: more).map (·.2), tail)) := by
  constructor
  · rw [flatMap_trailing, List.append_assoc, List.append_assoc]
    exact readArguments_text true each blank (.inl rfl) tail
  · intro single
    rw [List.append_assoc]
    have each (a) (member : a ∈ first :: more) : SpellsArgument .spaceList a.1 a.2 :=
      ⟨(each a member).name, (each a member).named,
        spells_spaceList (each a member).value (single a member)⟩
    exact readArguments_text false each blank (.inr (⟨rfl, rfl⟩ : [] = [] ∧ _)) tail

theorem quoted_separators_read_back :
    let text : Argument := ⟨none, .quoted "x;,(" (some '"')⟩
    let named : Argument := ⟨some "n", .keyword "a"⟩
    readArguments ("(\"x;,(\"; @n: a; );".toList) = some ([text, named], [';']) ∧
      readArguments ("(\"x;,(\", @n: a);".toList) = some ([text, named], [';']) := by
  intro text named
  have item (v : Value) (h : Spells .factor v v) : Spells .value v v := by
    have list : Spells .spaceList v v :=
      .spaces [(v, v)] (by simp) (by simpa using .ofTerm (.ofFactor h))
    exact .commas [(v, v)] (by simp) (by simpa using list)
  have each : ∀ a ∈ [(text, text), (named, named)], SpellsArgument .value a.1 a.2 := by
    simp only [List.forall_mem_cons, List.not_mem_nil, false_imp_iff, implies_true, and_true]
    exact ⟨⟨rfl, by simp [text], item _ (.quoted "x;,(" '"' (.inl rfl) rfl)⟩, rfl,
      by simp [named]; decide, item _ (.keyword "a" ⟨[], 'a', [], rfl, by simp, rfl, rfl⟩ rfl)⟩
  have read := argument_lists_read_back each (show [' '].all isBlank = true from rfl) [';']
  refine ⟨Eq.trans (congrArg readArguments ?_) read.1,
    Eq.trans (congrArg readArguments ?_) (read.2 (by simp [text, named]))⟩ <;> decide

end StyleResolution.Mixin

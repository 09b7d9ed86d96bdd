import StyleResolution.Proofs.Value.Spelling

/-! # Values are read back from their texts

The operations of a product or a sum are read one after the other, so the first operand is read
together with what follows it. Signs need care: a minus sign is an operator only if a blank follows
it, and no operand and no item starts with a minus sign that a blank follows.
-/

namespace StyleResolution

open Reader Text

open Reader (Ends Repeats)

namespace Value

/-! ## Operations -/

theorem readOperations_of_repeats {operand : Reader Value} [operand.Consumes]
    (first : operand s = some (w, mid)) (others : Repeats (readOperation symbols operand) mid ops rest) :
    readOperations symbols operand s =
      some (ops.foldl (fun lhs (op, rhs) => .operation op lhs rhs) w, rest) :=
  (bind_of_eq first).trans (bind_of_eq others.many)

theorem repeats_nothing {operand : Reader Value} (h : readOperator symbols s = none) :
    Repeats (readOperation symbols operand) s [] s :=
  .done (bind_of_none h)

def Rests (s : List Char) : Prop :=
  readOperator ['*', '/'] s = none ∧ readOperator ['+', '-'] s = none

theorem rests_of_opens (h : Opens s) : Rests (' ' :: s) := by
  cases s with
  | nil => cases h
  | cons c s =>
    have visible := h.ends c rfl
    have blank : isBlank ' ' = true := rfl
    have dash : isBlank '-' = false := rfl
    by_cases minus : c = '-'
    · simp [Rests, readOperator, blank, minus, h.2 minus, dash]
    · simp [Rests, readOperator, blank, visible, minus, h.ne (d := '*') rfl, h.ne (d := '/') rfl,
        h.ne (d := '+') rfl]

theorem rests_of_next (h : Next [',', ')', ';'] s) : Rests s :=
  h.elim ⟨rfl, rfl⟩ (by simpa using ⟨fun _ => ⟨rfl, rfl⟩, fun _ => ⟨rfl, rfl⟩, fun _ => ⟨rfl, rfl⟩⟩)

theorem readOperator_symbol (opens : Opens s) (isOperator : operatorOf c = some op) :
    readOperator symbols (' ' :: c :: ' ' :: s) = if c ∈ symbols then some (op, s) else none := by
  have left : s.dropWhile isBlank = s :=
    congrArg Prod.snd (Option.some.inj (blanks_of_ends opens.ends))
  have visible : isBlank c = false := by
    unfold operatorOf at isOperator
    split at isOperator <;> first | rfl | cases isOperator
  have blank : isBlank ' ' = true := rfl
  simp [readOperator, visible, blank, isOperator, left, startsAttached, isWhite]

/-! ## Lists -/

theorem repeats_of_chunks {p : Reader α} {P : List Char → Prop} {items : List ι}
    {chunk : ι → List Char} {result : ι → α}
    (reads : ∀ i ∈ items, ∀ rest, P rest → p (chunk i ++ rest) = some (result i, rest))
    (starts : ∀ i ∈ items, ∀ rest, P (chunk i ++ rest)) (last : P rest) (done : p rest = none) :
    Repeats p (items.flatMap chunk ++ rest) (items.map result) rest := by
  induction items with
  | nil => exact .done done
  | cons i items ih =>
    have later := ih (fun i member => reads i (by simp [member]))
      (fun i member => starts i (by simp [member]))
    rw [List.flatMap_cons, List.append_assoc]
    refine .again (reads i (by simp) _ ?_) later
    cases items with
    | nil => exact last
    | cons j items =>
      rw [List.flatMap_cons, List.append_assoc]
      exact starts j (by simp) _

theorem sepBy1_of_chunks (separator : Reader β) {item : Reader α} [separator.Shrinks] [item.Consumes]
    {P : List Char → Prop} {first : ι} {more : List ι} (mark : ι → List Char) {chunk : ι → List Char}
    {result : ι → α}
    (reads : ∀ i ∈ first :: more, ∀ rest, P rest → item (chunk i ++ rest) = some (result i, rest))
    (marks : ∀ i ∈ more, ∀ rest, P (mark i ++ (chunk i ++ rest)) ∧
      ∃ u, separator (mark i ++ (chunk i ++ rest)) = some (u, chunk i ++ rest))
    (last : P rest) (done : (do let _ ← separator; item) rest = none) :
    sepBy1 separator item
      (chunk first ++ (more.flatMap (fun i => mark i ++ chunk i) ++ rest)) =
      some ((first :: more).map result, rest) := by
  have others : Repeats (do let _ ← separator; item)
      (more.flatMap (fun i => mark i ++ chunk i) ++ rest) (more.map result) rest := by
    refine repeats_of_chunks (P := P) (fun i member rest stop => ?_) (fun i member rest => ?_) last done
    · obtain ⟨-, u, read⟩ := marks i member rest
      rw [List.append_assoc, bind_of_eq read]
      exact reads i (by simp [member]) rest stop
    · rw [List.append_assoc]
      exact (marks i member rest).1
  have here : item (chunk first ++ (more.flatMap (fun i => mark i ++ chunk i) ++ rest)) =
      some (result first, more.flatMap (fun i => mark i ++ chunk i) ++ rest) := by
    refine reads first (by simp) _ ?_
    cases more with
    | nil => exact last
    | cons i more =>
      simp only [List.flatMap_cons, List.append_assoc]
      exact (marks i (by simp) _).1
  exact (bind_of_eq here).trans (bind_of_eq others.many)

theorem spaced_append (visible : isBlank c = false) (all : gap.all isBlank = true)
    (ends : Ends isBlank s) : spaced c (c :: (gap ++ s)) = some ((), s) := by
  have before : blanks (c :: (gap ++ s)) = some ([], c :: (gap ++ s)) :=
    blanks_of_ends fun d first => by cases first; exact visible
  simp [spaced, bind_apply, before, blanks_append all ends]

section

variable {first : Value × Value} {more : List (Value × Value)}

theorem sepBy1_commas (each : ∀ i ∈ first :: more, Spells .spaceList i.1 i.2)
    (reads : ∀ i ∈ first :: more, ∀ rest, Next [',', ')', ';'] rest →
      readSpaceList (i.1.text.toList ++ rest) = some (i.2, rest)) (last : Next [')', ';'] rest) :
    sepBy1 (spaced ',') readSpaceList
      (first.1.text.toList ++ (more.flatMap (fun i => [',', ' '] ++ i.1.text.toList) ++ rest)) =
      some ((first :: more).map (·.2), rest) := by
  have stop : spaced ',' rest = none :=
    last.elim (P := fun s => spaced ',' s = none) rfl
      (by simpa using ⟨fun _ => rfl, fun _ => rfl⟩)
  exact sepBy1_of_chunks (P := Next [',', ')', ';']) (spaced ',') (fun _ => [',', ' ']) reads
    (fun i member rest => ⟨by simp [Next], (),
      spaced_append rfl rfl ((each i (by simp [member])).opens rest).ends⟩)
    (last.mono (by simp)) (bind_of_none stop)

theorem readSpaceList_items (each : ∀ i ∈ first :: more, Spells .expression i.1 i.2)
    (reads : ∀ i ∈ first :: more, ∀ rest, Closes rest → Rests rest →
      expression readSpaceList (i.1.text.toList ++ rest) = some (i.2, rest))
    (last : Next [',', ')', ';'] rest) :
    readSpaceList (first.1.text.toList ++ (more.flatMap (fun i => [' '] ++ i.1.text.toList) ++ rest)) =
      some (collapse .space ((first :: more).map (·.2)), rest) := by
  have stop : (do let _ ← blanks; expression readSpaceList : Reader Value) rest = none :=
    (bind_of_eq (blanks_of_ends (last.ends (by decide)))).trans
      (last.elim (P := fun s => expression readSpaceList s = none) rfl
        (by simpa using ⟨fun _ => rfl, fun _ => rfl, fun _ => rfl⟩))
  have read := sepBy1_of_chunks (P := fun s => Closes s ∧ Rests s) blanks (fun _ => [' '])
    (fun i member rest h => reads i member rest h.1 h.2)
    (fun i member rest => by
      have opens := (each i (by simp [member])).opens rest
      exact ⟨⟨by simp [Closes, Next], rests_of_opens opens⟩, _, blanks_append rfl opens.ends⟩)
    ⟨last.mono (by simp), rests_of_next last⟩ stop
  obtain ⟨w, mid, here, later⟩ := bind_eq_some.mp read
  obtain ⟨ws, left, others, same⟩ := bind_eq_some.mp later
  cases same
  rw [readSpaceList_eq]
  exact (bind_of_eq here).trans (bind_of_eq others)

end

theorem factor_call {inner : Reader Value} (ident : Text.IsIdent cs)
    (ascii : isAsciiName cs = true)
    (notUrl : cs.map Char.toLower ≠ ['u', 'r', 'l']) (ends : Ends isBlank s)
    (args : sepBy (spaced ',') inner s = some (ws, ')' :: rest)) :
    factor inner (cs ++ '(' :: s) = some (.call (String.ofList cs) ws, rest) := by
  have open' : Ends isNameChar ('(' :: s) := fun c first => by cases first; rfl
  have name := readIdent_eq_some.mpr ⟨rfl, ident, open'⟩
  have after : blanks (')' :: rest) = some ([], ')' :: rest) := rfl
  rw [factor_of_ident ident ascii open' (.inl notUrl)]
  refine orElse_of_some ?_
  simp [readCall, bind_apply, name, blanks_of_ends ends, args, after]

/-! ## Reading back -/

/-- The reader of the level takes the text as the value. The first operands of products and sums are
    read together with the operations after them. -/
def Reads (cs : List Char) (w : Value) : Level → Prop
  | .factor => ∀ rest, Closes rest → factor readSpaceList (cs ++ rest) = some (w, rest)
  | .term => ∀ rest ops left, Closes rest →
      Repeats (readOperation ['*', '/'] (factor readSpaceList)) rest ops left →
      term readSpaceList (cs ++ rest) =
        some (ops.foldl (fun lhs (op, rhs) => .operation op lhs rhs) w, left)
  | .expression => ∀ rest ops left, Closes rest → readOperator ['*', '/'] rest = none →
      Repeats (readOperation ['+', '-'] (term readSpaceList)) rest ops left →
      expression readSpaceList (cs ++ rest) =
        some (ops.foldl (fun lhs (op, rhs) => .operation op lhs rhs) w, left)
  | .spaceList => ∀ rest, Next [',', ')', ';'] rest → readSpaceList (cs ++ rest) = some (w, rest)
  | .value => ∀ rest, Next [')', ';'] rest → readValue (cs ++ rest) = some (w, rest)

theorem Spells.reads (h : Spells level v w) : Reads v.text.toList w level := by
  induction h with
  | keyword name ident ascii =>
    intro rest closes
    simpa [text] using factor_keyword ident ascii closes readSpaceList
  | reference name nonempty ascii =>
    intro rest closes
    simpa [text] using factor_variable ascii nonempty closes readSpaceList
  | indirect name nonempty ascii =>
    intro rest closes
    simpa [text] using factor_indirect ascii nonempty closes readSpaceList
  | color digits valid =>
    intro rest closes
    simpa [text] using factor_color valid closes readSpaceList
  | quoted text quote isQuote body =>
    intro rest _
    simpa [Value.text, quotedText] using factor_quoted isQuote body rest readSpaceList
  | dimension x unit numeral denotes isUnit =>
    intro rest closes
    obtain ⟨wellFormed, same⟩ := Decimal.Numeral.wellFormed_of_read denotes
    rw [List.append_nil] at same
    simpa [text, Dimension.text, same] using factor_dimension wellFormed isUnit closes readSpaceList
  | paren inner ih =>
    intro rest _
    simpa [text] using factor_paren inner.opens (ih (')' :: rest) (by simp [Next]))
  | call name ident ascii notUrl args each ih =>
    intro rest _
    cases args with
    | nil =>
      simpa [text, texts] using factor_call ident ascii notUrl (s := ')' :: rest)
        (fun c first => by cases first; rfl) rfl
    | cons a args =>
      have found := sepBy1_commas each ih (show Next [')', ';'] (')' :: rest) by simp [Next])
      have opens := (each a (by simp)).opens
      have read := factor_call ident ascii notUrl (opens _).ends (orElse_of_some found)
      simpa [text, texts_eq_map, toList_join, List.flatMap_map] using read
  | ofFactor h ih =>
    intro rest ops left closes others
    exact readOperations_of_repeats (ih rest closes) others
  | @product v w v' w' op isProduct lhs rhs ihLhs ihRhs =>
    intro rest ops left closes others
    obtain ⟨c, symbol, isOperator, member⟩ : ∃ c, op.symbol.toList = [c] ∧ operatorOf c = some op ∧
        c ∈ ['*', '/'] := by
      rcases isProduct with rfl | rfl
      · exact ⟨'*', rfl, rfl, by simp⟩
      · exact ⟨'/', rfl, rfl, by simp⟩
    have next : readOperation ['*', '/'] (factor readSpaceList)
        (' ' :: c :: ' ' :: (v'.text.toList ++ rest)) = some ((op, w'), rest) :=
      (bind_of_eq ((readOperator_symbol (rhs.opens rest) isOperator).trans
        (if_pos member))).trans (bind_of_eq (ihRhs rest closes))
    have read := ihLhs _ _ _ (by simp [Closes, Next]) (.again next others)
    simpa [text, symbol] using read
  | ofTerm h ih =>
    intro rest ops left closes noProduct others
    exact readOperations_of_repeats (ih rest [] rest closes (repeats_nothing noProduct)) others
  | @sum v w v' w' op isSum lhs rhs ihLhs ihRhs =>
    intro rest ops left closes noProduct others
    obtain ⟨c, symbol, isOperator, member, other⟩ : ∃ c, op.symbol.toList = [c] ∧
        operatorOf c = some op ∧ c ∈ ['+', '-'] ∧ c ∉ ['*', '/'] := by
      rcases isSum with rfl | rfl
      · exact ⟨'+', rfl, rfl, by simp⟩
      · exact ⟨'-', rfl, rfl, by simp⟩
    have operator (symbols : List Char) : readOperator symbols _ = _ :=
      readOperator_symbol (rhs.opens rest) isOperator
    have next : readOperation ['+', '-'] (term readSpaceList)
        (' ' :: c :: ' ' :: (v'.text.toList ++ rest)) = some ((op, w'), rest) :=
      (bind_of_eq ((operator _).trans (if_pos member))).trans
        (bind_of_eq (ihRhs rest [] rest closes (repeats_nothing noProduct)))
    have read := ihLhs _ _ _ (by simp [Closes, Next]) ((operator _).trans (if_neg other))
      (.again next others)
    simpa [text, symbol] using read
  | spaces items nonempty each ih =>
    intro rest next
    obtain ⟨first, more, rfl⟩ := List.exists_cons_of_ne_nil nonempty
    rw [toList_text_collapse, List.append_assoc]
    exact readSpaceList_items each (fun i member rest closes rests =>
      ih i member rest [] rest closes rests.1 (repeats_nothing rests.2)) next
  | commas items nonempty each ih =>
    intro rest next
    obtain ⟨first, more, rfl⟩ := List.exists_cons_of_ne_nil nonempty
    rw [toList_text_collapse, List.append_assoc]
    exact bind_of_eq (sepBy1_commas each ih next)

/-! ## Values that spell themselves -/

mutual

def numbers : Value → List Float
  | .dimension d => [d.number]
  | .list _ items | .call _ items => allNumbers items
  | .operation _ lhs rhs => numbers lhs ++ numbers rhs
  | .paren inner | .url inner => numbers inner
  | .keyword _ | .color _ | .quoted _ _ | .variable _ | .indirect _ => []

def allNumbers : List Value → List Float
  | [] => []
  | v :: vs => numbers v ++ allNumbers vs

end

theorem allNumbers_eq_flatMap (vs : List Value) : allNumbers vs = vs.flatMap numbers := by
  induction vs with
  | nil => rfl
  | cons v vs ih => simp [allNumbers, ih]

theorem numbers_collapse (separator : Separator) (vs : List Value) :
    (collapse separator vs).numbers = allNumbers vs := by
  match vs with
  | [] => rfl
  | [v] => simp [collapse, allNumbers]
  | _ :: _ :: _ => rfl

/-- The numeral that is written for the number denotes it. -/
def IsDenoted (x : Float) : Prop :=
  ∀ numeral, Decimal.Numeral.read (Decimal.numberText x).toList = some (numeral, []) →
    numeral.toFloat = x

/-- A value spells no other value than itself, if its numbers are what their texts denote. -/
theorem Spells.eq_of_isDenoted (h : Spells level v w) (denoted : ∀ x ∈ v.numbers, IsDenoted x) :
    w = v := by
  have each {pairs : List (Value × Value)}
      (ih : ∀ p ∈ pairs, (∀ x ∈ p.1.numbers, IsDenoted x) → p.2 = p.1)
      (denoted : ∀ x ∈ allNumbers (pairs.map (·.1)), IsDenoted x) :
      pairs.map (·.2) = pairs.map (·.1) := by
    apply List.map_congr_left
    intro p member
    refine ih p member fun x inside => denoted x ?_
    rw [allNumbers_eq_flatMap]
    exact List.mem_flatMap.mpr ⟨p.1, List.mem_map_of_mem member, inside⟩
  induction h with
  | keyword | reference | indirect | color | quoted => rfl
  | dimension x unit numeral denotes =>
    rw [denoted x List.mem_cons_self numeral denotes]
  | paren _ ih => rw [ih denoted]
  | call _ _ _ _ args _ ih => rw [each ih denoted]
  | ofFactor _ ih | ofTerm _ ih => exact ih denoted
  | product _ _ _ _ ih ih' | sum _ _ _ _ ih ih' =>
    obtain ⟨left, right⟩ := List.forall_mem_append.mp denoted
    rw [ih left, ih' right]
  | spaces items _ _ ih | commas items _ _ ih =>
    rw [numbers_collapse] at denoted
    rw [each ih denoted]

end Value

/-- A text whose parts bind tightly enough is read back, with the numbers that its numerals denote. If
    those are the numbers of the value, the value itself is read back. -/
theorem values_read_back {v w : Value} (h : Value.Spells .value v w) :
    Value.readValue v.text.toList = some (w, []) ∧
      ((∀ x ∈ v.numbers, Value.IsDenoted x) → Value.readValue v.text.toList = some (v, [])) := by
  have reads : Value.readValue v.text.toList = some (w, []) := by
    simpa using h.reads [] (by simp [Value.Next])
  exact ⟨reads, fun denoted => h.eq_of_isDenoted denoted ▸ reads⟩

theorem attached_signs_read_back :
    let sum : Value := .operation .subtract (.keyword "a")
      (.operation .multiply (.keyword "-b") (.paren (.call "f" [])))
    let v : Value := .spaceList [sum, .keyword "-c"]
    v.text = "a - -b * (f()) -c" ∧ Value.readValue v.text.toList = some (v, []) := by
  intro sum v
  have inner : Value.Spells .spaceList (.call "f" []) (.call "f" []) :=
    .spaces [(_, _)] (by simp) (by simpa using .ofTerm (.ofFactor
      (.call "f" ⟨[], 'f', [], rfl, by simp, rfl, rfl⟩ rfl (by decide) [] (by simp))))
  have product : Value.Spells .expression sum sum :=
    .sum .subtract (.inr rfl)
      (.ofTerm (.ofFactor (.keyword "a" ⟨[], 'a', [], rfl, by simp, rfl, rfl⟩ rfl)))
      (.product .multiply (.inl rfl)
        (.ofFactor (.keyword "-b" ⟨['-'], 'b', [], rfl, by simp, rfl, rfl⟩ rfl)) (.paren inner))
  have last : Value.Spells .expression (.keyword "-c") (.keyword "-c") :=
    .ofTerm (.ofFactor (.keyword "-c" ⟨['-'], 'c', [], rfl, by simp, rfl, rfl⟩ rfl))
  have items : Value.Spells .spaceList v v :=
    .spaces [(sum, sum), (.keyword "-c", .keyword "-c")] (by simp) (by simpa using ⟨product, last⟩)
  exact ⟨by decide, (values_read_back (.commas [(v, v)] (by simp) (by simpa using items))).1⟩

end StyleResolution

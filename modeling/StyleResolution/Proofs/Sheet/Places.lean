import StyleResolution.Proofs.Sheet.Comments

/-! # Positions are positions in the source

The table of line starts and the offsets in bytes come to this: the line is one more than the
newlines before a place, and the column one more than the characters since the last of them. Both
are the same in the source as in the blanked text, so every rule carries the position at which it
starts in the source, and a syntax error the one at which the rejected text starts. Only in a text
too long for 32 bits may a line or a column be cut off.
-/

namespace StyleResolution

namespace Position

/-- The position after the front of a text. -/
def after (file : Nat) (front : List Char) : Span :=
  ⟨file, front.count '\n' + 1, (front.reverse.takeWhile (· != '\n')).length + 1⟩

/-- What is kept of a position. -/
def kept (p : Span) : Span :=
  ⟨p.file, word p.line, word p.column⟩

theorem kept_after {source : String} (all : source.toList = front ++ back)
    (short : source.length + 1 < UInt32.size) : kept (after file front) = after file front := by
  rw [← String.length_toList, all, List.length_append] at short
  have newlines : front.count '\n' ≤ front.length := List.count_le_length
  have since : (front.reverse.takeWhile (· != '\n')).length ≤ front.length := by
    simpa using (List.takeWhile_sublist (· != '\n') (l := front.reverse)).length_le
  simp only [kept, after, word, Span.mk.injEq, true_and]
  exact ⟨UInt32.toNat_ofNat_of_lt' (by omega), UInt32.toNat_ofNat_of_lt' (by omega)⟩

theorem byteLength_append (s t : List Char) :
    byteLength (s ++ t) = byteLength s + byteLength t := by
  induction s with
  | nil => simp [byteLength]
  | cons c s ih => simp [byteLength, ih, Nat.add_assoc]

theorem afterNewlines_append (offset : Nat) (s t : List Char) :
    afterNewlines offset (s ++ t) =
      afterNewlines offset s ++ afterNewlines (offset + byteLength s) t := by
  induction s generalizing offset with
  | nil => simp [afterNewlines, byteLength]
  | cons c s ih =>
    simp only [List.cons_append, afterNewlines, byteLength, ih, Nat.add_assoc]
    split <;> rfl

theorem mem_afterNewlines (member : start ∈ afterNewlines offset s) :
    offset < start ∧ start ≤ offset + byteLength s := by
  induction s generalizing offset with
  | nil => simp [afterNewlines] at member
  | cons c s ih =>
    have some := c.utf8Size_pos
    have later : start ∈ afterNewlines (offset + c.utf8Size) s → _ := ih
    simp only [afterNewlines] at member
    simp only [byteLength]
    split at member
    · cases List.mem_cons.mp member with
      | inl own => omega
      | inr other => have := later other; omega
    · have := later member
      omega

theorem length_afterNewlines (offset : Nat) (s : List Char) :
    (afterNewlines offset s).length = s.count '\n' := by
  induction s generalizing offset with
  | nil => rfl
  | cons c s ih =>
    simp only [afterNewlines]
    split <;> simp_all

theorem afterNewlines_eq_nil (none : '\n' ∉ s) : afterNewlines offset s = [] := by
  rw [List.eq_nil_iff_length_eq_zero, length_afterNewlines, List.count_eq_zero]
  exact none

/-- The search ends where the entries begin to exceed the offset. -/
theorem search_eq (lowest : low ≤ k) (highest : k ≤ high)
    (below : ∀ i < k, starts.getD i 0 ≤ offset)
    (above : ∀ i, k ≤ i → i < high → offset < starts.getD i 0) :
    search starts offset low high = k := by
  fun_induction search starts offset low high with
  | case1 low high more mid small ih =>
    have : mid < k := by
      by_contra late
      have := above mid (by omega) (by omega)
      omega
    exact ih (by omega) highest above
  | case2 low high more mid large ih =>
    have : k ≤ mid := by
      by_contra early
      exact large (below mid (by omega))
    exact ih lowest this fun i late _ => above i late (by omega)
  | case3 low high done => omega

theorem dropBytes_append (s t : List Char) : dropBytes (byteLength s) (s ++ t) = some t := by
  induction s with
  | nil => simp [byteLength, dropBytes]
  | cons c s ih =>
    obtain ⟨n, size⟩ := Nat.exists_eq_add_of_lt c.utf8Size_pos
    have total : byteLength (c :: s) = (n + byteLength s) + 1 := by simp only [byteLength]; omega
    rw [total, List.cons_append, dropBytes, if_pos (by omega)]
    rw [show n + byteLength s + 1 - c.utf8Size = byteLength s by omega, ih]

theorem takeBytes_append (s t : List Char) : takeBytes (byteLength s) (s ++ t) = some s := by
  induction s with
  | nil => simp [byteLength, takeBytes]
  | cons c s ih =>
    obtain ⟨n, size⟩ := Nat.exists_eq_add_of_lt c.utf8Size_pos
    have total : byteLength (c :: s) = (n + byteLength s) + 1 := by simp only [byteLength]; omega
    rw [total, List.cons_append, takeBytes, if_pos (by omega)]
    rw [show n + byteLength s + 1 - c.utf8Size = byteLength s by omega, ih, Option.map_some]

theorem exists_lines (front : List Char) : ∃ lines last, front = lines ++ last ∧ '\n' ∉ last ∧
    last.length = (front.reverse.takeWhile (· != '\n')).length ∧
    (0 :: afterNewlines 0 lines).getLast? = some (byteLength lines) := by
  rw [← front.reverse_reverse]
  generalize front.reverse = back
  induction back with
  | nil => exact ⟨[], [], by simp [afterNewlines, byteLength]⟩
  | cons c back ih =>
    by_cases newline : c = '\n'
    · subst newline
      refine ⟨back.reverse ++ ['\n'], [], by simp, by simp, by simp, ?_⟩
      rw [afterNewlines_append, byteLength_append, ← List.cons_append]
      simp only [afterNewlines, beq_self_eq_true, if_true, byteLength, Nat.zero_add, Nat.add_zero,
        List.getLast?_concat]
    · obtain ⟨lines, last, all, none, length, start⟩ := ih
      refine ⟨lines, last ++ [c], by simp [all], ?_, ?_, start⟩
      · simp [none, Ne.symm newline]
      · simpa [newline] using length

/-- The position of a place counts the newlines before it, and the characters since the last of
    them. -/
theorem spanOf_append (file : Nat) (front rest : List Char) :
    spanOf file (front ++ rest) rest = kept (after file front) := by
  obtain ⟨lines, last, all, none, length, start⟩ := exists_lines front
  have starts : lineStarts (front ++ rest) =
      ((0 :: afterNewlines 0 front) ++ afterNewlines (byteLength front) rest).toArray := by
    simp [lineStarts, afterNewlines_append]
  have count : (0 :: afterNewlines 0 front).length = front.count '\n' + 1 := by
    simp [length_afterNewlines]
  have own : afterNewlines 0 front = afterNewlines 0 lines := by
    rw [all, afterNewlines_append, afterNewlines_eq_nil none, List.append_nil]
  have line : partitionPoint (lineStarts (front ++ rest)) (byteLength front) =
      front.count '\n' + 1 := by
    rw [partitionPoint, starts]
    refine search_eq (Nat.zero_le _) (by simp [length_afterNewlines]) ?_ ?_
    · intro i small
      rw [Array.getD_eq_getD_getElem?, List.getElem?_toArray,
        List.getElem?_append_left (by omega), List.getElem?_eq_getElem (by omega), Option.getD_some]
      have inside : i < (0 :: afterNewlines 0 front).length := by omega
      cases List.mem_cons.mp (List.getElem_mem inside) with
      | inl zero => omega
      | inr member => have := mem_afterNewlines member; omega
    · intro i large size
      rw [List.size_toArray, List.length_append] at size
      rw [Array.getD_eq_getD_getElem?, List.getElem?_toArray,
        List.getElem?_append_right (by omega), List.getElem?_eq_getElem (by omega), Option.getD_some]
      exact (mem_afterNewlines (List.getElem_mem _)).1
  have offset : byteLength (front ++ rest) - byteLength rest = byteLength front := by
    rw [byteLength_append]
    omega
  have lineStart : (lineStarts (front ++ rest)).getD (front.count '\n') 0 = byteLength lines := by
    rw [starts, Array.getD_eq_getD_getElem?, List.getElem?_toArray,
      List.getElem?_append_left (by omega), show front.count '\n' =
        (0 :: afterNewlines 0 front).length - 1 by omega, ← List.getLast?_eq_getElem?, own, start]
    rfl
  have column : slice (front ++ rest) (byteLength lines) (byteLength front) = some last := by
    have length := byteLength_append lines last
    rw [← all] at length
    rw [slice, if_pos (by omega), all, List.append_assoc, dropBytes_append, Option.bind_some, ← all,
      show byteLength front - byteLength lines = byteLength last by omega, takeBytes_append]
  simp only [spanOf, kept, after, offset, line, Nat.add_sub_cancel, lineStart, column,
    Option.elim_some, length, word, UInt32.toNat_ofNat', Nat.mod_add_mod]

theorem after_congr (file : Nat) (same : front.map (· == '\n') = front'.map (· == '\n')) :
    after file front = after file front' := by
  have count (s : List Char) : s.count '\n' = (s.map (· == '\n')).count true := by
    rw [List.count, List.count, List.countP_map]
    congr 1
    funext c
    simp
  have column (s : List Char) : (s.reverse.takeWhile (· != '\n')).length =
      ((s.map (· == '\n')).reverse.takeWhile (!·)).length := by
    rw [← List.map_reverse, List.takeWhile_map, List.length_map]
    rfl
  rw [after, after, count, count, column, column, same]

end Position

open Position Sheet

/-- A place of the blanked text is a place of the source, at the same position. -/
theorem spanOf_blank (file : Nat) (h : rest <:+ Comment.blank source) :
    ∃ front back, source = front ++ back ∧
      List.Forall₂ (fun c d => d = c ∨ d = Comment.blanked c) back rest ∧
      Comment.blank source = (Comment.blank source).take front.length ++ rest ∧
      spanOf file (Comment.blank source) rest = kept (after file front) := by
  obtain ⟨before, all⟩ := h
  have length := congrArg List.length all
  rw [List.length_append, Comment.blank, Comment.length_blankFrom] at length
  have pointwise := List.forall₂_drop before.length (Comment.forall₂_blankFrom .plain source)
  rw [← Comment.blank, ← all, List.drop_left] at pointwise
  refine ⟨source.take before.length, source.drop before.length, by simp, pointwise, ?_, ?_⟩
  · rw [List.length_take, Nat.min_eq_left (by omega), ← all]
    simp
  · rw [← all, spanOf_append]
    apply congrArg kept
    apply after_congr
    rw [List.map_take, ← Comment.newlines_blank source, ← all]
    simp

/-- Positions in a sheet are positions in its source. Comments are blanked in place: literals and
    other characters stay, newlines stay, and all else in a comment becomes a space; nothing is left
    to blank. Every rule, at whatever depth, starts at a character of the source that is neither
    blank nor in a comment, and carries the position that counts the newlines before it and the
    characters since the last of them. A syntax error carries the position of the first character,
    after white space, of the rejected text. Of lines and columns 32 bits are kept, which are all
    there is to them in a text of fewer than `2 ^ 32 - 1` characters. -/
theorem positions_are_positions_in_the_source (source : String) (file : Nat) (path : Option Path) :
    let text := Comment.blank source.toList
    let pieces := Comment.pieces source.toList
    (source.toList = pieces.flatMap Comment.Piece.text ∧
      text = pieces.flatMap Comment.Piece.kept ∧
      text.length = source.length ∧
      text.map (· == '\n') = source.toList.map (· == '\n') ∧
      Comment.blank text = text) ∧
    (∀ sheet, Stylesheet.read source file path = .ok sheet → ∀ r ∈ Rule.partsOf sheet.rules,
      ∃ front c start tail, source.toList = front ++ c :: start ∧
        text = text.take front.length ++ c :: tail ∧
        StartsAt (spanOf file text) (c :: tail) r ∧ r.span = kept (after file front) ∧
        (source.length + 1 < UInt32.size → r.span = after file front)) ∧
    ∀ failure, Stylesheet.read source file path = .error failure →
      ∃ place, RejectedAt (spanOf file text) text place ∧
        failure.cause = .invalidSyntax (rejection place) ∧
        ∃ front rest, source.toList = front ++ rest ∧
          text = text.take front.length ++ Text.trimStart place ∧
          failure.span = some (kept (after file front)) ∧
          (source.length + 1 < UInt32.size → failure.span = some (after file front)) := by
  intro text pieces
  refine ⟨⟨(Comment.pieces_spec _).1, (Comment.pieces_spec _).2, ?_, Comment.newlines_blank _,
    Comment.blankFrom_settled .plain _⟩, ?_, ?_⟩
  · rw [← String.length_toList]
    exact Comment.length_blankFrom .plain _
  · intro sheet read r member
    unfold Stylesheet.read at read
    split at read <;> cases read
    rename_i read
    obtain ⟨start, here, startsAt⟩ := readText_ok read r member
    obtain ⟨front, back, all, pointwise, place, same⟩ := spanOf_blank file here
    obtain ⟨d, tail, rfl, visible⟩ := startsAt.first
    obtain ⟨n, rest, found⟩ := startsAt.read
    cases pointwise with
    | @cons c _ start _ copied _ =>
      cases Comment.eq_of_visible copied visible
      have span := (readRule_found found).span.trans same
      exact ⟨front, d, start, tail, all, place, startsAt, span,
        fun short => span.trans (kept_after all short)⟩
  · intro failure failed
    obtain ⟨place, rejected, rfl⟩ := Stylesheet.read_error failed
    obtain ⟨front, back, all, -, here, same⟩ :=
      spanOf_blank file ((Text.trimStart_suffix place).trans rejected.1)
    exact ⟨place, rejected, rfl, front, back, all, here, congrArg some same,
      fun short => congrArg some (same.trans (kept_after all short))⟩

end StyleResolution

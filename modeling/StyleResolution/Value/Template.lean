import StyleResolution.Value

/-!
# Strings with holes

A string may name variables in holes, an at-sign followed by a name in braces. `Template.pieces`
cuts a text into the stretches between the holes and the names in them. A hole that is never
closed is plain text, and so is everything after it.
-/

namespace StyleResolution.Template

/-- A stretch of a string. -/
inductive Piece where
  | text (chars : List Char)
  /-- A hole with the name written in it. -/
  | hole (name : List Char)
  deriving Repr, DecidableEq

/-- The text before the first hole, the name in the hole and the text after it. -/
def splitHole : List Char → Option (List Char × List Char × List Char)
  | [] => none
  | c :: rest =>
    match c, rest with
    | '@', '{' :: inner =>
      match inner.dropWhile (· != '}') with
      | [] => none
      | _ :: after => some ([], inner.takeWhile (· != '}'), after)
    | _, _ =>
      match splitHole rest with
      | none => none
      | some (before, name, after) => some (c :: before, name, after)

/-- The text after a hole is shorter than the text with the hole. -/
theorem length_of_splitHole {cs before name after : List Char}
    (h : splitHole cs = some (before, name, after)) : after.length < cs.length := by
  induction cs generalizing before with
  | nil => simp [splitHole] at h
  | cons c rest ih =>
    unfold splitHole at h
    split at h
    · rename_i inner
      split at h
      · simp at h
      · rename_i closing tail hdrop
        simp only [Option.some.injEq, Prod.mk.injEq] at h
        obtain ⟨-, -, rfl⟩ := h
        have hle := (List.dropWhile_suffix (l := inner) (· != '}')).length_le
        rw [hdrop] at hle
        simp only [List.length_cons] at hle ⊢
        omega
    · split at h
      · simp at h
      · rename_i hrest
        simp only [Option.some.injEq, Prod.mk.injEq] at h
        obtain ⟨-, rfl, rfl⟩ := h
        have := ih hrest
        simp only [List.length_cons]
        omega

/-- The stretches of a text in order. -/
def pieces (cs : List Char) : List Piece :=
  match _h : splitHole cs with
  | none => [.text cs]
  | some (before, name, after) => .text before :: .hole name :: pieces after
termination_by cs.length
decreasing_by exact length_of_splitHole _h

end StyleResolution.Template

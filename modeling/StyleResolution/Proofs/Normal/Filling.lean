import StyleResolution.Proofs.Normal.Form

/-! # Texts whose holes are filled

Filling the holes of a text changes what stands from an at-sign to a closing brace, and nothing
else. So the text keeps how it begins up to the first at-sign and how it ends behind the last
brace, and with them whether it is the path of a plain import.
-/

namespace StyleResolution

namespace Template

/-- The second text comes from the first one by replacing stretches that begin with an at-sign and
    end with a closing brace. -/
inductive Filled : List Char → List Char → Prop where
  | nil : Filled [] []
  | char {cs ds : List Char} (c : Char) : Filled cs ds → Filled (c :: cs) (c :: ds)
  | hole {cs ds : List Char} (name new : List Char) :
      Filled cs ds → Filled ('@' :: (name ++ '}' :: cs)) (new ++ ds)

namespace Filled

variable {as bs cs ds : List Char}

theorem refl (cs : List Char) : Filled cs cs := by
  induction cs with
  | nil => exact .nil
  | cons c cs ih => exact .char c ih

theorem append (first : Filled as bs) (second : Filled cs ds) : Filled (as ++ cs) (bs ++ ds) := by
  induction first with
  | nil => exact second
  | char c _ ih => exact .char c ih
  | hole name new _ ih => simpa using Filled.hole name new ih

theorem eq_of_not_mem (filled : Filled cs ds) (unclosed : '}' ∉ cs) : ds = cs := by
  induction filled with
  | nil => rfl
  | char c _ ih => rw [ih fun inside => unclosed (List.mem_cons_of_mem c inside)]
  | hole => simp at unclosed

theorem suffix_of_not_mem (filled : Filled cs ds) (unclosed : '}' ∉ as) (ends : as <:+ cs) :
    as <:+ ds := by
  induction filled with
  | nil => exact ends
  | char c filled ih =>
    cases List.suffix_cons_iff.mp ends with
    | inl whole =>
      subst whole
      have same := filled.eq_of_not_mem fun inside => unclosed (List.mem_cons_of_mem c inside)
      exact same ▸ List.suffix_rfl
    | inr inner => exact (ih inner).trans (List.suffix_cons c _)
  | @hole cs ds name new _ ih =>
    -- A suffix that is longer than what follows the hole would hold its brace.
    have later : '}' :: cs <:+ '@' :: (name ++ '}' :: cs) := ⟨'@' :: name, by simp⟩
    have inner : as <:+ cs := by
      cases List.suffix_cons_iff.mp ((List.suffix_or_suffix_of_suffix ends later).resolve_right
        fun longer => unclosed (longer.subset List.mem_cons_self)) with
      | inl whole => exact absurd (whole ▸ List.mem_cons_self) unclosed
      | inr inner => exact inner
    exact (ih inner).trans (List.suffix_append new ds)

theorem prefix_of_not_mem (filled : Filled cs ds) (unopened : '@' ∉ as) (begins : as <+: cs) :
    as <+: ds := by
  induction filled generalizing as with
  | nil => exact begins
  | char c _ ih =>
    cases as with
    | nil => exact List.nil_prefix
    | cons a as =>
      obtain ⟨rfl, rest⟩ := List.cons_prefix_cons.mp begins
      have unopened : '@' ∉ as := fun inside => unopened (List.mem_cons_of_mem a inside)
      exact List.cons_prefix_cons.mpr ⟨rfl, ih unopened rest⟩
  | hole =>
    cases as with
    | nil => exact List.nil_prefix
    | cons a as =>
      obtain ⟨rfl, -⟩ := List.cons_prefix_cons.mp begins
      simp at unopened

end Filled

theorem eq_of_splitHole (found : splitHole cs = some (before, name, after)) :
    cs = before ++ '@' :: ('{' :: name ++ '}' :: after) := by
  induction cs generalizing before with
  | nil => cases found
  | cons c rest ih =>
    unfold splitHole at found
    split at found
    · rename_i inner
      split at found
      · cases found
      · rename_i closing tail dropped
        cases found
        have closes : closing = '}' := by
          have := List.head_dropWhile_not (· != '}') (l := inner) (by simp [dropped])
          simpa [dropped] using this
        have parts := List.takeWhile_append_dropWhile (p := (· != '}')) (l := inner)
        rw [dropped, closes] at parts
        simp only [List.nil_append, List.cons_append, parts]
    · split at found
      · cases found
      · rename_i split
        cases found
        rw [ih split]
        rfl

end Template

open Template (Filled)

theorem isPassThrough_of_filled (fills : Filled path.toList filled.toList)
    (plain : isPassThrough options path = true) : isPassThrough options filled = true := by
  have ends : endsWith path ".css" = true → endsWith filled ".css" = true := by
    intro h
    simp only [endsWith, List.isPrefixOf_iff_prefix, List.reverse_prefix] at h ⊢
    exact fills.suffix_of_not_mem (by decide) h
  have starts : ∀ beginning : String, '@' ∉ beginning.toList →
      startsWith path beginning = true → startsWith filled beginning = true := by
    intro beginning unopened h
    simp only [startsWith, List.isPrefixOf_iff_prefix] at h ⊢
    exact fills.prefix_of_not_mem unopened h
  simp only [isPassThrough, Bool.and_eq_true, Bool.or_eq_true] at plain ⊢
  refine ⟨plain.1, plain.2.imp (Or.imp (Or.imp (Or.imp id ends) ?_) ?_) ?_⟩
  · exact starts "http://" (by decide)
  · exact starts "https://" (by decide)
  · exact starts "//" (by decide)

namespace Eval

variable {setting : Setting}

theorem fillHoles_filled (fetched : ∀ name, Unguarded setting (fun _ => True) (fetch name))
    (cs : List Char) :
    Unguarded setting (fun text => Filled cs text.toList) (fillHoles fetch (Template.pieces cs)) := by
  induction cs using Template.pieces.induct with
  | case1 cs unsplit =>
    unfold Template.pieces
    rw [unsplit]
    exact .bind (.pure rfl) fun tail empty => .pure (by simp [← empty, Filled.refl])
  | case2 cs before name after found ih =>
    unfold Template.pieces
    rw [found, Template.eq_of_splitHole found]
    have later : Unguarded setting
        (fun text => Filled ('@' :: ('{' :: name ++ '}' :: after)) text.toList)
        (fillHoles fetch (.hole name :: Template.pieces after)) := by
      apply Unguarded.bind (fetched _)
      intro v _
      apply Unguarded.bind ih
      intro tail fills
      exact .pure (by simpa using Filled.hole ('{' :: name) v.unquoted.toList fills)
    apply Unguarded.bind later
    intro tail fills
    exact .pure (by simpa using (Filled.refl before).append fills)

end Eval

end StyleResolution

/-!
# Joining texts

Lists are written with a separator between neighbours and nothing at the ends.
-/

namespace StyleResolution.Text

/-- The texts one after the other, with `separator` between neighbours. -/
def join (separator : String) : List String → String
  | [] => ""
  | [text] => text
  | text :: next :: rest => text ++ separator ++ join separator (next :: rest)

@[simp] theorem join_nil (separator : String) : join separator [] = "" := rfl

@[simp] theorem join_singleton (separator text : String) : join separator [text] = text := rfl

theorem join_cons_cons (separator text next : String) (rest : List String) :
    join separator (text :: next :: rest) = text ++ separator ++ join separator (next :: rest) :=
  rfl

end StyleResolution.Text

import StyleResolution.Rule

/-!
# Rules as text

A sheet is written with one line per rule; blocks are written inline. Mixin definitions are
abbreviated to their name.
-/

namespace StyleResolution

def Argument.text (a : Argument) : String :=
  match a.name with
  | some name => "@" ++ name ++ ": " ++ a.value.text
  | none => a.value.text

def MixinCall.text (c : MixinCall) : String :=
  Text.join " > " c.path ++ "(" ++ Text.join ", " (c.args.map Argument.text) ++ ")"

def inBraces (body : String) : String :=
  " \x7b " ++ body ++ " \x7d"

/-- The prelude of an at-rule with a blank in front, if there is one. -/
def preludeText : Option Value → String
  | some v => " " ++ v.text
  | none => ""

namespace Rule

mutual

def text : Rule → String
  | .declaration d =>
    d.property ++ ": " ++ d.value.text ++ (if d.important then " !important" else "") ++ ";"
  | .ruleset selectors rules _ =>
    Selector.listText selectors ++ inBraces (Text.join " " (texts rules))
  | .media features rules _ =>
    "@media " ++ features.text ++ inBraces (Text.join " " (texts rules))
  | .atStatement name prelude _ => "@" ++ name ++ preludeText prelude ++ ";"
  | .atBlock name prelude rules _ =>
    "@" ++ name ++ preludeText prelude ++ inBraces (Text.join " " (texts rules))
  | .fileImport i => "@import " ++ i.path.text ++ preludeText i.media ++ ";"
  | .variable d => "@" ++ d.name ++ ": " ++ d.value.text ++ ";"
  | .mixin head _ => head.name ++ inBraces ".."
  | .call c => c.text ++ ";"

/-- The rules of a block as they are written. -/
def texts : List Rule → List String
  | [] => []
  | r :: rs => r.text :: texts rs

end

end Rule

/-- The sheet as it is written. -/
def Stylesheet.text (s : Stylesheet) : String :=
  Text.join "\n" (Rule.texts s.rules)

end StyleResolution

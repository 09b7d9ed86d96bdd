import StyleResolution.Failure
import StyleResolution.Mixin.Reading
import StyleResolution.Selector.Reading
import StyleResolution.Sheet.Comment
import StyleResolution.Sheet.MediaQuery
import StyleResolution.Sheet.Position
import StyleResolution.Sheet.RuleReader

/-!
# The grammar of sheets

A sheet is a sequence of rules; blocks in braces hold sequences of rules again. Every rule carries
the position at which it starts. `readRules` reads a sequence given the reader of one rule,
`readRule` one rule given the reader of a block, and `rulesAt n` closes the circle for blocks
nested less than `n` deep, where the length of the text bounds the nesting.
-/

namespace StyleResolution.Sheet

/-- The end of a statement: a semicolon, or the place where its block or the text ends. -/
def readStatementEnd : Reader Unit := fun s =>
  match s.dropWhile Text.isBlank with
  | [] => some ((), [])
  | ';' :: rest => some ((), rest)
  | '}' :: rest => some ((), '}' :: rest)
  | _ => none

/-- The names of import options in parentheses. -/
def readOptionNames : Reader (List (List Char)) := do
  let _ ← Reader.char '('
  let _ ← Reader.blanks
  let names ← Reader.sepBy1 (Reader.spaced ',') Text.readIdent
  let _ ← Reader.blanks
  let _ ← Reader.char ')'
  pure names

def withOption (options : ImportOptions) (name : String) : Option ImportOptions :=
  match name with
  | "once" => some { options with once := true }
  | "multiple" => some { options with multiple := true }
  | "optional" => some { options with optional := true }
  | "css" => some { options with css := true }
  | "less" => some { options with less := true }
  | _ => none

def optionsOf (names : List String) : Option ImportOptions :=
  names.foldlM withOption {}

/-- `(once, optional)`; an unknown option makes the text broken at the parenthesis. -/
def readImportOptions : RuleReader ImportOptions := fun s =>
  match readOptionNames s with
  | none => .mismatch
  | some (names, rest) =>
    match optionsOf (names.map String.ofList) with
    | some options => .found options rest
    | none => .broken s

/-- `@name: value;` -/
def readVariable (span : Span) : Reader Rule := do
  let _ ← Reader.char '@'
  let name ← Text.readName
  let _ ← Reader.spaced ':'
  let v ← Value.readDeclarationValue
  let _ ← Value.readImportant
  let _ ← readStatementEnd
  pure (.variable ⟨String.ofList name, v, span⟩)

def readImportMedia : Reader Value := do
  let _ ← Reader.blanks1
  MediaQuery.readList

/-- `@import (options) path media;` -/
def readImport (span : Span) : RuleReader Rule := do
  let _ ← Reader.tag "@import"
  let _ ← Reader.blanks
  let options ← RuleReader.opt readImportOptions
  let _ ← Reader.blanks
  let path ← (Value.readQuoted <|> Value.readUrl <|> Value.readVariable : Reader Value)
  let media ← Reader.opt readImportMedia
  let _ ← readStatementEnd
  pure (.fileImport ⟨path, options.getD {}, media, span⟩)

/-- `@media features { ... }` -/
def readMedia (block : RuleReader (List Rule)) (span : Span) : RuleReader Rule := do
  let _ ← Reader.tag "@media"
  let _ ← Reader.blanks1
  let features ← MediaQuery.readList
  let _ ← Reader.blanks
  let rules ← block
  pure (.media features rules span)

/-- The prelude of an at-rule, unless it is empty. -/
def preludeOf (cs : List Char) : Option Value :=
  let trimmed := Text.trim cs
  if trimmed.isEmpty then none else some (.keyword (String.ofList trimmed))

def readAtRule (block : RuleReader (List Rule)) (span : Span) : RuleReader Rule := do
  let _ ← Reader.char '@'
  let name ← Text.readIdent
  let prelude ← Reader.takeWhile (fun c => c != '{' && c != ';' && c != '}')
  (do
    let rules ← block
    pure (.atBlock (String.ofList name) (preludeOf prelude) rules span)) <|>
  (do
    let _ ← readStatementEnd
    pure (.atStatement (String.ofList name) (preludeOf prelude) span))

def readMixinGuard : Reader Guard := do
  let _ ← Reader.blanks
  Mixin.readGuard

/-- `.name(params) [when guard] { ... }` -/
def readMixin (block : RuleReader (List Rule)) (span : Span) : RuleReader Rule := do
  let name ← Text.readMarked
  let _ ← Reader.blanks
  let params ← Mixin.readParams
  let guard ← Reader.opt readMixinGuard
  let _ ← Reader.blanks
  let rules ← block
  pure (.mixin ⟨String.ofList name, params, guard, span⟩ rules)

/-- `selector, selector { ... }` -/
def readRuleset (block : RuleReader (List Rule)) (span : Span) : RuleReader Rule := do
  let selectors ← Selector.readList
  let _ ← Reader.blanks
  let rules ← block
  pure (.ruleset selectors rules span)

def readCallArguments : Reader (List Argument) := do
  let _ ← Reader.blanks
  Mixin.readArguments

/-- `.m;`, `.m(1, 2) !important;`, `#ns > .m();` -/
def readCall (span : Span) : Reader Rule := do
  let path ← Mixin.readPath
  let args ← Reader.opt readCallArguments
  let important ← Value.readImportant
  let _ ← readStatementEnd
  pure (.call ⟨path, args.getD [], important, span⟩)

/-- `property: value [!important];` -/
def readDeclaration (span : Span) : Reader Rule := do
  let property ← Text.readIdent
  let _ ← Reader.spaced ':'
  let v ← Value.readDeclarationValue
  let important ← Value.readImportant
  let _ ← readStatementEnd
  pure (.declaration ⟨String.ofList property, v, important, span⟩)

/-- One rule. What starts with an at-sign is a variable, an import, a media block or another
    at-rule; anything else is a mixin, a ruleset, a call or a declaration. -/
def readRule (spanOf : List Char → Span) (block : RuleReader (List Rule)) : RuleReader Rule :=
  fun s =>
    let span := spanOf s
    match s with
    | '@' :: _ =>
      (RuleReader.lift (readVariable span) <|> readImport span <|> readMedia block span <|>
        readAtRule block span : RuleReader Rule) s
    | _ =>
      (readMixin block span <|> readRuleset block span <|> RuleReader.lift (readCall span) <|>
        RuleReader.lift (readDeclaration span) : RuleReader Rule) s

/-- Rules up to a closing brace or the end of the text. Where no rule starts, the text is
    broken. -/
def readRules (rule : RuleReader Rule) (s : List Char) : Outcome (List Rule) :=
  match _h : s.dropWhile Text.isBlank with
  | [] => .found [] []
  | '}' :: rest => .found [] ('}' :: rest)
  | ';' :: rest =>
    have : rest.length < s.length := by
      have hle := (List.dropWhile_suffix (l := s) Text.isBlank).length_le
      rw [_h] at hle
      simp only [List.length_cons] at hle
      omega
    readRules rule rest
  | start =>
    match rule start with
    | .mismatch => .broken start
    | .broken place => .broken place
    | .found r rest =>
      if rest.length < s.length then
        match readRules rule rest with
        | .found rs rest' => .found (r :: rs) rest'
        | .mismatch => .mismatch
        | .broken place => .broken place
      else .broken start
termination_by s.length

/-- A block in braces. Once the brace is open, the block has to be complete. -/
def readBlock (rules : RuleReader (List Rule)) : RuleReader (List Rule) := fun s =>
  match s with
  | '{' :: inner =>
    match rules inner with
    | .found rs ('}' :: rest) => .found rs rest
    | .found _ rest => .broken rest
    | .mismatch => .mismatch
    | .broken place => .broken place
  | _ => .mismatch

/-- A sequence of rules with blocks nested less than `n` deep. -/
def rulesAt (spanOf : List Char → Span) : Nat → RuleReader (List Rule)
  | 0 => failure
  | n + 1 => fun s => readRules (readRule spanOf (readBlock (rulesAt spanOf n))) s

/-- The beginning of the rejected text, at most forty characters of its line. -/
def snippet (place : List Char) : List Char :=
  ((Text.trimStart place).takeWhile (· != '\n')).take 40

/-- The reason given for a rejected text. -/
def rejection (place : List Char) : String :=
  let shown := snippet place
  if shown.isEmpty then "unexpected end of input"
  else "unrecognised input near `" ++ String.ofList shown ++ "`"

def syntaxFailure (spanOf : List Char → Span) (place : List Char) : Failure :=
  { cause := .invalidSyntax (rejection place), span := some (spanOf (Text.trimStart place)) }

/-- The rules of a sheet, with spans in the given file. -/
def readText (file : Nat) (source : List Char) : Except Failure (List Rule) :=
  let text := Comment.blank source
  let spanOf := Position.spanOf file text
  match rulesAt spanOf (text.length + 1) text with
  | .found rules rest =>
    if (Text.trim rest).isEmpty then .ok rules else .error (syntaxFailure spanOf rest)
  | .mismatch => .error (syntaxFailure spanOf text)
  | .broken place => .error (syntaxFailure spanOf place)

end StyleResolution.Sheet

namespace StyleResolution

def Stylesheet.read (source : String) (file : Nat) (path : Option Path) :
    Except Failure Stylesheet :=
  match Sheet.readText file source.toList with
  | .ok rules => .ok ⟨path, rules⟩
  | .error failure => .error failure

end StyleResolution

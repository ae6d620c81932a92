import LeanCtx.LineEnds
import LeanCtx.TextSearch
import Mathlib.Data.List.DropRight

/-!
# String edits with tolerant matching

The old text of an edit is searched by four rules, each tried where those before
it found nothing: as it stands, with the line ends of the file, up to white space
at the ends of lines, and at another indentation. What a rule found is then
replaced where it first occurs, unless it occurs more than once.
-/

namespace LeanCtx.CtxEdit

open LineEnds (Text SourceLine sourceLines hasCrlf)
open TextSearch (firstSplit contains replaceFirst replaceAll countMatches Isolated)

inductive Rule where
  | exact
  | lineEnding
  | tolerant
  | reindented
  deriving DecidableEq

structure EditParams where
  oldString : Text
  newString : Text
  replaceAll : Bool
  create : Bool

/-- The file as it was read, and what the run finds around it. `commit` tells whether the health
gate, the second look at the file, the backup and the write succeed for a new content. -/
structure Env where
  content : Text
  lossyRead : Bool
  alreadyApplied : Bool
  commit : Text → Bool

inductive Outcome where
  | create
  | written (rule : Rule) (content : Text)
  | noChange
  | ambiguous (occurrences : ℕ)
  | notWritten
  | error (message : String)
  | notFound
  deriving DecidableEq

/-! ## Lines and line ends -/

def trimEnd (line : Text) : Text := line.rdropWhile ByteText.isWhitespace

def trim (line : Text) : Text := (line.dropWhile ByteText.isWhitespace).rdropWhile ByteText.isWhitespace

def isBlank (line : Text) : Bool := line.all ByteText.isWhitespace

def lineSep (content : Text) : Text := if hasCrlf content then ['\r', '\n'] else ['\n']

def toLf (s : Text) : Text := replaceAll ['\r', '\n'] ['\n'] s

def toCrlf (s : Text) : Text := replaceAll ['\n'] ['\r', '\n'] s

def adaptNewStringToLineSep (s : Text) (usesCrlf : Bool) : Text :=
  if usesCrlf then toCrlf (toLf s) else toLf s

/-- `split_inclusive('\n')`. -/
def splitInclusive (s : Text) : List Text := (sourceLines s).map SourceLine.bytes

/-- The conversion of the old and the new text to the line ends of the file. -/
def lineEndingForm (usesCrlf : Bool) (old : Text) : Option (Text → Text) :=
  if usesCrlf && !old.contains '\r' then some toCrlf
  else if !usesCrlf && contains ['\r', '\n'] old then some toLf
  else none

/-! ## White space at the ends of lines -/

def trimTrailingPerLine (s : Text) : Text :=
  List.intercalate ['\n'] ((TextFile.lineChars s).map trimEnd)

def linesMatchAt (contentLines needleLines : List Text) (start : ℕ) : Bool :=
  ((contentLines.drop start).take needleLines.length).map trimEnd == needleLines

/-- The first run of lines that are the lines of the needle. -/
def findLines (content normalizedNeedle : Text) : Option ℕ :=
  let needleLines := TextFile.lineChars normalizedNeedle
  if needleLines.isEmpty then none
  else
    let contentLines := TextFile.lineChars content
    (List.range contentLines.length).find? (linesMatchAt contentLines needleLines)

/-- The lines of the run, joined by the one separator of the file. -/
def joinedLines (content normalizedNeedle : Text) (start : ℕ) : Text :=
  List.intercalate (lineSep content) (((TextFile.lineChars content).drop start).take
    (TextFile.lineChars normalizedNeedle).length)

def findOriginalSpan (content normalizedNeedle : Text) : Option Text :=
  (findLines content normalizedNeedle).map (joinedLines content normalizedNeedle)

/-- What the tolerant rule puts to the search: the joined lines of the first run. -/
def tolerantSpan (content : Text) (lossyRead : Bool) (old : Text) : Option Text :=
  let normalizedOld := trimTrailingPerLine old
  if !lossyRead && !normalizedOld.isEmpty && contains normalizedOld (trimTrailingPerLine content) then
    findOriginalSpan content normalizedOld
  else none

/-! ## Indentation -/

inductive Shift where
  | add (indentation : Text)
  | remove (indentation : Text)
  deriving DecidableEq

def indent (line : Text) : Text := line.takeWhile ByteText.isWhitespace

def isLineBreak (c : Char) : Bool := c == '\n' || c == '\r'

def stripSuffix (s suffix : Text) : Option Text :=
  if suffix.isSuffixOf s then some (s.take (s.length - suffix.length)) else none

def shiftBetween (f o : Text) : Option Shift :=
  match stripSuffix (indent f) (indent o) with
  | some extra => some (.add extra)
  | none => (stripSuffix (indent o) (indent f)).map .remove

/-- The one shift of all pairs of lines that are not blank. -/
def shiftOfLines : Option Shift → List (Text × Text) → Option (Option Shift)
  | shift, [] => some shift
  | shift, (f, o) :: rest =>
    let f := f.rdropWhile isLineBreak
    if isBlank f && isBlank o then shiftOfLines shift rest
    else if trim f ≠ trim o then none
    else
      match shiftBetween f o with
      | none => none
      | some this =>
        match shift with
        | none => shiftOfLines (some this) rest
        | some seen => if seen = this then shiftOfLines (some seen) rest else none

def uniformShift (file old : List Text) : Option Shift :=
  match shiftOfLines none (file.zip old) with
  | some (some (.add [])) => none
  | some (some (.remove [])) => none
  | some (some shift) => some shift
  | _ => none

def shiftLine (shift : Shift) (line : Text) : Option Text :=
  if isBlank line then some line
  else
    match shift with
    | .add indentation => some (indentation ++ line)
    | .remove indentation =>
      if indentation.isPrefixOf line then some (line.drop indentation.length) else none

def shiftLines (new : Text) (shift : Shift) : Option Text :=
  ((splitInclusive new).mapM (shiftLine shift)).map List.flatten

def shiftAt (content old : Text) (start : ℕ) : Option Shift :=
  let oldLines := TextFile.lineChars old
  uniformShift (((splitInclusive content).drop start).take oldLines.length) oldLines

/-- The places where the lines of the old text stand at another indentation. -/
def shiftedPlaces (content old : Text) : List (ℕ × Shift) :=
  let oldLines := TextFile.lineChars old
  let fileLines := splitInclusive content
  if oldLines.all isBlank || fileLines.length < oldLines.length then []
  else (List.range (fileLines.length - oldLines.length + 1)).filterMap fun start =>
    (shiftAt content old start).map fun shift => (start, shift)

/-- More than one place is ambiguous. -/
def shiftedPlace (content old : Text) : Option (ℕ × Shift) :=
  match shiftedPlaces content old with
  | [found] => some found
  | _ => none

/-- The lines found, without the line break at their end unless the old text has one. -/
def shiftedSpan (content old : Text) (start : ℕ) : Text :=
  let span := (((splitInclusive content).drop start).take (TextFile.lineChars old).length).flatten
  if old.getLast? = some '\n' then span else span.rdropWhile isLineBreak

structure Reindented where
  span : Text
  replacement : Text

/-- `reindent::find`. -/
def findReindented (content old new : Text) : Option Reindented :=
  (shiftedPlace content old).bind fun found =>
    (shiftLines new found.2).map fun replacement =>
      { span := shiftedSpan content old found.1, replacement }

/-! ## The edit -/

/-- What is searched and what is written for it. -/
structure ReplaceArgs where
  rule : Rule
  oldStr : Text
  newStr : Text

def exactArgs (content old new : Text) : Option ReplaceArgs :=
  if 0 < countMatches old content then some ⟨.exact, old, new⟩ else none

def lineEndingArgs (content old new : Text) : Option ReplaceArgs :=
  (lineEndingForm (hasCrlf content) old).bind fun form =>
    if 0 < countMatches (form old) content then some ⟨.lineEnding, form old, form new⟩ else none

def tolerantArgs (content : Text) (lossyRead : Bool) (old new : Text) : Option ReplaceArgs :=
  (tolerantSpan content lossyRead old).map fun span =>
    ⟨.tolerant, span, adaptNewStringToLineSep new (hasCrlf content)⟩

def reindentedArgs (content : Text) (lossyRead : Bool) (old new : Text) : Option ReplaceArgs :=
  if lossyRead then none
  else (findReindented content old new).map fun found =>
    ⟨.reindented, found.span, adaptNewStringToLineSep found.replacement (hasCrlf content)⟩

/-- The rules in turn. -/
def replaceArgs (content : Text) (lossyRead : Bool) (old new : Text) : Option ReplaceArgs :=
  exactArgs content old new <|> lineEndingArgs content old new <|>
    tolerantArgs content lossyRead old new <|> reindentedArgs content lossyRead old new

def doReplace (env : Env) (params : EditParams) (args : ReplaceArgs) : Outcome :=
  let occurrences := countMatches args.oldStr env.content
  if 1 < occurrences && !params.replaceAll then .ambiguous occurrences
  else
    let newContent :=
      if params.replaceAll then replaceAll args.oldStr args.newStr env.content
      else replaceFirst args.oldStr args.newStr env.content
    if env.commit newContent then .written args.rule newContent else .notWritten

def runIo (env : Env) (params : EditParams) : Outcome :=
  if params.create then .create
  else if params.oldString.isEmpty then
    if env.content.isEmpty then .create
    else .error ("ERROR: old_string must not be empty for a non-empty file (an empty old_string " ++
      "only creates a missing or empty file; use create=true to replace the whole file)")
  else if params.oldString = params.newString then
    if contains params.oldString env.content then .noChange
    else .error "ERROR: old_string and new_string are identical — nothing to change."
  else
    match replaceArgs env.content env.lossyRead params.oldString params.newString with
    | some args => doReplace env params args
    | none =>
      let newPresent := contains params.newString env.content ||
        (hasCrlf env.content && contains (toCrlf params.newString) env.content)
      if newPresent && env.alreadyApplied then .noChange else .notFound

end LeanCtx.CtxEdit

/-
The tokens of the text that settings are written in. Words and punctuation may be set apart by
blanks and by comments: a comment runs from two slashes to the end of the line, or between
slash-star and star-slash, where comments nest. A word that is written raw, with `r#` before it, may
have points, pluses and hyphens in it; otherwise it is the same word.
-/

namespace FuzzyHierarchy

namespace Settings

/-- A token. -/
inductive Token where
  | word (text : String)
  | rawWord (text : String)
  | mark (char : Char)
  deriving DecidableEq, Repr

namespace Token

/-! ## Characters -/

/-- The characters that set tokens apart. -/
def isBlank (c : Char) : Bool := c == ' ' || c == '\t' || c == '\n' || c == '\r'

/-- The punctuation. -/
def isMark (c : Char) : Bool := ['(', ')', '[', ']', ':', ',', '#', '!'].contains c

/-- What a word starts with: a letter of the basic alphabet or an underscore. -/
def isWordStart (c : Char) : Bool := c.isAlpha || c == '_'

/-- What a word goes on with. -/
def isWordChar (c : Char) : Bool := c.isAlphanum || c == '_'

/-- What a raw word consists of. -/
def isRawChar (c : Char) : Bool := isWordChar c || c == '.' || c == '+' || c == '-'

/-! ## Scanning -/

/-- What follows a nested comment of which `depth + 1` levels are open. -/
def afterComment : (depth : Nat) → List Char → Option (List Char)
  | _, [] => none
  | depth, '/' :: '*' :: rest => afterComment (depth + 1) rest
  | 0, '*' :: '/' :: rest => some rest
  | depth + 1, '*' :: '/' :: rest => afterComment depth rest
  | depth, _ :: rest => afterComment depth rest

theorem length_afterComment_lt {depth : Nat} {chars rest : List Char}
    (h : afterComment depth chars = some rest) : rest.length < chars.length := by
  fun_induction afterComment depth chars <;> grind

theorem length_dropWhile_le (p : Char → Bool) (chars : List Char) :
    (chars.dropWhile p).length ≤ chars.length :=
  (List.dropWhile_sublist p).length_le

/-- The tokens of a text, unless it has something that is no token or a comment with no end. -/
def scan : List Char → Option (List Token)
  | [] => some []
  | '/' :: '/' :: rest => scan (rest.dropWhile (· != '\n'))
  | '/' :: '*' :: rest =>
    match _ : afterComment 0 rest with
    | none => none
    | some rest => scan rest
  | 'r' :: '#' :: c :: rest =>
    if isRawChar c then
      (rawWord (String.ofList (c :: rest.takeWhile isRawChar)) :: ·) <$>
        scan (rest.dropWhile isRawChar)
    else
      none
  | c :: rest =>
    if isBlank c then
      scan rest
    else if isMark c then
      (mark c :: ·) <$> scan rest
    else if isWordStart c then
      (word (String.ofList (c :: rest.takeWhile isWordChar)) :: ·) <$>
        scan (rest.dropWhile isWordChar)
    else
      none
termination_by chars => chars.length
decreasing_by
  · grind [length_dropWhile_le]
  · grind [→ length_afterComment_lt]
  · grind [length_dropWhile_le]
  · simp
  · simp
  · grind [length_dropWhile_le]

/-- The word that a token is, however it is written. -/
def text? : Token → Option String
  | word text => some text
  | rawWord text => some text
  | mark _ => none

end Token

end Settings

end FuzzyHierarchy

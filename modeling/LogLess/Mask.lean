import LogLess.Lib.Decimal
import LogLess.Lib.Utf8
import LogLess.Model

/-!
# Masking

The step before template mining: a line is split into words, and words that look like
values become placeholders. A mined line is its masked tokens, with the text a parameter
would have at each of them beside it.
-/

namespace LogLess

/-! ## Words -/

/-- The kind of a word: text of the template, or a value. -/
inductive Mask where
  | static
  | num
  | uuid
  | hex
  | ip
  | time
  | path
  | quoted
  /-- Contains digits but fits no specific shape. -/
  | var
  /-- A leading `[component]`. -/
  | component
  | paren
deriving DecidableEq

namespace Mask

open Decimal

def placeholder : Mask → Text
  | .static => []
  | .num => "<NUM>".toList
  | .uuid => "<UUID>".toList
  | .hex => "<HEX>".toList
  | .ip => "<IP>".toList
  | .time => "<TIME>".toList
  | .path => "<PATH>".toList
  | .quoted => "<STR>".toList
  | .var => "<VAR>".toList
  | .component => "<COMP>".toList
  | .paren => "<PAREN>".toList

def isVariable (m : Mask) : Bool := m != .static

def doubleQuote : Char := Char.ofNat 0x22
def singleQuote : Char := Char.ofNat 0x27
def openBrace : Char := Char.ofNat 0x7B
def closeBrace : Char := Char.ofNat 0x7D

def isHexDigit (c : Char) : Bool :=
  c.isDigit || ('a' ≤ c && c ≤ 'f') || ('A' ≤ c && c ≤ 'F')

def isQuoted (t : Text) : Bool :=
  2 ≤ t.len && ((t.head? == some doubleQuote && t.getLast? == some doubleQuote)
    || (t.head? == some singleQuote && t.getLast? == some singleQuote))

/-- The loop of `is_number`. -/
def numberLoop (seenDigit seenDot : Bool) : Text → Bool
  | [] => seenDigit
  | c :: cs =>
    if c.isDigit then numberLoop true seenDot cs
    else if c == '.' && !seenDot then numberLoop seenDigit true cs
    else if ['m', 's', 'h', 'd', 'B', 'K', 'M', 'G'].contains c && seenDigit then
      numberLoop seenDigit seenDot cs
    else false

def isNumber (t : Text) : Bool :=
  match t with
  | [] => false
  | c :: cs => numberLoop false false (if c == '-' || c == '+' then cs else c :: cs)

def isHex (t : Text) : Bool :=
  let t :=
    match t with
    | '0' :: 'x' :: rest => rest
    | '0' :: 'X' :: rest => rest
    | _ => t
  8 ≤ Text.len t && t.all isHexDigit

def isUuid (t : Text) : Bool :=
  let t := Text.trimMatches (fun c => c == openBrace || c == closeBrace) t
  let parts := Text.splitAt '-' t
  Text.len t == 36 && parts.map Text.len == [8, 4, 4, 4, 12] && parts.all fun p => p.all isHexDigit

def isIp (t : Text) : Bool :=
  let host :=
    match Text.splitOnce ':' t with
    | some (h, p) => if p.all Char.isDigit && !p.isEmpty then h else t
    | none => t
  let parts := Text.splitAt '.' host
  parts.length == 4 && parts.all fun part =>
    !part.isEmpty && Text.len part ≤ 3 && part.all Char.isDigit && (parse part).getD 999 ≤ 255

/-- The first part of a clock's field, without its fraction. -/
def isClockField (p : Text) : Bool :=
  let q := (Text.splitAt '.' p).headD []
  !p.isEmpty && Text.len q ≤ 2 && !q.isEmpty && q.all Char.isDigit

def isTimestamp (t : Text) : Bool :=
  let bytes := Utf8.encode t
  let digit := fun (b : UInt8) => 48 ≤ b && b ≤ 57
  let isoDate := 10 ≤ bytes.length && (bytes.take 4).all digit && bytes[4]? == some 45
    && ((bytes.drop 5).take 2).all digit && bytes[7]? == some 45
    && ((bytes.drop 8).take 2).all digit
  let parts := Text.splitAt ':' t
  isoDate || (parts.length == 3 && parts.all isClockField)

def isPath (t : Text) : Bool :=
  (['/'].isPrefixOf t || ['.', '/'].isPrefixOf t || ['.', '.', '/'].isPrefixOf t) && 1 < t.len

/-- The kind of one word: the most specific shapes are tested first. -/
def classify (token : Text) : Mask :=
  if token.isEmpty then .static
  else if isQuoted token then .quoted
  else if isUuid token then .uuid
  else if isTimestamp token then .time
  else if isIp token then .ip
  else if 16 ≤ token.len && isHex token then .hex
  else if isNumber token then .num
  else if isHex token then .hex
  else if isPath token then .path
  else if token.any Char.isDigit then .var
  else .static

/-- `key=value`, if the key does not look like a value itself. -/
def splitKv (token : Text) : Option (Text × Text) :=
  match Text.splitOnce '=' token with
  | none => none
  | some (key, value) =>
    if key.isEmpty || value.isEmpty then none
    else if key.any fun c => c.isDigit || c == doubleQuote then none
    else some (key, value)

def isComponentPrefix (token : Text) (position : ℕ) : Bool :=
  if 1 < position then false
  else
    match token with
    | '[' :: rest =>
      if rest.getLast? == some ']' then
        let inner := rest.dropLast
        if inner.isEmpty || (Severity.fromText inner).isSome then false
        else inner.all fun c => c.isAlphanum || ['.', '_', '-', ':', '/'].contains c
      else false
    | _ => false

/-- Words that trail a value and may or may not be present. -/
def isOptionalUnit (token : Text) : Bool :=
  let t := Text.trimEndMatches (fun c => !c.isAlphanum) token
  ["sec", "secs", "ms", "msec", "s", "m", "h", "KB", "MB", "GB", "TB", "kb", "mb", "gb",
    "bytes"].any fun unit => unit.toList == t

def splitTrailingPunctuation (token : Text) : Text × Text :=
  let trimmed :=
    Text.trimEndMatches (fun c => [',', ';', '.', ')', ']', closeBrace, ':'].contains c) token
  if trimmed.isEmpty then (token, []) else (trimmed, token.drop trimmed.length)

/-- A token that holds a placeholder, or the wildcard that merging introduces. -/
def isPlaceholder (token : Text) : Bool := token.contains '<' && token.contains '>'

/-! ## Lines -/

/-- The longest group in parentheses treated as one aside. -/
def maxParenTokens : ℕ := 4

/-- How many words after the first belong to an aside with a value in it, if there is one. -/
def asideLength (words : List Text) : Option ℕ := do
  let first ← words.head?
  if ['('].isPrefixOf first && !(['(', ')'].isPrefixOf first) then
    let last ← (words.take maxParenTokens).findIdx? fun w => w.getLast? == some ')'
    let group := List.intercalate [' '] (words.take (last + 1))
    if group.any Char.isDigit then some last else none
  else none

/-- What a word becomes: its masked token, and its text as a parameter. -/
def maskToken (word : Text) (position : ℕ) : Text × Text :=
  if isComponentPrefix word position then (placeholder .component, word)
  else
    let (core, trailing) := splitTrailingPunctuation word
    match splitKv core with
    | some (key, value) =>
      let mask := classify value
      if mask.isVariable then (key ++ ['='] ++ mask.placeholder ++ trailing, value)
      else (core ++ trailing, value)
    | none =>
      let mask := classify core
      if mask.isVariable then (mask.placeholder ++ trailing, core) else (word, core)

/-- The loop of `mask_line`; the next `skip` words belong to an aside. -/
def maskWords : List Text → ℕ → ℕ → List Text × List Text → List Text × List Text
  | [], _, _, acc => acc
  | _ :: rest, position, skip + 1, acc => maskWords rest (position + 1) skip acc
  | word :: rest, position, 0, (tokens, raw) =>
    match asideLength (word :: rest) with
    | some last => maskWords rest (position + 1) last (tokens, raw)
    | none =>
      if isOptionalUnit word && tokens.getLast?.any isPlaceholder then
        maskWords rest (position + 1) 0 (tokens, raw)
      else
        let (token, param) := maskToken word position
        maskWords rest (position + 1) 0 (tokens ++ [token], raw ++ [param])

/-- `mask_line`: the masked tokens of a line, and the parameter candidates at the same
places. -/
def maskLine (line : Text) : List Text × List Text :=
  maskWords (Text.splitWhitespace line) 0 0 ([], [])

theorem length_maskWords (words : List Text) (position skip : ℕ) (acc : List Text × List Text)
    (h : acc.1.length = acc.2.length) :
    (maskWords words position skip acc).1.length
      = (maskWords words position skip acc).2.length := by
  induction words generalizing position skip acc with
  | nil => exact h
  | cons word rest ih =>
    obtain ⟨tokens, raw⟩ := acc
    cases skip with
    | succ skip => exact ih _ _ _ h
    | zero =>
      rw [maskWords]
      split
      · exact ih _ _ _ h
      · split
        · exact ih _ _ _ h
        · apply ih
          simpa using h

/-- The two lists stay aligned. -/
theorem length_maskLine (line : Text) :
    (maskLine line).1.length = (maskLine line).2.length :=
  length_maskWords _ _ _ _ rfl

end Mask

end LogLess
